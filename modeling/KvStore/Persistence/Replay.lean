/-
`replay` on any file. The loop is first described without a bound on its turns (`Replays`). Then: a
log cut anywhere replays to its complete records (`replay_take`); a log replayed over a snapshot
that already has the effect of a first part of it gives the effect of the whole (`replay_absorb`);
and the files on which no decoding step leaves its buffer are exactly those made of records that
hold an entry, up to the first position at which no record with the right checksum starts
(`replays_iff_wellFormed`). Eight zero bytes are not such a file (`zeros_leave_buffer`).
-/
import KvStore.Persistence.Recovery

namespace KvStore

open Bytes Updates

namespace Wal

/-! ## The loop -/

/-- The loop of `replay` on a file: it decodes the entries `es`, every field inside its buffer, and
ends. -/
inductive Replays : Str → List Entry → Prop
  | stop {file : Str} : scanRecord file = .stop → Replays file []
  | entry {file rest : Str} {e : Entry} {es : List Entry} :
      scanRecord file = .entry e rest → Replays rest es → Replays file (e :: es)

theorem Replays.entriesOf {file : Str} {es : List Entry} (h : Replays file es) : entriesOf file = some es := by
  induction h with
  | stop hs => exact entriesOf_stop hs
  | entry hs _ ih =>
    rw [entriesOf_entry hs, ih]
    rfl

theorem scanRecord_nil : scanRecord [] = .stop := rfl

theorem replays_of_readEntries : ∀ {fuel : Nat} {file : Str} {es : List Entry}, file.length ≤ fuel →
    readEntries fuel file = some es → Replays file es
  | 0, file, es, hf, h => by
    have hnil : file = [] := List.length_eq_zero_iff.1 (Nat.le_zero.1 hf)
    subst hnil
    cases h
    exact .stop scanRecord_nil
  | fuel + 1, file, es, hf, h => by
    unfold readEntries at h
    cases hs : scanRecord file with
    | stop =>
      rw [hs] at h
      cases h
      exact .stop hs
    | outOfBounds =>
      rw [hs] at h
      cases h
    | entry e rest =>
      rw [hs] at h
      obtain ⟨es', hes', rfl⟩ := Option.map_eq_some_iff.1 h
      have hc := scanRecord_consumes hs
      exact .entry hs (replays_of_readEntries (by omega) hes')

/-- As many turns as there are bytes are enough for the loop. -/
theorem replays_iff_entriesOf {file : Str} {es : List Entry} : Replays file es ↔ entriesOf file = some es :=
  ⟨Replays.entriesOf, replays_of_readEntries (le_refl _)⟩

theorem Replays.replay {file : Str} {es : List Entry} (h : Replays file es) (store : KVStore) :
    replay file store = some (applyAll store es, es.length) := by
  rw [replay_eq, h.entriesOf]
  rfl

/-! ## A log cut short -/

/-- Of a log that was cut, the entries whose records are complete are read. -/
theorem entriesOf_take : ∀ {es : List Entry}, (∀ e ∈ es, Loggable e) → ∀ n : Nat,
    entriesOf ((log es).take n) = some (es.take (fitting record es n))
  | [], _, n => by
    rw [log_nil, List.take_nil, List.take_nil]
    exact entriesOf_stop scanRecord_nil
  | e :: es, h, n => by
    have he := h e List.mem_cons_self
    have ih := entriesOf_take fun f hf => h f (List.mem_cons_of_mem _ hf)
    rw [log_cons, fitting]
    by_cases hn : (record e).length ≤ n
    · rw [if_pos hn, List.take_append, List.take_of_length_le hn, entriesOf_entry (scanRecord_record he _), ih,
        List.take_succ_cons]
      rfl
    · -- the cut lies inside this record
      rw [if_neg hn, List.take_append_of_le_length (by omega), List.take_zero]
      exact entriesOf_stop (scanRecord_torn he (by omega))

/-- A log of PUT and DELETE entries of accepted sizes, cut after any number of bytes: replay applies
exactly the longest initial run of entries whose records are complete and returns their number;
the whole log replays to all entries. -/
theorem replay_take {es : List Entry}
    (h : ∀ e ∈ es, (e.command = .put ∨ e.command = .delete) ∧ KVStore.Accepts e.key e.value) (store : KVStore)
    (n : Nat) :
    (∃ j, IsGreatest {i | i ≤ es.length ∧ (log (es.take i)).length ≤ n} j ∧
      replay ((log es).take n) store = some (applyAll store (es.take j), j)) ∧
    replay (log es) store = some (applyAll store es, es.length) := by
  have hes : ∀ e ∈ es, Loggable e := fun e he => loggable_of_accepts (h e he).2
  constructor
  · have hgreatest : IsGreatest {i | i ≤ es.length ∧ (log (es.take i)).length ≤ n} (fitting record es n) :=
      isGreatest_fitting record es n
    refine ⟨fitting record es n, hgreatest, ?_⟩
    rw [replay_eq, entriesOf_take hes, Option.map_some, List.length_take, Nat.min_eq_left hgreatest.1.1]
  · rw [replay_eq, entriesOf_log hes]
    rfl

/-- A PUT of `"k"` and one of `"a"`. -/
def twoPuts : List Entry := [⟨.put, [107], [118]⟩, ⟨.put, [97], [98]⟩]

/-- The second record cut after three bytes. -/
theorem replay_take_twoPuts : ∃ j, IsGreatest {i | i ≤ twoPuts.length ∧ (log (twoPuts.take i)).length ≤ 22} j ∧
    replay ((log twoPuts).take 22) KVStore.empty = some (applyAll KVStore.empty (twoPuts.take j), j) := by
  have h : ∀ e ∈ twoPuts, (e.command = .put ∨ e.command = .delete) ∧ KVStore.Accepts e.key e.value := by decide
  exact (replay_take h KVStore.empty 22).1

/-! ## A log over a snapshot -/

/-- Replaying a log over a snapshot that has the effect of a first part of it is harmless: loading
the snapshot of the store that `es` makes of `m` and applying `es ++ fs`, as entries, from the log
of their records or from any other file that holds them, gives what `es ++ fs` makes of `m`; applied
once more, a log changes nothing. -/
theorem replay_absorb (m : KVStore) (es fs : List Entry) :
    applyAll (KVStore.empty.loadFromSnapshot (applyAll m es).snapshot) (es ++ fs) = applyAll m (es ++ fs) ∧
    applyAll (KVStore.empty.loadFromSnapshot (applyAll m es).snapshot) es = applyAll m es ∧
    ((∀ e ∈ es ++ fs, Loggable e) →
      replay (log (es ++ fs)) (KVStore.empty.loadFromSnapshot (applyAll m es).snapshot) =
        some (applyAll m (es ++ fs), (es ++ fs).length)) ∧
    (∀ file, Replays file (es ++ fs) →
      replay file (KVStore.empty.loadFromSnapshot (applyAll m es).snapshot) =
        some (applyAll m (es ++ fs), (es ++ fs).length)) ∧
    ∀ d : Disk, d.loaded = applyAll m es → Replays d.wal (es ++ fs) → d.recover = some (applyAll m (es ++ fs)) := by
  have hsnapshot : KVStore.empty.loadFromSnapshot (applyAll m es).snapshot = applyAll m es := rfl
  have habsorb := applyAll_absorb m es fs
  have hagain := applyAll_absorb m es []
  rw [List.append_nil] at hagain
  have hfile : ∀ file, Replays file (es ++ fs) →
      replay file (applyAll m es) = some (applyAll m (es ++ fs), (es ++ fs).length) := by
    intro file h
    rw [h.replay, habsorb]
  rw [hsnapshot]
  refine ⟨habsorb, hagain, ?_, hfile, ?_⟩
  · intro hlog
    exact hfile _ (replays_iff_entriesOf.2 (entriesOf_log hlog))
  · intro d hd h
    rw [Disk.recover_of_entries h.entriesOf, hd, habsorb]

/-! ## Records inside their buffers -/

/-- A record with this buffer: its length, the buffer, its checksum. -/
def frame (buffer : Str) : Str := le32 buffer.length ++ (buffer ++ le32 (crc32 buffer).toNat)

/-- The buffer holds a command, a key and a value, each length followed by as many bytes. What
stands behind the value is not read. -/
def HoldsEntry (buffer : Str) : Prop :=
  ∃ command key value behind, key.length < 2 ^ 32 ∧ value.length < 2 ^ 32 ∧
    buffer = command :: (le32 key.length ++ (key ++ (le32 value.length ++ (value ++ behind))))

/-- No complete record with the right checksum starts here. -/
def NoRecord (file : Str) : Prop := ∀ buffer rest, buffer.length < 2 ^ 32 → file ≠ frame buffer ++ rest

/-- Records that hold an entry each, and then no further record. -/
def WellFormed (file : Str) : Prop :=
  ∃ (buffers : List Str) (tail : Str), (∀ b ∈ buffers, b.length < 2 ^ 32 ∧ HoldsEntry b) ∧ NoRecord tail ∧
    file = buffers.flatMap frame ++ tail

/-- The fields are all inside the buffer exactly if it holds an entry. -/
theorem decodeEntry_iff (buffer : Str) : (∃ e, decodeEntry buffer = some e) ↔ HoldsEntry buffer := by
  constructor
  · rintro ⟨e, h⟩
    cases buffer with
    | nil => cases h
    | cons command p =>
      obtain ⟨⟨keyLen, p₁⟩, h1, h⟩ := Option.bind_eq_some_iff.1 h
      obtain ⟨⟨key, p₂⟩, h2, h⟩ := Option.bind_eq_some_iff.1 h
      obtain ⟨⟨valLen, p₃⟩, h3, h⟩ := Option.bind_eq_some_iff.1 h
      obtain ⟨⟨value, behind⟩, h4, -⟩ := Option.bind_eq_some_iff.1 h
      obtain ⟨rfl, hkl⟩ := takeExact_some h1
      obtain ⟨rfl, hk⟩ := takeExact_some h2
      obtain ⟨rfl, hvl⟩ := takeExact_some h3
      obtain ⟨rfl, hv⟩ := takeExact_some h4
      have hkey := ofLe_lt keyLen
      have hvalue := ofLe_lt valLen
      rw [hkl] at hkey
      rw [hvl] at hvalue
      refine ⟨command, key, value, behind, by omega, by omega, ?_⟩
      rw [hk, hv, le32_ofLe hkl, le32_ofLe hvl]
  · rintro ⟨command, key, value, behind, hk, hv, rfl⟩
    refine ⟨⟨Command.ofByte command, key, value⟩, ?_⟩
    simp only [decodeEntry, takeExact_append _ (length_le32 _), ofLe_le32 hk, ofLe_le32 hv, takeExact_append _ rfl,
      Option.bind_eq_bind, Option.bind_some]
    rfl

/-- At a record with the right checksum the loop decodes its buffer. -/
theorem scanRecord_frame {buffer : Str} (h : buffer.length < 2 ^ 32) (rest : Str) :
    scanRecord (frame buffer ++ rest) = (decodeEntry buffer).elim .outOfBounds fun e => .entry e rest := by
  have hcrc : ofLe (le32 (crc32 buffer).toNat) = (crc32 buffer).toNat := ofLe_le32 (crc32 buffer).toNat_lt
  unfold scanRecord frame
  simp only [List.append_assoc, takeExact_append _ (length_le32 _), ofLe_le32 h, takeExact_append _ rfl, hcrc,
    ne_eq, not_true_eq_false, if_false]
  cases decodeEntry buffer <;> rfl

/-- A file starts with a record whose checksum is right, or the loop stops there. -/
theorem frame_or_stop (file : Str) :
    (∃ buffer rest, buffer.length < 2 ^ 32 ∧ file = frame buffer ++ rest) ∨ scanRecord file = .stop := by
  unfold scanRecord
  cases h1 : takeExact 4 file with
  | none => exact Or.inr rfl
  | some r1 =>
    obtain ⟨len, r1⟩ := r1
    obtain ⟨rfl, hlen⟩ := takeExact_some h1
    cases h2 : takeExact (ofLe len) r1 with
    | none => simp [h2]
    | some r2 =>
      obtain ⟨buffer, r2⟩ := r2
      obtain ⟨rfl, hbuffer⟩ := takeExact_some h2
      cases h3 : takeExact 4 r2 with
      | none => simp [h2, h3]
      | some r3 =>
        obtain ⟨crc, r3⟩ := r3
        obtain ⟨rfl, hcrc⟩ := takeExact_some h3
        by_cases hc : (crc32 buffer).toNat = ofLe crc
        · left
          have hlt := ofLe_lt len
          rw [hlen] at hlt
          refine ⟨buffer, r3, by omega, ?_⟩
          rw [frame, hc, hbuffer, le32_ofLe hlen, le32_ofLe hcrc]
          simp
        · right
          simp [h2, h3, hc]

theorem scanRecord_stop_iff (file : Str) : scanRecord file = .stop ↔ NoRecord file := by
  constructor
  · rintro h buffer rest hlen rfl
    rw [scanRecord_frame hlen] at h
    cases hd : decodeEntry buffer with
    | none =>
      rw [hd] at h
      cases h
    | some e =>
      rw [hd] at h
      cases h
  · intro h
    rcases frame_or_stop file with ⟨buffer, rest, hlen, rfl⟩ | hs
    · exact absurd rfl (h buffer rest hlen)
    · exact hs

/-- An entry is decoded at a record that holds one. -/
theorem scanRecord_entry {file rest : Str} {e : Entry} (h : scanRecord file = .entry e rest) :
    ∃ buffer, buffer.length < 2 ^ 32 ∧ HoldsEntry buffer ∧ file = frame buffer ++ rest := by
  rcases frame_or_stop file with ⟨buffer, rest', hlen, rfl⟩ | hs
  · rw [scanRecord_frame hlen] at h
    cases hd : decodeEntry buffer with
    | none =>
      rw [hd] at h
      cases h
    | some e' =>
      rw [hd] at h
      cases h
      exact ⟨buffer, hlen, (decodeEntry_iff buffer).1 ⟨e, hd⟩, rfl⟩
  · rw [hs] at h
    cases h

theorem Replays.wellFormed {file : Str} {es : List Entry} (h : Replays file es) : WellFormed file := by
  induction h with
  | @stop file hs => exact ⟨[], file, by simp, (scanRecord_stop_iff file).1 hs, rfl⟩
  | entry hs _ ih =>
    obtain ⟨buffer, hlen, hholds, rfl⟩ := scanRecord_entry hs
    obtain ⟨buffers, tail, hall, htail, rfl⟩ := ih
    refine ⟨buffer :: buffers, tail, List.forall_mem_cons.2 ⟨⟨hlen, hholds⟩, hall⟩, htail, ?_⟩
    rw [List.flatMap_cons, List.append_assoc]

theorem replays_frames {tail : Str} (htail : NoRecord tail) : ∀ {buffers : List Str},
    (∀ b ∈ buffers, b.length < 2 ^ 32 ∧ HoldsEntry b) → ∃ es, Replays (buffers.flatMap frame ++ tail) es
  | [], _ => ⟨[], .stop ((scanRecord_stop_iff tail).2 htail)⟩
  | b :: buffers, h => by
    obtain ⟨hlen, hholds⟩ := h b List.mem_cons_self
    obtain ⟨e, he⟩ := (decodeEntry_iff b).2 hholds
    obtain ⟨es, hes⟩ := replays_frames htail fun b hb => h b (List.mem_cons_of_mem _ hb)
    refine ⟨e :: es, .entry ?_ hes⟩
    rw [List.flatMap_cons, List.append_assoc, scanRecord_frame hlen, he]
    rfl

/-- The loop ends with every field decoded inside its record's buffer exactly on the files that are
records holding an entry each, up to where no further record with the right checksum starts. -/
theorem replays_iff_wellFormed (file : Str) :
    (∃ es, Replays file es ∧ ∀ store, replay file store = some (applyAll store es, es.length)) ↔ WellFormed file := by
  constructor
  · rintro ⟨es, h, -⟩
    exact h.wellFormed
  · rintro ⟨buffers, tail, hall, htail, rfl⟩
    obtain ⟨es, hes⟩ := replays_frames htail hall
    exact ⟨es, hes, hes.replay⟩

/-- Eight zero bytes: a record of length 0 whose checksum, 0, is right. Already the command is
read outside its empty buffer. -/
theorem zeros_leave_buffer : List.replicate 8 0 = frame [] ∧ decodeEntry [] = none ∧
    ¬ ∃ es, Replays (List.replicate 8 0) es ∧
      ∀ store, replay (List.replicate 8 0) store = some (applyAll store es, es.length) := by
  have hframe : List.replicate 8 0 = frame [] := by decide
  refine ⟨hframe, rfl, ?_⟩
  rintro ⟨es, h, -⟩
  have hout : scanRecord (List.replicate 8 0) = .outOfBounds := by
    rw [hframe, ← List.append_nil (frame []), scanRecord_frame (by decide)]
    rfl
  cases h with
  | stop hs =>
    rw [hout] at hs
    cases hs
  | entry hs _ =>
    rw [hout] at hs
    cases hs

end Wal

end KvStore
