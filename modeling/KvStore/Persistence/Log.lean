/-
Reading back what `append` wrote: a complete record is decoded to its entry, the torn record of
a crash stops the scan, and so the entries of a log are those of its complete records. The
entries act on the store as keyed updates, hence the laws of `Updates`: the last effective entry
of a key decides, and replaying over a store that already holds part of the log is harmless.
-/
import KvStore.Persistence.Wal

namespace KvStore

open Bytes Updates

namespace Wal

/-! ## Complete records -/

/-- An entry whose record length fits the `uint32_t` of the format. -/
def Loggable (e : Entry) : Prop := 9 + e.key.length + e.value.length < 2 ^ 32

theorem loggable_of_accepts {e : Entry} (h : KVStore.Accepts e.key e.value) : Loggable e := by
  obtain ⟨hk, hv⟩ := h
  unfold maxKeySize at hk
  unfold maxValueSize at hv
  unfold Loggable
  omega

theorem payload_eq {e : Entry} (h : Loggable e) :
    payload e = e.command.toByte :: (le32 e.key.length ++ (e.key ++ (le32 e.value.length ++ e.value))) := by
  unfold Loggable at h
  unfold payload
  rw [Nat.mod_eq_of_lt (by omega : e.key.length < 2 ^ 32), Nat.mod_eq_of_lt (by omega : e.value.length < 2 ^ 32),
    List.take_length, List.take_length]

theorem entryLen_eq {e : Entry} (h : Loggable e) : entryLen e = (payload e).length := by
  rw [payload_eq h]
  unfold Loggable at h
  unfold entryLen
  simp only [List.length_cons, List.length_append, length_le32]
  omega

theorem entryLen_lt (e : Entry) : entryLen e < 2 ^ 32 := Nat.mod_lt _ (by norm_num)

theorem length_record (e : Entry) : (record e).length = 8 + (payload e).length := by
  unfold record
  simp only [List.length_append, length_le32]
  omega

theorem decodeEntry_payload {e : Entry} (h : Loggable e) : decodeEntry (payload e) = some e := by
  rw [payload_eq h]
  unfold Loggable at h
  have hk : ofLe (le32 e.key.length) = e.key.length := ofLe_le32 (by omega)
  have hv : ofLe (le32 e.value.length) = e.value.length := ofLe_le32 (by omega)
  have hlast : takeExact e.value.length e.value = some (e.value, []) := by
    simpa using takeExact_append (a := e.value) [] rfl
  simp only [decodeEntry, takeExact_append _ (length_le32 _), hk, hv, takeExact_append _ rfl, hlast,
    Option.bind_eq_bind, Option.bind_some, Command.ofByte_toByte]
  rfl

theorem scanRecord_record {e : Entry} (h : Loggable e) (rest : Str) :
    scanRecord (record e ++ rest) = .entry e rest := by
  have hlen : ofLe (le32 (entryLen e)) = (payload e).length := by
    rw [ofLe_le32 (entryLen_lt e), entryLen_eq h]
  have hcrc : ofLe (le32 (crc32 (payload e)).toNat) = (crc32 (payload e)).toNat :=
    ofLe_le32 (crc32 (payload e)).toNat_lt
  unfold scanRecord record
  simp only [List.append_assoc, takeExact_append _ (length_le32 _), hlen, takeExact_append _ rfl, hcrc,
    ne_eq, not_true_eq_false, if_false, decodeEntry_payload h]

/-! ## Torn records -/

/-- A proper prefix of a record is too short for one of the three reads. -/
theorem scanRecord_torn {e : Entry} (h : Loggable e) {n : Nat} (hn : n < (record e).length) :
    scanRecord ((record e).take n) = .stop := by
  rw [length_record] at hn
  by_cases h4 : n < 4
  · unfold scanRecord
    rw [takeExact_short (by simp; omega)]
  · obtain ⟨m, rfl⟩ : ∃ m, n = 4 + m := ⟨n - 4, by omega⟩
    have hsplit : (record e).take (4 + m) = le32 (entryLen e) ++
        (payload e ++ le32 (crc32 (payload e)).toNat).take m := by
      unfold record
      rw [List.take_append, List.take_of_length_le (by simp)]
      simp
    have hlen : ofLe (le32 (entryLen e)) = (payload e).length := by
      rw [ofLe_le32 (entryLen_lt e), entryLen_eq h]
    unfold scanRecord
    rw [hsplit, takeExact_append _ (length_le32 _)]
    simp only [hlen]
    by_cases hp : m < (payload e).length
    · rw [takeExact_short (by simp; omega)]
    · -- the payload is complete, so it is the checksum that is cut
      obtain ⟨c, rfl⟩ : ∃ c, m = (payload e).length + c := ⟨m - (payload e).length, by omega⟩
      rw [List.take_length_add_append, takeExact_append _ rfl]
      simp only
      rw [takeExact_short (by simp; omega)]

/-! ## Fuel -/

/-- A record takes at least eight bytes of the file. -/
theorem scanRecord_consumes {file rest : Str} {e : Entry} (h : scanRecord file = .entry e rest) :
    rest.length + 8 ≤ file.length := by
  unfold scanRecord at h
  split at h
  · cases h
  · rename_i a r1 h1
    obtain ⟨rfl, ha⟩ := takeExact_some h1
    split at h
    · cases h
    · rename_i b r2 h2
      obtain ⟨rfl, -⟩ := takeExact_some h2
      split at h
      · cases h
      · rename_i c r3 h3
        obtain ⟨rfl, hc⟩ := takeExact_some h3
        split at h
        · cases h
        · split at h
          · cases h
          · cases h
            simp only [List.length_append]
            omega

/-- Enough turns are as good as any: the loop ends by itself. -/
theorem readEntries_fuel : ∀ {fuel fuel' : Nat} {file : Str}, file.length ≤ fuel → file.length ≤ fuel' →
    readEntries fuel file = readEntries fuel' file
  | 0, fuel', file, h, _ => by
    have : file = [] := List.length_eq_zero_iff.1 (by omega)
    subst this
    cases fuel' <;> rfl
  | fuel + 1, 0, file, _, h' => by
    have : file = [] := List.length_eq_zero_iff.1 (by omega)
    subst this
    rfl
  | fuel + 1, fuel' + 1, file, h, h' => by
    unfold readEntries
    cases hs : scanRecord file with
    | stop => rfl
    | outOfBounds => rfl
    | entry e rest =>
      have := scanRecord_consumes hs
      simp only [readEntries_fuel (by omega : rest.length ≤ fuel) (by omega : rest.length ≤ fuel')]

theorem entriesOf_stop {file : Str} (h : scanRecord file = .stop) : entriesOf file = some [] := by
  unfold entriesOf
  cases file.length with
  | zero => rfl
  | succ n => unfold readEntries; rw [h]

theorem entriesOf_entry {file rest : Str} {e : Entry} (h : scanRecord file = .entry e rest) :
    entriesOf file = (entriesOf rest).map (e :: ·) := by
  have hc := scanRecord_consumes h
  obtain ⟨n, hn⟩ : ∃ n, file.length = n + 1 := ⟨file.length - 1, by omega⟩
  unfold entriesOf
  rw [hn, readEntries, h]
  simp only [readEntries_fuel (by omega : rest.length ≤ n) (le_refl rest.length)]

/-! ## Logs -/

@[simp] theorem log_nil : log [] = [] := rfl

@[simp] theorem log_cons (e : Entry) (es : List Entry) : log (e :: es) = record e ++ log es := rfl

theorem log_append (es fs : List Entry) : log (es ++ fs) = log es ++ log fs := List.flatMap_append

theorem log_snoc (es : List Entry) (e : Entry) : log (es ++ [e]) = log es ++ record e := by
  rw [log_append, log_cons, log_nil, List.append_nil]

/-- The complete records at the start of a file are read first, whatever follows them. -/
theorem entriesOf_log_append : ∀ {es : List Entry}, (∀ e ∈ es, Loggable e) → ∀ rest : Str,
    entriesOf (log es ++ rest) = (entriesOf rest).map (es ++ ·)
  | [], _, rest => by simp
  | e :: es, h, rest => by
    rw [log_cons, List.append_assoc, entriesOf_entry (scanRecord_record (h e List.mem_cons_self) _),
      entriesOf_log_append (fun f hf => h f (List.mem_cons_of_mem _ hf)), Option.map_map]
    rfl

theorem entriesOf_log {es : List Entry} (h : ∀ e ∈ es, Loggable e) : entriesOf (log es) = some es := by
  have := entriesOf_log_append h []
  simpa [entriesOf, readEntries] using this

/-- A log with a torn record at its end has the entries of its complete records. -/
theorem entriesOf_torn {es : List Entry} (h : ∀ e ∈ es, Loggable e) {e : Entry} (he : Loggable e) {n : Nat}
    (hn : n < (record e).length) : entriesOf (log es ++ (record e).take n) = some es := by
  rw [entriesOf_log_append h, entriesOf_stop (scanRecord_torn he hn)]
  simp

/-- A log of complete records only. -/
def CompleteLog (wal : Str) : Prop := ∃ es, (∀ e ∈ es, Loggable e) ∧ wal = log es

end Wal

/-! ## The effect of entries -/

/-- The keyed update an entry makes; a refused PUT and an unknown command make none. -/
def Entry.update (e : Entry) : Option (Update Key Value) :=
  match e.command with
  | .put => if KVStore.Accepts e.key e.value then some (e.key, some e.value) else none
  | .delete => some (e.key, none)
  | _ => none

/-- The keyed updates of a list of entries. -/
def updates (es : List Entry) : List (Update Key Value) := es.filterMap Entry.update

namespace Wal

theorem update_key {e : Entry} {u : Update Key Value} (h : e.update = some u) : u.1 = e.key := by
  unfold Entry.update at h
  split at h
  · split at h
    · cases h; rfl
    · cases h
  · cases h; rfl
  · cases h

theorem applyEntry_some {e : Entry} {u : Update Key Value} (h : e.update = some u) (store : KVStore) :
    (applyEntry store e).data = write store.data u := by
  obtain ⟨command, key, value⟩ := e
  cases command with
  | put =>
    by_cases ha : KVStore.Accepts key value
    · rw [Entry.update, if_pos ha] at h
      cases h
      simp only [applyEntry, KVStore.put_ok ha]
    · rw [Entry.update, if_neg ha] at h
      cases h
  | delete =>
    cases h
    exact KVStore.del_data store key
  | get => cases h
  | ping => cases h
  | other b hb => cases h

theorem applyEntry_none {e : Entry} (h : e.update = none) (store : KVStore) : applyEntry store e = store := by
  obtain ⟨command, key, value⟩ := e
  cases command with
  | put =>
    by_cases ha : KVStore.Accepts key value
    · rw [Entry.update, if_pos ha] at h
      cases h
    · exact (KVStore.put_refused ha store).2.2
  | delete => cases h
  | get => rfl
  | ping => rfl
  | other b hb => rfl

/-- Entries act as their keyed updates. -/
theorem applyAll_data : ∀ (es : List Entry) (store : KVStore),
    (applyAll store es).data = writeAll store.data (updates es)
  | [], _ => rfl
  | e :: es, store => by
    rw [applyAll_cons, applyAll_data es]
    unfold updates
    cases h : e.update with
    | none => rw [applyEntry_none h, List.filterMap_cons_none h]
    | some u => rw [applyEntry_some h, List.filterMap_cons_some h, writeAll_cons]

theorem applyAll_eq (es : List Entry) (store : KVStore) :
    applyAll store es = ⟨writeAll store.data (updates es)⟩ := by
  rw [← applyAll_data]

/-- The last effective entry of a key decides its value. -/
theorem lookup_applyAll (es : List Entry) (store : KVStore) (k : Key) :
    (applyAll store es).data.lookup k = (lastOf k (updates es)).getD (store.data.lookup k) := by
  rw [applyAll_data, lookup_writeAll]

/-- Replaying a log over a store that already has the effect of an initial part of it gives the
effect of the log. -/
theorem applyAll_absorb (store : KVStore) (es fs : List Entry) :
    applyAll (applyAll store es) (es ++ fs) = applyAll store (es ++ fs) := by
  simp only [applyAll_eq, updates, List.filterMap_append]
  exact congrArg KVStore.mk (writeAll_absorb _ _ _)

end Wal

end KvStore
