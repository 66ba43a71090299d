/-
Corrupted records. The checksum of `src/persistence/wal.cpp` is the register of `Crc` with 32 bits
and the polynomial `0xEDB88320`, started with ones and complemented, and it is stored least
significant byte first. So payload and checksum together form one message whose register is always
the same, and a change of at most four consecutive bytes of it, wherever they lie, is seen by
`replay` (`replay_burst`).
-/
import KvStore.Lib.Crc
import KvStore.Persistence.Replay

namespace KvStore

open Bytes

namespace Wal

/-! ## The checksum as a register -/

/-- The polynomial in `crc32`. -/
def polynomial : BitVec 32 := 0xEDB88320#32

/-- The register after a payload and its own checksum. -/
def residue : BitVec 32 := (Crc.shift polynomial)^[32] (BitVec.allOnes 32)

theorem polynomial_msb : polynomial.msb = true := by decide

theorem toBitVec_crcBit (r : UInt32) : (crcBit r).toBitVec = Crc.shift polynomial r.toBitVec := by
  have hmask : polynomial &&& -(r.toBitVec &&& 1#32) = if r.toBitVec.getLsbD 0 then polynomial else 0#32 := by
    rw [BitVec.and_one_eq_setWidth_ofBool_getLsbD]
    cases r.toBitVec.getLsbD 0 <;> decide
  unfold Crc.shift
  rw [← hmask]
  rfl

theorem toBitVec_crcByte (r : UInt32) (b : UInt8) :
    (crcByte r b).toBitVec = Crc.feed polynomial r.toBitVec b := by
  have hiter : Function.Semiconj UInt32.toBitVec crcBit^[8] (Crc.shift polynomial)^[8] :=
    Function.Semiconj.iterate_right toBitVec_crcBit 8
  unfold crcByte Crc.feed
  rw [hiter.eq, UInt32.toBitVec_xor, UInt8.toBitVec_toUInt32]

theorem toBitVec_crc32 (data : Str) :
    (crc32 data).toBitVec = ~~~ Crc.update polynomial (BitVec.allOnes 32) data := by
  have hfold : Crc.update polynomial (UInt32.toBitVec 0xFFFFFFFF) data = (data.foldl crcByte 0xFFFFFFFF).toBitVec :=
    List.foldl_hom UInt32.toBitVec fun r b => (toBitVec_crcByte r b).symm
  unfold crc32
  rw [UInt32.toBitVec_not, ← hfold]
  rfl

/-- The check of `replay`: payload and checksum leave the residue. -/
theorem crc32_eq_iff (buffer : Str) {crc : Str} (h : crc.length = 4) :
    (crc32 buffer).toNat = ofLe crc ↔ Crc.update polynomial (BitVec.allOnes 32) (buffer ++ crc) = residue := by
  have h32 : 8 * crc.length = 32 := by omega
  rw [Crc.update_append, residue, ← Crc.check_iff polynomial_msb _ h32, ← toBitVec_crc32, ← BitVec.toNat_inj,
    Crc.toNat_word (le_of_eq h32)]
  exact eq_comm

/-! ## A record with a wrong checksum -/

theorem scanRecord_badChecksum {buffer crc : Str} (hb : buffer.length < 2 ^ 32) (hc : crc.length = 4)
    (hne : (crc32 buffer).toNat ≠ ofLe crc) (rest : Str) :
    scanRecord (le32 buffer.length ++ (buffer ++ (crc ++ rest))) = .stop := by
  unfold scanRecord
  simp only [takeExact_append _ (length_le32 _), ofLe_le32 hb, takeExact_append _ rfl, takeExact_append _ hc]
  rw [if_pos hne]

/-- What `append` writes behind the length: payload and checksum. -/
def body (e : Entry) : Str := payload e ++ le32 (crc32 (payload e)).toNat

theorem update_body (e : Entry) : Crc.update polynomial (BitVec.allOnes 32) (body e) = residue :=
  (crc32_eq_iff (payload e) (length_le32 _)).1 (ofLe_le32 (crc32 (payload e)).toNat_lt).symm

/-- A record whose payload and checksum are changed within four bytes stops the scan. -/
theorem scanRecord_burst {e : Entry} (he : Loggable e) {a d d' c : Str} (hbody : body e = a ++ (d ++ c))
    (hlen : d'.length = d.length) (h4 : d.length ≤ 4) (hne : d' ≠ d) (rest : Str) :
    scanRecord (le32 (entryLen e) ++ (a ++ (d' ++ c) ++ rest)) = .stop := by
  have hreg : Crc.update polynomial (BitVec.allOnes 32) (a ++ (d' ++ c)) ≠ residue := by
    rw [← update_body e, hbody]
    exact Crc.update_ne_of_burst polynomial_msb _ a c hlen (by omega) hne
  have hsize : (a ++ (d' ++ c)).length = (payload e).length + 4 := by
    have hb := congrArg List.length hbody
    simp only [body, List.length_append, length_le32] at hb ⊢
    omega
  -- cut the changed bytes where the scan cuts them
  obtain ⟨buffer, crc, hcut, hbuffer, hcrc⟩ : ∃ buffer crc, a ++ (d' ++ c) = buffer ++ crc ∧
      buffer.length = (payload e).length ∧ crc.length = 4 := by
    refine ⟨(a ++ (d' ++ c)).take (payload e).length, (a ++ (d' ++ c)).drop (payload e).length, ?_, ?_, ?_⟩
    · exact (List.take_append_drop _ _).symm
    · rw [List.length_take, hsize]
      omega
    · rw [List.length_drop, hsize]
      omega
  have hlt : buffer.length < 2 ^ 32 := by
    rw [hbuffer, ← entryLen_eq he]
    exact entryLen_lt e
  rw [hcut] at hreg ⊢
  rw [entryLen_eq he, ← hbuffer, List.append_assoc]
  exact scanRecord_badChecksum hlt hcrc (fun h => hreg ((crc32_eq_iff buffer hcrc).1 h)) rest

/-! ## Bursts -/

/-- A log in which at most four consecutive bytes of payload and checksum of record `i` are changed
replays to the entries before `i`. -/
theorem replay_burst {es : List Entry}
    (h : ∀ e ∈ es, (e.command = .put ∨ e.command = .delete) ∧ KVStore.Accepts e.key e.value) {i : Nat}
    (hi : i < es.length) {pre d d' post : Str} (hfile : log es = pre ++ (d ++ post))
    (hstart : (log (es.take i)).length + 4 ≤ pre.length)
    (hend : pre.length + d.length ≤ (log (es.take (i + 1))).length) (h4 : d.length ≤ 4)
    (hlen : d'.length = d.length) (hne : d' ≠ d) (store : KVStore) :
    replay (pre ++ (d' ++ post)) store = some (applyAll store (es.take i), i) := by
  have hes : ∀ e ∈ es, Loggable e := fun e he => loggable_of_accepts (h e he).2
  have he := hes es[i] (List.getElem_mem hi)
  have hbefore : ∀ e ∈ es.take i, Loggable e := fun e hm => hes e (List.mem_of_mem_take hm)
  have hlog : log es = (log (es.take i) ++ le32 (entryLen es[i])) ++ (body es[i] ++ log (es.drop (i + 1))) := by
    conv => lhs; rw [← List.take_append_drop i es, List.drop_eq_getElem_cons hi, log_append, log_cons]
    simp only [record, body, List.append_assoc]
  have hnext : (log (es.take (i + 1))).length = (log (es.take i)).length + (4 + (body es[i]).length) := by
    rw [List.take_succ_eq_append_getElem hi, log_snoc, List.length_append]
    simp only [record, body, List.length_append, length_le32]
  -- the window lies in the body of record `i`
  rw [hlog] at hfile
  obtain ⟨a, rfl, hrest⟩ := split_append hfile (by rw [List.length_append, length_le32]; exact hstart)
  rw [← List.append_assoc] at hrest
  obtain ⟨c, hbody, hpost⟩ := split_append hrest.symm (by
    simp only [List.length_append, length_le32] at hend ⊢
    omega)
  subst hpost
  rw [List.append_assoc] at hbody
  have hfile' : (log (es.take i) ++ le32 (entryLen es[i])) ++ a ++ (d' ++ (c ++ log (es.drop (i + 1)))) =
      log (es.take i) ++ (le32 (entryLen es[i]) ++ (a ++ (d' ++ c) ++ log (es.drop (i + 1)))) := by
    simp only [List.append_assoc]
  rw [hfile', replay_eq, entriesOf_log_append hbefore, entriesOf_stop (scanRecord_burst he hbody hlen h4 hne _)]
  simp only [Option.map_some, List.append_nil, List.length_take, Nat.min_eq_left (le_of_lt hi)]

/-- The command byte of the second of two PUTs is changed into that of a DELETE. -/
theorem replay_burst_secondPut :
    replay ((log twoPuts).take 23 ++ ([3] ++ (log twoPuts).drop 24)) KVStore.empty =
      some (applyAll KVStore.empty (twoPuts.take 1), 1) := by
  have h : ∀ e ∈ twoPuts, (e.command = .put ∨ e.command = .delete) ∧ KVStore.Accepts e.key e.value := by decide
  have hfile : log twoPuts = (log twoPuts).take 23 ++ ([1] ++ (log twoPuts).drop 24) := by decide +kernel
  have hstart : (log (twoPuts.take 1)).length + 4 ≤ ((log twoPuts).take 23).length := by decide +kernel
  have hend : ((log twoPuts).take 23).length + [(1 : UInt8)].length ≤ (log (twoPuts.take 2)).length := by
    decide +kernel
  generalize (log twoPuts).take 23 = pre at hfile hstart hend ⊢
  generalize (log twoPuts).drop 24 = post at hfile ⊢
  have hlen : [(3 : UInt8)].length = [(1 : UInt8)].length := rfl
  exact replay_burst h (by decide) hfile hstart hend (by decide) hlen (by decide) KVStore.empty

end Wal

end KvStore
