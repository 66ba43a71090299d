/-
The decoders of the wire protocol on arbitrary buffers. They accept exactly the encodings, whatever
follows them, and never read outside the buffer: the decoders are written once more with the offset
of the source in a `size_t` and every access checked against the length, and no check ever fails.
-/
import KvStore.Protocol.Protocol

namespace KvStore.Protocol

open Bytes

/-! ## Checked accesses -/

/-- An access to `count` bytes at `offset` that does not lie within the buffer. -/
structure OutOfBounds where
  offset : Nat
  count : Nat
  deriving DecidableEq, Repr

/-- A value of type `size_t`, of 64 bits. -/
def sizeT (n : Nat) : Nat := n % 2 ^ 64

/-- The bytes `data[offset]`, …, `data[offset + count - 1]`. -/
def access (data : Str) (offset count : Nat) : Except OutOfBounds Str :=
  if offset + count ≤ data.length then .ok (slice data offset count) else .error ⟨offset, count⟩

/-- `deserializeRequest`, with the offset as the source computes it and its accesses checked. -/
def deserializeRequestChecked (data : Str) : Except OutOfBounds (Option Request) := do
  if data.length < 1 + 4 + 4 then return none
  let command ← access data 0 1
  let nKeyLen ← access data 1 4
  let keyLen := ofBe nKeyLen
  let offset := sizeT (1 + 4)
  if data.length < sizeT (offset + keyLen + 4) then return none
  let key ← access data offset keyLen
  let offset := sizeT (offset + keyLen)
  let nValLen ← access data offset 4
  let valLen := ofBe nValLen
  let offset := sizeT (offset + 4)
  if data.length < sizeT (offset + valLen) then return none
  let value ← access data offset valLen
  return some ⟨Command.ofByte (command.headD 0), key, value⟩

/-- `deserializeResponse`, in the same way. -/
def deserializeResponseChecked (data : Str) : Except OutOfBounds (Option Response) := do
  if data.length < 1 + 4 then return none
  let status ← access data 0 1
  let nValLen ← access data 1 4
  let valLen := ofBe nValLen
  let offset := sizeT (1 + 4)
  if data.length < sizeT (offset + valLen) then return none
  let value ← access data offset valLen
  return some ⟨Status.ofByte (status.headD 0), value⟩

variable {data : Str}

theorem access_ok {offset count : Nat} (h : offset + count ≤ data.length) :
    access data offset count = .ok (slice data offset count) :=
  if_pos h

theorem length_slice {offset count : Nat} (h : offset + count ≤ data.length) :
    (slice data offset count).length = count := by
  unfold slice
  rw [List.length_take, List.length_drop]
  omega

/-- A length field is less than `2^32`. -/
theorem ofBe_slice_lt {offset : Nat} (h : offset + 4 ≤ data.length) : ofBe (slice data offset 4) < 2 ^ 32 :=
  ofBe_lt (length_slice h)

/-- Numbers far below the limit are not changed by it. -/
theorem sizeT_of_lt {n : Nat} (h : n < 2 ^ 64) : sizeT n = n := Nat.mod_eq_of_lt h

theorem headD_slice (data : Str) : (slice data 0 1).headD 0 = data.headD 0 := by
  cases data <;> rfl

/-- No access of `deserializeRequest` leaves the buffer. -/
theorem deserializeRequestChecked_eq (data : Str) :
    deserializeRequestChecked data = .ok (deserializeRequest data) := by
  have hfive : sizeT (1 + 4) = 5 := rfl
  unfold deserializeRequestChecked deserializeRequest
  by_cases hmin : data.length < 1 + 4 + 4
  · rw [if_pos hmin, if_pos hmin]
    rfl
  · have hkeyLen : ofBe (slice data 1 4) < 2 ^ 32 := ofBe_slice_lt (by omega)
    rw [if_neg hmin, if_neg hmin, access_ok (show 0 + 1 ≤ data.length by omega)]
    simp only [bind, Except.bind, pure, Except.pure, headD_slice, hfive,
      access_ok (show 1 + 4 ≤ data.length by omega)]
    generalize ofBe (slice data 1 4) = keyLen at hkeyLen
    have hend : sizeT (5 + keyLen + 4) = 5 + keyLen + 4 := sizeT_of_lt (by omega)
    have hoffset : sizeT (5 + keyLen) = 5 + keyLen := sizeT_of_lt (by omega)
    by_cases hkey : data.length < 5 + keyLen + 4
    · simp only [hend, hkey, if_true]
    · have hvalLen : ofBe (slice data (5 + keyLen) 4) < 2 ^ 32 := ofBe_slice_lt (by omega)
      simp only [hend, hoffset, hkey, if_false, access_ok (show 5 + keyLen ≤ data.length by omega),
        access_ok (show 5 + keyLen + 4 ≤ data.length by omega)]
      generalize ofBe (slice data (5 + keyLen) 4) = valLen at hvalLen
      have hend' : sizeT (5 + keyLen + 4 + valLen) = 5 + keyLen + 4 + valLen := sizeT_of_lt (by omega)
      by_cases hval : data.length < 5 + keyLen + 4 + valLen
      · simp only [hend', hval, if_true]
      · simp only [hend', hval, if_false, access_ok (show 5 + keyLen + 4 + valLen ≤ data.length by omega)]

/-- No access of `deserializeResponse` leaves the buffer. -/
theorem deserializeResponseChecked_eq (data : Str) :
    deserializeResponseChecked data = .ok (deserializeResponse data) := by
  have hfive : sizeT (1 + 4) = 5 := rfl
  unfold deserializeResponseChecked deserializeResponse
  by_cases hmin : data.length < 1 + 4
  · rw [if_pos hmin, if_pos hmin]
    rfl
  · have hvalLen : ofBe (slice data 1 4) < 2 ^ 32 := ofBe_slice_lt (by omega)
    rw [if_neg hmin, if_neg hmin, access_ok (show 0 + 1 ≤ data.length by omega)]
    simp only [bind, Except.bind, pure, Except.pure, headD_slice, hfive,
      access_ok (show 1 + 4 ≤ data.length by omega)]
    generalize ofBe (slice data 1 4) = valLen at hvalLen
    have hend : sizeT (5 + valLen) = 5 + valLen := sizeT_of_lt (by omega)
    by_cases hval : data.length < 5 + valLen
    · simp only [hend, hval, if_true]
    · simp only [hend, hval, if_false, access_ok (show 5 + valLen ≤ data.length by omega)]

/-! ## Accepted buffers -/

/-- A buffer goes on at an offset with a field and then with the rest. -/
theorem drop_eq_slice (data : Str) (offset count : Nat) :
    data.drop offset = slice data offset count ++ data.drop (offset + count) := by
  unfold slice
  rw [← List.drop_drop, List.take_append_drop]

theorem eq_head_append (h : 0 < data.length) : data = data.headD 0 :: data.drop 1 := by
  cases data with
  | nil => cases h
  | cons b data => rfl

/-- A buffer that is accepted begins with the encoding of what was decoded. -/
theorem eq_of_deserializeRequest {req : Request} (h : deserializeRequest data = some req) :
    req.key.length < 2 ^ 32 ∧ req.value.length < 2 ^ 32 ∧ ∃ t, data = serializeRequest req ++ t := by
  unfold deserializeRequest at h
  obtain ⟨hmin, h⟩ := Option.ite_none_left_eq_some.1 h
  obtain ⟨hkey, h⟩ := Option.ite_none_left_eq_some.1 h
  obtain ⟨hval, h⟩ := Option.ite_none_left_eq_some.1 h
  cases h
  have hkeyLen : ofBe (slice data 1 4) < 2 ^ 32 := ofBe_slice_lt (by omega)
  have hvalLen : ofBe (slice data (5 + ofBe (slice data 1 4)) 4) < 2 ^ 32 := ofBe_slice_lt (by omega)
  have hkeyField := be32_ofBe (length_slice (show 1 + 4 ≤ data.length by omega))
  have hvalField := be32_ofBe (length_slice (show 5 + ofBe (slice data 1 4) + 4 ≤ data.length by omega))
  have hk := length_slice (show 5 + ofBe (slice data 1 4) ≤ data.length by omega)
  have hv := length_slice (Nat.not_lt.1 hval)
  refine ⟨by rw [hk]; exact hkeyLen, by rw [hv]; exact hvalLen, data.drop
    (5 + ofBe (slice data 1 4) + 4 + ofBe (slice data (5 + ofBe (slice data 1 4)) 4)), ?_⟩
  unfold serializeRequest
  simp only [hk, hv, hkeyField, hvalField, Command.toByte_ofByte, List.cons_append, List.append_assoc]
  rw [← drop_eq_slice, ← drop_eq_slice, ← drop_eq_slice, ← drop_eq_slice]
  exact eq_head_append (by omega)

theorem eq_of_deserializeResponse {resp : Response} (h : deserializeResponse data = some resp) :
    resp.value.length < 2 ^ 32 ∧ ∃ t, data = serializeResponse resp ++ t := by
  unfold deserializeResponse at h
  obtain ⟨hmin, h⟩ := Option.ite_none_left_eq_some.1 h
  obtain ⟨hval, h⟩ := Option.ite_none_left_eq_some.1 h
  cases h
  have hvalLen : ofBe (slice data 1 4) < 2 ^ 32 := ofBe_slice_lt (by omega)
  have hvalField := be32_ofBe (length_slice (show 1 + 4 ≤ data.length by omega))
  have hv := length_slice (Nat.not_lt.1 hval)
  refine ⟨by rw [hv]; exact hvalLen, data.drop (5 + ofBe (slice data 1 4)), ?_⟩
  unfold serializeResponse
  simp only [hv, hvalField, Status.toByte_ofByte, List.cons_append, List.append_assoc]
  rw [← drop_eq_slice, ← drop_eq_slice]
  exact eq_head_append (by omega)

/-- The decoders accept exactly the encodings of messages whose lengths fit their fields, possibly
followed by more bytes, and all their accesses are within the buffer. -/
theorem decoders_accept_encodings (data : Str) :
    (∀ req : Request, deserializeRequest data = some req ↔
      req.key.length < 2 ^ 32 ∧ req.value.length < 2 ^ 32 ∧ ∃ t, data = serializeRequest req ++ t) ∧
    (∀ resp : Response, deserializeResponse data = some resp ↔
      resp.value.length < 2 ^ 32 ∧ ∃ t, data = serializeResponse resp ++ t) ∧
    deserializeRequestChecked data = .ok (deserializeRequest data) ∧
    deserializeResponseChecked data = .ok (deserializeResponse data) := by
  refine ⟨?_, ?_, deserializeRequestChecked_eq data, deserializeResponseChecked_eq data⟩
  · intro req
    constructor
    · exact eq_of_deserializeRequest
    · rintro ⟨hk, hv, t, rfl⟩
      exact deserializeRequest_append hk hv t
  · intro resp
    constructor
    · exact eq_of_deserializeResponse
    · rintro ⟨hv, t, rfl⟩
      exact deserializeResponse_append hv t

end KvStore.Protocol
