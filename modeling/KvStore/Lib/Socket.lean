/-
Blocking sockets whose calls may transfer less than they are asked to. A call moves at least one
byte, unless it is a read at the end of the stream, and otherwise as many as the socket likes; the
loops that call until they have all their bytes make up for that (`readFully_append`,
`readFully_short`, `writeFully_eq`).
-/
import Mathlib.Tactic

namespace Sockets

variable {α : Type}

/-- One end of a connection: what the peer sends before it closes its end, what has been written,
and how much each call would transfer, by the number of calls made before it. -/
structure Socket (α : Type) where
  input : List α
  output : List α
  sizes : Nat → Nat
  calls : Nat

namespace Socket

/-- A connection on which the peer sends `input`. -/
def start (input : List α) (sizes : Nat → Nat) : Socket α := ⟨input, [], sizes, 0⟩

/-- What the next call transfers of `want` bytes. -/
def quota (s : Socket α) (want : Nat) : Nat := min want (max 1 (s.sizes s.calls))

/-- `read`: some of the bytes that come next; none at the end of the stream. -/
def read (s : Socket α) (want : Nat) : List α × Socket α :=
  (s.input.take (s.quota want), { s with input := s.input.drop (s.quota want), calls := s.calls + 1 })

/-- `write`: how many of the bytes have been written. -/
def write (s : Socket α) (data : List α) : Nat × Socket α :=
  (s.quota data.length, { s with output := s.output ++ data.take (s.quota data.length), calls := s.calls + 1 })

/-- Read until there are `len` bytes. Every turn brings one, so `len` turns are enough. -/
def readLoop (len : Nat) : Nat → List α → Socket α → Option (List α) × Socket α
  | 0, got, s => (some got, s)
  | fuel + 1, got, s =>
    if got.length < len then
      let (bs, s) := s.read (len - got.length)
      if bs.length = 0 then (none, s) else readLoop len fuel (got ++ bs) s
    else (some got, s)

def readFully (s : Socket α) (len : Nat) : Option (List α) × Socket α := readLoop len len [] s

/-- Write what comes after the first `written` bytes. -/
def writeLoop (data : List α) : Nat → Nat → Socket α → Bool × Socket α
  | 0, _, s => (true, s)
  | fuel + 1, written, s =>
    if written < data.length then
      let (n, s) := s.write (data.drop written)
      if n = 0 then (false, s) else writeLoop data fuel (written + n) s
    else (true, s)

def writeFully (s : Socket α) (data : List α) : Bool × Socket α := writeLoop data data.length 0 s

/-! ## The loops against their purpose -/

variable {s : Socket α}

theorem quota_pos (s : Socket α) (want : Nat) (h : 0 < want) : 0 < s.quota want := by
  unfold quota
  omega

theorem quota_le (s : Socket α) (want : Nat) : s.quota want ≤ want := min_le_left _ _

/-- With enough input the loop ends with the bytes it wants, however they arrive. -/
theorem readLoop_enough (len : Nat) : ∀ (fuel : Nat) (got : List α) (s : Socket α), got.length ≤ len →
    len ≤ got.length + fuel → len - got.length ≤ s.input.length →
    ∃ calls, readLoop len fuel got s = (some (got ++ s.input.take (len - got.length)),
      { s with input := s.input.drop (len - got.length), calls := calls })
  | 0, got, s, hle, hfuel, _ => by
    have hzero : len - got.length = 0 := by omega
    exact ⟨s.calls, by simp [readLoop, hzero]⟩
  | fuel + 1, got, s, hle, hfuel, henough => by
    unfold readLoop
    split
    · rename_i hlt
      have hpos := s.quota_pos (len - got.length) (by omega)
      have hquota := s.quota_le (len - got.length)
      generalize hq : s.quota (len - got.length) = q at hpos hquota
      have hlen : (s.input.take q).length = q := by
        rw [List.length_take]
        omega
      have hrest : len - (got ++ s.input.take q).length = len - got.length - q := by
        rw [List.length_append, hlen]
        omega
      simp only [read, hq]
      rw [if_neg (by omega)]
      obtain ⟨calls, ih⟩ := readLoop_enough len fuel (got ++ s.input.take q)
        { s with input := s.input.drop q, calls := s.calls + 1 } (by rw [List.length_append, hlen]; omega)
        (by rw [List.length_append, hlen]; omega) (by rw [hrest, List.length_drop]; omega)
      refine ⟨calls, ?_⟩
      rw [ih, hrest]
      -- the first `q` bytes and those after them
      have htake : s.input.take q ++ (s.input.drop q).take (len - got.length - q) =
          s.input.take (len - got.length) := by
        rw [← List.take_add]
        congr 1
        omega
      have hdrop : (s.input.drop q).drop (len - got.length - q) = s.input.drop (len - got.length) := by
        rw [List.drop_drop]
        congr 1
        omega
      simp only [List.append_assoc, htake, hdrop]
    · rename_i hge
      have hzero : len - got.length = 0 := by omega
      exact ⟨s.calls, by simp [hzero]⟩

/-- Without, it meets the end of the stream. -/
theorem readLoop_short (len : Nat) : ∀ (fuel : Nat) (got : List α) (s : Socket α),
    len ≤ got.length + fuel → s.input.length < len - got.length →
    ∃ calls, readLoop len fuel got s = (none, { s with input := [], calls := calls })
  | 0, got, s, hfuel, hshort => absurd hshort (by omega)
  | fuel + 1, got, s, hfuel, hshort => by
    have hpos := s.quota_pos (len - got.length) (by omega)
    unfold readLoop
    rw [if_pos (by omega)]
    generalize hq : s.quota (len - got.length) = q at hpos
    simp only [read, hq]
    split
    · rename_i hnone
      have hnil : s.input = [] := by
        rw [List.length_take] at hnone
        exact List.length_eq_zero_iff.1 (by omega)
      exact ⟨s.calls + 1, by simp [hnil]⟩
    · rename_i hsome
      rw [List.length_take] at hsome
      have hlen : (got ++ s.input.take q).length = got.length + min q s.input.length := by
        rw [List.length_append, List.length_take]
      obtain ⟨calls, ih⟩ := readLoop_short len fuel (got ++ s.input.take q)
        { s with input := s.input.drop q, calls := s.calls + 1 } (by omega) (by rw [List.length_drop]; omega)
      exact ⟨calls, ih⟩

theorem readFully_append {a b : List α} (h : s.input = a ++ b) :
    ∃ calls, s.readFully a.length = (some a, { s with input := b, calls := calls }) := by
  obtain ⟨calls, hread⟩ := readLoop_enough a.length a.length [] s (Nat.zero_le _) (by simp) (by simp [h])
  refine ⟨calls, ?_⟩
  unfold readFully
  rw [hread, h]
  simp

theorem readFully_short {len : Nat} (h : s.input.length < len) :
    ∃ calls, s.readFully len = (none, { s with input := [], calls := calls }) :=
  readLoop_short len len [] s (by simp) (by simpa using h)

theorem writeLoop_eq (data : List α) : ∀ (fuel written : Nat) (s : Socket α), data.length ≤ written + fuel →
    ∃ calls, writeLoop data fuel written s =
      (true, { s with output := s.output ++ data.drop written, calls := calls })
  | 0, written, s, hfuel => by
    have hnil : data.drop written = [] := List.drop_eq_nil_of_le hfuel
    exact ⟨s.calls, by simp [writeLoop, hnil]⟩
  | fuel + 1, written, s, hfuel => by
    unfold writeLoop
    split
    · rename_i hlt
      have hpos := s.quota_pos (data.drop written).length (by rw [List.length_drop]; omega)
      generalize hq : s.quota (data.drop written).length = q at hpos
      simp only [write, hq]
      rw [if_neg (by omega)]
      obtain ⟨calls, ih⟩ := writeLoop_eq data fuel (written + q)
        { s with output := s.output ++ (data.drop written).take q, calls := s.calls + 1 } (by omega)
      refine ⟨calls, ?_⟩
      rw [ih, List.append_assoc, ← List.drop_drop, List.take_append_drop]
    · rename_i hge
      have hnil : data.drop written = [] := List.drop_eq_nil_of_le (by omega)
      exact ⟨s.calls, by simp [hnil]⟩

/-- The loop writes all of the bytes, however the calls cut them up. -/
theorem writeFully_eq (s : Socket α) (data : List α) :
    ∃ calls, s.writeFully data = (true, { s with output := s.output ++ data, calls := calls }) :=
  writeLoop_eq data data.length 0 s (by simp)

end Socket

end Sockets
