/-
Buffered output streams that can fail. A write goes to the buffer and a flush moves the buffer to
the file; an operation may fail when some of the bytes have reached the file, and from then on the
stream ignores every operation. `send_file` says what a batch of writes with its flush adds to the
file, whichever of them fails.
-/
import Mathlib.Tactic

namespace Output

variable {α : Type}

/-- An output stream: the bytes of the file, those still in the buffer, and whether no operation
has failed yet. -/
structure OStream (α : Type) where
  file : List α
  buffer : List α
  ok : Bool
  deriving DecidableEq, Repr

namespace OStream

/-- `write`. A fault `some n` is a failure that lets `n` of the bytes not yet in the file reach it. -/
def write (s : OStream α) (data : List α) (fault : Option Nat) : OStream α :=
  if s.ok then
    match fault with
    | none => { s with buffer := s.buffer ++ data }
    | some n => ⟨s.file ++ (s.buffer ++ data).take n, (s.buffer ++ data).drop n, false⟩
  else s

def flush (s : OStream α) (fault : Option Nat) : OStream α :=
  if s.ok then
    match fault with
    | none => ⟨s.file ++ s.buffer, [], true⟩
    | some n => ⟨s.file ++ s.buffer.take n, s.buffer.drop n, false⟩
  else s

/-- Some writes, each with its fault, and a flush. -/
def send (s : OStream α) : List (List α × Option Nat) → Option Nat → OStream α
  | [], fault => s.flush fault
  | (data, f) :: chunks, fault => (s.write data f).send chunks fault

end OStream

/-- How many bytes of a batch reach the file when `n` bytes are waiting before it: all of them
without a fault, and otherwise what the first fault lets through. -/
def reached (n : Nat) : List (List α × Option Nat) → Option Nat → Nat
  | [], none => n
  | [], some m => min m n
  | (data, none) :: chunks, fault => reached (n + data.length) chunks fault
  | (data, some m) :: _, _ => min m (n + data.length)

/-- The bytes of a batch. -/
def bytes (chunks : List (List α × Option Nat)) : List α := chunks.flatMap Prod.fst

namespace OStream

/-- A stream that has failed ignores what follows. -/
theorem send_failed {s : OStream α} (h : s.ok = false) : ∀ (chunks : List (List α × Option Nat)) (fault : Option Nat),
    s.send chunks fault = s
  | [], fault => by simp [send, flush, h]
  | (data, f) :: chunks, fault => by
    have hw : s.write data f = s := by simp [write, h]
    rw [send, hw]
    exact send_failed h chunks fault

/-- A batch adds to the file as many of the bytes waiting and its own as are let through. -/
theorem send_file : ∀ {s : OStream α} (chunks : List (List α × Option Nat)) (fault : Option Nat), s.ok = true →
    (s.send chunks fault).file = s.file ++ (s.buffer ++ bytes chunks).take (reached s.buffer.length chunks fault)
  | s, [], none, h => by simp [send, flush, h, bytes, reached]
  | s, [], some m, h => by
    simp only [send, flush, h, bytes, reached, if_true, List.flatMap_nil, List.append_nil]
    rw [List.take_eq_take_min]
  | s, (data, some m) :: chunks, fault, h => by
    have hw : s.write data (some m) = ⟨s.file ++ (s.buffer ++ data).take m, (s.buffer ++ data).drop m, false⟩ := by
      simp [write, h]
    have hlen : (s.buffer ++ data).length = s.buffer.length + data.length := List.length_append
    have htake : (s.buffer ++ (data ++ bytes chunks)).take (min m (s.buffer.length + data.length)) =
        (s.buffer ++ data).take m := by
      rw [← List.append_assoc, List.take_append_of_le_length (by omega), ← hlen, ← List.take_eq_take_min]
    rw [send, hw, send_failed rfl]
    exact congrArg (s.file ++ ·) htake.symm
  | s, (data, none) :: chunks, fault, h => by
    have hw : s.write data none = { s with buffer := s.buffer ++ data } := by simp [write, h]
    have hbuffered : ({ s with buffer := s.buffer ++ data } : OStream α).ok = true := h
    rw [send, hw, send_file chunks fault hbuffered]
    simp [bytes, reached]

/-- A stream that is still in order after a batch has sent all of it. -/
theorem send_ok : ∀ {s : OStream α} {chunks : List (List α × Option Nat)} {fault : Option Nat},
    (s.send chunks fault).ok = true → s.ok = true ∧ (s.send chunks fault).buffer = [] ∧
      reached s.buffer.length chunks fault = (s.buffer ++ bytes chunks).length
  | s, [], fault, h => by
    rcases hs : s.ok with _ | _
    · simp [send, flush, hs] at h
    · rcases fault with _ | m
      · simp [send, flush, hs, reached, bytes]
      · simp [send, flush, hs] at h
  | s, (data, f) :: chunks, fault, h => by
    rcases hs : s.ok with _ | _
    · rw [send_failed hs, hs] at h
      cases h
    · rcases f with _ | m
      · have hw : s.write data none = { s with buffer := s.buffer ++ data } := by simp [write, hs]
        rw [send, hw] at h ⊢
        obtain ⟨-, hbuffer, hall⟩ := send_ok h
        refine ⟨rfl, hbuffer, ?_⟩
        simpa [bytes, reached] using hall
      · rw [send, send_failed (by simp [write, hs])] at h
        simp [write, hs] at h

end OStream

end Output
