/-
The shared types (`include/common/types.h`): keys and values are byte strings, the two
`uint8_t` enumerations keep every byte a cast can give them, and requests and responses pair
them with a key and a value.
-/
import KvStore.Lib.Bytes

namespace KvStore

open Bytes

/-- `using Key = std::string`. -/
abbrev Key := Str
/-- `using Value = std::string`. -/
abbrev Value := Str

/-- `MAX_KEY_SIZE`, in bytes. -/
def maxKeySize : Nat := 256
/-- `MAX_VALUE_SIZE`, in bytes. -/
def maxValueSize : Nat := 65536

/-- `enum class Status : uint8_t`. A byte read from the wire is cast to it unchecked, so the
bytes that name no status are values of the type too. -/
inductive Status
  | ok
  | notFound
  | error
  | keyTooLarge
  | valueTooLarge
  | invalidRequest
  | nodeUnavailable
  | other (b : UInt8) (h : 6 < b)
  deriving DecidableEq, Repr

/-- `enum class Command : uint8_t`, with the bytes that name no command. -/
inductive Command
  | put
  | get
  | delete
  | ping
  | other (b : UInt8) (h : b = 0 ∨ 4 < b)
  deriving DecidableEq, Repr

/-- `static_cast<uint8_t>(status)`. -/
def Status.toByte : Status → UInt8
  | .ok => 0
  | .notFound => 1
  | .error => 2
  | .keyTooLarge => 3
  | .valueTooLarge => 4
  | .invalidRequest => 5
  | .nodeUnavailable => 6
  | .other b _ => b

/-- `static_cast<Status>(byte)`. -/
def Status.ofByte (b : UInt8) : Status :=
  if h : 6 < b then .other b h
  else if b = 0 then .ok
  else if b = 1 then .notFound
  else if b = 2 then .error
  else if b = 3 then .keyTooLarge
  else if b = 4 then .valueTooLarge
  else if b = 5 then .invalidRequest
  else .nodeUnavailable

/-- `static_cast<uint8_t>(command)`. -/
def Command.toByte : Command → UInt8
  | .put => 1
  | .get => 2
  | .delete => 3
  | .ping => 4
  | .other b _ => b

/-- `static_cast<Command>(byte)`. -/
def Command.ofByte (b : UInt8) : Command :=
  if h : b = 0 ∨ 4 < b then .other b h
  else if b = 1 then .put
  else if b = 2 then .get
  else if b = 3 then .delete
  else .ping

/-- The casts between statuses and bytes are inverse to each other. -/
@[simp] theorem Status.ofByte_toByte (s : Status) : ofByte s.toByte = s := by
  cases s with
  | other b h => unfold ofByte toByte; rw [dif_pos h]
  | _ => rfl

/-- The casts between commands and bytes are inverse to each other. -/
@[simp] theorem Command.ofByte_toByte (c : Command) : ofByte c.toByte = c := by
  cases c with
  | other b h => unfold ofByte toByte; rw [dif_pos h]
  | _ => rfl

theorem Status.toByte_ofByte (b : UInt8) : (ofByte b).toByte = b := by
  unfold ofByte
  split_ifs with h h0 h1 h2 h3 h4 h5
  · rfl
  all_goals simp only [toByte, *]
  -- what is left is 6
  simp only [UInt8.lt_iff_toNat_lt, ← UInt8.toNat_inj, UInt8.reduceToNat] at *
  omega

theorem Command.toByte_ofByte (b : UInt8) : (ofByte b).toByte = b := by
  unfold ofByte
  split_ifs with h h1 h2 h3
  · rfl
  all_goals simp only [toByte, *]
  -- what is left is 4
  simp only [UInt8.lt_iff_toNat_lt, ← UInt8.toNat_inj, UInt8.reduceToNat] at *
  omega

/-- A request; the value is empty for GET and DELETE. -/
structure Request where
  command : Command
  key : Key
  value : Value
  deriving DecidableEq, Repr

/-- The payload of the request is shorter than `2^32` bytes, as it is for every request received
in a frame. -/
def Request.FitsFrame (req : Request) : Prop := 9 + req.key.length + req.value.length < 2 ^ 32

instance (req : Request) : Decidable req.FitsFrame := inferInstanceAs (Decidable (_ < _))

/-- A GET or a DELETE is forwarded without its value. -/
theorem Request.FitsFrame.withoutValue {command : Command} {key : Key} {value : Value}
    (h : (Request.mk command key value).FitsFrame) : (Request.mk command key []).FitsFrame := by
  unfold Request.FitsFrame at h ⊢
  simp only [List.length_nil] at h ⊢
  omega

/-- A response; the value is empty for PUT and DELETE. -/
structure Response where
  status : Status
  value : Value
  deriving DecidableEq, Repr

end KvStore
