/-
The write-ahead log (`src/persistence/wal.cpp`): the record `append` writes, the CRC-32 over its
payload, and `replay`, which reads records until one is short or fails its checksum and applies
them to the store. What a decoding step reads past the record's buffer is undefined behaviour of
the source; `scanRecord` says when that happens and `replay` has no result then.
-/
import KvStore.Storage.KVStore

namespace KvStore

open Bytes Updates

/-- A mutation as `append` logs it: `append(cmd, key, value)`. -/
structure Entry where
  command : Command
  key : Key
  value : Value
  deriving DecidableEq, Repr

namespace Wal

/-! ## The checksum -/

/-- One turn of the inner loop of `crc32`. -/
def crcBit (crc : UInt32) : UInt32 := (crc >>> 1) ^^^ (0xEDB88320 &&& (-(crc &&& 1)))

/-- One turn of the outer loop of `crc32`. -/
def crcByte (crc : UInt32) (b : UInt8) : UInt32 := crcBit^[8] (crc ^^^ b.toUInt32)

/-- `WriteAheadLog::crc32`. -/
def crc32 (data : Str) : UInt32 := ~~~(data.foldl crcByte 0xFFFFFFFF)

/-! ## Records -/

/-- The buffer `append` fills: command, key length, key, value length, value. The lengths are
`uint32_t` and bound the bytes copied. -/
def payload (e : Entry) : Str :=
  e.command.toByte :: (le32 e.key.length ++ (e.key.take (e.key.length % 2 ^ 32) ++
    (le32 e.value.length ++ e.value.take (e.value.length % 2 ^ 32))))

/-- The `uint32_t entry_len` of `append`. -/
def entryLen (e : Entry) : Nat :=
  (1 + 4 + e.key.length % 2 ^ 32 + 4 + e.value.length % 2 ^ 32) % 2 ^ 32

/-- The bytes one `append` writes to the file. -/
def record (e : Entry) : Str :=
  le32 (entryLen e) ++ (payload e ++ le32 (crc32 (payload e)).toNat)

/-- The bytes of a list of appends. -/
def log (es : List Entry) : Str := es.flatMap record

/-! ## Replay -/

/-- What `replay` finds at a position of the file. -/
inductive Scan
  /-- a short read or a wrong checksum: the loop is left -/
  | stop
  /-- the checksum is right but a field lies outside the buffer -/
  | outOfBounds
  /-- a record, and the file behind it -/
  | entry (e : Entry) (rest : Str)

/-- The fields of a checked buffer, in the order `replay` reads them. -/
def decodeEntry : Str → Option Entry
  | [] => none
  | cmd :: p => do
    let (keyLen, p) ← takeExact 4 p
    let (key, p) ← takeExact (ofLe keyLen) p
    let (valLen, p) ← takeExact 4 p
    let (value, _) ← takeExact (ofLe valLen) p
    return ⟨Command.ofByte cmd, key, value⟩

/-- One turn of the loop of `replay`, up to the store operation. -/
def scanRecord (file : Str) : Scan :=
  match takeExact 4 file with
  | none => .stop
  | some (entryLen, rest) =>
    match takeExact (ofLe entryLen) rest with
    | none => .stop
    | some (buffer, rest) =>
      match takeExact 4 rest with
      | none => .stop
      | some (readCrc, rest) =>
        if (crc32 buffer).toNat ≠ ofLe readCrc then .stop
        else match decodeEntry buffer with
          | none => .outOfBounds
          | some e => .entry e rest

/-- The store operation of a replayed record; its response is ignored, and a command other than
PUT and DELETE does nothing. -/
def applyEntry (store : KVStore) (e : Entry) : KVStore :=
  match e.command with
  | .put => (store.put e.key e.value).2
  | .delete => (store.del e.key).2
  | _ => store

/-- The loop of `replay`. Every turn consumes bytes, so that with at least as many turns left as
bytes the last case is met only at the end of the file. -/
def replayLoop : Nat → Str → KVStore → Nat → Option (KVStore × Nat)
  | 0, _, store, replayed => some (store, replayed)
  | fuel + 1, file, store, replayed =>
    match scanRecord file with
    | .stop => some (store, replayed)
    | .outOfBounds => none
    | .entry e rest => replayLoop fuel rest (applyEntry store e) (replayed + 1)

/-- `WriteAheadLog::replay` on a file with these bytes: the store afterwards and the number of
entries, or `none` when a decoding step leaves its buffer. -/
def replay (file : Str) (store : KVStore) : Option (KVStore × Nat) := replayLoop file.length file store 0

/-! ## The entries of a file -/

/-- The entries `replay` decodes, without applying them. -/
def readEntries : Nat → Str → Option (List Entry)
  | 0, _ => some []
  | fuel + 1, file =>
    match scanRecord file with
    | .stop => some []
    | .outOfBounds => none
    | .entry e rest => (readEntries fuel rest).map (e :: ·)

/-- The entries of a log file. -/
def entriesOf (file : Str) : Option (List Entry) := readEntries file.length file

/-- Apply entries in order. -/
def applyAll (store : KVStore) (es : List Entry) : KVStore := es.foldl applyEntry store

@[simp] theorem applyAll_nil (store : KVStore) : applyAll store [] = store := rfl

@[simp] theorem applyAll_cons (store : KVStore) (e : Entry) (es : List Entry) :
    applyAll store (e :: es) = applyAll (applyEntry store e) es := rfl

theorem applyAll_append (store : KVStore) (es fs : List Entry) :
    applyAll store (es ++ fs) = applyAll (applyAll store es) fs := List.foldl_append ..

/-- Replay decodes the entries of the file and applies them; what it decodes does not depend on
the store. -/
theorem replayLoop_eq : ∀ (fuel : Nat) (file : Str) (store : KVStore) (n : Nat),
    replayLoop fuel file store n = (readEntries fuel file).map fun es => (applyAll store es, n + es.length)
  | 0, _, _, _ => rfl
  | fuel + 1, file, store, n => by
    unfold replayLoop readEntries
    cases scanRecord file with
    | stop => rfl
    | outOfBounds => rfl
    | entry e rest =>
      simp only [replayLoop_eq fuel rest, Option.map_map]
      congr 1
      funext es
      simp only [Function.comp, applyAll_cons, List.length_cons, Prod.mk.injEq, true_and]
      omega

theorem replay_eq (file : Str) (store : KVStore) :
    replay file store = (entriesOf file).map fun es => (applyAll store es, es.length) := by
  unfold replay entriesOf
  rw [replayLoop_eq]
  simp only [Nat.zero_add]

end Wal

end KvStore
