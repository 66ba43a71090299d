/-
The hash of the ring against 64-bit FNV-1a (`hash` of `src/cluster/consistent_hash.cpp`, and "Consistent
Hashing" in `docs/architecture.md`). FNV-1a takes the bytes of the key as numbers from 0 to 255. The source
takes them as `char`s; where `char` is signed, a byte from 0x80 on flips the upper 56 bits of the state as
well. `SignsCancel` says for which keys this makes no difference.
-/
import KvStore.Cluster.Membership
import Mathlib.Data.List.DropRight

namespace KvStore

open Bytes Ring

/-! ## FNV-1a -/

/-- FNV-1a with 64 bits. -/
def fnv1a (bytes : Str) : Nat :=
  bytes.foldl (fun h b => (h ^^^ b.toNat) * 1099511628211 % 2 ^ 64) 14695981039346656037

/-- One turn of the loop in `hash` on a platform where `char` is unsigned. -/
def hashByteUnsigned (h : UInt64) (c : UInt8) : UInt64 := (h ^^^ c.toUInt64) * 1099511628211

/-- `ConsistentHashRing::hash` on a platform where `char` is unsigned. -/
def hashUnsigned (key : Str) : UInt64 := key.foldl hashByteUnsigned 14695981039346656037

theorem hash_concat (key : Str) (c : UInt8) : hash (key ++ [c]) = hashByte (hash key) c := List.foldl_concat ..

theorem hashUnsigned_concat (key : Str) (c : UInt8) :
    hashUnsigned (key ++ [c]) = hashByteUnsigned (hashUnsigned key) c := List.foldl_concat ..

theorem toNat_hashUnsigned (key : Str) : (hashUnsigned key).toNat = fnv1a key := by
  induction key using List.reverseRecOn with
  | nil => rfl
  | append_singleton key c ih =>
    have hstep : fnv1a (key ++ [c]) = (fnv1a key ^^^ c.toNat) * 1099511628211 % 2 ^ 64 := List.foldl_concat ..
    rw [hashUnsigned_concat, hstep, ← ih, hashByteUnsigned, UInt64.toNat_mul, UInt64.toNat_xor, UInt8.toNat_toUInt64]
    rfl

/-! ## The sign of a byte -/

/-- The bits that the sign of a `char` is extended to. -/
def signBits : UInt64 := 0xFFFFFFFFFFFFFF00

theorem widen_eq (c : UInt8) :
    c.toInt8.toInt64.toUInt64 = if c < 128 then c.toUInt64 else signBits ^^^ c.toUInt64 := by
  have hall : ∀ n < 256, (UInt8.ofNat n).toInt8.toInt64.toUInt64 =
      if UInt8.ofNat n < 128 then (UInt8.ofNat n).toUInt64 else signBits ^^^ (UInt8.ofNat n).toUInt64 := by
    decide +kernel
  simpa using hall c.toNat c.toNat_lt

theorem hashByte_of_lt {c : UInt8} (hc : c < 128) (h : UInt64) : hashByte h c = hashByteUnsigned h c := by
  rw [hashByte, hashByteUnsigned, widen_eq, if_pos hc]

/-- A byte from 0x80 on is hashed as on the other platform, with the upper bits of the state flipped. -/
theorem hashByte_of_not_lt {c : UInt8} (hc : ¬ c < 128) (h : UInt64) :
    hashByte h c = hashByteUnsigned (h ^^^ signBits) c := by
  rw [hashByte, hashByteUnsigned, widen_eq, if_neg hc, UInt64.xor_assoc]

/-- The prime is odd, so that a turn can be undone. -/
theorem hashByteUnsigned_inj {h h' : UInt64} {c : UInt8} : hashByteUnsigned h c = hashByteUnsigned h' c ↔ h = h' := by
  refine ⟨fun heq => ?_, fun heq => by rw [heq]⟩
  have hinv : ∀ x : UInt64, x * 1099511628211 * 14886173955864302971 = x := by
    intro x
    rw [UInt64.mul_assoc, show (1099511628211 : UInt64) * 14886173955864302971 = 1 from rfl, UInt64.mul_one]
  unfold hashByteUnsigned at heq
  have hxor := congrArg (· * (14886173955864302971 : UInt64)) heq
  simp only [hinv] at hxor
  exact UInt64.xor_left_inj c.toUInt64 |>.1 hxor

theorem xor_eq_comm {a b c : UInt64} : a ^^^ b = c ↔ a ^^^ c = b := by
  have hcancel : ∀ x y : UInt64, x ^^^ (x ^^^ y) = y := by
    intro x y
    rw [← UInt64.xor_assoc, UInt64.xor_self, UInt64.zero_xor]
  constructor <;> rintro rfl <;> exact hcancel ..

/-! ## Keys -/

/-- The key has no byte from 0x80 on, or the states before the last such byte differ in exactly the bits
that it flips. -/
def SignsCancel (key : Str) : Prop :=
  key.rdropWhile (· < 128) = [] ∨
    hash (key.rdropWhile (· < 128)).dropLast ^^^ hashUnsigned (key.rdropWhile (· < 128)).dropLast = signBits

instance (key : Str) : Decidable (SignsCancel key) := inferInstanceAs (Decidable (_ ∨ _))

theorem hash_eq_hashUnsigned_iff (key : Str) : hash key = hashUnsigned key ↔ SignsCancel key := by
  induction key using List.reverseRecOn with
  | nil => simp [hash, hashUnsigned, SignsCancel]
  | append_singleton key c ih =>
    rw [hash_concat, hashUnsigned_concat]
    by_cases hc : c < 128
    · rw [hashByte_of_lt hc, hashByteUnsigned_inj, ih, SignsCancel, SignsCancel,
        List.rdropWhile_concat_pos _ _ _ (by simpa using hc)]
    · rw [hashByte_of_not_lt hc, hashByteUnsigned_inj, SignsCancel,
        List.rdropWhile_concat_neg _ _ _ (by simpa using hc), List.dropLast_concat, xor_eq_comm]
      simp

theorem signsCancel_of_lt {key : Str} (h : ∀ c ∈ key, c < 128) : SignsCancel key :=
  .inl (List.rdropWhile_eq_nil_iff.2 (by simpa using h))

/-- Bytes below 0x80 at the end change nothing. -/
theorem rdropWhile_append_of_lt (key : Str) {rest : Str} (h : ∀ c ∈ rest, c < 128) :
    (key ++ rest).rdropWhile (· < 128) = key.rdropWhile (· < 128) := by
  unfold List.rdropWhile
  rw [List.reverse_append, List.dropWhile_append_of_pos]
  simpa using h

/-- A single byte from 0x80 on always makes a difference. -/
theorem not_signsCancel_of_one {key rest : Str} {c : UInt8} (hkey : ∀ b ∈ key, b < 128) (hc : ¬ c < 128)
    (hrest : ∀ b ∈ rest, b < 128) : ¬ SignsCancel (key ++ [c] ++ rest) := by
  have hsame : hash key = hashUnsigned key := (hash_eq_hashUnsigned_iff key).2 (signsCancel_of_lt hkey)
  rw [SignsCancel, rdropWhile_append_of_lt _ hrest, List.rdropWhile_concat_neg _ _ _ (by simpa using hc),
    List.dropLast_concat, hsame, UInt64.xor_self]
  simp [signBits]

/-- Two of them may cancel out. -/
example : SignsCancel [0xA5, 0x80] := by decide +kernel

theorem decimal_lt (i : Nat) : ∀ b ∈ decimal i, b < 128 := by
  intro b hb
  obtain ⟨c, hc, rfl⟩ := List.mem_map.1 hb
  have hdigit := Nat.isDigit_of_mem_toDigits (by decide) (by decide) hc
  have hle : c.toNat ≤ 57 := by
    simp only [Char.isDigit, Bool.and_eq_true, decide_eq_true_eq] at hdigit
    exact hdigit.2
  rw [UInt8.lt_iff_toNat_lt, UInt8.toNat_ofNat', Nat.mod_eq_of_lt (by omega)]
  exact lt_of_le_of_lt hle (by decide)

theorem signsCancel_vnodeKey {id : NodeId} (h : SignsCancel id) (i : Nat) : SignsCancel (vnodeKey id i) := by
  have hlt : ∀ b ∈ (35 :: decimal i : Str), b < 128 := by
    rintro b (_ | ⟨_, hb⟩)
    · decide
    · exact decimal_lt i b hb
  rwa [SignsCancel, vnodeKey, rdropWhile_append_of_lt id hlt]

/-! ## Routing -/

/-- What a call does to the ring of a node whose `hash` is `h`. -/
def RingCall.applyWith (h : Str → UInt64) (virtualNodes : Nat) (ring : OrderedMap Nat NodeId) :
    RingCall → OrderedMap Nat NodeId
  | addNode id => (List.range virtualNodes).foldl (fun m i => m.insert (h (vnodeKey id i)).toNat id) ring
  | removeNode id => ring.eraseValue id

/-- The ring of a node whose `hash` is `h`. -/
def ringWith (h : Str → UInt64) (virtualNodes : Nat) (calls : List RingCall) : OrderedMap Nat NodeId :=
  calls.foldl (RingCall.applyWith h virtualNodes) .empty

/-- `getNode` of a node whose `hash` is `h`. -/
def getNodeWith (h : Str → UInt64) (virtualNodes : Nat) (calls : List RingCall) (key : Key) : NodeId :=
  let ring := ringWith h virtualNodes calls
  let it := ring.lowerBound (h key).toNat
  match ring.entries[if it = ring.entries.length then 0 else it]? with
  | some e => e.2
  | none => []

theorem ringWith_concat (h : Str → UInt64) (V : Nat) (calls : List RingCall) (call : RingCall) :
    ringWith h V (calls ++ [call]) = call.applyWith h V (ringWith h V calls) := List.foldl_concat ..

theorem ringWith_hash (V : Nat) (calls : List RingCall) : ringWith hash V calls = (RingCall.build V calls).ring := by
  induction calls using List.reverseRecOn with
  | nil => rfl
  | append_singleton calls call ih =>
    rw [ringWith_concat, ih, RingCall.build_snoc]
    cases call with
    | addNode id =>
      show _ = ConsistentHashRing.addVnodes id _ (RingCall.build V calls).virtualNodes
      rw [RingCall.build_virtualNodes]
      rfl
    | removeNode id => rfl

theorem getNodeWith_hash (V : Nat) (calls : List RingCall) (key : Key) :
    getNodeWith hash V calls key = (RingCall.build V calls).getNode key := by
  unfold getNodeWith
  rw [ringWith_hash]
  rfl

theorem ringWith_congr {h h' : Str → UInt64} {V : Nat} {calls : List RingCall}
    (hids : ∀ id, .addNode id ∈ calls → ∀ i, h (vnodeKey id i) = h' (vnodeKey id i)) :
    ringWith h V calls = ringWith h' V calls := by
  induction calls using List.reverseRecOn with
  | nil => rfl
  | append_singleton calls call ih =>
    rw [ringWith_concat, ringWith_concat, ih fun id hid => hids id (List.mem_append_left _ hid)]
    cases call with
    | addNode id => simp only [RingCall.applyWith, hids id (by simp)]
    | removeNode id => rfl

theorem hash_eq_fnv1a_iff_signsCancel (key : Key) : (hash key).toNat = fnv1a key ↔ SignsCancel key := by
  rw [← toNat_hashUnsigned, UInt64.toNat_inj]
  exact hash_eq_hashUnsigned_iff key

/-- The keys over a set of bytes all have their FNV-1a hash exactly if these bytes are below 0x80. -/
theorem hash_eq_fnv1a_over_iff (B : Set UInt8) :
    (∀ key : Key, (∀ c ∈ key, c ∈ B) → (hash key).toNat = fnv1a key) ↔ ∀ c ∈ B, c < 128 := by
  constructor
  · intro h c hc
    by_contra hlt
    -- the key of this one byte
    have hone : ¬ SignsCancel ([] ++ [c] ++ []) :=
      not_signsCancel_of_one (by simp) hlt (by simp)
    exact hone ((hash_eq_fnv1a_iff_signsCancel [c]).1 (h [c] (by simpa using hc)))
  · intro h key hkey
    exact (hash_eq_fnv1a_iff_signsCancel key).2 (signsCancel_of_lt fun c hc => h c (hkey c hc))

theorem getNodeWith_hashUnsigned {V : Nat} {calls : List RingCall} {key : Key}
    (hids : ∀ id, .addNode id ∈ calls → SignsCancel id) (hkey : SignsCancel key) :
    getNodeWith hashUnsigned V calls key = (RingCall.build V calls).getNode key := by
  have hring : ringWith hash V calls = ringWith hashUnsigned V calls := ringWith_congr fun id hid i =>
    (hash_eq_hashUnsigned_iff _).2 (signsCancel_vnodeKey (hids id hid) i)
  rw [← getNodeWith_hash]
  unfold getNodeWith
  rw [hring, (hash_eq_hashUnsigned_iff key).2 hkey]

/-- A key of bytes below 0x80 has its FNV-1a hash, and over a larger set of bytes some key does not have it: those
with a single byte from 0x80 on. (With more of them the signs may cancel out.) On a platform where `char` is
unsigned the hash is always FNV-1a, and a node there routes the key as the others do if the bytes of the key and of
the ids of the nodes are below 0x80, or else if the signs cancel out in them. -/
theorem hash_eq_fnv1a_iff (key : Key) :
    ((∀ c ∈ key, c < 128) → (hash key).toNat = fnv1a key) ∧
      (∀ B : Set UInt8, (∀ key : Key, (∀ c ∈ key, c ∈ B) → (hash key).toNat = fnv1a key) ↔ ∀ c ∈ B, c < 128) ∧
      (∀ c rest, (∀ b ∈ key, b < 128) → ¬ c < 128 → (∀ b ∈ rest, b < 128) →
        (hash (key ++ [c] ++ rest)).toNat ≠ fnv1a (key ++ [c] ++ rest)) ∧
      ((hash key).toNat = fnv1a key ↔ SignsCancel key) ∧ (hashUnsigned key).toNat = fnv1a key ∧
      (∀ V calls, (∀ id, .addNode id ∈ calls → ∀ c ∈ id, c < 128) → (∀ c ∈ key, c < 128) →
        getNodeWith hashUnsigned V calls key = (RingCall.build V calls).getNode key) ∧
      ∀ V calls, (∀ id, .addNode id ∈ calls → SignsCancel id) → SignsCancel key →
        getNodeWith hashUnsigned V calls key = (RingCall.build V calls).getNode key := by
  have hiff := hash_eq_fnv1a_iff_signsCancel
  refine ⟨?_, hash_eq_fnv1a_over_iff, ?_, hiff key, toNat_hashUnsigned key, ?_, ?_⟩
  · exact fun hkey => (hiff key).2 (signsCancel_of_lt hkey)
  · intro c rest hkey hc hrest heq
    exact not_signsCancel_of_one hkey hc hrest ((hiff _).1 heq)
  · intro V calls hids hkey
    exact getNodeWith_hashUnsigned (fun id hid => signsCancel_of_lt (hids id hid)) (signsCancel_of_lt hkey)
  · exact fun V calls => getNodeWith_hashUnsigned

/-- The ids `"a"` and `"b"`. -/
def twoNodes : List RingCall := [.addNode [97], .addNode [98]]

/-- The key `"k"` and a ring of two nodes. -/
theorem hash_eq_fnv1a_iff_twoNodes :
    (hash [107]).toNat = fnv1a [107] ∧
      getNodeWith hashUnsigned 150 twoNodes [107] = (RingCall.build 150 twoNodes).getNode [107] := by
  obtain ⟨hlt, -, -, -, -, hroute, -⟩ := hash_eq_fnv1a_iff [107]
  have hkey : ∀ c ∈ ([107] : Key), c < 128 := List.forall_mem_singleton.2 (by decide)
  refine ⟨hlt hkey, hroute 150 twoNodes ?_ hkey⟩
  intro id hid
  simp only [twoNodes, List.mem_cons, RingCall.addNode.injEq, List.not_mem_nil, or_false] at hid
  rcases hid with rfl | rfl <;> exact List.forall_mem_singleton.2 (by decide)

/-- The one-byte key 0x80 has another hash than FNV-1a gives it, and in a ring of two nodes it belongs to
one of them where `char` is signed and to the other where it is not. -/
theorem hash_ne_fnv1a :
    (hash [0x80]).toNat ≠ fnv1a [0x80] ∧
      (RingCall.build 150 twoNodes).getNode [0x80] ≠ getNodeWith hashUnsigned 150 twoNodes [0x80] := by
  decide +kernel

end KvStore
