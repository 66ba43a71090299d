/-
Cyclic redundancy checks with a register of any width that takes the message least significant bit
first. One shift of the register is linear over exclusive or, and injective if the polynomial has
its highest bit set. Bytes that fit the register act on it like the number they make, so a message
changed within one register's width ends with another register (`update_ne_of_burst`), and the
complement of the register, appended to the message, always leaves the same one (`check_iff`).
-/
import KvStore.Lib.Bytes

namespace Crc

open Bytes

variable {w : Nat}

/-! ## The register -/

/-- One shift; the polynomial is added if the bit that falls out is set. -/
def shift (p r : BitVec w) : BitVec w := (r >>> 1) ^^^ (if r.getLsbD 0 then p else 0#w)

/-- The register after one byte. -/
def feed (p r : BitVec w) (b : UInt8) : BitVec w := (shift p)^[8] (r ^^^ b.toBitVec.setWidth w)

/-- The register after a message. -/
def update (p r : BitVec w) (bs : Str) : BitVec w := bs.foldl (feed p) r

/-- The number that the bytes make, least significant first. -/
def word (w : Nat) (bs : Str) : BitVec w := BitVec.ofNat w (ofLe bs)

theorem update_append (p r : BitVec w) (a b : Str) : update p r (a ++ b) = update p (update p r a) b :=
  List.foldl_append ..

/-! ## Linearity -/

theorem getLsbD_shift (p r : BitVec w) (i : Nat) :
    (shift p r).getLsbD i = (r.getLsbD (1 + i) ^^ (r.getLsbD 0 && p.getLsbD i)) := by
  unfold shift
  rw [BitVec.getLsbD_xor, BitVec.getLsbD_ushiftRight]
  cases r.getLsbD 0 <;> simp

theorem shift_xor (p a b : BitVec w) : shift p (a ^^^ b) = shift p a ^^^ shift p b := by
  apply BitVec.eq_of_getLsbD_eq
  intro i _
  simp only [BitVec.getLsbD_xor, getLsbD_shift]
  generalize a.getLsbD (1 + i) = x
  generalize b.getLsbD (1 + i) = y
  generalize a.getLsbD 0 = s
  generalize b.getLsbD 0 = t
  generalize p.getLsbD i = q
  revert x y s t q
  decide

theorem iterate_shift_xor (p : BitVec w) : ∀ (n : Nat) (a b : BitVec w),
    (shift p)^[n] (a ^^^ b) = (shift p)^[n] a ^^^ (shift p)^[n] b
  | 0, _, _ => rfl
  | n + 1, a, b => by
    rw [Function.iterate_succ_apply, Function.iterate_succ_apply, Function.iterate_succ_apply, shift_xor,
      iterate_shift_xor p n]

/-- Only the zero register is shifted to zero: the highest bit of the result is the bit that fell
out. -/
theorem eq_zero_of_shift {p x : BitVec w} (hp : p.msb = true) (h : shift p x = 0#w) : x = 0#w := by
  have hw : 0 < w := by
    rcases Nat.eq_zero_or_pos w with rfl | hw
    · simp [BitVec.msb] at hp
    · exact hw
  have hbit : ∀ i, (x.getLsbD (1 + i) ^^ (x.getLsbD 0 && p.getLsbD i)) = false := by
    intro i
    rw [← getLsbD_shift, h, BitVec.getLsbD_zero]
  have hlow : x.getLsbD 0 = false := by
    have htop := hbit (w - 1)
    rw [BitVec.getLsbD_of_ge x _ (by omega), ← BitVec.msb_eq_getLsbD_last, hp] at htop
    simpa using htop
  apply BitVec.eq_of_getLsbD_eq
  intro i _
  rw [BitVec.getLsbD_zero]
  cases i with
  | zero => exact hlow
  | succ i =>
    have hi := hbit i
    rw [hlow, Bool.false_and, Bool.xor_false, Nat.add_comm] at hi
    exact hi

theorem shift_injective {p : BitVec w} (hp : p.msb = true) : Function.Injective (shift p) := by
  intro a b h
  have hzero : shift p (a ^^^ b) = 0#w := by rw [shift_xor, h, BitVec.xor_self]
  exact BitVec.xor_eq_zero_iff.1 (eq_zero_of_shift hp hzero)

theorem feed_injective {p : BitVec w} (hp : p.msb = true) (b : UInt8) : Function.Injective fun r => feed p r b := by
  intro r s h
  have hxor := (shift_injective hp).iterate 8 h
  exact (BitVec.xor_left_inj _).1 hxor

/-- The rest of a message keeps different registers different. -/
theorem update_injective {p : BitVec w} (hp : p.msb = true) : ∀ bs : Str, Function.Injective fun r => update p r bs
  | [] => fun _ _ h => h
  | b :: bs => fun _ _ h => feed_injective hp b (update_injective hp bs h)

/-! ## Bytes as numbers -/

/-- A register whose low bits are zero only moves down. -/
theorem iterate_shift_of_low {p x : BitVec w} : ∀ {n : Nat}, (∀ i < n, x.getLsbD i = false) →
    (shift p)^[n] x = x >>> n
  | 0, _ => by simp
  | n + 1, h => by
    have hlow : (x >>> n).getLsbD 0 = false := by
      rw [BitVec.getLsbD_ushiftRight, Nat.add_zero]
      exact h n (Nat.lt_succ_self n)
    rw [Function.iterate_succ_apply', iterate_shift_of_low fun i hi => h i (Nat.lt_succ_of_lt hi), shift, hlow,
      BitVec.shiftRight_add]
    simp

theorem ofLe_lt_two_pow {bs : Str} {n : Nat} (h : 8 * bs.length ≤ n) : ofLe bs < 2 ^ n :=
  calc ofLe bs < (2 ^ 8) ^ bs.length := ofLe_lt bs
    _ = 2 ^ (8 * bs.length) := (pow_mul 2 8 bs.length).symm
    _ ≤ 2 ^ n := Nat.pow_le_pow_right (by norm_num) h

theorem getLsbD_word {bs : Str} {i : Nat} (h : 8 * bs.length ≤ i) : (word w bs).getLsbD i = false := by
  rw [word, BitVec.getLsbD_ofNat, Nat.testBit_lt_two_pow (ofLe_lt_two_pow h), Bool.and_false]

theorem toNat_word {bs : Str} (h : 8 * bs.length ≤ w) : (word w bs).toNat = ofLe bs := by
  rw [word, BitVec.toNat_ofNat, Nat.mod_eq_of_lt (ofLe_lt_two_pow h)]

theorem word_cons (b : UInt8) (bs : Str) : word w (b :: bs) = b.toBitVec.setWidth w ^^^ (word w bs <<< 8) := by
  apply BitVec.eq_of_getLsbD_eq
  intro i hi
  have hsplit : (ofLe (b :: bs)).testBit i = if i < 8 then b.toNat.testBit i else (ofLe bs).testBit (i - 8) := by
    rw [ofLe, Nat.add_comm, show 256 = 2 ^ 8 by rfl]
    exact Nat.testBit_two_pow_mul_add _ b.toNat_lt i
  rw [word, BitVec.getLsbD_ofNat, hsplit, BitVec.getLsbD_xor, BitVec.getLsbD_setWidth, BitVec.getLsbD_shiftLeft, word,
    BitVec.getLsbD_ofNat]
  by_cases h8 : i < 8
  · simp [h8, hi, BitVec.getLsbD]
  · have hb : b.toBitVec.getLsbD i = false := BitVec.getLsbD_of_ge _ _ (by omega)
    have hi' : i - 8 < w := by omega
    simp [h8, hi, hb, hi']

/-- Shifted out byte by byte, a number of as many bytes is what is left to add. -/
theorem iterate_shift_word {p : BitVec w} {bs : Str} (h : 8 * bs.length + 8 ≤ w) :
    (shift p)^[8] (word w bs <<< 8) = word w bs := by
  rw [iterate_shift_of_low (by intro i hi; simp [hi])]
  apply BitVec.eq_of_getLsbD_eq
  intro i _
  rw [BitVec.getLsbD_ushiftRight, BitVec.getLsbD_shiftLeft, Nat.add_sub_cancel_left]
  by_cases hi : 8 + i < w
  · simp [hi]
  · rw [getLsbD_word (by omega), Bool.and_false]

/-- Bytes that fit the register act on it like their number. -/
theorem update_eq {p : BitVec w} : ∀ {bs : Str}, 8 * bs.length ≤ w → ∀ r : BitVec w,
    update p r bs = (shift p)^[8 * bs.length] (r ^^^ word w bs)
  | [], _, r => by simp [update, word, ofLe]
  | b :: bs, h, r => by
    rw [List.length_cons] at h
    have hfeed : feed p r b ^^^ word w bs = (shift p)^[8] (r ^^^ word w (b :: bs)) := by
      rw [word_cons, ← BitVec.xor_assoc, iterate_shift_xor, iterate_shift_word (by omega)]
      rfl
    show update p (feed p r b) bs = _
    rw [update_eq (by omega), hfeed, ← Function.iterate_add_apply, List.length_cons, Nat.mul_succ]

theorem ofLe_injective : ∀ {a b : Str}, a.length = b.length → ofLe a = ofLe b → a = b
  | [], [], _, _ => rfl
  | x :: a, y :: b, hlen, h => by
    have hx := x.toNat_lt
    have hy := y.toNat_lt
    simp only [ofLe] at h
    have hxy : x = y := UInt8.toNat_inj.1 (by omega)
    rw [hxy, ofLe_injective (Nat.succ.inj hlen) (by omega)]

/-! ## Detection -/

/-- A message that is changed within one register's width ends with another register. -/
theorem update_ne_of_burst {p : BitVec w} (hp : p.msb = true) (r : BitVec w) (a c : Str) {d d' : Str}
    (hlen : d'.length = d.length) (h : 8 * d.length ≤ w) (hne : d' ≠ d) :
    update p r (a ++ (d' ++ c)) ≠ update p r (a ++ (d ++ c)) := by
  simp only [update_append]
  intro heq
  have hd := update_injective hp c heq
  rw [update_eq (hlen ▸ h), update_eq h, hlen] at hd
  have hword := (BitVec.xor_right_inj _).1 ((shift_injective hp).iterate _ hd)
  apply hne
  apply ofLe_injective hlen
  rw [← toNat_word (hlen ▸ h), hword, toNat_word h]

/-- The bytes behind a message are the complement of its register exactly if they bring the
register to a fixed value. -/
theorem check_iff {p : BitVec w} (hp : p.msb = true) (r : BitVec w) {c : Str} (h : 8 * c.length = w) :
    word w c = ~~~ r ↔ update p r c = (shift p)^[w] (BitVec.allOnes w) := by
  rw [update_eq (le_of_eq h), h, ← BitVec.xor_allOnes]
  constructor
  · intro hc
    rw [hc, ← BitVec.xor_assoc, BitVec.xor_self, BitVec.zero_xor]
  · intro heq
    have hones := (shift_injective hp).iterate _ heq
    rw [← hones, ← BitVec.xor_assoc, BitVec.xor_self, BitVec.zero_xor]

end Crc
