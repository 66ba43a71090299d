/-
Byte strings and the two fixed layouts of a 32-bit length: little-endian (a `uint32_t` written
from memory) and big-endian (network order). Encoding takes any natural number and keeps it
modulo `2^32`, as storing it in a `uint32_t` does; reading an exact number of bytes either
succeeds with them and the rest or fails. Of encodings one behind the other, `fitting` counts those within
a number of bytes.
-/
import Mathlib.Tactic

namespace Bytes

/-- A byte string: the contents of a buffer, a file or a stream. -/
abbrev Str := List UInt8

/-! ## Lengths of 32 bits -/

/-- The four bytes of `n` as a `uint32_t`, least significant first. -/
def le32 (n : Nat) : Str :=
  [UInt8.ofNat n, UInt8.ofNat (n / 2 ^ 8), UInt8.ofNat (n / 2 ^ 16), UInt8.ofNat (n / 2 ^ 24)]

/-- The four bytes of `n` as a `uint32_t`, most significant first. -/
def be32 (n : Nat) : Str := (le32 n).reverse

/-- The number whose bytes are given least significant first. -/
def ofLe : Str → Nat
  | [] => 0
  | b :: bs => b.toNat + 256 * ofLe bs

/-- The number whose bytes are given most significant first. -/
def ofBe (bs : Str) : Nat := ofLe bs.reverse

@[simp] theorem length_le32 (n : Nat) : (le32 n).length = 4 := rfl

@[simp] theorem length_be32 (n : Nat) : (be32 n).length = 4 := rfl

theorem ofLe_le32_mod (n : Nat) : ofLe (le32 n) = n % 2 ^ 32 := by
  simp only [ofLe, le32, UInt8.toNat_ofNat']
  omega

theorem ofBe_be32_mod (n : Nat) : ofBe (be32 n) = n % 2 ^ 32 := by
  unfold ofBe be32
  rw [List.reverse_reverse, ofLe_le32_mod]

theorem ofLe_le32 {n : Nat} (h : n < 2 ^ 32) : ofLe (le32 n) = n := by
  rw [ofLe_le32_mod, Nat.mod_eq_of_lt h]

theorem ofBe_be32 {n : Nat} (h : n < 2 ^ 32) : ofBe (be32 n) = n := by
  rw [ofBe_be32_mod, Nat.mod_eq_of_lt h]

/-- A payload behind its length in four bytes. -/
def framed (data : Str) : Str := be32 data.length ++ data

theorem length_framed (data : Str) : (framed data).length = 4 + data.length := by
  simp [framed]

theorem ofLe_lt : ∀ bs : Str, ofLe bs < 256 ^ bs.length
  | [] => by simp [ofLe]
  | b :: bs => by
    have ih := ofLe_lt bs
    have hb := b.toNat_lt
    simp only [ofLe, List.length_cons, pow_succ]
    omega

/-- Four bytes are the encoding of the number they make. -/
theorem le32_ofLe : ∀ {bs : Str}, bs.length = 4 → le32 (ofLe bs) = bs
  | [a, b, c, d], _ => by
    have ha := a.toNat_lt
    have hb := b.toNat_lt
    have hc := c.toNat_lt
    have hd := d.toNat_lt
    have h0 : UInt8.ofNat (ofLe [a, b, c, d]) = a := by
      apply UInt8.toNat_inj.1
      simp only [ofLe, UInt8.toNat_ofNat']
      omega
    have h1 : UInt8.ofNat (ofLe [a, b, c, d] / 2 ^ 8) = b := by
      apply UInt8.toNat_inj.1
      simp only [ofLe, UInt8.toNat_ofNat']
      omega
    have h2 : UInt8.ofNat (ofLe [a, b, c, d] / 2 ^ 16) = c := by
      apply UInt8.toNat_inj.1
      simp only [ofLe, UInt8.toNat_ofNat']
      omega
    have h3 : UInt8.ofNat (ofLe [a, b, c, d] / 2 ^ 24) = d := by
      apply UInt8.toNat_inj.1
      simp only [ofLe, UInt8.toNat_ofNat']
      omega
    simp only [le32, h0, h1, h2, h3]

theorem be32_ofBe {bs : Str} (h : bs.length = 4) : be32 (ofBe bs) = bs := by
  unfold be32 ofBe
  rw [le32_ofLe (by rw [List.length_reverse, h]), List.reverse_reverse]

theorem ofBe_lt {bs : Str} (h : bs.length = 4) : ofBe bs < 2 ^ 32 := by
  have hlt := ofLe_lt bs.reverse
  rw [List.length_reverse, h] at hlt
  exact hlt

/-! ## Exact reads -/

/-- Read exactly `n` bytes: them and what follows, or nothing when fewer are left. -/
def takeExact (n : Nat) (bs : Str) : Option (Str × Str) :=
  if n ≤ bs.length then some (bs.take n, bs.drop n) else none

theorem takeExact_append {n : Nat} {a : Str} (b : Str) (h : a.length = n) :
    takeExact n (a ++ b) = some (a, b) := by
  subst h
  unfold takeExact
  rw [if_pos (by simp)]
  simp

theorem takeExact_short {n : Nat} {bs : Str} (h : bs.length < n) : takeExact n bs = none :=
  if_neg (by omega)

theorem takeExact_some {n : Nat} {bs a b : Str} (h : takeExact n bs = some (a, b)) :
    bs = a ++ b ∧ a.length = n := by
  unfold takeExact at h
  split at h
  · rename_i hn
    simp only [Option.some.injEq, Prod.mk.injEq] at h
    obtain ⟨rfl, rfl⟩ := h
    exact ⟨(List.take_append_drop n bs).symm, by simp; omega⟩
  · cases h

/-- Encodings of at least a byte each are as many bytes as there are values. -/
theorem length_le_flatMap {α : Type} {f : α → Str} (hf : ∀ a, 0 < (f a).length) :
    ∀ as : List α, as.length ≤ (as.flatMap f).length
  | [] => by simp
  | a :: as => by
    have ih := length_le_flatMap hf as
    have ha := hf a
    rw [List.flatMap_cons, List.length_append, List.length_cons]
    omega

/-! ## Cutting -/

section

variable {α : Type} (f : α → Str)

/-- How many of the encodings, one behind the other, lie within the first `n` bytes. -/
def fitting : List α → Nat → Nat
  | [], _ => 0
  | a :: as, n => if (f a).length ≤ n then fitting as (n - (f a).length) + 1 else 0

/-- That number is the length of the longest initial run within the `n` bytes. -/
theorem isGreatest_fitting : ∀ (as : List α) (n : Nat),
    IsGreatest {i | i ≤ as.length ∧ ((as.take i).flatMap f).length ≤ n} (fitting f as n)
  | [], n => ⟨⟨le_refl 0, Nat.zero_le n⟩, fun i hi => hi.1⟩
  | a :: as, n => by
    obtain ⟨⟨hle, hfit⟩, hmax⟩ := isGreatest_fitting as (n - (f a).length)
    rw [fitting]
    split
    · rename_i hn
      constructor
      · refine ⟨Nat.succ_le_succ hle, ?_⟩
        rw [List.take_succ_cons, List.flatMap_cons, List.length_append]
        omega
      · rintro i ⟨hi, hlen⟩
        cases i with
        | zero => exact Nat.zero_le _
        | succ i =>
          rw [List.take_succ_cons, List.flatMap_cons, List.length_append] at hlen
          exact Nat.succ_le_succ (hmax ⟨Nat.le_of_succ_le_succ hi, by omega⟩)
    · rename_i hn
      constructor
      · exact ⟨Nat.zero_le _, Nat.zero_le n⟩
      · rintro i ⟨-, hlen⟩
        cases i with
        | zero => exact le_refl 0
        | succ i =>
          rw [List.take_succ_cons, List.flatMap_cons, List.length_append] at hlen
          omega

end

/-- The longer of two first parts of a string goes on where the shorter one ends. -/
theorem split_append {A X P Y : Str} (h : A ++ X = P ++ Y) (hle : A.length ≤ P.length) :
    ∃ a, P = A ++ a ∧ X = a ++ Y := by
  obtain ⟨a, rfl⟩ : A <+: P := List.prefix_of_prefix_length_le ⟨X, h⟩ ⟨Y, rfl⟩ hle
  refine ⟨a, rfl, ?_⟩
  rw [List.append_assoc] at h
  exact List.append_cancel_left h

end Bytes
