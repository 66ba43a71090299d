/-
Formatted input from a text, as the standard streams do it: lines, words between blanks and unsigned
decimal numbers of a fixed width. Each reader is given with the texts it succeeds on (`word_iff`,
`number_iff`) and the lines of a text with the texts they are the lines of (`lines_line`, `lines_last`).
-/
import KvStore.Lib.Bytes

namespace Text

open Bytes

/-- The bytes of an ASCII text. -/
def ascii (s : String) : Str := s.toList.map fun c => UInt8.ofNat c.toNat

/-! ## Runs of bytes -/

/-- The text is `run`, all of it satisfying `p`, and a rest that does not go on with such a byte. -/
structure Splits (p : UInt8 → Bool) (s run rest : Str) : Prop where
  eq : s = run ++ rest
  all : ∀ b ∈ run, p b = true
  ends : ∀ b ∈ rest.head?, p b = false

theorem Splits.dropWhile {p : UInt8 → Bool} {s run rest : Str} (h : Splits p s run rest) : s.dropWhile p = rest := by
  rw [h.eq, List.dropWhile_append_of_pos h.all]
  cases rest with
  | nil => rfl
  | cons b rest => exact List.dropWhile_cons_of_neg (by rw [h.ends b rfl]; decide)

theorem Splits.takeWhile {p : UInt8 → Bool} {s run rest : Str} (h : Splits p s run rest) : s.takeWhile p = run := by
  rw [h.eq, List.takeWhile_append_of_pos h.all]
  cases rest with
  | nil => simp
  | cons b rest => rw [List.takeWhile_cons_of_neg (by rw [h.ends b rfl]; decide), List.append_nil]

theorem splits_span (p : UInt8 → Bool) (s : Str) : Splits p s (s.takeWhile p) (s.dropWhile p) where
  eq := List.takeWhile_append_dropWhile.symm
  all := List.all_eq_true.1 List.all_takeWhile
  ends := by
    intro b hb
    have hnot := List.head?_dropWhile_not p s
    rw [Option.mem_def.1 hb] at hnot
    simpa using hnot

theorem span_iff {p : UInt8 → Bool} {s run rest : Str} : s.span p = (run, rest) ↔ Splits p s run rest := by
  rw [List.span_eq_takeWhile_dropWhile, Prod.mk.injEq]
  constructor
  · rintro ⟨rfl, rfl⟩
    exact splits_span p s
  · intro h
    exact ⟨h.takeWhile, h.dropWhile⟩

/-! ## Words -/

/-- `isspace` in the C locale. -/
def isSpace (b : UInt8) : Bool := 9 ≤ b && b ≤ 13 || b == 32

/-- Nothing but blanks. -/
def Blank (s : Str) : Prop := ∀ b ∈ s, isSpace b = true

/-- At least one byte, and no blank. -/
def IsWord (w : Str) : Prop := w ≠ [] ∧ ∀ b ∈ w, isSpace b = false

instance (s : Str) : Decidable (Blank s) := inferInstanceAs (Decidable (∀ b ∈ s, _))
instance (w : Str) : Decidable (IsWord w) := inferInstanceAs (Decidable (_ ∧ _))

/-- `>>` into a string: the word behind the blanks and what comes after it. -/
def word (s : Str) : Option (Str × Str) :=
  let t := s.dropWhile isSpace
  if t = [] then none else some (t.span fun b => !isSpace b)

/-- Blanks in front of anything else are all that is skipped. -/
theorem dropWhile_blank {blanks t : Str} (hblank : Blank blanks) (ht : ∀ b ∈ t.head?, isSpace b = false) :
    (blanks ++ t).dropWhile isSpace = t :=
  Splits.dropWhile ⟨rfl, hblank, ht⟩

theorem IsWord.head? {w t : Str} (h : IsWord w) : ∀ b ∈ (w ++ t).head?, isSpace b = false := by
  obtain ⟨c, w', rfl⟩ := List.exists_cons_of_ne_nil h.1
  intro b hb
  cases hb
  exact h.2 c List.mem_cons_self

theorem word_iff {s w rest : Str} :
    word s = some (w, rest) ↔
      ∃ blanks, s = blanks ++ (w ++ rest) ∧ Blank blanks ∧ IsWord w ∧ ∀ b ∈ rest.head?, isSpace b = true := by
  unfold word
  constructor
  · intro h
    have hskip := splits_span isSpace s
    simp only at h
    split at h
    · cases h
    · rename_i hne
      rw [Option.some.injEq] at h
      have hsplit := span_iff.1 h
      refine ⟨_, ?_, hskip.all, ⟨?_, ?_⟩, ?_⟩
      · rw [← hsplit.eq]
        exact hskip.eq
      · -- the first byte that is not skipped is of the word
        rintro rfl
        have hrest := hsplit.eq
        rw [List.nil_append] at hrest
        obtain ⟨b, t, hcons⟩ := List.exists_cons_of_ne_nil hne
        have hspace := hskip.ends b (by rw [hcons]; rfl)
        have hends := hsplit.ends b (by rw [← hrest, hcons]; rfl)
        rw [hspace] at hends
        cases hends
      · intro b hb
        simpa using hsplit.all b hb
      · intro b hb
        simpa using hsplit.ends b hb
  · rintro ⟨blanks, rfl, hblank, ⟨hne, hword⟩, hrest⟩
    obtain ⟨b, w', rfl⟩ := List.exists_cons_of_ne_nil hne
    have hdrop : (blanks ++ (b :: w' ++ rest)).dropWhile isSpace = b :: w' ++ rest :=
      dropWhile_blank hblank (IsWord.head? ⟨hne, hword⟩)
    simp only [hdrop]
    rw [if_neg (by simp), Option.some.injEq, span_iff]
    constructor
    · rfl
    · intro c hc
      rw [hword c hc]
      rfl
    · intro c hc
      rw [hrest c hc]
      rfl

/-- A word behind blanks is read; the text behind it begins with one. -/
theorem word_append {b₀ w b₁ t : Str} (hblank : Blank b₀) (hword : IsWord w) (hblank₁ : Blank b₁) (hne : b₁ ≠ []) :
    word (b₀ ++ (w ++ (b₁ ++ t))) = some (w, b₁ ++ t) := by
  refine word_iff.2 ⟨b₀, rfl, hblank, hword, ?_⟩
  obtain ⟨c, b₁', rfl⟩ := List.exists_cons_of_ne_nil hne
  intro b hb
  cases hb
  exact hblank₁ c List.mem_cons_self

/-- The blanks that a text begins with, when a word was read up to them and there is more to come. -/
theorem blanks_ne_nil {b₁ t : Str} (h : ∀ b ∈ (b₁ ++ t).head?, isSpace b = true) (ht : t ≠ [])
    (hstart : ∀ b ∈ t.head?, isSpace b = false) : b₁ ≠ [] := by
  rintro rfl
  obtain ⟨c, t', rfl⟩ := List.exists_cons_of_ne_nil ht
  have hspace := h c rfl
  rw [hstart c rfl] at hspace
  cases hspace

/-! ## Numbers -/

def isDigit (b : UInt8) : Bool := 48 ≤ b && b ≤ 57

/-- The number that decimal digits stand for. -/
def value (ds : Str) : Nat := ds.foldl (fun n d => 10 * n + (d.toNat - 48)) 0

def IsNumeral (ds : Str) : Prop := ds ≠ [] ∧ ∀ d ∈ ds, isDigit d = true

instance (ds : Str) : Decidable (IsNumeral ds) := inferInstanceAs (Decidable (_ ∧ _))

theorem isSpace_of_isDigit {b : UInt8} (h : isDigit b = true) : isSpace b = false := by
  simp only [isDigit, isSpace, Bool.and_eq_true, decide_eq_true_eq, UInt8.le_iff_toNat_le, Bool.or_eq_false_iff,
    Bool.and_eq_false_iff, decide_eq_false_iff_not, beq_eq_false_iff_ne, ne_eq, ← UInt8.toNat_inj,
    UInt8.reduceToNat] at h ⊢
  omega

/-- What may stand in front of the digits. -/
inductive Sign
  | none
  | plus
  | minus
  deriving DecidableEq, Repr

namespace Sign

def text : Sign → Str
  | none => []
  | plus => [43]
  | minus => [45]

/-- The number that is stored: a minus negates modulo the bound. -/
def apply (bound : Nat) (n : Nat) : Sign → Nat
  | minus => (bound - n) % bound
  | _ => n

/-- Take a sign off the text. -/
def take : Str → Sign × Str
  | 43 :: s => (plus, s)
  | 45 :: s => (minus, s)
  | s => (none, s)

theorem text_take (s : Str) : s = (take s).1.text ++ (take s).2 := by
  unfold take
  split <;> rfl

/-- Digits are no sign. -/
theorem take_text (sign : Sign) {d : UInt8} (hd : isDigit d = true) (s : Str) :
    take (sign.text ++ d :: s) = (sign, d :: s) := by
  cases sign with
  | plus => rfl
  | minus => rfl
  | none =>
    show take (d :: s) = _
    unfold take
    split
    · rename_i heq
      rw [(List.cons.inj heq).1] at hd
      exact absurd hd (by decide)
    · rename_i heq
      rw [(List.cons.inj heq).1] at hd
      exact absurd hd (by decide)
    · rfl

end Sign

/-- `>>` into an unsigned integer below `bound`: it fails without digits and on overflow. -/
def number (bound : Nat) (s : Str) : Option (Nat × Str) :=
  let (sign, t) := Sign.take (s.dropWhile isSpace)
  let (ds, rest) := t.span isDigit
  if ds = [] then none
  else if value ds < bound then some (sign.apply bound (value ds), rest)
  else none

theorem IsNumeral.head? {sign : Sign} {ds t : Str} (h : IsNumeral ds) :
    ∀ b ∈ (sign.text ++ (ds ++ t)).head?, isSpace b = false := by
  obtain ⟨d, ds', rfl⟩ := List.exists_cons_of_ne_nil h.1
  intro b hb
  cases sign with
  | none =>
    cases hb
    exact isSpace_of_isDigit (h.2 d List.mem_cons_self)
  | plus =>
    cases hb
    rfl
  | minus =>
    cases hb
    rfl

theorem number_iff {bound : Nat} {s rest : Str} {n : Nat} :
    number bound s = some (n, rest) ↔
      ∃ (blanks : Str) (sign : Sign) (ds : Str), s = blanks ++ (sign.text ++ (ds ++ rest)) ∧ Blank blanks ∧
        IsNumeral ds ∧
        value ds < bound ∧ (∀ b ∈ rest.head?, isDigit b = false) ∧ n = sign.apply bound (value ds) := by
  unfold number
  constructor
  · intro h
    have hskip := splits_span isSpace s
    have hsign := Sign.text_take (s.dropWhile isSpace)
    have hsplit := splits_span isDigit (Sign.take (s.dropWhile isSpace)).2
    simp only [List.span_eq_takeWhile_dropWhile] at h
    split at h
    · cases h
    · rename_i hne
      split at h
      · rename_i hlt
        rw [Option.some.injEq, Prod.mk.injEq] at h
        obtain ⟨rfl, rfl⟩ := h
        refine ⟨_, _, _, ?_, hskip.all, ⟨hne, hsplit.all⟩, hlt, hsplit.ends, rfl⟩
        rw [← hsplit.eq, ← hsign]
        exact hskip.eq
      · cases h
  · rintro ⟨blanks, sign, ds, rfl, hblank, ⟨hne, hdigits⟩, hlt, hrest, rfl⟩
    obtain ⟨d, ds', rfl⟩ := List.exists_cons_of_ne_nil hne
    have hd : isDigit d = true := hdigits d List.mem_cons_self
    have hdrop : (blanks ++ (sign.text ++ (d :: ds' ++ rest))).dropWhile isSpace = sign.text ++ (d :: ds' ++ rest) :=
      dropWhile_blank hblank (IsNumeral.head? ⟨hne, hdigits⟩)
    have hspan : (d :: ds' ++ rest).span isDigit = (d :: ds', rest) := span_iff.2 ⟨rfl, hdigits, hrest⟩
    have htake : Sign.take (sign.text ++ (d :: ds' ++ rest)) = (sign, d :: ds' ++ rest) :=
      Sign.take_text sign hd (ds' ++ rest)
    simp only [hdrop, htake, hspan]
    rw [if_neg hne, if_pos hlt]

/-! ## Lines -/

/-- The lines of a text, with `acc` already read of the first one. The last line need not be ended,
but then it has a byte. -/
def linesFrom (acc : Str) : Str → List Str
  | [] => if acc = [] then [] else [acc]
  | b :: s => if b = 10 then acc :: linesFrom [] s else linesFrom (acc ++ [b]) s

/-- What `getline` returns until it fails. -/
def lines (s : Str) : List Str := linesFrom [] s

theorem linesFrom_append : ∀ {line : Str}, 10 ∉ line → ∀ (acc s : Str),
    linesFrom acc (line ++ s) = linesFrom (acc ++ line) s
  | [], _, acc, s => by simp
  | b :: line, h, acc, s => by
    obtain ⟨hb, hline⟩ := not_or.1 (mt List.mem_cons.2 h)
    rw [List.cons_append, linesFrom, if_neg (Ne.symm hb), linesFrom_append hline, List.append_assoc]
    rfl

theorem lines_line {line : Str} (h : 10 ∉ line) (s : Str) : lines (line ++ 10 :: s) = line :: lines s := by
  unfold lines
  rw [linesFrom_append h, linesFrom, if_pos rfl]
  rfl

theorem lines_last {line : Str} (h : 10 ∉ line) : lines line = if line = [] then [] else [line] := by
  have := linesFrom_append h [] []
  rw [List.append_nil] at this
  exact this

/-- A text is its last line, or has a first one that is ended. -/
theorem line_cases (s : Str) : 10 ∉ s ∨ ∃ line t, 10 ∉ line ∧ s = line ++ 10 :: t := by
  have h := splits_span (fun b => b != 10) s
  have hline : 10 ∉ s.takeWhile fun b => b != 10 := fun hmem => absurd (h.all 10 hmem) (by decide)
  rcases hrest : s.dropWhile (fun b => b != 10) with _ | ⟨b, t⟩
  · have hs := h.eq
    rw [hrest, List.append_nil] at hs
    rw [← hs] at hline
    exact Or.inl hline
  · have hb : b = 10 := by simpa using h.ends b (by rw [hrest]; rfl)
    subst hb
    exact Or.inr ⟨_, t, hline, by rw [← hrest]; exact h.eq⟩

end Text
