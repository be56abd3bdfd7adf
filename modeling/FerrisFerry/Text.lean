import Mathlib.Data.List.Basic
import Mathlib.Data.Nat.Notation

/-!
# Splitting text and reading numbers

Text is a list of characters. `Text.rsplitOnce` splits at the last occurrence of a character,
`Text.parseUnsigned` reads a decimal number below a bound, with an optional plus sign. Splitting
undoes the joining of two texts, the second without the character, and reading undoes
`Nat.toDigits`.
-/

namespace FerrisFerry

namespace Text

variable {sep : Char} {s before rest : List Char} {bound : ℕ}

/-- Split at the last occurrence of a character. -/
def rsplitOnce (sep : Char) : List Char → Option (List Char × List Char)
  | [] => none
  | c :: cs =>
    match rsplitOnce sep cs with
    | some (before, rest) => some (c :: before, rest)
    | none => if c = sep then some ([], cs) else none

theorem rsplitOnce_eq_none : rsplitOnce sep s = none ↔ sep ∉ s := by
  induction s with
  | nil => simp [rsplitOnce]
  | cons c cs ih =>
    rw [rsplitOnce, List.mem_cons, not_or]
    cases h : rsplitOnce sep cs with
    | none =>
      dsimp only
      split_ifs with hc
      · simp [hc]
      · exact iff_of_true rfl ⟨Ne.symm hc, ih.mp h⟩
    | some r =>
      have hmem : ¬sep ∉ cs := fun hno => by simp [ih.mpr hno] at h
      simp [hmem]

theorem rsplitOnce_append (h : sep ∉ rest) (before : List Char) :
    rsplitOnce sep (before ++ sep :: rest) = some (before, rest) := by
  induction before with
  | nil => rw [List.nil_append, rsplitOnce, rsplitOnce_eq_none.mpr h, if_pos rfl]
  | cons c before ih => rw [List.cons_append, rsplitOnce, ih]

/-- The number that a text denotes, if it is below the bound. -/
def parseUnsigned (bound : ℕ) (s : List Char) : Option ℕ :=
  let digits := if s.head? = some '+' then s.tail else s
  if digits ≠ [] ∧ digits.all Char.isDigit ∧ Nat.ofDigitChars 10 digits 0 < bound then
    some (Nat.ofDigitChars 10 digits 0)
  else none

theorem parseUnsigned_digits {digits : List Char} (hne : digits ≠ [])
    (hd : ∀ c ∈ digits, c.isDigit) : parseUnsigned bound digits =
      if Nat.ofDigitChars 10 digits 0 < bound then some (Nat.ofDigitChars 10 digits 0)
      else none := by
  have hsign : digits.head? ≠ some '+' := fun hplus =>
    absurd (hd _ (List.mem_of_head? hplus)) (by decide)
  simp only [parseUnsigned, if_neg hsign]
  exact if_congr ⟨fun h => h.2.2, fun h => ⟨hne, List.all_eq_true.mpr hd, h⟩⟩ rfl rfl

/-- A number below the bound can be read from its digits. -/
theorem parseUnsigned_toDigits (bound n : ℕ) :
    parseUnsigned bound (Nat.toDigits 10 n) = if n < bound then some n else none := by
  rw [parseUnsigned_digits Nat.toDigits_ne_nil fun _ hc =>
    Nat.isDigit_of_mem_toDigits (by decide) (by decide) hc, Nat.ofDigitChars_ten_toDigits]

theorem notMem_toDigits (h : sep.isDigit = false) (n : ℕ) : sep ∉ Nat.toDigits 10 n := by
  intro hmem
  have := Nat.isDigit_of_mem_toDigits (by decide) (by decide) hmem
  rw [h] at this
  cases this

end Text

end FerrisFerry
