import Mathlib.Data.List.DropRight
import Mathlib.Data.Nat.Cast.Field
import Mathlib.Data.Nat.GCD.Basic
import Mathlib.Data.Rat.Defs
import Mathlib.Tactic.FieldSimp
import Mathlib.Tactic.Positivity
import Oxpinyin.InterpGrammar
import Oxpinyin.Lib.Decimal

/-!
# The interpolation weight as a rational

`table.conf` gives the weight `λ` of the bigram term as a decimal. `Lambda.fromDecimal` reads the exact
rational : the digits over a power of ten, reduced by the greatest common divisor. A weight above 1, a
sign, an exponent and a number that does not fit 128 bits are refused; nothing else is
(`Lambda.fromDecimal_spec`).
-/

namespace Oxpinyin

open List Decimal InterpGrammar
open Option hiding all_eq_true

/-! ## The parser -/

/-- A weight in the unit interval. -/
structure Lambda where
  numerator : Nat
  denominator : Nat
  le : numerator ≤ denominator
  pos : 0 < denominator
  fits : denominator < 2 ^ 128

/-- The weight of the shipped table. -/
def Lambda.pinned : Lambda := ⟨312699, 1000000, by decide, by decide, by decide⟩

/-- `str::trim`. -/
def trim (text : List Char) : List Char :=
  (text.dropWhile isWhitespace).rdropWhile isWhitespace

/-- `str::split_once`. -/
def splitOnce (separator : Char) (text : List Char) : Option (List Char × List Char) :=
  match text.dropWhile (· ≠ separator) with
  | [] => none
  | _ :: rest => some (text.takeWhile (· ≠ separator), rest)

/-- What fits 128 bits. -/
def checkedU128 (n : Nat) : Option Nat := if n < 2 ^ 128 then some n else none

theorem checkedU128_eq_some {n m : Nat} : checkedU128 n = some m ↔ n = m ∧ n < 2 ^ 128 := by
  rw [checkedU128, ite_none_right_eq_some, some.injEq, and_comm]

/-- Euclid's loop. -/
def Lambda.gcd (a b : Nat) : Nat :=
  if b = 0 then (if a = 0 then 1 else a) else Lambda.gcd b (a % b)
termination_by b
decreasing_by exact Nat.mod_lt _ (Nat.pos_of_ne_zero (by assumption))

theorem Lambda.gcd_eq {a b : Nat} (hb : 0 < b) : Lambda.gcd a b = Nat.gcd a b := by
  induction b using Nat.strong_induction_on generalizing a with
  | _ b ih =>
    rw [Lambda.gcd, if_neg (Nat.ne_of_gt hb), Nat.gcd_comm a, Nat.gcd_rec b, Nat.gcd_comm]
    rcases Nat.eq_zero_or_pos (a % b) with hzero | hpos
    · rw [hzero, Lambda.gcd, if_pos rfl, if_neg (Nat.ne_of_gt hb), Nat.gcd_zero_right]
    · exact ih (a % b) (Nat.mod_lt _ hb) hpos

/-- A part of the decimal. No digits are zero. -/
def parsePart (digits : List Char) : Option Nat :=
  if digits.isEmpty then some 0 else parseUnsigned (2 ^ 128) digits

/-- The fraction in lowest terms. -/
def Lambda.reduced (numerator denominator : Nat) (le : numerator ≤ denominator) (pos : 0 < denominator)
    (fits : denominator < 2 ^ 128) : Lambda where
  numerator := numerator / gcd numerator denominator
  denominator := denominator / gcd numerator denominator
  le := Nat.div_le_div_right le
  pos := by
    rw [gcd_eq pos]
    exact Nat.div_pos (Nat.le_of_dvd pos (Nat.gcd_dvd_right _ _)) (Nat.gcd_pos_of_pos_right _ pos)
  fits := Nat.lt_of_le_of_lt (Nat.div_le_self _ _) fits

/-- Reads a weight. -/
def Lambda.fromDecimal (text : List Char) : Option Lambda :=
  let text := trim text
  if text.isEmpty then none
  else
    let (intPart, fracPart) := (splitOnce '.' text).getD (text, [])
    if intPart.isEmpty && fracPart.isEmpty then none
    else if !intPart.all Char.isDigit || !fracPart.all Char.isDigit then none
    else if 2 ^ 32 ≤ fracPart.length then none
    else if fits : 10 ^ fracPart.length < 2 ^ 128 then
      (parsePart intPart).bind fun intValue =>
        (parsePart fracPart).bind fun fracValue =>
          (checkedU128 (intValue * 10 ^ fracPart.length)).bind fun scaled =>
            (checkedU128 (scaled + fracValue)).bind fun numerator =>
              if above : 10 ^ fracPart.length < numerator then none
              else some (.reduced numerator _ (Nat.le_of_not_lt above) (Nat.pow_pos (by decide)) fits)
    else none

/-! ## What it reads -/

variable {intPart fracPart text : List Char}

/-- A text of digits with at most one point and at least one digit. -/
structure IsDecimal (text intPart fracPart : List Char) : Prop where
  text_eq : text = intPart ++ '.' :: fracPart ∨ text = intPart ∧ fracPart = []
  int_digits : ∀ c ∈ intPart, c.isDigit = true
  frac_digits : ∀ c ∈ fracPart, c.isDigit = true
  digits : intPart ++ fracPart ≠ []

/-- What the two parts denote. -/
def decimalValue (intPart fracPart : List Char) : Rat :=
  value intPart + value fracPart / 10 ^ fracPart.length

/-- The fraction over a power of ten. -/
def scaledValue (intPart fracPart : List Char) : Nat :=
  value intPart * 10 ^ fracPart.length + value fracPart

theorem decimalValue_eq (intPart fracPart : List Char) :
    decimalValue intPart fracPart = scaledValue intPart fracPart / (10 ^ fracPart.length : Nat) := by
  rw [decimalValue, scaledValue]
  push_cast
  field_simp

theorem decimalValue_le_one :
    decimalValue intPart fracPart ≤ 1 ↔ scaledValue intPart fracPart ≤ 10 ^ fracPart.length := by
  have hpos : (0 : Rat) < ((10 ^ fracPart.length : Nat) : Rat) := by positivity
  rw [decimalValue_eq, div_le_one hpos, Nat.cast_le]

/-- No digit is the point, so the parts are those the split finds. -/
theorem IsDecimal.split (h : IsDecimal text intPart fracPart) :
    (splitOnce '.' text).getD (text, []) = (intPart, fracPart) := by
  have hne : ∀ c ∈ intPart, (decide (c ≠ '.')) = true := by
    intro c hc
    have := h.int_digits c hc
    refine decide_eq_true fun heq => ?_
    rw [heq] at this
    cases this
  rcases h.text_eq with rfl | ⟨rfl, rfl⟩
  · rw [splitOnce, dropWhile_append_of_pos hne, takeWhile_append_of_pos hne]
    simp
  · rw [splitOnce, dropWhile_eq_nil_iff.mpr hne]
    rfl

theorem splitOnce_getD (h : (splitOnce '.' text).getD (text, []) = (intPart, fracPart)) :
    text = intPart ++ '.' :: fracPart ∨ text = intPart ∧ fracPart = [] := by
  rw [splitOnce] at h
  have hparts := takeWhile_append_dropWhile (p := fun c => decide (c ≠ '.')) (l := text)
  cases hdrop : text.dropWhile fun c => decide (c ≠ '.') with
  | nil =>
    rw [hdrop] at h
    obtain ⟨rfl, rfl⟩ := Prod.mk.inj h
    exact Or.inr ⟨rfl, rfl⟩
  | cons c rest =>
    rw [hdrop] at h hparts
    obtain ⟨rfl, rfl⟩ := Prod.mk.inj h
    have hpoint := head?_dropWhile_not (fun c => decide (c ≠ '.')) text
    rw [hdrop] at hpoint
    simp only [head?_cons, decide_eq_false_iff_not, not_not] at hpoint
    exact Or.inl (hpoint ▸ hparts.symm)

theorem parsePart_digits {digits : List Char} (h : ∀ c ∈ digits, c.isDigit = true) :
    parsePart digits = checkedU128 (value digits) := by
  unfold parsePart
  split_ifs with hempty
  · rw [isEmpty_iff.mp hempty]
    rfl
  · exact parseUnsigned_digits (by decide) (fun hnil => hempty (isEmpty_iff.mpr hnil)) h

/-- The text of a decimal is read when its value is at most 1 and its power of ten fits. -/
theorem Lambda.fromDecimal_of_isDecimal (h : IsDecimal (trim text) intPart fracPart) :
    fromDecimal text = if hread : scaledValue intPart fracPart ≤ 10 ^ fracPart.length ∧
        10 ^ fracPart.length < 2 ^ 128 then
      some (.reduced _ _ hread.1 (Nat.pow_pos (by decide)) hread.2) else none := by
  have htext : (trim text).isEmpty = false := by
    rw [isEmpty_eq_false_iff]
    rintro hnil
    rcases h.text_eq with heq | ⟨heq, hfrac⟩
    · rw [hnil] at heq
      simp at heq
    · exact h.digits (by rw [← heq, hnil, hfrac]; rfl)
  have hparts : (intPart.isEmpty && fracPart.isEmpty) = false := by
    rw [Bool.and_eq_false_iff, isEmpty_eq_false_iff, isEmpty_eq_false_iff]
    by_contra hboth
    rw [not_or, not_not, not_not] at hboth
    exact h.digits (by rw [hboth.1, hboth.2]; rfl)
  have hdigits : (!intPart.all Char.isDigit || !fracPart.all Char.isDigit) = false := by
    simp [all_eq_true.mpr h.int_digits, all_eq_true.mpr h.frac_digits]
  unfold fromDecimal
  simp only [htext, h.split, hparts, hdigits, Bool.false_eq_true, if_false]
  rw [parsePart_digits h.int_digits, parsePart_digits h.frac_digits]
  have hlong : 10 ^ fracPart.length < 2 ^ 128 → ¬2 ^ 32 ≤ fracPart.length := by
    intro hfits hlong
    have h1 : 2 ^ 2 ^ 7 ≤ 2 ^ fracPart.length := Nat.pow_le_pow_right (by decide) (Nat.le_trans (by decide) hlong)
    have h2 := Nat.pow_le_pow_left (by decide : 2 ≤ 10) fracPart.length
    omega
  by_cases hread : scaledValue intPart fracPart ≤ 10 ^ fracPart.length ∧ 10 ^ fracPart.length < 2 ^ 128
  · -- every number met on the way is at most the numerator
    have hpos : 1 ≤ 10 ^ fracPart.length := Nat.pow_pos (by decide)
    have hscaled : value intPart * 10 ^ fracPart.length ≤ scaledValue intPart fracPart := Nat.le_add_right _ _
    have hint : value intPart ≤ value intPart * 10 ^ fracPart.length := Nat.le_mul_of_pos_right _ hpos
    have hfrac : value fracPart ≤ scaledValue intPart fracPart := Nat.le_add_left _ _
    have hchecked : ∀ n ≤ scaledValue intPart fracPart, checkedU128 n = some n := by
      intro n hn
      rw [checkedU128, if_pos (by omega)]
    rw [if_neg (hlong hread.2), dif_pos hread.2, dif_pos hread, hchecked _ (by omega), bind_some,
      hchecked _ hfrac, bind_some, hchecked _ hscaled, bind_some]
    change (checkedU128 (scaledValue intPart fracPart)).bind _ = _
    rw [hchecked _ (Nat.le_refl _), bind_some, dif_neg (Nat.not_lt.mpr hread.1)]
  · rw [dif_neg hread]
    split_ifs with h1 h2
    · rfl
    · rw [eq_none_iff_forall_not_mem]
      intro read hmem
      simp only [mem_def, bind_eq_some_iff, checkedU128_eq_some, dite_none_left_eq_some] at hmem
      obtain ⟨_, ⟨rfl, _⟩, _, ⟨rfl, _⟩, _, ⟨rfl, _⟩, _, ⟨rfl, _⟩, hle, _⟩ := hmem
      exact hread ⟨Nat.le_of_not_lt hle, h2⟩
    · rfl

/-- What is read is the text of a decimal. -/
theorem Lambda.isDecimal_of_fromDecimal {lambda : Lambda}
    (h : fromDecimal text = some lambda) : ∃ intPart fracPart, IsDecimal (trim text) intPart fracPart := by
  unfold fromDecimal at h
  dsimp only at h
  generalize hsplit : (splitOnce '.' (trim text)).getD (trim text, []) = parts at h
  obtain ⟨intPart, fracPart⟩ := parts
  dsimp only at h
  split_ifs at h with _ hparts hdigits _ _
  rw [Bool.not_eq_true, Bool.or_eq_false_iff, Bool.not_eq_false', Bool.not_eq_false',
    all_eq_true, all_eq_true] at hdigits
  refine ⟨intPart, fracPart, splitOnce_getD hsplit, hdigits.1, hdigits.2, fun hnil => hparts ?_⟩
  rw [append_eq_nil_iff] at hnil
  rw [hnil.1, hnil.2]
  rfl

/-- The fraction in lowest terms is the fraction. -/
theorem Lambda.reduced_spec {numerator denominator : Nat} (le : numerator ≤ denominator)
    (pos : 0 < denominator) (fits : denominator < 2 ^ 128) :
    let lambda := reduced numerator denominator le pos fits
    (lambda.numerator / lambda.denominator : Rat) = numerator / denominator ∧
      Nat.Coprime lambda.numerator lambda.denominator := by
  have hgcd : 0 < Nat.gcd numerator denominator := Nat.gcd_pos_of_pos_right _ pos
  dsimp only [reduced]
  rw [gcd_eq pos]
  refine ⟨?_, Nat.coprime_div_gcd_div_gcd hgcd⟩
  rw [Nat.cast_div (Nat.gcd_dvd_left _ _) (by positivity), Nat.cast_div (Nat.gcd_dvd_right _ _) (by positivity)]
  have : (denominator : Rat) ≠ 0 := by positivity
  field_simp

/-- A text is read exactly when it is that of a decimal up to 1 whose power of ten fits 128 bits, and
what is read is its value in lowest terms. -/
theorem Lambda.fromDecimal_spec (text : List Char) :
    ((fromDecimal text).isSome = true ↔ ∃ intPart fracPart, IsDecimal (trim text) intPart fracPart ∧
      decimalValue intPart fracPart ≤ 1 ∧ 10 ^ fracPart.length < 2 ^ 128 ∧ value intPart < 2 ^ 128) ∧
    ∀ lambda, fromDecimal text = some lambda →
      ∀ intPart fracPart, IsDecimal (trim text) intPart fracPart →
        (lambda.numerator / lambda.denominator : Rat) = decimalValue intPart fracPart ∧
        Nat.Coprime lambda.numerator lambda.denominator ∧
        lambda.numerator ≤ lambda.denominator ∧ 1 ≤ lambda.denominator := by
  constructor
  · constructor
    · intro hsome
      obtain ⟨lambda, hlambda⟩ := Option.isSome_iff_exists.mp hsome
      obtain ⟨intPart, fracPart, h⟩ := isDecimal_of_fromDecimal hlambda
      rw [fromDecimal_of_isDecimal h] at hlambda
      split_ifs at hlambda with hread
      refine ⟨intPart, fracPart, h, decimalValue_le_one.mpr hread.1, hread.2, ?_⟩
      have hpos : 1 ≤ 10 ^ fracPart.length := Nat.pow_pos (by decide)
      have hint := Nat.le_mul_of_pos_right (value intPart) hpos
      have hscaled : value intPart * 10 ^ fracPart.length ≤ scaledValue intPart fracPart :=
        Nat.le_add_right _ _
      omega
    · rintro ⟨intPart, fracPart, h, hle, hfits, _⟩
      rw [fromDecimal_of_isDecimal h, dif_pos ⟨decimalValue_le_one.mp hle, hfits⟩]
      rfl
  · intro lambda hlambda intPart fracPart h
    rw [fromDecimal_of_isDecimal h] at hlambda
    split_ifs at hlambda with hread
    obtain rfl := Option.some.inj hlambda
    obtain ⟨hvalue, hcoprime⟩ := reduced_spec hread.1 (Nat.pow_pos (by decide)) hread.2
    refine ⟨?_, hcoprime, Lambda.le _, Lambda.pos _⟩
    rw [hvalue, decimalValue_eq]

end Oxpinyin
