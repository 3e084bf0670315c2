import Mathlib.Data.List.Basic
import Mathlib.Tactic.Ring
import Mathlib.Tactic.SplitIfs

/-!
# Decimal numerals

`value` is what a list of digits denotes. `parseDigits` reads one with a check at every digit, and
`parseUnsigned` takes a plus sign before it. The checks never refuse a numeral below the limit, whatever
zeros lead it (`parseUnsigned_eq_some`).
-/

namespace Oxpinyin.Decimal

open List

/-- What a digit denotes. -/
def digit (c : Char) : Nat := c.toNat - 48

/-- What a list of digits denotes. -/
def value (digits : List Char) : Nat := digits.foldl (fun n c => n * 10 + digit c) 0

/-- Reads the digits behind `n`, up to the first that leaves the range. -/
def parseDigits (limit : Nat) : Nat → List Char → Option Nat
  | n, [] => some n
  | n, c :: rest =>
    if c.isDigit then
      if n * 10 + digit c < limit then parseDigits limit (n * 10 + digit c) rest else none
    else none

/-- Reads an unsigned number below the limit. -/
def parseUnsigned (limit : Nat) : List Char → Option Nat
  | [] => none
  | c :: rest =>
    if c = '+' then
      if rest.isEmpty then none else parseDigits limit 0 rest
    else parseDigits limit 0 (c :: rest)

theorem foldl_value (digits : List Char) (n : Nat) :
    digits.foldl (fun n c => n * 10 + digit c) n = n * 10 ^ digits.length + value digits := by
  induction digits generalizing n with
  | nil => simp [value]
  | cons c digits ih =>
    rw [value, foldl_cons, foldl_cons, ih, ih (0 * 10 + digit c), length_cons, pow_succ]
    ring

@[simp] theorem value_nil : value [] = 0 := rfl

theorem value_cons (c : Char) (digits : List Char) :
    value (c :: digits) = digit c * 10 ^ digits.length + value digits := by
  rw [value, foldl_cons, foldl_value, Nat.zero_mul, Nat.zero_add]

variable {limit : Nat}

variable {digits : List Char} {m : Nat}

theorem parseDigits_eq_some {n : Nat} (hn : n < limit) :
    parseDigits limit n digits = some m ↔
      (∀ c ∈ digits, c.isDigit = true) ∧ m = n * 10 ^ digits.length + value digits ∧ m < limit := by
  induction digits generalizing n with
  | nil =>
    simp only [parseDigits, Option.some.injEq, not_mem_nil, false_implies, implies_true, true_and,
      length_nil, pow_zero, Nat.mul_one, value_nil, Nat.add_zero]
    exact ⟨fun h => ⟨h.symm, h ▸ hn⟩, fun h => h.1.symm⟩
  | cons c digits ih =>
    have hvalue : n * 10 ^ (c :: digits).length + value (c :: digits) =
        (n * 10 + digit c) * 10 ^ digits.length + value digits := by
      rw [value_cons, length_cons, pow_succ]
      ring
    rw [parseDigits, forall_mem_cons, hvalue]
    split_ifs with hdigit hbound
    · rw [ih hbound]
      simp [hdigit]
    · -- what has left the range does not come back
      refine ⟨nofun, fun ⟨_, hm, hlt⟩ => ?_⟩
      have hpos : 0 < 10 ^ digits.length := Nat.pow_pos (by decide)
      have := Nat.le_mul_of_pos_right (n * 10 + digit c) hpos
      omega
    · exact ⟨nofun, fun h => absurd h.1.1 hdigit⟩

theorem not_isDigit_plus : ('+' : Char).isDigit = false := by decide

/-- A numeral is read exactly when it has a digit, digits only and a value below the limit. -/
theorem parseUnsigned_eq_some {text : List Char} (hlimit : 0 < limit) :
    parseUnsigned limit text = some m ↔ ∃ digits, (text = digits ∨ text = '+' :: digits) ∧
      digits ≠ [] ∧ (∀ c ∈ digits, c.isDigit = true) ∧ m = value digits ∧ m < limit := by
  have hzero : ∀ digits, 0 * 10 ^ digits.length + value digits = value digits := fun digits => by
    rw [Nat.zero_mul, Nat.zero_add]
  have hplus : ∀ digits : List Char, ¬∀ c ∈ '+' :: digits, c.isDigit = true := fun digits h => by
    have := h '+' mem_cons_self
    rw [not_isDigit_plus] at this
    cases this
  cases text with
  | nil => simp [parseUnsigned]
  | cons c rest =>
    rw [parseUnsigned]
    split_ifs with hc hrest
    · refine ⟨nofun, ?_⟩
      rintro ⟨digits, heq | heq, hne, hdigits, _⟩
      · subst heq hc
        exact absurd hdigits (hplus _)
      · obtain ⟨_, rfl⟩ := cons.inj heq
        exact absurd (isEmpty_iff.mp hrest) hne
    · rw [parseDigits_eq_some hlimit, hzero]
      subst hc
      constructor
      · exact fun h => ⟨rest, Or.inr rfl, fun hnil => hrest (isEmpty_iff.mpr hnil), h⟩
      · rintro ⟨digits, heq | heq, hne, hdigits, h⟩
        · subst heq
          exact absurd hdigits (hplus _)
        · obtain ⟨_, rfl⟩ := cons.inj heq
          exact ⟨hdigits, h⟩
    · rw [parseDigits_eq_some hlimit, hzero]
      constructor
      · exact fun h => ⟨c :: rest, Or.inl rfl, cons_ne_nil _ _, h⟩
      · rintro ⟨digits, heq | heq, hne, h⟩
        · subst heq
          exact h
        · exact absurd (cons.inj heq).1 hc

/-- Without a sign the numeral is the text. -/
theorem parseUnsigned_digits (hlimit : 0 < limit) (hne : digits ≠ [])
    (h : ∀ c ∈ digits, c.isDigit = true) :
    parseUnsigned limit digits = if value digits < limit then some (value digits) else none := by
  split_ifs with hlt
  · exact (parseUnsigned_eq_some hlimit).mpr ⟨digits, Or.inl rfl, hne, h, rfl, hlt⟩
  · rw [Option.eq_none_iff_forall_not_mem]
    intro m hm
    obtain ⟨read, heq | heq, _, _, rfl, hm⟩ := (parseUnsigned_eq_some hlimit).mp hm
    · subst heq
      exact hlt hm
    · have := h '+' (heq ▸ mem_cons_self)
      rw [not_isDigit_plus] at this
      cases this

end Oxpinyin.Decimal
