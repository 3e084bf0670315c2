import Mathlib.Data.List.Basic
import Mathlib.Tactic.SplitIfs

/-!
# Encodings that keep the lexicographic order

A code keeps the order of single items when the codes of two items in order first differ inside both,
and in order (`Separated`). Then no code is a front of another, and the order of whole lists is the
order of their encodings (`OrderEncoding.compareLex_flatMap`). `utf8_orderEncoding` : UTF-8 is such a
code.
-/

set_option linter.unusedSectionVars false

namespace Oxpinyin.LexEncoding

open Std List UInt8
open String hiding compare

variable {α β : Type*}

/-- Two lists first differ at a place inside both, where they are in order. -/
def Separated (cmp : β → β → Ordering) (left right : List β) : Prop :=
  ∃ front x y l r, left = front ++ x :: l ∧ right = front ++ y :: r ∧ cmp x y = .lt

theorem Separated.cons {cmp : β → β → Ordering} {x y : β} {left right : List β}
    (h : cmp x y = .lt ∨ x = y ∧ Separated cmp left right) : Separated cmp (x :: left) (y :: right) := by
  rcases h with hlt | ⟨rfl, front, u, v, l, r, rfl, rfl, hlt⟩
  · exact ⟨[], x, y, left, right, rfl, rfl, hlt⟩
  · exact ⟨x :: front, u, v, l, r, rfl, rfl, hlt⟩

/-- A code of non-empty lists under which items in order are separated. -/
structure OrderEncoding (cmp : α → α → Ordering) (cmpCode : β → β → Ordering) (code : α → List β) :
    Prop where
  nonempty : ∀ x, code x ≠ []
  separated : ∀ {x y}, cmp x y = .lt → Separated cmpCode (code x) (code y)

theorem compareLex_front {cmp : β → β → Ordering} [ReflCmp cmp] (front left right : List β) :
    List.compareLex cmp (front ++ left) (front ++ right) = List.compareLex cmp left right := by
  induction front with
  | nil => rfl
  | cons u front ih =>
    rw [List.cons_append, List.cons_append, List.compareLex_cons_cons, @ReflCmp.compare_self _ cmp, ih]
    rfl

namespace OrderEncoding

variable {cmp : α → α → Ordering} {cmpCode : β → β → Ordering} {code : α → List β}
  [OrientedCmp cmp] [LawfulEqCmp cmp] [OrientedCmp cmpCode]

theorem compareLex_separated (h : OrderEncoding cmp cmpCode code) {x y : α} (hlt : cmp x y = .lt)
    (left right : List β) : List.compareLex cmpCode (code x ++ left) (code y ++ right) = .lt ∧
      List.compareLex cmpCode (code y ++ right) (code x ++ left) = .gt := by
  obtain ⟨front, u, v, l, r, hx, hy, huv⟩ := h.separated hlt
  have hvu : cmpCode v u = .gt := by rw [@OrientedCmp.eq_swap _ cmpCode, huv]; rfl
  rw [hx, hy, List.append_assoc, List.append_assoc, compareLex_front, compareLex_front,
    List.cons_append, List.cons_append, List.compareLex_cons_cons, List.compareLex_cons_cons, huv, hvu]
  exact ⟨rfl, rfl⟩

/-- Lists of items compare as their encodings do. -/
theorem compareLex_flatMap (h : OrderEncoding cmp cmpCode code) (left right : List α) :
    List.compareLex cmpCode (left.flatMap code) (right.flatMap code) = List.compareLex cmp left right := by
  induction left generalizing right with
  | nil =>
    cases right with
    | nil => rfl
    | cons y right =>
      obtain ⟨u, codes, hcode⟩ := List.exists_cons_of_ne_nil (h.nonempty y)
      rw [List.flatMap_cons, hcode]
      rfl
  | cons x left ih =>
    cases right with
    | nil =>
      obtain ⟨u, codes, hcode⟩ := List.exists_cons_of_ne_nil (h.nonempty x)
      rw [List.flatMap_cons, hcode]
      rfl
    | cons y right =>
      rw [List.flatMap_cons, List.flatMap_cons, List.compareLex_cons_cons]
      cases hcmp : cmp x y with
      | lt => exact (h.compareLex_separated hcmp _ _).1
      | eq =>
        obtain rfl := LawfulEqCmp.eq_of_compare hcmp
        rw [compareLex_front]
        exact ih right
      | gt =>
        have hlt : cmp y x = .lt := by rw [@OrientedCmp.eq_swap _ cmp, hcmp]; rfl
        exact (h.compareLex_separated hlt _ _).2

end OrderEncoding

/-- The comparison of lists of words is their lexicographic order. -/
theorem compare_words_lt (left right : List Nat) : compare left right = .lt ↔ left < right := by
  induction left generalizing right with
  | nil => cases right <;> simp [List.compare_nil_cons]
  | cons u left ih =>
    cases right with
    | nil => simp [List.compare_cons_nil]
    | cons v right =>
      rw [List.compare_cons_cons, Ordering.then_eq_lt, ih, Nat.compare_eq_lt, Nat.compare_eq_eq,
        cons_lt_cons_iff]

/-! ## Characters -/

/-- Characters by code point. -/
def compareChars (left right : Char) : Ordering := compare left.toNat right.toNat

instance : OrientedCmp compareChars := ⟨fun {_ _} => (Nat.compare_swap _ _).symm⟩

instance : LawfulEqCmp compareChars where
  compare_self := ReflCmp.compare_self
  eq_of_compare h := Char.toNat_inj.mp (LawfulEqCmp.eq_of_compare h)

/-- One word a character. -/
theorem word_orderEncoding : OrderEncoding compareChars compare fun c : Char => [c.toNat] where
  nonempty _ := cons_ne_nil _ _
  separated h := Separated.cons (Or.inl h)

theorem compare_ofNat_lt {m n : Nat} (h : m < n) (hn : n < 256) : compare (UInt8.ofNat m) (UInt8.ofNat n) = .lt := by
  have hlt : UInt8.ofNat m < UInt8.ofNat n := by
    rw [lt_iff_toNat_lt, toNat_ofNat_of_lt' (Nat.lt_trans h hn), toNat_ofNat_of_lt' hn]
    exact h
  change compareOfLessAndEq _ _ = _
  rw [compareOfLessAndEq, if_pos hlt]

theorem separated_bytes {m n : Nat} {left right : List UInt8} (hn : n < 256)
    (h : m < n ∨ m = n ∧ Separated compare left right) :
    Separated compare (UInt8.ofNat m :: left) (UInt8.ofNat n :: right) := by
  refine Separated.cons ?_
  rcases h with hlt | ⟨rfl, hrest⟩
  · exact Or.inl (compare_ofNat_lt hlt hn)
  · exact Or.inr ⟨rfl, hrest⟩

/-- The sequences of two characters in order first differ inside both. -/
theorem separated_utf8 {left right : Char} (h : left.toNat < right.toNat) :
    Separated compare (utf8EncodeChar left) (utf8EncodeChar right) := by
  have hmax : right.val.toNat ≤ 1114111 := by
    rcases right.valid with hlow | hhigh
    · omega
    · omega
  unfold utf8EncodeChar
  change left.val.toNat < right.val.toNat at h
  dsimp only
  generalize left.val.toNat = v at h
  generalize right.val.toNat = w at h hmax
  have hhead := fun m n (l r : List UInt8) (hn : n < 256) (hlt : m < n) =>
    @separated_bytes m n l r hn (Or.inl hlt)
  split_ifs with h1 h2 h3 h4 h5 h6 h7 h8 h9 h10 h11 h12
  all_goals first
    | omega
    | exact hhead _ _ _ _ (by omega) (by omega)
    | skip
  · by_cases hfirst : v / 64 = w / 64
    · refine separated_bytes (by omega) (Or.inr ⟨by rw [hfirst], ?_⟩)
      exact hhead _ _ _ _ (by omega) (by omega)
    · exact hhead _ _ _ _ (by omega) (by omega)
  · by_cases hfirst : v / 4096 = w / 4096
    · refine separated_bytes (by omega) (Or.inr ⟨by rw [hfirst], ?_⟩)
      by_cases hsecond : v / 64 = w / 64
      · refine separated_bytes (by omega) (Or.inr ⟨by rw [hsecond], ?_⟩)
        exact hhead _ _ _ _ (by omega) (by omega)
      · exact hhead _ _ _ _ (by omega) (by omega)
    · exact hhead _ _ _ _ (by omega) (by omega)
  · by_cases hfirst : v / 262144 = w / 262144
    · refine separated_bytes (by omega) (Or.inr ⟨by rw [hfirst], ?_⟩)
      by_cases hsecond : v / 4096 = w / 4096
      · refine separated_bytes (by omega) (Or.inr ⟨by rw [hsecond], ?_⟩)
        by_cases hthird : v / 64 = w / 64
        · refine separated_bytes (by omega) (Or.inr ⟨by rw [hthird], ?_⟩)
          exact hhead _ _ _ _ (by omega) (by omega)
        · exact hhead _ _ _ _ (by omega) (by omega)
      · exact hhead _ _ _ _ (by omega) (by omega)
    · exact hhead _ _ _ _ (by omega) (by omega)

theorem utf8_orderEncoding : OrderEncoding compareChars compare utf8EncodeChar where
  nonempty _ := utf8EncodeChar_ne_nil
  separated h := separated_utf8 (Nat.compare_eq_lt.mp h)

/-- The bytes of two texts compare as their code points do. -/
theorem compare_utf8 (left right : List Char) :
    compare (left.flatMap utf8EncodeChar) (right.flatMap utf8EncodeChar) =
      compare (left.map Char.toNat) (right.map Char.toNat) := by
  have hbytes := utf8_orderEncoding.compareLex_flatMap left right
  have hwords := word_orderEncoding.compareLex_flatMap left right
  rw [← List.map_eq_flatMap, ← List.map_eq_flatMap] at hwords
  exact hbytes.trans hwords.symm

end Oxpinyin.LexEncoding
