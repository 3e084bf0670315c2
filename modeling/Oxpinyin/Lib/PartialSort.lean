import Mathlib.Data.List.Basic

/-!
# The front of a sort

Lists under a total preorder, whose elements may tie. A list reordered about an index, cut behind it
and then sorted is the front of a sort of the whole (`Selects.isFront`). Where nothing ties there is
one front only (`IsFront.eq_take`). `FirstLeast` is the first of the least elements, kept up as the
list grows (`FirstLeast.snoc`).
-/

namespace Oxpinyin.PartialSort

open List Std

variable {α : Type*} {cmp : α → α → Ordering} {values sorted selected front : List α} {index count : Nat}

/-- A sort of a list, with ties in any order. -/
structure Sorts (cmp : α → α → Ordering) (values sorted : List α) : Prop where
  perm : sorted.Perm values
  ordered : sorted.Pairwise fun a b => (cmp a b).isLE = true

/-- A reordering with nothing above the element at an index before it, and nothing below it behind. -/
structure Selects (cmp : α → α → Ordering) (values : List α) (index : Nat) (selected : List α) : Prop where
  perm : selected.Perm values
  around : ∀ pivot, selected[index]? = some pivot → (∀ a ∈ selected.take index, (cmp a pivot).isLE = true) ∧
    ∀ b ∈ selected.drop (index + 1), (cmp pivot b).isLE = true

/-- The first elements of a sort. -/
def IsFront (cmp : α → α → Ordering) (values : List α) (count : Nat) (front : List α) : Prop :=
  ∃ sorted, Sorts cmp values sorted ∧ front = sorted.take count

/-- The unstable sorts of a slice, known by what they promise of a total preorder. -/
structure UnstableSort (α : Type*) where
  selectNthUnstableBy : List α → Nat → (α → α → Ordering) → List α
  sortUnstableBy : List α → (α → α → Ordering) → List α
  selects : ∀ (cmp : α → α → Ordering) [TransCmp cmp] (values : List α) (index : Nat), index < values.length →
    Selects cmp values index (selectNthUnstableBy values index cmp)
  sorts : ∀ (cmp : α → α → Ordering) [TransCmp cmp] (values : List α),
    Sorts cmp values (sortUnstableBy values cmp)

theorem sorts_mergeSort (cmp : α → α → Ordering) [TransCmp cmp] (values : List α) :
    Sorts cmp values (values.mergeSort fun a b => (cmp a b).isLE) := by
  refine ⟨mergeSort_perm _ _, pairwise_mergeSort (fun a b c => TransCmp.isLE_trans) (fun a b => ?_) values⟩
  rw [@OrientedCmp.eq_swap _ cmp _ b a]
  cases cmp a b <;> rfl

theorem eq_take_cons_drop {pivot : α} (h : values[index]? = some pivot) :
    values = values.take index ++ pivot :: values.drop (index + 1) := by
  obtain ⟨hlt, rfl⟩ := List.getElem?_eq_some_iff.mp h
  rw [getElem_cons_drop, take_append_drop]

theorem Sorts.selects (h : Sorts cmp values sorted) : Selects cmp values index sorted where
  perm := h.perm
  around pivot hpivot := by
    have hordered := h.ordered
    rw [eq_take_cons_drop hpivot, pairwise_append, pairwise_cons] at hordered
    exact ⟨fun a ha => hordered.2.2 a ha pivot mem_cons_self, hordered.2.1.1⟩

/-- Merging sorts them so. -/
def UnstableSort.merging : UnstableSort α where
  selectNthUnstableBy values _ cmp := values.mergeSort fun a b => (cmp a b).isLE
  sortUnstableBy values cmp := values.mergeSort fun a b => (cmp a b).isLE
  selects cmp _ values _ _ := (sorts_mergeSort cmp values).selects
  sorts := sorts_mergeSort

theorem Sorts.isFront (h : Sorts cmp values sorted) : IsFront cmp values values.length sorted :=
  ⟨sorted, h, (take_of_length_le (Nat.le_of_eq h.perm.length_eq)).symm⟩

/-- What is selected and then sorted is the front : the rest, sorted behind it, makes a sort of all. -/
theorem Selects.isFront [TransCmp cmp] (h : Selects cmp values index selected) (hlt : index < values.length)
    (hfront : Sorts cmp (selected.take (index + 1)) front) : IsFront cmp values (index + 1) front := by
  rw [← h.perm.length_eq] at hlt
  obtain ⟨hbelow, habove⟩ := h.around selected[index] (getElem?_eq_getElem hlt)
  have hrest := sorts_mergeSort cmp (selected.drop (index + 1))
  refine ⟨front ++ (selected.drop (index + 1)).mergeSort fun a b => (cmp a b).isLE, ⟨?_, ?_⟩, ?_⟩
  · refine (hfront.perm.append hrest.perm).trans ?_
    rw [take_append_drop]
    exact h.perm
  · refine pairwise_append.mpr ⟨hfront.ordered, hrest.ordered, fun a ha b hb => ?_⟩
    have hpivot := habove b (hrest.perm.mem_iff.mp hb)
    have hmem := hfront.perm.mem_iff.mp ha
    rw [take_succ_eq_append_getElem hlt, mem_append, mem_singleton] at hmem
    rcases hmem with hmem | rfl
    · exact TransCmp.isLE_trans (hbelow a hmem) hpivot
    · exact hpivot
  · have hlength := hfront.perm.length_eq
    rw [length_take, Nat.min_eq_left hlt] at hlength
    rw [take_left' hlength]

/-- Where elements that tie are one, every sort has the same front. -/
theorem IsFront.eq_take [OrientedCmp cmp] (h : IsFront cmp values count front) (hsorted : Sorts cmp values sorted)
    (hties : ∀ a ∈ values, ∀ b ∈ values, cmp a b = .eq → a = b) : front = sorted.take count := by
  obtain ⟨other, hother, rfl⟩ := h
  congr 1
  refine Perm.eq_of_pairwise (fun a b ha hb hab hba => ?_) hother.ordered hsorted.ordered
    (hother.perm.trans hsorted.perm.symm)
  exact hties a (hother.perm.mem_iff.mp ha) b (hsorted.perm.mem_iff.mp hb) (OrientedCmp.isLE_antisymm hab hba)

/-- The first of the least elements. -/
def FirstLeast (cmp : α → α → Ordering) (values : List α) (least : α) : Prop :=
  ∃ front back, values = front ++ least :: back ∧ (∀ a ∈ front, cmp a least = .gt) ∧
    ∀ b ∈ back, (cmp least b).isLE = true

theorem FirstLeast.snoc [TransCmp cmp] {least : α} (h : FirstLeast cmp values least) (value : α) :
    FirstLeast cmp (values ++ [value]) (if cmp least value = .gt then value else least) := by
  obtain ⟨front, back, rfl, hfront, hback⟩ := h
  split_ifs with hgt
  · refine ⟨_, [], rfl, fun a ha => ?_, by simp⟩
    rcases mem_append.mp ha with ha | ha
    · exact TransCmp.gt_trans (hfront a ha) hgt
    · rcases mem_cons.mp ha with rfl | ha
      · exact hgt
      · exact TransCmp.gt_of_isGE_of_gt (OrientedCmp.isGE_of_isLE (hback a ha)) hgt
  · refine ⟨front, back ++ [value], by rw [append_assoc, cons_append], hfront, fun b hb => ?_⟩
    rcases mem_append.mp hb with hb | hb
    · exact hback b hb
    · rw [mem_singleton.mp hb]
      exact Ordering.isLE_iff_ne_gt.mpr hgt

end Oxpinyin.PartialSort
