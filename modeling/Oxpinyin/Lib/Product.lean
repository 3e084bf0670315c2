import Mathlib.Algebra.BigOperators.Group.List.Basic
import Mathlib.Data.List.Forall2
import Mathlib.Data.List.Lex
import Mathlib.Data.List.Range

/-!
# Products of lists of choices

`product lists` has one tuple for each way to choose, the first place varying slowest. Its order is
that of the chosen indices: the tuples are read at `indices lists`, which lists the index tuples in
lexicographic order, every one below the sizes once (`pairwise_indices`, `mem_indices`,
`product_eq_map_pick`). `foldl_extend` : extending every tuple at its end, place after place, builds
the same list.
-/

namespace Oxpinyin.Product

open List

variable {α : Type*}

/-- Every way to choose one of each list, the first choice varying slowest. -/
def product : List (List α) → List (List α)
  | [] => [[]]
  | choices :: lists => choices.flatMap fun choice => (product lists).map (choice :: ·)

/-- Every tuple of `tuples` with every choice at its end. -/
def extend (tuples : List (List α)) (choices : List α) : List (List α) :=
  tuples.flatMap fun front => choices.map fun choice => front ++ [choice]

/-- The number of combinations. -/
def size (lists : List (List α)) : Nat := (lists.map List.length).prod

@[simp] theorem size_nil : size ([] : List (List α)) = 1 := rfl

@[simp] theorem size_cons (choices : List α) (lists : List (List α)) :
    size (choices :: lists) = choices.length * size lists := by
  simp [size]

theorem size_append (front back : List (List α)) : size (front ++ back) = size front * size back := by
  simp [size]

variable {lists : List (List α)}

theorem size_pos (h : [] ∉ lists) : 0 < size lists := by
  induction lists with
  | nil => exact Nat.one_pos
  | cons choices lists ih =>
    rw [mem_cons, not_or] at h
    rw [size_cons]
    exact Nat.mul_pos (length_pos_iff.mpr (Ne.symm h.1)) (ih h.2)

theorem length_product (lists : List (List α)) : (product lists).length = size lists := by
  induction lists with
  | nil => rfl
  | cons choices lists ih =>
    rw [product, length_flatMap, size_cons]
    simp [ih]

theorem product_eq_nil (h : [] ∈ lists) : product lists = [] := by
  obtain ⟨front, back, rfl⟩ := append_of_mem h
  refine length_eq_zero_iff.mp ?_
  rw [length_product, size_append, size_cons]
  simp

theorem mem_product {tuple : List α} : tuple ∈ product lists ↔ List.Forall₂ (· ∈ ·) tuple lists := by
  induction lists generalizing tuple with
  | nil => simp [product]
  | cons choices lists ih =>
    rw [product, mem_flatMap]
    simp only [mem_map]
    constructor
    · rintro ⟨choice, hchoice, rest, hrest, rfl⟩
      exact .cons hchoice (ih.mp hrest)
    · intro h
      cases h with
      | cons hchoice hrest => exact ⟨_, hchoice, _, ih.mpr hrest, rfl⟩

/-! ## Built from the front -/

/-- Extending place after place pairs every tuple so far with every combination to come. -/
theorem foldl_extend_from (lists : List (List α)) (tuples : List (List α)) :
    lists.foldl extend tuples = tuples.flatMap fun front => (product lists).map (front ++ ·) := by
  induction lists generalizing tuples with
  | nil => simp [product]
  | cons choices lists ih =>
    rw [foldl_cons, ih, extend, flatMap_assoc]
    congr 1
    funext front
    rw [product, flatMap_map, map_flatMap]
    congr 1
    funext choice
    rw [map_map]
    refine map_congr_left fun rest _ => ?_
    exact append_assoc front [choice] rest

theorem foldl_extend (lists : List (List α)) : lists.foldl extend [[]] = product lists := by
  rw [foldl_extend_from]
  simp

/-! ## The order of the indices -/

/-- The index tuples of the combinations. -/
def indices (lists : List (List α)) : List (List Nat) :=
  product (lists.map fun choices => List.range choices.length)

/-- The tuple chosen at the indices. -/
def pick : List (List α) → List Nat → List α
  | choices :: lists, i :: is => choices[i]?.toList ++ pick lists is
  | _, _ => []

theorem mem_indices {is : List Nat} :
    is ∈ indices lists ↔ List.Forall₂ (fun i choices => i < choices.length) is lists := by
  rw [indices, mem_product, forall₂_map_right_iff]
  simp

/-- Lexicographic order passes through a product whose lists ascend. -/
theorem pairwise_product {lists : List (List Nat)} (h : ∀ choices ∈ lists, choices.Pairwise (· < ·)) :
    (product lists).Pairwise (· < ·) := by
  induction lists with
  | nil => exact pairwise_singleton _ _
  | cons choices lists ih =>
    have hrest := ih fun choices hchoices => h choices (mem_cons_of_mem _ hchoices)
    rw [product, pairwise_flatMap]
    constructor
    · intro choice _
      rw [pairwise_map]
      exact hrest.imp fun hlt => List.Lex.cons hlt
    · refine (h choices mem_cons_self).imp fun {a b} hab x hx y hy => ?_
      obtain ⟨x, -, rfl⟩ := mem_map.mp hx
      obtain ⟨y, -, rfl⟩ := mem_map.mp hy
      exact List.Lex.rel hab

theorem pairwise_indices (lists : List (List α)) : (indices lists).Pairwise (· < ·) := by
  refine pairwise_product fun choices hchoices => ?_
  obtain ⟨choices, -, rfl⟩ := mem_map.mp hchoices
  exact pairwise_lt_range

/-- The combinations are the tuples at the index tuples, in the same order. -/
theorem product_eq_map_pick (lists : List (List α)) : product lists = (indices lists).map (pick lists) := by
  induction lists with
  | nil => rfl
  | cons choices lists ih =>
    have hread : choices.flatMap (fun choice => (product lists).map (choice :: ·)) =
        (List.range choices.length).flatMap fun i =>
          (product lists).map (choices[i]?.toList ++ ·) := by
      clear ih
      induction choices using List.reverseRecOn with
      | nil => rfl
      | append_singleton choices choice ih =>
        rw [flatMap_append, ih, length_append, length_singleton, range_succ, flatMap_append]
        congr 1
        · refine flatMap_congr fun i hi => ?_
          rw [getElem?_append_left (mem_range.mp hi)]
        · simp
    rw [product, hread, indices, map_cons, product, map_flatMap]
    refine flatMap_congr fun i _ => ?_
    rw [ih, map_map, map_map]
    rfl

end Oxpinyin.Product
