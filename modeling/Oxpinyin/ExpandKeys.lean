import Oxpinyin.Lib.Product
import Oxpinyin.CandidateScan

/-!
# Expansion of initial-only keys

`expandKeys` works key by key on a machine word. `expandWithin` is the same routine over any lists of
choices, with its checked product written out, and `expandKeys_eq` : it is the routine over the
completions of the keys. While a list is non-empty the product so far is at most the limit, so nothing
overflows, and the routine answers with the whole product of its lists or with nothing.
-/

namespace Oxpinyin

open Product

variable {α : Type*}

/-- A product within the word. -/
def checkedMul (wordMax left right : Nat) : Option Nat :=
  if left * right ≤ wordMax then some (left * right) else none

/-- The lists of choices, unless one is empty or the product passes the limit on the way. -/
def chosenWithin (wordMax limit : Nat) : Nat → List (List α) → Option (List (List α))
  | _, [] => some []
  | product, choices :: lists =>
    if choices = [] then none
    else
      match checkedMul wordMax product choices.length with
      | some product =>
        if product ≤ limit then (chosenWithin wordMax limit product lists).map (choices :: ·) else none
      | none => none

/-- Every combination of the lists, none if they are more than the limit. -/
def expandWithin (wordMax : Nat) (lists : List (List α)) (limit : Nat) : List (List α) :=
  if limit < 1 then []
  else
    match chosenWithin wordMax limit 1 lists with
    | some alternatives => alternatives.foldl extend [[]]
    | none => []

section

variable {wordMax limit : Nat}

/-- The lists are kept exactly when none is empty and all combinations are within the limit. -/
theorem chosenWithin_eq_some (hlimit : limit ≤ wordMax) {product : Nat} (hpos : 0 < product)
    (hproduct : product ≤ limit) {lists kept : List (List α)} :
    chosenWithin wordMax limit product lists = some kept ↔
      kept = lists ∧ [] ∉ lists ∧ product * size lists ≤ limit := by
  induction lists generalizing product kept with
  | nil => simp [chosenWithin, hproduct, eq_comm]
  | cons choices lists ih =>
    rw [chosenWithin]
    by_cases hempty : choices = []
    · simp [hempty]
    rw [if_neg hempty, checkedMul, size_cons, ← Nat.mul_assoc]
    have hlen := List.length_pos_iff.mpr hempty
    by_cases hwithin : product * choices.length ≤ limit
    · rw [if_pos (hwithin.trans hlimit)]
      dsimp only
      rw [if_pos hwithin, Option.map_eq_some_iff]
      have hrest := @ih _ (Nat.mul_pos hpos hlen) hwithin
      constructor
      · rintro ⟨rest, hkept, rfl⟩
        obtain ⟨rfl, hnone, hsize⟩ := hrest.mp hkept
        exact ⟨rfl, fun hmem => (List.mem_cons.mp hmem).elim (fun h => hempty h.symm) hnone, hsize⟩
      · rintro ⟨rfl, hnone, hsize⟩
        exact ⟨lists, hrest.mpr ⟨rfl, fun hmem => hnone (List.mem_cons_of_mem _ hmem), hsize⟩, rfl⟩
    · -- more lists do not bring the product back
      have hnot : ¬([] ∉ choices :: lists ∧ product * choices.length * size lists ≤ limit) := by
        rintro ⟨hmem, hsize⟩
        have hrest := size_pos fun hin => hmem (List.mem_cons_of_mem _ hin)
        exact hwithin ((Nat.le_mul_of_pos_right _ hrest).trans hsize)
      constructor
      · intro h
        split at h
        · rename_i next hnext
          split_ifs at hnext
          obtain rfl := Option.some.inj hnext
          rw [if_neg hwithin] at h
          cases h
        · cases h
      · exact fun h => absurd h.2 hnot

/-- A kept list stands for at least one combination, so what precedes it is within the limit too. -/
theorem size_front_le {front back : List (List α)} {choices : List α}
    (h : [] ∉ front ++ choices :: back) (hsize : size (front ++ choices :: back) ≤ limit) :
    size front * choices.length ≤ limit := by
  rw [size_append, size_cons, ← Nat.mul_assoc] at hsize
  refine le_trans (Nat.le_mul_of_pos_right _ (size_pos fun hin => h ?_)) hsize
  exact List.mem_append_right _ (List.mem_cons_of_mem _ hin)

/-- The expansion is the product, within the limit. -/
theorem expandWithin_eq (hlimit : limit ≤ wordMax) (lists : List (List α)) :
    expandWithin wordMax lists limit = if size lists ≤ limit then product lists else [] := by
  rw [expandWithin]
  by_cases hzero : limit < 1
  · rw [if_pos hzero]
    split
    · rename_i hsize
      exact (List.length_eq_zero_iff.mp (by rw [length_product]; omega)).symm
    · rfl
  rw [if_neg hzero]
  have hkeep := @chosenWithin_eq_some α wordMax limit hlimit 1 Nat.one_pos (by omega) lists
  simp only [Nat.one_mul] at hkeep
  split
  · rename_i alternatives h
    obtain ⟨rfl, -, hsize⟩ := hkeep.mp h
    rw [if_pos hsize]
    exact foldl_extend alternatives
  · rename_i h
    split
    · rename_i hsize
      refine (product_eq_nil ?_).symm
      by_contra hnone
      rw [hkeep.mpr ⟨rfl, hnone, hsize⟩] at h
      cases h
    · rfl

end

/-! ## The keys -/

theorem expandChoices_eq {limit product : Nat} (hpos : 0 < product) (hproduct : product ≤ limit)
    (keys : List SyllableKey) :
    expandChoices limit product keys = chosenWithin limit limit product (keys.map completions) := by
  induction keys generalizing product with
  | nil => rfl
  | cons key keys ih =>
    rw [expandChoices, List.map_cons, chosenWithin, checkedMul]
    by_cases hempty : completions key = []
    · simp [hempty]
    · by_cases hwithin : product * (completions key).length ≤ limit
      · have hnext := Nat.mul_pos hpos (List.length_pos_iff.mpr hempty)
        simp [hempty, hwithin, Nat.not_lt.mpr hwithin, ih hnext hwithin]
      · simp [hempty, hwithin, Nat.lt_of_not_le hwithin]

/-- The routine on keys is the one on lists, at the completions of the keys. -/
theorem expandKeys_eq {wordMax limit : Nat} (hlimit : limit ≤ wordMax) (keys : List SyllableKey) :
    expandKeys keys limit = expandWithin wordMax (keys.map completions) limit := by
  have hsame : expandKeys keys limit = expandWithin limit (keys.map completions) limit := by
    rw [expandKeys, expandWithin]
    by_cases hzero : limit < 1
    · rw [if_pos hzero, if_pos hzero]
    · rw [if_neg hzero, if_neg hzero, expandChoices_eq Nat.one_pos (by omega)]
      cases chosenWithin limit limit 1 (keys.map completions) <;> rfl
  rw [hsame, expandWithin_eq le_rfl, expandWithin_eq hlimit]

/-- The expansion is the whole product of the choices exactly when that is within the limit, and
nothing otherwise. The product lists each index tuple once, in lexicographic order. No product on the
way leaves the word: neither the checked one, nor the capacity of a round. -/
theorem expandWithin_product (wordMax limit : Nat) (hlimit : limit ≤ wordMax) (lists : List (List α)) :
    (expandWithin wordMax lists limit = product lists ↔ size lists ≤ limit) ∧
    (limit < size lists → expandWithin wordMax lists limit = []) ∧
    product lists = (indices lists).map (pick lists) ∧
    (indices lists).Pairwise (· < ·) ∧
    (∀ is, is ∈ indices lists ↔ List.Forall₂ (fun i choices => i < choices.length) is lists) ∧
    (∀ front choices back, chosenWithin wordMax limit 1 lists = some (front ++ choices :: back) →
      1 ≤ limit → (front.foldl extend [[]]).length * choices.length ≤ wordMax) ∧
    ∀ keys, expandKeys keys limit = expandWithin wordMax (keys.map completions) limit := by
  refine ⟨⟨fun h => ?_, fun h => ?_⟩, fun h => ?_, product_eq_map_pick lists, pairwise_indices lists,
    fun is => mem_indices, fun front choices back hkept hone => ?_, expandKeys_eq hlimit⟩
  · by_contra hover
    rw [expandWithin_eq hlimit, if_neg hover] at h
    have hlen := length_product lists
    rw [← h, List.length_nil] at hlen
    omega
  · rw [expandWithin_eq hlimit, if_pos h]
  · rw [expandWithin_eq hlimit, if_neg (by omega)]
  · obtain ⟨rfl, hnone, hsize⟩ := (chosenWithin_eq_some hlimit Nat.one_pos hone).mp hkept
    rw [Nat.one_mul] at hsize
    rw [foldl_extend, length_product]
    exact (size_front_le hnone hsize).trans hlimit

theorem expandWithin_product_pairs :
    65 ≤ 255 ∧ (expandWithin 255 [[1, 2], [3, 4, 5]] 65 = product [[1, 2], [3, 4, 5]] ↔
      size [[1, 2], [3, 4, 5]] ≤ 65) :=
  ⟨by decide, (expandWithin_product 255 65 (by decide) [[1, 2], [3, 4, 5]]).1⟩

end Oxpinyin
