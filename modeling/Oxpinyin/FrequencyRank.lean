import Mathlib.Data.BitVec
import Oxpinyin.Lib.StableSort

/-!
# Ranking by frequency

Candidates are ranked by phrase length, then span, then frequency. Frequencies compare by the sign of
their wrapping difference (`frequencyCompare`), which is no order: values half a circle apart precede
each other, and three values can go round. `frequencyOrderIsConsistent` finds the value the scan ranks
first and checks that every other lies less than half a circle behind it.

Seen from such a value the comparison is that of the distances behind it (`frequencyCompare_lag`),
hence a total order; in a total order the scan finds such a value. `rankByFrequency` sorts each group
of equal length and span by an order that is total on the group, so what the stable sorts promise holds
of every list (`rankByFrequency_sorted`).
-/

namespace Oxpinyin

open List StableSort BitVec

/-! ## The wrapping comparison -/

variable {maximum : BitVec 32}

/-- The sign of the wrapping difference. The larger frequency comes first. -/
def frequencyCompare (left right : BitVec 32) : Ordering :=
  compare (right - left).toInt 0

/-- Whether all frequencies lie less than half a circle behind the one the scan ranks first. -/
def frequencyOrderIsConsistent : List (BitVec 32) → Bool
  | [] => true
  | first :: frequencies =>
    let maximum := frequencies.foldl (fun maximum frequency =>
      if (frequencyCompare frequency maximum).isLT then frequency else maximum) first
    (first :: frequencies).all fun frequency => (maximum - frequency).toNat < 2 ^ 31

theorem frequencyCompare_eq (left right : BitVec 32) :
    frequencyCompare left right =
      if left = right then .eq else if (right - left).toNat < 2 ^ 31 then .gt else .lt := by
  have hzero : left = right ↔ (right - left).toNat = 0 := by
    rw [toNat_sub, ← toNat_inj]
    have := left.isLt
    have := right.isLt
    omega
  have hlt := (right - left).isLt
  rw [frequencyCompare, toInt_eq_toNat_cond]
  simp only [hzero]
  generalize (right - left).toNat = gap at hlt
  split_ifs with h1 h2 h3 h4
  · simp [h2]
  · exact compare_gt_iff_gt.mpr (by omega)
  · omega
  · omega
  · omega
  · exact compare_lt_iff_lt.mpr (by omega)

/-- How far a frequency lies behind another on the circle. -/
def lag (maximum frequency : BitVec 32) : Nat := (maximum - frequency).toNat

/-- Seen from a value less than half a circle ahead of both, frequencies compare by distance. -/
theorem frequencyCompare_lag {left right : BitVec 32} (hl : lag maximum left < 2 ^ 31)
    (hr : lag maximum right < 2 ^ 31) :
    frequencyCompare left right = compare (lag maximum left) (lag maximum right) := by
  have hsame : left = right ↔ left.toNat = right.toNat := toNat_inj.symm
  rw [frequencyCompare_eq, toNat_sub]
  unfold lag at hl hr ⊢
  rw [toNat_sub] at hl hr ⊢
  rw [toNat_sub]
  simp only [hsame]
  split_ifs with h1 h2
  · exact (compare_eq_iff_eq.mpr (by omega)).symm
  · exact (compare_gt_iff_gt.mpr (by omega)).symm
  · exact (compare_lt_iff_lt.mpr (by omega)).symm

/-- A value that precedes another and is not preceded by it is less than half a circle ahead. -/
theorem lag_lt {frequency : BitVec 32} (hle : (frequencyCompare maximum frequency).isLE = true)
    (hswap : frequencyCompare maximum frequency = (frequencyCompare frequency maximum).swap) :
    lag maximum frequency < 2 ^ 31 := by
  rw [frequencyCompare_eq, frequencyCompare_eq frequency] at hswap
  rw [frequencyCompare_eq] at hle
  unfold lag
  by_cases heq : maximum = frequency
  · simp [heq]
  · rw [if_neg heq, if_neg (Ne.symm heq)] at hswap
    rw [if_neg heq] at hle
    by_contra hfar
    rw [if_neg hfar] at hswap
    split at hle
    · cases hle
    · rename_i hnear
      rw [if_neg hnear] at hswap
      cases hswap

theorem orderLaws_of_lag {frequencies : List (BitVec 32)}
    (h : ∀ frequency ∈ frequencies, lag maximum frequency < 2 ^ 31) :
    OrderLaws frequencyCompare frequencies where
  swap x hx y hy := by
    rw [frequencyCompare_lag (h x hx) (h y hy), frequencyCompare_lag (h y hy) (h x hx)]
    exact Std.OrientedCmp.eq_swap
  trans x hx y hy z hz hxy hyz := by
    rw [frequencyCompare_lag (h x hx) (h y hy)] at hxy
    rw [frequencyCompare_lag (h y hy) (h z hz)] at hyz
    rw [frequencyCompare_lag (h x hx) (h z hz)]
    exact Std.TransCmp.isLE_trans hxy hyz

theorem frequencyOrderIsConsistent_iff_laws (frequencies : List (BitVec 32)) :
    frequencyOrderIsConsistent frequencies = true ↔ OrderLaws frequencyCompare frequencies := by
  cases frequencies with
  | nil => exact ⟨fun _ => ⟨by simp, by simp⟩, fun _ => rfl⟩
  | cons first rest =>
    have hcheck : frequencyOrderIsConsistent (first :: rest) = true ↔
        ∀ frequency ∈ first :: rest, lag (least frequencyCompare first rest) frequency < 2 ^ 31 := by
      rw [frequencyOrderIsConsistent, all_eq_true]
      simp only [decide_eq_true_eq]
      rfl
    rw [hcheck]
    refine ⟨orderLaws_of_lag, fun laws frequency hfrequency => ?_⟩
    obtain ⟨hin, hle⟩ := laws.least_spec mem_cons_self (subset_cons_self first rest)
    exact lag_lt (hle frequency hfrequency) (laws.swap _ hin frequency hfrequency)

/-- The check passes exactly when the comparison is antisymmetric and transitive on the list, and that
is when it satisfies every law of a total order there. -/
theorem frequencyOrderIsConsistent_iff (frequencies : List (BitVec 32)) :
    (frequencyOrderIsConsistent frequencies = true ↔
      (∀ x ∈ frequencies, ∀ y ∈ frequencies, (frequencyCompare x y).isLE = true →
        (frequencyCompare y x).isLE = true → x = y) ∧
      ∀ x ∈ frequencies, ∀ y ∈ frequencies, ∀ z ∈ frequencies, (frequencyCompare x y).isLE = true →
        (frequencyCompare y z).isLE = true → (frequencyCompare x z).isLE = true) ∧
    (frequencyOrderIsConsistent frequencies = true ↔ OrderLaws frequencyCompare frequencies) := by
  refine ⟨?_, frequencyOrderIsConsistent_iff_laws frequencies⟩
  rw [frequencyOrderIsConsistent_iff_laws]
  constructor
  · refine fun laws => ⟨fun x hx y hy hxy hyx => ?_, laws.trans⟩
    rw [laws.swap y hy x hx] at hyx
    by_contra hne
    rw [frequencyCompare_eq, if_neg hne] at hxy hyx
    split at hxy
    · cases hxy
    · rename_i hfar
      rw [if_neg hfar] at hyx
      cases hyx
  · refine fun h => ⟨fun x hx y hy => ?_, h.2⟩
    by_cases heq : x = y
    · rw [frequencyCompare_eq, frequencyCompare_eq y, if_pos heq, if_pos heq.symm]
      rfl
    · have hanti := fun hxy hyx => heq (h.1 x hx y hy hxy hyx)
      rw [frequencyCompare_eq, frequencyCompare_eq y, if_neg heq, if_neg (Ne.symm heq)] at hanti ⊢
      have hround : (y - x).toNat + (x - y).toNat = 2 ^ 32 := by
        rw [← BitVec.toNat_inj] at heq
        rw [BitVec.toNat_sub, BitVec.toNat_sub]
        have := x.isLt
        have := y.isLt
        omega
      by_cases hnear : (y - x).toNat < 2 ^ 31
      · rw [if_pos hnear, if_neg (by omega)]
        rfl
      · by_cases hback : (x - y).toNat < 2 ^ 31
        · rw [if_neg hnear, if_pos hback]
          rfl
        · rw [if_neg hnear, if_neg hback] at hanti
          exact (hanti rfl rfl).elim

/-! ## The ranking -/

section

variable {α : Type*} (key : α → Nat × Nat × BitVec 32)

/-- The length and the span of a row, which are compared first. -/
def rankFields (row : α) : Nat × Nat := ((key row).1, (key row).2.1)

/-- Longer phrases first, then longer spans. -/
def compareFields (left right : Nat × Nat) : Ordering :=
  (compare right.1 left.1).then (compare right.2 left.2)

/-- The comparison inside one group: the wrapping one where it is an order, else the numeric one. -/
def compareInGroup (consistent : Bool) (left right : BitVec 32) : Ordering :=
  if consistent then frequencyCompare left right else compare right.toNat left.toNat

/-- One group, ranked by frequency. -/
def rankGroup (group : List α) : List α :=
  let consistent := frequencyOrderIsConsistent (group.map fun row => (key row).2.2)
  sortBy (fun left right => compareInGroup consistent (key left).2.2 (key right).2.2) group

/-- Rows by length and span. -/
def byFields (items : List α) : List α :=
  sortBy (fun left right => compareFields (rankFields key left) (rankFields key right)) items

/-- The groups of equal length and span, each ranked by frequency. -/
def rankByFrequency (items : List α) : List α :=
  ((byFields key items).splitBy fun left right => rankFields key left == rankFields key right).flatMap
    (rankGroup key)

/-- Fields that come first are the larger. -/
def Precedes (left right : Nat × Nat) : Prop :=
  right.1 < left.1 ∨ right.1 = left.1 ∧ right.2 ≤ left.2

variable {left right : Nat × Nat}

theorem isLE_compareFields : (compareFields left right).isLE = true ↔
    Precedes left right := by
  unfold compareFields Precedes
  rcases Nat.lt_trichotomy right.1 left.1 with h | h | h
  · rw [compare_lt_iff_lt.mpr h]
    simp [h]
  · rw [compare_eq_iff_eq.mpr h, h]
    simp [Nat.isLE_compare]
  · rw [compare_gt_iff_gt.mpr h]
    simp
    omega

theorem orderLaws_compareFields (items : List α) :
    OrderLaws (fun left right => compareFields (rankFields key left) (rankFields key right)) items where
  swap x _ y _ := by
    unfold compareFields
    rw [Ordering.swap_then, Nat.compare_swap, Nat.compare_swap]
  trans x _ y _ z _ hxy hyz := by
    rw [isLE_compareFields] at hxy hyz ⊢
    unfold Precedes at hxy hyz ⊢
    omega

theorem precedes_antisymm (h : Precedes left right) (h' : Precedes right left) :
    left = right := by
  unfold Precedes at h h'
  exact Prod.ext (by omega) (by omega)

theorem orderLaws_numeric (frequencies : List (BitVec 32)) :
    OrderLaws (fun left right => compare right.toNat left.toNat) frequencies where
  swap x _ y _ := (Nat.compare_swap _ _).symm
  trans x _ y _ z _ hxy hyz := by
    rw [Nat.isLE_compare] at hxy hyz ⊢
    omega

/-- The comparison of a group is a total order on the group. -/
theorem orderLaws_compareInGroup (group : List α) :
    OrderLaws (fun left right => compareInGroup
      (frequencyOrderIsConsistent (group.map fun row => (key row).2.2)) (key left).2.2 (key right).2.2)
      group := by
  by_cases hconsistent : frequencyOrderIsConsistent (group.map fun row => (key row).2.2) = true
  · simp only [compareInGroup, hconsistent, if_true]
    exact ((frequencyOrderIsConsistent_iff_laws _).mp hconsistent).on
  · simp only [compareInGroup, hconsistent, Bool.false_eq_true, if_false]
    exact (orderLaws_numeric _).on

theorem compareInGroup_self (consistent : Bool) (frequency : BitVec 32) :
    compareInGroup consistent frequency frequency = .eq := by
  unfold compareInGroup
  split
  · rw [frequencyCompare_eq, if_pos rfl]
  · exact compare_eq_iff_eq.mpr rfl

theorem rankGroup_perm (group : List α) : (rankGroup key group).Perm group :=
  sortBy_perm _ _

/-- Rows of one frequency keep their order in a ranked group. -/
theorem filter_rankGroup (group : List α) {p : α → Bool}
    (hp : ∀ x ∈ group, ∀ y ∈ group, p x = true → p y = true → (key x).2.2 = (key y).2.2) :
    (rankGroup key group).filter p = group.filter p :=
  filter_sortBy (orderLaws_compareInGroup key group) fun x hx y hy hpx hpy => by
    rw [hp x hx y hy hpx hpy, compareInGroup_self]
    rfl

variable (items : List α)

theorem pairwise_byFields :
    (byFields key items).Pairwise fun left right => Precedes (rankFields key left) (rankFields key right) :=
  (pairwise_sortBy (orderLaws_compareFields key items)).imp fun h => isLE_compareFields.mp h

theorem grouped_byFields : Grouped (rankFields key)
    ((byFields key items).splitBy fun left right => rankFields key left == rankFields key right) :=
  grouped_splitBy (fun _ _ => precedes_antisymm) (pairwise_byFields key items)

theorem rankByFrequency_perm : (rankByFrequency key items).Perm items := by
  refine List.Perm.trans ?_ (sortBy_perm
    (fun left right => compareFields (rankFields key left) (rankFields key right)) items)
  change (rankByFrequency key items).Perm (byFields key items)
  conv_rhs => rw [← flatten_splitBy (fun left right => rankFields key left == rankFields key right)
    (byFields key items)]
  rw [rankByFrequency, flatMap_def]
  exact List.Perm.flatten_congr (forall₂_map_left_iff.mpr
    (forall₂_same.mpr fun group _ => rankGroup_perm key group))

/-- The rows of one length and span are their group of the input, ranked. -/
theorem filter_rankByFrequency (fields : Nat × Nat) :
    (rankByFrequency key items).filter (fun row => rankFields key row = fields) =
      rankGroup key (items.filter fun row => rankFields key row = fields) := by
  rw [rankByFrequency, (grouped_byFields key items).filter_flatMap (rankGroup_perm key),
    flatten_splitBy, byFields, filter_sortBy (orderLaws_compareFields key items)]
  intro x _ y _ hx hy
  simp only [decide_eq_true_eq] at hx hy
  rw [isLE_compareFields, hx, hy]
  exact Or.inr ⟨rfl, le_rfl⟩

theorem pairwise_rankByFrequency :
    (rankByFrequency key items).Pairwise fun left right =>
      Precedes (rankFields key left) (rankFields key right) := by
  have hsorted := pairwise_byFields key items
  rw [← flatten_splitBy (fun left right => rankFields key left == rankFields key right) (byFields key items),
    pairwise_flatten] at hsorted
  rw [rankByFrequency, flatMap_def, pairwise_flatten]
  constructor
  · intro group hgroup
    obtain ⟨run, hrun, rfl⟩ := mem_map.mp hgroup
    refine pairwise_of_forall_mem_list fun x hx y hy => ?_
    rw [(grouped_byFields key items).same run hrun x ((rankGroup_perm key run).mem_iff.mp hx) y
      ((rankGroup_perm key run).mem_iff.mp hy)]
    exact Or.inr ⟨rfl, le_rfl⟩
  · rw [pairwise_map]
    refine hsorted.2.imp fun {run later} h x hx y hy => ?_
    exact h x ((rankGroup_perm key run).mem_iff.mp hx) y ((rankGroup_perm key later).mem_iff.mp hy)

/-- The ranking is a permutation by length and span, larger first. In a group of equal length and span
the wrapping comparison decides where it is an order on the group, the numeric one otherwise; rows
equal in all three keep their order. -/
theorem rankByFrequency_sorted :
    (rankByFrequency key items).Perm items ∧
    ((rankByFrequency key items).Pairwise fun left right =>
      Precedes (rankFields key left) (rankFields key right)) ∧
    (∀ fields,
      let group := items.filter fun row => rankFields key row = fields
      let ranked := (rankByFrequency key items).filter fun row => rankFields key row = fields
      ranked.Perm group ∧
      (OrderLaws frequencyCompare (group.map fun row => (key row).2.2) →
        ranked.Pairwise fun left right => (frequencyCompare (key left).2.2 (key right).2.2).isLE = true) ∧
      (¬OrderLaws frequencyCompare (group.map fun row => (key row).2.2) →
        ranked.Pairwise fun left right => (key right).2.2.toNat ≤ (key left).2.2.toNat)) ∧
    ∀ full, (rankByFrequency key items).filter (fun row => key row = full) =
      items.filter fun row => key row = full := by
  refine ⟨rankByFrequency_perm key items, pairwise_rankByFrequency key items, fun fields => ?_,
    fun full => ?_⟩
  · intro group ranked
    have hranked : ranked = rankGroup key group := filter_rankByFrequency key items fields
    have hpairs := pairwise_sortBy (orderLaws_compareInGroup key group)
    rw [← frequencyOrderIsConsistent_iff_laws, hranked]
    refine ⟨rankGroup_perm key group, fun hconsistent => ?_, fun hconsistent => ?_⟩
    · refine hpairs.imp fun h => ?_
      simpa only [compareInGroup, hconsistent, if_true] using h
    · refine hpairs.imp fun h => ?_
      simp only [compareInGroup, hconsistent, Bool.false_eq_true, if_false] at h
      exact Nat.isLE_compare.mp h
  · -- rows equal in all three are rows of one group
    have hgroup : ∀ rows : List α, rows.filter (fun row => key row = full) =
        (rows.filter fun row => rankFields key row = (full.1, full.2.1)).filter fun row => key row = full := by
      intro rows
      rw [List.filter_filter]
      refine List.filter_congr fun row _ => ?_
      by_cases h : key row = full
      · simp [h, rankFields]
      · simp [h]
    rw [hgroup, filter_rankByFrequency, filter_rankGroup, ← hgroup]
    intro x _ y _ hx hy
    simp only [decide_eq_true_eq] at hx hy
    rw [hx, hy]

end

end Oxpinyin
