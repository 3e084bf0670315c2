import Oxpinyin.ParserPaths

/-!
# What the parser's counters compute

Both counters are arrays of capped sums. `countCompletePaths_eq` : the backward table
holds, at each cursor, the number of cuts of the rest of the group, up to the cap.
The forward table of `countFallbackPaths` holds the number of cuts up to each cursor,
and its final sum is the number of fallback cuts plus `doublyCounted`
(`countFallbackPaths_eq`) : a terminal block that is a complete syllable under the
options and a partial under the default ones is added twice.

`maximalFallbackEnd_isFurthest` : the target is the greatest end any fallback cut has.
-/

open Finset Or
open List hiding sum_range_succ mem_range

namespace Oxpinyin

open Cuts

theorem boundedAdd_eq (a b : Nat) : boundedAdd a b = min overLimit (a + b) := by
  unfold boundedAdd overLimit maxParseResults
  simp only
  split_ifs <;> omega

variable {α : Type*}

theorem getD_set (l : List α) (i j : Nat) (x d : α) :
    (l.set i x).getD j d = if i = j ∧ j < l.length then x else l.getD j d := by
  simp only [getD_eq_getElem?_getD, getElem?_set]
  by_cases hij : i = j
  · subst hij
    by_cases hlt : i < l.length
    · simp [hlt]
    · simp [hlt]
  · simp [hij]

theorem getD_replicate (n j : Nat) (d : α) : (replicate n d).getD j d = d := by
  rw [getD_eq_getElem?_getD, getElem?_replicate]
  split_ifs <;> rfl

theorem sum_map_range (f : Nat → Nat) (n : Nat) :
    ((List.range n).map f).sum = ∑ m ∈ range n, f m := rfl

/-! ## The backward table -/

/-- A pass over the lengths at one cursor changes that cell only. -/
theorem foldl_set_cell {p : Nat → Bool} {cursor : Nat} :
    ∀ (ls counts : List Nat), cursor < counts.length → (∀ l ∈ ls, 0 < l) →
      ls.foldl (fun counts l => if p l then
          counts.set cursor (boundedAdd (counts.getD cursor 0) (counts.getD (cursor + l) 0))
        else counts) counts =
      counts.set cursor (ls.foldl (fun acc l => if p l then
        min overLimit (acc + counts.getD (cursor + l) 0) else acc) (counts.getD cursor 0))
  | [], counts, hlt, _ => by
    have hget : counts.getD cursor 0 = counts[cursor] := by
      rw [getD_eq_getElem?_getD, getElem?_eq_getElem hlt, Option.getD_some]
    rw [foldl_nil, foldl_nil, hget, set_getElem_self]
  | l :: ls, counts, hlt, hpos => by
    have hrest := fun l' hl' => hpos l' (mem_cons_of_mem l hl')
    rw [foldl_cons, foldl_cons]
    cases p l with
    | false =>
      simp only [Bool.false_eq_true, if_false]
      exact foldl_set_cell ls counts hlt hrest
    | true =>
      simp only [if_true]
      rw [foldl_set_cell ls _ (by simpa using hlt) hrest, set_set, getD_set, if_pos ⟨rfl, hlt⟩, boundedAdd_eq]
      congr 1
      refine foldl_ext _ _ _ fun acc l' hl' => ?_
      have hne : cursor ≠ cursor + l' := by
        have := hrest l' hl'
        omega
      have hcell : (counts.set cursor (min overLimit
          (counts.getD cursor 0 + counts.getD (cursor + l) 0))).getD (cursor + l') 0 =
          counts.getD (cursor + l') 0 := by
        rw [getD_set, if_neg (fun h => hne h.1)]
      rw [hcell]

section Complete

variable (group : Bytes) (absoluteStart : Nat) (options : OptionBits)

/-- The number of complete cuts of the group from cursor `c`. -/
def cutsFrom (c : Nat) : Nat :=
  (cuts (completeBlock group absoluteStart options) maxSyllableLen group.length c).length

/-- The backward table once the cursors from `k` on are done. -/
structure SuffixTable (k : Nat) (counts : List Nat) : Prop where
  /-- One cell for each cursor, the end included. -/
  length_eq : counts.length = group.length + 1
  /-- A cell that is done counts the cuts from its cursor. -/
  done : ∀ j, k ≤ j → j ≤ group.length →
    counts.getD j 0 = min overLimit (cutsFrom group absoluteStart options j)
  /-- The other cells are zero. -/
  todo : ∀ j, j < k → counts.getD j 0 = 0

/-- One turn of the outer loop of `count_complete_paths`. -/
def completeTurn (counts : List Nat) (cursor : Nat) : List Nat :=
  (longestFirst (min maxSyllableLen (group.length - cursor))).foldl (fun counts length =>
    if (completeSyllable (slice group cursor length) options).isSome then
      counts.set cursor (boundedAdd (counts.getD cursor 0) (counts.getD (cursor + length) 0))
    else counts) counts

variable {group absoluteStart options}

/-- One turn of the backward table. -/
theorem suffixTable_turn {k : Nat} {counts : List Nat} (hk : k < group.length)
    (h : SuffixTable group absoluteStart options (k + 1) counts) :
    SuffixTable group absoluteStart options k (completeTurn group options counts k) := by
  have hlen : k < counts.length := by
    rw [h.length_eq]
    omega
  have hvalue : (longestFirst (min maxSyllableLen (group.length - k))).foldl (fun acc l =>
      if (completeSyllable (slice group k l) options).isSome then
        min overLimit (acc + counts.getD (k + l) 0) else acc) (counts.getD k 0) =
      min overLimit (cutsFrom group absoluteStart options k) := by
    have hzero : counts.getD k 0 = min overLimit 0 := by rw [h.todo k (by omega)]; rfl
    rw [hzero, foldl_min_add (fun l => (completeSyllable (slice group k l) options).isSome) _ 0 fun l hl => ?_]
    · rw [zero_add, cutsFrom, length_cuts_of_ne (by omega)]
      congr 2
      refine map_congr_left fun l hl => ?_
      rw [mem_longestFirst] at hl
      rw [weight, isSome_completeBlock (by omega)]
    · rw [mem_longestFirst] at hl
      exact h.done (k + l) (by omega) (by omega)
  unfold completeTurn
  rw [foldl_set_cell _ _ hlen fun l hl => (mem_longestFirst.mp hl).1, hvalue]
  refine ⟨by simp [h.length_eq], fun j hj hjn => ?_, fun j hj => ?_⟩
  · rw [getD_set]
    split_ifs with hjk
    · rw [hjk.1]
    · exact h.done j (by omega) hjn
  · rw [getD_set, if_neg (by omega)]
    exact h.todo j (by omega)

theorem suffixTable_run : ∀ (k : Nat) (counts : List Nat), k ≤ group.length →
    SuffixTable group absoluteStart options k counts →
      SuffixTable group absoluteStart options 0 ((List.range k).reverse.foldl (completeTurn group options) counts)
  | 0, counts, _, h => h
  | k + 1, counts, hk, h => by
    rw [range_succ, reverse_append, reverse_singleton, singleton_append, foldl_cons]
    exact suffixTable_run k _ (by omega) (suffixTable_turn (by omega) h)

/-- The complete counter is the number of complete cuts, up to the cap. -/
theorem countCompletePaths_eq : countCompletePaths group options =
    min overLimit (completeCuts group absoluteStart options group.length).length := by
  have hinit : SuffixTable group absoluteStart options group.length
      ((replicate (group.length + 1) 0).set group.length 1) := by
    refine ⟨by simp, fun j hj hjn => ?_, fun j hj => ?_⟩
    · obtain rfl : j = group.length := by omega
      rw [getD_set, if_pos (by simp), cutsFrom, cuts_self]
      rfl
    · rw [getD_set, if_neg (by omega), getD_replicate]
  exact (suffixTable_run group.length _ (le_refl _) hinit).done 0 (le_refl _) (Nat.zero_le _)

end Complete

/-! ## The forward table -/

section

variable (p : Nat → Bool) (cursor : Nat) (ways : List Nat)

/-- One update of the forward table : the paths to `cursor` extend to `cursor + l`. -/
def scatter (l : Nat) : List Nat :=
  if p l then
    ways.set (cursor + l) (boundedAdd (ways.getD (cursor + l) 0) (ways.getD cursor 0))
  else ways

theorem length_scatter (l : Nat) : (scatter p cursor ways l).length = ways.length := by
  unfold scatter
  split_ifs <;> simp

theorem getD_scatter (l j : Nat) (hj : j < ways.length) : (scatter p cursor ways l).getD j 0 =
      if p l ∧ cursor + l = j then min overLimit (ways.getD j 0 + ways.getD cursor 0)
      else ways.getD j 0 := by
  unfold scatter
  by_cases hp : p l
  · rw [if_pos hp, getD_set, boundedAdd_eq]
    by_cases hl : cursor + l = j
    · rw [if_pos ⟨hl, hj⟩, if_pos ⟨hp, hl⟩, hl]
    · rw [if_neg (fun h => hl h.1), if_neg (fun h => hl h.2)]
  · rw [if_neg hp, if_neg (fun h => hp h.1)]

/-- A pass over the lengths at one cursor adds its cell to each cell it reaches. -/
theorem foldl_scatter : ∀ (n : Nat),
    ((range' 1 n).foldl (scatter p cursor) ways).length = ways.length ∧
    ∀ j, j < ways.length → ((range' 1 n).foldl (scatter p cursor) ways).getD j 0 =
      if cursor < j ∧ j ≤ cursor + n ∧ p (j - cursor) then
        min overLimit (ways.getD j 0 + ways.getD cursor 0)
      else ways.getD j 0
  | 0 => ⟨rfl, fun j _ => by rw [if_neg (by omega)]; rfl⟩
  | n + 1 => by
    obtain ⟨hlen, hcell⟩ := foldl_scatter n
    rw [range'_1_concat, foldl_append, foldl_cons, foldl_nil]
    refine ⟨by rw [length_scatter, hlen], fun j hj => ?_⟩
    rw [getD_scatter _ _ _ _ _ (by rw [hlen]; exact hj)]
    by_cases hjn : cursor + (1 + n) = j
    · have hj' := hcell j hj
      have hcursor := hcell cursor (by omega)
      rw [if_neg (by omega)] at hj' hcursor
      have hsub : 1 + n = j - cursor := by omega
      have hrange : cursor < j ∧ j ≤ cursor + (n + 1) := by omega
      simp only [hj', hcursor, hsub, hrange.1, hrange.2, true_and]
      simp only [show cursor + (j - cursor) = j by omega, and_true]
    · rw [if_neg (fun h => hjn h.2), hcell j hj]
      have hiff : j ≤ cursor + n ↔ j ≤ cursor + (n + 1) := by omega
      simp only [hiff]

end

section Fallback

variable (group : Bytes) (target : Nat) (options : OptionBits)

/-- The number of complete cuts of the group up to cursor `c`. -/
def cutsUpTo (c : Nat) : Nat :=
  (completeCuts group 0 options c).length

/-- Whether the block from `m` up to `e` is a complete syllable, as a number. -/
def completeWeight (m e : Nat) : Nat :=
  weight (completeBlock group 0 options) m (e - m)

/-- The forward table once the cursors below `k` are done. -/
structure ForwardTable (k : Nat) (ways : List Nat) : Prop where
  /-- One cell for each cursor, the target included. -/
  length_eq : ways.length = target + 1
  /-- A cell counts the cuts whose last block starts below `k`. -/
  cell : ∀ j, j ≤ target → ways.getD j 0 = min overLimit ((if j = 0 then 1 else 0) +
    ∑ m ∈ range (min k j), completeWeight group options m j * cutsUpTo group options m)

/-- One turn of the outer loop of `count_fallback_paths`. -/
def fallbackTurn (ways : List Nat) (cursor : Nat) : List Nat :=
  if ways.getD cursor 0 = 0 then ways
  else (List.range' 1 (min maxSyllableLen (target - cursor))).foldl
    (scatter (fun l => (completeSyllable (slice group cursor l) options).isSome) cursor) ways

variable {group target options}

theorem cutsUpTo_eq (j : Nat) : cutsUpTo group options j =
    (if j = 0 then 1 else 0) +
      ∑ m ∈ range j, completeWeight group options m j * cutsUpTo group options m := by
  rcases Nat.eq_zero_or_pos j with rfl | hj
  · simp [cutsUpTo, completeCuts, cuts_self]
  · rw [cutsUpTo, completeCuts,
      length_cuts_eq_sum_last (completeBlock_bounded group 0 options) hj,
      if_neg (by omega), zero_add, range_eq_Ico]
    rfl

variable {k j : Nat}

/-- A cell that is done counts the cuts up to it. -/
theorem ForwardTable.done {ways : List Nat}
    (h : ForwardTable group target options k ways) (hj : j ≤ k) (hjt : j ≤ target) :
    ways.getD j 0 = min overLimit (cutsUpTo group options j) := by
  rw [h.cell j hjt, Nat.min_eq_right hj, ← cutsUpTo_eq]

/-- One turn of the forward table. -/
theorem forwardTable_turn (htarget : target ≤ group.length) {ways : List Nat}
    (hk : k < target) (h : ForwardTable group target options k ways) :
    ForwardTable group target options (k + 1) (fallbackTurn group target options ways k) := by
  have hcursor := h.done (le_refl k) (by omega)
  have hsplit : ∀ j, k < j → ∑ m ∈ range (min (k + 1) j),
      completeWeight group options m j * cutsUpTo group options m =
      ∑ m ∈ range (min k j), completeWeight group options m j * cutsUpTo group options m +
      completeWeight group options k j * cutsUpTo group options k := by
    intro j hj
    rw [Nat.min_eq_left (by omega), Nat.min_eq_left (by omega), sum_range_succ]
  unfold fallbackTurn
  split_ifs with hzero
  · have hnone : cutsUpTo group options k = 0 := by
      rw [hzero] at hcursor
      unfold overLimit maxParseResults at hcursor
      omega
    refine ⟨h.length_eq, fun j hj => ?_⟩
    rw [h.cell j hj]
    by_cases hjk : k < j
    · rw [hsplit j hjk, hnone, mul_zero, add_zero]
    · rw [Nat.min_eq_right (by omega : j ≤ k), Nat.min_eq_right (by omega : j ≤ k + 1)]
  · obtain ⟨hlen, hcell⟩ := foldl_scatter
      (fun l => (completeSyllable (slice group k l) options).isSome) k ways
      (min maxSyllableLen (target - k))
    refine ⟨by rw [hlen, h.length_eq], fun j hj => ?_⟩
    rw [hcell j (by rw [h.length_eq]; omega), h.cell j hj]
    by_cases hjk : k < j
    · have hsome : (completeBlock group 0 options k (j - k)).isSome =
          (completeSyllable (slice group k (j - k)) options).isSome :=
        isSome_completeBlock (by omega)
      rw [hsplit j hjk, ← add_assoc]
      cases hs : (completeSyllable (slice group k (j - k)) options).isSome with
      | false =>
        rw [hs] at hsome
        simp [completeWeight, weight, hsome]
      | true =>
        rw [hs] at hsome
        obtain ⟨b, hb⟩ := Option.isSome_iff_exists.mp hsome
        have hbound := completeBlock_bounded _ _ _ hb
        rw [if_pos ⟨hjk, by omega, rfl⟩, hcursor, min_add_min]
        simp [completeWeight, weight, hsome]
    · rw [if_neg (fun hc => hjk hc.1), Nat.min_eq_right (by omega : j ≤ k), Nat.min_eq_right (by omega : j ≤ k + 1)]

theorem forwardTable_run (htarget : target ≤ group.length) {ways : List Nat}
    (h : ForwardTable group target options 0 ways) :
    ∀ (k : Nat), k ≤ target → ForwardTable group target options k
      ((List.range k).foldl (fallbackTurn group target options) ways)
  | 0, _ => h
  | k + 1, hk => by
    rw [range_succ, foldl_append, foldl_cons, foldl_nil]
    exact forwardTable_turn htarget (by omega) (forwardTable_run htarget h k (by omega))

variable (group target options) in
/-- Fallback paths that `count_fallback_paths` counts twice : their last block is both a
complete syllable under the options and a partial. -/
def doublyCounted : Nat :=
  ∑ m ∈ range target, (if (completeSyllable (slice group m (target - m)) options).isSome ∧
    isPartialOnly (slice group m (target - m)) then 1 else 0) * cutsUpTo group options m

/-- How many segmentations a fallback lists. -/
theorem length_fallbackCuts (htarget : target ≤ group.length) (absoluteStart : Nat) :
    (fallbackCuts group absoluteStart target options).length = cutsUpTo group options target +
      ∑ m ∈ range target, (if (completeSyllable (slice group m (target - m)) options).isNone ∧
        isPartialOnly (slice group m (target - m)) then 1 else 0) * cutsUpTo group options m := by
  rcases Nat.eq_zero_or_pos target with rfl | hpos
  · simp [fallbackCuts, cutsUpTo, completeCuts, cuts_self]
  · rw [fallbackCuts, length_cuts_eq_sum_last (fallbackBlock_bounded htarget) hpos,
      cutsUpTo_eq target, if_neg (by omega), zero_add, ← range_eq_Ico, ← sum_add_distrib]
    refine sum_congr rfl fun m hm => ?_
    rw [mem_range] at hm
    have hshorter : (cuts (fallbackBlock group absoluteStart target options) maxSyllableLen m
        0).length = cutsUpTo group options m := by
      rw [cuts_congr (fun c l hcl => fallbackBlock_of_lt (by omega)) (Nat.zero_le m), cutsUpTo, completeCuts]
      refine length_cuts_congr (fun c l => ?_) 0
      simp only [completeBlock]
      split_ifs <;> simp
    rw [hshorter, ← add_mul]
    congr 1
    have hend : m + (target - m) = target := by omega
    have hfit : m + (target - m) ≤ group.length := by omega
    rw [weight, completeWeight, weight, isSome_completeBlock hfit]
    cases hs : completeSyllable (slice group m (target - m)) options with
    | some s => simp [fallbackBlock_of_some hfit hs]
    | none =>
      rw [fallbackBlock_of_none hfit hs, hend]
      cases isPartialOnly (slice group m (target - m)) <;> simp

/-- The fallback counter is the number of fallback cuts plus the doubly counted ones, up
to the cap. -/
theorem countFallbackPaths_eq (htarget : target ≤ group.length) (absoluteStart : Nat) :
    countFallbackPaths group target options = min overLimit
      ((fallbackCuts group absoluteStart target options).length +
        doublyCounted group target options) := by
  have hinit : ForwardTable group target options 0 ((replicate (target + 1) 0).set 0 1) := by
    refine ⟨by simp, fun j hj => ?_⟩
    rw [getD_set, getD_replicate, length_replicate]
    rcases Nat.eq_zero_or_pos j with rfl | hpos
    · simp [overLimit, maxParseResults]
    · rw [if_neg (by omega), if_neg (by omega)]
      simp
  have hfinal := forwardTable_run htarget hinit target (le_refl _)
  have hdef : countFallbackPaths group target options = (List.range target).foldl
      (fun count m => if isPartialOnly (slice group m (target - m)) then
        boundedAdd count (((List.range target).foldl (fallbackTurn group target options)
          ((replicate (target + 1) 0).set 0 1)).getD m 0) else count)
      (((List.range target).foldl (fallbackTurn group target options)
        ((replicate (target + 1) 0).set 0 1)).getD target 0) := rfl
  have hsum : countFallbackPaths group target options = min overLimit
      (cutsUpTo group options target + ((List.range target).map fun m =>
        (if isPartialOnly (slice group m (target - m)) then 1 else 0) *
          cutsUpTo group options m).sum) := by
    rw [← foldl_min_add _ _ _ fun m hm =>
      hfinal.done (mem_range.mp hm).le (mem_range.mp hm).le,
      ← hfinal.done (le_refl _) (le_refl _)]
    simp only [hdef, boundedAdd_eq]
  rw [hsum, length_fallbackCuts htarget, doublyCounted, add_assoc, ← sum_add_distrib]
  congr 2
  rw [sum_map_range]
  refine sum_congr rfl fun m _ => ?_
  rw [← add_mul]
  congr 1
  cases completeSyllable (slice group m (target - m)) options <;>
    cases isPartialOnly (slice group m (target - m)) <;> simp

/-! ## The furthest end -/

/-- Whether the block from `m` up to `e` is a complete syllable or a partial. -/
def BlockTo (group : Bytes) (options : OptionBits) (m e : Nat) : Prop :=
  (completeSyllable (slice group m (e - m)) options).isSome ∨
    isPartialOnly (slice group m (e - m))

/-- The ends of fallback cuts whose last block starts below `k`. -/
def endsBelow (group : Bytes) (options : OptionBits) (k : Nat) : Set Nat :=
  {e | e = 0 ∨ ∃ m, m < k ∧ m < e ∧ e ≤ group.length ∧ cutsUpTo group options m ≠ 0 ∧
    BlockTo group options m e}

/-- The ends of all fallback cuts of the group. -/
def fallbackEnds (group : Bytes) (options : OptionBits) : Set Nat :=
  endsBelow group options group.length

/-- A position is cut where a syllable ends behind a cut. -/
theorem cutsUpTo_ne_zero_iff (hj : j ≤ group.length) :
    cutsUpTo group options j ≠ 0 ↔ j = 0 ∨ ∃ m, m < j ∧ cutsUpTo group options m ≠ 0 ∧
      (completeSyllable (slice group m (j - m)) options).isSome := by
  have hweight : ∀ m, m < j → (completeWeight group options m j ≠ 0 ↔
      (completeSyllable (slice group m (j - m)) options).isSome) := by
    intro m hm
    rw [completeWeight, weight, isSome_completeBlock (by omega)]
    cases completeSyllable (slice group m (j - m)) options <;> simp
  rw [cutsUpTo_eq]
  by_cases hj0 : j = 0
  · simp [hj0]
  · rw [if_neg hj0, zero_add, Ne, Finset.sum_eq_zero_iff]
    simp only [mem_range, mul_eq_zero, not_forall, not_or, hj0, false_or, exists_prop]
    constructor
    · rintro ⟨m, hm, hw, hc⟩
      exact ⟨m, hm, hc, (hweight m hm).mp hw⟩
    · rintro ⟨m, hm, hc, hw⟩
      exact ⟨m, hm, (hweight m hm).mpr hw, hc⟩

section

variable (p : Nat → Bool) (cursor : Nat) (state : List Bool × Nat)

/-- One update of the reachability table. -/
def reach (l : Nat) : List Bool × Nat :=
  if p l then (state.1.set (cursor + l) true, max state.2 (cursor + l)) else state

theorem length_reach (l : Nat) : (reach p cursor state l).1.length = state.1.length := by
  unfold reach
  split_ifs <;> simp

theorem getD_reach (l j : Nat) (hj : j < state.1.length) : (reach p cursor state l).1.getD j false = true ↔
      state.1.getD j false = true ∨ cursor + l = j ∧ p l = true := by
  unfold reach
  by_cases hp : p l
  · rw [if_pos hp, getD_set]
    by_cases hl : cursor + l = j
    · simp [hl, hj, hp]
    · simp [hl]
  · simp [hp]

theorem snd_reach (l : Nat) : (reach p cursor state l).2 = if p l then max state.2 (cursor + l) else state.2 := by
  unfold reach
  split_ifs <;> rfl

/-- What a pass over the lengths at one cursor marks. -/
theorem foldl_reach : ∀ (n : Nat),
    ((range' 1 n).foldl (reach p cursor) state).1.length = state.1.length ∧
    (∀ j, j < state.1.length →
      (((range' 1 n).foldl (reach p cursor) state).1.getD j false = true ↔
        state.1.getD j false = true ∨ cursor < j ∧ j ≤ cursor + n ∧ p (j - cursor) = true)) ∧
    IsGreatest (insert state.2 {e | cursor < e ∧ e ≤ cursor + n ∧ p (e - cursor) = true})
      ((range' 1 n).foldl (reach p cursor) state).2
  | 0 => by
    refine ⟨rfl, fun j _ => ⟨inl, fun h => h.elim id fun h => by omega⟩, inl rfl, ?_⟩
    rintro e (rfl | ⟨h1, h2, _⟩)
    · exact le_refl _
    · omega
  | n + 1 => by
    obtain ⟨hlen, hcell, hmem, hmax⟩ := foldl_reach n
    rw [range'_1_concat, foldl_append, foldl_cons, foldl_nil]
    have hsplit : ∀ e, (cursor < e ∧ e ≤ cursor + (n + 1) ∧ p (e - cursor) = true) ↔
        (cursor < e ∧ e ≤ cursor + n ∧ p (e - cursor) = true) ∨
          cursor + (1 + n) = e ∧ p (1 + n) = true := by
      intro e
      constructor
      · rintro ⟨hlt, hle, hp⟩
        by_cases he : cursor + (1 + n) = e
        · subst he
          rw [Nat.add_sub_cancel_left] at hp
          exact inr ⟨rfl, hp⟩
        · exact inl ⟨hlt, by omega, hp⟩
      · rintro (⟨hlt, hle, hp⟩ | ⟨rfl, hp⟩)
        · exact ⟨hlt, by omega, hp⟩
        · exact ⟨by omega, by omega, by rw [Nat.add_sub_cancel_left]; exact hp⟩
    refine ⟨by rw [length_reach, hlen], fun j hj => ?_, ?_⟩
    · rw [getD_reach _ _ _ _ _ (by rw [hlen]; exact hj), hcell j hj, hsplit j, or_assoc]
    · rw [snd_reach]
      split_ifs with hp
      · refine ⟨?_, ?_⟩
        · rcases max_choice ((range' 1 n).foldl (reach p cursor) state).2 (cursor + (1 + n)) with h | h
          · rw [h]
            exact hmem.imp id fun h => (hsplit _).mpr (inl h)
          · rw [h]
            exact inr ((hsplit _).mpr (inr ⟨rfl, hp⟩))
        · rintro e (he | he)
          · exact le_max_of_le_left (hmax (inl he))
          · rcases (hsplit e).mp he with he | ⟨rfl, _⟩
            · exact le_max_of_le_left (hmax (inr he))
            · exact le_max_right _ _
      · refine ⟨hmem.imp id fun h => (hsplit _).mpr (inl h), ?_⟩
        rintro e (he | he)
        · exact hmax (inl he)
        · rcases (hsplit e).mp he with he | ⟨_, h⟩
          · exact hmax (inr he)
          · exact absurd h hp

end

/-- The reachability table and the furthest end once the cursors below `k` are done. -/
structure ReachTable (group : Bytes) (options : OptionBits) (k : Nat)
    (state : List Bool × Nat) : Prop where
  /-- One cell for each cursor, the end included. -/
  length_eq : state.1.length = group.length + 1
  /-- A marked cell ends a complete block that starts below `k`. -/
  cell : ∀ j, j ≤ group.length → (state.1.getD j false = true ↔
    j = 0 ∨ ∃ m, m < k ∧ m < j ∧ cutsUpTo group options m ≠ 0 ∧
      (completeSyllable (slice group m (j - m)) options).isSome)
  /-- The target is the greatest end so far. -/
  greatest : IsGreatest (endsBelow group options k) state.2

/-- One turn of the outer loop of `maximal_fallback_end`. -/
def furthestTurn (group : Bytes) (options : OptionBits) (state : List Bool × Nat)
    (cursor : Nat) : List Bool × Nat :=
  if !state.1.getD cursor false then state
  else
    (List.range' 1 (min maxSyllableLen (group.length - cursor))).foldl
      (reach (fun l => (completeSyllable (slice group cursor l) options).isSome) cursor)
      (state.1, max state.2 (cursor + longestPartialPrefix (group.drop cursor)))

theorem ReachTable.cursor_iff {state : List Bool × Nat}
    (h : ReachTable group options k state) (hk : k ≤ group.length) :
    state.1.getD k false = true ↔ cutsUpTo group options k ≠ 0 := by
  rw [h.cell k hk, cutsUpTo_ne_zero_iff hk]
  simp only [and_self_left]

/-- The longest partial at a cursor. -/
theorem longestPartialPrefix_spec (bytes : Bytes) :
    (∀ l, 0 < l → l ≤ bytes.length → isPartialOnly (bytes.take l) = true →
      l ≤ longestPartialPrefix bytes) ∧
    (longestPartialPrefix bytes = 0 ∨ longestPartialPrefix bytes ≤ bytes.length ∧
      isPartialOnly (bytes.take (longestPartialPrefix bytes)) = true) := by
  obtain ⟨hmax, hfound⟩ := find?_longestFirst (fun l => isPartialOnly (bytes.take l))
    (min maxSyllableLen bytes.length)
  refine ⟨fun l hpos hle hp => hmax l hpos ?_ hp, hfound.imp id fun h => ⟨?_, h.2⟩⟩
  · have hlt := length_lt_of_isPartialOnly hp
    rw [length_take] at hlt
    omega
  · exact le_trans h.1 (min_le_right _ _)

theorem endsBelow_succ_of_zero (h : cutsUpTo group options k = 0) :
    endsBelow group options (k + 1) = endsBelow group options k := by
  ext e
  simp only [endsBelow, Set.mem_ofPred_eq]
  refine or_congr_right ⟨?_, fun ⟨m, hm, rest⟩ => ⟨m, by omega, rest⟩⟩
  rintro ⟨m, hm, hme, hle, hc, hb⟩
  have hmk : m ≠ k := by
    rintro rfl
    exact hc h
  exact ⟨m, by omega, hme, hle, hc, hb⟩

theorem mem_endsBelow_succ {e : Nat} : e ∈ endsBelow group options (k + 1) ↔
    e ∈ endsBelow group options k ∨
      k < e ∧ e ≤ group.length ∧ cutsUpTo group options k ≠ 0 ∧ BlockTo group options k e := by
  simp only [endsBelow, Set.mem_ofPred_eq]
  constructor
  · rintro (rfl | ⟨m, hm, rest⟩)
    · exact inl (inl rfl)
    · by_cases hmk : m = k
      · subst hmk
        exact inr rest
      · exact inl (inr ⟨m, by omega, rest⟩)
  · rintro ((rfl | ⟨m, hm, rest⟩) | rest)
    · exact inl rfl
    · exact inr ⟨m, by omega, rest⟩
    · exact inr ⟨k, by omega, rest⟩

/-- One turn of the reachability pass. -/
theorem reachTable_turn {state : List Bool × Nat} (hk : k < group.length)
    (h : ReachTable group options k state) : ReachTable group options (k + 1)
    (furthestTurn group options state k) := by
  have hcursor := h.cursor_iff hk.le
  unfold furthestTurn
  cases hr : state.1.getD k false with
  | false =>
    have hzero : cutsUpTo group options k = 0 := by
      by_contra hne
      rw [hcursor.mpr hne] at hr
      cases hr
    simp only [Bool.not_false, if_true]
    refine ⟨h.length_eq, fun j hj => ?_, by rw [endsBelow_succ_of_zero hzero]; exact h.greatest⟩
    rw [h.cell j hj]
    refine or_congr_right ⟨fun ⟨m, hm, rest⟩ => ⟨m, by omega, rest⟩, ?_⟩
    rintro ⟨m, hm, hmj, hc, hs⟩
    have hmk : m ≠ k := by
      rintro rfl
      exact hc hzero
    exact ⟨m, by omega, hmj, hc, hs⟩
  | true =>
    have hne := hcursor.mp hr
    have hkend : k ≤ state.2 := h.greatest.2 (by
      rcases (h.cell k hk.le).mp hr with rfl | ⟨m, _, hm, hc, hs⟩
      · exact inl rfl
      · exact inr ⟨m, hm, hm, hk.le, hc, inl hs⟩)
    obtain ⟨hmaxp, hfound⟩ := longestPartialPrefix_spec (group.drop k)
    simp only [Bool.not_true, Bool.false_eq_true, if_false]
    obtain ⟨hlen, hcell, hmem, hmax⟩ := foldl_reach
      (fun l => (completeSyllable (slice group k l) options).isSome) k
      (state.1, max state.2 (k + longestPartialPrefix (group.drop k)))
      (min maxSyllableLen (group.length - k))
    have hbound : ∀ e, k < e → e ≤ group.length →
        (completeSyllable (slice group k (e - k)) options).isSome = true →
          e ≤ k + min maxSyllableLen (group.length - k) := by
      intro e hke hle hs
      obtain ⟨s, hs⟩ := Option.isSome_iff_exists.mp hs
      have hspell := (completeSyllable_wellSpelled hs).2.1
      rw [length_slice (by omega)] at hspell
      omega
    refine ⟨by rw [hlen, h.length_eq], fun j hj => ?_, ?_, ?_⟩
    · rw [hcell j (by rw [h.length_eq]; omega), h.cell j hj]
      constructor
      · rintro ((rfl | ⟨m, hm, rest⟩) | ⟨hkj, _, hs⟩)
        · exact inl rfl
        · exact inr ⟨m, by omega, rest⟩
        · exact inr ⟨k, by omega, hkj, hne, hs⟩
      · rintro (rfl | ⟨m, hm, hmj, hc, hs⟩)
        · exact inl (inl rfl)
        · by_cases hmk : m = k
          · subst hmk
            exact inr ⟨hmj, hbound j hmj hj hs, hs⟩
          · exact inl (inr ⟨m, by omega, hmj, hc, hs⟩)
    · rw [mem_endsBelow_succ]
      rcases hmem with hmem | ⟨hke, hle, hs⟩
      · rw [hmem]
        rcases max_choice state.2 (k + longestPartialPrefix (group.drop k)) with hm | hm
        · simp only [hm]
          exact inl h.greatest.1
        · simp only [hm]
          by_cases hzero : longestPartialPrefix (group.drop k) = 0
          · rw [hzero, Nat.add_zero] at hm ⊢
            have hsame : k = state.2 := by omega
            have hin := h.greatest.1
            rw [← hsame] at hin
            exact inl hin
          · obtain ⟨hfit, hp⟩ := hfound.resolve_left hzero
            rw [length_drop] at hfit
            refine inr ⟨by omega, by omega, hne, inr ?_⟩
            rw [Nat.add_sub_cancel_left]
            exact hp
      · exact inr ⟨hke, by omega, hne, inl hs⟩
    · intro e he
      rcases mem_endsBelow_succ.mp he with he | ⟨hke, hle, _, hs | hp⟩
      · exact le_trans (le_max_of_le_left (h.greatest.2 he)) (hmax (inl rfl))
      · exact hmax (inr ⟨hke, hbound e hke hle hs, hs⟩)
      · have hl := hmaxp (e - k) (by omega) (by rw [length_drop]; omega) hp
        exact le_trans (le_max_of_le_right (by omega)) (hmax (inl rfl))

theorem reachTable_run {state : List Bool × Nat} (h : ReachTable group options 0 state) :
    ∀ (k : Nat), k ≤ group.length →
      ReachTable group options k ((List.range k).foldl (furthestTurn group options) state)
  | 0, _ => h
  | k + 1, hk => by
    rw [range_succ, foldl_append, foldl_cons, foldl_nil]
    exact reachTable_turn (by omega) (reachTable_run h k (by omega))

/-- The fallback target is the furthest end of a fallback cut. -/
theorem maximalFallbackEnd_isGreatest (group : Bytes) (options : OptionBits) :
    IsGreatest (fallbackEnds group options) (maximalFallbackEnd group options) := by
  have hinit : ReachTable group options 0
      ((replicate (group.length + 1) false).set 0 true, 0) := by
    refine ⟨by simp, fun j hj => ?_, inl rfl, ?_⟩
    · rw [getD_set, getD_replicate]
      rcases Nat.eq_zero_or_pos j with rfl | hpos
      · simp
      · simp [hpos.ne, hpos.ne']
    · rintro e (rfl | ⟨m, hm, _⟩)
      · exact le_refl _
      · omega
  exact (reachTable_run hinit group.length (le_refl _)).greatest

theorem maximalFallbackEnd_le (group : Bytes) (options : OptionBits) :
    maximalFallbackEnd group options ≤ group.length := by
  rcases (maximalFallbackEnd_isGreatest group options).1 with h | ⟨_, _, _, h, _⟩
  · omega
  · exact h

end Fallback

end Oxpinyin
