import Mathlib.Data.List.Sort
import Mathlib.Data.List.Perm.Subperm
import Mathlib.Data.Set.Basic

/-!
# Keeping the k cheapest of a set

`IsKBest k cost S L` : the list `L` holds the `k` cheapest elements of `S`, cheapest
first. `Covers k cost S C` is what a list of candidates must satisfy for that : every
element of `S` it leaves out is beaten by `k` candidates. A stable sort and a truncation
turn candidates into the `k` best (`Covers.isKBest`), and the `k` best cover
(`IsKBest.covers`), so a search may truncate at every stage.

`IsKBest.map_cost_eq` : the costs kept are the first `k` of all costs in order.
`pairwise_ties` : a stable sort keeps a second order among equal costs.
-/

set_option linter.unusedSectionVars false

namespace Oxpinyin.Selection

open List

variable {α β : Type*} [LinearOrder β] (k : Nat) (cost : α → β)

/-- Candidates that beat every element of `S` they leave out `k` times. -/
structure Covers (S : Set α) (C : List α) : Prop where
  /-- No candidate twice. -/
  nodup : C.Nodup
  /-- Candidates are elements. -/
  subset : ∀ x ∈ C, x ∈ S
  /-- What is left out is beaten `k` times. -/
  covered : ∀ x ∈ S, x ∈ C ∨
    ∃ D : List α, D.Nodup ∧ D ⊆ C ∧ k ≤ D.length ∧ ∀ y ∈ D, cost y ≤ cost x

/-- The `k` cheapest elements of `S`, cheapest first. -/
structure IsKBest (S : Set α) (L : List α) : Prop where
  /-- No element twice. -/
  nodup : L.Nodup
  /-- They are elements. -/
  subset : ∀ x ∈ L, x ∈ S
  /-- Cheapest first. -/
  sorted : L.Pairwise fun a b => cost a ≤ cost b
  /-- At most `k`. -/
  length_le : L.length ≤ k
  /-- What is left out is no cheaper, and only for want of room. -/
  best : ∀ x ∈ S, x ∉ L → L.length = k ∧ ∀ y ∈ L, cost y ≤ cost x

/-- The stable sort by cost. -/
def sortByCost (l : List α) : List α :=
  l.mergeSort fun a b => decide (cost a ≤ cost b)

variable {k cost} {S : Set α} {C L : List α}

theorem pairwise_sortByCost (l : List α) : (sortByCost cost l).Pairwise fun a b => cost a ≤ cost b := by
  have h := @List.pairwise_mergeSort _ (fun a b => decide (cost a ≤ cost b))
    (fun a b c hab hbc => by simpa using le_trans (by simpa using hab) (by simpa using hbc))
    (fun a b => by simpa using le_total (cost a) (cost b)) l
  exact h.imp fun hab => by simpa using hab

theorem perm_sortByCost (l : List α) : (sortByCost cost l).Perm l :=
  mergeSort_perm l _

/-- Sorting and truncating candidates gives the `k` best. -/
theorem Covers.isKBest (h : Covers k cost S C) : IsKBest k cost S ((sortByCost cost C).take k) := by
  have hperm := @perm_sortByCost _ _ _ cost C
  have hsorted := @pairwise_sortByCost _ _ _ cost C
  have hnodup := hperm.nodup_iff.mpr h.nodup
  generalize sortByCost cost C = M at *
  refine ⟨hnodup.sublist (take_sublist k M), fun x hx => ?_,
    hsorted.sublist (take_sublist k M), by simp, fun x hxS hx => ?_⟩
  · exact h.subset x (hperm.mem_iff.mp (mem_of_mem_take hx))
  · rcases h.covered x hxS with hxC | ⟨D, hD, hDC, hk, hcheap⟩
    · have hxM : x ∈ M.take k ++ M.drop k := by
        rw [take_append_drop]
        exact hperm.mem_iff.mpr hxC
      have hdrop := (mem_append.mp hxM).resolve_left hx
      have hlen : k < M.length := by
        by_contra hge
        rw [drop_eq_nil_of_le (not_lt.mp hge)] at hdrop
        simp at hdrop
      refine ⟨by simp [hlen.le], fun y hy => ?_⟩
      rw [← take_append_drop k M, pairwise_append] at hsorted
      exact hsorted.2.2 y hy x hdrop
    · have hDM : D ⊆ M := fun d hd => hperm.mem_iff.mpr (hDC hd)
      have hlen : k ≤ M.length := le_trans hk (hD.subperm hDM).length_le
      refine ⟨by simp [hlen], fun y hy => ?_⟩
      by_contra hgt
      -- Every element of `D` is cheaper than `y`, so it stands before `y`.
      obtain ⟨i, hi, hget⟩ := mem_iff_getElem.mp hy
      rw [length_take] at hi
      have hsplit : M = M.take i ++ y :: M.drop (i + 1) := by
        rw [getElem_take] at hget
        rw [← hget, getElem_cons_drop, take_append_drop]
      have hbefore : D ⊆ M.take i := by
        intro d hd
        have hdM := hDM hd
        rw [hsplit] at hdM hsorted
        rcases mem_append.mp hdM with hd' | hd'
        · exact hd'
        · have hle : cost y ≤ cost d := by
            rcases mem_cons.mp hd' with rfl | hd'
            · exact le_refl _
            · exact (pairwise_cons.mp (pairwise_append.mp hsorted).2.1).1 d hd'
          exact absurd (le_trans hle (hcheap d hd)) hgt
      have hcount := (hD.subperm hbefore).length_le
      rw [length_take] at hcount
      omega

/-- The `k` best are candidates enough. -/
theorem IsKBest.covers (h : IsKBest k cost S L) : Covers k cost S L where
  nodup := h.nodup
  subset := h.subset
  covered x hx := by
    by_cases hxL : x ∈ L
    · exact Or.inl hxL
    · obtain ⟨hlen, hcheap⟩ := h.best x hx hxL
      exact Or.inr ⟨L, h.nodup, fun _ hy => hy, hlen.ge, hcheap⟩

/-- Candidates of a family of disjoint sets, one list after the other, are candidates of
the union. -/
theorem Covers.flatMap {ι : Type*} {l : List ι} {S : ι → Set α} {B : ι → List α}
    (hdisj : l.Pairwise fun i j => ∀ x ∈ S i, x ∉ S j) (h : ∀ i ∈ l, Covers k cost (S i) (B i)) :
    Covers k cost {x | ∃ i ∈ l, x ∈ S i} (l.flatMap B) where
  nodup := by
    rw [nodup_flatMap]
    refine ⟨fun i hi => (h i hi).nodup, ?_⟩
    refine hdisj.imp_of_mem fun {i j} hi hj hij x hx hx' => ?_
    exact hij x ((h i hi).subset x hx) ((h j hj).subset x hx')
  subset x hx := by
    obtain ⟨i, hi, hxi⟩ := mem_flatMap.mp hx
    exact ⟨i, hi, (h i hi).subset x hxi⟩
  covered := by
    rintro x ⟨i, hi, hxi⟩
    rcases (h i hi).covered x hxi with hx | ⟨D, hD, hsub, hk, hcheap⟩
    · exact Or.inl (mem_flatMap.mpr ⟨i, hi, hx⟩)
    · exact Or.inr ⟨D, hD, fun y hy => mem_flatMap.mpr ⟨i, hi, hsub hy⟩, hk, hcheap⟩

/-- Candidates stay candidates under an injection that keeps the order of costs. -/
theorem Covers.map {α' : Type*} {cost' : α' → β} {f : α → α'} (hf : Function.Injective f)
    (hmono : ∀ x ∈ S, ∀ y ∈ S, cost x ≤ cost y → cost' (f x) ≤ cost' (f y))
    (h : Covers k cost S C) : Covers k cost' (f '' S) (C.map f) where
  nodup := h.nodup.map hf
  subset x hx := by
    obtain ⟨y, hy, rfl⟩ := mem_map.mp hx
    exact ⟨y, h.subset y hy, rfl⟩
  covered := by
    rintro _ ⟨x, hx, rfl⟩
    rcases h.covered x hx with hxC | ⟨D, hD, hsub, hk, hcheap⟩
    · exact Or.inl (mem_map_of_mem hxC)
    · refine Or.inr ⟨D.map f, hD.map hf, map_subset f hsub, by simpa using hk, ?_⟩
      intro y hy
      obtain ⟨d, hd, rfl⟩ := mem_map.mp hy
      exact hmono d (h.subset d (hsub hd)) x hx (hcheap d hd)

/-- The costs kept are the first `k` of all costs in order. -/
theorem IsKBest.map_cost_eq (h : IsKBest k cost S L) {all : List α} (hall : all.Nodup)
    (hmem : ∀ x, x ∈ all ↔ x ∈ S) : L.map cost = ((all.map cost).mergeSort fun a b => decide (a ≤ b)).take k := by
  classical
  set rest := all.filter (· ∉ L) with hrest
  have hperm : all.Perm (L ++ rest) := by
    refine (perm_ext_iff_of_nodup hall ?_).mpr fun x => ?_
    · refine h.nodup.append (hall.filter _) fun x hx hx' => ?_
      simp [hrest, hx] at hx'
    · simp only [mem_append, hrest, mem_filter, decide_not, Bool.not_eq_true', decide_eq_false_iff_not]
      constructor
      · intro hx
        by_cases hxL : x ∈ L
        · exact Or.inl hxL
        · exact Or.inr ⟨hx, hxL⟩
      · rintro (hx | hx)
        · exact (hmem x).mpr (h.subset x hx)
        · exact hx.1
  have hrestBest : ∀ x ∈ rest, L.length = k ∧ ∀ y ∈ L, cost y ≤ cost x := by
    intro x hx
    simp only [hrest, mem_filter, decide_not, Bool.not_eq_true', decide_eq_false_iff_not] at hx
    exact h.best x ((hmem x).mp hx.1) hx.2
  have hsorted : (L.map cost ++ sortByCost id (rest.map cost)).Pairwise (· ≤ ·) := by
    rw [pairwise_append]
    refine ⟨pairwise_map.mpr h.sorted, pairwise_sortByCost _, fun a ha b hb => ?_⟩
    obtain ⟨y, hy, rfl⟩ := mem_map.mp ha
    obtain ⟨x, hx, rfl⟩ := mem_map.mp ((perm_sortByCost _).mem_iff.mp hb)
    exact (hrestBest x hx).2 y hy
  have heq : (all.map cost).mergeSort (fun a b => decide (a ≤ b)) =
      L.map cost ++ sortByCost id (rest.map cost) := by
    refine Perm.eq_of_pairwise (fun a b _ _ => le_antisymm)
      (@pairwise_sortByCost _ _ _ id (all.map cost)) hsorted ?_
    refine (mergeSort_perm _ _).trans ((hperm.map cost).trans ?_)
    rw [map_append]
    exact Perm.append_left _ (perm_sortByCost _).symm
  rw [heq]
  by_cases hempty : rest = []
  · rw [hempty]
    simp only [sortByCost, map_nil, mergeSort_nil, append_nil]
    rw [take_of_length_le (by rw [length_map]; exact h.length_le)]
  · obtain ⟨x, hx⟩ := exists_mem_of_ne_nil rest hempty
    rw [take_left' (by rw [length_map, (hrestBest x hx).1])]

/-! ## Ties -/

theorem pair_sublist_of_mem {a b : α} (ha : a ∈ C) (hb : b ∈ C) (hne : a ≠ b) :
    List.Sublist [a, b] C ∨ List.Sublist [b, a] C := by
  obtain ⟨front, back, rfl⟩ := append_of_mem ha
  rcases mem_append.mp hb with hb | hb
  · right
    exact List.Sublist.append (singleton_sublist.mpr hb) (singleton_sublist.mpr mem_cons_self)
  · left
    have hback := (mem_cons.mp hb).resolve_left hne.symm
    exact (Sublist.cons_cons a (singleton_sublist.mpr hback)).trans (sublist_append_right _ _)

theorem not_pair_sublist_swap : ∀ {M : List α} {a b : α}, M.Nodup → List.Sublist [a, b] M →
    ¬ List.Sublist [b, a] M
  | [], _, _, _, h, _ => by simp at h
  | m :: M, a, b, hM, h, h' => by
    obtain ⟨hm, hM'⟩ := nodup_cons.mp hM
    cases h with
    | cons _ h =>
      cases h' with
      | cons _ h' => exact not_pair_sublist_swap hM' h h'
      | cons_cons _ h' => exact hm (h.subset (by simp))
    | cons_cons _ h =>
      cases h' with
      | cons _ h' => exact hm (h'.subset (by simp))
      | cons_cons _ h' => exact hm (singleton_sublist.mp h)

/-- A stable sort of candidates in order of `r` keeps that order among equal costs. -/
theorem pairwise_ties {r : α → Nat} (hC : C.Pairwise fun a b => r a ≤ r b) (hnodup : C.Nodup) :
    (sortByCost cost C).Pairwise fun a b => cost a < cost b ∨ cost a = cost b ∧ r a ≤ r b := by
  have hperm := @perm_sortByCost _ _ _ cost C
  have hM := hperm.nodup_iff.mpr hnodup
  rw [pairwise_iff_forall_sublist]
  intro a b hab
  have hle : cost a ≤ cost b := pairwise_iff_forall_sublist.mp (@pairwise_sortByCost _ _ _ cost C) hab
  rcases hle.lt_or_eq with hlt | heq
  · exact Or.inl hlt
  · refine Or.inr ⟨heq, ?_⟩
    have hne : a ≠ b := by
      have hpair := hM.sublist hab
      simpa using hpair
    have ha := hperm.mem_iff.mp (hab.subset (by simp : a ∈ [a, b]))
    have hb := hperm.mem_iff.mp (hab.subset (by simp : b ∈ [a, b]))
    rcases pair_sublist_of_mem ha hb hne with hsub | hsub
    · exact pairwise_iff_forall_sublist.mp hC hsub
    · have hswap := @List.pair_sublist_mergeSort _ (fun a b => decide (cost a ≤ cost b)) _ _ _
        (fun a b c hab hbc => by simpa using le_trans (by simpa using hab) (by simpa using hbc))
        (fun a b => by simpa using le_total (cost a) (cost b)) (by simpa using heq.ge) hsub
      exact absurd hswap (not_pair_sublist_swap hM hab)

end Oxpinyin.Selection
