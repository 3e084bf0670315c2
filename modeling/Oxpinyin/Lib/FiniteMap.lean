import Mathlib.Algebra.BigOperators.Group.Finset.Basic
import Mathlib.Data.Fintype.Basic
import Mathlib.Tactic.Common

/-!
# Ascending lists of a finite map

`Lists entries m` : the list holds the entries of the map `m`, each once, ascending by key.
A map has one such list (`Lists.unique`), a key cuts it in two (`Lists.split`), and the edits
of a sorted table are the updates of the map.
-/

set_option linter.unusedSectionVars false

namespace Oxpinyin.FiniteMap

open List Option Function Prod

variable {κ ν : Type*} [LT κ] [DecidableEq κ]

/-- The entries of a map, ascending by key. -/
structure Lists (entries : List (κ × ν)) (m : κ → Option ν) : Prop where
  ascending : entries.Pairwise fun a b => a.1 < b.1
  mem : ∀ k v, (k, v) ∈ entries ↔ m k = some v

theorem lists_nil : Lists ([] : List (κ × ν)) fun _ => none :=
  ⟨List.Pairwise.nil, by simp⟩

section Order

variable [Std.Irrefl (α := κ) (· < ·)] [Trans (α := κ) (· < ·) (· < ·) (· < ·)]
  {entries front back : List (κ × ν)} {m : κ → Option ν} {k : κ} {v w : ν}

theorem lt_asymm {a b : κ} (hab : a < b) (hba : b < a) : False :=
  Std.Irrefl.irrefl a (Trans.trans hab hba)

theorem ne_of_lt {a b : κ} (hab : a < b) : a ≠ b := by
  rintro rfl
  exact Std.Irrefl.irrefl a hab

/-- Two lists ascending by key with the same elements are equal. -/
theorem eq_of_ascending {α : Type*} {key : α → κ} {xs ys : List α}
    (hxs : xs.Pairwise fun a b => key a < key b) (hys : ys.Pairwise fun a b => key a < key b)
    (hmem : ∀ a, a ∈ xs ↔ a ∈ ys) : xs = ys := by
  have hperm : xs.Perm ys := by
    refine (perm_ext_iff_of_nodup ?_ ?_).mpr hmem
    · exact hxs.imp fun {a b} hab heq => ne_of_lt hab (congrArg key heq)
    · exact hys.imp fun {a b} hab heq => ne_of_lt hab (congrArg key heq)
  exact Perm.eq_of_pairwise (fun a b _ _ hab hba => (lt_asymm hab hba).elim) hxs hys hperm

/-- A map has one ascending list. -/
theorem Lists.unique {other : List (κ × ν)} (h : Lists entries m) (h' : Lists other m) : entries = other :=
  eq_of_ascending h.ascending h'.ascending fun entry => by
    rw [h.mem entry.1 entry.2, h'.mem entry.1 entry.2]

/-- An entry cuts the list into those below and those above. -/
theorem Lists.around (h : Lists (front ++ (k, v) :: back) m) :
    (∀ entry ∈ front, entry.1 < k) ∧ ∀ entry ∈ back, k < entry.1 := by
  obtain ⟨_, hback, hcross⟩ := pairwise_append.mp h.ascending
  exact ⟨fun entry hentry => hcross entry hentry _ mem_cons_self,
    fun entry hentry => (pairwise_cons.mp hback).1 entry hentry⟩

section

variable (h : Lists (front ++ back) m) (hfront : ∀ entry ∈ front, entry.1 < k) (hback : ∀ entry ∈ back, k < entry.1)
include h hfront hback

/-- The entries outside a key's place are those of the other keys. -/
theorem mem_outside_iff (j : κ) (u : ν) : (j, u) ∈ front ++ back ↔ j ≠ k ∧ m j = some u := by
  rw [h.mem]
  refine ⟨fun hget => ⟨?_, hget⟩, And.right⟩
  rintro rfl
  rcases mem_append.mp ((h.mem j u).mpr hget) with hin | hin
  · exact Std.Irrefl.irrefl _ (hfront _ hin)
  · exact Std.Irrefl.irrefl _ (hback _ hin)

theorem Lists.get_none : m k = none := by
  cases hget : m k with
  | none => rfl
  | some u => exact absurd rfl ((mem_outside_iff h hfront hback k u).mp ((h.mem k u).mpr hget)).1

/-- Writing an entry at its key's place. -/
theorem lists_put (v : ν) : Lists (front ++ (k, v) :: back) (update m k (some v)) := by
  obtain ⟨hafront, haback, hcross⟩ := pairwise_append.mp h.ascending
  refine ⟨?_, fun j u => ?_⟩
  · refine pairwise_append.mpr ⟨hafront, pairwise_cons.mpr ⟨hback, haback⟩, ?_⟩
    intro a ha b hb
    rcases mem_cons.mp hb with rfl | hb
    · exact hfront a ha
    · exact hcross a ha b hb
  · have hmem : (j, u) ∈ front ++ (k, v) :: back ↔ (j, u) = (k, v) ∨ (j, u) ∈ front ++ back := by
      simp only [mem_append, mem_cons]
      tauto
    rw [hmem, mem_outside_iff h hfront hback, update_apply]
    split_ifs with hj
    · subst hj
      simp [eq_comm]
    · simp [hj]

end

/-- Every ascending list is that of a map. -/
theorem exists_lists (h : entries.Pairwise fun a b => a.1 < b.1) : ∃ m, Lists entries m := by
  induction entries with
  | nil => exact ⟨_, lists_nil⟩
  | cons entry rest ih =>
    obtain ⟨habove, hrest⟩ := pairwise_cons.mp h
    obtain ⟨m, hm⟩ := ih hrest
    exact ⟨_, @lists_put κ ν _ _ _ _ [] rest m entry.1 hm (by simp) habove entry.2⟩

/-- Taking an entry out. -/
theorem Lists.take_out (h : Lists (front ++ (k, v) :: back) m) : Lists (front ++ back) (update m k none) := by
  obtain ⟨hfront, hback⟩ := h.around
  have hsub : (front ++ back).Sublist (front ++ (k, v) :: back) := Sublist.append_left (sublist_cons_self _ _) _
  refine ⟨h.ascending.sublist hsub, fun j u => ?_⟩
  rw [update_apply]
  split_ifs with hj
  · subst hj
    refine ⟨fun hin => ?_, by simp⟩
    rcases mem_append.mp hin with hin | hin
    · exact (Std.Irrefl.irrefl _ (hfront _ hin)).elim
    · exact (Std.Irrefl.irrefl _ (hback _ hin)).elim
  · rw [← h.mem]
    simp [hj]

theorem Lists.tail (h : Lists ((k, v) :: back) m) : Lists back (update m k none) :=
  @Lists.take_out κ ν _ _ _ _ [] back m k v h

theorem Lists.eq_none (h : Lists ([] : List (κ × ν)) m) (j : κ) : m j = none :=
  @Lists.get_none κ ν _ _ _ _ [] [] m j h (by simp) (by simp)

/-- A map with no entry at a key below a list's first. -/
theorem Lists.none_of_lt (h : Lists entries m) (hlt : ∀ entry ∈ entries, k < entry.1) : m k = none :=
  @Lists.get_none κ ν _ _ _ _ [] entries m k h (by simp) hlt

/-- The other keys of a list are above its first. -/
theorem Lists.head_lt (h : Lists ((k, v) :: back) m) {j : κ} (hne : j ≠ k) (hj : m j ≠ none) : k < j := by
  obtain ⟨u, hu⟩ := ne_none_iff_exists'.mp hj
  rcases mem_cons.mp ((h.mem j u).mpr hu) with heq | hin
  · exact absurd (congrArg fst heq) hne
  · exact (pairwise_cons.mp h.ascending).1 _ hin

/-- Whatever is written at a key's place, or nothing, is the update of the map. -/
theorem Lists.at_place {old : Option ν} (h : Lists (front ++ (old.map (Prod.mk k)).toList ++ back) m)
    (hfront : ∀ entry ∈ front, entry.1 < k) (hback : ∀ entry ∈ back, k < entry.1) (new : Option ν) :
    Lists (front ++ (new.map (Prod.mk k)).toList ++ back) (update m k new) := by
  have hout : Lists (front ++ back) (update m k none) := by
    cases old with
    | none =>
      have hsame : Lists (front ++ back) m := by simpa using h
      rwa [← hsame.get_none hfront hback, update_eq_self]
    | some v => exact Lists.take_out (by simpa using h)
  cases new with
  | none => simpa using hout
  | some v => simpa using lists_put hout hfront hback v

section

variable (h : Lists entries m)
include h

/-- Keeping the entries of the keys a test passes. -/
theorem Lists.restrict (p : κ → Bool) :
    Lists (entries.filter fun entry => p entry.1) fun k => if p k = true then m k else none := by
  refine ⟨h.ascending.filter _, fun k v => ?_⟩
  rw [mem_filter, h.mem]
  cases hp : p k with
  | true => simp
  | false => simp

theorem Lists.mem_keys (k : κ) : k ∈ entries.map fst ↔ (m k).isSome := by
  rw [List.mem_map, isSome_iff_exists]
  constructor
  · rintro ⟨entry, hentry, rfl⟩
    exact ⟨entry.2, (h.mem _ _).mp hentry⟩
  · rintro ⟨v, hv⟩
    exact ⟨(k, v), (h.mem k v).mpr hv, rfl⟩

theorem Lists.nodup_keys : (entries.map fst).Nodup :=
  pairwise_map.mpr (h.ascending.imp ne_of_lt)

theorem Lists.get_of_not_mem (hk : k ∉ entries.map fst) : m k = none := by
  rwa [h.mem_keys, Bool.not_eq_true, isSome_eq_false_iff, isNone_iff_eq_none] at hk

/-- The values of a map that has entries only where another has. -/
theorem Lists.values {μ : Type*} {n : κ → Option μ} (hn : ∀ k u, n k = some u → (m k).isSome) :
    Lists (entries.filterMap fun entry => (n entry.1).map (Prod.mk entry.1)) n := by
  refine ⟨?_, fun k u => ?_⟩
  · refine pairwise_filterMap.mpr (h.ascending.imp fun {a b} hab x hx y hy => ?_)
    obtain ⟨_, _, rfl⟩ := map_eq_some_iff.mp hx
    obtain ⟨_, _, rfl⟩ := map_eq_some_iff.mp hy
    exact hab
  · rw [mem_filterMap]
    constructor
    · rintro ⟨entry, _, hentry⟩
      obtain ⟨v, hv, heq⟩ := map_eq_some_iff.mp hentry
      obtain ⟨rfl, rfl⟩ := mk.inj heq
      exact hv
    · intro hget
      obtain ⟨v, hv⟩ := isSome_iff_exists.mp (hn k u hget)
      exact ⟨(k, v), (h.mem k v).mpr hv, by rw [hget]; rfl⟩

/-- A sum over the list is a sum over the keys. -/
theorem Lists.sum_eq [Fintype κ] {μ : Type*} [AddCommMonoid μ] (f : κ → ν → μ) :
    (entries.map fun entry => f entry.1 entry.2).sum = ∑ k, ((m k).map (f k)).getD 0 := by
  induction entries generalizing m with
  | nil =>
    simp [h.eq_none]
  | cons entry rest ih =>
    obtain ⟨k, v⟩ := entry
    have hget : m k = some v := (h.mem k v).mp mem_cons_self
    rw [map_cons, sum_cons, ih h.tail, ← Finset.add_sum_erase _ _ (Finset.mem_univ k),
      ← Finset.add_sum_erase _ (fun j => ((m j).map (f j)).getD 0) (Finset.mem_univ k), hget,
      update_self, map_none, getD_none, zero_add, map_some,
      getD_some]
    refine congrArg (f k v + ·) (Finset.sum_congr rfl fun j hj => ?_)
    rw [update_of_ne (Finset.ne_of_mem_erase hj)]

/-- A sum over the entries a test passes, taken entry by entry. -/
theorem Lists.foldl_add [Fintype κ] {μ : Type*} [AddCommMonoid μ] (p : κ → Bool)
    (f : ν → μ) : entries.foldl (fun sum entry => if p entry.1 = true then sum + f entry.2 else sum) 0 =
      ∑ k, if p k = true then ((m k).map f).getD 0 else 0 := by
  have hfold : ∀ (l : List (κ × ν)) (sum : μ),
      l.foldl (fun sum entry => if p entry.1 = true then sum + f entry.2 else sum) sum =
        sum + (l.map fun entry => if p entry.1 = true then f entry.2 else 0).sum := by
    intro l
    induction l with
    | nil => exact fun sum => (add_zero sum).symm
    | cons entry l ih =>
      intro sum
      rw [foldl_cons, ih, map_cons, sum_cons]
      split_ifs
      · rw [add_assoc]
      · rw [zero_add]
  rw [hfold, zero_add, h.sum_eq fun k v => if p k = true then f v else 0]
  refine Finset.sum_congr rfl fun k _ => ?_
  cases m k with
  | none => exact (ite_self 0).symm
  | some v => rfl

end

end Order

section Total

variable [Std.Irrefl (α := κ) (· < ·)] [Trans (α := κ) (· < ·) (· < ·) (· < ·)]
  [Std.Trichotomous (α := κ) (· < ·)] {entries : List (κ × ν)} {m : κ → Option ν}

theorem lt_or_eq_or_gt (a b : κ) : a < b ∨ a = b ∨ b < a :=
  Std.Trichotomous.rel_or_eq_or_rel_swap

/-- A key cuts the list : the entries below it, its own if it has one, and those above. -/
theorem Lists.split (h : Lists entries m) (k : κ) :
    ∃ front back, entries = front ++ ((m k).map (Prod.mk k)).toList ++ back ∧
      (∀ entry ∈ front, entry.1 < k) ∧ ∀ entry ∈ back, k < entry.1 := by
  induction entries generalizing m with
  | nil =>
    exact ⟨[], [], by simp [h.eq_none], by simp, by simp⟩
  | cons entry rest ih =>
    obtain ⟨j, u⟩ := entry
    have hhead : ∀ e ∈ rest, j < e.1 := (pairwise_cons.mp h.ascending).1
    have hget : m j = some u := (h.mem j u).mp mem_cons_self
    rcases lt_or_eq_or_gt j k with hlt | rfl | hgt
    · obtain ⟨front, back, hrest, hfront, hback⟩ := ih h.tail
      rw [update_of_ne (ne_of_lt hlt).symm] at hrest
      refine ⟨(j, u) :: front, back, by rw [hrest]; simp, fun e he => ?_, hback⟩
      rcases mem_cons.mp he with rfl | he
      · exact hlt
      · exact hfront e he
    · exact ⟨[], rest, by simp [hget], by simp, hhead⟩
    · have habove : ∀ e ∈ (j, u) :: rest, k < e.1 := by
        intro e he
        rcases mem_cons.mp he with rfl | he
        · exact hgt
        · exact Trans.trans hgt (hhead e he)
      exact ⟨[], (j, u) :: rest, by simp [h.none_of_lt habove], by simp, habove⟩

variable [DecidableLT κ] (f : ν → ν → ν)

/-- A stable sort by key puts elements of distinct keys in ascending order. -/
theorem pairwise_mergeSort_key {α : Type*} {key : α → κ} {l : List α} (h : (l.map key).Nodup) :
    (l.mergeSort fun a b => !decide (key b < key a)).Pairwise fun a b => key a < key b := by
  have hsorted := @List.pairwise_mergeSort α (fun a b => !decide (key b < key a))
    (by
      intro a b c hab hbc
      simp only [Bool.not_eq_true', decide_eq_false_iff_not] at hab hbc ⊢
      intro hca
      rcases lt_or_eq_or_gt (key a) (key b) with hlt | heq | hgt
      · exact hbc (Trans.trans hca hlt)
      · rw [heq] at hca
        exact hbc hca
      · exact hab hgt)
    (by
      intro a b
      by_cases hab : key b < key a
      · simp [show ¬key a < key b from lt_asymm hab]
      · simp [hab])
    l
  have hnodup : (l.mergeSort fun a b => !decide (key b < key a)).Pairwise fun a b => key a ≠ key b :=
    pairwise_map.mp (((mergeSort_perm l _).map key).symm.nodup h)
  refine (hsorted.and hnodup).imp fun {a b} hab => ?_
  have hle : ¬key b < key a := by simpa using hab.1
  rcases lt_or_eq_or_gt (key a) (key b) with hlt | heq | hgt
  · exact hlt
  · exact absurd heq hab.2
  · exact absurd hgt hle

/-- The sorted entries of distinct keys list their map. -/
theorem lists_mergeSort {l : List (κ × ν)} {m : κ → Option ν} (h : (l.map fst).Nodup)
    (hmem : ∀ k v, (k, v) ∈ l ↔ m k = some v) : Lists (l.mergeSort fun a b => !decide (b.1 < a.1)) m :=
  ⟨pairwise_mergeSort_key h, fun k v => by rw [mem_mergeSort, hmem]⟩

/-- Two ascending lists as one, the values of a key in both combined. -/
def mergeWith : List (κ × ν) → List (κ × ν) → List (κ × ν)
  | [], ys => ys
  | xs, [] => xs
  | x :: xs, y :: ys =>
    if x.1 < y.1 then x :: mergeWith xs (y :: ys)
    else if y.1 < x.1 then y :: mergeWith (x :: xs) ys
    else (x.1, f x.2 y.2) :: mergeWith xs ys
termination_by xs ys => xs.length + ys.length

@[simp] theorem mergeWith_nil (xs : List (κ × ν)) : mergeWith f xs [] = xs := by
  cases xs <;> rw [mergeWith]
  simp

/-- The head of a merge : the least key of both, with what they hold there. -/
theorem lists_merge_cons {k : κ} {v : ν} {rest : List (κ × ν)} {m n : κ → Option ν}
    (hrest : Lists rest fun j => merge f (update m k none j) (update n k none j))
    (hm : ∀ j, j ≠ k → m j ≠ none → k < j) (hn : ∀ j, j ≠ k → n j ≠ none → k < j)
    (hget : merge f (m k) (n k) = some v) : Lists ((k, v) :: rest) fun j => merge f (m j) (n j) := by
  have hlt : ∀ entry ∈ rest, k < entry.1 := by
    intro entry hentry
    have hmem := (hrest.mem entry.1 entry.2).mp hentry
    by_cases hne : entry.1 = k
    · simp [hne] at hmem
    · rw [update_of_ne hne, update_of_ne hne] at hmem
      by_cases hin : m entry.1 = none
      · rw [hin, merge_none_left] at hmem
        exact hn entry.1 hne (by simp [hmem])
      · exact hm entry.1 hne hin
  have hput := @lists_put κ ν _ _ _ _ [] rest _ k hrest (by simp) hlt v
  have hmap : update (fun j => merge f (update m k none j)
      (update n k none j)) k (some v) = fun j => merge f (m j) (n j) := by
    ext1 j
    by_cases hj : j = k
    · rw [hj, update_self, hget]
    · rw [update_of_ne hj, update_of_ne hj, update_of_ne hj]
  rwa [hmap] at hput

/-- The merge lists the maps combined. -/
theorem Lists.mergeWith {xs ys : List (κ × ν)} {m n : κ → Option ν} (hxs : Lists xs m)
    (hys : Lists ys n) : Lists (mergeWith f xs ys) fun k => merge f (m k) (n k) := by
  induction xs, ys using mergeWith.induct generalizing m n with
  | case1 ys => simpa [FiniteMap.mergeWith, hxs.eq_none] using hys
  | case2 xs _ => simpa [hys.eq_none] using hxs
  | case3 x xs y ys hlt ih =>
    have habove : ∀ j, j ≠ x.1 → n j ≠ none → x.1 < j := by
      intro j _ hj
      by_cases hjy : j = y.1
      · rwa [hjy]
      · exact Trans.trans hlt (hys.head_lt hjy hj)
    have hnone : n x.1 = none := by
      by_contra hsome
      exact Std.Irrefl.irrefl _ (Trans.trans hlt (hys.head_lt (ne_of_lt hlt) hsome))
    rw [FiniteMap.mergeWith, if_pos hlt]
    refine lists_merge_cons f ?_ (fun j hne hj => hxs.head_lt hne hj) habove ?_
    · have hsame : update n x.1 none = n := by rw [← hnone, update_eq_self]
      rw [hsame]
      exact ih hxs.tail hys
    · rw [hnone, (hxs.mem x.1 x.2).mp mem_cons_self, merge_none_right]
  | case4 x xs y ys hge hlt ih =>
    have habove : ∀ j, j ≠ y.1 → m j ≠ none → y.1 < j := by
      intro j _ hj
      by_cases hjx : j = x.1
      · rwa [hjx]
      · exact Trans.trans hlt (hxs.head_lt hjx hj)
    have hnone : m y.1 = none := by
      by_contra hsome
      exact Std.Irrefl.irrefl _ (Trans.trans hlt (hxs.head_lt (ne_of_lt hlt) hsome))
    rw [FiniteMap.mergeWith, if_neg hge, if_pos hlt]
    refine lists_merge_cons f ?_ habove (fun j hne hj => hys.head_lt hne hj) ?_
    · have hsame : update m y.1 none = m := by rw [← hnone, update_eq_self]
      rw [hsame]
      exact ih hxs hys.tail
    · rw [hnone, (hys.mem y.1 y.2).mp mem_cons_self, merge_none_left]
  | case5 x xs y ys hge hle ih =>
    have heq : x.1 = y.1 := by
      rcases lt_or_eq_or_gt x.1 y.1 with h | h | h
      · exact absurd h hge
      · exact h
      · exact absurd h hle
    rw [FiniteMap.mergeWith, if_neg hge, if_neg hle]
    refine lists_merge_cons f ?_ (fun j hne hj => hxs.head_lt hne hj) ?_ ?_
    · have hys' := hys.tail
      rw [← heq] at hys'
      exact ih hxs.tail hys'
    · intro j hne hj
      rw [heq] at hne ⊢
      exact hys.head_lt hne hj
    · have hget := (hys.mem y.1 y.2).mp mem_cons_self
      rw [← heq] at hget
      rw [hget, (hxs.mem x.1 x.2).mp mem_cons_self, merge_some_some]

/-- Keys can be selected before or after a merge. -/
theorem Lists.mergeWith_filter {xs ys : List (κ × ν)} {m n : κ → Option ν} (hxs : Lists xs m)
    (hys : Lists ys n) (p : κ → Bool) :
    FiniteMap.mergeWith f (xs.filter fun e => p e.1) (ys.filter fun e => p e.1) =
      (FiniteMap.mergeWith f xs ys).filter fun e => p e.1 := by
  have hafter := (hxs.mergeWith f hys).restrict p
  have hmap : (fun k => if p k = true then merge f (m k) (n k) else none) =
      fun k => merge f (if p k = true then m k else none) (if p k = true then n k else none) := by
    ext1 k
    split_ifs
    · rfl
    · rfl
  rw [hmap] at hafter
  exact ((hxs.restrict p).mergeWith f (hys.restrict p)).unique hafter

end Total

/-! ## Slots -/

/-- The occupied slots of an array, in order, list the map it is. -/
theorem lists_slots {ν : Type*} {w n : Nat} (hn : n ≤ 2 ^ w) (f : Nat → Option ν) :
    Lists ((List.range n).filterMap fun i => (f i).map (mk (BitVec.ofNat w i)))
      fun k => if k.toNat < n then f k.toNat else none := by
  have hword : ∀ i, i < n → (BitVec.ofNat w i).toNat = i := by
    intro i hi
    rw [BitVec.toNat_ofNat, Nat.mod_eq_of_lt (by omega)]
  refine ⟨?_, fun k v => ?_⟩
  · rw [pairwise_filterMap]
    refine pairwise_lt_range.imp_of_mem fun {i j} hi hj hij a ha b hb => ?_
    obtain ⟨_, _, rfl⟩ := map_eq_some_iff.mp ha
    obtain ⟨_, _, rfl⟩ := map_eq_some_iff.mp hb
    rw [BitVec.lt_def, hword i (mem_range.mp hi), hword j (mem_range.mp hj)]
    exact hij
  · rw [mem_filterMap]
    constructor
    · rintro ⟨i, hi, hentry⟩
      obtain ⟨u, hu, heq⟩ := map_eq_some_iff.mp hentry
      obtain ⟨rfl, rfl⟩ := mk.inj heq
      rw [hword i (mem_range.mp hi), if_pos (mem_range.mp hi), hu]
    · intro hget
      split_ifs at hget with hlt
      exact ⟨k.toNat, mem_range.mpr hlt, by rw [hget]; simp⟩

end Oxpinyin.FiniteMap
