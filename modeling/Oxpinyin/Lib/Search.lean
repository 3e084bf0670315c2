import Mathlib.Data.List.Basic
import Mathlib.Tactic.Common

/-!
# Binary search

The binary search of the standard library and the partition point read from it. The answer
on a list that the comparison does not partition is whatever the halving meets. On a list
that it does, `partitionPoint_append` and `binarySearchBy_spec` give the answer. `bisect` is the
search by two bounds that code without the library writes.
-/

namespace Oxpinyin.Search

open List

variable {α : Type*}

/-- The halving : `size` elements from `base` on are left. -/
def halve (cmp : α → Ordering) (l : List α) : Nat → Nat → Nat → Nat
  | 0, _, base => base
  | fuel + 1, size, base =>
    if size ≤ 1 then base
    else
      let mid := base + size / 2
      halve cmp l fuel (size - size / 2) (if (l[mid]?).any (cmp · == .gt) then base else mid)

/-- `binary_search_by` : the index of an equal element, or where one would be put. -/
def binarySearchBy (cmp : α → Ordering) (l : List α) : Except Nat Nat :=
  let base := halve cmp l l.length l.length 0
  match l[base]? with
  | none => .error 0
  | some x =>
    match cmp x with
    | .eq => .ok base
    | .lt => .error (base + 1)
    | .gt => .error base

/-- `partition_point` : where the elements that satisfy `p` end. -/
def partitionPoint (p : α → Bool) (l : List α) : Nat :=
  match binarySearchBy (fun x => if p x then .lt else .gt) l with
  | .ok i => i
  | .error i => i

section Partitioned

variable {cmp : α → Ordering} {front back : List α}

/-- The halving ends on the last element that is not above, or on the first. -/
theorem halve_eq (hfront : ∀ x ∈ front, cmp x ≠ .gt) (hback : ∀ x ∈ back, cmp x = .gt) :
    ∀ (fuel size base : Nat), size ≤ fuel + 1 → 1 ≤ size → base + size ≤ (front ++ back).length →
      (base = 0 ∨ base < front.length) → front.length ≤ base + size →
      halve cmp (front ++ back) fuel size base = front.length - 1
  | 0, size, base, hfuel, hsize, hin, hbase, hlast => by
    unfold halve
    omega
  | fuel + 1, size, base, hfuel, hsize, hin, hbase, hlast => by
    unfold halve
    split_ifs with hone
    · omega
    · have hmid : base + size / 2 < (front ++ back).length := by omega
      rcases Nat.lt_or_ge (base + size / 2) front.length with hlt | hge
      · have hget : ((front ++ back)[base + size / 2]?).any (cmp · == .gt) = false := by
          rw [getElem?_append_left hlt, getElem?_eq_getElem hlt]
          simpa using hfront _ (getElem_mem hlt)
        dsimp only
        rw [hget, if_neg Bool.false_ne_true]
        exact halve_eq hfront hback fuel _ _ (by omega) (by omega) (by omega) (Or.inr hlt) (by omega)
      · have hget : ((front ++ back)[base + size / 2]?).any (cmp · == .gt) = true := by
          have hin' : base + size / 2 - front.length < back.length := by
            rw [length_append] at hmid
            omega
          rw [getElem?_append_right hge, getElem?_eq_getElem hin']
          simpa using hback _ (getElem_mem hin')
        dsimp only
        rw [hget, if_pos rfl]
        exact halve_eq hfront hback fuel _ _ (by omega) (by omega) (by omega) hbase (by omega)

/-- A search among elements below, at most one equal and those above it. -/
theorem binarySearchBy_spec {below : List α} {equal : Option α} {above : List α}
    (hbelow : ∀ x ∈ below, cmp x = .lt) (hequal : ∀ x ∈ equal, cmp x = .eq) (habove : ∀ x ∈ above, cmp x = .gt) :
    binarySearchBy cmp (below ++ equal.toList ++ above) =
      if equal.isSome then .ok below.length else .error below.length := by
  have hfront : ∀ x ∈ below ++ equal.toList, cmp x ≠ .gt := by
    intro x hx
    rcases mem_append.mp hx with hx | hx
    · rw [hbelow x hx]
      simp
    · rw [hequal x (by simpa using hx)]
      simp
  have hhalve : below ++ equal.toList ++ above ≠ [] →
      halve cmp (below ++ equal.toList ++ above) (below ++ equal.toList ++ above).length
        (below ++ equal.toList ++ above).length 0 = (below ++ equal.toList).length - 1 := by
    intro hne
    have hpos := length_pos_iff.mpr hne
    refine halve_eq hfront habove _ _ _ (by omega) (by omega) (by omega) (Or.inl rfl) ?_
    simp only [length_append]
    omega
  unfold binarySearchBy
  cases equal with
  | some x =>
    have hget : (below ++ (some x).toList ++ above)[below.length]? = some x := by simp
    rw [hhalve (by simp)]
    simp only [Option.toList_some, length_append, length_singleton, Nat.add_sub_cancel]
    rw [Option.toList_some] at hget
    rw [hget]
    simp [hequal x rfl]
  | none =>
    simp only [Option.toList_none, append_nil, Option.isSome_none, Bool.false_eq_true, if_false] at hhalve ⊢
    cases hlist : below ++ above with
    | nil =>
      have : below = [] := (append_eq_nil_iff.mp hlist).1
      simp [this, halve]
    | cons x rest =>
      rw [hlist] at hhalve
      rw [hhalve (by simp), ← hlist]
      rcases eq_nil_or_concat below with rfl | ⟨init, last, rfl⟩
      · have hx : x ∈ above := by
          rw [nil_append] at hlist
          rw [hlist]
          exact mem_cons_self
        rw [hlist]
        simp [habove x hx]
      · have hlast : cmp last = .lt := hbelow last (by simp)
        simp [hlast]

theorem partitionPoint_append {p : α → Bool} (hfront : ∀ x ∈ front, p x = true)
    (hback : ∀ x ∈ back, p x = false) : partitionPoint p (front ++ back) = front.length := by
  have hsearch := @binarySearchBy_spec _ (fun x => if p x then .lt else .gt) front none back
    (fun x hx => by simp [hfront x hx]) (fun x hx => by simp at hx)
    (fun x hx => by simp [hback x hx])
  rw [Option.toList_none, append_nil] at hsearch
  rw [partitionPoint, hsearch]
  rfl

end Partitioned

/-! ## Lists a test cuts in two -/

section Cut

variable {p : α → Bool} {l : List α}

section

variable (h : l.Pairwise fun a b => p b = true → p a = true)
include h

/-- Where a later element passes only if the earlier do, a prefix is what passes. -/
theorem takeWhile_eq_filter : l.takeWhile p = l.filter p := by
  induction l with
  | nil => rfl
  | cons x rest ih =>
    obtain ⟨hhead, hrest⟩ := pairwise_cons.mp h
    cases hx : p x with
    | true => rw [takeWhile_cons_of_pos hx, filter_cons_of_pos hx, ih hrest]
    | false =>
      have hnone : rest.filter p = [] := by
        refine filter_eq_nil_iff.mpr fun y hy hp => ?_
        rw [hhead y hy hp] at hx
        cases hx
      rw [takeWhile_cons_of_neg (by simp [hx]), filter_cons_of_neg (by simp [hx]), hnone]

theorem dropWhile_eq_filter : l.dropWhile p = l.filter fun x => !p x := by
  induction l with
  | nil => rfl
  | cons x rest ih =>
    obtain ⟨hhead, hrest⟩ := pairwise_cons.mp h
    cases hx : p x with
    | true => rw [dropWhile_cons_of_pos hx, filter_cons_of_neg (by simp [hx]), ih hrest]
    | false =>
      have hall : rest.filter (fun y => !p y) = rest := by
        refine filter_eq_self.mpr fun y hy => ?_
        cases hp : p y with
        | false => rfl
        | true =>
          rw [hhead y hy hp] at hx
          cases hx
      rw [dropWhile_cons_of_neg (by simp [hx]), filter_cons_of_pos (by simp [hx]), hall]

/-- The partition point is where the two parts meet. -/
theorem partitionPoint_cut :
    partitionPoint p l = (l.takeWhile p).length ∧
      l = l.takeWhile p ++ l.filter fun x => !p x := by
  have hcut : l = l.takeWhile p ++ l.filter fun x => !p x := by
    rw [← dropWhile_eq_filter h, takeWhile_append_dropWhile]
  refine ⟨?_, hcut⟩
  have hpart := @partitionPoint_append _ (l.takeWhile p) (l.filter fun x => !p x) p
    (all_eq_true.mp all_takeWhile) fun x hx => by simpa using (mem_filter.mp hx).2
  rwa [← hcut] at hpart

end

/-- A list whose later elements are never before the earlier, by their order against a key, is
the elements below it, those equal to it and those above. -/
theorem exists_parts {c : α → Ordering} (hlt : l.Pairwise fun a b => c b = .lt → c a = .lt)
    (hgt : l.Pairwise fun a b => c a = .gt → c b = .gt) :
    ∃ below equal above, l = below ++ equal ++ above ∧ (∀ x ∈ below, c x = .lt) ∧
      (∀ x ∈ equal, c x = .eq) ∧ ∀ x ∈ above, c x = .gt := by
  induction l with
  | nil => exact ⟨[], [], [], rfl, by simp, by simp, by simp⟩
  | cons x rest ih =>
    obtain ⟨hltHead, hltRest⟩ := pairwise_cons.mp hlt
    obtain ⟨hgtHead, hgtRest⟩ := pairwise_cons.mp hgt
    obtain ⟨below, equal, above, rfl, hbelow, hequal, habove⟩ := ih hltRest hgtRest
    cases hx : c x with
    | lt => exact ⟨x :: below, equal, above, rfl, forall_mem_cons.mpr ⟨hx, hbelow⟩, hequal, habove⟩
    | eq =>
      have hnone : below = [] := eq_nil_iff_forall_not_mem.mpr fun y hy => by
        have hy' := hltHead y (by simp [hy]) (hbelow y hy)
        rw [hx] at hy'
        cases hy'
      subst hnone
      exact ⟨[], x :: equal, above, rfl, by simp, forall_mem_cons.mpr ⟨hx, hequal⟩, habove⟩
    | gt =>
      have hnone : below ++ equal = [] := eq_nil_iff_forall_not_mem.mpr fun y hy => by
        have hy' := hgtHead y (mem_append_left _ hy) hx
        rcases mem_append.mp hy with hy | hy
        · rw [hbelow y hy] at hy'
          cases hy'
        · rw [hequal y hy] at hy'
          cases hy'
      rw [hnone]
      exact ⟨[], [], x :: above, rfl, by simp, by simp, forall_mem_cons.mpr ⟨hx, habove⟩⟩

/-- Neighbours related all along, for a transitive relation. -/
theorem all_zip_tail_iff {r : α → α → Prop} [DecidableRel r] (htrans : ∀ a b c, r a b → r b c → r a c) :
    ∀ l : List α, ((l.zip l.tail).all fun pair => decide (r pair.1 pair.2)) = true ↔ l.Pairwise r
  | [] => by simp
  | [x] => by simp
  | x :: y :: rest => by
    have ih := all_zip_tail_iff htrans (y :: rest)
    rw [tail_cons, zip_cons_cons, all_cons, Bool.and_eq_true, decide_eq_true_eq, pairwise_cons, ← ih]
    refine and_congr_left fun hrest => ⟨fun hxy z hz => ?_, fun h => h y mem_cons_self⟩
    rcases mem_cons.mp hz with rfl | hz
    · exact hxy
    · exact htrans x y z hxy ((pairwise_cons.mp (ih.mp hrest)).1 z hz)

end Cut

theorem halve_map {β : Type*} (cmp : β → Ordering) (f : α → β) (l : List α) :
    ∀ fuel size base, halve cmp (l.map f) fuel size base = halve (cmp ∘ f) l fuel size base
  | 0, _, _ => rfl
  | fuel + 1, size, base => by
    have hget : ∀ i : Nat, ((l.map f)[i]?).any (cmp · == .gt) = (l[i]?).any fun x => cmp (f x) == .gt := by
      intro i
      rw [getElem?_map]
      cases l[i]? <;> rfl
    unfold halve
    split_ifs
    · rfl
    · dsimp only
      rw [hget, halve_map cmp f l fuel]
      rfl

theorem binarySearchBy_map {β : Type*} (cmp : β → Ordering) (f : α → β) (l : List α) :
    binarySearchBy cmp (l.map f) = binarySearchBy (cmp ∘ f) l := by
  unfold binarySearchBy
  rw [length_map, halve_map]
  dsimp only
  rw [getElem?_map]
  cases l[halve (cmp ∘ f) l l.length l.length 0]? with
  | none => rfl
  | some x => rfl

theorem partitionPoint_map {β : Type*} (p : β → Bool) (f : α → β) (l : List α) :
    partitionPoint p (l.map f) = partitionPoint (p ∘ f) l := by
  unfold partitionPoint
  rw [binarySearchBy_map]
  rfl

/-! ## Two bounds -/

/-- The first index between two bounds that is not below, by halving. -/
def bisect (below : Nat → Bool) (low high : Nat) : Nat :=
  if low < high then
    let middle := low + (high - low) / 2
    if below middle then bisect below (middle + 1) high else bisect below low middle
  else low
termination_by high - low

/-- The search ends where what is below does. -/
theorem bisect_eq {below : Nat → Bool} {k : Nat} (hbelow : ∀ i < k, below i = true)
    (habove : ∀ i, k ≤ i → below i = false) : ∀ (n low high : Nat), high - low = n → low ≤ k → k ≤ high →
      bisect below low high = k := by
  intro n
  induction n using Nat.strongRecOn with
  | ind n ih =>
    intro low high hn hlow hhigh
    rw [bisect]
    by_cases hlt : low < high
    · rw [if_pos hlt]
      dsimp only
      cases hmiddle : below (low + (high - low) / 2) with
      | true =>
        have hle : low + (high - low) / 2 < k := by
          by_contra hge
          rw [habove _ (Nat.le_of_not_lt hge)] at hmiddle
          cases hmiddle
        rw [if_pos rfl]
        exact ih _ (by omega) _ _ rfl (by omega) hhigh
      | false =>
        have hge : k ≤ low + (high - low) / 2 := by
          by_contra hlt
          rw [hbelow _ (Nat.lt_of_not_le hlt)] at hmiddle
          cases hmiddle
        rw [if_neg Bool.false_ne_true]
        exact ih _ (by omega) _ _ rfl hlow hge
    · rw [if_neg hlt]
      omega

end Oxpinyin.Search
