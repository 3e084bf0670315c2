import Mathlib.Algebra.BigOperators.Intervals
import Mathlib.Algebra.BigOperators.Ring.Finset
import Mathlib.Tactic.Ring

/-!
# Cutting an interval into labelled blocks

`label c l` is the label of the block of length `l` at `c`, if that block is allowed.
A `Cut` of `[c, t)` is a sequence of adjacent blocks from `c` to `t`. `cuts` lists
them longest block first, for blocks of length at most `N`, and `mem_cuts`,
`pairwise_cuts` and `nodup_cuts` say the list is the set of cuts in that order.

The number of cuts can be computed from either end : `length_cuts_eq_sum` splits off
the first block and `length_cuts_eq_sum_last` the last one. Counters that stop at a
cap compute `min cap` of these sums (`cappedAdd`).
-/

open List Finset

namespace Oxpinyin.Cuts

variable {β : Type*}

/-! ## Cuts and their enumeration -/

variable {stop : β → Nat} {label' : Nat → Nat → Option β}

variable {n c t N : Nat} {bs : List β}

/-- Block lengths `n, n - 1, …, 1`. -/
def longestFirst (n : Nat) : List Nat :=
  (List.range' 1 n).reverse

@[simp] theorem mem_longestFirst {l : Nat} : l ∈ longestFirst n ↔ 1 ≤ l ∧ l ≤ n := by
  simp only [longestFirst, mem_reverse, mem_range'_1]
  omega

theorem longestFirst_zero : longestFirst 0 = [] := rfl

theorem longestFirst_succ (n : Nat) : longestFirst (n + 1) = (n + 1) :: longestFirst n := by
  simp [longestFirst, range'_concat, Nat.add_comm]

/-- The first length found is the longest one. -/
theorem find?_longestFirst (p : Nat → Bool) : ∀ (n : Nat),
    (∀ l, 0 < l → l ≤ n → p l = true → l ≤ ((longestFirst n).find? p).getD 0) ∧
    (((longestFirst n).find? p).getD 0 = 0 ∨
      ((longestFirst n).find? p).getD 0 ≤ n ∧ p (((longestFirst n).find? p).getD 0) = true)
  | 0 => ⟨fun l hl hn _ => by omega, Or.inl rfl⟩
  | n + 1 => by
    obtain ⟨hmax, hfound⟩ := find?_longestFirst p n
    rw [longestFirst_succ, find?_cons]
    cases hp : p (n + 1) with
    | true => exact ⟨fun l _ hl _ => hl, Or.inr ⟨le_refl _, hp⟩⟩
    | false =>
      refine ⟨fun l hl hn hpl => ?_, hfound.imp id fun h => ⟨Nat.le_succ_of_le h.1, h.2⟩⟩
      rcases Nat.lt_or_ge n l with hlt | hge
      · obtain rfl : l = n + 1 := by omega
        rw [hp] at hpl
        cases hpl
      · exact hmax l hl hge hpl

variable (label : Nat → Nat → Option β)

/-- Adjacent labelled blocks from `c` to `t`. -/
inductive Cut : Nat → Nat → List β → Prop
  | nil (c : Nat) : Cut c c []
  | cons {c l t b bs} : 0 < l → label c l = some b → Cut (c + l) t bs → Cut c t (b :: bs)

/-- The cuts of `[c, t)` into blocks of length at most `N`, longest block first. -/
def cuts (N t c : Nat) : List (List β) :=
  if c = t then [[]]
  else (longestFirst (min N (t - c))).attach.flatMap fun ⟨l, _⟩ =>
    match label c l with
    | some b => (cuts N t (c + l)).map (b :: ·)
    | none => []
termination_by t - c
decreasing_by
  rename_i hl
  rw [mem_longestFirst] at hl
  omega

variable {label}

theorem Cut.le (h : Cut label c t bs) : c ≤ t := by
  induction h with
  | nil c => exact le_refl c
  | cons hl _ _ ih => omega

/-- Blocks whose labels tell where they end do so one behind the other. -/
theorem Cut.ascending (hstop : ∀ m l b, label m l = some b → stop b = m + l)
    (h : Cut label c t bs) : (bs.Pairwise fun b later => stop b < stop later) ∧ ∀ b ∈ bs, c < stop b ∧
    stop b ≤ t := by
  induction h with
  | nil c => exact ⟨.nil, forall_mem_nil _⟩
  | @cons c l t b bs hl hb hrest ih =>
    obtain ⟨hascending, hends⟩ := ih
    have hb := hstop c l b hb
    have hle := hrest.le
    refine ⟨pairwise_cons.mpr ⟨fun later hlater => ?_, hascending⟩,
      forall_mem_cons.mpr ⟨by omega, fun later hlater => ?_⟩⟩
    · rw [hb]
      exact (hends later hlater).1
    · obtain ⟨hlow, hhigh⟩ := hends later hlater
      omega

/-- Blocks whose labels tell where they begin do so where the one before ends. -/
theorem Cut.contiguous {start : β → Nat} (hstart : ∀ m l b, label m l = some b → start b = m)
    (hstop : ∀ m l b, label m l = some b → stop b = m + l) (h : Cut label c t bs) :
    (∀ b, bs[0]? = some b → start b = c) ∧
      ∀ i b later, bs[i]? = some b → bs[i + 1]? = some later → start later = stop b := by
  induction h with
  | nil c => simp
  | @cons c l t b bs hl hb hrest ih =>
    obtain ⟨hfirst, hnext⟩ := ih
    refine ⟨fun first hhead => ?_, fun i before later hbefore hlater => ?_⟩
    · obtain rfl := Option.some.inj hhead
      exact hstart c l _ hb
    · cases i with
      | zero =>
        obtain rfl := Option.some.inj hbefore
        rw [hfirst later hlater, hstop c l _ hb]
      | succ i => exact hnext i before later hbefore hlater

theorem Cut.append {c m t : Nat} {bs bs' : List β} (h : Cut label c m bs)
    (h' : Cut label m t bs') : Cut label c t (bs ++ bs') := by
  induction h with
  | nil c => exact h'
  | cons hl hb _ ih => exact .cons hl hb (ih h')

theorem cuts_self (N t : Nat) : cuts label N t t = [[]] := by
  rw [cuts, if_pos rfl]

/-- The cuts of `[c, t)` whose first block has length at most `n`. -/
def cutsBelow (label : Nat → Nat → Option β) (N t c n : Nat) : List (List β) :=
  (longestFirst n).flatMap fun l =>
    match label c l with
    | some b => (cuts label N t (c + l)).map (b :: ·)
    | none => []

theorem cuts_of_ne (h : c ≠ t) : cuts label N t c = cutsBelow label N t c (min N (t - c)) := by
  rw [cuts, if_neg h, flatMap_subtype (fun _ _ => rfl), unattach_attach]
  rfl

theorem cutsBelow_succ_of_some {b : β} (h : label c (n + 1) = some b) :
    cutsBelow label N t c (n + 1) =
      (cuts label N t (c + (n + 1))).map (b :: ·) ++ cutsBelow label N t c n := by
  simp only [cutsBelow, longestFirst_succ, flatMap_cons, h]

theorem cutsBelow_succ_of_none (h : label c (n + 1) = none) :
    cutsBelow label N t c (n + 1) = cutsBelow label N t c n := by
  simp only [cutsBelow, longestFirst_succ, flatMap_cons, h, nil_append]

/-- Labelled blocks have length at most `N`. -/
def Bounded (label : Nat → Nat → Option β) (N : Nat) : Prop :=
  ∀ {c l b}, label c l = some b → l ≤ N

/-- `cuts` lists exactly the cuts. -/
theorem mem_cuts (hN : Bounded label N) : bs ∈ cuts label N t c ↔ Cut label c t bs := by
  induction hk : t - c using Nat.strongRecOn generalizing c bs with
  | ind k ih =>
    subst hk
    by_cases hct : c = t
    · subst hct
      rw [cuts_self, List.mem_singleton]
      constructor
      · rintro rfl
        exact .nil c
      · rintro (_ | ⟨hl, _, hrest⟩)
        · rfl
        · have := hrest.le
          omega
    · rw [cuts_of_ne hct, cutsBelow, mem_flatMap]
      constructor
      · rintro ⟨l, hl, hbs⟩
        rw [mem_longestFirst] at hl
        split at hbs
        · rename_i b hb
          obtain ⟨rest, hrest, rfl⟩ := mem_map.mp hbs
          exact .cons hl.1 hb ((ih _ (by omega) rfl).mp hrest)
        · simp at hbs
      · rintro (_ | ⟨hl, hb, hrest⟩)
        · exact absurd rfl hct
        · rename_i l b rest
          have hle := hrest.le
          have hlN := hN hb
          refine ⟨l, mem_longestFirst.mpr (by omega), ?_⟩
          rw [hb]
          exact mem_map_of_mem ((ih _ (by omega) rfl).mpr hrest)

theorem Cut.imp
    (h : Cut label c t bs) (hlabel : ∀ {m l b}, label m l = some b → label' m l = some b) : Cut label' c t bs := by
  induction h with
  | nil c => exact .nil c
  | cons hl hb _ ih => exact .cons hl (hlabel hb) ih

/-- Only the blocks inside `[c, t)` matter. -/
theorem cuts_congr
    (hlabel : ∀ m l, m + l ≤ t → label m l = label' m l) (hc : c ≤ t) : cuts label N t c = cuts label' N t c := by
  induction hk : t - c using Nat.strongRecOn generalizing c with
  | ind k ih =>
    subst hk
    by_cases hct : c = t
    · subst hct
      rw [cuts_self, cuts_self]
    · rw [cuts_of_ne hct, cuts_of_ne hct, cutsBelow, cutsBelow]
      refine flatMap_congr fun l hl => ?_
      rw [mem_longestFirst] at hl
      rw [hlabel c l (by omega), ih _ (by omega) (by omega : c + l ≤ t) rfl]

/-! ## Order -/

variable {size : β → Nat} {p q : List β}

/-- At the first block where they differ, `p` has the longer one. -/
def LongestFirst (size : β → Nat) (p q : List β) : Prop :=
  ∃ front a b p' q', p = front ++ a :: p' ∧ q = front ++ b :: q' ∧ size b < size a

theorem LongestFirst.append_left (h : LongestFirst size p q)
    (front : List β) : LongestFirst size (front ++ p) (front ++ q) := by
  obtain ⟨mid, a, b, p', q', rfl, rfl, hlt⟩ := h
  exact ⟨front ++ mid, a, b, p', q', by simp, by simp, hlt⟩

theorem LongestFirst.append_right (h : LongestFirst size p q) (x y : List β) :
    LongestFirst size (p ++ x) (q ++ y) := by
  obtain ⟨front, a, b, p', q', rfl, rfl, hlt⟩ := h
  exact ⟨front, a, b, p' ++ x, q' ++ y, by simp, by simp, hlt⟩

theorem LongestFirst.ne (h : LongestFirst size p q) : p ≠ q := by
  obtain ⟨front, a, b, p', q', rfl, rfl, hlt⟩ := h
  intro heq
  have hcons := append_cancel_left heq
  rw [(cons.inj hcons).1] at hlt
  exact lt_irrefl _ hlt

/-- The enumeration is in longest-first lexicographic order. -/
theorem pairwise_cuts (hsize : ∀ {c l b}, label c l = some b → size b = l)
    (N t c : Nat) : (cuts label N t c).Pairwise (LongestFirst size) := by
  induction hk : t - c using Nat.strongRecOn generalizing c with
  | ind k ih =>
    subst hk
    by_cases hct : c = t
    · subst hct
      rw [cuts_self]
      exact pairwise_singleton _ _
    · rw [cuts_of_ne hct, cutsBelow, pairwise_flatMap]
      constructor
      · intro l hl
        rw [mem_longestFirst] at hl
        split
        · rename_i b hb
          rw [pairwise_map]
          exact (ih _ (by omega) _ rfl).imp fun h => h.append_left [b]
        · exact List.Pairwise.nil
      · refine pairwise_reverse.mpr ((pairwise_lt_range' _ (by omega)).imp ?_)
        intro l m hlm x hx y hy
        split at hx
        · split at hy
          · rename_i a ha _ b hb
            obtain ⟨x', _, rfl⟩ := mem_map.mp hx
            obtain ⟨y', _, rfl⟩ := mem_map.mp hy
            exact ⟨[], a, b, x', y', rfl, rfl, by rw [hsize ha, hsize hb]; exact hlm⟩
          · simp at hy
        · simp at hx

theorem nodup_of_longestFirst {l : List (List β)} (h : l.Pairwise (LongestFirst size)) : l.Nodup :=
  h.imp LongestFirst.ne

/-- Following every sequence of one list by every sequence of another keeps the order. -/
theorem pairwise_product {left right : List (List β)}
    (hl : left.Pairwise (LongestFirst size)) (hr : right.Pairwise (LongestFirst size)) :
    (left.flatMap fun p => right.map fun q => p ++ q).Pairwise (LongestFirst size) := by
  rw [pairwise_flatMap]
  constructor
  · intro p _
    rw [pairwise_map]
    exact hr.imp fun h => h.append_left p
  · refine hl.imp fun h x hx y hy => ?_
    obtain ⟨x', _, rfl⟩ := mem_map.mp hx
    obtain ⟨y', _, rfl⟩ := mem_map.mp hy
    exact h.append_right x' y'

theorem length_product (left right : List (List β)) :
    (left.flatMap fun p => right.map fun q => p ++ q).length = left.length * right.length := by
  simp [length_flatMap]

/-! ## Counting -/

/-- Whether a block is allowed, as a number. -/
def weight (label : Nat → Nat → Option β) (c l : Nat) : Nat :=
  if (label c l).isSome then 1 else 0

theorem sum_longestFirst (f : Nat → Nat) (n : Nat) : ((longestFirst n).map f).sum = ∑ l ∈ Ico 1 (n + 1), f l := by
  induction n with
  | zero => simp [longestFirst_zero]
  | succ n ih =>
    rw [longestFirst_succ, List.map_cons, List.sum_cons, ih, sum_Ico_succ_top (by omega : 1 ≤ n + 1), add_comm]

/-- Counting by the first block, in the order the enumeration tries them. -/
theorem length_cuts_of_ne (h : c ≠ t) :
    (cuts label N t c).length = ((longestFirst (min N (t - c))).map fun l =>
      weight label c l * (cuts label N t (c + l)).length).sum := by
  rw [cuts_of_ne h, cutsBelow, length_flatMap]
  congr 1
  refine map_congr_left fun l _ => ?_
  unfold weight
  cases label c l <;> simp

/-- The number of cuts depends only on which blocks are allowed. -/
theorem length_cuts_congr {γ : Type*} {label' : Nat → Nat → Option γ}
    (hlabel : ∀ m l, (label m l).isSome = (label' m l).isSome) (c : Nat) :
    (cuts label N t c).length = (cuts label' N t c).length := by
  induction hk : t - c using Nat.strongRecOn generalizing c with
  | ind k ih =>
    subst hk
    by_cases hct : c = t
    · subst hct
      rw [cuts_self, cuts_self]
      rfl
    · rw [length_cuts_of_ne hct, length_cuts_of_ne hct]
      congr 1
      refine map_congr_left fun l hl => ?_
      rw [mem_longestFirst] at hl
      rw [weight, weight, hlabel c l, ih _ (by omega) (c + l) rfl]

/-- The number of cuts, split by the first block. -/
theorem length_cuts_eq_sum (hN : Bounded label N) (h : c < t) :
    (cuts label N t c).length =
      ∑ l ∈ Ico 1 (t - c + 1), weight label c l * (cuts label N t (c + l)).length := by
  rw [length_cuts_of_ne (by omega), sum_longestFirst]
  refine sum_subset (fun l hl => ?_) fun l hl hnot => ?_
  · simp only [mem_Ico] at hl ⊢
    omega
  · simp only [mem_Ico] at hl hnot
    have hnone : label c l = none := by
      by_contra hsome
      obtain ⟨b, hb⟩ := Option.ne_none_iff_exists'.mp hsome
      have := hN hb
      omega
    simp [weight, hnone]

/-- The number of cuts, split by the last block. -/
theorem length_cuts_eq_sum_last (hN : Bounded label N) (h : c < t) :
    (cuts label N t c).length =
      ∑ m ∈ Ico c t, weight label m (t - m) * (cuts label N m c).length := by
  induction hk : t - c using Nat.strongRecOn generalizing c with
  | ind k ih =>
    subst hk
    have hfirst : ∀ l ∈ Finset.Ico 1 (t - c), weight label c l * (cuts label N t (c + l)).length =
        ∑ m ∈ Ico (c + l) t, weight label c l *
          (weight label m (t - m) * (cuts label N m (c + l)).length) := by
      intro l hl
      rw [mem_Ico] at hl
      rw [ih (t - (c + l)) (by omega) (by omega) rfl, mul_sum]
    have hlast : ∀ m ∈ Finset.Ico (c + 1) t, weight label m (t - m) * (cuts label N m c).length =
        ∑ l ∈ Ico 1 (m - c + 1), weight label c l *
          (weight label m (t - m) * (cuts label N m (c + l)).length) := by
      intro m hm
      rw [mem_Ico] at hm
      rw [length_cuts_eq_sum hN (by omega : c < m), mul_sum]
      exact sum_congr rfl fun l _ => by ring
    have hswap : ∑ l ∈ Ico 1 (t - c), ∑ m ∈ Ico (c + l) t, weight label c l *
          (weight label m (t - m) * (cuts label N m (c + l)).length) =
        ∑ m ∈ Ico (c + 1) t, ∑ l ∈ Ico 1 (m - c + 1), weight label c l *
          (weight label m (t - m) * (cuts label N m (c + l)).length) :=
      sum_comm' fun l m => by simp only [mem_Ico]; omega
    have hct : c + (t - c) = t := by omega
    calc (cuts label N t c).length
        = ∑ l ∈ Ico 1 (t - c), weight label c l * (cuts label N t (c + l)).length +
            weight label c (t - c) * (cuts label N t (c + (t - c))).length := by
          rw [length_cuts_eq_sum hN h, sum_Ico_succ_top (by omega : 1 ≤ t - c)]
      _ = ∑ m ∈ Ico (c + 1) t, weight label m (t - m) * (cuts label N m c).length +
            weight label c (t - c) * (cuts label N c c).length := by
          rw [sum_congr rfl hfirst, hswap, ← sum_congr rfl hlast, hct, cuts_self, cuts_self]
      _ = ∑ m ∈ Ico c t, weight label m (t - m) * (cuts label N m c).length := by
          rw [sum_eq_sum_Ico_succ_bot h, add_comm]

/-! ## Counters that stop at a cap -/

theorem min_add_min (cap a b : Nat) : min cap (min cap a + min cap b) = min cap (a + b) := by
  omega

/-- Adding the capped terms of the allowed lengths one by one gives the capped sum. -/
theorem foldl_min_add {cap : Nat} (p : Nat → Bool) {get f : Nat → Nat} :
    ∀ (ls : List Nat) (a : Nat), (∀ l ∈ ls, get l = min cap (f l)) →
      ls.foldl (fun acc l => if p l then min cap (acc + get l) else acc) (min cap a) =
        min cap (a + (ls.map fun l => (if p l then 1 else 0) * f l).sum)
  | [], a, _ => by simp
  | l :: ls, a, hget => by
    have hrest := foldl_min_add p ls (a + (if p l then 1 else 0) * f l)
      fun l' hl' => hget l' (List.mem_cons_of_mem l hl')
    rw [List.map_cons, List.sum_cons, ← add_assoc, ← hrest, List.foldl_cons, hget l List.mem_cons_self]
    congr 1
    cases p l with
    | true => simp [min_add_min]
    | false => simp

end Oxpinyin.Cuts
