import Oxpinyin.Lib.Cuts

/-!
# Greedy cuts

A greedy scanner takes at its position the longest block that a probe labels, and stops where the
probe labels none. `Munch` is that rule for blocks of any length. The scanner itself tries blocks up to
a fixed length inside a window, and follows the rule when the probe labels no others (`munch_greedy`).
`MunchWhile` is the rule of a scanner that also stops where the longest block fails a test of its own.
-/

namespace Oxpinyin.Cuts

open Option

variable {β : Type*}

/-- The longest labelled blocks from `c` on, as long as there are any. -/
inductive Munch (label : Nat → Nat → Option β) : Nat → Nat → List β → Prop
  | stop (c : Nat) : (∀ l, 0 < l → label c l = none) → Munch label c c []
  | take {c l t : Nat} {b : β} {bs : List β} : 0 < l → label c l = some b → (∀ l', l < l' → label c l' = none) →
      Munch label (c + l) t bs → Munch label c t (b :: bs)

/-- The scanner before `t` with blocks of length at most `N`, one turn of its loop per unit of fuel. -/
def greedy (label : Nat → Nat → Option β) (N t : Nat) : Nat → Nat → List β × Nat
  | 0, c => ([], c)
  | fuel + 1, c =>
    if c < t then
      match (longestFirst (min (t - c) N)).findSome? fun l => (label c l).map (·, l) with
      | some (b, l) =>
        let rest := greedy label N t fuel (c + l)
        (b :: rest.1, rest.2)
      | none => ([], c)
    else ([], c)

variable {label probe : Nat → Nat → Option β} {N t c : Nat} {bs : List β}

/-- The first length found is the longest one that is labelled. -/
theorem findSome?_longestFirst {α : Type*} (f : Nat → Option α) : ∀ (n : Nat),
    (∀ a, (longestFirst n).findSome? f = some a →
      ∃ l, 0 < l ∧ l ≤ n ∧ f l = some a ∧ ∀ l', l < l' → l' ≤ n → f l' = none) ∧
    ((longestFirst n).findSome? f = none → ∀ l, 0 < l → l ≤ n → f l = none)
  | 0 => ⟨fun a h => (by rw [longestFirst_zero] at h; cases h), fun _ l hpos hle => by omega⟩
  | n + 1 => by
    obtain ⟨hfound, hnone⟩ := findSome?_longestFirst f n
    rw [longestFirst_succ, List.findSome?_cons]
    cases hlast : f (n + 1) with
    | some b =>
      refine ⟨fun a ha => ⟨n + 1, Nat.succ_pos n, Nat.le_refl _, hlast.trans ha, fun l' hlt hle => by omega⟩,
        fun h => by cases h⟩
    | none =>
      have hbelow : ∀ l, l ≤ n + 1 → (l ≤ n → f l = none) → f l = none := by
        intro l hle hshort
        rcases Nat.lt_or_eq_of_le hle with hlt | rfl
        · exact hshort (Nat.le_of_lt_succ hlt)
        · exact hlast
      refine ⟨fun a ha => ?_, fun h l hpos hle => hbelow l hle (hnone h l hpos)⟩
      obtain ⟨l, hpos, hle, hl, hlonger⟩ := hfound a ha
      exact ⟨l, hpos, Nat.le_succ_of_le hle, hl, fun l' hlt hle' => hbelow l' hle' (hlonger l' hlt)⟩

/-- The blocks are adjacent. -/
theorem Munch.cut (h : Munch label c t bs) : Cut label c t bs := by
  induction h with
  | stop c _ => exact .nil c
  | take hpos hlabel _ _ ih => exact .cons hpos hlabel ih

/-- The greedy cut is the only one. -/
theorem Munch.unique {t' : Nat} {bs' : List β} (h : Munch label c t bs) (h' : Munch label c t' bs') :
    t = t' ∧ bs = bs' := by
  induction h generalizing t' bs' with
  | stop c hnone =>
    cases h' with
    | stop => exact ⟨rfl, rfl⟩
    | take hpos hlabel => exact absurd (hlabel.symm.trans (hnone _ hpos)) (by simp)
  | @take c l t b bs hpos hlabel hlonger _ ih =>
    cases h' with
    | stop _ hnone => exact absurd (hlabel.symm.trans (hnone _ hpos)) (by simp)
    | @take _ l' t' b' bs' hpos' hlabel' hlonger' hrest' =>
      have hlen : l = l' := by
        rcases Nat.lt_trichotomy l l' with hlt | heq | hlt
        · exact absurd (hlabel'.symm.trans (hlonger l' hlt)) (by simp)
        · exact heq
        · exact absurd (hlabel.symm.trans (hlonger' l hlt)) (by simp)
      subst hlen
      obtain rfl := some.inj (hlabel.symm.trans hlabel')
      obtain ⟨rfl, rfl⟩ := ih hrest'
      exact ⟨rfl, rfl⟩

/-- The search for the longest length in a window finds the longest label, if no length outside has one. -/
theorem findSome?_window {label probe : Nat → Option β} {w : Nat} (houtside : ∀ l, w < l → label l = none)
    (hinside : ∀ l, l ≤ w → probe l = label l) :
    (∀ b l, ((longestFirst w).findSome? fun l => (probe l).map (·, l)) = some (b, l) →
      0 < l ∧ l ≤ w ∧ label l = some b ∧ ∀ l', l < l' → label l' = none) ∧
    (((longestFirst w).findSome? fun l => (probe l).map (·, l)) = none → ∀ l, 0 < l → label l = none) := by
  obtain ⟨hfound, hnone⟩ := findSome?_longestFirst (fun l => (probe l).map (·, l)) w
  refine ⟨fun b l hfind => ?_, fun hfind l hpos => ?_⟩
  · obtain ⟨l, hpos, hle, hl, hlonger⟩ := hfound (b, l) hfind
    obtain ⟨b, hb, heq⟩ := map_eq_some_iff.mp hl
    cases heq
    refine ⟨hpos, hle, by rw [← hinside l hle, hb], fun l' hlt => ?_⟩
    rcases Nat.lt_or_ge w l' with hout | hin
    · exact houtside l' hout
    · rw [← hinside l' hin]
      exact map_eq_none_iff.mp (hlonger l' hlt hin)
  · rcases Nat.lt_or_ge w l with hout | hin
    · exact houtside l hout
    · rw [← hinside l hin]
      exact map_eq_none_iff.mp (hnone hfind l hpos hin)

/-- A scanner whose window holds every labelled block takes the greedy cut. -/
theorem munch_greedy (hwindow : ∀ c l b, c ≤ t → 0 < l → label c l = some b → l ≤ N ∧ c + l ≤ t)
    (hprobe : ∀ c l, c + l ≤ t → probe c l = label c l) : ∀ {fuel c : Nat}, c ≤ t → t ≤ fuel + c →
      Munch label c (greedy probe N t fuel c).2 (greedy probe N t fuel c).1
  | 0, c, hc, hfuel => by
    obtain rfl : c = t := by omega
    refine .stop c fun l hpos => ?_
    by_contra hsome
    obtain ⟨b, hb⟩ := ne_none_iff_exists'.mp hsome
    have := hwindow c l b hc hpos hb
    omega
  | fuel + 1, c, hc, hfuel => by
    have houtside : ∀ l, min (t - c) N < l → label c l = none := by
      intro l hlt
      by_contra hsome
      obtain ⟨b, hb⟩ := ne_none_iff_exists'.mp hsome
      have := hwindow c l b hc (by omega) hb
      omega
    have hinside : ∀ l, l ≤ min (t - c) N → probe c l = label c l := fun l hle => hprobe c l (by omega)
    unfold greedy
    by_cases hlt : c < t
    · rw [if_pos hlt]
      obtain ⟨hfound, hnone⟩ := findSome?_window houtside hinside
      cases hfind : (longestFirst (min (t - c) N)).findSome? fun l => (probe c l).map (·, l) with
      | some found =>
        obtain ⟨b, l⟩ := found
        obtain ⟨hpos, _, hb, hlonger⟩ := hfound b l hfind
        obtain ⟨_, hend⟩ := hwindow c l b hc hpos hb
        exact .take hpos hb hlonger (munch_greedy hwindow hprobe hend (by omega))
      | none => exact .stop c (hnone hfind)
    · rw [if_neg hlt]
      exact .stop c fun l hpos => houtside l (by omega)

/-! ## Greedy cuts under a test -/

/-- The longest labelled blocks from `c` on, as long as there are any and the longest passes the test. -/
inductive MunchWhile (label : Nat → Nat → Option β) (test : β → Bool) : Nat → Nat → List β → Prop
  | stop (c : Nat) : (∀ l, 0 < l → label c l = none) → MunchWhile label test c c []
  | refuse {c l : Nat} {b : β} : 0 < l → label c l = some b → (∀ l', l < l' → label c l' = none) → test b = false →
      MunchWhile label test c c []
  | take {c l t : Nat} {b : β} {bs : List β} : 0 < l → label c l = some b → (∀ l', l < l' → label c l' = none) →
      test b = true → MunchWhile label test (c + l) t bs → MunchWhile label test c t (b :: bs)

/-- The labels of the blocks up to a length inside a window. -/
def windowed (label : Nat → Nat → Option β) (N t c l : Nat) : Option β :=
  if l ≤ N ∧ c + l ≤ t then label c l else none

/-- The scanner that stops at the first block that fails the test. -/
def greedyWhile (label : Nat → Nat → Option β) (test : β → Bool) (N t : Nat) : Nat → Nat → List β × Nat
  | 0, c => ([], c)
  | fuel + 1, c =>
    if c < t then
      match (longestFirst (min (t - c) N)).findSome? fun l => (label c l).map (·, l) with
      | some (b, l) =>
        if test b then
          let rest := greedyWhile label test N t fuel (c + l)
          (b :: rest.1, rest.2)
        else ([], c)
      | none => ([], c)
    else ([], c)

variable {test : β → Bool}

/-- The blocks are adjacent. -/
theorem MunchWhile.cut (h : MunchWhile label test c t bs) : Cut label c t bs := by
  induction h with
  | stop c _ => exact .nil c
  | refuse => exact .nil _
  | take hpos hlabel _ _ _ ih => exact .cons hpos hlabel ih

/-- The scanner follows the rule inside its window. -/
theorem munchWhile_greedyWhile : ∀ {fuel c : Nat}, c ≤ t → t ≤ fuel + c →
    MunchWhile (windowed label N t) test c (greedyWhile label test N t fuel c).2 (greedyWhile label test N t fuel c).1
  | 0, c, hc, hfuel => .stop c fun l hpos => if_neg (by omega)
  | fuel + 1, c, hc, hfuel => by
    have houtside : ∀ l, min (t - c) N < l → windowed label N t c l = none := fun l hlt => if_neg (by omega)
    have hinside : ∀ l, l ≤ min (t - c) N → windowed label N t c l = label c l := fun l hle => if_pos (by omega)
    unfold greedyWhile
    by_cases hlt : c < t
    · rw [if_pos hlt]
      obtain ⟨hfound, hnone⟩ := findSome?_window houtside fun l hle => (hinside l hle).symm
      cases hfind : (longestFirst (min (t - c) N)).findSome? fun l => (label c l).map (·, l) with
      | some found =>
        obtain ⟨b, l⟩ := found
        obtain ⟨hpos, hle, hb, hlonger⟩ := hfound b l hfind
        dsimp only
        cases htest : test b with
        | false => exact .refuse hpos hb hlonger htest
        | true => exact .take hpos hb hlonger htest (munchWhile_greedyWhile (by omega) (by omega))
      | none => exact .stop c (hnone hfind)
    · rw [if_neg hlt]
      exact .stop c fun l hpos => houtside l (by omega)

/-- A window that is one block is cut into that block. -/
theorem greedyWhile_whole {b : β} {fuel : Nat} (ht : 0 < t) (hN : t ≤ N) (hlabel : label 0 t = some b)
    (htest : test b = true) :
    greedyWhile label test N t (fuel + 1) 0 = ([b], t) := by
  obtain ⟨last, rfl⟩ := Nat.exists_eq_succ_of_ne_zero (Nat.ne_of_gt ht)
  have hrest : greedyWhile label test N (last + 1) fuel (last + 1) = ([], last + 1) := by
    cases fuel with
    | zero => rfl
    | succ fuel => rw [greedyWhile, if_neg (Nat.lt_irrefl _)]
  rw [greedyWhile, if_pos ht, Nat.sub_zero, Nat.min_eq_left hN, longestFirst_succ, List.findSome?_cons, hlabel]
  dsimp only [map_some]
  rw [htest, if_pos rfl, Nat.zero_add, hrest]

end Oxpinyin.Cuts
