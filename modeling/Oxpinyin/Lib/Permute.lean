import Mathlib.Data.List.Nodup
import Mathlib.Logic.Equiv.Basic
import Mathlib.Tactic.SplitIfs

/-!
# Permuting a list in place

Key rows carry tags : the row at position `i` says which item belongs there. `applyTags` brings the
items there by one swap a position and no second list. An item that an earlier swap displaced is found
by following the tags, since each position records where its own item came from (`follow`).

The state after `i` positions is the permutation that lists where each item was at first (`Placed`).
Positions below `i` have their items, and from the first place of any other item the tags lead to where
it is now (`Leads`). A step keeps this (`Placed.step`), so each position ends with the item its tag
named (`applyTags_spec`).
-/

set_option linter.unusedSectionVars false

namespace Oxpinyin.Permute

open List Equiv

variable {α κ β : Type*}

/-- Exchanges two items. -/
def swap? (items : List α) (i j : Nat) : Option (List α) :=
  match items[i]?, items[j]? with
  | some x, some y => some ((items.set i y).set j x)
  | _, _ => none

section

variable (tag : κ → Nat) (retag : κ → Nat → κ)

/-- Follows the tags while they name positions below `i`. -/
def follow (rows : List κ) (i : Nat) : Nat → Nat → Option Nat
  | 0, _ => none
  | fuel + 1, index =>
    if index < i then (rows[index]?).bind fun row => follow rows i fuel (tag row) else some index

/-- Brings position `i` its item, and records where that was. -/
def place (fuel : Nat) (state : List α × List κ) (i : Nat) : Option (List α × List κ) :=
  (state.2[i]?).bind fun row =>
    (follow tag state.2 i fuel (tag row)).bind fun index =>
      (swap? state.1 i index).map fun items => (items, state.2.set i (retag row index))

/-- Brings every position the item that its tag names. -/
def applyTags (fuel : Nat) (items : List α) (rows : List κ) : Option (List α × List κ) :=
  (List.range rows.length).foldlM (place tag retag fuel) (items, rows)

end

theorem swap?_eq_some {items : List α} {i j : Nat} (hi : i < items.length) (hj : j < items.length) :
    ∃ swapped, swap? items i j = some swapped ∧ swapped.Perm items ∧
      ∀ k, swapped[k]? = items[swap i j k]? := by
  refine ⟨(items.set i items[j]).set j items[i], ?_, set_set_perm hi hj, fun k => ?_⟩
  · rw [swap?, getElem?_eq_getElem hi, getElem?_eq_getElem hj]
  · rw [swap_apply_def]
    split_ifs with h1 h2
    · subst h1
      by_cases h : j = k
      · subst h
        rw [getElem?_set_self (by simpa using hi), getElem?_eq_getElem hi]
      · rw [getElem?_set_ne h, getElem?_set_self hi, getElem?_eq_getElem hj]
    · subst h2
      rw [getElem?_set_self (by simpa using hj), getElem?_eq_getElem hi]
    · rw [getElem?_set_ne (Ne.symm h2), getElem?_set_ne (Ne.symm h1)]

section

variable {tag : κ → Nat} {retag : κ → Nat → κ} {rows : List κ} {i : Nat}

/-- Tags below `i` lead from one position to another, up and not below `i`. -/
inductive Leads (tag : κ → Nat) (rows : List κ) (i : Nat) : Nat → Nat → Prop
  | here {p : Nat} : i ≤ p → Leads tag rows i p p
  | next {x p : Nat} {row : κ} : x < i → rows[x]? = some row → x < tag row →
      Leads tag rows i (tag row) p → Leads tag rows i x p

theorem Leads.follow {x p : Nat} (h : Leads tag rows i x p) :
    ∀ {fuel : Nat}, i < x + fuel → 0 < fuel → follow tag rows i fuel x = some p := by
  induction h with
  | here hp =>
    intro fuel _ hpos
    obtain ⟨fuel, rfl⟩ := Nat.exists_eq_succ_of_ne_zero (Nat.pos_iff_ne_zero.mp hpos)
    rw [Permute.follow, if_neg (Nat.not_lt.mpr hp)]
  | next hx hrow hup _ ih =>
    intro fuel hfuel hpos
    obtain ⟨fuel, rfl⟩ := Nat.exists_eq_succ_of_ne_zero (Nat.pos_iff_ne_zero.mp hpos)
    rw [Permute.follow, if_pos hx, hrow, Option.bind_some]
    exact ih (by omega) (by omega)

/-- Tags from `i` on do not matter. -/
theorem Leads.set_apart {x q : Nat} (h : Leads tag rows i x q) (row : κ) (hq : i < q) :
    Leads tag (rows.set i row) (i + 1) x q := by
  induction h with
  | here _ => exact .here hq
  | next hx hrow hup _ ih =>
    exact .next (Nat.lt_succ_of_lt hx) (by rw [getElem?_set_ne (Nat.ne_of_gt hx)]; exact hrow) hup (ih hq)

/-- What was at `i` is found one tag further. -/
theorem Leads.set_through {x q : Nat} (h : Leads tag rows i x q) (row : κ) (hq : q = i)
    (hi : i < rows.length) (hup : i < tag row) : Leads tag (rows.set i row) (i + 1) x (tag row) := by
  induction h with
  | here _ =>
    subst hq
    exact .next (Nat.lt_succ_self _) (getElem?_set_self hi) hup (.here hup)
  | next hx hrow hlt _ ih =>
    exact .next (Nat.lt_succ_of_lt hx) (by rw [getElem?_set_ne (Nat.ne_of_gt hx)]; exact hrow) hlt (ih hq)

end

/-- The state once the positions below `i` have their items. `origin` lists where the items were. -/
structure Placed (tag : κ → Nat) (label : κ → β) (items₀ : List α) (rows₀ : List κ) (i : Nat)
    (origin : Equiv.Perm Nat) (state : List α × List κ) : Prop where
  items : ∀ p, state.1[p]? = items₀[origin p]?
  perm : state.1.Perm items₀
  labels : state.2.map label = rows₀.map label
  fixed : ∀ p, rows₀.length ≤ p → origin p = p
  rest : ∀ p, i ≤ p → state.2[p]? = rows₀[p]?
  done : ∀ p row, p < i → rows₀[p]? = some row → origin p = tag row
  leads : ∀ p, i ≤ p → p < rows₀.length → Leads tag state.2 i (origin p) p

section

variable {tag : κ → Nat} {retag : κ → Nat → κ} {label : κ → β} {items₀ : List α} {rows₀ : List κ}

theorem Placed.start : Placed tag label items₀ rows₀ 0 (Equiv.refl Nat) (items₀, rows₀) where
  items _ := rfl
  perm := List.Perm.refl _
  labels := rfl
  fixed _ _ := rfl
  rest _ _ := rfl
  done _ _ hp := absurd hp (Nat.not_lt_zero _)
  leads _ _ _ := .here (Nat.zero_le _)

variable (hlabel : ∀ row p, label (retag row p) = label row)
  (hretag : ∀ row p, p < rows₀.length → tag (retag row p) = p)
  (hlength : items₀.length = rows₀.length)
  (hbound : ∀ row ∈ rows₀, tag row < rows₀.length)
  (hinj : (rows₀.map tag).Nodup)

include hlabel hretag hlength hbound hinj

/-- One position more. The item it wants is not placed yet, as no other position wants it. -/
theorem Placed.step {i fuel : Nat} {origin : Equiv.Perm Nat} {state : List α × List κ}
    (h : Placed tag label items₀ rows₀ i origin state) (hi : i < rows₀.length) (hfuel : i < fuel) :
    ∃ origin' state', place tag retag fuel state i = some state' ∧
      Placed tag label items₀ rows₀ (i + 1) origin' state' := by
  have hrow : rows₀[i]? = some rows₀[i] := getElem?_eq_getElem hi
  set row := rows₀[i] with hrowdef
  have hwant : tag row < rows₀.length := hbound row (getElem_mem hi)
  obtain ⟨q, hq⟩ : ∃ q, origin q = tag row := ⟨origin.symm (tag row), origin.apply_symm_apply _⟩
  have hqlt : q < rows₀.length := by
    by_contra hge
    have := h.fixed q (Nat.le_of_not_lt hge)
    omega
  have hqi : i ≤ q := by
    by_contra hlt
    have hqrow : rows₀[q]? = some rows₀[q] := getElem?_eq_getElem hqlt
    have hsame : tag rows₀[q] = tag rows₀[i] := (h.done q _ (Nat.lt_of_not_le hlt) hqrow).symm.trans hq
    have hiq : i = q := by
      have hin : i < (rows₀.map tag).length := by simpa using hi
      have hqin : q < (rows₀.map tag).length := by simpa using hqlt
      refine (@List.Nodup.getElem_inj_iff _ (rows₀.map tag) hinj i hin q hqin).mp ?_
      rw [getElem_map, getElem_map, hsame]
    omega
  have hlead : Leads tag state.2 i (tag row) q := hq ▸ h.leads q hqi hqlt
  have hrows : state.2.length = rows₀.length := by
    simpa using congrArg List.length h.labels
  have hitems : state.1.length = rows₀.length := h.perm.length_eq.trans hlength
  obtain ⟨swapped, hswap, hperm, hget⟩ :=
    swap?_eq_some (show i < state.1.length by omega) (show q < state.1.length by omega)
  refine ⟨(swap i q).trans origin, (swapped, state.2.set i (retag row q)), ?_, ?_⟩
  · rw [place, h.rest i (Nat.le_refl i), hrow, Option.bind_some,
      hlead.follow (by omega) (by omega), Option.bind_some, hswap]
    rfl
  · refine ⟨fun p => ?_, hperm.trans h.perm, ?_, fun p hp => ?_, fun p hp => ?_, fun p r hp hr => ?_,
      fun p hp hlt => ?_⟩
    · rw [hget, h.items]
      rfl
    · have hin : i < (state.2.map label).length := by simpa [hrows] using hi
      have hown : label row = (state.2.map label)[i] := by
        have := h.rest i (Nat.le_refl i)
        rw [hrow, getElem?_eq_getElem (by omega)] at this
        rw [getElem_map, Option.some.inj this]
      rw [map_set, hlabel, hown, set_getElem_self, h.labels]
    · rw [trans_apply, swap_apply_of_ne_of_ne (by omega) (by omega), h.fixed p hp]
    · rw [getElem?_set_ne (by omega), h.rest p (by omega)]
    · rcases Nat.lt_or_eq_of_le (Nat.le_of_lt_succ hp) with hlt | rfl
      · rw [trans_apply, swap_apply_of_ne_of_ne (by omega) (by omega)]
        exact h.done p r hlt hr
      · obtain rfl := Option.some.inj (hrow.symm.trans hr)
        rw [trans_apply, swap_apply_left, hq]
    · by_cases hpq : p = q
      · -- the item that stood at `i` is now where the wanted one was
        subst hpq
        rw [trans_apply, swap_apply_right]
        have htag := hretag row p hlt
        have := (h.leads i (Nat.le_refl i) hi).set_through (retag row p) rfl (by omega)
        rw [htag] at this
        exact this (by omega)
      · rw [trans_apply, swap_apply_of_ne_of_ne (by omega) hpq]
        exact (h.leads p (by omega) hlt).set_apart _ (by omega)

theorem Placed.run {fuel : Nat} : ∀ {count i : Nat} {origin : Equiv.Perm Nat} {state : List α × List κ},
    Placed tag label items₀ rows₀ i origin state → i + count = rows₀.length → rows₀.length ≤ fuel →
    ∃ origin' state', (List.range' i count).foldlM (place tag retag fuel) state = some state' ∧
      Placed tag label items₀ rows₀ rows₀.length origin' state'
  | 0, i, origin, state, h, hcount, _ => ⟨origin, state, rfl, by rwa [← hcount]⟩
  | count + 1, i, origin, state, h, hcount, hfuel => by
    obtain ⟨origin', state', hplace, h'⟩ :=
      h.step hlabel hretag hlength hbound hinj (by omega) (show i < fuel by omega)
    rw [range'_succ, foldlM_cons, hplace]
    exact Placed.run h' (by omega) hfuel

/-- Where the tags are distinct positions, each position ends with the item that its tag named, and the
items are those of before. -/
theorem applyTags_spec {fuel : Nat} (hfuel : rows₀.length ≤ fuel) :
    ∃ (items : List α) (rows : List κ), applyTags tag retag fuel items₀ rows₀ = some (items, rows) ∧
      items.Perm items₀ ∧
      rows.map label = rows₀.map label ∧
      ∀ (i : Nat) (row : κ), rows₀[i]? = some row → items[i]? = items₀[tag row]? := by
  obtain ⟨origin, ⟨items, rows⟩, hrun, h⟩ := (@Placed.start _ _ _ tag label items₀ rows₀).run hlabel
    hretag hlength hbound hinj (Nat.zero_add _) hfuel
  refine ⟨items, rows, by rw [applyTags, range_eq_range', hrun], h.perm, h.labels, fun i row hrow => ?_⟩
  rw [h.items, h.done i row (List.getElem?_eq_some_iff.mp hrow).1 hrow]

end

end Oxpinyin.Permute
