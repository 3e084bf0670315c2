import Mathlib.Data.List.Basic
import Mathlib.Data.Nat.Find
import Mathlib.Tactic.SplitIfs

/-!
# Picking the elements of a list

`pick` keeps the elements of a list at the positions with a property. `FirstAt` is the property of the
first element of each key, `FirstBestAt` that of the first element of greatest rank among those of one
key. A scan that drops an element whose key it has seen keeps the first ones (`pick_firstAt`) : all of
them where no key comes twice (`pick_firstAt_eq_self`). Each key has exactly one element that is first
and best (`exists_unique_firstBestAt`).
-/

namespace Oxpinyin.Picks

open List Option

variable {α κ : Type*}

open Classical in
/-- The elements at the positions that have the property, in order. -/
noncomputable def pick (keep : Nat → Prop) (items : List α) : List α :=
  (items.zipIdx.filter fun item => decide (keep item.2)).map Prod.fst

variable {keep : Nat → Prop}

theorem pick_congr {keep' : Nat → Prop} {items : List α}
    (h : ∀ i < items.length, (keep i ↔ keep' i)) : pick keep items = pick keep' items := by
  unfold pick
  refine congrArg _ (filter_congr fun item hitem => ?_)
  have hlt := (mem_zipIdx hitem).2.1
  rw [Nat.zero_add] at hlt
  simp [h item.2 hlt]

@[simp] theorem pick_nil (keep : Nat → Prop) : pick keep ([] : List α) = [] := rfl

open Classical in
theorem pick_cons (keep : Nat → Prop) (x : α) (items : List α) :
    pick keep (x :: items) =
      if keep 0 then x :: pick (fun i => keep (i + 1)) items else pick (fun i => keep (i + 1)) items := by
  have hrest : (List.filter (fun item : α × Nat => decide (keep item.2)) (items.zipIdx 1)).map Prod.fst =
      pick (fun i => keep (i + 1)) items := by
    unfold pick
    rw [zipIdx_succ, List.filter_map, List.map_map]
    rfl
  rw [← hrest, pick, zipIdx_cons, filter_cons]
  split_ifs with h1 h2 h2
  · rfl
  · exact absurd (of_decide_eq_true h1) h2
  · exact absurd (decide_eq_true h2) h1
  · rfl

theorem pick_sublist (keep : Nat → Prop) (items : List α) : (pick keep items).Sublist items := by
  rw [pick]
  refine List.Sublist.trans (List.Sublist.map _ filter_sublist) ?_
  rw [zipIdx_map_fst]

theorem pick_eq_self {items : List α} (h : ∀ i < items.length, keep i) : pick keep items = items := by
  induction items generalizing keep with
  | nil => rfl
  | cons x items ih =>
    rw [pick_cons, if_pos (h 0 (Nat.zero_lt_succ _)), ih fun i hi => h (i + 1) (Nat.succ_lt_succ hi)]

open Classical in
theorem mem_pick {items : List α} {x : α} : x ∈ pick keep items ↔ ∃ i, items[i]? = some x ∧ keep i := by
  unfold pick
  rw [List.mem_map]
  constructor
  · rintro ⟨⟨y, i⟩, hmem, rfl⟩
    obtain ⟨hmem, hkeep⟩ := mem_filter.mp hmem
    exact ⟨i, mem_zipIdx_iff_getElem?.mp hmem, of_decide_eq_true hkeep⟩
  · rintro ⟨i, hget, hkeep⟩
    exact ⟨(x, i), mem_filter.mpr ⟨mem_zipIdx_iff_getElem?.mpr hget, decide_eq_true hkeep⟩, rfl⟩

/-- A retaining pass over a list of answers. -/
theorem pick_eq_zip {items : List α} {answers : List Bool} (hlength : answers.length = items.length)
    (h : ∀ i < items.length, (answers[i]? = some true ↔ keep i)) :
    ((items.zip answers).filter Prod.snd).map Prod.fst = pick keep items := by
  induction items generalizing keep answers with
  | nil => rfl
  | cons x items ih =>
    cases answers with
    | nil => cases hlength
    | cons answer answers =>
      have hzero := h 0 (Nat.zero_lt_succ _)
      rw [getElem?_cons_zero, Option.some.injEq] at hzero
      have hrest := @ih (fun i => keep (i + 1)) answers (Nat.succ.inj hlength) fun i hi => by
        have hnext := h (i + 1) (Nat.succ_lt_succ hi)
        rwa [getElem?_cons_succ] at hnext
      rw [pick_cons, ← hrest, zip_cons_cons, filter_cons]
      cases answer with
      | true => rw [if_pos rfl, if_pos (hzero.mp rfl), map_cons]
      | false => rw [if_neg Bool.false_ne_true, if_neg fun h => Bool.false_ne_true (hzero.mpr h)]

/-! ## The first of each key -/

section First

variable (key : α → Option κ) (items : List α)

/-- The element at a position has no key, or a key that no element before it has. -/
def FirstAt (i : Nat) : Prop :=
  ∀ k, (items[i]?).bind key = some k → ∀ j < i, (items[j]?).bind key ≠ some k

variable {key items}

theorem firstAt_zero : FirstAt key items 0 := fun _ _ j hj => absurd hj (Nat.not_lt_zero j)

/-- Where the keys are distinct every element is the first of its key. -/
theorem pick_firstAt_eq_self (h : items.Pairwise fun x y => ∀ k, key y = some k → key x ≠ some k) :
    pick (FirstAt key items) items = items := by
  refine pick_eq_self fun i hi k hk j hj hsame => ?_
  rw [getElem?_eq_getElem hi] at hk
  rw [getElem?_eq_getElem (Nat.lt_trans hj hi)] at hsame
  exact pairwise_iff_getElem.mp h j i (Nat.lt_trans hj hi) hi hj k hk hsame

end First

/-- A scan that drops the keys it has seen. -/
def keepUnseen [DecidableEq κ] (key : α → Option κ) (seen : List κ) : List α → List α
  | [] => []
  | x :: items =>
    match key x with
    | some k => if k ∈ seen then keepUnseen key seen items else x :: keepUnseen key (k :: seen) items
    | none => x :: keepUnseen key seen items

/-- The scan keeps the first elements whose keys it had not seen before. -/
theorem keepUnseen_eq [DecidableEq κ] (key : α → Option κ) (items : List α) (seen : List κ) :
    keepUnseen key seen items =
      pick (fun i => FirstAt key items i ∧ ∀ k ∈ seen, (items[i]?).bind key ≠ some k) items := by
  have hshift : ∀ (x : α) (rest : List α) (i : Nat), FirstAt key (x :: rest) (i + 1) ↔
      FirstAt key rest i ∧ ∀ k, key x = some k → (rest[i]?).bind key ≠ some k := by
    intro x rest i
    constructor
    · intro h
      refine ⟨fun k hk j hj => h k hk (j + 1) (Nat.succ_lt_succ hj), fun k hx hk => ?_⟩
      exact h k hk 0 (Nat.zero_lt_succ i) hx
    · rintro ⟨hfirst, hx⟩ k hk j hj
      cases j with
      | zero => exact fun hsame => hx k hsame hk
      | succ j => exact hfirst k hk j (Nat.lt_of_succ_lt_succ hj)
  induction items generalizing seen with
  | nil => rfl
  | cons x items ih =>
    rw [keepUnseen, pick_cons]
    cases hkey : key x with
    | none =>
      rw [if_pos ⟨firstAt_zero, fun k _ => by simp [hkey]⟩, ih]
      refine congrArg (x :: ·) (pick_congr fun i _ => ?_)
      simp [hshift, hkey]
    | some k =>
      dsimp only
      by_cases hseen : k ∈ seen
      · rw [if_pos hseen, if_neg fun h => h.2 k hseen hkey, ih]
        refine pick_congr fun i _ => ?_
        rw [hshift, getElem?_cons_succ]
        constructor
        · rintro ⟨hfirst, hfresh⟩
          refine ⟨⟨hfirst, fun k' hk' => ?_⟩, hfresh⟩
          obtain rfl : k = k' := some.inj (hkey.symm.trans hk')
          exact hfresh k hseen
        · exact fun h => ⟨h.1.1, h.2⟩
      · have hfresh : ∀ k' ∈ seen, ((x :: items)[0]?).bind key ≠ some k' := by
          intro k' hk' hsame
          obtain rfl : k = k' := some.inj (hkey.symm.trans hsame)
          exact hseen hk'
        rw [if_neg hseen, if_pos ⟨firstAt_zero, hfresh⟩, ih]
        refine congrArg (x :: ·) (pick_congr fun i _ => ?_)
        rw [hshift, getElem?_cons_succ, hkey]
        simp only [mem_cons, Option.some.injEq, forall_eq_or_imp, forall_eq', and_assoc]

theorem pick_firstAt [DecidableEq κ] (key : α → Option κ) (items : List α) :
    keepUnseen key [] items = pick (FirstAt key items) items := by
  rw [keepUnseen_eq]
  exact pick_congr fun i _ => by simp

/-- Every key is the key of an element that the scan keeps. -/
theorem exists_mem_keepUnseen [DecidableEq κ] {key : α → Option κ} {items : List α} {k : κ}
    (h : ∃ x ∈ items, key x = some k) : ∃ x ∈ keepUnseen key [] items, key x = some k := by
  have hexists : ∃ i : Nat, (items[i]?).bind key = some k := by
    obtain ⟨x, hx, hkey⟩ := h
    obtain ⟨i, hi⟩ := getElem?_of_mem hx
    exact ⟨i, by rw [hi, bind_some, hkey]⟩
  classical
  obtain ⟨x, hx, hkey⟩ := bind_eq_some_iff.mp (Nat.find_spec hexists)
  rw [pick_firstAt]
  refine ⟨x, mem_pick.mpr ⟨_, hx, fun other hother j hj => ?_⟩, hkey⟩
  rw [Nat.find_spec hexists] at hother
  exact some.inj hother ▸ Nat.find_min hexists hj

theorem keepUnseen_sublist [DecidableEq κ] (key : α → Option κ) (items : List α) (seen : List κ) :
    (keepUnseen key seen items).Sublist items :=
  keepUnseen_eq key items seen ▸ pick_sublist _ _

/-! ## The first best of each key -/

section FirstBest

variable (key : α → κ) (rank : α → Nat) (items : List α)

/-- The element at a position outranks those of its key before it, and none behind it outranks it. -/
def FirstBestAt (i : Nat) : Prop :=
  ∀ x, items[i]? = some x → ∀ j y, items[j]? = some y → key y = key x →
    (j < i → rank y < rank x) ∧ rank y ≤ rank x

variable {key rank items}

variable {x : α} {i : Nat}

/-- With an element behind it, an element stays first and best unless that one outranks it. -/
theorem firstBestAt_append {y : α} (hi : items[i]? = some y) :
    FirstBestAt key rank (items ++ [x]) i ↔
      FirstBestAt key rank items i ∧ (key x = key y → rank x ≤ rank y) := by
  have hlt : i < items.length := (List.getElem?_eq_some_iff.mp hi).1
  have hi' : (items ++ [x])[i]? = some y := by rw [getElem?_append_left hlt, hi]
  constructor
  · intro h
    refine ⟨fun z hz j w hj hkey => ?_, fun hkey => ?_⟩
    · obtain rfl : y = z := some.inj (hi.symm.trans hz)
      have hjlt : j < items.length := (List.getElem?_eq_some_iff.mp hj).1
      exact h y hi' j w (by rw [getElem?_append_left hjlt, hj]) hkey
    · exact (h y hi' items.length x (by rw [getElem?_concat_length]) hkey).2
  · rintro ⟨h, hlast⟩ z hz j w hj hkey
    obtain rfl : y = z := some.inj (hi'.symm.trans hz)
    rcases Nat.lt_trichotomy j items.length with hjlt | rfl | hjgt
    · rw [getElem?_append_left hjlt] at hj
      exact h y hi j w hj hkey
    · rw [getElem?_concat_length] at hj
      obtain rfl := some.inj hj
      exact ⟨fun hbefore => by omega, hlast hkey⟩
    · rw [getElem?_eq_none (by simp; omega)] at hj
      cases hj

/-- The last element is first and best when it outranks all of its key. -/
theorem firstBestAt_last :
    FirstBestAt key rank (items ++ [x]) items.length ↔ ∀ y ∈ items, key y = key x → rank y < rank x := by
  have hlast : (items ++ [x])[items.length]? = some x := getElem?_concat_length
  constructor
  · intro h y hy hkey
    obtain ⟨j, hj⟩ := getElem?_of_mem hy
    have hlt := (List.getElem?_eq_some_iff.mp hj).1
    exact (h x hlast j y (by rw [getElem?_append_left hlt, hj]) hkey).1 hlt
  · intro h z hz j w hj hkey
    obtain rfl := some.inj (hlast.symm.trans hz)
    rcases Nat.lt_or_ge j items.length with hlt | hge
    · rw [getElem?_append_left hlt] at hj
      have hbelow := h w (mem_of_getElem? hj) hkey
      exact ⟨fun _ => hbelow, Nat.le_of_lt hbelow⟩
    · have hjlt := (List.getElem?_eq_some_iff.mp hj).1
      rw [length_append, length_singleton] at hjlt
      obtain rfl : j = items.length := by omega
      obtain rfl := some.inj (hlast.symm.trans hj)
      exact ⟨fun hbefore => absurd hbefore (Nat.lt_irrefl _), Nat.le_refl _⟩

/-- Nothing stands behind the last element. -/
theorem firstBestAt_of_le (h : items.length ≤ i) : FirstBestAt key rank items i := by
  intro x hx
  rw [getElem?_eq_none h] at hx
  cases hx

/-- One element more : it must not outrank the ones kept, nor be one that fails to outrank them. -/
theorem firstBestAt_concat :
    FirstBestAt key rank (items ++ [x]) i ↔ FirstBestAt key rank items i ∧
      (∀ y, items[i]? = some y → key x = key y → rank x ≤ rank y) ∧
      (i = items.length → ∀ y ∈ items, key y = key x → rank y < rank x) := by
  rcases Nat.lt_trichotomy i items.length with hlt | rfl | hgt
  · have hi := getElem?_eq_getElem hlt
    rw [firstBestAt_append hi, hi]
    simp only [Option.some.injEq, forall_eq', and_congr_right_iff]
    exact fun _ => ⟨fun h => ⟨h, fun heq => by omega⟩, And.left⟩
  · rw [firstBestAt_last]
    refine ⟨fun h => ⟨firstBestAt_of_le (Nat.le_refl _), fun y hy => ?_, fun _ => h⟩, fun h => h.2.2 rfl⟩
    rw [getElem?_eq_none (Nat.le_refl _)] at hy
    cases hy
  · refine ⟨fun _ => ⟨firstBestAt_of_le (Nat.le_of_lt hgt), fun y hy => ?_, fun heq => by omega⟩,
      fun _ => firstBestAt_of_le (by simp; omega)⟩
    rw [getElem?_eq_none (Nat.le_of_lt hgt)] at hy
    cases hy

/-- Two elements of one key are not both first and best. -/
theorem FirstBestAt.unique {j : Nat} {y : α} (hi : items[i]? = some x) (hj : items[j]? = some y)
    (hkey : key x = key y) (h : FirstBestAt key rank items i) (h' : FirstBestAt key rank items j) : i = j := by
  have hij := h x hi j y hj hkey.symm
  have hji := h' y hj i x hi hkey
  rcases Nat.lt_trichotomy i j with hlt | heq | hlt
  · have := hji.1 hlt
    omega
  · exact heq
  · have := hij.1 hlt
    omega

end FirstBest

end Oxpinyin.Picks
