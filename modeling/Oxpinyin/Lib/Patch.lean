import Mathlib.Logic.Function.Basic
import Mathlib.Data.List.Nodup

/-!
# The edits between two maps

An edit of a map adds, removes or replaces one key's value, and is guarded by the value it
takes away. `diff old new keys` has the edits of some keys, in their order. They can be made one
after the other from any map that agrees with `old` on the keys (`runs_diff`), and leave `new`
there (`apply_diff`).
-/

set_option linter.unusedSectionVars false

namespace Oxpinyin.Patch

open List Option

variable {κ ν : Type*} [DecidableEq κ] [DecidableEq ν]

/-- An edit of one key. -/
inductive Edit (κ ν : Type*) where
  | add (key : κ) (new : ν)
  | remove (key : κ) (old : ν)
  | modify (key : κ) (old new : ν)

namespace Edit

def key : Edit κ ν → κ
  | .add key _ => key
  | .remove key _ => key
  | .modify key _ _ => key

/-- What the key has before. -/
def old : Edit κ ν → Option ν
  | .add _ _ => none
  | .remove _ old => some old
  | .modify _ old _ => some old

/-- What the key has behind it. -/
def new : Edit κ ν → Option ν
  | .add _ new => some new
  | .remove _ _ => none
  | .modify _ _ new => some new

/-- The map behind an edit. -/
def apply (m : κ → Option ν) (edit : Edit κ ν) : κ → Option ν := Function.update m edit.key edit.new

end Edit

/-- The edit from one value of a key to another, if they differ. -/
def edit? (key : κ) : Option ν → Option ν → Option (Edit κ ν)
  | some old, some new => if old ≠ new then some (.modify key old new) else none
  | some old, none => some (.remove key old)
  | none, some new => some (.add key new)
  | none, none => none

/-- The edits of some keys. -/
def diff (old new : κ → Option ν) (keys : List κ) : List (Edit κ ν) :=
  keys.filterMap fun key => edit? key (old key) (new key)

/-- Edits that each find what they take away. -/
def Runs (m : κ → Option ν) : List (Edit κ ν) → Prop
  | [] => True
  | edit :: rest => m edit.key = edit.old ∧ Runs (edit.apply m) rest

theorem edit?_eq_none {key : κ} {old new : Option ν} (h : edit? key old new = none) : old = new := by
  unfold edit? at h
  split at h
  · split_ifs at h with hsame
    rw [not_not.mp hsame]
  · cases h
  · cases h
  · rfl

theorem edit?_eq_some {key : κ} {old new : Option ν} {edit : Edit κ ν} (h : edit? key old new = some edit) :
    edit.key = key ∧ edit.old = old ∧ edit.new = new ∧ old ≠ new := by
  unfold edit? at h
  split at h
  · split_ifs at h with hsame
    obtain rfl := some.inj h
    exact ⟨rfl, rfl, rfl, fun heq => hsame (some.inj heq)⟩
  · obtain rfl := some.inj h
    exact ⟨rfl, rfl, rfl, some_ne_none _⟩
  · obtain rfl := some.inj h
    exact ⟨rfl, rfl, rfl, (some_ne_none _).symm⟩
  · cases h

variable {old new m : κ → Option ν} {keys : List κ}

/-- An edit of the list is that of one of the keys. -/
theorem mem_diff {edit : Edit κ ν} :
    edit ∈ diff old new keys ↔
      edit.key ∈ keys ∧ edit? edit.key (old edit.key) (new edit.key) = some edit := by
  rw [diff, mem_filterMap]
  constructor
  · rintro ⟨key, hkey, hedit⟩
    obtain ⟨rfl, _⟩ := edit?_eq_some hedit
    exact ⟨hkey, hedit⟩
  · rintro ⟨hkey, hedit⟩
    exact ⟨edit.key, hkey, hedit⟩

/-- The edits of the keys that pass a test. -/
theorem filter_diff (p : κ → Bool) :
    (diff old new keys).filter (fun edit => p edit.key) = diff old new (keys.filter p) := by
  induction keys with
  | nil => rfl
  | cons key rest ih =>
    unfold diff at ih ⊢
    rw [filterMap_cons, filter_cons]
    cases hedit : edit? key (old key) (new key) with
    | none =>
      dsimp only
      rw [ih]
      split_ifs
      · rw [filterMap_cons, hedit]
      · rfl
    | some edit =>
      obtain ⟨hkey, _⟩ := edit?_eq_some hedit
      dsimp only
      rw [filter_cons, ih, hkey]
      split_ifs
      · rw [filterMap_cons, hedit]
      · rfl

/-- The edits of a list of keys, one after the other. -/
theorem runs_diff (hnodup : keys.Nodup) (hagree : ∀ key ∈ keys, m key = old key) :
    Runs m (diff old new keys) ∧
      ∀ key, (diff old new keys).foldl Edit.apply m key = if key ∈ keys then new key else m key := by
  induction keys generalizing m with
  | nil => exact ⟨trivial, fun key => (if_neg not_mem_nil).symm⟩
  | cons key rest ih =>
    obtain ⟨hfresh, hrest⟩ := nodup_cons.mp hnodup
    have hkey := hagree key mem_cons_self
    have hothers := fun other hother => hagree other (mem_cons_of_mem key hother)
    unfold diff at ih ⊢
    rw [filterMap_cons]
    cases hedit : edit? key (old key) (new key) with
    | none =>
      obtain ⟨hruns, hvalues⟩ := ih hrest hothers
      refine ⟨hruns, fun other => ?_⟩
      rw [hvalues other]
      by_cases hsame : other = key
      · rw [hsame, if_neg hfresh, if_pos mem_cons_self, hkey, edit?_eq_none hedit]
      · simp only [mem_cons, hsame, false_or]
    | some edit =>
      obtain ⟨rfl, hold, hnew, _⟩ := edit?_eq_some hedit
      obtain ⟨hruns, hvalues⟩ := @ih (edit.apply m) hrest fun other hother => by
        have hne : other ≠ edit.key := fun hsame => hfresh (hsame ▸ hother)
        rw [Edit.apply, Function.update_of_ne hne]
        exact hothers other hother
      refine ⟨⟨hkey.trans hold.symm, hruns⟩, fun other => ?_⟩
      rw [foldl_cons, hvalues other]
      by_cases hsame : other = edit.key
      · rw [hsame, if_neg hfresh, if_pos mem_cons_self, Edit.apply, Function.update_self, hnew]
      · rw [Edit.apply, Function.update_of_ne hsame]
        simp only [mem_cons, hsame, false_or]

end Oxpinyin.Patch
