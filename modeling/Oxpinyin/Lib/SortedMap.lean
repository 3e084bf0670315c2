import Oxpinyin.Lib.FiniteMap

/-!
# Sorted maps

A `SortedMap` is the ascending list of a finite map, the order carried by the value. Its
lookups and edits are those of the map (`get?_insert`, `get?_erase`), and its entries list
it (`lists`).
-/

set_option linter.unusedSectionVars false

namespace Oxpinyin.FiniteMap

open List Function
open Option hiding mem_map

/-- A finite map by its entries, ascending by key. -/
@[ext] structure SortedMap (κ ν : Type*) [LT κ] where
  entries : List (κ × ν)
  ascending : entries.Pairwise fun a b => a.1 < b.1

instance transBitVec {w : Nat} : Trans (α := BitVec w) (· < ·) (· < ·) (· < ·) := ⟨BitVec.lt_trans⟩

instance transBytes : Trans (α := List UInt8) (· < ·) (· < ·) (· < ·) := ⟨fun hab hbc => List.lt_trans hab hbc⟩

namespace SortedMap

variable {κ ν : Type*} [LT κ] [DecidableEq κ] [DecidableLT κ]

/-- The map with no entry. -/
def empty : SortedMap κ ν := ⟨[], List.Pairwise.nil⟩

/-- The value of a key. -/
def get? (map : SortedMap κ ν) (k : κ) : Option ν :=
  (map.entries.find? fun entry => entry.1 = k).map Prod.snd

/-- The map without a key. -/
def erase (map : SortedMap κ ν) (k : κ) : SortedMap κ ν :=
  ⟨map.entries.filter fun entry => entry.1 ≠ k, map.ascending.filter _⟩

/-- The entries of the keys a test passes. -/
def retain (map : SortedMap κ ν) (p : κ → Bool) : SortedMap κ ν :=
  ⟨map.entries.filter fun entry => p entry.1, map.ascending.filter _⟩

variable [Std.Irrefl (α := κ) (· < ·)] [Trans (α := κ) (· < ·) (· < ·) (· < ·)] {map : SortedMap κ ν}

/-- The map with an entry written at its key's place. -/
def insert (map : SortedMap κ ν) (k : κ) (v : ν) : SortedMap κ ν :=
  ⟨(map.entries.filter fun entry => entry.1 < k) ++
      (k, v) :: (map.entries.filter fun entry => k < entry.1), by
    refine List.pairwise_append.mpr ⟨map.ascending.filter _,
      List.pairwise_cons.mpr ⟨fun entry hentry => ?_, map.ascending.filter _⟩, ?_⟩
    · simpa using (List.mem_filter.mp hentry).2
    · intro a ha b hb
      have hlow : a.1 < k := by simpa using (List.mem_filter.mp ha).2
      rcases List.mem_cons.mp hb with rfl | hb
      · exact hlow
      · exact Trans.trans hlow (by simpa using (List.mem_filter.mp hb).2)⟩

/-- The map with an entry for a key that has none. -/
def orInsert (map : SortedMap κ ν) (k : κ) (v : ν) : SortedMap κ ν :=
  if (map.get? k).isSome then map else map.insert k v

/-- The entries written one by one. -/
def insertAll (map : SortedMap κ ν) (entries : List (κ × ν)) : SortedMap κ ν :=
  entries.foldl (fun map entry => map.insert entry.1 entry.2) map

theorem lists (map : SortedMap κ ν) : Lists map.entries map.get? := by
  obtain ⟨m, hm⟩ := exists_lists map.ascending
  have hget : map.get? = m := by
    ext1 k
    rw [get?]
    cases hfind : map.entries.find? fun entry => entry.1 = k with
    | none =>
      cases hk : m k with
      | none => rfl
      | some v => simpa using find?_eq_none.mp hfind _ ((hm.mem k v).mpr hk)
    | some entry =>
      have hkey : entry.1 = k := by simpa using find?_some hfind
      subst hkey
      exact ((hm.mem entry.1 entry.2).mp (mem_of_find?_eq_some hfind)).symm
  rwa [hget]

@[simp] theorem get?_empty : (empty : SortedMap κ ν).get? = fun _ => none := rfl

theorem get?_retain (map : SortedMap κ ν) (p : κ → Bool) :
    (map.retain p).get? = fun k => if p k = true then map.get? k else none := by
  ext k v
  rw [← (map.retain p).lists.mem k v]
  exact (map.lists.restrict p).mem k v

theorem get?_erase (map : SortedMap κ ν) (k : κ) : (map.erase k).get? = update map.get? k none := by
  ext j v
  rw [← (map.erase k).lists.mem j v, erase, mem_filter, map.lists.mem, update_apply]
  split_ifs with hj
  · simp [hj]
  · simp [hj]

/-- The map without several keys. -/
theorem get?_foldl_erase (keys : List κ) : ∀ map : SortedMap κ ν,
    (keys.foldl erase map).get? = fun k => if k ∈ keys then none else map.get? k := by
  induction keys with
  | nil =>
    intro map
    ext1 k
    rw [foldl_nil, if_neg not_mem_nil]
  | cons key keys ih =>
    intro map
    rw [foldl_cons, ih, get?_erase]
    ext1 k
    by_cases hk : k = key
    · rw [hk, update_self, if_pos mem_cons_self, ite_self]
    · simp [hk]

variable [Std.Trichotomous (α := κ) (· < ·)]

theorem get?_insert (map : SortedMap κ ν) (k : κ) (v : ν) : (map.insert k v).get? = update map.get? k (some v) := by
  ext j u
  rw [← (map.insert k v).lists.mem j u, insert, mem_append, mem_cons, mem_filter,
    mem_filter, map.lists.mem, update_apply]
  rcases lt_or_eq_or_gt j k with hlt | rfl | hgt
  · have hge : ¬k < j := lt_asymm hlt
    simp [hlt, hge, ne_of_lt hlt]
  · simp [Std.Irrefl.irrefl (r := fun a b : κ => a < b) j, eq_comm]
  · have hle : ¬j < k := lt_asymm hgt
    simp [hgt, hle, (ne_of_lt hgt).symm]

theorem get?_orInsert (map : SortedMap κ ν) (k : κ) (v : ν) :
    (map.orInsert k v).get? = fun j => (map.get? j).or (if j = k then some v else none) := by
  ext1 j
  rw [orInsert]
  by_cases hj : j = k
  · subst hj
    cases hget : map.get? j with
    | none => simp [get?_insert]
    | some u => simp [hget]
  · split_ifs
    · rw [or_none]
    · rw [get?_insert, update_of_ne hj, or_none]

theorem get?_foldl_orInsert (v : ν) (keys : List κ) : ∀ map : SortedMap κ ν,
    (keys.foldl (fun map k => map.orInsert k v) map).get? =
      fun j => (map.get? j).or (if j ∈ keys then some v else none) := by
  induction keys with
  | nil =>
    intro map
    simp
  | cons key keys ih =>
    intro map
    rw [foldl_cons, ih, get?_orInsert]
    ext1 j
    by_cases hj : j = key
    · subst hj
      cases hget : map.get? j with
      | none => simp [hget]
      | some u => simp [hget]
    · simp [hj]

/-- Writing the list of a map over another. -/
theorem get?_insertAll {entries : List (κ × ν)} {m : κ → Option ν} (h : Lists entries m) :
    (map.insertAll entries).get? = fun k => (m k).or (map.get? k) := by
  induction entries generalizing map m with
  | nil =>
    ext1 k
    rw [h.eq_none, none_or, insertAll, foldl_nil]
  | cons entry rest ih =>
    obtain ⟨k, v⟩ := entry
    have hget : m k = some v := (h.mem k v).mp mem_cons_self
    have hrest := @ih (map.insert k v) _ h.tail
    rw [insertAll, foldl_cons, ← insertAll, hrest, get?_insert]
    ext1 j
    by_cases hj : j = k
    · rw [hj, update_self, update_self, hget, none_or, some_or]
    · rw [update_of_ne hj, update_of_ne hj]

/-- Every value rewritten in place. -/
theorem get?_foldl_insert (f : κ → ν → ν) (map : SortedMap κ ν) :
    (map.entries.foldl (fun rewritten entry => rewritten.insert entry.1 (f entry.1 entry.2)) map).get? =
      fun k => (map.get? k).map (f k) := by
  have hlists : Lists (map.entries.map fun entry => (entry.1, f entry.1 entry.2))
      fun k => (map.get? k).map (f k) := by
    refine ⟨pairwise_map.mpr map.ascending, fun k v => ?_⟩
    rw [mem_map, Option.map_eq_some_iff]
    constructor
    · rintro ⟨entry, hentry, heq⟩
      obtain ⟨rfl, rfl⟩ := Prod.mk.injEq .. ▸ heq
      exact ⟨entry.2, (map.lists.mem entry.1 entry.2).mp hentry, rfl⟩
    · rintro ⟨old, hold, rfl⟩
      exact ⟨(k, old), (map.lists.mem k old).mpr hold, rfl⟩
  have hall := @get?_insertAll _ _ _ _ _ _ _ map _ _ _ hlists
  rw [insertAll, foldl_map] at hall
  rw [hall]
  ext1 k
  cases map.get? k with
  | none => rfl
  | some v => rfl

/-- A map collected from its list. -/
theorem entries_insertAll_empty {entries : List (κ × ν)} {m : κ → Option ν} (h : Lists entries m) :
    ((empty : SortedMap κ ν).insertAll entries).entries = entries := by
  have hget : ((empty : SortedMap κ ν).insertAll entries).get? = m := by
    rw [get?_insertAll h]
    ext1 k
    rw [get?_empty, or_none]
  exact ((hget ▸ lists _).unique h)

end SortedMap

end Oxpinyin.FiniteMap
