import Oxpinyin.ChunkFile
import Oxpinyin.Generation
import Oxpinyin.Lib.SortedMap
import Mathlib.Data.BitVec

/-!
# Counting every item once

`addUnigram` counts one token : the facade total always when the library is loaded, the item and the
library total when the item is resident and the library total does not wrap. `addUnigramToEveryItem`
counts all resident items of each library at once, for the tokens from slot 1 to the last resident slot.

The two agree unless an item stands in slot 0, before the first token of its library, and the library
has room for one count more (`bulk_eq_walk_iff`).
-/

namespace Oxpinyin

open Function List Option ChunkFile FiniteMap
open BitVec hiding not_or

/-- One loaded library : its resident items by slot, and its stored total. -/
@[ext] structure Library where
  items : SortedMap (BitVec 32) ChunkItem
  total : BitVec 32

namespace Library

/-- Adds to the item of a slot and to the total. -/
def count (library : Library) (slot delta : BitVec 32) : Library :=
  match library.items.get? slot with
  | some item =>
    ⟨library.items.insert slot { item with unigram := item.unigram + delta }, library.total + delta⟩
  | none => library

/-- Whether the total would wrap. -/
def overflows (library : Library) (delta : BitVec 32) : Bool := library.total + delta < library.total

/-- `SubPhraseIndex::add_unigram_frequency` : an absent item and a total that would wrap stay. -/
def addUnigram (library : Library) (slot delta : BitVec 32) : Library :=
  match library.items.get? slot with
  | none => library
  | some _ => if 0 < delta ∧ library.overflows delta then library else library.count slot delta

/-- Counts the items of the slots, until the total would wrap. -/
def countItems (library : Library) : List (BitVec 32) → Library
  | [] => library
  | slot :: slots => if library.overflows 1 then library else (library.count slot 1).countItems slots

/-- The resident slots, in ascending order. -/
def slots (library : Library) : List (BitVec 32) := library.items.entries.map Prod.fst

/-- The last resident slot, 0 in an empty library. -/
def lastSlot (library : Library) : BitVec 32 := library.slots.getLast?.getD 0

end Library

open Library

/-- The loaded libraries by index, and the facade total. -/
@[ext] structure Libraries where
  byIndex : Fin 16 → Option Library
  total : BitVec 32

/-- The index of a token's library. -/
def libraryOf (token : PhraseToken) : Fin 16 := Fin.ofNat 16 (phraseIndexLibrary token)

/-- `PHRASE_INDEX_MAKE_TOKEN`. -/
def makeToken (library : Fin 16) (slot : BitVec 32) : PhraseToken :=
  (BitVec.ofNat 32 library.val <<< 24) ||| slot

namespace Libraries

/-- Adds to one token. -/
def addUnigram (libraries : Libraries) (token delta : BitVec 32) : Libraries :=
  match libraries.byIndex (libraryOf token) with
  | none => libraries
  | some library =>
    ⟨Function.update libraries.byIndex (libraryOf token)
      (some (library.addUnigram (token &&& phraseMask) delta)), libraries.total + delta⟩

/-- Adds one to every resident item. -/
def addUnigramToEveryItem (libraries : Libraries) : Libraries :=
  (List.finRange 16).foldl (fun libraries index =>
    match libraries.byIndex index with
    | none => libraries
    | some library =>
      ⟨Function.update libraries.byIndex index (some (library.countItems library.slots)),
        libraries.total + library.lastSlot⟩) libraries

/-- The tokens of a library, from slot 1 to its last resident slot. -/
def tokens (index : Fin 16) (library : Library) : List PhraseToken :=
  (List.range library.lastSlot.toNat).map fun slot => makeToken index (BitVec.ofNat 32 (slot + 1))

/-- Adds one to every token of each library. -/
def addUnigramToEveryToken (libraries : Libraries) : Libraries :=
  (List.finRange 16).foldl (fun libraries index =>
    match libraries.byIndex index with
    | none => libraries
    | some library => (tokens index library).foldl (fun libraries token => libraries.addUnigram token 1) libraries)
    libraries

end Libraries

/-! ## One library -/

namespace Library

variable {library : Library} {slot : BitVec 32}

theorem addUnigram_of_none (h : library.items.get? slot = none) (delta : BitVec 32) :
    library.addUnigram slot delta = library := by
  rw [addUnigram, h]

theorem addUnigram_one (h : (library.items.get? slot).isSome) :
    library.addUnigram slot 1 = if library.overflows 1 then library else library.count slot 1 := by
  obtain ⟨item, hitem⟩ := isSome_iff_exists.mp h
  rw [addUnigram, hitem]
  simp

theorem get?_count (library : Library) (slot delta : BitVec 32) (other : BitVec 32) :
    (library.count slot delta).items.get? other =
      if other = slot then (library.items.get? slot).map fun item => { item with unigram := item.unigram + delta }
      else library.items.get? other := by
  unfold count
  cases hitem : library.items.get? slot with
  | none =>
    dsimp only
    split_ifs with heq
    · rw [heq, hitem, map_none]
    · rfl
  | some item =>
    dsimp only
    rw [SortedMap.get?_insert, update_apply, map_some]

/-- Counting moves no item. -/
@[simp] theorem isSome_count (library : Library) (slot delta other : BitVec 32) :
    ((library.count slot delta).items.get? other).isSome = (library.items.get? other).isSome := by
  rw [get?_count]
  split_ifs with heq
  · rw [heq, isSome_map]
  · rfl

theorem countItems_of_overflows (h : library.overflows 1 = true) (slots : List (BitVec 32)) :
    library.countItems slots = library := by
  cases slots with
  | nil => rfl
  | cons slot slots => rw [countItems, if_pos h]

/-- The walk over tokens counts those that are resident. -/
theorem foldl_addUnigram (slots : List (BitVec 32)) : ∀ library : Library,
    slots.foldl (fun library slot => library.addUnigram slot 1) library =
      library.countItems (slots.filter fun slot => (library.items.get? slot).isSome) := by
  induction slots with
  | nil => exact fun _ => rfl
  | cons slot slots ih =>
    intro library
    rw [foldl_cons, ih, filter_cons]
    by_cases hsome : (library.items.get? slot).isSome = true
    · rw [if_pos hsome, addUnigram_one hsome, countItems]
      split_ifs with hfull
      · exact countItems_of_overflows hfull _
      · simp
    · rw [if_neg hsome, addUnigram_of_none (by simpa using hsome)]

/-- A slot that is not counted keeps its item. -/
theorem get?_countItems {slots : List (BitVec 32)} {slot : BitVec 32} (h : slot ∉ slots) :
    ∀ library : Library, (library.countItems slots).items.get? slot = library.items.get? slot := by
  induction slots with
  | nil => exact fun _ => rfl
  | cons first slots ih =>
    intro library
    rw [mem_cons, not_or] at h
    rw [countItems]
    split_ifs
    · rfl
    · rw [ih h.2, get?_count, if_neg h.1]

theorem mem_slots : slot ∈ library.slots ↔ (library.items.get? slot).isSome := by
  rw [slots, List.mem_map, isSome_iff_exists]
  constructor
  · rintro ⟨entry, hentry, rfl⟩
    exact ⟨entry.2, (library.items.lists.mem _ _).mp hentry⟩
  · rintro ⟨item, hitem⟩
    exact ⟨(slot, item), (library.items.lists.mem _ _).mpr hitem, rfl⟩

theorem ascending_slots (library : Library) : library.slots.Pairwise (· < ·) :=
  pairwise_map.mpr library.items.ascending

theorem le_lastSlot (h : slot ∈ library.slots) : slot ≤ library.lastSlot := by
  obtain ⟨front, last, hsplit⟩ := (eq_nil_or_concat library.slots).resolve_left (ne_nil_of_mem h)
  rw [concat_eq_append] at hsplit
  have hlast : library.lastSlot = last := by
    rw [lastSlot, hsplit, getLast?_concat, getD_some]
  have hascending := library.ascending_slots
  rw [hsplit] at h hascending
  rw [hlast]
  rcases mem_append.mp h with h | h
  · exact BitVec.le_of_lt ((pairwise_append.mp hascending).2.2 slot h last mem_cons_self)
  · rw [mem_singleton.mp h]
    exact BitVec.le_refl _

/-- The slots from 1 to the last. -/
def walk (library : Library) : List (BitVec 32) :=
  (List.range library.lastSlot.toNat).map fun slot => BitVec.ofNat 32 (slot + 1)

theorem toNat_walk (library : Library) {n : Nat} (hn : n ∈ List.range library.lastSlot.toNat) :
    (BitVec.ofNat 32 (n + 1)).toNat = n + 1 := by
  have hlt := mem_range.mp hn
  rw [toNat_ofNat, Nat.mod_eq_of_lt (by omega)]

theorem ascending_walk (library : Library) : library.walk.Pairwise (· < ·) := by
  refine pairwise_map.mpr (pairwise_lt_range.imp_of_mem fun {a b} ha hb hab => ?_)
  rw [lt_def, library.toNat_walk ha, library.toNat_walk hb]
  exact Nat.succ_lt_succ hab

theorem mem_walk : slot ∈ library.walk ↔ slot ≠ 0 ∧ slot ≤ library.lastSlot := by
  rw [walk, List.mem_map]
  constructor
  · rintro ⟨n, hn, rfl⟩
    have hnat := library.toNat_walk hn
    refine ⟨fun hzero => ?_, ?_⟩
    · rw [hzero] at hnat
      cases hnat
    · rw [le_def, hnat]
      exact mem_range.mp hn
  · rintro ⟨hne, hle⟩
    have hpos : slot.toNat ≠ 0 := fun hzero => hne (eq_of_toNat_eq hzero)
    rw [le_def] at hle
    refine ⟨slot.toNat - 1, mem_range.mpr (by omega), ?_⟩
    rw [Nat.sub_add_cancel (by omega), ofNat_toNat, setWidth_eq]

/-- The resident slots of the walk are the resident slots without slot 0. -/
theorem filter_walk (library : Library) :
    library.walk.filter (fun slot => (library.items.get? slot).isSome) = library.slots.filter (· ≠ 0) := by
  refine @eq_of_ascending (BitVec 32) _ _ _ _ _ id _ _ (library.ascending_walk.filter _)
    (library.ascending_slots.filter _) fun slot => ?_
  rw [mem_filter, mem_filter, mem_walk, ← mem_slots]
  simp only [ne_eq, decide_not, Bool.not_eq_true', decide_eq_false_iff_not]
  exact ⟨fun h => ⟨h.2, h.1.1⟩, fun h => ⟨⟨h.2, le_lastSlot h.1⟩, h.1⟩⟩

/-- Slot 0 stands before all others. -/
theorem slots_eq_cons (h : (0 : BitVec 32) ∈ library.slots) : library.slots = 0 :: library.slots.filter (· ≠ 0) := by
  refine @eq_of_ascending (BitVec 32) _ _ _ _ _ id _ _ library.ascending_slots
    (pairwise_cons.mpr ⟨fun slot hslot => ?_, library.ascending_slots.filter _⟩) fun slot => ?_
  · have hne : slot ≠ 0 := by simpa using (mem_filter.mp hslot).2
    rw [lt_def]
    exact Nat.pos_of_ne_zero fun hzero => hne (eq_of_toNat_eq hzero)
  · rw [mem_cons, mem_filter, decide_eq_true_eq]
    constructor
    · exact fun hslot => (eq_or_ne slot 0).imp_right fun hne => ⟨hslot, hne⟩
    · rintro (rfl | hslot)
      · exact h
      · exact hslot.1

theorem overflows_one : library.overflows 1 = true ↔ library.total = 0xFFFFFFFF := by
  rw [overflows, decide_eq_true_eq, lt_def, toNat_add, ← toNat_inj]
  have hword := library.total.isLt
  have hone : (1 : BitVec 32).toNat = 1 := rfl
  have hmax : (0xFFFFFFFF : BitVec 32).toNat = 2 ^ 32 - 1 := rfl
  rw [hone, hmax]
  omega

/-- All resident items are those of the walk, unless slot 0 is one and the total has room. -/
theorem countItems_eq_iff (library : Library) :
    library.countItems library.slots = library.countItems (library.slots.filter (· ≠ 0)) ↔
      ((library.items.get? 0).isSome → library.overflows 1 = true) := by
  by_cases hzero : (0 : BitVec 32) ∈ library.slots
  · rw [← mem_slots]
    simp only [hzero, true_imp_iff]
    constructor
    · intro heq
      by_contra hroom
      rw [slots_eq_cons hzero, countItems, if_neg hroom] at heq
      have hnot : (0 : BitVec 32) ∉ library.slots.filter (· ≠ 0) := by simp
      have hitem := congrArg (fun result => result.items.get? 0) heq
      simp only [filter_cons, ne_eq, not_true_eq_false, decide_false, Bool.false_eq_true, if_false,
        List.filter_filter, Bool.and_self] at hitem
      rw [get?_countItems hnot, get?_countItems hnot, get?_count, if_pos rfl] at hitem
      obtain ⟨item, hget⟩ := isSome_iff_exists.mp (mem_slots.mp hzero)
      rw [hget, map_some, Option.some.injEq] at hitem
      have hunigram := congrArg ChunkItem.unigram hitem
      simp at hunigram
    · intro hfull
      rw [countItems_of_overflows hfull, countItems_of_overflows hfull]
  · have hall : library.slots.filter (· ≠ 0) = library.slots :=
      filter_eq_self.mpr fun slot hslot => by
        simp only [ne_eq, decide_eq_true_eq]
        rintro rfl
        exact hzero hslot
    rw [hall, ← mem_slots]
    exact ⟨fun _ h => absurd h hzero, fun _ => rfl⟩

end Library

/-! ## All libraries -/

namespace Libraries

/-- Every resident slot is one of a token. -/
def Masked (library : Library) : Prop := ∀ slot ∈ library.slots, slot ≤ phraseMask

theorem Masked.lastSlot {library : Library} (h : Masked library) : library.lastSlot ≤ phraseMask := by
  rw [Library.lastSlot]
  cases hlast : library.slots.getLast? with
  | none => decide
  | some slot => exact h slot (mem_of_getLast? hlast)

section

variable (index : Fin 16) {slot : BitVec 32} (h : slot ≤ phraseMask)
include h

theorem toNat_makeToken : (makeToken index slot).toNat = index.val * 2 ^ 24 + slot.toNat := by
  have hlt : slot.toNat < 2 ^ 24 := Nat.lt_succ_of_le (le_def.mp h)
  have hindex := index.isLt
  have hhigh : (BitVec.ofNat 32 index.val <<< 24).toNat = index.val * 2 ^ 24 := by
    rw [toNat_shiftLeft, toNat_ofNat, Nat.shiftLeft_eq, Nat.mod_eq_of_lt (by omega),
      Nat.mod_eq_of_lt (by omega)]
  rw [makeToken, toNat_or, hhigh, Nat.mul_comm, Nat.two_pow_add_eq_or_of_lt hlt]

theorem libraryOf_makeToken : libraryOf (makeToken index slot) = index := by
  have hlt : slot.toNat < 2 ^ 24 := Nat.lt_succ_of_le (le_def.mp h)
  have hindex := index.isLt
  refine Fin.ext ?_
  rw [libraryOf, Fin.val_ofNat, phraseIndexLibrary, toNat_and, toNat_ushiftRight,
    toNat_makeToken index h, Nat.shiftRight_eq_div_pow]
  have hmask : (0x0f#32).toNat = 2 ^ 4 - 1 := rfl
  rw [hmask, Nat.and_two_pow_sub_one_eq_mod]
  omega

theorem makeToken_and_phraseMask : makeToken index slot &&& phraseMask = slot := by
  have hlt : slot.toNat < 2 ^ 24 := Nat.lt_succ_of_le (le_def.mp h)
  apply eq_of_toNat_eq
  have hmask : phraseMask.toNat = 2 ^ 24 - 1 := rfl
  rw [toNat_and, toNat_makeToken index h, hmask, Nat.and_two_pow_sub_one_eq_mod]
  omega

end

/-- The tokens of one library change that library alone, and the facade total by their number. -/
theorem foldl_addUnigram {index : Fin 16} {slots : List (BitVec 32)} (h : ∀ slot ∈ slots, slot ≤ phraseMask) :
    ∀ {libraries : Libraries} {library : Library}, libraries.byIndex index = some library →
      (slots.map (makeToken index)).foldl (fun libraries token => libraries.addUnigram token 1) libraries =
        ⟨update libraries.byIndex index
          (some (slots.foldl (fun library slot => library.addUnigram slot 1) library)),
          libraries.total + BitVec.ofNat 32 slots.length⟩ := by
  induction slots with
  | nil =>
    intro libraries library hlibrary
    simp [← hlibrary]
  | cons slot slots ih =>
    intro libraries library hlibrary
    have hslot := h slot mem_cons_self
    have hstep : libraries.addUnigram (makeToken index slot) 1 =
        ⟨update libraries.byIndex index (some (library.addUnigram slot 1)), libraries.total + 1⟩ := by
      rw [addUnigram, libraryOf_makeToken index hslot, hlibrary, makeToken_and_phraseMask index hslot]
    rw [map_cons, foldl_cons, hstep,
      ih (fun s hs => h s (mem_cons_of_mem _ hs)) (update_self ..), foldl_cons]
    simp only [update_idem, length_cons, ofNat_add, add_assoc]
    rw [add_comm 1]
    rfl

/-- A pass over the indexes that changes each library by itself. -/
theorem foldl_each {step : Libraries → Fin 16 → Libraries} {change : Library → Library}
    {gain : Library → BitVec 32} {good : Library → Prop}
    (hnone : ∀ libraries index, libraries.byIndex index = none → step libraries index = libraries)
    (hsome : ∀ libraries index library, libraries.byIndex index = some library → good library →
      step libraries index =
        ⟨update libraries.byIndex index (some (change library)), libraries.total + gain library⟩) :
    ∀ {indexes : List (Fin 16)}, indexes.Nodup → ∀ {libraries : Libraries},
      (∀ index library, libraries.byIndex index = some library → good library ∨ index ∉ indexes) →
      indexes.foldl step libraries =
        ⟨fun index => if index ∈ indexes then (libraries.byIndex index).map change else libraries.byIndex index,
          libraries.total + (indexes.map fun index => ((libraries.byIndex index).map gain).getD 0).sum⟩ := by
  intro indexes hnodup
  induction indexes with
  | nil =>
    intro libraries _
    simp
  | cons first rest ih =>
    intro libraries hgood
    obtain ⟨hfirst, hrest⟩ := nodup_cons.mp hnodup
    have hother : ∀ index, index ∈ rest → index ≠ first := fun index hindex heq => hfirst (heq ▸ hindex)
    rw [foldl_cons]
    cases hlibrary : libraries.byIndex first with
    | none =>
      rw [hnone _ _ hlibrary, ih hrest fun index library hindex =>
        (hgood index library hindex).imp_right fun hnot hmem => hnot (mem_cons_of_mem _ hmem)]
      refine Libraries.ext (funext fun index => ?_) ?_
      · by_cases heq : index = first
        · simp [heq, hfirst, hlibrary]
        · simp [heq]
      · simp [hlibrary]
    | some library =>
      have hlib := (hgood first library hlibrary).resolve_right fun hnot => hnot mem_cons_self
      rw [hsome _ _ _ hlibrary hlib, ih hrest fun index other hindex => ?_]
      · refine Libraries.ext (funext fun index => ?_) ?_
        · by_cases heq : index = first
          · simp [heq, hfirst, hlibrary]
          · simp [heq]
        · have hsame : rest.map (fun index => (((update libraries.byIndex first
              (some (change library))) index).map gain).getD 0) =
              rest.map fun index => ((libraries.byIndex index).map gain).getD 0 :=
            map_congr_left fun index hindex => by rw [update_of_ne (hother index hindex)]
          simp only [hsame, map_cons, sum_cons, hlibrary, map_some, getD_some, add_assoc]
      · by_cases heq : index = first
        · exact Or.inr (heq ▸ hfirst)
        · dsimp only at hindex
          rw [update_of_ne heq] at hindex
          exact (hgood index other hindex).imp_right fun hnot hmem => hnot (mem_cons_of_mem _ hmem)

theorem addUnigramToEveryItem_eq (libraries : Libraries) : libraries.addUnigramToEveryItem =
    ⟨fun index => (libraries.byIndex index).map fun library => library.countItems library.slots,
      libraries.total + ((List.finRange 16).map fun index =>
        ((libraries.byIndex index).map lastSlot).getD 0).sum⟩ := by
  unfold addUnigramToEveryItem
  rw [@foldl_each _ (fun library => library.countItems library.slots) lastSlot (fun _ => True)
    (fun libraries index hnone => by rw [hnone])
    (fun libraries index library hsome _ => by rw [hsome]) _ (nodup_finRange 16) libraries
    fun _ _ _ => Or.inl trivial]
  simp

theorem addUnigramToEveryToken_eq {libraries : Libraries}
    (h : ∀ index library, libraries.byIndex index = some library → Masked library) :
    libraries.addUnigramToEveryToken =
      ⟨fun index => (libraries.byIndex index).map fun library =>
          library.countItems (library.slots.filter (· ≠ 0)),
        libraries.total + ((List.finRange 16).map fun index =>
          ((libraries.byIndex index).map lastSlot).getD 0).sum⟩ := by
  unfold addUnigramToEveryToken
  rw [@foldl_each _ (fun library => library.countItems (library.slots.filter (· ≠ 0))) lastSlot Masked
    (fun libraries index hnone => by rw [hnone])
    (fun libraries index library hsome hmasked => ?_) _ (nodup_finRange 16) libraries
    fun index library hlibrary => Or.inl (h index library hlibrary)]
  · simp
  · have hslots : ∀ slot ∈ library.walk, slot ≤ phraseMask := fun slot hslot =>
      BitVec.le_trans (mem_walk.mp hslot).2 hmasked.lastSlot
    have htokens : tokens index library = library.walk.map (makeToken index) := by
      rw [tokens, Library.walk, List.map_map]
      rfl
    rw [hsome]
    dsimp only
    rw [htokens, foldl_addUnigram hslots hsome, Library.foldl_addUnigram, Library.filter_walk, Library.walk,
      length_map, length_range, ofNat_toNat, setWidth_eq]

/-- Counting every item is counting every token from slot 1 on, exactly when each library with an item
in slot 0 is full. The slots are those of tokens. -/
theorem bulk_eq_walk_iff (libraries : Libraries)
    (h : ∀ index library, libraries.byIndex index = some library → Masked library) :
    libraries.addUnigramToEveryItem = libraries.addUnigramToEveryToken ↔
      ∀ index library, libraries.byIndex index = some library → (library.items.get? 0).isSome →
        library.total = 0xFFFFFFFF := by
  have hiff : ∀ library : Library, library.countItems library.slots =
      library.countItems (library.slots.filter (· ≠ 0)) ↔
        ((library.items.get? 0).isSome → library.total = 0xFFFFFFFF) := by
    intro library
    rw [library.countItems_eq_iff, Library.overflows_one]
  rw [addUnigramToEveryItem_eq, addUnigramToEveryToken_eq h]
  constructor
  · intro heq index library hlibrary
    have hsame := congrFun (congrArg Libraries.byIndex heq) index
    dsimp only at hsame
    rw [hlibrary, map_some, map_some, Option.some.injEq] at hsame
    exact (hiff library).mp hsame
  · intro hroom
    refine Libraries.ext (funext fun index => ?_) rfl
    dsimp only
    cases hlibrary : libraries.byIndex index with
    | none => rfl
    | some library => exact congrArg some ((hiff library).mpr (hroom index library hlibrary))

/-- One library at index 1. -/
def single (library : Library) : Libraries :=
  ⟨fun index => if index = 1 then some library else none, library.total⟩

/-- Two items with a gap, and room for one count. -/
def nearlyFull : Library :=
  ⟨⟨[(1, ⟨[20320], 7, []⟩), (3, ⟨[22909], 2, []⟩)], by simp⟩, 0xFFFFFFFE⟩

theorem bulk_eq_walk_nearlyFull :
    (single nearlyFull).addUnigramToEveryItem = (single nearlyFull).addUnigramToEveryToken := by
  have honly : ∀ index library, (single nearlyFull).byIndex index = some library → library = nearlyFull := by
    intro index library hlibrary
    change (if index = 1 then some nearlyFull else none) = some library at hlibrary
    split_ifs at hlibrary
    exact (some.inj hlibrary).symm
  refine (bulk_eq_walk_iff (single nearlyFull) fun index library hlibrary => ?_).mpr
    fun index library hlibrary hzero => ?_
  · rw [honly index library hlibrary]
    intro slot hslot
    simp only [Library.slots, nearlyFull, map_cons, map_nil, mem_cons, not_mem_nil,
      or_false] at hslot
    rcases hslot with rfl | rfl <;> decide
  · rw [honly index library hlibrary] at hzero
    exact absurd hzero (by decide)

/-- An item in slot 0. -/
def zeroSlot : Library := ⟨⟨[(0, ⟨[20320], 7, []⟩)], by simp⟩, 7⟩

theorem bulk_ne_walk_zeroSlot : (single zeroSlot).addUnigramToEveryItem ≠
    (single zeroSlot).addUnigramToEveryToken := by
  have hmasked : ∀ index library, (single zeroSlot).byIndex index = some library → Masked library := by
    intro index library hlibrary
    change (if index = 1 then some zeroSlot else none) = some library at hlibrary
    split_ifs at hlibrary
    rw [← some.inj hlibrary]
    intro slot hslot
    rw [mem_singleton.mp hslot]
    decide
  rw [addUnigramToEveryItem_eq, addUnigramToEveryToken_eq hmasked]
  intro h
  have hitems : some (zeroSlot.countItems zeroSlot.slots) =
      some (zeroSlot.countItems (zeroSlot.slots.filter (· ≠ 0))) := congrFun (congrArg Libraries.byIndex h) 1
  have htotals := congrArg (Option.map Library.total) hitems
  revert htotals
  decide

end Libraries

end Oxpinyin
