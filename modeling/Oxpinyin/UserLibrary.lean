import Oxpinyin.ChewingKey
import Oxpinyin.Lib.Blocks
import Oxpinyin.Lib.SortedMap
import Oxpinyin.PhraseItem

/-!
# The user library

The owned sub-index of a session : a slot table over a content area that only grows between
compactions. An edit leaves the bytes it replaces behind, and `compact` copies the live items
into a fresh library. The slot table is an array, or a sorted map once a slot lies far past
its end (`Slots.set`).
-/

namespace Oxpinyin

open Function List LittleEndian FiniteMap ChunkFile

/-! ## Slots -/

/-- The offset of each slot, zero for none. -/
inductive Slots where
  | dense (offsets : List (BitVec 32))
  | sparse (offsets : SortedMap (BitVec 32) (BitVec 32))

namespace Slots

/-- The slots of an array with an offset, in order. -/
def occupied (offsets : List (BitVec 32)) : List (BitVec 32 × BitVec 32) :=
  offsets.zipIdx.filterMap fun entry =>
    if entry.1 ≠ 0 then some (BitVec.ofNat 32 entry.2, entry.1) else none

/-- A slot this far past an array makes it a sorted map. -/
def Far (slots : Slots) (slot : BitVec 32) : Prop :=
  match slots with
  | dense offsets => offsets.length * 4 + 256 < slot.toNat
  | sparse _ => False

instance (slots : Slots) (slot : BitVec 32) : Decidable (slots.Far slot) :=
  match slots with
  | dense offsets => inferInstanceAs (Decidable (offsets.length * 4 + 256 < slot.toNat))
  | sparse _ => inferInstanceAs (Decidable False)

/-- The same slots as a sorted map. -/
def toSparse : Slots → Slots
  | dense offsets => sparse (SortedMap.empty.insertAll (occupied offsets))
  | sparse offsets => sparse offsets

/-- Writes an offset in the representation there is. -/
def write (slots : Slots) (slot offset : BitVec 32) : Slots :=
  match slots with
  | dense offsets =>
    let offsets := if offset ≠ 0 then resize offsets (max offsets.length (slot.toNat + 1)) 0 else offsets
    dense (offsets.set slot.toNat offset)
  | sparse offsets => sparse (if offset = 0 then offsets.erase slot else offsets.insert slot offset)

/-- Sets the offset of a slot. -/
def set (slots : Slots) (slot offset : BitVec 32) : Slots :=
  (if offset ≠ 0 ∧ slots.Far slot then slots.toSparse else slots).write slot offset

/-- An offset that names an item. -/
def live (offset : Option (BitVec 32)) : Option (BitVec 32) := offset.filter fun offset => offset ≠ 0

/-- The offset of a slot. -/
def offset : Slots → BitVec 32 → Option (BitVec 32)
  | dense offsets, slot => live offsets[slot.toNat]?
  | sparse offsets, slot => live (offsets.get? slot)

/-- The slots with an offset, in order. -/
def entries : Slots → List (BitVec 32 × BitVec 32)
  | dense offsets => occupied offsets
  | sparse offsets => offsets.entries

/-- The last slot with an offset. -/
def last : Slots → Option (BitVec 32)
  | dense offsets => (occupied offsets).getLast?.map Prod.fst
  | sparse offsets => offsets.entries.getLast?.map Prod.fst

/-- The tables with one entry a slot and no zero offset in the map. -/
def Ok : Slots → Prop
  | dense offsets => offsets.length ≤ 2 ^ 32
  | sparse offsets => ∀ entry ∈ offsets.entries, entry.2 ≠ 0

@[simp] theorem live_none : live none = none := rfl

theorem live_zero : live (some 0) = none := rfl

theorem live_of_ne {offset : BitVec 32} (h : offset ≠ 0) : live (some offset) = some offset := by
  rw [live, Option.filter_some_pos (by simpa using h)]

theorem live_eq_some {found : Option (BitVec 32)} {offset : BitVec 32} :
    live found = some offset ↔ found = some offset ∧ offset ≠ 0 := by
  rw [live, Option.filter_eq_some_iff, decide_eq_true_iff]

/-- The occupied slots list the offsets. -/
theorem lists_occupied {offsets : List (BitVec 32)} (h : offsets.length ≤ 2 ^ 32) :
    Lists (occupied offsets) (dense offsets).offset := by
  have hzip : offsets.zipIdx = (List.range offsets.length).map fun i => ((offsets[i]?).getD 0, i) := by
    refine ext_getElem (by simp) fun i hi _ => ?_
    rw [length_zipIdx] at hi
    simp [hi]
  have hoccupied : occupied offsets = (List.range offsets.length).filterMap fun i =>
      (live offsets[i]?).map (Prod.mk (BitVec.ofNat 32 i)) := by
    rw [occupied, hzip, filterMap_map]
    refine filterMap_congr fun i hi => ?_
    obtain ⟨offset, hoffset⟩ : ∃ offset, offsets[i]? = some offset := ⟨_, getElem?_eq_getElem (mem_range.mp hi)⟩
    rw [comp_apply, hoffset, Option.getD_some]
    by_cases hzero : offset = 0
    · rw [hzero, live_zero]
      rfl
    · rw [live_of_ne hzero, if_pos hzero, Option.map_some]
  have hlists := lists_slots h fun i => live offsets[i]?
  rw [← hoccupied] at hlists
  have hsame : (fun slot : BitVec 32 => if slot.toNat < offsets.length then live offsets[slot.toNat]?
      else none) = (dense offsets).offset := by
    ext1 slot
    split_ifs with hlt
    · rfl
    · rw [offset, getElem?_eq_none (by omega), live_none]
  rwa [hsame] at hlists

theorem offset_sparse {offsets : SortedMap (BitVec 32) (BitVec 32)} (h : (sparse offsets).Ok) :
    (sparse offsets).offset = offsets.get? := by
  ext slot offset
  rw [Slots.offset, live_eq_some, and_iff_left_iff_imp]
  exact fun hget => h (slot, offset) ((offsets.lists.mem slot offset).mpr hget)

variable {slots : Slots} (h : slots.Ok)
include h

/-- The entries list the offsets. -/
theorem Ok.lists : Lists slots.entries slots.offset := by
  match slots with
  | dense offsets => exact lists_occupied h
  | sparse offsets =>
    rw [offset_sparse h]
    exact offsets.lists

theorem Ok.toSparse : slots.toSparse.Ok ∧ slots.toSparse.offset = slots.offset := by
  match slots with
  | sparse offsets => exact ⟨h, rfl⟩
  | dense offsets =>
    have hentries := SortedMap.entries_insertAll_empty (lists_occupied h)
    have hok : (Slots.dense offsets).toSparse.Ok := by
      intro entry hentry
      rw [hentries] at hentry
      have hget := ((lists_occupied h).mem entry.1 entry.2).mp hentry
      exact (live_eq_some.mp hget).2
    refine ⟨hok, ?_⟩
    have hlists := hok.lists
    rw [show (Slots.dense offsets).toSparse.entries = occupied offsets from hentries] at hlists
    ext slot offset
    rw [← hlists.mem, (lists_occupied h).mem]

/-- A write of a slot updates the offsets as a map. -/
theorem Ok.write (slot offset : BitVec 32) :
    (slots.write slot offset).Ok ∧ (slots.write slot offset).offset =
      update slots.offset slot (if offset = 0 then none else some offset) := by
  match slots with
  | sparse offsets =>
    rw [offset_sparse h, Slots.write]
    split_ifs with hzero
    · have hok : (sparse (offsets.erase slot)).Ok := fun entry hentry => h entry (mem_filter.mp hentry).1
      exact ⟨hok, by rw [offset_sparse hok, SortedMap.get?_erase]⟩
    · have hok : (sparse (offsets.insert slot offset)).Ok := by
        intro entry hentry
        rcases mem_append.mp hentry with hlow | hhigh
        · exact h entry (mem_filter.mp hlow).1
        · rcases mem_cons.mp hhigh with rfl | hhigh
          · exact hzero
          · exact h entry (mem_filter.mp hhigh).1
      exact ⟨hok, by rw [offset_sparse hok, SortedMap.get?_insert]⟩
  | dense offsets =>
    have hslot := slot.isLt
    have hlength : offsets.length ≤ 2 ^ 32 := h
    have hothers : ∀ j, j ≠ slot → slot.toNat ≠ j.toNat := fun j hj heq => hj (BitVec.eq_of_toNat_eq heq.symm)
    rw [Slots.write]
    by_cases hzero : offset = 0
    · rw [if_neg (not_not.mpr hzero), if_pos hzero, hzero]
      refine ⟨?_, ?_⟩
      · rw [Slots.Ok, length_set]
        exact hlength
      · ext1 j
        rw [Slots.offset]
        by_cases hj : j = slot
        · rw [hj, update_self, getElem?_set]
          split_ifs
          · rfl
          · rfl
          · contradiction
        · rw [update_of_ne hj, getElem?_set_ne (hothers j hj), Slots.offset]
    · rw [if_pos hzero, if_neg hzero]
      refine ⟨?_, ?_⟩
      · rw [Slots.Ok, length_set, length_resize]
        omega
      · ext1 j
        rw [Slots.offset]
        by_cases hj : j = slot
        · rw [hj, update_self, getElem?_set_self (by rw [length_resize]; omega), live_of_ne hzero]
        · rw [update_of_ne hj, getElem?_set_ne (hothers j hj), Slots.offset]
          rcases Nat.lt_or_ge j.toNat (max offsets.length (slot.toNat + 1)) with hlt | hge
          · rw [getElem?_resize _ _ hlt]
            cases offsets[j.toNat]? with
            | none => rfl
            | some old => rfl
          · rw [getElem?_eq_none (by rw [length_resize]; exact hge), getElem?_eq_none (by omega)]

/-- A set is the update of the offsets, in whichever representation. -/
theorem Ok.set (slot offset : BitVec 32) :
    (slots.set slot offset).Ok ∧ (slots.set slot offset).offset =
      update slots.offset slot (if offset = 0 then none else some offset) := by
  rw [Slots.set]
  by_cases hfar : offset ≠ 0 ∧ slots.Far slot
  · obtain ⟨hok, hsame⟩ := h.toSparse
    rw [if_pos hfar, ← hsame]
    exact hok.write slot offset
  · rw [if_neg hfar]
    exact h.write slot offset

end Slots

/-! ## The library -/

/-- A session sub-index. -/
structure UserLibrary where
  total : BitVec 32
  slots : Slots
  content : Bytes
  headersOnly : Bool

/-- Where an item goes and what it changes. -/
structure Replacement where
  slot : BitVec 32
  offset : BitVec 32
  length : Nat
  unigram : BitVec 32
  /-- The item the slot names leaves the total first. -/
  removesOld : Bool

/-- A checked replacement with its bytes. -/
structure PreparedReplacement where
  bytes : Bytes
  change : Replacement

/-- Where the next item is added : the content length in 32 bits, 8 for zero. -/
def appendOffset (contentLen : Nat) : BitVec 32 :=
  if BitVec.ofNat 32 contentLen = 0 then 8 else BitVec.ofNat 32 contentLen

theorem appendOffset_ne_zero (contentLen : Nat) : appendOffset contentLen ≠ 0 := by
  rw [appendOffset]
  split_ifs with hzero
  · decide
  · exact hzero

namespace UserLibrary

/-- The library with nothing in it. -/
def empty : UserLibrary := ⟨0, .dense [], [], false⟩

section

variable (library : UserLibrary)

/-- One past the last slot, at least one. -/
def tokenEnd : Nat :=
  if library.headersOnly then 1
  else (library.slots.last.map fun last => max (min (last.toNat + 1) (2 ^ 32 - 1)) 1).getD 1

/-- The item of a slot. -/
def item (slot : BitVec 32) : Option PhraseItemView :=
  if library.headersOnly then none
  else
    (library.slots.offset slot).bind fun offset =>
      (range? library.content offset.toNat library.content.length).bind PhraseItemView.fromBytes

/-- The readable items, in slot order. -/
def items : List (BitVec 32 × PhraseItemView) :=
  library.slots.entries.filterMap fun entry => (library.item entry.1).map (Prod.mk entry.1)

/-- Where an item is added. -/
def placement (slot : BitVec 32) (view : PhraseItemView) : Replacement :=
  ⟨slot, if library.headersOnly then 8 else appendOffset library.content.length, view.bytes.length,
    view.unigram, true⟩

/-- The checked replacement of a slot's item. -/
def replacement (slot : BitVec 32) (bytes : Bytes) : Except String Replacement :=
  if phraseMask < slot then .error "user phrase slot exceeds PHRASE_MASK"
  else
    match PhraseItemView.fromBytes bytes with
    | none => .error "invalid user phrase body"
    | some view => .ok (library.placement slot view)

/-- Takes an item out of the slots and the total. Its bytes stay. -/
def removeBody (slot : BitVec 32) : UserLibrary × Bool :=
  match library.item slot with
  | none => (library, false)
  | some item =>
    ({ library with slots := library.slots.set slot 0, total := library.total - item.unigram }, true)

end

/-- The content with its first eight bytes. -/
def reserved (content : Bytes) : Bytes := if content.length < 8 then resize content 8 0 else content

/-- Bytes written at a place : over earlier ones, or past the end. -/
def setContent (content : Bytes) (start : Nat) (bytes : Bytes) : Bytes :=
  overwrite (if content.length < start + bytes.length then resize content (start + bytes.length) 0
    else content) start bytes

/-- The item written at its offset, the one the slot names taken out first. -/
def applyReplacement (library : UserLibrary) (change : Replacement) (bytes : Bytes) : UserLibrary :=
  let library := if library.headersOnly then empty else library
  let library := if change.removesOld then (library.removeBody change.slot).1 else library
  { library with
    content := setContent (reserved library.content) change.offset.toNat (bytes.take change.length)
    slots := library.slots.set change.slot change.offset
    total := library.total + change.unigram }

/-- Replaces a slot's item. -/
def replace (library : UserLibrary) (slot : BitVec 32) (bytes : Bytes) : Except String UserLibrary :=
  (library.replacement slot bytes).map fun change => library.applyReplacement change bytes

/-- Prepares an item to be added, the one the slot names left in the total. -/
def prepareAdd (library : UserLibrary) (slot : BitVec 32) (bytes : Bytes) :
    Except String PreparedReplacement :=
  (library.replacement slot bytes).map fun change => ⟨bytes, { change with removesOld := false }⟩

end UserLibrary

/-- Applies a prepared replacement. -/
def PreparedReplacement.apply (prepared : PreparedReplacement) (library : UserLibrary) : UserLibrary :=
  library.applyReplacement prepared.change prepared.bytes

namespace UserLibrary

/-- Removes a slot's item. -/
def remove (library : UserLibrary) (slot : BitVec 32) : UserLibrary × Bool :=
  library.removeBody slot

/-- Removes the items of the selected slots. -/
def removeMatching (library : UserLibrary) (selected : BitVec 32 → Bool) : UserLibrary :=
  ((library.items.map Prod.fst).filter selected).foldl (fun library slot => (library.removeBody slot).1)
    library

/-- Adds to an item's frequency, in place. -/
def incrementUnigram (library : UserLibrary) (slot delta : BitVec 32) : UserLibrary × Bool :=
  match library.item slot, library.slots.offset slot with
  | some item, some offset =>
    ({ library with
        content := overwrite library.content (offset.toNat + 2) (le32 (item.unigram + delta))
        total := library.total + delta }, true)
  | _, _ => (library, false)

/-- Stored keys are those given, the unused bit of each apart. -/
def sameKeys (stored : Bytes) (keys : List (BitVec 16)) : Bool :=
  (((chunks 2 stored).map word16).zip keys).all fun pair => pair.1 &&& 0x7fff == pair.2 &&& 0x7fff

/-- The first reading with the keys : its place, its frequency, and whether the frequencies up to
it have room for a delta. -/
def findReading (keys : List (BitVec 16)) (delta : BitVec 32) :
    List PronunciationView → Nat → BitVec 32 → Option (Nat × BitVec 32 × Bool)
  | [], _, _ => none
  | reading :: rest, i, total =>
    let total := total + reading.freq
    if sameKeys reading.keys keys then some (i, reading.freq, decide (total.toNat + delta.toNat < 2 ^ 32))
    else findReading keys delta rest (i + 1) total

/-- The item's bytes with a reading more. A count that wraps leaves none. -/
def pushReading (bytes : Bytes) (keys : List (BitVec 16)) (delta : BitVec 32) : Bytes :=
  let bytes := bytes.modify 1 (· + 1)
  if bytes[1]? = some 0 then bytes.take (itemHeaderSize + keys.length * 4)
  else bytes ++ keys.flatMap le16 ++ le32 delta

/-- Adds a reading, or to the frequency of the one with its keys. -/
def addReading (library : UserLibrary) (slot : BitVec 32) (keys : List (BitVec 16)) (delta : BitVec 32) :
    Except String UserLibrary :=
  match library.item slot with
  | none => .error "missing user phrase"
  | some item =>
    if item.phraseLength ≠ keys.length then .error "user phrase reading length differs"
    else
      match findReading keys delta item.pronunciations 0 0 with
      | none => library.replace slot (pushReading item.bytes keys delta)
      | some (i, frequency, accepted) =>
        if accepted then
          match library.slots.offset slot with
          | none => .error "missing user phrase"
          | some offset =>
            let position := offset.toNat + itemHeaderSize + 4 * keys.length +
              i * (2 * keys.length + 4) + 2 * keys.length
            .ok { library with content := overwrite library.content position (le32 (frequency + delta)) }
        else .ok library

end UserLibrary

/-- A reading is that of the stored keys. An initial-only key of either side goes with any
key of its initial, and no tone with any. -/
def pronunciationMatches (reading : List ChewingKey) (packed : List (BitVec 16)) : Bool :=
  reading.length == packed.length &&
    (reading.zip packed).all fun pair =>
      let query := pair.1
      let stored := ChewingKey.fromPacked pair.2
      query.initial == stored.initial &&
        ((query.middle == stored.middle && query.final == stored.final) ||
          (query.middle == 0 && query.final == 0) || (stored.middle == 0 && stored.final == 0)) &&
        (query.tone == stored.tone || query.tone == 0 || stored.tone == 0)

namespace UserLibrary

/-- Adds to the frequency of every reading a query matches, from a place on, until a total would
overflow. The item was viewed, so its readings are all in the content. -/
def trainLoop (query : List ChewingKey) (delta : BitVec 32) (start length : Nat) :
    Nat → Nat → BitVec 32 → Bytes → Bytes
  | 0, _, _, content => content
  | left + 1, i, total, content =>
    let position := start + i * (2 * length + 4)
    let frequency := position + 2 * length
    let freq := (word32At content frequency).getD 0
    let total := total + freq
    let packed := (chunks 2 ((range? content position frequency).getD [])).map word16
    if pronunciationMatches query packed then
      if total.toNat + delta.toNat < 2 ^ 32 then
        trainLoop query delta start length left (i + 1) (total + delta)
          (overwrite content frequency (le32 (freq + delta)))
      else content
    else trainLoop query delta start length left (i + 1) total content

/-- Trains the readings of a slot's item that the queries match. -/
def train (library : UserLibrary) (slot : BitVec 32) (readings : List (List ChewingKey))
    (delta : BitVec 32) : UserLibrary :=
  match library.slots.offset slot, library.item slot with
  | some offset, some item =>
    let length := item.phraseLength
    let start := offset.toNat + itemHeaderSize + 4 * length
    { library with
      content := readings.foldl (fun content query =>
        if query.length = length then trainLoop query delta start length item.nPronunciations 0 0 content
        else content) library.content }
  | _, _ => library

/-- A fresh library with the readable items. -/
def compacted (library : UserLibrary) : UserLibrary :=
  let count := library.slots.entries.length
  let fresh := if library.tokenEnd > count * 4 + 256 then { empty with slots := .sparse .empty } else empty
  library.items.foldl (fun compacted entry =>
    compacted.applyReplacement (compacted.placement entry.1 entry.2) entry.2.bytes) fresh

def compact (library : UserLibrary) : UserLibrary := library.compacted

end UserLibrary

end Oxpinyin
