import Oxpinyin.PinyinRows
import Oxpinyin.RecordTable

/-!
# The user pinyin index

A table of readings. A reading is a phrase token under its keys, and it is written twice :
under its keys without tones, and under its initials alone. A record is a packed array of
readings in exact key order, and within one reading's keys by token. `RecordTable` holds the
records. Some backends keep one entry for each key length between operations, and their mask
walk stores that entry's whole chunk back.
-/

namespace Oxpinyin

open List LittleEndian Search FiniteMap Run

/-! ## Entries -/

/-- An item against keys. -/
def compareRecord (record : Bytes) (value : List ChewingKey) : Ordering :=
  exactCompare (recordKeys record value.length) value

/-- The range of the items equal to some keys. -/
def searchRecords (stride : Nat) (bytes : Bytes) (value : List ChewingKey) : Nat × Nat :=
  let records := chunks stride bytes
  let first := partitionPoint (fun record => (compareRecord record value).isLT) records
  let last := first + partitionPoint (fun record => !(compareRecord record value).isGT) (records.drop first)
  (first, last)

/-- The items under one table key, each of so many keys. -/
structure Entry where
  bytes : Bytes
  len : Nat

namespace Entry

def stride (entry : Entry) : Nat := item2Stride entry.len

def count (entry : Entry) : Nat := entry.bytes.length / entry.stride

def token (entry : Entry) (index : Nat) : BitVec 32 :=
  (word32At entry.bytes (index * entry.stride)).getD 0

/-- The strides the search is instantiated at. -/
def strides : List Nat := [8, 12, 16, 20, 24, 28, 32, 36]

def equalRange (entry : Entry) (value : List ChewingKey) : Nat × Nat :=
  if value.length ≠ entry.len then (0, 0)
  else if entry.stride ∈ strides then searchRecords entry.stride entry.bytes value
  else (0, 0)

/-- Where a token goes in a range of so many items. Nothing when it is there. -/
def addPlace (entry : Entry) (token : BitVec 32) : Nat → Nat → Option Nat
  | 0, at_ => some at_
  | left + 1, at_ =>
    let present := entry.token at_
    if present = token then none
    else if token < present then some at_
    else addPlace entry token left (at_ + 1)

/-- Adds an item, unless it is there. -/
def addIndex (entry : Entry) (keys : List ChewingKey) (token : BitVec 32) : Entry × Bool :=
  let range := entry.equalRange keys
  match entry.addPlace token (range.2 - range.1) range.1 with
  | none => (entry, false)
  | some at_ => ({ entry with bytes := insertAt entry.bytes (at_ * entry.stride) (encodeItem token keys) }, true)

/-- Removes an item, if it is there. -/
def removeIndex (entry : Entry) (keys : List ChewingKey) (token : BitVec 32) : Entry × Bool :=
  let range := entry.equalRange keys
  match (List.range' range.1 (range.2 - range.1)).find? fun at_ => entry.token at_ == token with
  | none => (entry, false)
  | some at_ =>
    ({ entry with bytes := removeRange entry.bytes (at_ * entry.stride) (at_ * entry.stride + entry.stride) }, true)

/-- Removes the items whose token has a value under a mask, with so many items left to test. -/
def maskFrom (mask value : BitVec 32) : Nat → Nat → Entry → Entry
  | 0, _, entry => entry
  | left + 1, at_, entry =>
    if entry.token at_ &&& mask = value then
      maskFrom mask value left at_
        { entry with bytes := removeRange entry.bytes (at_ * entry.stride) (at_ * entry.stride + entry.stride) }
    else maskFrom mask value left (at_ + 1) entry

def maskOut (entry : Entry) (mask value : BitVec 32) : Entry :=
  maskFrom mask value entry.count 0 entry

end Entry

/-! ## The index -/

/-- What the entry of one key length holds between operations. -/
inductive Slot where
  | empty
  /-- The record under a table key, as the table has it. -/
  | record (key : Bytes)
  /-- What a mask walk left. -/
  | bytes (chunk : Bytes)

/-- The user pinyin index. -/
structure UserIndex where
  table : RecordTable
  slots : List Slot

namespace UserIndex

/-- The longest phrase, in syllables. -/
def maxPhraseLength : Nat := 16

/-- The index with no record. -/
def new : UserIndex := ⟨.empty, List.replicate (maxPhraseLength + 1) .empty⟩

/-- The index of the rows of a file. -/
def fromEntries (entries : List (Bytes × Bytes)) : UserIndex :=
  ⟨.fromEntries entries, List.replicate (maxPhraseLength + 1) .empty⟩

section

variable (index : UserIndex)

def setSlot (len : Nat) (slot : Slot) : UserIndex :=
  { index with slots := index.slots.set len slot }

/-- Adds a reading under one of its table keys. -/
def addProjection (key : Bytes) (keys : List ChewingKey) (token : BitVec 32) : UserIndex × Bool :=
  if index.table.containsKey key then
    let added := Entry.addIndex ⟨(index.table.record key).getD [], keys.length⟩ keys token
    (setSlot { index with table := index.table.put key added.1.bytes } keys.length (.record key), added.2)
  else
    let added := Entry.addIndex ⟨[], keys.length⟩ keys token
    let table := index.table.put key added.1.bytes
    ({ index with table := table.createPrefixes 2 key (key.length / 2 - 1) }, true)

/-- Adds a reading, incomplete space first. Answers whether an item was inserted. -/
def add (keys : List ChewingKey) (token : BitVec 32) : UserIndex × Bool :=
  if keys.length = 0 ∨ maxPhraseLength < keys.length then (index, false)
  else
    let first := index.addProjection (encodeIncompleteKey keys) keys token
    let second := first.1.addProjection (encodeCompleteKey keys) keys token
    (second.1, first.2 || second.2)

/-- Removes a reading under one of its table keys. -/
def removeProjection (key : Bytes) (keys : List ChewingKey) (token : BitVec 32) : UserIndex × Bool :=
  match index.table.record key with
  | none => (index, false)
  | some bytes =>
    let removed := Entry.removeIndex ⟨bytes, keys.length⟩ keys token
    (setSlot { index with table := index.table.put key removed.1.bytes } keys.length (.record key), removed.2)

/-- Removes a reading. Stops after the first space where it is absent. -/
def remove (keys : List ChewingKey) (token : BitVec 32) : UserIndex × Bool :=
  if keys.length = 0 ∨ maxPhraseLength < keys.length then (index, false)
  else
    let first := index.removeProjection (encodeIncompleteKey keys) keys token
    if first.2 then first.1.removeProjection (encodeCompleteKey keys) keys token
    else (first.1, false)

/-- The chunk the entry of a key length starts a mask walk with. -/
def slotBytes (len : Nat) : Bytes :=
  match index.slots[len]? with
  | some (.record key) => (index.table.record key).getD []
  | some (.bytes chunk) => chunk
  | _ => []

end

/-- The entries after one record of a mask walk, and what is stored under the record's key.
Where an entry is kept for each key length, the record is copied over its chunk and the whole
chunk is stored, with the tail of a longer record before. -/
def maskRecord (entryPerLength : Bool) (mask value : BitVec 32) (chunks : List Bytes) (key record : Bytes) :
    List Bytes × Bytes :=
  let len := key.length / 2
  if len = 0 ∨ maxPhraseLength < len then (chunks, record)
  else if entryPerLength then
    let chunk := (chunks[len]?).getD []
    let chunk := if chunk.length < record.length then resize chunk record.length 0 else chunk
    let masked := (Entry.maskOut ⟨overwrite chunk 0 record, len⟩ mask value).bytes
    (chunks.set len masked, masked)
  else (chunks, (Entry.maskOut ⟨record, len⟩ mask value).bytes)

/-- The mask walk : every record anew, without the readings whose token has a value under a
mask. -/
def mask (entryPerLength : Bool) (index : UserIndex) (mask value : BitVec 32) : UserIndex :=
  let chunks := (List.range (maxPhraseLength + 1)).map fun len => if len = 0 then [] else index.slotBytes len
  let walked := index.table.rewriteRecords (maskRecord entryPerLength mask value) chunks
  let left := (walked.1.drop 1).map fun chunk => if chunk.isEmpty then Slot.empty else Slot.bytes chunk
  ⟨walked.2, if entryPerLength then index.slots.take 1 ++ left else index.slots⟩

/-- Adds the records of another index this one does not hold. -/
def mergeMissing (index other : UserIndex) : UserIndex :=
  { index with table := index.table.mergeMissing other.table }

/-- The table key a query probes. -/
def queryKey (keys : List ChewingKey) : Bytes :=
  indexKey keys

def keyMatchesWithTones (query stored : ChewingKey) : Bool :=
  keyMatches query stored

def recordMatchesWithTones (query : List ChewingKey) (record : Bytes) : Bool :=
  ((recordKeys record query.length).zip query).all fun pair => keyMatchesWithTones pair.2 pair.1

/-- The tokens of the readings that match a query, in record order. -/
def search (index : UserIndex) (keys : List ChewingKey) : List (BitVec 32) :=
  if keys.length = 0 ∨ maxPhraseLength < keys.length then []
  else
    match index.table.record (queryKey keys) with
    | none => []
    | some value =>
      if value.isEmpty ∨ value.length % item2Stride keys.length ≠ 0 then []
      else ((chunks (item2Stride keys.length) value).filter (recordMatchesWithTones keys)).map recordToken

/-- A search without tones answers the tokens of the search with them. -/
theorem search_toneless (index : UserIndex) (query : List ChewingKey) :
    index.search query ⊆ index.search (query.map (·.toneless)) := by
  unfold search
  rw [length_map, queryKey, queryKey, indexKey_toneless]
  split_ifs
  · exact List.Subset.refl _
  · cases index.table.record (indexKey query) with
    | none => exact List.Subset.refl _
    | some value =>
      dsimp only
      split_ifs
      · exact List.Subset.refl _
      · refine map_subset _ fun record hrecord => ?_
        obtain ⟨hmem, hall⟩ := mem_filter.mp hrecord
        refine mem_filter.mpr ⟨hmem, ?_⟩
        rw [recordMatchesWithTones, length_map, zip_map_right, all_map]
        rw [recordMatchesWithTones, all_eq_true] at hall
        exact all_eq_true.mpr fun pair hpair => keyMatches_toneless (hall pair hpair)

/-! ## Runs -/

variable {entryPerLength : Bool}

/-- An operation on the index. -/
inductive Op where
  | add (keys : List ChewingKey) (token : BitVec 32)
  | remove (keys : List ChewingKey) (token : BitVec 32)
  | mask (mask value : BitVec 32)
  | mergeMissing (other : UserIndex)

/-- The index after an operation. -/
def step (entryPerLength : Bool) (index : UserIndex) : Op → UserIndex
  | .add keys token => (index.add keys token).1
  | .remove keys token => (index.remove keys token).1
  | .mask mask value => index.mask entryPerLength mask value
  | .mergeMissing other => index.mergeMissing other

theorem over_addProjection (index : UserIndex) (key : Bytes) (keys : List ChewingKey) (token : BitVec 32) :
    index.table.Over (index.addProjection key keys token).1.table := by
  rw [addProjection]
  split
  · exact RecordTable.over_put _ _ _
  · exact (RecordTable.over_put _ _ _).trans (RecordTable.over_createPrefixes _ _ _ _)

theorem over_add (index : UserIndex) (keys : List ChewingKey) (token : BitVec 32) :
    index.table.Over (index.add keys token).1.table := by
  rw [add]
  split
  · exact RecordTable.Over.refl _
  · exact (over_addProjection _ _ _ _).trans (over_addProjection _ _ _ _)

theorem over_removeProjection (index : UserIndex) (key : Bytes) (keys : List ChewingKey) (token : BitVec 32) :
    index.table.Over (index.removeProjection key keys token).1.table := by
  rw [removeProjection]
  split
  · exact RecordTable.Over.refl _
  · exact RecordTable.over_put _ _ _

theorem over_remove (index : UserIndex) (keys : List ChewingKey) (token : BitVec 32) :
    index.table.Over (index.remove keys token).1.table := by
  rw [remove]
  split
  · exact RecordTable.Over.refl _
  · dsimp only
    split
    · exact (over_removeProjection _ _ _ _).trans (over_removeProjection _ _ _ _)
    · exact over_removeProjection _ _ _ _

/-- An operation keeps the offsets sorted, while they reach the arena. -/
theorem sorted_step {index : UserIndex} (h : index.table.Sorted) (op : Op)
    (hroom : (index.step entryPerLength op).table.arena.length < 2 ^ 32) :
    (index.step entryPerLength op).table.Sorted :=
  match op with
  | .add keys token => h.over (over_add index keys token)
  | .remove keys token => h.over (over_remove index keys token)
  | .mask _ _ => h.rewriteRecords _ _ hroom
  | .mergeMissing other => h.over (RecordTable.over_mergeMissing index.table other.table)

/-- The offsets stay sorted along a run, while they reach the arena. -/
theorem sorted_run {index : UserIndex} (h : index.table.Sorted) {ops : List Op}
    (hroom : ∀ reached ∈ states (step entryPerLength) index ops, reached.table.arena.length < 2 ^ 32) :
    ∀ reached ∈ states (step entryPerLength) index ops, reached.table.Sorted :=
  @forall_states _ _ (step entryPerLength) (fun index => index.table.Sorted)
    (fun index op => (index.step entryPerLength op).table.arena.length < 2 ^ 32)
    (fun _ op h hroom => sorted_step h op hroom) ops index h
    (@along_of_states _ _ _ (fun index => index.table.arena.length < 2 ^ 32) ops index hroom)

end UserIndex

end Oxpinyin
