import Oxpinyin.UserLibrary

/-!
# The live buffer of a system library

A library's offset array and its item area, as `replay.rs` edits them. Each of the two is a
`Chunk` over the bytes it was shipped with : writes land there until the first one that ends
past them, and from then on in a grown copy. `Content` reads and writes items through the
two, and `ReplayedLibrary` is the retained view of a session.

A chunk reads as one list of bytes (`Chunk.bytes`), and each write of it is a write of
that list (`Chunk.setContent_bytes`, `Chunk.poke_bytes`).
-/

namespace Oxpinyin.Replay

open List Option LittleEndian ChunkFile

/-- The two length bytes and the unigram of an item. -/
def phraseItemHeader : Nat := 6

/-- The length a header with these two bytes claims. -/
def headerLen (length prons : UInt8) : Nat :=
  phraseItemHeader + 4 * length.toNat + prons.toNat * (2 * length.toNat + 4)

/-- An item is as long as its header at least. -/
theorem le_headerLen (length prons : UInt8) : 6 ≤ headerLen length prons := by
  rw [headerLen, phraseItemHeader, Nat.add_assoc]
  exact Nat.le_add_right _ _

/-- The unigram of an item's bytes, zero where they end before it. -/
def rawUnigram (item : Bytes) : BitVec 32 := (word32At item 2).getD 0

/-- The length the header of a byte string claims, if it has one. -/
def declaredLen (bytes : Bytes) : Option Nat :=
  match bytes[0]?, bytes[1]? with
  | some length, some prons => some (headerLen length prons)
  | _, _ => none

/-- The length the header claims, if the string holds that much. -/
def visibleLen (bytes : Bytes) : Option Nat :=
  (declaredLen bytes).filter (· ≤ bytes.length)

/-! ## One chunk -/

/-- One chunk's growth. The owned copy takes the place of the shipped bytes. -/
structure Chunk where
  owned : Option Bytes
  dataEnd : Nat
  capacity : Nat
  deriving DecidableEq

/-- A write to shipped bytes, refused where it ends past them. -/
def pokeShipped (shipped : Bytes) (offset : Nat) (bytes : Bytes) : Option Bytes :=
  if offset + bytes.length ≤ shipped.length then some (overwrite shipped offset bytes) else none

namespace Chunk

/-- The chunk that is a view of its shipped bytes. -/
def shipped (len : Nat) : Chunk := ⟨none, len, len⟩

/-- A write lands in the mapping. -/
def hitsMapping (chunk : Chunk) (offset len : Nat) : Bool :=
  chunk.owned.isNone && decide (offset + len ≤ chunk.capacity)

/-- The byte at a position. A grown copy reads as zero behind its bytes. -/
def byte (chunk : Chunk) (shipped : Bytes) (pos : Nat) : Option UInt8 :=
  match chunk.owned with
  | some owned => if pos < chunk.capacity then some ((owned[pos]?).getD 0) else none
  | none => shipped[pos]?

/-- Writes over bytes that are as long as the write needs them. -/
def writeOwned (owned : Bytes) (offset : Nat) (bytes : Bytes) : Bytes :=
  let end_ := offset + bytes.length
  overwrite (if owned.length < end_ then resize owned end_ 0 else owned) offset bytes

/-- A write that grows the chunk. -/
def setContent (chunk : Chunk) (shipped : Bytes) (offset : Nat) (bytes : Bytes) : Chunk × Bytes :=
  let end_ := offset + bytes.length
  match chunk.owned with
  | some owned =>
    let capacity :=
      if chunk.dataEnd < end_ ∧ chunk.capacity < end_ then max (chunk.capacity * 2) end_ else chunk.capacity
    let dataEnd := if chunk.dataEnd < end_ then end_ else chunk.dataEnd
    (⟨some (writeOwned owned offset bytes), dataEnd, capacity⟩, shipped)
  | none =>
    if end_ ≤ chunk.dataEnd then (chunk, overwrite shipped offset bytes)
    else (⟨some (overwrite (resize shipped end_ 0) offset bytes), end_, end_⟩, shipped)

/-- A write inside the capacity, with no growth. -/
def poke (chunk : Chunk) (shipped : Bytes) (offset : Nat) (bytes : Bytes) : Option (Chunk × Bytes) :=
  if chunk.capacity < offset + bytes.length then none
  else
    match chunk.owned with
    | some owned => some ({ chunk with owned := some (writeOwned owned offset bytes) }, shipped)
    | none => (pokeShipped shipped offset bytes).map (chunk, ·)

end Chunk

open Chunk

/-! ## The two chunks of a library -/

/-- What `get_phrase_item` answers at an offset. -/
inductive Found where
  | item (offset len : Nat)
  /-- The header names a length that ends past the buffer. -/
  | past
  /-- The header is not in the buffer. -/
  | failed
  deriving DecidableEq

/-- The bytes a library was loaded with. -/
structure Backing where
  offsets : Bytes
  content : Bytes
  deriving DecidableEq

/-- The sub-index that is edited : the shipped bytes, the growth of the two chunks, the total. -/
structure Content where
  backing : Backing
  items : Chunk
  slots : Chunk
  total : BitVec 32
  deriving DecidableEq

/-- What an append did. -/
structure Appended where
  offset : BitVec 32
  inPlace : Bool
  old : Option Bytes
  deriving DecidableEq

namespace Content

/-- The content of shipped bytes. -/
def new (backing : Backing) (total : BitVec 32) : Content :=
  ⟨backing, .shipped backing.content.length, .shipped backing.offsets.length, total⟩

variable (content : Content)

/-- The slots of the offset array as loaded. -/
def loadedSlots : Nat := content.backing.offsets.length / 4

def dataLen : Nat := content.items.dataEnd

def byte (pos : Nat) : Option UInt8 := content.items.byte content.backing.content pos

/-- The item whose header is at an offset. -/
def header (offset : Nat) : Found :=
  if content.dataLen < offset + 2 then .failed
  else
    match content.byte offset, content.byte (offset + 1) with
    | some length, some prons =>
      let len := headerLen length prons
      if offset + len ≤ content.items.capacity then .item offset len else .past
    | _, _ => .failed

/-- A range of the shipped content. -/
def shippedItem (offset len : Nat) : Option Bytes :=
  range? content.backing.content offset (offset + len)

/-- A range of the content. -/
def item (offset len : Nat) : Option Bytes :=
  if content.items.capacity < offset + len then none
  else
    match content.items.owned with
    | some owned =>
      if offset + len ≤ owned.length then some ((owned.drop offset).take len)
      else (List.range' offset len).mapM content.byte
    | none => content.shippedItem offset len

/-- Stores a payload where the size in 32 bits says. -/
def append (payload : Bytes) : Content × Appended :=
  let offset := appendOffset content.dataLen
  let at_ := offset.toNat
  let inPlace := decide (at_ + payload.length ≤ content.dataLen)
  let old :=
    if inPlace && content.items.hitsMapping at_ payload.length then
      some ((content.backing.content.drop at_).take payload.length)
    else none
  let written := content.items.setContent content.backing.content at_ payload
  ({ content with items := written.1, backing := { content.backing with content := written.2 } },
    ⟨offset, inPlace, old⟩)

/-- Writes over bytes of the content. -/
def write (offset : Nat) (bytes : Bytes) : Option Content :=
  (content.items.poke content.backing.content offset bytes).map fun written =>
    { content with items := written.1, backing := { content.backing with content := written.2 } }

/-- Writes over bytes of the mapping, whatever the growth. -/
def writeShipped (offset : Nat) (bytes : Bytes) : Option Content :=
  (pokeShipped content.backing.content offset bytes).map fun written =>
    { content with backing := { content.backing with content := written } }

/-- The mapping has a range. -/
def shippedHas (offset len : Nat) : Bool :=
  decide (offset + len ≤ content.backing.content.length)

/-- The offset word of a slot, none where the array ends before it. -/
def slotOffset (slot : BitVec 32) : Option (BitVec 32) :=
  let pos := slot.toNat * 4
  if content.slots.dataEnd < pos + 4 then none
  else
    match content.slots.owned with
    | some owned => word32At owned pos
    | none => word32At content.backing.offsets pos

/-- Writes an offset word back into the mapping. -/
def restoreSlot (slot old : BitVec 32) : Content :=
  match pokeShipped content.backing.offsets (slot.toNat * 4) (le32 old) with
  | some offsets => { content with backing := { content.backing with offsets := offsets } }
  | none => content

/-- Setting a slot writes the mapping. -/
def slotWriteHitsMapping (slot : BitVec 32) : Bool :=
  content.slots.hitsMapping (slot.toNat * 4) 4

/-- Sets the offset word of a slot. -/
def setSlotOffset (slot offset : BitVec 32) : Content :=
  let written := content.slots.setContent content.backing.offsets (slot.toNat * 4) (le32 offset)
  { content with slots := written.1, backing := { content.backing with offsets := written.2 } }

/-- Drops the grown copies. -/
def resetGrowth : Content :=
  { content with
    items := .shipped content.backing.content.length
    slots := .shipped content.backing.offsets.length }

/-- The item of a slot. -/
def visible (slot : BitVec 32) : Found :=
  let offset := (content.slotOffset slot).getD 0
  if offset = 0 then .failed else content.header offset.toNat

/-- The bytes of a slot's item, none where there is no readable one. -/
def itemBytes (slot : BitVec 32) : Option Bytes :=
  match content.visible slot with
  | .item offset len => content.item offset len
  | _ => none

end Content

/-! ## The first writes -/

/-- The loaded slots whose state before their first write is not what the offset word says. -/
structure Provenance where
  absent : List (BitVec 32)
  present : List (BitVec 32)
  deriving DecidableEq

namespace Provenance

def isAbsent (provenance : Provenance) (slot : BitVec 32) : Bool := provenance.absent.contains slot

def isPresent (provenance : Provenance) (slot : BitVec 32) : Bool := provenance.present.contains slot

/-- A write found no item. -/
def noteAbsent (provenance : Provenance) (slot : BitVec 32) : Provenance :=
  if !provenance.isPresent slot && !provenance.isAbsent slot then
    { provenance with absent := slot :: provenance.absent }
  else provenance

/-- A write found an item. -/
def notePresent (provenance : Provenance) (slot : BitVec 32) : Provenance :=
  if !provenance.isAbsent slot && !provenance.isPresent slot then
    { provenance with present := slot :: provenance.present }
  else provenance

end Provenance

/-! ## The retained view -/

/-- A library's live buffer. -/
structure ReplayedLibrary where
  content : Content
  provenance : Provenance
  hasAddedItems : Bool
  rejected : List (BitVec 32)
  removed : Bool
  deriving DecidableEq

/-- What adding to a unigram answers. -/
inductive UnigramAdd where
  | accepted
  | refused
  | missing
  deriving DecidableEq

namespace ReplayedLibrary

/-- The live buffer of a mapping. -/
def fromMapping (mapping : Backing) (total : BitVec 32) : ReplayedLibrary :=
  ⟨.new mapping total, ⟨[], []⟩, false, [], false⟩

section

variable (library : ReplayedLibrary)

def itemBytes (slot : BitVec 32) : Option Bytes :=
  library.content.itemBytes slot

def slotHasOffset (slot : BitVec 32) : Bool :=
  library.content.slotOffset slot |>.any (· ≠ 0)

/-- A write found no item at a slot of the loaded array. -/
def noteAbsent (slot : BitVec 32) : ReplayedLibrary :=
  if slot.toNat < library.content.loadedSlots then
    { library with provenance := library.provenance.noteAbsent slot }
  else library

/-- A write found an item at a slot of the loaded array. -/
def notePresent (slot : BitVec 32) : ReplayedLibrary :=
  if slot.toNat < library.content.loadedSlots then
    { library with provenance := library.provenance.notePresent slot }
  else library

/-- Adds to the unigram of a slot's item and to the total. -/
def addUnigram (slot delta : BitVec 32) : ReplayedLibrary × UnigramAdd :=
  match (library.content.slotOffset slot).filter (· ≠ 0) with
  | none => (library, .missing)
  | some offset =>
    let at_ := offset.toNat + 2
    if library.content.dataLen < at_ + 4 then (library, .missing)
    else
      match library.content.byte at_, library.content.byte (at_ + 1), library.content.byte (at_ + 2),
        library.content.byte (at_ + 3) with
      | some b0, some b1, some b2, some b3 =>
        if 2 ^ 32 ≤ library.content.total.toNat + delta.toNat then (library, .refused)
        else
          let field := word32 [b0, b1, b2, b3]
          let total := library.content.total + delta
          let noted :=
            match library.content.header offset.toNat with
            | .item _ _ => library
            | _ => library.noteAbsent slot
          let written := (noted.content.write at_ (le32 (field + delta))).getD noted.content
          ({ noted with content := { written with total := total } }, .accepted)
      | _, _, _, _ => (library, .missing)

/-- Stores an item for a slot, and answers whether it went over earlier bytes. -/
def addItem (slot : BitVec 32) (payload : Bytes) : ReplayedLibrary × Bool :=
  let noted := if (library.itemBytes slot).isNone then library.noteAbsent slot else library
  let appended := noted.content.append payload
  let content := appended.1.setSlotOffset slot appended.2.offset
  ({ content := { content with total := content.total + rawUnigram payload }
     provenance := noted.provenance
     hasAddedItems := true
     rejected := noted.rejected.filter (· ≠ slot)
     removed := noted.removed || appended.2.inPlace }, appended.2.inPlace)

/-- Takes a slot's readable item out, and answers its bytes. -/
def removeItem (slot : BitVec 32) : ReplayedLibrary × Option Bytes :=
  match library.itemBytes slot with
  | none => (library, none)
  | some bytes =>
    let noted := library.notePresent slot
    let content := noted.content.setSlotOffset slot 0
    ({ noted with content := { content with total := content.total - rawUnigram bytes } }, some bytes)

end

/-- One reading over the entries of an item from a place on, with so many entries left. -/
def trainEntries (reading : List ChewingKey) (delta : BitVec 32) (first length : Nat) :
    Nat → Nat → BitVec 32 → Content → Content
  | 0, _, _, content => content
  | left + 1, place, total, content =>
    let keysAt := first + place * (2 * length + 4)
    let countAt := keysAt + 2 * length
    if (content.byte (countAt + 3)).isNone then content
    else
      let byte := fun at_ => (content.byte at_).getD 0
      let count := word32 [byte countAt, byte (countAt + 1), byte (countAt + 2), byte (countAt + 3)]
      let total := total + count
      let words := (List.range length).map fun key =>
        word16 [byte (keysAt + 2 * key), byte (keysAt + 2 * key + 1)]
      if !pronunciationMatches reading words then
        trainEntries reading delta first length left (place + 1) total content
      else if 2 ^ 32 ≤ total.toNat + delta.toNat then content
      else
        trainEntries reading delta first length left (place + 1) (total + delta)
          ((content.write countAt (le32 (count + delta))).getD content)

/-- Adds to the counts of a slot's matching entries, reading by reading. -/
def train (library : ReplayedLibrary) (slot : BitVec 32) (readings : List (List ChewingKey))
    (delta : BitVec 32) : ReplayedLibrary × Bool :=
  match library.content.visible slot with
  | .item offset len =>
    match library.content.item offset len with
    | some (length :: entries :: _) =>
      let first := offset + phraseItemHeader + 4 * length.toNat
      let content := readings.foldl (fun content reading =>
        trainEntries reading delta first length.toNat entries.toNat 0 0 content) library.content
      ({ library with content := content, removed := true }, true)
    | _ => (library, false)
  | _ => (library, false)

/-- The loop of `rangeEnd`. -/
def trimEnd (content : Content) : Nat → Nat
  | 0 => 0
  | end_ + 1 => if (content.slotOffset (BitVec.ofNat 32 end_)).all (· = 0) then trimEnd content end_ else end_ + 1

variable (library : ReplayedLibrary)

/-- One past the last slot with an offset, at least one. -/
def rangeEnd : Nat :=
  max (min (trimEnd library.content (library.content.slots.dataEnd / 4)) (2 ^ 32 - 1)) 1

/-- The loaded chunk held an item at a slot, as far as the buffer can tell. -/
def originallyHeld (slot : BitVec 32) : Bool :=
  decide (slot.toNat < library.content.loadedSlots) && !library.provenance.isAbsent slot &&
    (library.provenance.isPresent slot || library.slotHasOffset slot)

/-- An item at a slot is one the loaded chunk lacked. -/
def isAddedSlot (slot : BitVec 32) : Bool :=
  decide (library.content.loadedSlots ≤ slot.toNat) || library.provenance.isAbsent slot

def hasAdded : Bool := library.hasAddedItems

def hasRemoved : Bool := library.removed

end ReplayedLibrary

/-! ## What a chunk shows -/

/-- A chunk with no copy is a view of the whole mapping. -/
def Chunk.Viewing (chunk : Chunk) (shipped : Bytes) : Prop :=
  chunk.owned = none → chunk.dataEnd = shipped.length ∧ chunk.capacity = shipped.length

theorem Chunk.viewing_shipped (shipped : Bytes) : (Chunk.shipped shipped.length).Viewing shipped :=
  fun _ => ⟨rfl, rfl⟩

/-- A chunk over its shipped bytes : a copy holds the data and ends in the capacity. -/
structure Chunk.Ok (chunk : Chunk) (shipped : Bytes) : Prop where
  viewing : chunk.Viewing shipped
  copied : ∀ owned, chunk.owned = some owned → chunk.dataEnd ≤ owned.length ∧ owned.length ≤ chunk.capacity

/-- The bytes of a write at an offset over bytes by position. -/
def splice (read : Nat → UInt8) (offset : Nat) (bytes : Bytes) (pos : Nat) : UInt8 :=
  if offset ≤ pos ∧ pos < offset + bytes.length then (bytes[pos - offset]?).getD 0 else read pos

theorem splice_of_lt {read : Nat → UInt8} {offset pos : Nat} {bytes : Bytes} (h : pos < offset) :
    splice read offset bytes pos = read pos := if_neg (by omega)

theorem splice_of_le {read : Nat → UInt8} {offset pos : Nat} {bytes : Bytes} (h : offset + bytes.length ≤ pos) :
    splice read offset bytes pos = read pos := if_neg (by omega)

theorem splice_at {read : Nat → UInt8} {offset i : Nat} {bytes : Bytes} (h : i < bytes.length) :
    splice read offset bytes (offset + i) = (bytes[i]?).getD 0 := by
  rw [splice, if_pos (by omega), Nat.add_sub_cancel_left]

namespace Chunk

variable {chunk : Chunk} {shipped bytes : Bytes} {offset : Nat}

/-- The bytes a chunk reads from. -/
def area (chunk : Chunk) (shipped : Bytes) : Bytes := chunk.owned.getD shipped

/-- The byte at a position, zero behind the bytes there are. -/
def read (chunk : Chunk) (shipped : Bytes) (pos : Nat) : UInt8 := ((chunk.area shipped)[pos]?).getD 0

theorem ok_shipped (shipped : Bytes) : (Chunk.shipped shipped.length).Ok shipped :=
  ⟨viewing_shipped shipped, fun _ h => by cases h⟩

namespace Ok

theorem dataEnd_le (h : chunk.Ok shipped) : chunk.dataEnd ≤ (chunk.area shipped).length := by
  unfold area
  cases howned : chunk.owned with
  | none => exact (h.viewing howned).1.le
  | some owned => exact (h.copied owned howned).1

theorem length_le (h : chunk.Ok shipped) : (chunk.area shipped).length ≤ chunk.capacity := by
  unfold area
  cases howned : chunk.owned with
  | none => exact (h.viewing howned).2.ge
  | some owned => exact (h.copied owned howned).2

theorem byte_eq (h : chunk.Ok shipped) (pos : Nat) :
    chunk.byte shipped pos = if pos < chunk.capacity then some (chunk.read shipped pos) else none := by
  unfold byte read area
  cases howned : chunk.owned with
  | some owned => rfl
  | none =>
    rw [(h.viewing howned).2, getD_none]
    split_ifs with hlt
    · rw [getElem?_eq_getElem hlt, getD_some]
    · exact getElem?_eq_none (Nat.not_lt.mp hlt)

end Ok

/-- Writing over bytes, grown as far as needed. -/
theorem read_writeOwned (owned bytes : Bytes) (offset pos : Nat) :
    ((writeOwned owned offset bytes)[pos]?).getD 0 =
      splice (fun i => (owned[i]?).getD 0) offset bytes pos := by
  have hgrown : ∀ i : Nat, ((if owned.length < offset + bytes.length then resize owned (offset + bytes.length) 0
      else owned)[i]?).getD 0 = (owned[i]?).getD 0 := by
    intro i
    split_ifs with hshort
    · rcases Nat.lt_or_ge i (offset + bytes.length) with hlt | hge
      · rw [getElem?_resize owned 0 hlt, getD_some]
      · rw [getElem?_eq_none (by rw [length_resize]; exact hge), getElem?_eq_none (by omega)]
    · rfl
  have hlength : offset + bytes.length ≤ (if owned.length < offset + bytes.length then
      resize owned (offset + bytes.length) 0 else owned).length := by
    split_ifs with hshort
    · rw [length_resize]
    · omega
  rw [writeOwned, getElem?_overwrite hlength, splice]
  by_cases hin : offset ≤ pos ∧ pos < offset + bytes.length
  · rw [if_pos hin, if_pos hin]
  · rw [if_neg hin, if_neg hin, hgrown pos]

theorem length_writeOwned (owned bytes : Bytes) (offset : Nat) :
    (writeOwned owned offset bytes).length = max owned.length (offset + bytes.length) := by
  rw [writeOwned]
  split_ifs with hshort
  · rw [length_overwrite _ _ _ (by rw [length_resize]), length_resize, Nat.max_eq_right (by omega)]
  · rw [length_overwrite _ _ _ (by omega), Nat.max_eq_left (by omega)]

/-- A grown copy is the bytes written over, grown as far as needed. -/
theorem writeOwned_of_lt {owned bytes : Bytes} {offset : Nat} (h : owned.length < offset + bytes.length) :
    writeOwned owned offset bytes = overwrite (resize owned (offset + bytes.length) 0) offset bytes := by
  rw [writeOwned]
  rw [if_pos h]

theorem writeOwned_of_le {owned bytes : Bytes} {offset : Nat} (h : offset + bytes.length ≤ owned.length) :
    writeOwned owned offset bytes = overwrite owned offset bytes := by
  rw [writeOwned]
  rw [if_neg (Nat.not_lt.mpr h)]

/-- Every write of a chunk is a write over the bytes it reads from. -/
theorem area_setContent (h : chunk.Ok shipped) (offset : Nat) (bytes : Bytes) :
    (chunk.setContent shipped offset bytes).1.area (chunk.setContent shipped offset bytes).2 =
      writeOwned (chunk.area shipped) offset bytes := by
  unfold setContent area
  dsimp only
  cases howned : chunk.owned with
  | some owned => rfl
  | none =>
    dsimp only
    rw [(h.viewing howned).1]
    split_ifs with hle
    · rw [howned, getD_none, getD_none, writeOwned_of_le hle]
    · rw [getD_some, getD_none, writeOwned_of_lt (Nat.not_le.mp hle)]

theorem setContent_dataEnd (chunk : Chunk) (shipped : Bytes) (offset : Nat) (bytes : Bytes) :
    (chunk.setContent shipped offset bytes).1.dataEnd = max chunk.dataEnd (offset + bytes.length) := by
  unfold setContent
  dsimp only
  cases chunk.owned with
  | some owned =>
    dsimp only
    split_ifs <;> omega
  | none =>
    dsimp only
    split_ifs
    · exact (Nat.max_eq_left ‹_›).symm
    · rw [Nat.max_eq_right (by omega)]

variable (h : chunk.Ok shipped)
include h

theorem length_setContent (offset : Nat) (bytes : Bytes) :
    (chunk.setContent shipped offset bytes).2.length = shipped.length := by
  unfold setContent
  dsimp only
  cases howned : chunk.owned with
  | some owned => rfl
  | none =>
    dsimp only
    rw [(h.viewing howned).1]
    split_ifs with hle
    · exact length_overwrite _ _ _ hle
    · rfl

/-- A chunk stays one, and its capacity only grows. -/
theorem Ok.setContent (offset : Nat) (bytes : Bytes) :
    (chunk.setContent shipped offset bytes).1.Ok (chunk.setContent shipped offset bytes).2 ∧
      chunk.capacity ≤ (chunk.setContent shipped offset bytes).1.capacity := by
  unfold Chunk.setContent
  dsimp only
  cases howned : chunk.owned with
  | some owned =>
    obtain ⟨hend, hlength⟩ := h.copied owned howned
    refine ⟨⟨fun hnone => (by cases hnone), fun copy hcopy => ?_⟩, ?_⟩
    · obtain rfl := some.inj hcopy
      dsimp only
      rw [length_writeOwned]
      refine ⟨?_, ?_⟩
      · split_ifs <;> omega
      · split_ifs <;> omega
    · dsimp only
      split_ifs <;> omega
  | none =>
    obtain ⟨hend, hcapacity⟩ := h.viewing howned
    dsimp only
    rw [hend]
    split_ifs with hle
    · refine ⟨⟨fun _ => ?_, h.copied⟩, Nat.le_refl _⟩
      rw [length_overwrite _ _ _ hle]
      exact h.viewing howned
    · refine ⟨⟨fun hnone => (by cases hnone), fun copy hcopy => ?_⟩, by dsimp only; omega⟩
      obtain rfl := some.inj hcopy
      rw [length_overwrite _ _ _ (by rw [length_resize]), length_resize]
      exact ⟨Nat.le_refl _, Nat.le_refl _⟩

/-- A write with no growth. -/
theorem Ok.poke {after : Chunk × Bytes} (hpoke : chunk.poke shipped offset bytes = some after) :
    after.1.Ok after.2 ∧ after.1.area after.2 = writeOwned (chunk.area shipped) offset bytes ∧
      after.1.dataEnd = chunk.dataEnd ∧ after.1.capacity = chunk.capacity ∧ after.2.length = shipped.length := by
  unfold Chunk.poke at hpoke
  split_ifs at hpoke with hcapacity
  cases howned : chunk.owned with
  | some owned =>
    rw [howned] at hpoke
    obtain rfl := some.inj hpoke
    obtain ⟨hend, hlength⟩ := h.copied owned howned
    refine ⟨⟨fun hnone => (by cases hnone), fun copy hcopy => ?_⟩, ?_, rfl, rfl, rfl⟩
    · obtain rfl := some.inj hcopy
      dsimp only
      rw [length_writeOwned]
      omega
    · rw [area, area, howned, getD_some, getD_some]
  | none =>
    rw [howned] at hpoke
    obtain ⟨written, hwritten, rfl⟩ := map_eq_some_iff.mp hpoke
    unfold pokeShipped at hwritten
    split_ifs at hwritten with hle
    obtain rfl := some.inj hwritten
    have hlength := length_overwrite _ _ _ hle
    refine ⟨⟨fun _ => ?_, h.copied⟩, ?_, rfl, rfl, hlength⟩
    · rw [hlength]
      exact h.viewing howned
    · rw [area, area, howned, getD_none, getD_none, writeOwned_of_le hle]

theorem Ok.exists_poke (hle : offset + bytes.length ≤ chunk.capacity) :
    ∃ after, chunk.poke shipped offset bytes = some after := by
  unfold Chunk.poke
  rw [if_neg (Nat.not_lt.mpr hle)]
  cases howned : chunk.owned with
  | some owned => exact ⟨_, rfl⟩
  | none =>
    rw [(h.viewing howned).2] at hle
    exact ⟨_, by rw [pokeShipped, if_pos hle]; rfl⟩

end Chunk

/-! ## What a content shows -/

/-- The word at a position of bytes by position. -/
def wordOf (read : Nat → UInt8) (pos : Nat) : BitVec 32 :=
  word32 [read pos, read (pos + 1), read (pos + 2), read (pos + 3)]

theorem wordOf_congr {read read' : Nat → UInt8} {pos : Nat}
    (h : ∀ i, pos ≤ i → i < pos + 4 → read i = read' i) : wordOf read pos = wordOf read' pos := by
  rw [wordOf, wordOf, h pos (by omega) (by omega), h (pos + 1) (by omega) (by omega),
    h (pos + 2) (by omega) (by omega), h (pos + 3) (by omega) (by omega)]

theorem four_getD {bytes : Bytes} (h : bytes.length = 4) :
    [(bytes[0]?).getD 0, (bytes[1]?).getD 0, (bytes[2]?).getD 0, (bytes[3]?).getD 0] = bytes := by
  match bytes, h with
  | [_, _, _, _], _ => rfl

theorem wordOf_splice (read : Nat → UInt8) (pos : Nat) (word : BitVec 32) :
    wordOf (splice read pos (le32 word)) pos = word := by
  have hfour := length_le32 word
  have hat : ∀ i, i < 4 → splice read pos (le32 word) (pos + i) = ((le32 word)[i]?).getD 0 :=
    fun i hi => splice_at (by omega)
  have hzero := hat 0 (by omega)
  rw [Nat.add_zero] at hzero
  rw [wordOf, hzero, hat 1 (by omega), hat 2 (by omega), hat 3 (by omega), four_getD hfour, word32_le32]

theorem word32At_eq_wordOf {bytes : Bytes} {pos : Nat} (h : pos + 4 ≤ bytes.length) :
    word32At bytes pos = some (wordOf (fun i => (bytes[i]?).getD 0) pos) := by
  obtain ⟨part, hpart, hlen⟩ := exists_range? h
  obtain ⟨front, back, rfl, rfl, _⟩ := range?_eq_some_iff.mp hpart
  have hat : ∀ i, i < 4 → ((front ++ part ++ back)[front.length + i]?).getD 0 = (part[i]?).getD 0 := by
    intro i hi
    rw [append_assoc, getElem?_append_right (by omega), Nat.add_sub_cancel_left, getElem?_append_left (by omega)]
  have hzero := hat 0 (by omega)
  rw [Nat.add_zero] at hzero
  rw [word32At, hpart, map_some, wordOf, hzero, hat 1 (by omega), hat 2 (by omega), hat 3 (by omega), four_getD hlen]

namespace Content

/-- The bytes of the items by position. -/
def read (content : Content) : Nat → UInt8 := content.items.read content.backing.content

/-- The offset word of a slot, zero where the array ends before it. -/
def word (content : Content) (slot : BitVec 32) : BitVec 32 := (content.slotOffset slot).getD 0

/-- A range of the items. -/
def span (content : Content) (offset len : Nat) : Bytes := (List.range' offset len).map content.read

/-- Both chunks are over their bytes, and the offsets are whole words with nothing behind them. -/
structure Shaped (content : Content) : Prop where
  items : content.items.Ok content.backing.content
  slots : content.slots.Ok content.backing.offsets
  whole : (content.slots.area content.backing.offsets).length = content.slots.dataEnd
  aligned : 4 ∣ content.slots.dataEnd

variable {content : Content} {slot : BitVec 32}

theorem shaped_new {backing : Backing} (h : 4 ∣ backing.offsets.length) (total : BitVec 32) :
    (Content.new backing total).Shaped :=
  ⟨ok_shipped _, ok_shipped _, rfl, h⟩

theorem slotOffset_eq (content : Content) (slot : BitVec 32) :
    content.slotOffset slot = if content.slots.dataEnd < slot.toNat * 4 + 4 then none
      else word32At (content.slots.area content.backing.offsets) (slot.toNat * 4) := by
  unfold slotOffset area
  cases content.slots.owned <;> rfl

/-- The words of a whole array, with zeros behind it. -/
theorem Shaped.word_eq (h : content.Shaped) (slot : BitVec 32) :
    content.word slot = wordOf (content.slots.read content.backing.offsets) (slot.toNat * 4) := by
  rw [word, slotOffset_eq]
  split_ifs with hend
  · have hdvd := h.aligned
    have hzero : ∀ i, slot.toNat * 4 ≤ i → content.slots.read content.backing.offsets i = 0 := by
      intro i hi
      rw [Chunk.read, getElem?_eq_none (by rw [h.whole]; omega), getD_none]
    rw [wordOf, hzero _ (by omega), hzero _ (by omega), hzero _ (by omega), hzero _ (by omega)]
    rfl
  · rw [word32At_eq_wordOf (by rw [h.whole]; omega), getD_some]
    rfl

theorem visible_eq (content : Content) (slot : BitVec 32) :
    content.visible slot = if content.word slot = 0 then .failed else content.header (content.word slot).toNat :=
  rfl

/-- Everything a header can be. -/
theorem Shaped.header_eq (h : content.Shaped) (offset : Nat) :
    content.header offset = if content.dataLen < offset + 2 then .failed
      else if offset + headerLen (content.read offset) (content.read (offset + 1)) ≤ content.items.capacity then
        .item offset (headerLen (content.read offset) (content.read (offset + 1)))
      else .past := by
  unfold header
  split_ifs with hend hpast
  · rfl
  · have hin : offset + 1 < content.items.capacity := by
      have hdata := h.items.dataEnd_le
      have hcapacity := h.items.length_le
      rw [dataLen] at hend
      omega
    rw [byte, byte, h.items.byte_eq, h.items.byte_eq, if_pos (by omega), if_pos hin]
    exact if_pos hpast
  · have hin : offset + 1 < content.items.capacity := by
      have hdata := h.items.dataEnd_le
      have hcapacity := h.items.length_le
      rw [dataLen] at hend
      omega
    rw [byte, byte, h.items.byte_eq, h.items.byte_eq, if_pos (by omega), if_pos hin]
    exact if_neg hpast

/-- A slot with a readable item : where it is and how long. -/
theorem Shaped.visible_eq_item (h : content.Shaped) {offset len : Nat} :
    content.visible slot = .item offset len ↔
      content.word slot ≠ 0 ∧ offset = (content.word slot).toNat ∧ offset + 2 ≤ content.dataLen ∧
        len = headerLen (content.read offset) (content.read (offset + 1)) ∧
        offset + len ≤ content.items.capacity := by
  rw [visible_eq, h.header_eq]
  constructor
  · intro hitem
    split_ifs at hitem with hword hend hpast
    obtain ⟨rfl, rfl⟩ := Found.item.inj hitem
    exact ⟨hword, rfl, Nat.not_lt.mp hend, rfl, hpast⟩
  · rintro ⟨hword, rfl, hend, rfl, hpast⟩
    rw [if_neg hword, if_neg (Nat.not_lt.mpr hend), if_pos hpast]

theorem Shaped.visible_eq_failed (h : content.Shaped) :
    content.visible slot = .failed ↔
      content.word slot = 0 ∨ content.dataLen < (content.word slot).toNat + 2 := by
  rw [visible_eq, h.header_eq]
  constructor
  · intro hfailed
    split_ifs at hfailed with hword hend
    · exact Or.inl hword
    · exact Or.inr hend
  · rintro (hword | hend)
    · exact if_pos hword
    · split_ifs
      · rfl
      · rfl

theorem mapM_eq_some {α β : Type} {f : α → Option β} {g : α → β} {l : List α} (h : ∀ a ∈ l, f a = some (g a)) :
    l.mapM f = some (l.map g) := by
  induction l with
  | nil => rfl
  | cons a rest ih =>
    rw [mapM_cons, h a mem_cons_self, ih fun b hb => h b (mem_cons_of_mem _ hb)]
    rfl

section

variable (h : content.Shaped)
include h

/-- An item inside the capacity is its bytes. -/
theorem Shaped.item_eq {offset len : Nat} (hle : offset + len ≤ content.items.capacity) :
    content.item offset len = some (content.span offset len) := by
  have harea : ∀ {area : Bytes}, offset + len ≤ area.length →
      (area.drop offset).take len = (List.range' offset len).map fun i => (area[i]?).getD 0 := by
    intro area hin
    refine ext_getElem? fun i => ?_
    rw [getElem?_take, getElem?_map]
    split_ifs with hi
    · rw [getElem?_drop, getElem?_range' hi, getElem?_eq_getElem (by omega), Nat.one_mul,
        map_some, getElem?_eq_getElem (by omega), getD_some]
    · rw [getElem?_eq_none (by rw [length_range']; omega), map_none]
  rw [item, if_neg (Nat.not_lt.mpr hle)]
  cases howned : content.items.owned with
  | some owned =>
    dsimp only
    have hread : ∀ i, content.read i = (owned[i]?).getD 0 := by
      intro i
      rw [read, Chunk.read, Chunk.area, howned, getD_some]
    split_ifs with hin
    · rw [harea hin, span, map_congr_left fun i _ => hread i]
    · have hbyte : ∀ i ∈ List.range' offset len, content.byte i = some (content.read i) := by
        intro i hi
        have := mem_range'_1.mp hi
        rw [byte, h.items.byte_eq, if_pos (by omega)]
        rfl
      exact mapM_eq_some hbyte
  | none =>
    have hcapacity := (h.items.viewing howned).2
    have hread : ∀ i, content.read i = (content.backing.content[i]?).getD 0 := by
      intro i
      rw [read, Chunk.read, Chunk.area, howned, getD_none]
    dsimp only
    rw [shippedItem, range?, if_pos ⟨Nat.le_add_right _ _, hcapacity ▸ hle⟩, Nat.add_sub_cancel_left,
      harea (hcapacity ▸ hle), span, map_congr_left fun i _ => hread i]

/-- A range that can be read. -/
theorem Shaped.item_eq_some {offset len : Nat} {bytes : Bytes}
    (hitem : content.item offset len = some bytes) :
    offset + len ≤ content.items.capacity ∧ bytes = content.span offset len := by
  have hle : offset + len ≤ content.items.capacity := by
    by_contra hlt
    rw [item, if_pos (Nat.not_le.mp hlt)] at hitem
    cases hitem
  rw [h.item_eq hle] at hitem
  exact ⟨hle, (some.inj hitem).symm⟩

/-- With no copy made the content is the mapping. -/
theorem Shaped.item_of_shipped (howned : content.items.owned = none) {offset len : Nat}
    {bytes : Bytes} (hitem : content.shippedItem offset len = some bytes) : content.item offset len = some bytes := by
  have hcapacity := (h.items.viewing howned).2
  obtain ⟨_, hle⟩ := range?_bounds hitem
  rw [item, if_neg (by omega), howned]
  exact hitem

/-- The item of a slot. -/
theorem Shaped.itemBytes_eq_some {bytes : Bytes} :
    content.itemBytes slot = some bytes ↔
      ∃ offset len, content.visible slot = .item offset len ∧ bytes = content.span offset len := by
  unfold itemBytes
  constructor
  · intro hbytes
    split at hbytes
    · rename_i offset len hitem
      rw [h.item_eq (h.visible_eq_item.mp hitem).2.2.2.2] at hbytes
      exact ⟨offset, len, hitem, (some.inj hbytes).symm⟩
    · cases hbytes
  · rintro ⟨offset, len, hitem, rfl⟩
    rw [hitem]
    exact h.item_eq (h.visible_eq_item.mp hitem).2.2.2.2

end

theorem length_span (content : Content) (offset len : Nat) : (content.span offset len).length = len := by
  rw [span, length_map, length_range']

theorem getElem?_span (content : Content) {offset len i : Nat} (h : i < len) :
    (content.span offset len)[i]? = some (content.read (offset + i)) := by
  rw [span, getElem?_map, getElem?_range' h, Nat.one_mul, map_some]

/-! ## What a write shows -/

theorem read_of_area {before after : Content} {offset : Nat} {bytes : Bytes}
    (h : after.items.area after.backing.content =
      writeOwned (before.items.area before.backing.content) offset bytes) :
    after.read = splice before.read offset bytes := by
  ext1 pos
  rw [read, Chunk.read, h, Chunk.read_writeOwned]
  rfl

section

variable (h : content.Shaped)
include h

/-- An append writes where the size says, and the content ends behind it. -/
theorem Shaped.append (payload : Bytes) :
    (content.append payload).1.Shaped ∧
      (content.append payload).1.read =
        splice content.read (appendOffset content.dataLen).toNat payload ∧
      (content.append payload).1.word = content.word ∧
      (content.append payload).1.dataLen =
        max content.dataLen ((appendOffset content.dataLen).toNat + payload.length) ∧
      content.items.capacity ≤ (content.append payload).1.items.capacity ∧
      (content.append payload).1.backing.offsets = content.backing.offsets ∧
      (content.append payload).1.total = content.total := by
  obtain ⟨hok, hcapacity⟩ := h.items.setContent (appendOffset content.dataLen).toNat payload
  exact ⟨⟨hok, h.slots, h.whole, h.aligned⟩, read_of_area (area_setContent h.items _ payload), rfl,
    setContent_dataEnd _ _ _ _, hcapacity, rfl, rfl⟩

theorem Shaped.write {offset : Nat} {bytes : Bytes} {after : Content}
    (hwrite : content.write offset bytes = some after) :
    after.Shaped ∧ after.read = splice content.read offset bytes ∧ after.word = content.word ∧
      after.dataLen = content.dataLen ∧ after.items.capacity = content.items.capacity ∧
      after.backing.offsets = content.backing.offsets ∧ after.total = content.total := by
  obtain ⟨written, hpoke, rfl⟩ := map_eq_some_iff.mp hwrite
  obtain ⟨hok, harea, hend, hcapacity, _⟩ := h.items.poke hpoke
  exact ⟨⟨hok, h.slots, h.whole, h.aligned⟩, read_of_area harea, rfl, hend, hcapacity, rfl, rfl⟩

theorem Shaped.exists_write {offset : Nat} {bytes : Bytes} (hle : offset + bytes.length ≤ content.items.capacity) :
    ∃ after, content.write offset bytes = some after := by
  obtain ⟨written, hpoke⟩ := h.items.exists_poke hle
  exact ⟨_, by rw [Content.write, hpoke, map_some]⟩

/-- A write of the mapping shows only where no copy was made. -/
theorem Shaped.writeShipped {offset : Nat} {bytes : Bytes} {after : Content}
    (hwrite : content.writeShipped offset bytes = some after) :
    after.Shaped ∧
      (content.items.owned.isSome ∧ after.read = content.read ∨
        content.items.owned = none ∧ after.read = splice content.read offset bytes) ∧
      after.word = content.word ∧ after.dataLen = content.dataLen ∧
      after.items.capacity = content.items.capacity ∧ after.backing.offsets = content.backing.offsets := by
  obtain ⟨written, hpoke, rfl⟩ := map_eq_some_iff.mp hwrite
  unfold pokeShipped at hpoke
  split_ifs at hpoke with hle
  obtain rfl := some.inj hpoke
  refine ⟨⟨⟨fun hnone => ?_, h.items.copied⟩, h.slots, h.whole, h.aligned⟩, ?_, rfl, rfl, rfl, rfl⟩
  · rw [length_overwrite _ _ _ hle]
    exact h.items.viewing hnone
  · cases howned : content.items.owned with
    | some owned =>
      refine Or.inl ⟨rfl, ?_⟩
      ext1 pos
      simp only [read, Chunk.read, Chunk.area, howned, getD_some]
    | none =>
      refine Or.inr ⟨rfl, read_of_area ?_⟩
      rw [Chunk.area, Chunk.area]
      dsimp only
      rw [howned, getD_none, getD_none, Chunk.writeOwned_of_le hle]

/-- Setting a slot's word leaves the others, and the items. -/
theorem Shaped.setSlotOffset (slot offset : BitVec 32) :
    (content.setSlotOffset slot offset).Shaped ∧
      (content.setSlotOffset slot offset).word = Function.update content.word slot offset ∧
      (content.setSlotOffset slot offset).backing.offsets.length = content.backing.offsets.length := by
  have hfour := length_le32 offset
  obtain ⟨hok, _⟩ := h.slots.setContent (slot.toNat * 4) (le32 offset)
  have harea := area_setContent h.slots (slot.toNat * 4) (le32 offset)
  have hend := setContent_dataEnd content.slots content.backing.offsets (slot.toNat * 4) (le32 offset)
  have hshaped : (content.setSlotOffset slot offset).Shaped := by
    refine ⟨h.items, hok, ?_, ?_⟩
    · rw [Content.setSlotOffset]
      dsimp only
      rw [harea, length_writeOwned, hend, h.whole]
    · rw [Content.setSlotOffset]
      dsimp only
      have hdvd := h.aligned
      rw [hend, hfour]
      omega
  refine ⟨hshaped, ?_, length_setContent h.slots _ _⟩
  ext1 other
  have hread : (content.setSlotOffset slot offset).slots.read
      (content.setSlotOffset slot offset).backing.offsets =
        splice (content.slots.read content.backing.offsets) (slot.toNat * 4) (le32 offset) := by
    ext1 pos
    rw [Chunk.read, Content.setSlotOffset]
    dsimp only
    rw [harea, read_writeOwned]
    rfl
  rw [hshaped.word_eq, hread]
  by_cases hsame : other = slot
  · rw [hsame, Function.update_self, wordOf_splice]
  · rw [Function.update_of_ne hsame, h.word_eq]
    have hne : other.toNat ≠ slot.toNat := fun heq => hsame (BitVec.eq_of_toNat_eq heq)
    refine wordOf_congr fun i hlow hhigh => ?_
    rcases Nat.lt_or_gt_of_ne hne with hlt | hgt
    · exact splice_of_lt (by omega)
    · exact splice_of_le (by omega)

end

theorem setSlotOffset_frame (content : Content) (slot offset : BitVec 32) :
    (content.setSlotOffset slot offset).read = content.read ∧
      (content.setSlotOffset slot offset).dataLen = content.dataLen ∧
      (content.setSlotOffset slot offset).items = content.items ∧
      (content.setSlotOffset slot offset).backing.content = content.backing.content ∧
      (content.setSlotOffset slot offset).total = content.total :=
  ⟨rfl, rfl, rfl, rfl, rfl⟩

end Content

end Oxpinyin.Replay
