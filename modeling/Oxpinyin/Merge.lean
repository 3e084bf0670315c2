import Oxpinyin.LiveContent
import Oxpinyin.LogRecords
import Oxpinyin.PhraseLibrary

/-!
# The replay of a library's log

`Merge` applies the records of a log to a library's buffer, one after the other, as
`replay.rs` does. A record that does not fit what the buffer holds stops the replay with the
records before it applied. `rollback` takes every write of the mapping back, last first, and
`finishLiveOwner` retains the buffer with what the replay says of its slots.
-/

namespace Oxpinyin.Replay

open LittleEndian ChunkFile

/-- Why the replay ended at a record. -/
inductive Stop where
  | mismatch (kind : String) (token : BitVec 32)
  | shortAdd (token : BitVec 32)
  deriving DecidableEq

/-- An assertion the walk of a library's log reaches. -/
inductive JournalFault where
  | headerToken (library : BitVec 8) (token : BitVec 32)
  | shortAdd (library : BitVec 8) (token : BitVec 32)
  | multipleHeaders (library : BitVec 8)
  | shortMaskedItem (library : BitVec 8) (token : BitVec 32)
  | survivingRecord (library : BitVec 8) (token : BitVec 32)
  deriving DecidableEq

/-- The item a MODIFY last read into. -/
inductive Stale where
  | default (bytes : Bytes)
  | shipped (offset len : Nat)
  | owned (offset len appends : Nat)
  deriving DecidableEq

/-- Where that item is. -/
inductive Place where
  | default
  | shipped (offset len : Nat)
  | owned (offset len : Nat)
  deriving DecidableEq

/-- What takes one write of the mapping back. -/
inductive Undo where
  | offset (slot old : BitVec 32)
  | total (old : BitVec 32)
  | content (offset : Nat) (old : Bytes)
  deriving DecidableEq

/-- A library as it was loaded. -/
structure SystemLibrary where
  total : BitVec 32
  rangeEnd : Nat
  items : List (BitVec 32 × ChunkItem)
  mapped : Option PhraseLibrary
  deriving DecidableEq

/-- The state of a replay. The entries of `undo` and `touched` stand last first. -/
structure Merge where
  content : Content
  liveOwner : Bool
  provenance : Provenance
  initialProvenance : Provenance
  tracksOriginal : Bool
  exceptional : Bool
  plainModifies : Nat
  undo : List Undo
  touched : List (BitVec 32)
  overreach : Bool
  hasOriginal : Bool
  stale : Stale
  staleSlot : Option (BitVec 32)
  appends : Nat
  deriving DecidableEq

/-! ## The start of a replay -/

/-- An item as it is stored, its shape not judged. -/
def journalItemBytes (item : ChunkItem) : Bytes :=
  UInt8.ofNat (min item.phrase.length 255) :: UInt8.ofNat (min item.prons.length 255) ::
    (le32 item.unigram ++ item.phrase.flatMap le32 ++
      item.prons.flatMap fun pron => pron.1.flatMap le16 ++ le32 pron.2)

/-- The offsets and the bytes of inline items, appended one after the other. -/
def inlineBacking (items : List (BitVec 32 × ChunkItem)) : Backing :=
  let laid := items.foldl (fun (state : List (BitVec 32 × Nat) × Bytes) entry =>
    (state.1 ++ [(entry.1, state.2.length)], state.2 ++ journalItemBytes entry.2))
    ([], List.replicate firstItemOffset 0)
  let slots := (laid.1.getLast?).elim 0 fun entry => entry.1.toNat + 1
  ⟨laid.1.foldl (fun array entry =>
      overwrite array (entry.1.toNat * 4) (le32 (BitVec.ofNat 32 (min entry.2 (2 ^ 32 - 1)))))
      (List.replicate (4 * slots) 0), laid.2⟩

/-- The bytes of a mapped library. -/
def mappedBacking (mapped : PhraseLibrary) : Backing := ⟨mapped.offsetArray, mapped.itemArea⟩

/-- The bytes a replay starts from. -/
def originBacking : Option SystemLibrary → Backing
  | none => ⟨[], []⟩
  | some library =>
    match library.mapped with
    | some mapped => mappedBacking mapped
    | none => if library.items = [] then ⟨[], []⟩ else inlineBacking library.items

/-- The library has a mapping. -/
def isMapped (original : Option SystemLibrary) : Bool := original.any fun library => library.mapped.isSome

namespace Merge

/-- The replay on a copy of a library. -/
def new (original : Option SystemLibrary) : Merge where
  content := .new (originBacking original) (original.elim 0 SystemLibrary.total)
  liveOwner := false
  provenance := ⟨[], []⟩
  initialProvenance := ⟨[], []⟩
  tracksOriginal := isMapped original
  exceptional := false
  plainModifies := 0
  undo := []
  touched := []
  overreach := false
  hasOriginal := original.isSome
  stale := .default (List.replicate phraseItemHeader 0)
  staleSlot := none
  appends := 0

/-- The replay on a live buffer. -/
def fromLive (original : Option SystemLibrary) (live : ReplayedLibrary) : Merge where
  content := live.content
  liveOwner := true
  provenance := live.provenance
  initialProvenance := live.provenance
  tracksOriginal := isMapped original
  exceptional := !isMapped original
  plainModifies := 0
  undo := []
  touched := []
  overreach := false
  hasOriginal := original.isSome
  stale := .default (List.replicate phraseItemHeader 0)
  staleSlot := none
  appends := 0

/-! ## The parts of a record -/

section

variable (merge : Merge)

def noteAbsent (slot : BitVec 32) : Merge :=
  if slot.toNat < merge.content.loadedSlots then
    { merge with provenance := merge.provenance.noteAbsent slot }
  else merge

def notePresent (slot : BitVec 32) : Merge :=
  if slot.toNat < merge.content.loadedSlots then
    { merge with provenance := merge.provenance.notePresent slot }
  else merge

/-- A plain MODIFY before the first exceptional record. -/
def backfill (token : BitVec 32) : Merge :=
  let slot := token &&& phraseMask
  let noted := merge.notePresent slot
  if noted.liveOwner then { noted with touched := slot :: noted.touched } else noted

/-- The first record that is not a plain MODIFY asks for the tokens of those before it. -/
def beginExceptional (prior : List (BitVec 32)) : Merge :=
  if merge.exceptional then merge
  else
    let begun := { merge with exceptional := true }
    if 0 < begun.plainModifies then prior.foldl backfill begun else begun

def setOffset (slot offset : BitVec 32) : Merge :=
  let undo :=
    if merge.content.slotWriteHitsMapping slot then
      match merge.content.slotOffset slot with
      | some old => .offset slot old :: merge.undo
      | none => merge.undo
    else merge.undo
  { merge with
    touched := slot :: merge.touched
    undo := undo
    content := merge.content.setSlotOffset slot offset }

def setTotal (total : BitVec 32) : Merge :=
  { merge with
    undo := .total merge.content.total :: merge.undo
    content := { merge.content with total := total } }

def addTotal (delta : BitVec 32) : Merge := merge.setTotal (merge.content.total + delta)

def subtractTotal (delta : BitVec 32) : Merge := merge.setTotal (merge.content.total - delta)

/-- Appends a payload, and answers its offset. -/
def appendLogged (payload : Bytes) : Merge × BitVec 32 :=
  let appended := merge.content.append payload
  ({ merge with
      content := appended.1
      overreach := merge.overreach || appended.2.inPlace
      appends := if appended.2.inPlace then merge.appends else merge.appends + 1
      undo :=
        match appended.2.old with
        | some old => .content appended.2.offset.toNat old :: merge.undo
        | none => merge.undo }, appended.2.offset)

/-! ## ADD and REMOVE -/

def add (token : BitVec 32) (payload : Bytes) (prior : List (BitVec 32)) : Merge × Option Stop :=
  let slot := token &&& phraseMask
  if payload.length < phraseItemHeader then (merge, some (.shortAdd token))
  else
    let begun := merge.beginExceptional prior
    let noted :=
      match begun.content.visible slot with
      | .item _ _ => begun
      | _ => begun.noteAbsent slot
    let appended := noted.appendLogged payload
    ((appended.1.setOffset slot appended.2).addTotal (rawUnigram payload), none)

def remove (token : BitVec 32) (oldItem : Bytes) (prior : List (BitVec 32)) : Merge × Option Stop :=
  let slot := token &&& phraseMask
  let mismatch := Stop.mismatch "REMOVE" token
  match merge.content.visible slot with
  | .past => (merge, some mismatch)
  | .failed =>
    if (visibleLen oldItem).isNone then (merge, some mismatch)
    else (((merge.beginExceptional prior).noteAbsent slot).setOffset slot 0, none)
  | .item offset len =>
    match merge.content.item offset len with
    | none => (merge, some mismatch)
    | some bytes =>
      let removed := ((merge.beginExceptional prior).notePresent slot).setOffset slot 0
      (removed.subtractTotal (rawUnigram bytes), if bytes = oldItem then none else some mismatch)

/-! ## MODIFY -/

def stalePlace : Option Place :=
  match merge.stale with
  | .default _ => some .default
  | .shipped offset len => some (.shipped offset len)
  | .owned offset len appends => if appends = merge.appends then some (.owned offset len) else none

def staleSize : Nat :=
  match merge.stale with
  | .default bytes => bytes.length
  | .shipped _ len => len
  | .owned _ len _ => len

def staleRead : Place → Option Bytes
  | .default =>
    match merge.stale with
    | .default bytes => some bytes
    | _ => none
  | .shipped offset len => merge.content.shippedItem offset len
  | .owned offset len => merge.content.item offset len

/-- A write found an item at the slot behind the stale item. -/
def noteStale : Merge :=
  match merge.staleSlot with
  | some slot => merge.notePresent slot
  | none => merge

/-- Writes over the stale item, and answers whether it could. -/
def staleWrite (place : Place) (bytes old : Bytes) : Merge × Bool :=
  match place with
  | .default =>
    match merge.stale with
    | .default buffer => ({ merge with stale := .default (overwrite buffer 0 bytes) }, true)
    | _ => (merge, false)
  | .shipped offset _ =>
    let noted := merge.noteStale
    let logged :=
      if noted.content.shippedHas offset bytes.length && decide (bytes.length ≤ old.length) then
        { noted with undo := .content offset (old.take bytes.length) :: noted.undo }
      else noted
    match logged.content.writeShipped offset bytes with
    | some content => ({ logged with content := content }, true)
    | none => (logged, false)
  | .owned offset _ =>
    let noted := merge.noteStale
    match noted.content.write offset bytes with
    | some content => ({ noted with content := content }, true)
    | none => (noted, false)

end

/-- Two byte strings start with the same header, or neither has one. -/
def sameHeader (new old : Bytes) : Bool := decide (range? new 0 2 = range? old 0 2)

/-- The header of a payload claims more than a size. -/
def claimsMore (new : Bytes) (size : Nat) : Bool := (declaredLen new).any (size < ·)

variable (merge : Merge)

/-- MODIFY of a token with no item : the stale item takes its place. -/
def modifyStale (token : BitVec 32) (oldItem newItem : Bytes) (prior : List (BitVec 32)) : Merge × Option Stop :=
  let mismatch := Stop.mismatch "MODIFY" token
  match merge.stalePlace with
  | none => (merge, some mismatch)
  | some place =>
    match merge.staleRead place with
    | none => (merge, some mismatch)
    | some bytes =>
      if bytes ≠ oldItem ∨ merge.staleSize < newItem.length then (merge, some mismatch)
      else
        let overreach := !sameHeader newItem bytes && claimsMore newItem merge.staleSize
        let written := (merge.beginExceptional prior).staleWrite place newItem oldItem
        if written.2 then ({ written.1 with overreach := written.1.overreach || overreach }, none)
        else (written.1, some mismatch)

/-- A MODIFY reads a slot's item, which stays behind it as the stale one. -/
def readInto (slot : BitVec 32) (offset len : Nat) : Merge :=
  { merge with
    staleSlot := some slot
    stale := if merge.content.items.owned.isSome then .owned offset len merge.appends else .shipped offset len }

/-- A MODIFY to a longer item : its payload is appended. -/
def modifyMove (slot : BitVec 32) (bytes newItem : Bytes) (prior : List (BitVec 32)) : Merge :=
  let noted := (merge.beginExceptional prior).notePresent slot
  let appended := ((noted.subtractTotal (rawUnigram bytes)).addTotal (rawUnigram newItem)).appendLogged newItem
  appended.1.setOffset slot appended.2

/-- What a MODIFY in place leaves of its slot. A plain one is only counted. -/
def recordModify (slot : BitVec 32) : Merge :=
  if merge.exceptional then
    let noted := merge.notePresent slot
    { noted with touched := slot :: noted.touched }
  else
    { merge with
      plainModifies := merge.plainModifies + 1
      touched := if merge.liveOwner then merge.touched else slot :: merge.touched }

/-- A MODIFY in place. -/
def modifyInPlace (token : BitVec 32) (offset len : Nat) (bytes oldItem newItem : Bytes) (prior : List (BitVec 32)) :
    Merge × Option Stop :=
  let slot := token &&& phraseMask
  let same := sameHeader newItem bytes
  let overreach := !same && claimsMore newItem len
  let begun := if same then merge else merge.beginExceptional prior
  let logged :=
    if begun.content.items.hitsMapping offset newItem.length && decide (newItem.length ≤ oldItem.length) then
      { begun with undo := .content offset (oldItem.take newItem.length) :: begun.undo }
    else begun
  match logged.content.write offset newItem with
  | none => (logged, some (.mismatch "MODIFY" token))
  | some content =>
    ({ logged with content := content, overreach := logged.overreach || overreach }.recordModify slot, none)

/-- MODIFY of a readable item. -/
def modifyItem (token : BitVec 32) (offset len : Nat) (oldItem newItem : Bytes) (prior : List (BitVec 32)) :
    Merge × Option Stop :=
  let slot := token &&& phraseMask
  let mismatch := Stop.mismatch "MODIFY" token
  let read := merge.readInto slot offset len
  match read.content.item offset len with
  | none => (read, some mismatch)
  | some bytes =>
    if bytes ≠ oldItem then (read, some mismatch)
    else if len < newItem.length then (read.modifyMove slot bytes newItem prior, none)
    else read.modifyInPlace token offset len bytes oldItem newItem prior

def modify (token : BitVec 32) (oldItem newItem : Bytes) (prior : List (BitVec 32)) : Merge × Option Stop :=
  match merge.content.visible (token &&& phraseMask) with
  | .past => (merge, some (.mismatch "MODIFY" token))
  | .failed => merge.modifyStale token oldItem newItem prior
  | .item offset len => merge.modifyItem token offset len oldItem newItem prior

/-! ## The records of a log -/

/-- Applies a record. The callback hands `backfill` the tokens of the plain MODIFYs before it. -/
def applyBackfilling (record : LogRecord) (prior : List (BitVec 32)) : Merge × Option Stop :=
  match record with
  | .add token newItem => merge.add token newItem prior
  | .remove token oldItem => merge.remove token oldItem prior
  | .modify token oldItem newItem => merge.modify token oldItem newItem prior
  | .modifyHeader oldTotal newTotal =>
    if merge.content.total ≠ oldTotal then (merge, some (.mismatch "header" 0))
    else (merge.setTotal newTotal, none)

end Merge

/-- How the walk of a log ended. -/
inductive MergeEnd where
  | applied
  | overRead
  deriving DecidableEq

/-- The tokens of the MODIFY records, in order. -/
def modifyTokens (records : List (Except LogFault LogRecord)) : List (BitVec 32) :=
  records.filterMap fun
    | .ok (.modify token _ _) => some token
    | _ => none

/-- The loop of `mergeLog`, behind the records applied. -/
def mergeFrom (library : BitVec 8) (applied : List (Except LogFault LogRecord)) :
    List (Except LogFault LogRecord) → Merge → Merge × List Stop × Except JournalFault MergeEnd
  | [], merge => (merge, [], .ok .applied)
  | .error (.headerToken token) :: _, merge => (merge, [], .error (.headerToken library token))
  | .error .overRead :: _, merge => (merge, [], .ok .overRead)
  | .ok record :: rest, merge =>
    let outcome := merge.applyBackfilling record (modifyTokens applied)
    match outcome.2 with
    | none => mergeFrom library (applied ++ [.ok record]) rest outcome.1
    | some (.shortAdd token) => (outcome.1, [], .error (.shortAdd library token))
    | some (.mismatch kind token) => (outcome.1, [.mismatch kind token], .ok .applied)

/-- Applies the records of a log in order. The first mismatch ends it, and is what is reported
as skipped. -/
def mergeLog (merge : Merge) (records : List (Except LogFault LogRecord)) (library : BitVec 8) :
    Merge × List Stop × Except JournalFault MergeEnd :=
  mergeFrom library [] records merge

/-! ## The end of a replay -/

namespace Merge

/-- Takes one write back. -/
def undoEntry (content : Content) : Undo → Content
  | .offset slot old => content.restoreSlot slot old
  | .total old => { content with total := old }
  | .content offset old => (content.writeShipped offset old).getD content

/-- Takes every write of the mapping back, last first, and drops the grown copies. -/
def rollback (merge : Merge) : ReplayedLibrary where
  content := (merge.undo.foldl undoEntry merge.content).resetGrowth
  provenance := merge.initialProvenance
  hasAddedItems := false
  rejected := []
  removed := false

/-- The touched slots, ascending and once each. -/
def sortedTouched (merge : Merge) : List (BitVec 32) :=
  (merge.touched.mergeSort fun a b => decide (a ≤ b)).dedup

/-- A touched slot held an item at its first write. -/
def isOriginal (merge : Merge) (slot : BitVec 32) : Bool :=
  merge.tracksOriginal && decide (slot.toNat < merge.content.loadedSlots) && !merge.provenance.isAbsent slot

/-- The classification of one touched slot. -/
def classify (merge : Merge) (library : ReplayedLibrary) (slot : BitVec 32) : ReplayedLibrary :=
  let original := merge.isOriginal slot
  let offset := (merge.content.slotOffset slot).getD 0
  if offset = 0 then { library with removed := library.removed || original }
  else
    match merge.content.header offset.toNat with
    | .failed => { library with removed := library.removed || original }
    | .past => { library with removed := library.removed || original, rejected := library.rejected ++ [slot] }
    | .item _ _ => { library with hasAddedItems := library.hasAddedItems || !original }

/-- The buffer a live owner's replay leaves, and its total. -/
def finishLiveOwner (merge : Merge) : Option (BitVec 32) × ReplayedLibrary :=
  (if merge.hasOriginal then some merge.content.total else none,
    merge.sortedTouched.foldl merge.classify
      ⟨merge.content, merge.provenance, false, [], merge.overreach⟩)

end Merge

/-- The retained buffer behind a log, none where the walk reaches an assertion. A payload past
the end of the log takes the replay back. -/
def replayLog (original : Option SystemLibrary) (live : ReplayedLibrary) (library : BitVec 8)
    (records : List (Except LogFault LogRecord)) : Except JournalFault ReplayedLibrary :=
  let outcome := mergeLog (.fromLive original live) records library
  outcome.2.2.map fun
    | .applied => outcome.1.finishLiveOwner.2
    | .overRead => outcome.1.rollback

end Oxpinyin.Replay
