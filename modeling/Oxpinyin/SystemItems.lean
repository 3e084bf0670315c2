import Oxpinyin.LiveItems

/-!
# The live system libraries

`system_items.rs` : what a session holds of the loaded system libraries beyond their shipped
chunks. A library that something was written to has a live buffer, made from its baseline at
the first write; one without is its chunk, with the total a reload left or the chunk's own.
The facade's total has an extra part that no system library accounts for.
-/

namespace Oxpinyin.Replay

open ChunkFile FiniteMap

/-- A library as it was loaded. A detached one gave its mapping to a live buffer and reads as
nothing. -/
structure Baseline where
  library : SystemLibrary
  detached : Bool

namespace Baseline

variable (baseline : Baseline)

/-- The mapping that can be read. -/
def mapping : Option PhraseLibrary :=
  if baseline.detached then none else baseline.library.mapped

def isDetached : Bool := baseline.library.mapped.isSome && baseline.detached

def containsItem (slot : BitVec 32) : Bool :=
  (baseline.library.items.lookup slot).isSome || baseline.mapping.any fun mapped => (mapped.item slot).isSome

/-- The frequencies of the items, an inline one in the place of the mapped one of its slot. -/
def itemTotal : BitVec 32 :=
  let named := baseline.library.items.filter fun entry => 1 ≤ entry.1
  let inline := named.foldl (fun total entry => total + entry.2.unigram) 0
  match baseline.library.mapped with
  | none => inline
  | some _ =>
    let listed := (baseline.mapping.elim [] PhraseLibrary.items).filter fun entry => 1 ≤ entry.1
    let both := inline + listed.foldl (fun total entry => total + entry.2.unigram) 0
    (named.filterMap fun entry => baseline.mapping.bind fun mapped => mapped.item entry.1).foldl
      (fun total item => total - item.unigram) both

/-- The live buffer of a library nothing was written to. -/
def pristine : ReplayedLibrary :=
  .fromMapping (originBacking (some { baseline.library with mapped := baseline.mapping })) baseline.library.total

end Baseline

/-- The live buffers, the totals of libraries that have none, and the facade's extra. -/
structure SystemItems where
  replayed : SortedMap (BitVec 8) ReplayedLibrary
  totals : SortedMap (BitVec 8) (BitVec 32)
  facadeExtra : BitVec 64

/-- The library part of a token, as the buffers are keyed. -/
def bufferOf (token : BitVec 32) : BitVec 8 := (token >>> 24).setWidth 8

/-- The slot part of a token. -/
def bufferSlot (token : BitVec 32) : BitVec 32 := token &&& 0x00ffffff

namespace SystemItems

/-- No buffer and nothing extra. -/
def new : SystemItems := ⟨.empty, .empty, 0⟩

variable (items : SystemItems)

/-- The live buffer of a library, made from its baseline where it has none. -/
def libraryOf (nibble : BitVec 8) (original : Baseline) : ReplayedLibrary :=
  match items.replayed.get? nibble with
  | some library => library
  | none =>
    match items.totals.get? nibble with
    | none => original.pristine
    | some total => { original.pristine with content := { original.pristine.content with total := total } }

/-- The buffer of a library after a write. One made for it takes the total of a reload over. -/
def putLibrary (nibble : BitVec 8) (library : ReplayedLibrary) : SystemItems :=
  { items with
    replayed := items.replayed.insert nibble library
    totals := if (items.replayed.get? nibble).isSome then items.totals else items.totals.erase nibble }

/-- The buffer a replay left takes its library's place. -/
def insertLibrary (nibble : BitVec 8) (library : ReplayedLibrary) : SystemItems :=
  { items with totals := items.totals.erase nibble, replayed := items.replayed.insert nibble library }

/-- The sub-index total of a library : its buffer's, a reload's, or the baseline's. -/
def libraryTotal (nibble : BitVec 8) (original : Baseline) : BitVec 32 :=
  match items.replayed.get? nibble with
  | some library => library.content.total
  | none => (items.totals.get? nibble).getD original.library.total

def setLibraryTotal (nibble : BitVec 8) (total : BitVec 32) : SystemItems :=
  match items.replayed.get? nibble with
  | some library =>
    let library := { library with content := { library.content with total := total } }
    { items with replayed := items.replayed.insert nibble library }
  | none => { items with totals := items.totals.insert nibble total }

def forgetLibrary (nibble : BitVec 8) : SystemItems :=
  { items with replayed := items.replayed.erase nibble, totals := items.totals.erase nibble }

def addFacadeExtra (delta : BitVec 64) : SystemItems :=
  { items with facadeExtra := items.facadeExtra + delta }

def subFacadeExtra (delta : BitVec 64) : SystemItems :=
  { items with facadeExtra := items.facadeExtra - delta }

/-- A library has no sub-index : its baseline gave its mapping away and no buffer holds it. -/
def lacksSubIndex (nibble : BitVec 8) (original : Baseline) : Bool :=
  (items.replayed.get? nibble).isNone && original.isDetached

/-- The frequencies of the items a library holds. -/
def compactedTotal (nibble : BitVec 8) (original : Baseline) : BitVec 32 :=
  match items.replayed.get? nibble with
  | some buffer => buffer.readableUnigramSum
  | none => original.itemTotal

def rangeEnd (nibble : BitVec 8) (original : Baseline) : Nat :=
  match items.replayed.get? nibble with
  | some library => library.rangeEnd
  | none => max original.library.rangeEnd 1

/-- Stores an item, and answers whether it went over earlier bytes. -/
def addItem (original : Baseline) (token : BitVec 32) (payload : Bytes) : SystemItems × Bool :=
  let added := (items.libraryOf (bufferOf token) original).addItem (bufferSlot token) payload
  (items.putLibrary (bufferOf token) added.1, added.2)

/-- Takes an item out, and answers its bytes. -/
def removeItem (original : Baseline) (token : BitVec 32) : SystemItems × Option Bytes :=
  let removed := (items.libraryOf (bufferOf token) original).removeItem (bufferSlot token)
  (items.putLibrary (bufferOf token) removed.1, removed.2)

def hasAdded : Bool := items.replayed.entries.any fun entry => entry.2.hasAdded

/-- Adds to an item's frequency and its library's total. -/
def addUnigram (original : Baseline) (token delta : BitVec 32) : SystemItems × UnigramAdd :=
  let added := (items.libraryOf (bufferOf token) original).addUnigram (bufferSlot token) delta
  (items.putLibrary (bufferOf token) added.1, added.2)

/-- The bytes of an item a live buffer holds. -/
def withLive (token : BitVec 32) : Option Bytes :=
  (items.replayed.get? (bufferOf token)).bind fun library => library.itemBytes (bufferSlot token)

/-- The bytes of an item its library's loaded chunk lacked. -/
def withAdded (token : BitVec 32) : Option Bytes :=
  (items.replayed.get? (bufferOf token)).bind fun library =>
    if library.isAddedSlot (bufferSlot token) then library.itemBytes (bufferSlot token) else none

/-- Trains the readings of an item. A buffer is made only for an item of the baseline. -/
def trainLive (original : Option Baseline) (token : BitVec 32) (readings : List (List ChewingKey))
    (delta : BitVec 32) :
    SystemItems × Bool :=
  let train := fun (library : ReplayedLibrary) =>
    let trained := library.train (bufferSlot token) readings delta
    (items.putLibrary (bufferOf token) trained.1, trained.2)
  match items.replayed.get? (bufferOf token) with
  | some library => train library
  | none =>
    match original.filter fun original => original.containsItem (bufferSlot token) with
    | none => (items, false)
    | some original => train (items.libraryOf (bufferOf token) original)

/-- An item is one its library's loaded chunk lacked. -/
def isAdded (token : BitVec 32) : Bool :=
  (items.replayed.get? (bufferOf token)).any fun library => library.isAddedSlot (bufferSlot token)

end SystemItems

end Oxpinyin.Replay
