import Oxpinyin.CountCache

/-!
# The effective system items

`live_system.rs` and the store reads under it : the item of a token is the one a session's live
buffer holds, else the one of the shipped chunk, unless the library is unloaded or the item was
taken out. A user item is read from the arenas, or is one that a live buffer was added. Two flags
stand before the buffers, so that a session without them takes no lock.
-/

namespace Oxpinyin

open ChunkFile FiniteMap Replay

/-! ## The live buffers -/

namespace Replay

/-- A slot names an item that ends past the buffer. -/
def ReplayedLibrary.itemPastBuffer (library : ReplayedLibrary) (slot : BitVec 32) : Bool :=
  (library.content.slotOffset slot).any fun offset => offset ≠ 0 && library.content.header offset.toNat = .past

/-- The frequency a baseline has for a slot. -/
def Baseline.unigram (baseline : Baseline) (slot : BitVec 32) : Option (BitVec 32) :=
  match baseline.library.items.lookup slot with
  | some item => some item.unigram
  | none => (baseline.mapping.bind fun mapped => mapped.item slot).map PhraseItemView.unigram

namespace SystemItems

variable (items : SystemItems) (token : BitVec 32)

/-- The chunk held an item that the live buffer does not answer. -/
def isRemoved (original : Option Baseline) : Bool :=
  (items.replayed.get? (bufferOf token)).any fun library =>
    let originalHeld := match original with
      | none => library.slotHasOffset (bufferSlot token)
      | some original =>
        if original.library.mapped.isSome then library.originallyHeld (bufferSlot token)
        else original.containsItem (bufferSlot token)
    originalHeld && (library.itemBytes (bufferSlot token)).isNone

/-- The frequency of an item : the live buffer's, or the baseline's where there is none. -/
def unigram (original : Option Baseline) : Option (BitVec 32) :=
  match items.replayed.get? (bufferOf token) with
  | some library => library.unigram (bufferSlot token)
  | none => original.bind fun original => original.unigram (bufferSlot token)

def liveItemPastBuffer : Bool :=
  (items.replayed.get? (bufferOf token)).any fun library => library.itemPastBuffer (bufferSlot token)

end SystemItems

end Replay

/-! ## The store -/

/-- A store as the readers of the effective items see it. -/
structure LiveStore extends GatedStore where
  /-- Some live buffer may lack an item of its chunk. -/
  hasRemovedSystemItems : Bool
  /-- The libraries the layout gives a log. -/
  systemLogs : BitVec 8 → Bool

namespace LiveStore

variable (live : LiveStore)

abbrev session : SessionState := live.store.phrases

def generation : BitVec 64 := live.writeGeneration

def isSystemLibrary (library : BitVec 8) : Bool :=
  (live.session.originals.get? library).isSome || live.systemLogs library

/-- The baseline a token's library has. -/
def original (token : BitVec 32) : Option Baseline := live.session.originals.get? (phraseIndexLibraryIndex token)

def systemItemRemoved (token : BitVec 32) : Bool :=
  live.hasRemovedSystemItems && live.session.items.isRemoved token (live.original token)

/-- The live frequency of a system item. -/
def systemUnigram (token : BitVec 32) : Option (BitVec 32) :=
  (live.original token).bind fun original =>
    if live.systemItemRemoved token then none
    else
      match live.withUserItem token with
      | some view => some view.unigram
      | none => live.session.items.unigram token (some original)

/-- What the facade has beyond the totals of the system libraries. -/
def unigramTotal : BitVec 64 := live.session.items.facadeExtra

/-- What the facade has beyond the stored totals of the visible system libraries. -/
def unigramTotalOver (visible : BitVec 8 → Bool) : BitVec 64 :=
  live.session.originals.entries.foldl (fun extra entry =>
    if visible entry.1 then
      extra + (live.session.items.libraryTotal entry.1 entry.2 - entry.2.library.total).setWidth 64
    else extra) live.unigramTotal

/-- A write, and where it leaves the two flags. -/
def write (side : PhraseSide SessionState PhraseError) (op : StoreOp) (hasSystemItems hasRemovedSystemItems : Bool) :
    LiveStore :=
  { live with
    toGatedStore := live.toGatedStore.after side (.write op hasSystemItems)
    hasRemovedSystemItems := hasRemovedSystemItems }

end LiveStore

/-! ## Reading -/

/-- A mapped chunk. One that gave its bytes to a live buffer reads as nothing. -/
structure MappedLibrary where
  library : PhraseLibrary
  detached : Bool

/-- The mapped chunks of a facade. -/
structure PhraseLibraries where
  byNibble : SortedMap (BitVec 8) MappedLibrary

namespace PhraseLibraries

variable (libraries : PhraseLibraries)

/-- The library of a token. There are sixteen. -/
def library (token : BitVec 32) : Option MappedLibrary :=
  if bufferOf token < 16 then libraries.byNibble.get? (bufferOf token) else none

def isLoaded (nibble : BitVec 8) : Bool := nibble < 16 && (libraries.byNibble.get? nibble).isSome

def item (token : BitVec 32) : Option PhraseItemView :=
  (libraries.library token).bind fun mapped => if mapped.detached then none else mapped.library.item token

/-- The frequency a chunk stores for a token. -/
def unigramCount (token : BitVec 32) : Option (BitVec 64) :=
  (libraries.item token).map fun view => view.unigram.setWidth 64

end PhraseLibraries

/-- A bit of the mask of unloaded libraries is clear. -/
def libraryVisible (mask nibble : BitVec 32) : Bool :=
  mask = 0 || 32 ≤ nibble || mask &&& (1#32 <<< nibble) = 0

/-- Where an effective item lives. -/
inductive ItemOrigin where
  | shipped
  | overlay
  deriving DecidableEq

/-- An effective item with its origin. -/
structure SystemItem where
  origin : ItemOrigin
  view : PhraseItemView

/-- What a read of a token finds. -/
inductive Lookup (α : Type) where
  | unloaded
  | removed
  | absent
  | found (value : α)

def Lookup.get {α : Type} : Lookup α → Option α
  | .found value => some value
  | _ => none

/-- The chunks, the session over them and the mask of unloaded libraries. -/
structure LiveSystemItems where
  libraries : PhraseLibraries
  user : Option LiveStore
  unloaded : BitVec 32

namespace LiveSystemItems

variable (live : LiveSystemItems)

def libraryLoaded (nibble : BitVec 32) : Bool := libraryVisible live.unloaded nibble

def isSystemLibrary (library : BitVec 8) : Bool :=
  match live.user with
  | none => live.libraries.isLoaded library
  | some store => store.isSystemLibrary library

/-- The session holds items beyond the chunks. -/
def hasOverlay : Bool := live.user.any (·.hasSystemItems)

def filterActive : Bool := live.unloaded ≠ 0 || live.user.any LiveStore.hasRemovedSystemItems

def isVisible (token : BitVec 32) : Bool :=
  live.libraryLoaded (token >>> 24) && !live.user.any fun store => store.systemItemRemoved token

/-- The shipped item of a token. -/
def readShipped (token : BitVec 32) : Lookup SystemItem :=
  match live.libraries.item token with
  | some view => .found ⟨.shipped, view⟩
  | none => .absent

/-- The effective item of a token. The session's item goes before the shipped one. -/
def read (token : BitVec 32) : Lookup SystemItem :=
  if !live.isSystemLibrary (bufferOf token) then .absent
  else if !live.libraryLoaded (token >>> 24) then .unloaded
  else
    match live.user with
    | none => live.readShipped token
    | some store =>
      if store.systemItemRemoved token then .removed
      else
        match (store.withLiveItem token).bind PhraseItemView.fromBytes with
        | some view => .found ⟨.overlay, view⟩
        | none => if store.session.items.liveItemPastBuffer token then .absent else live.readShipped token

/-- The session holds an item the chunk lacks. -/
def isImported (token : BitVec 32) : Bool :=
  live.user.any fun store =>
    live.isSystemLibrary (bufferOf token) && (store.withUserItem token).isSome

end LiveSystemItems

end Oxpinyin
