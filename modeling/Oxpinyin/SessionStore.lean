import Oxpinyin.LibraryStore
import Oxpinyin.SystemItems
import Oxpinyin.UserBigram
import Oxpinyin.UserPhraseTable

/-!
# The phrases of a session

`store_arena.rs` and the library transitions of `store.rs` : the arenas of the user libraries,
the phrase table and the pinyin index that name their items, the marks of unloaded libraries,
the totals a chunk stored beyond its items, and the live system libraries. Each operation
changes several of these in turn. `sessionSide` is the phrase side the user bigram trains over.
-/

namespace Oxpinyin

open LittleEndian ChunkFile FiniteMap Replay

/-! ## Tokens and keys -/

def addonDictionary : BitVec 8 := 5

def networkDictionary : BitVec 8 := 6

def userDictionary : BitVec 8 := 7

/-- The library of a token. -/
def phraseIndexLibraryIndex (token : BitVec 32) : BitVec 8 := ((token &&& 0x0F000000) >>> 24).setWidth 8

/-- The token of a library's slot, each masked into its part. -/
def phraseIndexMakeToken (library : BitVec 8) (token : BitVec 32) : BitVec 32 :=
  ((library.setWidth 32 <<< 24) &&& 0x0F000000) ||| (token &&& phraseMask)

/-- The token of a new phrase. Slot zero is reserved. -/
def addPhraseToken (library : BitVec 8) (end_ : Nat) : BitVec 32 :=
  let token := phraseIndexMakeToken library (BitVec.ofNat 32 end_)
  if token &&& phraseMask = 0 then token + 1 else token

/-- The libraries kept in the user's directory. -/
def isUserFileLibrary (index : BitVec 8) : Bool :=
  index == addonDictionary || index == networkDictionary || index == userDictionary

/-- Dense syllable ids, tone included, as packed keys. -/
def pinyinKeysToPacked (ids : List (BitVec 16)) : Option (List (BitVec 16)) :=
  ids.mapM fun id => (SyllableKey.fromIndex (id &&& 0x1FFF).toNat).bind fun syllable =>
    (ChewingKey.fromPinyin syllable.text).map fun key => (key.withTone (id >>> 13).toNat).toPacked

/-- A phrase is not empty, shorter than the longest, and has a key for each word. -/
def phraseFitsKeys (words : List (BitVec 32)) (keys : List (BitVec 16)) : Bool :=
  !words.isEmpty && decide (words.length < UserIndex.maxPhraseLength) && words.length == keys.length

/-- The bytes of an item, or what they cannot hold. -/
def encodePhraseItem (item : ChunkItem) : Except ChunkWriteError Bytes := do
  let length := item.phrase.length
  require (length ≠ 0 ∧ length ≤ 255) s!"phrase item: phrase length {length} out of range"
  require (item.prons.length ≤ 255) s!"phrase item: {item.prons.length} pronunciations"
  item.prons.forM fun pron => require (pron.1.length = length)
    s!"phrase item: pronunciation has {pron.1.length} keys for a {length}-character phrase"
  return bodyBytes item

namespace UserPhraseTable

/-- Fails as adding would. -/
def checkAdd (phrases : UserPhraseTable) (words : List (BitVec 32)) : Except StoreError Unit :=
  let key := keyUcs4 words
  if key.isEmpty then .error (.invalidInput "phrase table text is empty")
  else (phrases.table.record key).elim (.ok ()) validate

/-- Fails as a mask would. -/
def checkMask (phrases : UserPhraseTable) : Except StoreError Unit :=
  phrases.table.forEachRecord (fun _ _ value => validate value) ()

/-- The tokens under a key. -/
def tokens (phrases : UserPhraseTable) (key : Bytes) : Except StoreError (List (BitVec 32)) :=
  match phrases.table.record key with
  | none => .ok []
  | some bytes => (PhraseTableEntry.fromBytes bytes).map PhraseTableEntry.tokens

end UserPhraseTable

/-- The library with no item and a total its chunk stored. -/
def UserLibrary.emptyWithTotal (total : BitVec 32) : UserLibrary := { UserLibrary.empty with total := total }

/-- A library whose bodies are not readable, with its headers. -/
def UserLibrary.loadHeadersPayload (payload : Bytes) : Except String UserLibrary :=
  match subPhraseIndexSections payload with
  | .error error => .error error.message
  | .ok sections => .ok ⟨0, .dense ((chunks 4 sections.2.1).map word32), sections.2.2, true⟩

/-- An item's bytes with a reading more, or with more of the one that has its keys. -/
def mergedReading (item : PhraseItemView) (keys : List (BitVec 16)) (delta : BitVec 32) : Except String Bytes :=
  if item.phraseLength ≠ keys.length then .error "user phrase reading length differs"
  else
    match UserLibrary.findReading keys delta item.pronunciations 0 0 with
    | none => .ok (UserLibrary.pushReading item.bytes keys delta)
    | some (i, frequency, accepted) =>
      let position := itemHeaderSize + 4 * keys.length + i * (2 * keys.length + 4) + 2 * keys.length
      .ok (if accepted then overwrite item.bytes position (le32 (frequency + delta)) else item.bytes)

/-! ## The state -/

/-- Why an operation on the phrases fails. -/
inductive PhraseError where
  | invalidPhrase
  | userReadingRemoval
  | overlongIndexKey
  | store (error : StoreError)
  | persistence (message : String)

/-- What a session holds of its phrases. -/
structure SessionState where
  /-- The items of the user libraries. -/
  libraries : SortedMap (BitVec 8) UserLibrary
  index : UserIndex
  /-- The libraries whose sub-index was unloaded, until a load. -/
  unloaded : Finset (BitVec 8)
  phraseTable : UserPhraseTable
  /-- How far each stored total lies from the sum of its items. -/
  offsets : SortedMap (BitVec 8) (BitVec 32)
  hasLibraryOffsets : Bool
  items : SystemItems
  originals : SortedMap (BitVec 8) Baseline
  /-- The libraries the table gives a file in the user's directory. -/
  hasUserLibrary : BitVec 8 → Bool
  hasOverlongIndexKey : Bool

namespace SessionState

variable (s : SessionState)

/-- The total a library has beyond its items. -/
def offsetOf (library : BitVec 8) : BitVec 32 := (s.offsets.get? library).getD 0

/-- The total of a library's sub-index. -/
def libraryTotalOf (library : BitVec 8) : BitVec 32 :=
  match s.originals.get? library with
  | some original => s.items.libraryTotal library original
  | none => (s.libraries.get? library).elim (s.offsetOf library) UserLibrary.total

/-- The arena of a library, made with its retained total where it has none. -/
def arena (nibble : BitVec 8) (retained : BitVec 32) : UserLibrary :=
  (s.libraries.get? nibble).getD (.emptyWithTotal retained)

/-- The item of a token. -/
def item (token : BitVec 32) : Option PhraseItemView :=
  (s.libraries.get? (phraseIndexLibraryIndex token)).bind fun library => library.item (token &&& phraseMask)

def putArena (nibble : BitVec 8) (library : UserLibrary) : SessionState :=
  { s with libraries := s.libraries.insert nibble library }

/-- The facade takes an added item's frequency in. -/
def takeItemIn (library : BitVec 8) (unigram : BitVec 32) (accepted : Bool) : SessionState :=
  match s.originals.get? library, accepted with
  | some original, true =>
    { s with items := s.items.setLibraryTotal library (s.items.libraryTotal library original + unigram) }
  | _, _ => { s with items := s.items.addFacadeExtra (unigram.setWidth 64) }

/-- The facade loses a removed item's frequency. -/
def takeItemOut (library : BitVec 8) (unigram : BitVec 32) : SessionState :=
  match s.originals.get? library with
  | some original =>
    { s with items := s.items.setLibraryTotal library (s.items.libraryTotal library original - unigram) }
  | none => { s with items := s.items.subFacadeExtra (unigram.setWidth 64) }

/-! ## Library transitions -/

/-- The frequencies of a library's items. -/
def itemSum (library : UserLibrary) : BitVec 64 :=
  library.items.foldl (fun sum entry => sum + entry.2.unigram.setWidth 64) 0

/-- A library takes an arena's place, with its share of the facade's total, or goes. -/
def replaceUserArena (nibble : BitVec 8) (library : Option UserLibrary) : SessionState :=
  let before := (s.libraries.get? nibble).elim 0 itemSum
  let after := library.elim 0 itemSum
  let offset := library.elim 0 fun library => library.total - after.setWidth 32
  let moved := offset - s.offsetOf nibble
  let offsets := if offset = 0 then s.offsets.erase nibble else s.offsets.insert nibble offset
  { s with
    offsets := offsets
    hasLibraryOffsets := !offsets.entries.isEmpty
    items := s.items.addFacadeExtra (after - before + moved.setWidth 64)
    libraries := library.elim (s.libraries.erase nibble) (s.libraries.insert nibble)
    unloaded := if library.isSome then s.unloaded.erase nibble else insert nibble s.unloaded }

/-- What a stored chunk loads as : its items, its total alone, its headers, or nothing. -/
def loadedLibrary (payload : Bytes) : Option UserLibrary :=
  match UserLibrary.loadPayload payload with
  | .ok library => some (if library.isEmpty then .emptyWithTotal library.total else library)
  | .error _ => (UserLibrary.loadHeadersPayload payload).toOption

/-- Loads a user library from its chunk, if there is one. -/
def loadUserLibrary (library : BitVec 8) (payload : Option Bytes) : SessionState :=
  if s.hasUserLibrary library then
    s.replaceUserArena library (some ((payload.bind loadedLibrary).getD .empty))
  else s

def unloadUserLibrary (library : BitVec 8) : SessionState :=
  if s.hasUserLibrary library then s.replaceUserArena library none else s

/-- The baselines a transition is made for. -/
abbrev Originals := SortedMap (BitVec 8) Baseline

/-- One reloaded library's live state : what its replay left, or a total alone. -/
def reloadItems (replayed : SortedMap (BitVec 8) ReplayedLibrary) (totals : SortedMap (BitVec 8) (BitVec 32))
    (items : SystemItems) (nibble : BitVec 8) : SystemItems :=
  let items := items.forgetLibrary nibble
  match replayed.get? nibble with
  | some library => items.insertLibrary nibble library
  | none => (totals.get? nibble).elim items (items.setLibraryTotal nibble)

/-- The live state of reloaded libraries. Their arenas and retained totals go. -/
def applySystemLibraries (originals : Originals) (replayed : SortedMap (BitVec 8) ReplayedLibrary)
    (totals : SortedMap (BitVec 8) (BitVec 32)) : SessionState :=
  let nibbles := originals.entries.map Prod.fst
  let offsets := nibbles.foldl SortedMap.erase s.offsets
  { s with
    offsets := offsets
    hasLibraryOffsets := !offsets.entries.isEmpty
    libraries := nibbles.foldl SortedMap.erase s.libraries
    items := nibbles.foldl (reloadItems replayed totals) s.items }

/-- Reloaded libraries with their baselines. -/
def replaceSystemLibraries (originals : Originals) (replayed : SortedMap (BitVec 8) ReplayedLibrary)
    (totals : SortedMap (BitVec 8) (BitVec 32)) : SessionState :=
  let applied := s.applySystemLibraries originals replayed totals
  { applied with
    unloaded := applied.unloaded \ (originals.entries.map Prod.fst).toFinset
    originals := applied.originals.insertAll originals.entries }

/-- Unloads system libraries. Their baselines stay, marked. -/
def unloadSystemLibraries (originals : Originals) : SessionState :=
  let replaced := s.replaceSystemLibraries originals .empty .empty
  { replaced with unloaded := replaced.unloaded ∪ (originals.entries.map Prod.fst).toFinset }

/-- Drops the live state of a library's baseline and marks the library. -/
def resetSystemLibrary (nibble : BitVec 8) : SessionState :=
  if 16 ≤ nibble then s
  else
    let selected := (s.originals.get? nibble).elim .empty fun original => SortedMap.insert .empty nibble original
    let applied := s.applySystemLibraries selected .empty .empty
    { applied with unloaded := insert nibble applied.unloaded }

/-- Every library's total is rebuilt from its items. The facade keeps what they held. -/
def compactLibraries : SessionState :=
  let compactOne := fun (items : SystemItems) (entry : BitVec 8 × Baseline) =>
    if items.lacksSubIndex entry.1 entry.2 then items
    else
      let old := items.libraryTotal entry.1 entry.2
      let new := items.compactedTotal entry.1 entry.2
      (items.setLibraryTotal entry.1 new).addFacadeExtra ((old - new).setWidth 64)
  { s with
    items := s.originals.entries.foldl compactOne s.items
    offsets := .empty
    libraries := s.libraries.entries.foldl (fun libraries entry => libraries.insert entry.1 entry.2.compact)
      s.libraries
    hasLibraryOffsets := false }

/-! ## Adding -/

/-- A new item is named by its text and its readings. -/
def enlist (words : List (BitVec 32)) (token : BitVec 32) (readings : List (List (BitVec 16))) :
    SessionState × Except PhraseError (BitVec 32) :=
  let added := s.phraseTable.add words token
  let s := { s with phraseTable := added.1 }
  match added.2 with
  | .error error => (s, .error (.persistence error.message))
  | .ok _ =>
    ({ s with index := readings.foldl (fun index packed =>
        (index.add (packed.map ChewingKey.fromPacked) token).1) s.index }, .ok token)

/-- A phrase's token in a library, unless the caller has selected one. -/
def existing (library : BitVec 8) (words : List (BitVec 32)) :
    Option (Option (BitVec 32)) → Except PhraseError (Option (BitVec 32))
  | some token => .ok token
  | none =>
    match s.phraseTable.tokens (keyUcs4 words) with
    | .error error => .error (.persistence error.message)
    | .ok tokens =>
      let tokens := tokens.filter fun token => phraseIndexLibraryIndex token = library
      if 1 < tokens.length then .error .invalidPhrase else .ok tokens.head?

/-- The text of an item. -/
def textBytes (item : PhraseItemView) : Bytes := (item.bytes.drop 6).take (4 * item.phraseLength)

/-- Adds a reading to a phrase of an arena. -/
def addArenaReading (library : BitVec 8) (words : List (BitVec 32)) (packed : List (BitVec 16))
    (delta token : BitVec 32) : SessionState × Except PhraseError (BitVec 32) :=
  match s.item token with
  | none => (s, .error .invalidPhrase)
  | some item =>
    if textBytes item ≠ keyUcs4 words then (s, .error .invalidPhrase)
    else
      let library' := (s.libraries.get? library).getD .empty
      match library'.addReading (token &&& phraseMask) packed delta with
      | .error message => (s.putArena library library', .error (.persistence message))
      | .ok added => (s.putArena library added, .ok token)

/-- Adds a phrase to an arena, under the token behind its range. -/
def addArenaPhrase (library : BitVec 8) (words : List (BitVec 32)) (packed : List (BitVec 16))
    (delta : BitVec 32) (rangeEnd : Nat) : SessionState × Except PhraseError (BitVec 32) :=
  let end_ := max ((s.libraries.get? library).elim 1 UserLibrary.tokenEnd) rangeEnd
  let token := addPhraseToken library end_
  let increment := delta * 3
  let accepted := decide ((s.libraryTotalOf library).toNat + increment.toNat < 2 ^ 32)
  match encodePhraseItem ⟨words, if accepted then increment else 0, [(packed, delta)]⟩ with
  | .error error => (s, .error (.persistence error.message))
  | .ok bytes =>
    match ((s.libraries.get? library).getD .empty).prepareAdd (token &&& phraseMask) bytes with
    | .error message => (s, .error (.persistence message))
    | .ok prepared =>
      let s := s.takeItemIn library increment accepted
      (s.putArena library (prepared.apply (s.arena library (s.offsetOf library)))).enlist words token [packed]

/-- Adds a reading to an item a live buffer added. -/
def addBufferReading (original : Baseline) (words : List (BitVec 32)) (packed : List (BitVec 16))
    (delta token : BitVec 32) : SessionState × Except PhraseError (BitVec 32) :=
  if original.containsItem (token &&& phraseMask) ∨
      (original.isDetached ∧ s.items.isAdded token = false ∧ (s.items.withLive token).isSome) then
    (s, .error .invalidPhrase)
  else
    match ((s.items.withLive token).bind PhraseItemView.fromBytes).filter
      fun view => textBytes view = keyUcs4 words with
    | none => (s, .error .invalidPhrase)
    | some view =>
      match mergedReading view packed delta with
      | .error message => (s, .error (.persistence message))
      | .ok merged =>
        let items := (s.items.removeItem original token).1
        ({ s with items := (items.addItem original token merged).1 }, .ok token)

/-- Adds a phrase to a live buffer. It takes its frequency as a trained one does. -/
def addBufferPhrase (library : BitVec 8) (original : Baseline) (words : List (BitVec 32))
    (packed : List (BitVec 16)) (delta : BitVec 32) : SessionState × Except PhraseError (BitVec 32) :=
  let token := addPhraseToken library (s.items.rangeEnd library original)
  match encodePhraseItem ⟨words, 0, [(packed, delta)]⟩ with
  | .error error => (s, .error (.persistence error.message))
  | .ok bytes =>
    let items := (s.items.addItem original token bytes).1
    let increment := delta * 3
    let added := items.addUnigram original token increment
    let items := if added.2 = .accepted then added.1 else added.1.addFacadeExtra (increment.setWidth 64)
    { s with items := items }.enlist words token [packed]

/-- Adds a phrase to a library with a baseline. -/
def bufferAddPhrase (library : BitVec 8) (original : Baseline) (words : List (BitVec 32))
    (keys : List (BitVec 16)) (delta : BitVec 32) (selected : Option (Option (BitVec 32))) :
    SessionState × Except PhraseError (BitVec 32) :=
  match pinyinKeysToPacked keys with
  | none => (s, .error .invalidPhrase)
  | some packed =>
    match s.phraseTable.checkAdd words with
    | .error error => (s, .error (.persistence error.message))
    | .ok _ =>
      match s.existing library words selected with
      | .error error => (s, .error error)
      | .ok existing =>
        if s.items.lacksSubIndex library original then (s, .error .invalidPhrase)
        else
          match existing with
          | some token => s.addBufferReading original words packed delta token
          | none => s.addBufferPhrase library original words packed delta

/-- Adds a phrase, or a reading to one that is there. -/
def arenaAddPhrase (library : BitVec 8) (words : List (BitVec 32)) (keys : List (BitVec 16))
    (delta : BitVec 32) (selected : Option (Option (BitVec 32))) (rangeEnd : Nat) :
    SessionState × Except PhraseError (BitVec 32) :=
  match s.originals.get? library with
  | some original => s.bufferAddPhrase library original words keys delta selected
  | none =>
    match pinyinKeysToPacked keys with
    | none => (s, .error .invalidPhrase)
    | some packed =>
      match s.phraseTable.checkAdd words with
      | .error error => (s, .error (.persistence error.message))
      | .ok _ =>
        match s.existing library words selected with
        | .error error => (s, .error error)
        | .ok (some token) => s.addArenaReading library words packed delta token
        | .ok none => s.addArenaPhrase library words packed delta rangeEnd

/-- A count in the width of its field, the largest for a wider one. -/
def phraseDelta (count : Option (BitVec 64)) : BitVec 32 :=
  u32OrMax (count.getD 5).toNat

/-- Adds a phrase under a user library. -/
def addPhraseIn (library : BitVec 8) (words : List (BitVec 32)) (keys : List (BitVec 16))
    (count : Option (BitVec 64)) : SessionState × Except PhraseError (BitVec 32) :=
  if !isUserFileLibrary library || !s.hasUserLibrary library || !phraseFitsKeys words keys then
    (s, .error .invalidPhrase)
  else s.arenaAddPhrase library words keys (phraseDelta count) none 1

/-- The readings of a promoted item, packed. -/
def promotedProns (readings : List (List (BitVec 16) × BitVec 64)) :
    Option (List (List (BitVec 16) × BitVec 32)) :=
  readings.mapM fun reading => (pinyinKeysToPacked reading.1).map fun keys => (keys, reading.2.setWidth 32)

/-- Copies an addon item to the end of its library's range, with its frequency. -/
def arenaPromote (words : List (BitVec 32)) (readings : List (List (BitVec 16) × BitVec 64))
    (unigram : BitVec 32) : SessionState × Except PhraseError (BitVec 32) :=
  match promotedProns readings with
  | none => (s, .error .invalidPhrase)
  | some prons =>
    match encodePhraseItem ⟨words, unigram, prons⟩ with
    | .error error => (s, .error (.persistence error.message))
    | .ok bytes =>
      match s.phraseTable.checkAdd words with
      | .error error => (s, .error (.persistence error.message))
      | .ok _ =>
        let library := (s.libraries.get? addonDictionary).getD .empty
        let token := phraseIndexMakeToken addonDictionary (BitVec.ofNat 32 library.tokenEnd)
        match library.prepareAdd (token &&& phraseMask) bytes with
        | .error message => (s, .error (.persistence message))
        | .ok prepared =>
          let s := s.takeItemIn addonDictionary unigram false
          (s.putArena addonDictionary (prepared.apply (s.arena addonDictionary (s.offsetOf addonDictionary)))).enlist
            words token (prons.map Prod.fst)

/-- Promotes a chosen addon phrase with those of its readings that fit it. -/
def promoteAddonPhrase (words : List (BitVec 32)) (readings : List (List (BitVec 16) × BitVec 64))
    (unigram : BitVec 64) : SessionState × Except PhraseError (BitVec 32) :=
  let valid := readings.filter fun reading => phraseFitsKeys words reading.1
  if valid.isEmpty then (s, .error .invalidPhrase) else s.arenaPromote words valid (unigram.setWidth 32)

/-! ## Training -/

/-- Trains the readings of a phrase. An unloaded library is left alone. -/
def arenaTrain (token : BitVec 32) (readings : List (List ChewingKey)) (delta : BitVec 32) : SessionState :=
  let library := phraseIndexLibraryIndex token
  if library ∈ s.unloaded then s
  else if (s.item token).isSome then
    (s.libraries.get? library).elim s fun arena =>
      s.putArena library (arena.train (token &&& phraseMask) readings delta)
  else { s with items := (s.items.trainLive (s.originals.get? library) token readings delta).1 }

/-- Adds to a phrase's frequency. The facade takes it before the library answers. -/
def arenaAddUnigramOutcome (token delta : BitVec 32) : SessionState × UnigramAdd :=
  let library := phraseIndexLibraryIndex token
  if library ∈ s.unloaded then (s, .missing)
  else
    match s.originals.get? library with
    | some original =>
      if s.items.lacksSubIndex library original then (s, .missing)
      else
        let added := s.items.addUnigram original token delta
        ({ s with items := if added.2 = .accepted then added.1 else added.1.addFacadeExtra (delta.setWidth 64) },
          added.2)
    | none =>
      let total := (s.libraries.get? library).elim (s.offsetOf library) UserLibrary.total
      let s := { s with items := s.items.addFacadeExtra (delta.setWidth 64) }
      if 2 ^ 32 ≤ total.toNat + delta.toNat then (s, .refused)
      else
        match s.libraries.get? library with
        | none => (s, .missing)
        | some arena => (s.putArena library (arena.incrementUnigram (token &&& phraseMask) delta).1, .accepted)

/-- Adds to a phrase's frequency. Only a full library refuses. -/
def arenaAddUnigram (token delta : BitVec 32) : SessionState × Bool :=
  let added := s.arenaAddUnigramOutcome token delta
  (added.1, added.2 ≠ .refused)

/-! ## Removing -/

/-- An index without the readings of a token, in order, as far as each is there. -/
def removeReadings (token : BitVec 32) : UserIndex → List (List (BitVec 16)) → UserIndex × Bool
  | index, [] => (index, true)
  | index, packed :: rest =>
    let removed := index.remove (packed.map ChewingKey.fromPacked) token
    if removed.2 then removeReadings token removed.1 rest else (removed.1, false)

/-- What ends a removal before anything changes. -/
def checkRemove (token : BitVec 32) : Option (Except PhraseError Bool) :=
  match s.item token with
  | none => some (.ok false)
  | some view =>
    match decodePhraseItem view.bytes with
    | .error error => some (.error (.persistence error.message))
    | .ok item =>
      match s.phraseTable.tokens (keyUcs4 item.phrase) with
      | .error error => some (.error (.persistence error.message))
      | .ok tokens =>
        if !tokens.contains token then some (.ok false)
        else if !(removeReadings token s.index (item.prons.map Prod.fst)).2 then
          some (.error .userReadingRemoval)
        else none

/-- Removes an item, its text's token and its readings. -/
def remove (token : BitVec 32) : SessionState × Option PhraseError :=
  match (s.item token).bind fun view => (decodePhraseItem view.bytes).toOption with
  | none => (s, none)
  | some item =>
    let library := phraseIndexLibraryIndex token
    let s := s.takeItemOut library item.unigram
    let table := s.phraseTable.remove item.phrase token
    let s := { s with phraseTable := table.1 }
    match table.2 with
    | .error error => (s, some (.persistence error.message))
    | .ok _ =>
      let index := removeReadings token s.index (item.prons.map Prod.fst)
      let s := { s with index := index.1 }
      if !index.2 then (s, some .userReadingRemoval)
      else
        ((s.libraries.get? library).elim s fun arena =>
          s.putArena library (arena.remove (token &&& phraseMask)).1, none)

/-- The slots of a library that a mask selects. -/
def selects (mask value : BitVec 32) (nibble : BitVec 8) (slot : BitVec 32) : Bool :=
  (((nibble.setWidth 32 <<< 24) ||| slot) &&& mask) == value

/-- Masks one library's items out, each one's frequency out of the facade. -/
def maskLibrary (mask value : BitVec 32) (s : SessionState) (entry : BitVec 8 × UserLibrary) : SessionState :=
  let removed := (entry.2.items.filter fun item => selects mask value entry.1 item.1).map fun item => item.2.unigram
  (removed.foldl (fun s unigram => s.takeItemOut entry.1 unigram) s).putArena entry.1
    (entry.2.removeMatching (selects mask value entry.1))

def maskArena (mask value : BitVec 32) : SessionState :=
  s.libraries.entries.foldl (maskLibrary mask value) s

/-- The fault that refuses a mask. -/
def checkMask : Option PhraseError :=
  if s.hasOverlongIndexKey then some .overlongIndexKey
  else
    match s.phraseTable.checkMask with
    | .error error => some (.persistence error.message)
    | .ok _ => none

/-- Masks the index, the phrase table and the libraries. -/
def mask (entryPerLength reuse : Bool) (mask value : BitVec 32) : SessionState × Option PhraseError :=
  let table := s.phraseTable.mask reuse mask value
  let s := { s with index := s.index.mask entryPerLength mask value, phraseTable := table.1 }
  match table.2 with
  | .error error => (s, some (.store error))
  | .ok _ => (s.maskArena mask value, none)

/-! ## What an operation changes -/

theorem takeItemIn_eq (library : BitVec 8) (unigram : BitVec 32) (accepted : Bool) :
    ∃ items, s.takeItemIn library unigram accepted = { s with items := items } := by
  unfold takeItemIn
  split
  · exact ⟨_, rfl⟩
  · exact ⟨_, rfl⟩

theorem takeItemOut_eq (library : BitVec 8) (unigram : BitVec 32) :
    ∃ items, s.takeItemOut library unigram = { s with items := items } := by
  unfold takeItemOut
  split
  · exact ⟨_, rfl⟩
  · exact ⟨_, rfl⟩

/-- A new item's names go to the phrase table and the index. -/
theorem enlist_eq (words : List (BitVec 32)) (token : BitVec 32) (readings : List (List (BitVec 16))) :
    ∃ table index, (s.enlist words token readings).1 = { s with phraseTable := table, index := index } := by
  unfold enlist
  dsimp only
  split
  · exact ⟨_, _, rfl⟩
  · exact ⟨_, _, rfl⟩

/-- Training the readings of a phrase edits its arena or its live buffer. -/
theorem arenaTrain_cases (token : BitVec 32) (readings : List (List ChewingKey)) (delta : BitVec 32) :
    s.arenaTrain token readings delta = s ∨
    (∃ arena, s.libraries.get? (phraseIndexLibraryIndex token) = some arena ∧ s.arenaTrain token readings delta =
      s.putArena (phraseIndexLibraryIndex token) (arena.train (token &&& phraseMask) readings delta)) ∨
    ∃ items, s.arenaTrain token readings delta = { s with items := items } := by
  rw [arenaTrain]
  by_cases hmark : phraseIndexLibraryIndex token ∈ s.unloaded
  · exact .inl (if_pos hmark)
  rw [if_neg hmark]
  split_ifs
  · cases harena : s.libraries.get? (phraseIndexLibraryIndex token) with
    | none => exact .inl rfl
    | some arena => exact .inr (.inl ⟨arena, rfl, rfl⟩)
  · exact .inr (.inr ⟨_, rfl⟩)

/-- What adding to a frequency does : nothing where the library has no sub-index, an edit of the
live buffer for a system library. A user library's facade takes it first, and then its arena
unless its total is full. -/
theorem arenaAddUnigramOutcome_cases (token delta : BitVec 32) :
    let library := phraseIndexLibraryIndex token
    let taken := { s with items := s.items.addFacadeExtra (delta.setWidth 64) }
    ((library ∈ s.unloaded ∨ (s.originals.get? library).isSome) ∧
      s.arenaAddUnigramOutcome token delta = (s, .missing)) ∨
    (library ∉ s.unloaded ∧ (s.originals.get? library).isSome ∧
      ∃ items answer, s.arenaAddUnigramOutcome token delta = ({ s with items := items }, answer)) ∨
    (library ∉ s.unloaded ∧ s.originals.get? library = none ∧
      (2 ^ 32 ≤ (s.libraryTotalOf library).toNat + delta.toNat ∧
        s.arenaAddUnigramOutcome token delta = (taken, .refused) ∨
      (s.libraryTotalOf library).toNat + delta.toNat < 2 ^ 32 ∧ s.libraries.get? library = none ∧
        s.arenaAddUnigramOutcome token delta = (taken, .missing) ∨
      ∃ arena, (s.libraryTotalOf library).toNat + delta.toNat < 2 ^ 32 ∧ s.libraries.get? library = some arena ∧
        s.arenaAddUnigramOutcome token delta =
          (taken.putArena library (arena.incrementUnigram (token &&& phraseMask) delta).1, .accepted))) := by
  intro library taken
  unfold arenaAddUnigramOutcome
  by_cases hmark : phraseIndexLibraryIndex token ∈ s.unloaded
  · exact .inl ⟨.inl hmark, if_pos hmark⟩
  rw [if_neg hmark]
  cases horiginal : s.originals.get? library with
  | some original =>
    by_cases hlacks : s.items.lacksSubIndex library original
    · exact .inl ⟨.inr rfl, if_pos hlacks⟩
    · exact .inr (.inl ⟨hmark, rfl, _, _, if_neg hlacks⟩)
  | none =>
    have htotal : s.libraryTotalOf library = (s.libraries.get? library).elim
      (s.offsetOf library) UserLibrary.total := by
      rw [libraryTotalOf, horiginal]
    rw [htotal]
    refine .inr (.inr ⟨hmark, rfl, ?_⟩)
    by_cases hfull : 2 ^ 32 ≤
        ((s.libraries.get? library).elim (s.offsetOf library) UserLibrary.total).toNat + delta.toNat
    · exact .inl ⟨hfull, if_pos hfull⟩
    · refine .inr ?_
      have hroom := Nat.lt_of_not_le hfull
      cases harena : s.libraries.get? library with
      | none =>
        rw [harena] at hfull hroom
        exact .inl ⟨hroom, rfl, (if_neg hfull).trans (by rw [harena])⟩
      | some arena =>
        rw [harena] at hfull hroom
        exact .inr ⟨arena, hroom, rfl, (if_neg hfull).trans (by rw [harena])⟩

end SessionState

/-- The phrases of a session, as its bigram trains and masks over them. -/
def sessionSide (entryPerLength reuse : Bool) : PhraseSide SessionState PhraseError where
  addUnigram := SessionState.arenaAddUnigram
  checkMask := SessionState.checkMask
  mask := fun s => s.mask entryPerLength reuse
  checkRemove := SessionState.checkRemove
  remove := SessionState.remove

end Oxpinyin
