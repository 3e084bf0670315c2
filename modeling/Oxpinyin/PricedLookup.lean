import Oxpinyin.ArenaLayout
import Oxpinyin.SentenceFacts
import Oxpinyin.TextLookup
import Oxpinyin.TokenRanges

/-!
# What a lookup lists of a token

A lookup searches the system's pinyin index and then the session's, takes each token's entry from
the live buffer its chunk gave its bytes to, or from the chunk, prices it there, and drops what is
hidden. A step of the trellis builds one token's price anew from the session's entries and the live
item. `pricedToken_lookup` : where every loaded chunk's library is held by its live buffer, the price
of a token that the trellis files is that of the last entry the lookup lists for it, and there is none
where the lookup lists none.
-/

namespace Oxpinyin

open List Option LittleEndian ChunkFile FiniteMap Replay Run SortedMap
open SyllableKey LiveSystemItems ChewingTable PhraseItemView
  Oxpinyin.Runtime

/-! ## The session's entries -/

/-- An entry of a lookup, with the frequency of its live item where the read had one. -/
structure LookupEntry extends PhraseEntry where
  liveUnigram : Option (BitVec 32)

namespace SessionState

variable (s : SessionState)

/-- The text of a token : of its arena's item, else of the item a live buffer holds. -/
def sessionText (token : BitVec 32) : Option PhraseText :=
  match (s.libraries.get? (bufferOf token)).bind fun library => library.item (token &&& phraseMask) with
  | some item => item.phraseText
  | none => ((s.items.withLive token).bind PhraseItemView.fromBytes).bind PhraseItemView.phraseText

/-- The session's entries for some keys, in record order. -/
def lookup (keys : List ChewingKey) : List PhraseEntry :=
  (s.index.search keys).filterMap fun token => (s.sessionText token).map fun text => ⟨token, text, none⟩

end SessionState

/-- The frequencies of the readings of a shipped item that a query meets, and of all. Both sums saturate. -/
def ChunkFile.PhraseItemView.shippedPossibility (view : PhraseItemView) (query : List ChewingKey) :
    BitVec 64 × BitVec 64 :=
  let sums := view.pronunciations.foldl (fun sums reading =>
    if reading.keys.length % 2 ≠ 0 then sums
    else
      let keys := readingKeys reading
      let met := keys.length = query.length && (query.zip keys).all fun pair => keyMatches pair.1 pair.2
      (if met then FacadeBumps.saturatingAdd64 sums.1 reading.freq.toNat else sums.1,
        FacadeBumps.saturatingAdd64 sums.2 reading.freq.toNat)) (0, 0)
  (BitVec.ofNat 64 sums.1, BitVec.ofNat 64 sums.2)

namespace Runtime

variable (runtime : Runtime)

def userLookup (syllables : List SyllableKey) : List PhraseEntry :=
  runtime.user.elim [] fun store => store.session.lookup (syllables.map SyllableKey.chewingKey)

/-- The session's tokens for toned keys. -/
def searchToned (query : List ChewingKey) : List (BitVec 32) :=
  runtime.user.elim [] fun store => store.session.index.search query

/-- The keys the live items are priced against, where the session holds any. -/
def effectiveQuery (syllables : List SyllableKey) : Option (List ChewingKey) :=
  if runtime.liveItems.hasOverlay then some (syllables.map SyllableKey.chewingKey) else none

/-- The entry of a token's live item. A session tells its frequency. -/
def liveEntry (keys : Option (List ChewingKey)) (token : BitVec 32) : Option LookupEntry :=
  (runtime.liveItems.read token).get.bind fun item =>
    item.view.phraseText.map fun text =>
      { token := token
        text := text
        pronunciation := keys.map fun keys =>
          let sums := item.view.itemPossibility keys
          (sums.1.setWidth 64, sums.2.setWidth 64)
        liveUnigram := if runtime.user.isSome && item.origin = .overlay then some item.view.unigram else none }

/-- The entry of a token's shipped item. -/
def resolveItem (keys : Option (List ChewingKey)) (token : BitVec 32) : Option LookupEntry :=
  (runtime.libraries.item token).bind fun view =>
    view.phraseText.map fun text => ⟨⟨token, text, keys.map view.shippedPossibility⟩, none⟩

/-- The entry of a token of the system's index, from the owner of its library's bytes. -/
def systemEntry (keys : Option (List ChewingKey)) (token : BitVec 32) : Option LookupEntry :=
  if (runtime.libraries.library token).any MappedLibrary.detached then runtime.liveEntry keys token
  else runtime.resolveItem keys token

/-- A session's entry with the price of its token's live item. -/
def overlayEntry (query : Option (List ChewingKey)) (entry : PhraseEntry) : LookupEntry :=
  match query.bind fun keys => runtime.effectivePossibility keys entry.token with
  | some sums => ⟨{ entry with pronunciation := some (sums.1.setWidth 64, sums.2.setWidth 64) }, none⟩
  | none => ⟨entry, none⟩

/-- What the pricing on a path reads. Every syllable has a key. -/
def pathPricing (syllables : List SyllableKey) : PathPricing where
  user := runtime.userLookup syllables
  keys := some (syllables.map SyllableKey.chewingKey)

/-- The price of a token on a path, with its text where it is wanted. -/
def pricedToken (syllables : List SyllableKey) (token : BitVec 32) (wantText : Bool) : Option PricedToken :=
  if syllables.isEmpty then none else runtime.pricedOnPath (runtime.pathPricing syllables) token wantText

end Runtime

/-- What a step prices of a priced token. -/
def PricedToken.item (priced : PricedToken) : TrellisItem :=
  ⟨priced.chars.toNat, priced.pronunciation.map fun sums => (sums.1.toNat, sums.2.toNat)⟩

/-! ## The lookup and the trellis -/

/-- A runtime with the pinyin index of its system. -/
structure LookupRuntime extends TextRuntime where
  pinyin : SortedMap Bytes Bytes

namespace LookupRuntime

variable (runtime : LookupRuntime)

/-- The entries of the system's index. Answers whether a loaded library's item could not be read. -/
def lookupWithLive (syllables : List SyllableKey) (price : Bool) : Except DictError (List LookupEntry × Bool) :=
  if syllables.isEmpty then .ok ([], false)
  else
    let keys := syllables.map SyllableKey.chewingKey
    (ChewingTable.search runtime.pinyin keys).map fun tokens =>
      let shown := tokens.filter runtime.liveItems.isVisible
      let entry := runtime.systemEntry (if price then some keys else none)
      (shown.filterMap entry, shown.any fun token => (entry token).isNone && runtime.libraryLoaded token)

/-- The entries of the system's index and then of the session's. -/
def fillLookup (syllables : List SyllableKey) (price : Bool) : Except DictError (List LookupEntry × Bool) :=
  (runtime.lookupWithLive syllables price).map fun system =>
    let query := if price then runtime.effectiveQuery syllables else none
    let entries := system.1 ++ (runtime.userLookup syllables).map (runtime.overlayEntry query)
    (if runtime.liveItems.filterActive then entries.filter fun entry => runtime.liveItems.isVisible entry.token
      else entries, system.2)

def lookup (syllables : List SyllableKey) : Except DictError (List LookupEntry) :=
  (runtime.fillLookup syllables true).map Prod.fst

/-- The keys with their tones, none past the tones. -/
def trellisQuery (syllables : List SyllableKey) (tones : List Nat) : List ChewingKey :=
  syllables.mapIdx fun index key => key.chewingKey.withTone ((tones[index]?).getD 0)

/-- A token's library is loaded and the token is not hidden. -/
def tokenRanged (token : BitVec 32) : Bool := runtime.libraryLoaded token && runtime.liveItems.isVisible token

/-- The system's tokens as one call, then the session's. -/
def trellisRanges (syllables : List SyllableKey) (tones : List Nat) (ranges : PhraseIndexRanges Unit) :
    Except DictError (PhraseIndexRanges Unit) :=
  let query := trellisQuery syllables tones
  let ranged := fun tokens : List (BitVec 32) =>
    (tokens.filter runtime.tokenRanged).map fun token => (token, some ())
  (ChewingTable.search runtime.pinyin query).map fun tokens =>
    (ranges.convert (ranged tokens)).convert (ranged (runtime.searchToned query))

def trellisItem (syllables : List SyllableKey) (_tones : List Nat) (token : BitVec 32) : Option TrellisItem :=
  (runtime.pricedToken syllables token false).map PricedToken.item

/-- The price from a memo of the path, which the first call fills. -/
def trellisItemOnPath (syllables : List SyllableKey) (_tones : List Nat) (token : BitVec 32)
    (memo : Option PathPricing) : Option PathPricing × Option TrellisItem :=
  if syllables.isEmpty then (memo, none)
  else
    let path := memo.getD (runtime.pathPricing syllables)
    (some path, (runtime.pricedOnPath path token false).map PricedToken.item)

end LookupRuntime

/-! ## The last entry of a token -/

def lastEntry (entries : List LookupEntry) (token : BitVec 32) : Option LookupEntry :=
  entries.reverse.find? fun entry => entry.token = token

theorem lastEntry_append (system user : List LookupEntry) (token : BitVec 32) :
    lastEntry (system ++ user) token = (lastEntry user token).or (lastEntry system token) := by
  rw [lastEntry, reverse_append, find?_append]
  rfl

/-- A filter by tokens leaves the entries of a token it passes. -/
theorem lastEntry_filter {p : BitVec 32 → Bool} {token : BitVec 32} (h : p token = true)
    (entries : List LookupEntry) :
    lastEntry (entries.filter fun entry => p entry.token) token = lastEntry entries token := by
  rw [lastEntry, ← filter_reverse, find?_filter]
  refine congrArg (fun q => List.find? q entries.reverse) (funext fun entry => ?_)
  by_cases heq : entry.token = token
  · simp [heq, h]
  · simp [heq]

/-- The entry read of each token of a list is the last of its token. -/
theorem lastEntry_filterMap {read : BitVec 32 → Option LookupEntry}
    (hread : ∀ token entry, read token = some entry → entry.token = token) (tokens : List (BitVec 32))
    (token : BitVec 32) : lastEntry (tokens.filterMap read) token = if token ∈ tokens then read token else none := by
  rw [lastEntry, ← filterMap_reverse, find?_filterMap]
  cases hfind : tokens.reverse.find? fun other => (read other).any fun entry => entry.token = token with
  | none =>
    split_ifs with hmem
    · -- the token is there, so nothing is read of it
      have hnone := find?_eq_none.mp hfind token (mem_reverse.mpr hmem)
      cases hentry : read token with
      | none => rfl
      | some entry => exact absurd (by simp [hentry, hread token entry hentry]) hnone
    · rfl
  | some other =>
    have hmem := mem_reverse.mp (mem_of_find?_eq_some hfind)
    have hany := find?_some hfind
    cases hentry : read other with
    | none =>
      rw [hentry] at hany
      cases hany
    | some entry =>
      rw [hentry] at hany
      obtain rfl := (hread other entry hentry).symm.trans (of_decide_eq_true hany)
      rw [if_pos hmem, hentry, bind_some]
      exact hentry

/-! ## Libraries held by live buffers -/

variable {live : LiveSystemItems} {item : SystemItem}

/-- A session holds a library : the chunk gave its bytes to the live buffer, and an arena beside the buffer
has no item without a text. -/
structure LiveStore.Holds (store : LiveStore) (nibble : BitVec 8) (mapped : MappedLibrary) : Prop where
  detached : mapped.detached = true
  buffer : (store.session.items.replayed.get? nibble).isSome = true
  texts : ∀ arena slot item, store.session.libraries.get? nibble = some arena → arena.item slot = some item →
    item.phraseText ≠ none

/-- The session holds the library of every chunk that is not unloaded. A library that is loaded without
a chunk has a user file, so it is not the system's. -/
structure LookupRuntime.HeldBy (runtime : LookupRuntime) (store : LiveStore) : Prop where
  user : runtime.user = some store
  libraries : ∀ nibble mapped, nibble < 16 → runtime.libraries.byNibble.get? nibble = some mapped →
    runtime.visible (nibble.setWidth 32) = true → store.Holds nibble mapped
  userFiles : ∀ token, runtime.libraryLoaded token = true → runtime.libraries.library token = none →
    store.isSystemLibrary (bufferOf token) = false

/-- In a session with its layout a live buffer has no arena beside it. -/
theorem LiveStore.holds_of_laid {store : LiveStore} (hbacked : store.session.Backed)
    (hlaid : store.session.Laid store.systemLogs) {nibble : BitVec 8} (hnibble : nibble < 16)
    (hbuffer : (store.session.items.replayed.get? nibble).isSome = true) {mapped : MappedLibrary}
    (hdetached : mapped.detached = true) : store.Holds nibble mapped := by
  refine ⟨hdetached, hbuffer, fun arena slot item harena _ => ?_⟩
  rw [hlaid.bare nibble (hbacked.baseline nibble hnibble hbuffer)] at harena
  cases harena

/-- A session reached from one with its layout holds the libraries of the chunks that gave it their bytes,
where the libraries the configuration gives a user file have no log. -/
theorem LookupRuntime.heldBy_run {runtime : LookupRuntime} {live reached : LiveStore} {entryPerLength reuse : Bool}
    {writes : List StoreWrite} (hbacked : live.Backed) (hlaid : live.session.Laid live.systemLogs)
    (hwrites : ∀ write ∈ writes, write.Rows ∧ write.Logged live.systemLogs) (hreached : reached ∈
      states (fun live write => LiveStore.after live (sessionSide entryPerLength reuse) write) live writes)
    (huser : runtime.user = some reached)
    (hlibraries : ∀ nibble mapped, nibble < 16 → runtime.libraries.byNibble.get? nibble = some mapped →
      runtime.visible (nibble.setWidth 32) = true →
        mapped.detached = true ∧ (reached.session.items.replayed.get? nibble).isSome = true)
    (hfiles : ∀ nibble : BitVec 32, runtime.userNibbles &&& (1#32 <<< nibble) ≠ 0 →
      live.systemLogs (nibble.setWidth 8) = false) : runtime.HeldBy reached := by
  obtain ⟨hlaid, hlogs⟩ := LiveStore.laid_run hlaid rfl hwrites reached hreached
  have hbacked : reached.Backed :=
    @forall_states _ _ (fun live write => LiveStore.after live (sessionSide entryPerLength reuse) write)
      LiveStore.Backed (fun _ write => write.Rows) (fun _ _ hbacked hrow => hbacked.after hrow) writes live hbacked
      (along_of_mem fun write hwrite => (hwrites write hwrite).1) reached hreached
  refine ⟨huser, fun nibble mapped hnibble hmapped hvisible => ?_, fun token hloaded hmapped => ?_⟩
  · obtain ⟨hdetached, hbuffer⟩ := hlibraries nibble mapped hnibble hmapped hvisible
    rw [← hlogs] at hlaid
    exact LiveStore.holds_of_laid hbacked.session hlaid hnibble hbuffer hdetached
  · -- without a chunk it is the user file that loads the library
    rw [TextRuntime.libraryLoaded, hmapped, isSome_none, Bool.false_or, Bool.and_eq_true] at hloaded
    have hlog : live.systemLogs (bufferOf token) = false := hfiles _ (of_decide_eq_true hloaded.2)
    have hbare : (reached.session.originals.get? (bufferOf token)).isSome = false := by
      rw [← Bool.not_eq_true]
      intro hsome
      rw [hlaid.baselines _ hsome] at hlog
      cases hlog
    rw [LiveStore.isSystemLibrary, hbare, hlogs, hlog]
    rfl

/-- The item found of a token whose chunk reads as nothing is a live buffer's. -/
theorem LiveSystemItems.origin_of_read {token : BitVec 32}
    (hitem : live.libraries.item token = none) (h : live.read token = .found item) : item.origin = .overlay := by
  have hshipped : live.readShipped token ≠ .found item := by
    rw [readShipped, hitem]
    exact nofun
  unfold read at h
  split_ifs at h
  split at h
  · exact absurd h hshipped
  · split at h
    · cases h
    · split at h
      · rw [← Lookup.found.inj h]
      · split at h
        · cases h
        · exact absurd h hshipped

/-- What is read of a token as its live item, from the buffer. -/
theorem LiveSystemItems.get_overlay {token : BitVec 32}
    (hitem : live.libraries.item token = none) (h : (live.read token).get = some item) :
    item.origin = .overlay ∧ ∃ store, live.user = some store ∧ store.hasSystemItems = true ∧
      (store.session.items.withLive token).bind fromBytes = some item.view := by
  cases hread : live.read token with
  | found value =>
    rw [hread] at h
    obtain rfl := some.inj h
    obtain ⟨origin, view⟩ := value
    obtain rfl : origin = .overlay := origin_of_read hitem hread
    obtain ⟨store, huser, -, -, -, hview⟩ := read_overlay hread
    rw [GatedStore.withLiveItem] at hview
    split_ifs at hview with hflag
    · exact ⟨rfl, store, huser, hflag, hview⟩
    · cases hview
  | _ =>
    rw [hread] at h
    cases h

/-! ## The price of a token -/

/-- The price an entry of a lookup tells. -/
def LookupEntry.priced (entry : LookupEntry) : PricedToken :=
  ⟨u32OrMax entry.text.phraseLength, entry.pronunciation, some entry.text⟩

namespace Runtime

variable {runtime : Runtime} {syllables : List SyllableKey} {token : BitVec 32}

theorem token_overlayEntry (query : Option (List ChewingKey)) (entry : PhraseEntry) :
    (runtime.overlayEntry query entry).token = entry.token := by
  unfold overlayEntry
  split
  · rfl
  · rfl

variable {keys : Option (List ChewingKey)} {entry : LookupEntry}

theorem token_liveEntry (h : runtime.liveEntry keys token = some entry) : entry.token = token := by
  obtain ⟨item, -, hentry⟩ := bind_eq_some_iff.mp h
  obtain ⟨text, -, rfl⟩ := map_eq_some_iff.mp hentry
  rfl

theorem token_resolveItem (h : runtime.resolveItem keys token = some entry) : entry.token = token := by
  obtain ⟨view, -, hentry⟩ := bind_eq_some_iff.mp h
  obtain ⟨text, -, rfl⟩ := map_eq_some_iff.mp hentry
  rfl

theorem token_systemEntry (h : runtime.systemEntry keys token = some entry) : entry.token = token := by
  unfold systemEntry at h
  split_ifs at h
  · exact token_liveEntry h
  · exact token_resolveItem h

/-- The text read of an item has the item's length. -/
theorem phraseLength_of_phraseText {view : PhraseItemView} {text : PhraseText} (h : view.phraseText = some text) :
    text.phraseLength = view.phraseLength := by
  have hlength : view.phraseCodes.length = view.phraseLength := by
    rw [phraseCodes, length_map, length_range]
  rw [PhraseText.phraseLength_fromStoredWords ?_ h, hlength]
  rw [hlength, phraseLength]
  exact lt_trans (UInt8.toNat_lt _) (by decide)

/-- What a path has of a token before its live readings : of the session's last entry, else of the live item. -/
def unpriced (runtime : Runtime) (user : List PhraseEntry) (token : BitVec 32) (wantText : Bool) :
    Option PricedToken :=
  match user.reverse.find? fun entry => entry.token = token with
  | some entry =>
    some ⟨u32OrMax entry.text.phraseLength, entry.pronunciation, if wantText then some entry.text else none⟩
  | none =>
    (runtime.liveItems.read token).get.bind fun item =>
      let text := if wantText then item.view.phraseText else none
      if wantText && text.isNone then none else some ⟨u32OrMax item.view.phraseLength, none, text⟩

/-- The live readings of a token, where the session holds items. -/
def liveReadings (runtime : Runtime) (syllables : List SyllableKey) (token : BitVec 32) :
    Option (BitVec 32 × BitVec 32) :=
  (runtime.effectiveQuery syllables).bind fun keys => runtime.effectivePossibility keys token

section

variable (hvisible : runtime.liveItems.isVisible token = true)
include hvisible

theorem pricedOnPath_eq (wantText : Bool) :
    runtime.pricedOnPath (runtime.pathPricing syllables) token wantText =
      (runtime.unpriced (runtime.userLookup syllables) token wantText).map fun priced =>
        (runtime.liveReadings syllables token).elim priced fun sums =>
          { priced with pronunciation := some (sums.1.setWidth 64, sums.2.setWidth 64) } := by
  have hreadings : ((runtime.pathPricing syllables).keys.bind fun query =>
      if runtime.liveItems.hasOverlay then runtime.effectivePossibility query token else none) =
      runtime.liveReadings syllables token := by
    rw [liveReadings, effectiveQuery, pathPricing, bind_some]
    split_ifs
    · rfl
    · rfl
  unfold pricedOnPath
  dsimp only
  rw [hreadings, hvisible]
  simp only [Bool.not_true, Bool.and_false, Bool.false_eq_true, if_false]
  rw [map_eq_bind]
  rfl

/-- A visible token that the session lists has its last entry's price. -/
theorem pricedOnPath_user {entry : PhraseEntry}
    (hfind : (runtime.userLookup syllables).reverse.find? (fun entry => entry.token = token) = some entry) :
    runtime.pricedOnPath (runtime.pathPricing syllables) token true =
      some (runtime.overlayEntry (runtime.effectiveQuery syllables) entry).priced := by
  have htoken : entry.token = token := by simpa using find?_some hfind
  rw [pricedOnPath_eq hvisible, unpriced, hfind, map_some, overlayEntry, htoken, liveReadings]
  cases (runtime.effectiveQuery syllables).bind fun keys => runtime.effectivePossibility keys token with
  | some sums => rfl
  | none => rfl

/-- A visible token that the session does not list and whose chunk reads as nothing has its live entry's price. -/
theorem pricedOnPath_live
    (hfind : (runtime.userLookup syllables).reverse.find? (fun entry => entry.token = token) = none)
    (hitem : runtime.libraries.item token = none) :
    runtime.pricedOnPath (runtime.pathPricing syllables) token true =
      (runtime.liveEntry (some (syllables.map chewingKey)) token).map LookupEntry.priced := by
  rw [pricedOnPath_eq hvisible, unpriced, hfind, liveEntry]
  dsimp only
  cases hread : (runtime.liveItems.read token).get with
  | none => rfl
  | some item =>
    obtain ⟨horigin, store, huser, hflag, -⟩ := get_overlay hitem hread
    have hoverlay : runtime.liveItems.hasOverlay = true := by
      rw [hasOverlay, huser]
      exact hflag
    rw [bind_some, bind_some]
    cases htext : item.view.phraseText with
    | none => rfl
    | some text =>
      have hreadings : runtime.liveReadings syllables token =
          some (item.view.itemPossibility (syllables.map chewingKey)) := by
        rw [liveReadings, effectiveQuery, if_pos hoverlay, bind_some, effectivePossibility, hread]
        exact if_neg (not_not.mpr horigin)
      rw [hreadings, ← phraseLength_of_phraseText htext]
      rfl

end

variable {user : List PhraseEntry} {priced : PricedToken}

theorem unpriced_false
    (h : runtime.unpriced user token true = some priced) :
    runtime.unpriced user token false = some { priced with text := none } := by
  unfold unpriced at h ⊢
  cases hfind : user.reverse.find? fun entry => entry.token = token with
  | some entry =>
    rw [hfind] at h
    obtain rfl := some.inj h
    rfl
  | none =>
    rw [hfind] at h
    obtain ⟨item, hitem, hpriced⟩ := bind_eq_some_iff.mp h
    dsimp only at hpriced ⊢
    rw [hitem]
    cases htext : item.view.phraseText with
    | none =>
      rw [if_pos rfl, htext] at hpriced
      cases hpriced
    | some text =>
      rw [if_pos rfl, htext] at hpriced
      obtain rfl := some.inj hpriced
      rfl

/-- Without its text a token has no price either, but for a live item whose words are no text. -/
theorem unpriced_none (h : runtime.unpriced user token true = none) :
    runtime.unpriced user token false = none ∨
      ∃ item, (runtime.liveItems.read token).get = some item ∧ item.view.phraseText = none := by
  unfold unpriced at h ⊢
  cases hfind : user.reverse.find? fun entry => entry.token = token with
  | some entry =>
    rw [hfind] at h
    cases h
  | none =>
    rw [hfind] at h
    cases hread : (runtime.liveItems.read token).get with
    | none => exact Or.inl rfl
    | some item =>
      rw [hread] at h
      cases htext : item.view.phraseText with
      | none => exact Or.inr ⟨item, rfl, htext⟩
      | some text =>
        dsimp only at h
        rw [bind_some, if_pos rfl, htext] at h
        cases h

/-- The price without the text is the same. -/
theorem pricedOnPath_false (hvisible : runtime.liveItems.isVisible token = true)
    (h : runtime.pricedOnPath (runtime.pathPricing syllables) token true = some priced) :
    (runtime.pricedOnPath (runtime.pathPricing syllables) token false).map PricedToken.item = some priced.item := by
  rw [pricedOnPath_eq hvisible] at h ⊢
  obtain ⟨before, hbefore, rfl⟩ := map_eq_some_iff.mp h
  rw [unpriced_false hbefore, map_some, map_some]
  cases runtime.liveReadings syllables token with
  | some sums => rfl
  | none => rfl

end Runtime

/-! ## The lookup against the price -/

namespace LookupRuntime

variable {runtime : LookupRuntime} {store : LiveStore} {syllables : List SyllableKey} {token : BitVec 32}

/-- The keys of a trellis search are those of the lookup with tones. -/
theorem toneless_trellisQuery (syllables : List SyllableKey) (tones : List Nat) :
    (trellisQuery syllables tones).map (·.toneless) = syllables.map chewingKey := by
  refine ext_getElem? fun i => ?_
  rw [trellisQuery, getElem?_map, getElem?_mapIdx, getElem?_map, Option.map_map]
  refine congrArg (fun f => Option.map f syllables[i]?) (funext fun key => ?_)
  exact key.chewingKey_withTone_zero

/-- A filed token is one of the two searches', and it is loaded and visible. -/
theorem ranged_of_files {tones : List Nat} {ranges : PhraseIndexRanges Unit}
    (hranges : runtime.trellisRanges syllables tones .empty = .ok ranges) (hfiled : ranges.Files token) :
    runtime.tokenRanged token = true ∧
      ∃ tokens, search runtime.pinyin (syllables.map chewingKey) = .ok tokens ∧
        (token ∈ tokens ∨ token ∈ runtime.searchToned (syllables.map chewingKey)) := by
  unfold trellisRanges at hranges
  dsimp only at hranges
  cases hsearch : search runtime.pinyin (trellisQuery syllables tones) with
  | error error =>
    rw [hsearch] at hranges
    cases hranges
  | ok toned =>
    rw [hsearch] at hranges
    obtain rfl := Except.ok.inj hranges
    obtain ⟨tokens, htokens, hsubset⟩ := search_toneless hsearch
    rw [toneless_trellisQuery] at htokens
    have hranged : ∀ {found : List (BitVec 32)},
        token ∈ ((found.filter runtime.tokenRanged).map fun token => (token, some ())).map Prod.fst →
          token ∈ found ∧ runtime.tokenRanged token = true := by
      intro found hmem
      rw [List.map_map] at hmem
      obtain ⟨other, hother, rfl⟩ := List.mem_map.mp hmem
      exact mem_filter.mp hother
    rcases hfiled.of_convert with hsystem | huser
    · rcases hsystem.of_convert with hempty | hmem
      · exact absurd hempty (PhraseIndexRanges.not_files_empty token)
      · exact ⟨(hranged hmem).2, tokens, htokens, Or.inl (hsubset (hranged hmem).1)⟩
    · refine ⟨(hranged huser).2, tokens, htokens, Or.inr ?_⟩
      have hmem := (hranged huser).1
      unfold searchToned at hmem ⊢
      cases hstore : runtime.user with
      | none =>
        rw [hstore] at hmem
        cases hmem
      | some store =>
        rw [hstore] at hmem
        rw [elim_some, ← toneless_trellisQuery syllables tones]
        exact UserIndex.search_toneless _ _ hmem

/-- The last entry the lookup lists of a visible token : the session's, else the system's. -/
theorem lookup_last (hne : syllables ≠ []) (hvisible : runtime.liveItems.isVisible token = true)
    {tokens : List (BitVec 32)}
    (hsearch : search runtime.pinyin (syllables.map chewingKey) = .ok tokens) :
    ∃ entries, runtime.lookup syllables = .ok entries ∧
      lastEntry entries token =
        (((runtime.userLookup syllables).reverse.find? fun entry => entry.token = token).map
          (runtime.overlayEntry (runtime.effectiveQuery syllables))).or
          (if token ∈ tokens then runtime.systemEntry (some (syllables.map chewingKey)) token
            else none) := by
  have hempty : syllables.isEmpty = false := by simpa using hne
  have hsystem : lastEntry ((tokens.filter runtime.liveItems.isVisible).filterMap
      (runtime.systemEntry (some (syllables.map chewingKey)))) token =
      if token ∈ tokens then runtime.systemEntry (some (syllables.map chewingKey)) token else none := by
    rw [lastEntry_filterMap fun _ _ h => token_systemEntry h]
    simp only [mem_filter, hvisible, and_true]
  have huser : lastEntry ((runtime.userLookup syllables).map
      (runtime.overlayEntry (runtime.effectiveQuery syllables))) token =
      ((runtime.userLookup syllables).reverse.find? fun entry => entry.token = token).map
        (runtime.overlayEntry (runtime.effectiveQuery syllables)) := by
    rw [lastEntry, ← map_reverse, find?_map]
    refine congrArg (fun p => Option.map _ (List.find? p (runtime.userLookup syllables).reverse))
      (funext fun entry => ?_)
    rw [Function.comp_apply, token_overlayEntry]
  unfold lookup fillLookup lookupWithLive
  rw [hempty]
  dsimp only
  rw [hsearch]
  refine ⟨_, rfl, ?_⟩
  dsimp only
  rw [if_pos rfl, if_pos rfl, ← hsystem, ← huser, ← lastEntry_append]
  split_ifs
  · exact lastEntry_filter hvisible _
  · rfl

namespace HeldBy

variable (h : runtime.HeldBy store)
include h

/-- A loaded chunk of a visible token is held. -/
theorem holds (hvisible : runtime.liveItems.isVisible token = true) {mapped : MappedLibrary}
    (hmapped : runtime.libraries.library token = some mapped) : store.Holds (bufferOf token) mapped := by
  have hnibble : (bufferOf token).setWidth 32 = token >>> 24 := by
    rw [bufferOf]
    refine BitVec.eq_of_toNat_eq ?_
    have hlt : (token >>> 24).toNat < 2 ^ 8 := by
      rw [BitVec.toNat_ushiftRight, Nat.shiftRight_eq_div_pow]
      omega
    rw [BitVec.toNat_setWidth, BitVec.toNat_setWidth, Nat.mod_eq_of_lt hlt, Nat.mod_eq_of_lt (token >>> 24).isLt]
  rw [isVisible, Bool.and_eq_true] at hvisible
  unfold PhraseLibraries.library at hmapped
  split_ifs at hmapped with hlow
  refine h.libraries _ mapped hlow hmapped ?_
  rw [hnibble]
  exact hvisible.1

/-- A chunk that is held reads as nothing. -/
theorem item_eq (hvisible : runtime.liveItems.isVisible token = true) : runtime.libraries.item token = none := by
  unfold PhraseLibraries.item
  cases hmapped : runtime.libraries.library token with
  | none => rfl
  | some mapped => exact if_pos (h.holds hvisible hmapped).detached

/-- A token of a user file has no live item. -/
theorem read_userFile (hloaded : runtime.libraryLoaded token = true)
    (hmapped : runtime.libraries.library token = none) : (runtime.liveItems.read token).get = none := by
  have hsystem : runtime.liveItems.isSystemLibrary (bufferOf token) = false := by
    unfold isSystemLibrary liveItems
    dsimp only
    rw [h.user]
    exact h.userFiles token hloaded hmapped
  rw [LiveSystemItems.read, hsystem]
  rfl

/-- The system's entry of a ranged token is that of its live item. -/
theorem systemEntry_eq (hranged : runtime.tokenRanged token = true) (keys : Option (List ChewingKey)) :
    runtime.systemEntry keys token = runtime.liveEntry keys token := by
  rw [tokenRanged, Bool.and_eq_true] at hranged
  obtain ⟨hloaded, hvisible⟩ := hranged
  unfold systemEntry
  cases hmapped : runtime.libraries.library token with
  | none => rw [resolveItem, h.item_eq hvisible, liveEntry, h.read_userFile hloaded hmapped]; rfl
  | some mapped => exact if_pos (h.holds hvisible hmapped).detached

/-- A token of the session's index that the session does not list has no live entry. -/
theorem liveEntry_eq_none (hranged : runtime.tokenRanged token = true)
    (hsearch : token ∈ runtime.searchToned (syllables.map chewingKey))
    (hfind : (runtime.userLookup syllables).reverse.find? (fun entry => entry.token = token) = none)
    (keys : Option (List ChewingKey)) : runtime.liveEntry keys token = none := by
  rw [tokenRanged, Bool.and_eq_true] at hranged
  obtain ⟨hloaded, hvisible⟩ := hranged
  -- the session has no text for the token
  have htext : store.session.sessionText token = none := by
    cases htext : store.session.sessionText token with
    | none => rfl
    | some text =>
      unfold searchToned at hsearch
      unfold userLookup at hfind
      rw [h.user, elim_some] at hsearch hfind
      have hmem : (⟨token, text, none⟩ : PhraseEntry) ∈ store.session.lookup (syllables.map chewingKey) :=
        mem_filterMap.mpr ⟨token, hsearch, by rw [htext]; rfl⟩
      exact absurd (decide_eq_true rfl) (find?_eq_none.mp hfind _ (mem_reverse.mpr hmem))
  unfold liveEntry
  cases hread : (runtime.liveItems.read token).get with
  | none => rfl
  | some item =>
    cases hmapped : runtime.libraries.library token with
    | none =>
      rw [h.read_userFile hloaded hmapped] at hread
      cases hread
    | some mapped =>
      obtain ⟨-, found, hfound, -, hview⟩ := get_overlay (h.item_eq hvisible) hread
      obtain rfl := some.inj (h.user.symm.trans hfound)
      rw [SessionState.sessionText] at htext
      split at htext
      · rename_i arenaItem harena
        obtain ⟨arena, harena, hslot⟩ := bind_eq_some_iff.mp harena
        exact absurd htext ((h.holds hvisible hmapped).texts arena _ arenaItem harena hslot)
      · rw [hview] at htext
        exact map_eq_none_iff.mpr htext

end HeldBy

/-- Where every loaded chunk's library is held by its live buffer, a token that the trellis files of some
syllables is listed by their lookup exactly where it has a price with its text, and the price is that of
the last entry the lookup lists for it. The item of the token is priced the same, from a memo of the path
too. Where the lookup does not list the token it has an item only for words that are no text. -/
theorem pricedToken_lookup {tones : List Nat} {ranges : PhraseIndexRanges Unit} {memo : Option PathPricing}
    (hheld : runtime.HeldBy store) (hne : syllables ≠ [])
    (hranges : runtime.trellisRanges syllables tones .empty = .ok ranges) (hfiled : ranges.Files token)
    (hmemo : ∀ path, memo = some path → path = runtime.pathPricing syllables) :
    ∃ entries, runtime.lookup syllables = .ok entries ∧
      runtime.pricedToken syllables token true = (lastEntry entries token).map LookupEntry.priced ∧
      ((runtime.pricedToken syllables token true).isSome = true ↔ ∃ entry ∈ entries, entry.token = token) ∧
      (∀ priced, runtime.pricedToken syllables token true = some priced →
        runtime.trellisItem syllables tones token = some priced.item) ∧
      (runtime.trellisItemOnPath syllables tones token memo).2 = runtime.trellisItem syllables tones token ∧
      (runtime.pricedToken syllables token true = none → runtime.trellisItem syllables tones token ≠ none →
        ∃ item, (runtime.liveItems.read token).get = some item ∧ item.view.phraseText = none) := by
  obtain ⟨hranged, tokens, hsearch, hfound⟩ := ranged_of_files hranges hfiled
  have hvisible : runtime.liveItems.isVisible token = true := by
    rw [tokenRanged, Bool.and_eq_true] at hranged
    exact hranged.2
  have hempty : syllables.isEmpty = false := by simpa using hne
  have hpriced : ∀ wantText, runtime.pricedToken syllables token wantText =
      runtime.pricedOnPath (runtime.pathPricing syllables) token wantText := by
    intro wantText
    rw [Runtime.pricedToken, hempty]
    rfl
  obtain ⟨entries, hentries, hlast⟩ := lookup_last hne hvisible hsearch
  -- the last entry is the session's, else the live item's
  have hprice : runtime.pricedToken syllables token true = (lastEntry entries token).map LookupEntry.priced := by
    rw [hpriced, hlast]
    cases hfind : (runtime.userLookup syllables).reverse.find? fun entry => entry.token = token with
    | some entry => exact Runtime.pricedOnPath_user hvisible hfind
    | none =>
      rw [Runtime.pricedOnPath_live hvisible hfind (hheld.item_eq hvisible), map_none, none_or,
        hheld.systemEntry_eq hranged]
      split_ifs with hmem
      · rfl
      · rw [hheld.liveEntry_eq_none hranged (hfound.resolve_left hmem) hfind]
  refine ⟨entries, hentries, hprice, ?_, fun priced h => ?_, ?_, fun hnone hsome => ?_⟩
  · rw [hprice, isSome_map, lastEntry, find?_isSome]
    simp only [mem_reverse, decide_eq_true_eq]
  · rw [hpriced] at h
    rw [trellisItem, hpriced]
    exact Runtime.pricedOnPath_false hvisible h
  · have hpath : memo.getD (runtime.pathPricing syllables) = runtime.pathPricing syllables := by
      cases hcases : memo with
      | none => rfl
      | some path => exact hmemo path hcases
    rw [trellisItemOnPath, hempty, trellisItem, hpriced]
    dsimp only
    rw [hpath]
    rfl
  · rw [hpriced, Runtime.pricedOnPath_eq hvisible, map_eq_none_iff] at hnone
    rw [trellisItem, hpriced, Runtime.pricedOnPath_eq hvisible] at hsome
    rcases Runtime.unpriced_none hnone with hfalse | hitem
    · rw [hfalse] at hsome
      exact absurd rfl hsome
    · exact hitem

end LookupRuntime

theorem zero_lt_syllableKeyCount : 0 < syllableKeyCount := by
  simp [syllableKeyCount, fullPinyinSyllables_length]

/-- The syllable a. -/
def syllableA : SyllableKey := ⟨0, zero_lt_syllableKeyCount⟩

/-- A session over a library with a log, of one item read a, its buffer live. -/
def loggedStore : LiveStore :=
  let original : Baseline := ⟨⟨5, 2, [(1, ⟨[0x963f], 5, [([0x0080], 2)]⟩)], none⟩, false⟩
  ⟨.open_ { SessionState.opened .new (.fromEntries []) isUserFileLibrary false .empty with
      originals := SortedMap.empty.insert 1 original
      items := ⟨SortedMap.empty.insert 1 original.pristine, .empty, 0⟩ } none, false, fun library => library = 1⟩

def trainA : List StoreWrite := [.write (.observeSelection 0x01000001 0x01000001) true false]

/-- The session behind a training of the item. -/
def trainedStore : LiveStore :=
  trainA.foldl (fun live write => live.after (sessionSide false false) write) loggedStore

/-- A runtime over it whose chunk gave its bytes to the buffer. -/
def heldRuntime : LookupRuntime where
  toRuntime := .opened ⟨SortedMap.empty.insert 1 ⟨⟨[], 5, (0, 0), (0, 0), false⟩, true⟩⟩ ⟨.empty⟩ (some trainedStore)
  phrase := ⟨some .empty⟩
  userNibbles := 0
  phraseTableGeneration := 0
  textLookupCache := none
  pinyin := SortedMap.empty.insert (indexKey [syllableA.chewingKey]) (encodeItem 0x01000001 [syllableA.chewingKey])

theorem heldRuntime_heldBy : heldRuntime.HeldBy trainedStore := by
  have hbacked : loggedStore.Backed := by
    have hone : ∀ nibble, (loggedStore.session.items.replayed.get? nibble).isSome = true →
        (loggedStore.session.originals.get? nibble).isSome = true := by decide +kernel
    exact ⟨⟨fun nibble _ hsome => hone nibble hsome, by decide +kernel⟩, by decide +kernel⟩
  have hlaid : loggedStore.session.Laid loggedStore.systemLogs :=
    ⟨by decide +kernel, by decide +kernel, by decide +kernel⟩
  refine @LookupRuntime.heldBy_run heldRuntime loggedStore trainedStore false false trainA hbacked hlaid
    ?_ ?_ rfl ?_ ?_
  · intro write hwrite
    obtain rfl := mem_singleton.mp hwrite
    exact ⟨trivial, trivial⟩
  · exact mem_cons_of_mem _ (mem_states_self _ [])
  · intro nibble mapped _ hmapped _
    change (insert .empty 1 _).get? nibble = some mapped at hmapped
    rw [get?_insert, Function.update_apply] at hmapped
    split_ifs at hmapped with heq
    · subst heq
      obtain rfl := some.inj hmapped
      exact ⟨rfl, by decide +kernel⟩
    · cases hmapped
  · intro nibble hfile
    exact absurd (BitVec.zero_and) hfile

/-- The trained item is listed of its syllable, and its price is that of the listed entry. -/
theorem pricedToken_lookup_trained :
    (∃ ranges, heldRuntime.trellisRanges [syllableA] [3] .empty = .ok ranges ∧ ranges.Files 0x01000001) ∧
    ∃ entries, heldRuntime.lookup [syllableA] = .ok entries ∧
      heldRuntime.pricedToken [syllableA] 0x01000001 true = (lastEntry entries 0x01000001).map LookupEntry.priced ∧
      (∃ entry ∈ entries, entry.token = 0x01000001) ∧
      (heldRuntime.trellisItemOnPath [syllableA] [3] 0x01000001 (some (heldRuntime.pathPricing [syllableA]))).2 =
        heldRuntime.trellisItem [syllableA] [3] 0x01000001 := by
  have hread : (heldRuntime.trellisRanges [syllableA] [3] .empty).toOption.map (fun ranges =>
      ranges.iter.map fun range => (range.first, range.last)) = some [(0x01000001, 0x01000001)] := by decide +kernel
  obtain ⟨ranges, hranges, hiter⟩ := map_eq_some_iff.mp hread
  have hfiled : ranges.Files 0x01000001 := by
    obtain ⟨range, hrange, hends⟩ := List.mem_map.mp (hiter ▸ mem_singleton_self (0x01000001, 0x01000001))
    obtain ⟨hfirst, hlast⟩ := Prod.mk.inj hends
    exact ⟨range, hrange, hfirst ▸ BitVec.le_refl _, hlast ▸ BitVec.le_refl _⟩
  obtain ⟨entries, hentries, hprice, hlisted, -, hpath, -⟩ := LookupRuntime.pricedToken_lookup heldRuntime_heldBy
    (cons_ne_nil syllableA []) (eq_ok_of_toOption hranges) hfiled fun _ hmemo => (some.inj hmemo).symm
  exact ⟨⟨ranges, eq_ok_of_toOption hranges, hfiled⟩, entries, hentries, hprice,
    hlisted.mp (by decide +kernel), hpath⟩

end Oxpinyin
