import Oxpinyin.LiveBuffers
import Oxpinyin.FacadeBumps
import Oxpinyin.Trellis
import Oxpinyin.PhraseTexts

/-!
# The facts a sentence shares

While a sentence is decoded its tokens are priced on many paths and scored behind many others.
`SentenceFacts` keeps what one read of an ordinary live item said, its bytes, its frequency, and the
total the facade adds, stamped with the write generation. Everything else goes to the plain readers.
`facts_run` : whatever the calls and the writes between them, every answer is the plain reader's.
-/

namespace Oxpinyin

open List Option LittleEndian ChunkFile FiniteMap Replay PhraseItemView Oxpinyin.Runtime Content
  LiveSystemItems ReplayedLibrary

/-! ## The texts and readings of an item -/

variable {words : List (Option (BitVec 32))} {read : PhraseText}

/-- The loop of `from_stored_words` : the characters so far, or the words from the first that is no character on. -/
def storedWords (text : List Char) (raw : Option (List Nat)) (pastZero : Bool) (total : Nat) :
    List (Option (BitVec 32)) → Option PhraseText
  | [] => some (raw.elim (.scalar text) fun words => .stored (min total (2 ^ 32 - 1) :: words))
  | none :: _ => none
  | some word :: rest =>
    if !pastZero && 0x80000000 ≤ word.toNat then none
    else
      let pastZero := pastZero || word = 0
      match raw with
      | some raw => storedWords text (some (raw ++ [word.toNat])) pastZero (total + 1) rest
      | none =>
        if word ≠ 0 ∧ word.toNat.isValidChar then
          storedWords (text ++ [Char.ofNat word.toNat]) none pastZero (total + 1) rest
        else storedWords text (some (text.map Char.toNat ++ [word.toNat])) pastZero (total + 1) rest

/-- The text of stored words. A word past the item, or one too large before the first zero, leaves none. -/
def PhraseText.fromStoredWords (words : List (Option (BitVec 32))) : Option PhraseText :=
  storedWords [] none false 0 words

/-- A stored text counts the words it was read from, a scalar one has a character for each. -/
theorem phraseLength_storedWords {text : List Char} {raw : Option (List Nat)}
    {pastZero : Bool} {total : Nat} (htext : raw = none → total = text.length)
    (hraw : raw ≠ none → total ≠ 0) (hlength : total + words.length < 2 ^ 32)
    (h : storedWords text raw pastZero total words = some read) : read.phraseLength = total + words.length := by
  induction words generalizing text raw pastZero total with
  | nil =>
    obtain rfl := some.inj h
    cases raw with
    | none => exact (htext rfl).symm
    | some raw =>
      have htotal : total ≤ 2 ^ 32 - 1 := Nat.le_sub_one_of_lt hlength
      rw [elim_some, min_eq_left htotal]
      obtain ⟨count, rfl⟩ := Nat.exists_eq_succ_of_ne_zero (hraw (some_ne_none raw))
      rfl
  | cons word words ih =>
    cases word with
    | none => cases h
    | some word =>
      rw [length_cons] at hlength ⊢
      rw [storedWords] at h
      split at h
      · cases h
      · have hnext : total + 1 + words.length < 2 ^ 32 := by omega
        rw [← Nat.add_assoc, Nat.add_right_comm]
        cases raw with
        | some raw =>
          exact ih (fun hnone => absurd hnone (some_ne_none _)) (fun _ => Nat.succ_ne_zero total) hnext h
        | none =>
          dsimp only at h
          split at h
          · refine ih (fun _ => ?_) (fun hnone => absurd rfl hnone) hnext h
            rw [length_append, length_singleton, htext rfl]
          · exact ih (fun hnone => absurd hnone (some_ne_none _)) (fun _ => Nat.succ_ne_zero total) hnext h

/-- A text read from an item has the item's length. -/
theorem PhraseText.phraseLength_fromStoredWords
    (hlength : words.length < 2 ^ 32) (h : PhraseText.fromStoredWords words = some read) :
    read.phraseLength = words.length := by
  have hzero : 0 + words.length = words.length := Nat.zero_add _
  rw [← hzero] at hlength ⊢
  exact phraseLength_storedWords (fun _ => rfl) (fun hnone => absurd rfl hnone) hlength h

/-- A key of a query meets a stored one, an absent final or tone meets any. -/
def ChewingKey.meets (query stored : ChewingKey) : Bool :=
  query.initial = stored.initial &&
    ((query.middle = stored.middle && query.final = stored.final) || (query.middle = 0 && query.final = 0) ||
      (stored.middle = 0 && stored.final = 0)) &&
    (query.tone = stored.tone || query.tone = 0 || stored.tone = 0)

namespace ChunkFile.PhraseItemView

variable (view : PhraseItemView)

def phraseText : Option PhraseText := PhraseText.fromStoredWords view.phraseCodes

/-- The readings up to the first that is not whole. -/
def wholeReadings : List PronunciationView :=
  (((List.range view.nPronunciations).map view.pronunciation).takeWhile Option.isSome).filterMap id

/-- The keys of a reading. -/
def readingKeys (reading : PronunciationView) : List ChewingKey :=
  ((chunks 2 reading.keys).take (reading.keys.length / 2)).map fun word => ChewingKey.fromPacked (word16 word)

/-- The frequencies of the readings a query meets, and of all. Both sums wrap. -/
def itemPossibility (query : List ChewingKey) : BitVec 32 × BitVec 32 :=
  view.wholeReadings.foldl (fun sums reading =>
    let keys := readingKeys reading
    let met := query.length = keys.length && (query.zip keys).all fun pair => pair.1.meets pair.2
    (if met then sums.1 + reading.freq else sums.1, sums.2 + reading.freq)) (0, 0)

end ChunkFile.PhraseItemView

/-! ## The plain readers -/

/-- An entry of the user table's lookup. -/
structure PhraseEntry where
  token : BitVec 32
  text : PhraseText
  pronunciation : Option (BitVec 64 × BitVec 64)

/-- What the pricing on a path reads whatever the token. -/
structure PathPricing where
  user : List PhraseEntry
  /-- None where a syllable is no key. -/
  keys : Option (List ChewingKey)

/-- A token as the lookup prices it. -/
structure PricedToken where
  chars : BitVec 32
  pronunciation : Option (BitVec 64 × BitVec 64)
  text : Option PhraseText

/-- The user's part of a score, with the live frequency of a system item. -/
structure LiveCountDelta extends UserCountDelta where
  unigramLive : Option (BitVec 32)

/-- The accepted bumps on a token. -/
def FacadeBumps.token (bumps : FacadeBumps) (token : BitVec 32) : BitVec 64 :=
  if bumps.live then (bumps.overlay.tokens.get? token).getD 0 else 0

/-- The total of the libraries that are not unloaded, from the total a facade keeps of all. -/
def PhraseLibraries.unigramTotalUnloaded (libraries : PhraseLibraries) (total unloaded : BitVec 32) : BitVec 32 :=
  (List.range 16).foldl (fun total nibble =>
    if unloaded.getLsbD nibble then
      (libraries.byNibble.get? (BitVec.ofNat 8 nibble)).elim total fun mapped => total - mapped.library.totalFreq
    else total) total

/-- Counts are added as their stored fields. -/
def mergeUnigramCounts (system user : BitVec 64) : BitVec 64 := (system.setWidth 32 + user.setWidth 32).setWidth 64

/-- What the model has beside the runtime : the total its facade keeps of the shipped libraries, the
costs of nothing, and the law of the costs, in floating point, over the counts. -/
structure CostModel (α β : Type) where
  total : BitVec 32
  default : NbestStepCosts α β
  /-- The costs of an item's frequency, the facade's total and the item of the row. -/
  law : BitVec 64 → BitVec 64 → Option (BitVec 32 × BitVec 32) → NbestStepCosts α β

namespace Runtime

variable {α β : Type} (runtime : Runtime) (model : CostModel α β)

def generation : BitVec 64 := runtime.user.elim 0 LiveStore.generation

/-- The readings of a token's live item that a query meets. -/
def effectivePossibility (query : List ChewingKey) (token : BitVec 32) : Option (BitVec 32 × BitVec 32) :=
  match (runtime.liveItems.read token).get with
  | some item => if item.origin ≠ .overlay then none else some (item.view.itemPossibility query)
  | none => none

/-- What a lookup of the path lists for a token : the last entry of the user table, else the item. -/
def pricedOnPath (path : PathPricing) (token : BitVec 32) (wantText : Bool) : Option PricedToken :=
  let priced : Option PricedToken := match path.user.reverse.find? fun entry => entry.token = token with
    | some entry =>
      some ⟨u32OrMax entry.text.phraseLength, entry.pronunciation, if wantText then some entry.text else none⟩
    | none =>
      (runtime.liveItems.read token).get.bind fun item =>
        let text := if wantText then item.view.phraseText else none
        if wantText && text.isNone then none else some ⟨u32OrMax item.view.phraseLength, none, text⟩
  priced.bind fun priced =>
    let possibility := path.keys.bind fun query =>
      if runtime.liveItems.hasOverlay then runtime.effectivePossibility query token else none
    let priced := possibility.elim priced fun sums =>
      { priced with pronunciation := some (sums.1.setWidth 64, sums.2.setWidth 64) }
    if runtime.liveItems.filterActive && !runtime.liveItems.isVisible token then none else some priced

/-- The frequency the chunk of a visible library stores. -/
def unigramCount (token : BitVec 32) : Option (BitVec 64) :=
  if !runtime.visible (token >>> 24) then none else runtime.libraries.unigramCount token

def facadeTotal (extra : BitVec 64) : BitVec 64 :=
  (runtime.libraries.unigramTotalUnloaded model.total runtime.libraryMask + extra.setWidth 32).setWidth 64

/-- The costs of a token behind an item of a row. -/
def nbestItemCosts (token : BitVec 32) (user : LiveCountDelta) (importedItem : Bool)
    (item : Option (BitVec 32 × BitVec 32)) : NbestStepCosts α β :=
  let total := runtime.facadeTotal model user.unigramTotalDelta
  match user.unigramLive.filter fun _ => runtime.visible (token >>> 24) with
  | some live => model.law (live.setWidth 64) total item
  | none =>
    match runtime.unigramCount token with
    | some count => model.law (mergeUnigramCounts count user.unigramDelta) total item
    | none =>
      if runtime.visible (token >>> 24) && (isUserFileLibrary (bufferOf token) || importedItem) then
        model.law (mergeUnigramCounts 0 user.unigramDelta) total item
      else model.default

/-- What the facade's total has beyond the libraries : the session's part and every bump. -/
def totalExtra (userTotal : BitVec 64) : BitVec 64 := userTotal + runtime.bumps.total.setWidth 64

/-- The session's part of the facade's total, over the visible libraries. -/
def userTotal (user : LiveStore) : BitVec 64 :=
  user.unigramTotalOver fun nibble => runtime.visible (nibble.setWidth 32)

/-- The user's part of a token's score. -/
def delta (token : BitVec 32) : LiveCountDelta where
  bigramCount := 0
  bigramTotal := 0
  unigramDelta := BitVec.ofNat 64 (FacadeBumps.saturatingAdd64
    (runtime.user.elim 0 fun user => user.unigramDelta token).toNat (runtime.bumps.token token).toNat)
  unigramTotalDelta := runtime.totalExtra (runtime.user.elim 0 runtime.userTotal)
  unigramLive := runtime.user.bind fun user => user.systemUnigram token

/-- The session holds an item the chunk lacks, unloaded or not. -/
def importedItem (token : BitVec 32) : Bool := LiveSystemItems.isImported ⟨runtime.libraries, runtime.user, 0⟩ token

def nbestItemCostsInRow (token : BitVec 32) (item : Option (BitVec 32 × BitVec 32)) : NbestStepCosts α β :=
  runtime.nbestItemCosts model token (runtime.delta token) (runtime.importedItem token) item

end Runtime

/-! ## The facts -/

/-- What is kept of an ordinary live item. -/
structure TokenFacts where
  chars : BitVec 32
  unigram : BitVec 32
  pronunciations : BitVec 32
  flags : BitVec 32
  /-- Where its bytes are. -/
  offset : Nat
  len : Nat

/-- The facts of an item, its bytes at an offset. -/
def TokenFacts.of (offset : Nat) (view : PhraseItemView) : TokenFacts where
  chars := BitVec.ofNat 32 view.phraseLength
  unigram := view.unigram
  pronunciations := BitVec.ofNat 32 view.nPronunciations
  flags := 1
  offset := offset
  len := view.bytes.length

/-- The facts of one sentence. -/
structure SentenceFacts where
  generation : Option (BitVec 64)
  disabled : Bool
  /-- None for a token that is left to the plain readers. -/
  tokens : SortedMap (BitVec 32) (Option TokenFacts)
  bytes : Bytes
  total : Option (BitVec 64)

namespace SentenceFacts

def new : SentenceFacts := ⟨none, false, .empty, [], none⟩

variable (facts : SentenceFacts)

/-- The facts are of a generation. Those of another are given up for good. -/
def validate (generation : BitVec 64) : SentenceFacts × Bool :=
  if facts.disabled then (facts, false)
  else if generation = BitVec.allOnes 64 || facts.generation.any (· ≠ generation) then
    ({ facts with tokens := .empty, bytes := [], total := none, disabled := true }, false)
  else ({ facts with generation := some generation }, true)

end SentenceFacts

namespace Runtime

variable {α β : Type} (runtime : Runtime) (model : CostModel α β)

/-- The item of a token, if it is an ordinary live one. -/
def ordinaryItem (user : LiveStore) (token : BitVec 32) : Option PhraseItemView :=
  if runtime.liveItems.isSystemLibrary (bufferOf token) && (user.withUserItem token).isNone then
    ((runtime.liveItems.read token).get.filter fun item => item.origin = .overlay).map SystemItem.view
  else none

/-- The facts of a token, read where they are not there yet. -/
def sentenceToken (token : BitVec 32) (facts : SentenceFacts) : SentenceFacts × Option TokenFacts :=
  match runtime.user with
  | none => (facts, none)
  | some user =>
    let valid := facts.validate user.generation
    if !valid.2 then (valid.1, none)
    else
      match valid.1.tokens.get? token with
      | some found => (valid.1, found)
      | none =>
        let item := runtime.ordinaryItem user token
        let read := item.elim valid.1 fun view => { valid.1 with bytes := valid.1.bytes ++ view.bytes }
        let found := item.map (TokenFacts.of valid.1.bytes.length)
        let again := read.validate user.generation
        if !again.2 then (again.1, none)
        else ({ again.1 with tokens := again.1.tokens.insert token found }, found)

/-- The price from a token's facts. -/
def pricedFromFacts (path : PathPricing) (wantText : Bool) (saved : TokenFacts) (view : PhraseItemView) :
    Option PricedToken :=
  let text := if wantText then view.phraseText else none
  if wantText && text.isNone then none
  else
    some ⟨saved.chars, path.keys.map fun query =>
      let sums := view.itemPossibility query
      (sums.1.setWidth 64, sums.2.setWidth 64), text⟩

/-- A token's price on a path, from the facts where they have it. -/
def pricedWithFacts (path : PathPricing) (token : BitVec 32) (wantText : Bool) (facts : SentenceFacts) :
    SentenceFacts × Option PricedToken :=
  let plain := runtime.pricedOnPath path token wantText
  let valid := facts.validate runtime.generation
  if !valid.2 then (valid.1, plain)
  else if path.user.any fun entry => entry.token = token then
    -- the last entry of the user table is one of this path alone
    ({ valid.1 with tokens := valid.1.tokens.insert token none }, plain)
  else
    let saved := runtime.sentenceToken token valid.1
    match saved.2 with
    | none => (saved.1, plain)
    | some found =>
      match (range? saved.1.bytes found.offset (found.offset + found.len)).bind PhraseItemView.fromBytes with
      | none => (saved.1, plain)
      | some view =>
        match pricedFromFacts path wantText found view with
        | none => (saved.1, none)
        | some priced =>
          let again := saved.1.validate runtime.generation
          if !again.2 then (again.1, plain) else (again.1, some priced)

/-- The costs from the facts, none where they do not have the token. -/
def costsWithFacts (token : BitVec 32) (item : Option (BitVec 32 × BitVec 32)) (facts : SentenceFacts) :
    SentenceFacts × Option (NbestStepCosts α β) :=
  match runtime.user with
  | none => (facts, none)
  | some user =>
    let valid := facts.validate user.generation
    if !valid.2 then (valid.1, none)
    else
      match (valid.1.tokens.get? token).join with
      | none => (valid.1, none)
      | some saved =>
        let total := valid.1.total.getD (runtime.totalExtra (runtime.userTotal user))
        let extra := { bigramCount := 0, bigramTotal := 0, unigramDelta := 0, unigramTotalDelta := total,
                       unigramLive := some saved.unigram }
        let costs := runtime.nbestItemCosts model token extra false item
        let again := { valid.1 with total := some total }.validate user.generation
        if !again.2 then (again.1, none) else (again.1, some costs)

def nbestItemCostsWithFacts (token : BitVec 32) (item : Option (BitVec 32 × BitVec 32)) (facts : SentenceFacts) :
    SentenceFacts × NbestStepCosts α β :=
  let costs := runtime.costsWithFacts model token item facts
  (costs.1, costs.2.getD (runtime.nbestItemCostsInRow model token item))

end Runtime

/-! ## The item behind a fact -/

theorem mapM_getElem? {α β : Type} {f : α → Option β} : ∀ {l : List α} {out : List β}, l.mapM f = some out →
    ∀ i : Nat, out[i]? = l[i]?.bind f := by
  intro l
  induction l with
  | nil =>
    intro out h i
    obtain rfl : [] = out := some.inj h
    rfl
  | cons a rest ih =>
    intro out h i
    rw [mapM_cons] at h
    obtain ⟨b, hb, h⟩ := bind_eq_some_iff.mp h
    obtain ⟨outs, houts, h⟩ := bind_eq_some_iff.mp h
    obtain rfl : b :: outs = out := some.inj h
    cases i with
    | zero => exact hb.symm
    | succ i => exact ih houts i

namespace Replay

variable {content : Content} {offset len : Nat} {bytes : Bytes}

/-- The bytes of a range are the bytes at its positions. -/
theorem Content.byte_of_item
    (h : content.item offset len = some bytes) {i : Nat} (hi : i < len) : content.byte (offset + i) = bytes[i]? := by
  unfold item at h
  split_ifs at h with hcapacity
  cases howned : content.items.owned with
  | none =>
    rw [howned] at h
    obtain ⟨front, back, hcontent, rfl, hlen⟩ := range?_eq_some_iff.mp h
    rw [byte, Chunk.byte, howned]
    dsimp only
    rw [hcontent, append_assoc, getElem?_append_right (by omega), Nat.add_sub_cancel_left,
      getElem?_append_left (by omega)]
  | some owned =>
    rw [howned] at h
    dsimp only at h
    split_ifs at h with hlong
    · obtain rfl := some.inj h
      rw [byte, Chunk.byte, howned]
      dsimp only
      rw [if_pos (by omega), getElem?_take, if_pos hi, getElem?_drop, getElem?_eq_getElem (by omega), getD_some]
    · rw [mapM_getElem? h, getElem?_range' hi, Nat.one_mul, bind_some]

variable {slot : BitVec 32}

theorem Content.six_le_of_visible
    (h : content.visible slot = .item offset len) : 6 ≤ len := by
  unfold visible header at h
  dsimp only at h
  split_ifs at h
  split at h
  · split_ifs at h
    obtain ⟨-, rfl⟩ := Found.item.inj h
    exact le_headerLen _ _
  · cases h

/-- The frequency of a slot is that of its item. -/
theorem ReplayedLibrary.unigram_of_view {library : ReplayedLibrary}
    {view : PhraseItemView} (hbytes : library.itemBytes slot = some bytes)
    (hview : fromBytes bytes = some view) : library.unigram slot = some view.unigram := by
  obtain ⟨item, hfits, rfl, back, rfl⟩ := fromBytes_eq_some.mp hview
  have hroom := (exact_bodyBytes hfits).header.1
  rw [phraseItemHeader] at hroom
  obtain ⟨b0, b1, b2, b3, h0, h1, h2, h3, hfour⟩ := @exists_four (bodyBytes item) 2 (by omega)
  unfold itemBytes Content.itemBytes at hbytes
  unfold unigram
  cases hvisible : library.content.visible slot with
  | past =>
    rw [hvisible] at hbytes
    cases hbytes
  | failed =>
    rw [hvisible] at hbytes
    cases hbytes
  | item offset len =>
    rw [hvisible] at hbytes
    dsimp only at hbytes ⊢
    have hlen := six_le_of_visible hvisible
    have hbyte : ∀ i, i < 6 → library.content.byte (offset + i) = (bodyBytes item)[i]? := by
      intro i hi
      rw [byte_of_item hbytes (by omega), getElem?_append_left (by omega)]
    rw [hbyte 2 (by omega), hbyte 3 (by omega), hbyte 4 (by omega), hbyte 5 (by omega), h0, h1, h2, h3]
    dsimp only
    rw [PhraseItemView.unigram, hfour, getD_some]

end Replay

/-- A live item is found under its library's flags, in its buffer. -/
theorem LiveSystemItems.read_overlay {live : LiveSystemItems} {token : BitVec 32} {view : PhraseItemView}
    (h : live.read token = .found ⟨.overlay, view⟩) :
    ∃ store, live.user = some store ∧ live.isSystemLibrary (bufferOf token) = true ∧
      live.libraryLoaded (token >>> 24) = true ∧ store.systemItemRemoved token = false ∧
      (store.withLiveItem token).bind fromBytes = some view := by
  have hshipped : ∀ {view}, live.readShipped token ≠ .found ⟨.overlay, view⟩ := by
    intro view hfound
    unfold readShipped at hfound
    split at hfound
    · cases hfound
    · cases hfound
  unfold read at h
  split_ifs at h with hsystem hloaded
  cases huser : live.user with
  | none =>
    rw [huser] at h
    exact absurd h hshipped
  | some store =>
    rw [huser] at h
    dsimp only at h
    cases hremoved : store.systemItemRemoved token with
    | true =>
      rw [hremoved] at h
      cases h
    | false =>
    rw [hremoved] at h
    refine ⟨store, rfl, by simpa using hsystem, by simpa using hloaded, hremoved, ?_⟩
    cases hview : (store.withLiveItem token).bind fromBytes with
    | some found =>
      rw [hview] at h
      rw [(SystemItem.mk.inj (Lookup.found.inj h)).2]
    | none =>
      rw [hview] at h
      cases hpast : store.session.items.liveItemPastBuffer token with
      | true =>
        rw [hpast] at h
        cases h
      | false =>
        rw [hpast] at h
        exact absurd h hshipped

namespace LiveStore

variable {store : LiveStore} {token : BitVec 32} {view : PhraseItemView}

theorem Backed.isSystemLibrary_lt (h : store.Backed) {library : BitVec 8}
    (hsystem : store.isSystemLibrary library = true) : library < 16 := by
  rw [isSystemLibrary, Bool.or_eq_true] at hsystem
  rcases hsystem with hbaseline | hlog
  · exact h.session.rows library hbaseline
  · exact h.logs library hlog

/-- The live frequency of an ordinary item is the one its bytes have. -/
theorem Backed.systemUnigram_eq (h : store.Backed) (hsystem : store.isSystemLibrary (bufferOf token) = true)
    (huser : store.withUserItem token = none) (hremoved : store.systemItemRemoved token = false)
    (hview : (store.withLiveItem token).bind fromBytes = some view) :
    store.systemUnigram token = some view.unigram := by
  have hlow := h.isSystemLibrary_lt hsystem
  obtain ⟨bytes, hbytes, hview⟩ := bind_eq_some_iff.mp hview
  unfold GatedStore.withLiveItem at hbytes
  split_ifs at hbytes
  obtain ⟨library, hlibrary, hitem⟩ := bind_eq_some_iff.mp hbytes
  have hsome : (store.session.items.replayed.get? (bufferOf token)).isSome := by
    rw [hlibrary]
    rfl
  obtain ⟨original, horiginal⟩ := isSome_iff_exists.mp (h.session.baseline _ hlow hsome)
  rw [systemUnigram, LiveStore.original, phraseIndexLibraryIndex_of_lt hlow, horiginal, bind_some, hremoved, huser]
  dsimp only
  rw [SystemItems.unigram, hlibrary]
  exact unigram_of_view hitem hview

end LiveStore

/-! ## What the facts keep -/

namespace Runtime

variable {α β : Type} {runtime : Runtime} {model : CostModel α β} {facts : SentenceFacts} {token : BitVec 32}
  {saved : TokenFacts}

/-- The facts of a token are those of the live item it has now. -/
def Saves (runtime : Runtime) (bytes : Bytes) (token : BitVec 32) (saved : TokenFacts) : Prop :=
  ∃ user view, runtime.user = some user ∧ runtime.liveItems.isSystemLibrary (bufferOf token) = true ∧
    user.withUserItem token = none ∧ runtime.liveItems.read token = .found ⟨.overlay, view⟩ ∧
    saved.chars = BitVec.ofNat 32 view.phraseLength ∧ saved.unigram = view.unigram ∧
    range? bytes saved.offset (saved.offset + saved.len) = some view.bytes

/-- Facts that are valid now : they are of the generation, and what they say is so. -/
structure Live (runtime : Runtime) (facts : SentenceFacts) : Prop where
  enabled : facts.disabled = false
  generation : facts.generation = some runtime.generation
  bounded : runtime.generation ≠ BitVec.allOnes 64
  token : ∀ token saved, facts.tokens.get? token = some (some saved) → runtime.Saves facts.bytes token saved
  total : ∀ total, facts.total = some total → total = runtime.totalExtra (runtime.user.elim 0 runtime.userTotal)

/-- Facts that have not been filled. -/
def Blank (facts : SentenceFacts) : Prop :=
  facts.generation = none ∧ facts.tokens = .empty ∧ facts.total = none

/-- Facts a call may find : those of the generation say what is so. -/
def Sound (runtime : Runtime) (facts : SentenceFacts) : Prop :=
  facts.disabled = true ∨ Blank facts ∨
    ∃ generation, facts.generation = some generation ∧ (generation = runtime.generation → runtime.Live facts)

/-- Facts a call leaves. Without a session there is nothing that could change. -/
def Settled (runtime : Runtime) (facts : SentenceFacts) : Prop :=
  facts.disabled = true ∨ Blank facts ∨ runtime.Live facts ∨ (runtime.user = none ∧ runtime.Sound facts)

theorem Live.settled (h : runtime.Live facts) : runtime.Settled facts := .inr (.inr (.inl h))

/-- A change that moves the generation leaves nothing that could be taken for true. -/
theorem Settled.sound {next : Runtime} (h : runtime.Settled facts)
    (hmoves : next = runtime ∨ next.generation ≠ runtime.generation) (hnone : runtime.user = none → next = runtime) :
    next.Sound facts := by
  rcases h with hdisabled | hblank | hlive | ⟨huser, hsound⟩
  · exact .inl hdisabled
  · exact .inr (.inl hblank)
  rotate_left
  · rw [hnone huser]
    exact hsound
  · refine .inr (.inr ⟨runtime.generation, hlive.generation, fun hsame => ?_⟩)
    rcases hmoves with rfl | hmoved
    · exact hlive
    · exact absurd hsame.symm hmoved

theorem Live.validate (h : runtime.Live facts) : facts.validate runtime.generation = (facts, true) := by
  unfold SentenceFacts.validate
  rw [h.enabled, h.generation, decide_eq_false h.bounded]
  simp only [Bool.false_eq_true, ↓reduceIte, any_some, ne_eq, not_true_eq_false, decide_false, Bool.or_self]
  rw [← h.generation, ← h.enabled]

/-- Facts that pass are valid, and those that do not are given up. -/
theorem Sound.validate (h : runtime.Sound facts) :
    (facts.validate runtime.generation).2 = true ∧ runtime.Live (facts.validate runtime.generation).1 ∨
    (facts.validate runtime.generation).2 = false ∧ (facts.validate runtime.generation).1.disabled = true := by
  unfold SentenceFacts.validate
  cases hdisabled : facts.disabled with
  | true => exact .inr ⟨rfl, hdisabled⟩
  | false =>
    rw [if_neg Bool.false_ne_true]
    split_ifs with hstale
    · exact .inr ⟨rfl, rfl⟩
    · refine .inl ⟨rfl, ?_⟩
      rw [Bool.or_eq_true, decide_eq_true_iff, not_or] at hstale
      rcases h with hgone | hblank | ⟨generation, hgeneration, hlive⟩
      · rw [hdisabled] at hgone
        cases hgone
      · refine ⟨rfl, rfl, hstale.1, fun token saved hsaved => ?_, fun total htotal => ?_⟩
        · rw [hblank.2.1] at hsaved
          cases hsaved
        · rw [hblank.2.2] at htotal
          cases htotal
      · have hsame : generation = runtime.generation := by
          by_contra hother
          refine hstale.2 ?_
          rw [hgeneration, any_some, decide_eq_true_iff]
          exact hother
        have hnow := hlive hsame
        exact ⟨rfl, rfl, hstale.1, hnow.token, hnow.total⟩

theorem Saves.append (h : runtime.Saves facts.bytes token saved) (more : Bytes) :
    runtime.Saves (facts.bytes ++ more) token saved := by
  obtain ⟨user, view, huser, hsystem, hitem, hread, hchars, hunigram, hbytes⟩ := h
  refine ⟨user, view, huser, hsystem, hitem, hread, hchars, hunigram, ?_⟩
  obtain ⟨front, back, hsplit, hfront, hstop⟩ := range?_eq_some_iff.mp hbytes
  rw [range?_eq_some_iff]
  exact ⟨front, back ++ more, by rw [hsplit, append_assoc], hfront, hstop⟩

/-- A token's entry that says nothing, or what is so, leaves the facts valid. -/
theorem Live.insert (h : runtime.Live facts) {found : Option TokenFacts}
    (hfound : ∀ saved, found = some saved → runtime.Saves facts.bytes token saved) :
    runtime.Live { facts with tokens := facts.tokens.insert token found } := by
  refine ⟨h.enabled, h.generation, h.bounded, fun other saved hsaved => ?_, h.total⟩
  dsimp only at hsaved
  rw [SortedMap.get?_insert, Function.update_apply] at hsaved
  split_ifs at hsaved with hother
  · rw [hother]
    exact hfound saved (some.inj hsaved)
  · exact h.token other saved hsaved

theorem Live.append (h : runtime.Live facts) (more : Bytes) :
    runtime.Live { facts with bytes := facts.bytes ++ more } :=
  ⟨h.enabled, h.generation, h.bounded, fun token saved hsaved => (h.token token saved hsaved).append more, h.total⟩

/-- An ordinary item is read from its system library. -/
theorem ordinaryItem_eq_some {user : LiveStore} {view : PhraseItemView}
    (h : runtime.ordinaryItem user token = some view) :
    runtime.liveItems.isSystemLibrary (bufferOf token) = true ∧ user.withUserItem token = none ∧
      runtime.liveItems.read token = .found ⟨.overlay, view⟩ := by
  unfold ordinaryItem at h
  split_ifs at h with hordinary
  rw [Bool.and_eq_true, isNone_iff_eq_none] at hordinary
  obtain ⟨item, hitem, rfl⟩ := map_eq_some_iff.mp h
  obtain ⟨hread, horigin⟩ := filter_eq_some_iff.mp hitem
  refine ⟨hordinary.1, hordinary.2, ?_⟩
  cases hlookup : runtime.liveItems.read token with
  | found found =>
    rw [hlookup] at hread
    obtain rfl := some.inj hread
    rw [← of_decide_eq_true horigin]
  | unloaded =>
    rw [hlookup] at hread
    cases hread
  | removed =>
    rw [hlookup] at hread
    cases hread
  | absent =>
    rw [hlookup] at hread
    cases hread

/-- The facts of a token are read once, and are those of its item. -/
theorem Live.sentenceToken (h : runtime.Live facts) (token : BitVec 32) :
    runtime.Live (runtime.sentenceToken token facts).1 ∧
      ∀ saved, (runtime.sentenceToken token facts).2 = some saved →
        runtime.Saves (runtime.sentenceToken token facts).1.bytes token saved := by
  unfold Runtime.sentenceToken
  cases huser : runtime.user with
  | none => exact ⟨h, fun saved hsaved => by cases hsaved⟩
  | some user =>
    have hgeneration : user.generation = runtime.generation := by rw [Runtime.generation, huser, elim_some]
    dsimp only
    rw [hgeneration, h.validate]
    dsimp only
    cases hknown : facts.tokens.get? token with
    | some found =>
      refine ⟨h, fun saved hsaved => h.token token saved ?_⟩
      rw [hknown, ← hsaved]
      rfl
    | none =>
      cases hitem : runtime.ordinaryItem user token with
      | none =>
        simp only [elim_none, map_none, h.validate, Bool.not_true, Bool.false_eq_true, ↓reduceIte]
        have hnothing : ∀ saved, none = some saved → runtime.Saves facts.bytes token saved := by
          intro saved hsaved
          cases hsaved
        exact ⟨h.insert hnothing, hnothing⟩
      | some view =>
        obtain ⟨hsystem, hnone, hread⟩ := ordinaryItem_eq_some hitem
        simp only [elim_some, map_some, (h.append view.bytes).validate, Bool.not_true, Bool.false_eq_true, ↓reduceIte]
        have hsaves : ∀ saved, some (TokenFacts.of facts.bytes.length view) = some saved →
            runtime.Saves (facts.bytes ++ view.bytes) token saved := by
          intro saved hsaved
          obtain rfl := some.inj hsaved
          refine ⟨user, view, huser, hsystem, hnone, hread, rfl, rfl, ?_⟩
          rw [range?_eq_some_iff]
          exact ⟨facts.bytes, [], (append_nil _).symm, rfl, rfl⟩
        exact ⟨(h.append view.bytes).insert hsaves, hsaves⟩

/-- The price of a token that has facts is that of its item. -/
theorem Saves.pricedOnPath (h : runtime.Saves facts.bytes token saved) {path : PathPricing}
    (hpath : (path.user.any fun entry => entry.token = token) = false) (wantText : Bool) :
    ∃ view, (range? facts.bytes saved.offset (saved.offset + saved.len)).bind fromBytes = some view ∧
      pricedFromFacts path wantText saved view = runtime.pricedOnPath path token wantText := by
  obtain ⟨user, view, huser, hsystem, hnone, hread, hchars, hunigram, hbytes⟩ := h
  obtain ⟨store, hstore, -, hloaded, hremoved, hlive⟩ := read_overlay hread
  obtain rfl : user = store := some.inj (huser.symm.trans hstore)
  obtain ⟨bytes, hlivebytes, hview⟩ := bind_eq_some_iff.mp hlive
  have hflag : user.hasSystemItems = true := by
    unfold GatedStore.withLiveItem at hlivebytes
    split_ifs at hlivebytes with hflag
    exact hflag
  refine ⟨view, ?_, ?_⟩
  · rw [hbytes, bind_some]
    obtain ⟨item, hfits, rfl, back, -⟩ := fromBytes_eq_some.mp hview
    exact fromBytes_eq_some.mpr ⟨item, hfits, rfl, [], (append_nil _).symm⟩
  · have hentry : (path.user.reverse.find? fun entry => entry.token = token) = none := by
      rw [find?_eq_none]
      intro entry hentry
      exact List.any_eq_false.mp hpath entry (mem_reverse.mp hentry)
    have hlength : u32OrMax view.phraseLength = BitVec.ofNat 32 view.phraseLength := by
      unfold u32OrMax
      rw [if_pos]
      unfold phraseLength
      have := ((view.bytes[0]?).getD 0).toNat_lt
      omega
    have hvisible : runtime.liveItems.isVisible token = true := by
      unfold isVisible
      rw [hloaded, hstore, any_some, hremoved]
      rfl
    have hoverlay : runtime.liveItems.hasOverlay = true := by
      unfold hasOverlay
      rw [hstore, any_some, hflag]
    have hpossibility : ∀ query, runtime.effectivePossibility query token = some (view.itemPossibility query) := by
      intro query
      rw [effectivePossibility, hread]
      rfl
    unfold pricedFromFacts Runtime.pricedOnPath
    simp only [hentry, hread, hvisible, hoverlay, hlength, hchars, hpossibility, Lookup.get, bind_some,
      Bool.not_true, Bool.and_false, Bool.false_eq_true, ↓reduceIte]
    generalize (if wantText = true then view.phraseText else none) = text
    cases path.keys with
    | none =>
      split_ifs
      · rfl
      · rfl
    | some query =>
      split_ifs
      · rfl
      · rfl

/-- A price with facts is the plain one. -/
theorem Sound.pricedWithFacts (h : runtime.Sound facts) (path : PathPricing) (token : BitVec 32) (wantText : Bool) :
    (runtime.pricedWithFacts path token wantText facts).2 = runtime.pricedOnPath path token wantText ∧
      runtime.Settled (runtime.pricedWithFacts path token wantText facts).1 := by
  unfold Runtime.pricedWithFacts
  dsimp only
  rcases h.validate with ⟨hvalid, hlive⟩ | ⟨hvalid, hdisabled⟩
  · rw [hvalid]
    cases hpath : path.user.any fun entry => entry.token = token with
    | true => exact ⟨rfl, (hlive.insert fun saved hsaved => by cases hsaved).settled⟩
    | false =>
      obtain ⟨hread, hsaves⟩ := hlive.sentenceToken token
      simp only [Bool.not_true, Bool.false_eq_true, ↓reduceIte]
      cases hfound : (runtime.sentenceToken token (facts.validate runtime.generation).1).2 with
      | none => exact ⟨rfl, hread.settled⟩
      | some found =>
        obtain ⟨view, hview, hpriced⟩ := (hsaves found hfound).pricedOnPath hpath wantText
        dsimp only
        rw [hview]
        dsimp only
        rw [hpriced]
        cases hplain : runtime.pricedOnPath path token wantText with
        | none => exact ⟨rfl, hread.settled⟩
        | some priced =>
          dsimp only
          rw [hread.validate]
          exact ⟨rfl, hread.settled⟩
  · rw [hvalid]
    exact ⟨rfl, .inl hdisabled⟩

/-- The costs of a token that has facts are the plain ones. -/
theorem Saves.nbestItemCosts (h : runtime.Saves facts.bytes token saved)
    (hbacked : ∀ user, runtime.user = some user → user.Backed) (item : Option (BitVec 32 × BitVec 32)) :
    runtime.nbestItemCosts model token
      { bigramCount := 0, bigramTotal := 0, unigramDelta := 0,
        unigramTotalDelta := runtime.totalExtra (runtime.user.elim 0 runtime.userTotal),
        unigramLive := some saved.unigram } false item = runtime.nbestItemCostsInRow model token item := by
  obtain ⟨user, view, huser, hsystem, hnone, hread, -, hunigram, -⟩ := h
  obtain ⟨store, hstore, -, hloaded, hremoved, hlive⟩ := read_overlay hread
  obtain rfl : user = store := some.inj (huser.symm.trans hstore)
  have hsystem : user.isSystemLibrary (bufferOf token) = true := by
    rw [isSystemLibrary, hstore] at hsystem
    exact hsystem
  have hunigramLive : (runtime.delta token).unigramLive = some view.unigram := by
    rw [delta]
    dsimp only
    rw [huser, bind_some]
    exact (hbacked user huser).systemUnigram_eq hsystem hnone hremoved hlive
  have hvisible : runtime.visible (token >>> 24) = true := hloaded
  unfold Runtime.nbestItemCostsInRow Runtime.nbestItemCosts
  rw [hunigramLive, hunigram]
  simp only [hvisible, filter_some, ↓reduceIte]
  rfl

/-- The facts answer as the runtime, and stay sound. -/
theorem Sound.nbestItemCostsWithFacts (h : runtime.Sound facts)
    (hbacked : ∀ user, runtime.user = some user → user.Backed) (token : BitVec 32)
    (item : Option (BitVec 32 × BitVec 32)) :
    (runtime.nbestItemCostsWithFacts model token item facts).2 = runtime.nbestItemCostsInRow model token item ∧
      runtime.Settled (runtime.nbestItemCostsWithFacts model token item facts).1 := by
  have hcosts : runtime.Settled (runtime.costsWithFacts model token item facts).1 ∧
      ∀ costs, (runtime.costsWithFacts model token item facts).2 = some costs →
        costs = runtime.nbestItemCostsInRow model token item := by
    unfold costsWithFacts
    cases huser : runtime.user with
    | none =>
      exact ⟨.inr (.inr (.inr ⟨huser, h⟩)), fun costs hsome => by cases hsome⟩
    | some user =>
      have hgeneration : user.generation = runtime.generation := by rw [generation, huser, elim_some]
      dsimp only
      rw [hgeneration]
      rcases h.validate with ⟨hvalid, hlive⟩ | ⟨hvalid, hdisabled⟩
      · simp only [hvalid, Bool.not_true, Bool.false_eq_true, ↓reduceIte]
        cases hsaved : ((facts.validate runtime.generation).1.tokens.get? token).join with
        | none => exact ⟨hlive.settled, fun costs hsome => by cases hsome⟩
        | some saved =>
          have hsaves := hlive.token token saved (join_eq_some_iff.mp hsaved)
          have htotal : (facts.validate runtime.generation).1.total.getD
            (runtime.totalExtra (runtime.userTotal user)) =
              runtime.totalExtra (runtime.user.elim 0 runtime.userTotal) := by
            cases hknown : (facts.validate runtime.generation).1.total with
            | none => rw [getD_none, huser, elim_some]
            | some total => rw [getD_some, hlive.total total hknown]
          have hkept : runtime.Live { (facts.validate runtime.generation).1 with
              total := some (runtime.totalExtra (runtime.user.elim 0 runtime.userTotal)) } :=
            ⟨hlive.enabled, hlive.generation, hlive.bounded, hlive.token,
              fun total hsome => (some.inj hsome).symm⟩
          dsimp only
          simp only [htotal, hkept.validate, Bool.not_true, Bool.false_eq_true, ↓reduceIte]
          refine ⟨hkept.settled, fun costs hsome => ?_⟩
          rw [← some.inj hsome]
          exact hsaves.nbestItemCosts hbacked item
      · simp only [hvalid, Bool.not_false, ↓reduceIte]
        exact ⟨.inl hdisabled, fun costs hsome => by cases hsome⟩
  refine ⟨?_, hcosts.1⟩
  unfold Runtime.nbestItemCostsWithFacts
  dsimp only
  cases hsome : (runtime.costsWithFacts model token item facts).2 with
  | none => rfl
  | some costs => exact hcosts.2 costs hsome

end Runtime

/-! ## The calls of a sentence -/

/-- A call that shares the facts. -/
inductive FactsCall where
  | price (path : PathPricing) (token : BitVec 32) (wantText : Bool)
  | costs (token : BitVec 32) (item : Option (BitVec 32 × BitVec 32))

/-- What a call answers. -/
inductive FactsAnswer (α β : Type) where
  | price (priced : Option PricedToken)
  | costs (costs : NbestStepCosts α β)

namespace Runtime

variable {α β : Type} (runtime : Runtime) (model : CostModel α β)

/-- The answer of the plain reader. -/
def plain : FactsCall → FactsAnswer α β
  | .price path token wantText => .price (runtime.pricedOnPath path token wantText)
  | .costs token item => .costs (runtime.nbestItemCostsInRow model token item)

/-- The answer with facts. -/
def call (facts : SentenceFacts) : FactsCall → SentenceFacts × FactsAnswer α β
  | .price path token wantText =>
    let priced := runtime.pricedWithFacts path token wantText facts
    (priced.1, .price priced.2)
  | .costs token item =>
    let costs := runtime.nbestItemCostsWithFacts model token item facts
    (costs.1, .costs costs.2)

section

variable (side : PhraseSide SessionState PhraseError)

/-- The writes to the store between two calls. -/
def written (writes : List StoreWrite) : Runtime :=
  { runtime with user := runtime.user.map fun user => writes.foldl (fun user write => user.after side write) user }

/-- The answers of the calls, each behind the writes before it. -/
def answers : Runtime → SentenceFacts →
    List (List StoreWrite × FactsCall) → List (FactsAnswer α β)
  | _, _, [] => []
  | runtime, facts, (writes, call) :: rest =>
    let now := runtime.written side writes
    let called := now.call model facts call
    called.2 :: answers now called.1 rest

/-- The answers of the plain readers. -/
def plainAnswers : Runtime →
    List (List StoreWrite × FactsCall) → List (FactsAnswer α β)
  | _, [] => []
  | runtime, (writes, call) :: rest =>
    let now := runtime.written side writes
    now.plain model call :: plainAnswers now rest

/-- What is changed between two calls moves the generation. -/
def Moved : Runtime → List (List StoreWrite × FactsCall) → Prop
  | _, [] => True
  | runtime, (writes, _) :: rest =>
    let now := runtime.written side writes
    (∀ write ∈ writes, write.Rows) ∧ (now = runtime ∨ now.generation ≠ runtime.generation) ∧ Moved now rest

end

variable {runtime model} {facts : SentenceFacts} {entryPerLength reuse : Bool}

/-- A call answers as the plain reader. -/
theorem Sound.call (h : runtime.Sound facts) (hbacked : ∀ user, runtime.user = some user → user.Backed)
    (call : FactsCall) :
    (runtime.call model facts call).2 = runtime.plain model call ∧
      runtime.Settled (runtime.call model facts call).1 := by
  cases call with
  | price path token wantText =>
    obtain ⟨hanswer, hsettled⟩ := h.pricedWithFacts path token wantText
    exact ⟨congrArg FactsAnswer.price hanswer, hsettled⟩
  | costs token item =>
    obtain ⟨hanswer, hsettled⟩ := h.nbestItemCostsWithFacts hbacked token item
    exact ⟨congrArg FactsAnswer.costs hanswer, hsettled⟩

theorem backed_written {writes : List StoreWrite} (hbacked : ∀ user, runtime.user = some user → user.Backed)
    (hrows : ∀ write ∈ writes, write.Rows) :
    ∀ user, (runtime.written (sessionSide entryPerLength reuse) writes).user = some user → user.Backed := by
  intro user huser
  obtain ⟨before, hbefore, rfl⟩ := map_eq_some_iff.mp huser
  refine List.foldlRecOn _ _ (hbacked before hbefore) fun user hbacked write hwrite => ?_
  exact hbacked.after (hrows write hwrite)

/-- A run of calls and writes answers as without facts. -/
theorem Sound.answers_eq (steps : List (List StoreWrite × FactsCall)) : ∀ {runtime : Runtime} {facts : SentenceFacts},
    runtime.Settled facts → (∀ user, runtime.user = some user → user.Backed) →
    runtime.Moved (sessionSide entryPerLength reuse) steps →
    answers model (sessionSide entryPerLength reuse) runtime facts steps =
      plainAnswers model (sessionSide entryPerLength reuse) runtime steps := by
  induction steps with
  | nil => exact fun _ _ _ => rfl
  | cons step rest ih =>
    obtain ⟨writes, call⟩ := step
    intro runtime facts hsettled hbacked hmoved
    obtain ⟨hrows, hmoves, hrest⟩ := hmoved
    have hnone : runtime.user = none → runtime.written (sessionSide entryPerLength reuse) writes = runtime := by
      intro huser
      rw [written, huser, map_none, ← huser]
    have hnow : ∀ user, (runtime.written (sessionSide entryPerLength reuse) writes).user = some user → user.Backed :=
      backed_written hbacked hrows
    obtain ⟨hanswer, hafter⟩ :
        ((runtime.written (sessionSide entryPerLength reuse) writes).call model facts call).2 =
          (runtime.written (sessionSide entryPerLength reuse) writes).plain model call ∧
        (runtime.written (sessionSide entryPerLength reuse) writes).Settled
          ((runtime.written (sessionSide entryPerLength reuse) writes).call model facts call).1 :=
      (hsettled.sound hmoves hnone).call hnow call
    exact congrArg₂ List.cons hanswer (ih hafter hnow hrest)

/-- Whatever the calls and the writes between them, a call with facts answers as the plain reader
does at that moment. -/
theorem facts_run (hbacked : ∀ user, runtime.user = some user → user.Backed)
    {steps : List (List StoreWrite × FactsCall)} (hmoved : runtime.Moved (sessionSide entryPerLength reuse) steps) :
    answers model (sessionSide entryPerLength reuse) runtime .new steps =
      plainAnswers model (sessionSide entryPerLength reuse) runtime steps :=
  Sound.answers_eq steps (.inr (.inl ⟨rfl, rfl, rfl⟩)) hbacked hmoved

end Runtime

/-- A session over a library of one item, its buffer live. -/
def itemSession : LiveStore :=
  let original : Baseline := ⟨⟨5, 2, [(1, ⟨[0x4f60], 5, [([0x1234], 2)]⟩)], none⟩, false⟩
  ⟨.open_ { SessionState.opened .new (.fromEntries []) isUserFileLibrary false .empty with
      originals := SortedMap.empty.insert 1 original
      items := ⟨SortedMap.empty.insert 1 original.pristine, .empty, 0⟩ } none, false, fun _ => false⟩

/-- The item is priced and scored, and scored again after it has been trained. -/
def pricedSteps : List (List StoreWrite × FactsCall) :=
  [([], .price ⟨[], some [.fromPacked 0x1234]⟩ 0x01000001 true), ([], .costs 0x01000001 (some (3, 7))),
    ([.write (.observeSelection 0x01000001 0x01000001) true false], .costs 0x01000001 none)]

def itemRuntime : Runtime := .opened ⟨.empty⟩ ⟨.empty⟩ (some itemSession)

/-- Costs that are the counts themselves. -/
def countModel : CostModel Nat Nat :=
  ⟨5, ⟨none, none, 0⟩, fun count total _ => ⟨some total.toNat, some count.toNat, 1⟩⟩

theorem facts_pricedSteps :
    Runtime.answers countModel (sessionSide false false) itemRuntime .new pricedSteps =
      Runtime.plainAnswers countModel (sessionSide false false) itemRuntime pricedSteps ∧
    ((itemRuntime.pricedWithFacts ⟨[], some [.fromPacked 0x1234]⟩ 0x01000001 true .new).1.tokens.get?
      0x01000001).join.isSome = true := by
  have hbacked : ∀ user, itemRuntime.user = some user → user.Backed := by
    intro user huser
    obtain rfl : itemSession = user := some.inj huser
    have hone : ∀ nibble, (itemSession.session.items.replayed.get? nibble).isSome = true →
        (itemSession.session.originals.get? nibble).isSome = true := by decide +kernel
    have hrow : ∀ nibble, (itemSession.session.originals.get? nibble).isSome = true → nibble < 16 := by decide +kernel
    exact ⟨⟨fun nibble _ hsome => hone nibble hsome, hrow⟩, fun nibble hlog => by cases hlog⟩
  refine ⟨Runtime.facts_run hbacked ⟨?_, .inl rfl, ?_, .inl rfl, ?_, .inr ?_, trivial⟩, ?_⟩
  · exact fun write hwrite => absurd hwrite not_mem_nil
  · exact fun write hwrite => absurd hwrite not_mem_nil
  · intro write hwrite
    obtain rfl := mem_singleton.mp hwrite
    exact trivial
  · decide +kernel
  · decide +kernel

end Oxpinyin
