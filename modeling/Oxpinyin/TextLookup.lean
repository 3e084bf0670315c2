import Oxpinyin.ChewingTable
import Oxpinyin.FacadeBumps
import Oxpinyin.LiveBuffers
import Oxpinyin.Lib.Stamp

/-!
# The tokens of a text

A text's tokens come from the system's phrase index and from the session's phrase table. The
runtime keeps the last row it read of the table, with the generation of the table, and each write
that may have changed a text's tokens moves that generation. `TextRuntime.tokensForText_run` : while
the generation does not come all the way round between two queries, the tokens of a text are those
of its scalars. After 2^64 writes it has (`TextRuntime.not_tokensForText_round`).
-/

namespace Oxpinyin

open List Option LittleEndian FiniteMap Replay SessionState UserPhraseTable LiveStore

/-! ## The phrase index of the system -/

/-- The scalars of a text. -/
def scalars (text : String) : List (BitVec 32) := text.toList.map fun ch => ch.val.toBitVec

/-- The key of a text in the phrase index. -/
def encodeUcs4Key (text : String) : Bytes := text.toList.flatMap fun ch => le32 ch.val.toBitVec

/-- The key of words, which need not be scalars. -/
def encodeUcs4KeyScalars (codes : List (BitVec 32)) : Bytes := codes.flatMap le32

/-- The tokens of a row of the phrase index. -/
def decodeTokens (value : Bytes) : Except DictError (List (BitVec 32)) :=
  if value.isEmpty then .ok []
  else if value.length % 4 ≠ 0 then
    .error (.parse s!"phrase index value length {value.length} is not a multiple of 4")
  else .ok ((chunks 4 value).map word32)

/-- The phrase index of the system, or one that was not opened and answers no key. -/
structure PhraseTable where
  dbm : Option (SortedMap Bytes Bytes)

namespace PhraseTable

variable (table : PhraseTable)

def attachmentFailed : Bool := table.dbm.isNone

def searchKey (key : Bytes) : Except DictError (List (BitVec 32)) :=
  match table.dbm.bind fun rows => rows.get? key with
  | none => .ok []
  | some value => decodeTokens value

/-- The tokens of a text. -/
def search (text : String) : Except DictError (List (BitVec 32)) :=
  if text.isEmpty && !table.attachmentFailed then .ok [] else table.searchKey (encodeUcs4Key text)

/-- The tokens of words. -/
def searchUcs4 (words : List (BitVec 32)) : Except DictError (List (BitVec 32)) :=
  if words.isEmpty && !table.attachmentFailed then .ok [] else table.searchKey (encodeUcs4KeyScalars words)

end PhraseTable

/-- The key of a text in the session's phrase table. -/
def UserPhraseTable.key (text : String) : Bytes := text.toList.flatMap fun ch => le32 ch.val.toBitVec

/-! ## What moves the generation -/

/-- An add makes a new token : none of the library is found, and none is selected. -/
def SessionState.addsToken (s : SessionState) (library : BitVec 8) (words : List (BitVec 32))
    (selected : Option (Option (BitVec 32))) : Bool :=
  decide ((s.existing library words selected).toOption = some none)

/-- A commit of the operation is one of the phrase table. A merge of a reading is not. -/
def UserStore.marksPhraseWrite (store : UserStore SessionState) : StoreOp → Bool
  | .addPhraseIn library words _ _ => store.phrases.addsToken library words none
  | .promoteAddonPhrase _ _ _ | .maskOut _ _ | .removeUserPhrase _ => true
  | .loadUserLibrary _ _ | .unloadUserLibrary _ => true
  | .loadSystemLibraries _ _ _ | .unloadSystemLibraries _ | .resetSystemLibrary _ => true
  | .observeSelection _ _ | .observePredicted _ _ | .observePredictedPrefix _ | .setBigramCount _ _ _ => false
  | .addUnigramFrequency _ _ | .trainPronunciations _ _ _ | .compactLibraries => false

/-- An operation moves the generation of the phrase table. -/
def UserStore.movesPhrases (side : PhraseSide SessionState PhraseError) (store : UserStore SessionState)
    (op : StoreOp) : Bool :=
  (store.commits side op).isSome && store.marksPhraseWrite op

/-- An import into a system library commits a new token. -/
def LiveStore.importsToken (live : LiveStore) (library : BitVec 8) (originalToken : Option (BitVec 32))
    (words : List (BitVec 32)) (keys : List (BitVec 16)) (count : Option (BitVec 64)) : Bool :=
  if !live.isSystemLibrary library || !phraseFitsKeys words keys then false
  else
    (live.session.originals.get? library).any fun original =>
      (live.session.arenaAddPhrase library words keys (SessionState.phraseDelta count) (some originalToken)
        original.library.rangeEnd).2.isOk && live.session.addsToken library words (some originalToken)

/-! ## The runtime -/

/-- A row of the session's phrase table, with the generation it was read in. -/
structure TextTokens where
  generation : BitVec 64
  text : String
  tokens : List (BitVec 32)

/-- A runtime with the phrase index of its system, the libraries the configuration gives a user
file, the generation of the session's phrase table and the last row read of it. -/
structure TextRuntime extends Runtime where
  phrase : PhraseTable
  userNibbles : BitVec 32
  phraseTableGeneration : BitVec 64
  textLookupCache : Option TextTokens

/-- A write to the session or to the runtime around it. -/
inductive TextWrite where
  | runtime (op : RuntimeOp)
  | addSystemPhraseIn (library : BitVec 8) (originalToken : Option (BitVec 32)) (words : List (BitVec 32))
      (keys : List (BitVec 16)) (count : Option (BitVec 64)) (hasSystemItems hasRemovedSystemItems : Bool)

namespace TextRuntime

variable (runtime : TextRuntime) (side : PhraseSide SessionState PhraseError)

/-- A library is loaded from a system chunk, or has a user file. -/
def libraryLoaded (token : BitVec 32) : Bool :=
  (runtime.libraries.library token).isSome ||
    (token >>> 24 < 32 && runtime.userNibbles &&& (1#32 <<< (token >>> 24)) ≠ 0)

/-- A search of the phrase tables answers tokens of the library. -/
def phraseTableTokenEnabled (token : BitVec 32) : Bool :=
  let nibble := token >>> 24
  runtime.visible nibble &&
    (runtime.libraryLoaded token ||
      (5 ≤ nibble && nibble ≤ 7 && runtime.user.any fun store => store.session.hasUserLibrary (bufferOf token)))

/-- The enabled tokens of a search, in groups by library. -/
def reduceTokens (tokens : List (BitVec 32)) : List (BitVec 32) :=
  (tokens.filter runtime.phraseTableTokenEnabled).mergeSort fun a b => a >>> 24 ≤ b >>> 24

/-- The row of a text in the session's phrase table, the one kept where it is of the text and of
the generation. A row that does not decode is not kept. -/
def userRow (store : LiveStore) (text : String) : Option TextTokens :=
  let generation := runtime.phraseTableGeneration
  if runtime.textLookupCache.all fun row => row.generation ≠ generation || row.text ≠ text then
    (store.session.phraseTable.tokens (UserPhraseTable.key text)).toOption.map fun tokens =>
      ⟨generation, text, tokens⟩
  else runtime.textLookupCache

/-- The tokens of a text. -/
def tokensForText (text : String) : TextRuntime × List (BitVec 32) :=
  let system := (runtime.phrase.search text).toOption.getD []
  match runtime.user with
  | none => (runtime, runtime.reduceTokens system)
  | some store =>
    let cache := runtime.userRow store text
    ({ runtime with textLookupCache := cache },
      runtime.reduceTokens (system ++ cache.elim [] TextTokens.tokens))

/-- The tokens of words, read as they are. -/
def tokensForUcs4 (ucs4 : List (BitVec 32)) : List (BitVec 32) :=
  let system := (runtime.phrase.searchUcs4 ucs4).toOption.getD []
  let user := runtime.user.elim [] fun store =>
    (store.session.phraseTable.tokens (keyUcs4 ucs4)).toOption.getD []
  runtime.reduceTokens (system ++ user)

/-- A write moves the generation of the phrase table. -/
def moves : TextWrite → Bool
  | .runtime (.write op _ _) => runtime.user.any fun store => store.store.movesPhrases side op
  | .runtime _ => false
  | .addSystemPhraseIn library originalToken words keys count _ _ =>
    runtime.user.any fun store => store.importsToken library originalToken words keys count

/-- What a write makes of the runtime and its session. -/
def written : TextWrite → Runtime
  | .runtime op => runtime.toRuntime.after side op
  | .addSystemPhraseIn library originalToken words keys count hasSystemItems hasRemovedSystemItems =>
    { runtime.toRuntime with
      user := runtime.user.map fun store =>
        store.addSystemPhraseIn library originalToken words keys count hasSystemItems hasRemovedSystemItems }

/-- The runtime after a write. The row stays. -/
def after (write : TextWrite) : TextRuntime :=
  { runtime with
    toRuntime := runtime.written side write
    phraseTableGeneration :=
      if runtime.moves side write then runtime.phraseTableGeneration + 1 else runtime.phraseTableGeneration }

/-- The tokens of the texts, each queried behind the writes before it. -/
def textAnswers : TextRuntime → List (List TextWrite × String) → List (List (BitVec 32))
  | _, [] => []
  | runtime, (writes, text) :: rest =>
    let now := writes.foldl (fun runtime write => runtime.after side write) runtime
    (now.tokensForText text).2 :: textAnswers (now.tokensForText text).1 rest

/-- The tokens of their scalars. -/
def ucs4Answers : TextRuntime → List (List TextWrite × String) → List (List (BitVec 32))
  | _, [] => []
  | runtime, (writes, text) :: rest =>
    let now := writes.foldl (fun runtime write => runtime.after side write) runtime
    now.tokensForUcs4 (scalars text) :: ucs4Answers (now.tokensForText text).1 rest

/-- Between two queries the generation does not come all the way round. -/
def Paced : TextRuntime → List (List TextWrite × String) → Prop
  | _, [] => True
  | runtime, (writes, text) :: rest =>
    let now := writes.foldl (fun runtime write => runtime.after side write) runtime
    let moved := Stamp.moved (fun runtime write => runtime.after side write)
      (fun runtime write => runtime.moves side write) runtime writes
    (2 ^ 64 ∣ moved → moved = 0) ∧ Paced (now.tokensForText text).1 rest

end TextRuntime

/-! ## What leaves the phrase table -/

namespace UserPhraseTable

variable {phrases : UserPhraseTable}

/-- The records of a checked table are whole. -/
theorem valid_of_check (h : phrases.checkMask = .ok ()) :
    ∀ entry ∈ phrases.table.merged, validate entry.2 = .ok () := by
  rw [checkMask, RecordTable.forEachRecord_eq] at h
  intro entry hentry
  obtain ⟨_, _, hvisit, _⟩ := (Run.foldlM_visits (fun _ => trivial) (fun _ _ _ _ _ => trivial)
    (fun _ _ _ _ _ => trivial) h).2 entry hentry
  exact hvisit

/-- A mask succeeds where its check does. -/
theorem mask_of_check (h : phrases.checkMask = .ok ()) (reuse : Bool) (mask value : BitVec 32) :
    ∃ table, phrases.mask reuse mask value = (table, .ok ()) := by
  have hvalid := valid_of_check h
  have hwalk : (phrases.table.rewriteRecords (maskRecord reuse mask value) ⟨⟨[]⟩, none⟩).1.failed = none := by
    rw [RecordTable.rewriteRecords_eq]
    refine List.foldlRecOn phrases.table.merged _
      (motive := fun state : Walk × Bytes × List (BitVec 32) => state.1.failed = none) rfl
      fun state hstate entry hentry => ?_
    change (maskRecord reuse mask value state.1 entry.1 entry.2).1.failed = none
    unfold maskRecord
    rw [hstate]
    cases reuse with
    | true =>
      simp only [PhraseTableEntry.setContent, hvalid entry hentry, Except.map, if_true]
    | false =>
      simp only [PhraseTableEntry.fromBytes, hvalid entry hentry, Except.map, Bool.false_eq_true, if_false]
      exact hstate
  unfold UserPhraseTable.mask
  simp only [hwalk]
  exact ⟨_, rfl⟩

end UserPhraseTable

namespace SessionState

variable {s : SessionState} {library : BitVec 8} {words : List (BitVec 32)} {selected : Option (Option (BitVec 32))}

theorem phraseTable_addArenaReading (packed : List (BitVec 16)) (delta token : BitVec 32) :
    (s.addArenaReading library words packed delta token).1.phraseTable = s.phraseTable := by
  rcases @addArenaReading_cases s library words packed delta token with ⟨_, hdone⟩ | ⟨_, _, hdone⟩ | ⟨_, hdone⟩
  · rw [hdone]
  · rw [hdone]
    rfl
  · rw [hdone]
    rfl

theorem phraseTable_addBufferReading (original : Baseline) (packed : List (BitVec 16)) (delta token : BitVec 32) :
    (s.addBufferReading original words packed delta token).1.phraseTable = s.phraseTable := by
  rcases @addBufferReading_cases s words packed delta token original with ⟨_, hdone⟩ | ⟨_, hdone⟩
  · rw [hdone]
  · rw [hdone]

/-- An add that finds its phrase leaves the phrase table. -/
theorem phraseTable_arenaAddPhrase (h : s.addsToken library words selected = false) (keys : List (BitVec 16))
    (delta : BitVec 32) (rangeEnd : Nat) :
    (s.arenaAddPhrase library words keys delta selected rangeEnd).1.phraseTable = s.phraseTable := by
  have hfound : s.existing library words selected ≠ .ok none := by
    intro hnone
    rw [addsToken, hnone] at h
    exact absurd rfl (of_decide_eq_false h)
  have hstep := @arenaAddPhrase_step s library words delta keys selected rangeEnd
  generalize s.arenaAddPhrase library words keys delta selected rangeEnd = result at hstep ⊢
  cases hstep with
  | refused error => rfl
  | @buffer original based =>
    have hbuffer := @bufferAddPhrase_step s library words delta original keys selected
    generalize s.bufferAddPhrase library original words keys delta selected = result at hbuffer ⊢
    cases hbuffer with
    | refused error => rfl
    | reading found => exact phraseTable_addBufferReading _ _ _ _
    | phrase check found => exact absurd found hfound
  | reading bare found => exact phraseTable_addArenaReading _ _ _
  | phrase check found => exact absurd found hfound

theorem phraseTable_arenaAddUnigramOutcome (token delta : BitVec 32) :
    (s.arenaAddUnigramOutcome token delta).1.phraseTable = s.phraseTable := by
  rcases s.arenaAddUnigramOutcome_cases token delta with
    ⟨_, hsame⟩ | ⟨_, _, items, answer, hitems⟩ | ⟨_, _, ⟨_, hrefused⟩ | ⟨_, _, hmissing⟩ | ⟨arena, _, _, hplaced⟩⟩
  · rw [hsame]
  · rw [hitems]
  · rw [hrefused]
  · rw [hmissing]
  · rw [hplaced]
    rfl

theorem phraseTable_arenaTrain (token : BitVec 32) (readings : List (List ChewingKey)) (delta : BitVec 32) :
    (s.arenaTrain token readings delta).phraseTable = s.phraseTable := by
  rcases s.arenaTrain_cases token readings delta with hsame | ⟨arena, _, hplaced⟩ | ⟨items, hitems⟩
  · rw [hsame]
  · rw [hplaced, putArena]
  · rw [hitems]

/-- A mask whose checks pass does not fail. -/
theorem phraseTable_checked (h : s.checkMask = none) : ∃ checked, s.phraseTable.checkMask = .ok checked := by
  unfold checkMask at h
  split_ifs at h
  cases hcheck : s.phraseTable.checkMask with
  | error error =>
    rw [hcheck] at h
    cases h
  | ok checked => exact ⟨checked, rfl⟩

theorem mask_of_checkMask (h : s.checkMask = none) (entryPerLength reuse : Bool) (mask value : BitVec 32) :
    (s.mask entryPerLength reuse mask value).2 = none := by
  obtain ⟨checked, hcheck⟩ := phraseTable_checked h
  obtain ⟨table, hmask⟩ := mask_of_check hcheck reuse mask value
  unfold SessionState.mask
  simp only [hmask]

end SessionState

namespace UserStore

variable {store : UserStore SessionState} {entryPerLength reuse : Bool}

/-- A mask that fails leaves the session. -/
theorem maskOut_spares {mask value : BitVec 32}
    (h : (store.commits (sessionSide entryPerLength reuse) (.maskOut mask value)) = none) :
    (store.maskOut (sessionSide entryPerLength reuse) mask value).1 = store := by
  unfold commits at h
  dsimp only at h
  unfold maskOut at h ⊢
  split
  · rfl
  · rename_i hcheck
    dsimp only at h ⊢
    split
    · rfl
    · rename_i hgrams
      have hmask : ((sessionSide entryPerLength reuse).mask store.phrases mask value).2 = none :=
        mask_of_checkMask hcheck entryPerLength reuse mask value
      rw [hcheck] at h
      simp only [hgrams, hmask] at h
      cases h

theorem phraseTable_update (last cur : BitVec 32) (policy : SeedPolicy) :
    (store.update (sessionSide entryPerLength reuse) last cur policy).1.phrases.phraseTable =
      store.phrases.phraseTable := by
  rcases phrases_update (sessionSide entryPerLength reuse) store last cur policy with hsame | ⟨delta, hadded⟩
  · rw [hsame]
  · rw [hadded]
    exact phraseTable_arenaAddUnigramOutcome cur delta

theorem isSome_onSuccess {ε α : Type} {result : Except ε α} (h : (onSuccess result).isSome = false) :
    ∃ error, result = .error error := by
  cases result with
  | ok a => cases h
  | error error => exact ⟨error, rfl⟩

/-- An operation that does not move the generation leaves the phrase table. -/
theorem phraseTable_after {op : StoreOp} (h : store.movesPhrases (sessionSide entryPerLength reuse) op = false) :
    (store.after (sessionSide entryPerLength reuse) op).phrases.phraseTable = store.phrases.phraseTable := by
  have hcommit : store.marksPhraseWrite op = true →
      (store.commits (sessionSide entryPerLength reuse) op).isSome = false := by
    intro hmarks
    rw [movesPhrases, hmarks, Bool.and_true] at h
    exact h
  cases op with
  | addPhraseIn library words keys count =>
    change (store.phrases.addPhraseIn library words keys count).1.phraseTable = _
    cases hadds : store.phrases.addsToken library words none with
    | false =>
      unfold addPhraseIn
      split_ifs
      · rfl
      · exact phraseTable_arenaAddPhrase hadds _ _ _
    | true =>
      obtain ⟨error, herror⟩ := isSome_onSuccess (hcommit hadds)
      have hspares : store.phrases.Spares (store.phrases.addPhraseIn library words keys count) := by
        unfold addPhraseIn
        split_ifs
        · exact spares_error _
        · exact spares_arenaAddPhrase keys (fun _ token htoken => by cases htoken) _
      rw [hspares error herror]
  | promoteAddonPhrase words readings unigram =>
    change (store.phrases.promoteAddonPhrase words readings unigram).1.phraseTable = _
    obtain ⟨error, herror⟩ := isSome_onSuccess (hcommit rfl)
    have hspares : store.phrases.Spares (store.phrases.promoteAddonPhrase words readings unigram) := by
      unfold promoteAddonPhrase
      dsimp only
      split_ifs
      · exact spares_error _
      · exact spares_arenaPromote _ _
    rw [hspares error herror]
  | observeSelection last cur => exact phraseTable_update last cur .training
  | observePredicted last cur => exact phraseTable_update last cur .predicted
  | observePredictedPrefix cur => exact phraseTable_arenaAddUnigramOutcome cur _
  | setBigramCount prev cur count => rfl
  | addUnigramFrequency token delta => exact phraseTable_arenaAddUnigramOutcome token delta
  | trainPronunciations token readings seed => exact phraseTable_arenaTrain token readings _
  | maskOut mask value =>
    change (store.maskOut (sessionSide entryPerLength reuse) mask value).1.phrases.phraseTable = _
    rw [maskOut_spares (not_isSome_iff_eq_none.mp (Bool.eq_false_iff.mp (hcommit rfl)))]
  | removeUserPhrase token =>
    change (store.removeUserPhrase (sessionSide entryPerLength reuse) token).1.phrases.phraseTable = _
    rw [removeUserPhrase_spares]
    intro hremoved
    have hnone := hcommit rfl
    unfold commits at hnone
    simp only [hremoved] at hnone
    cases hnone
  | loadUserLibrary library payload =>
    change (store.phrases.loadUserLibrary library payload).phraseTable = _
    unfold loadUserLibrary
    split_ifs
    · rfl
    · rfl
  | unloadUserLibrary library =>
    change (store.phrases.unloadUserLibrary library).phraseTable = _
    unfold unloadUserLibrary
    split_ifs
    · rfl
    · rfl
  | loadSystemLibraries originals replayed totals => rfl
  | unloadSystemLibraries originals => rfl
  | resetSystemLibrary nibble =>
    change (store.phrases.resetSystemLibrary nibble).phraseTable = _
    unfold resetSystemLibrary
    split_ifs
    · rfl
    · rfl
  | compactLibraries => rfl

end UserStore

/-! ## Scalars -/

theorem isEmpty_scalars (text : String) : (scalars text).isEmpty = text.isEmpty := by
  rw [Bool.eq_iff_iff, List.isEmpty_iff, String.isEmpty_iff, scalars, map_eq_nil_iff, String.toList_eq_nil_iff]

theorem UserPhraseTable.key_eq (text : String) : key text = keyUcs4 (scalars text) :=
  (flatMap_map ..).symm

/-- A text is searched as its scalars. -/
theorem PhraseTable.search_eq (table : PhraseTable) (text : String) :
    table.search text = table.searchUcs4 (scalars text) := by
  have hkey : encodeUcs4Key text = encodeUcs4KeyScalars (scalars text) := (flatMap_map ..).symm
  rw [search, searchUcs4, isEmpty_scalars, hkey]

/-! ## The row is never stale -/

/-- An add that imports no token keeps the phrase table. -/
theorem LiveStore.phraseTable_addSystemPhraseIn {live : LiveStore} {library : BitVec 8}
    {originalToken : Option (BitVec 32)} {words : List (BitVec 32)} {keys : List (BitVec 16)}
    {count : Option (BitVec 64)} (h : live.importsToken library originalToken words keys count = false) (f g : Bool) :
    (live.addSystemPhraseIn library originalToken words keys count f g).session.phraseTable =
      live.session.phraseTable := by
  unfold importsToken at h
  unfold addSystemPhraseIn
  by_cases hrefused : (!live.isSystemLibrary library || !phraseFitsKeys words keys) = true
  · rw [if_pos hrefused]
  rw [if_neg hrefused] at h ⊢
  cases horiginal : live.session.originals.get? library with
  | none => rfl
  | some original =>
    rw [horiginal, any_some, Bool.and_eq_false_iff] at h
    dsimp only
    split
    · have hadded : (live.session.arenaAddPhrase library words keys (phraseDelta count)
          (some originalToken) original.library.rangeEnd).1.phraseTable = live.session.phraseTable := by
        rcases h with hfailed | hfound
        · have hspares : live.session.Spares (live.session.arenaAddPhrase library words keys
              (phraseDelta count) (some originalToken) original.library.rangeEnd) :=
            spares_arenaAddPhrase keys (fun hnone => by rw [horiginal] at hnone; cases hnone) _
          cases hresult : (live.session.arenaAddPhrase library words keys (phraseDelta count)
              (some originalToken) original.library.rangeEnd).2 with
          | ok token =>
            rw [hresult] at hfailed
            cases hfailed
          | error error => rw [hspares error hresult]
        · exact phraseTable_arenaAddPhrase hfound keys _ _
      split
      · exact hadded
      · exact hadded
    · split
      · rfl
      · rename_i phrases hmerged
        obtain ⟨packed, _, hmerged⟩ := bind_eq_some_iff.mp hmerged
        obtain ⟨item, _, hmerged⟩ := bind_eq_some_iff.mp hmerged
        split at hmerged
        · cases hmerged
        · obtain rfl := some.inj hmerged
          rfl

namespace TextRuntime

variable {runtime : TextRuntime} {entryPerLength reuse : Bool}

/-- The session's phrase table. -/
def phraseTable (runtime : TextRuntime) : Option UserPhraseTable :=
  runtime.user.map fun store => store.session.phraseTable

theorem counts_after (side : PhraseSide SessionState PhraseError) :
    Stamp.Counts (fun runtime write => after runtime side write) (fun runtime write => moves runtime side write)
      phraseTableGeneration := fun _ _ => rfl

theorem setLibraryLoaded_phraseTable (live : LiveStore) (nibble : BitVec 8) (loaded : Bool) :
    (live.setLibraryLoaded nibble loaded).session.phraseTable = live.session.phraseTable := by
  unfold setLibraryLoaded
  split
  · rfl
  · rfl

/-- A write that does not move the generation leaves the session's phrase table. -/
theorem guards_after : Stamp.Guards (fun runtime write => after runtime (sessionSide entryPerLength reuse) write)
    (fun runtime write => moves runtime (sessionSide entryPerLength reuse) write) phraseTable := by
  intro runtime write hmoves
  have hmap : ∀ f : LiveStore → LiveStore, (∀ store, runtime.user = some store →
      (f store).session.phraseTable = store.session.phraseTable) →
      (runtime.user.map f).map (fun store => store.session.phraseTable) = runtime.phraseTable := by
    intro f hf
    unfold phraseTable
    cases huser : runtime.user with
    | none => rfl
    | some store => exact congrArg some (hf store huser)
  cases write with
  | addSystemPhraseIn library originalToken words keys count f g =>
    refine hmap _ fun store huser => phraseTable_addSystemPhraseIn ?_ f g
    change (runtime.user.any fun store => store.importsToken library originalToken words keys count) = false at hmoves
    rw [huser] at hmoves
    exact hmoves
  | runtime op =>
    cases op with
    | write op f g =>
      refine hmap _ fun store huser => ?_
      change (runtime.user.any fun store =>
        store.store.movesPhrases (sessionSide entryPerLength reuse) op) = false at hmoves
      rw [huser] at hmoves
      rw [phrases_write]
      exact UserStore.phraseTable_after hmoves
    | loadLibrary index =>
      change ((runtime.toRuntime.loadLibrary index).user.map fun store => store.session.phraseTable) = _
      unfold Runtime.loadLibrary
      split_ifs
      · rfl
      · exact hmap _ fun store _ => setLibraryLoaded_phraseTable store _ true
    | unloadLibrary index =>
      change ((runtime.toRuntime.unloadLibrary index).user.map fun store => store.session.phraseTable) = _
      unfold Runtime.unloadLibrary
      split_ifs
      · rfl
      · exact hmap _ fun store _ => setLibraryLoaded_phraseTable store _ false
    | finishSystemRemap originals => rfl
    | addUnigram token delta =>
      change ((runtime.toRuntime.addUnigramOutcome token delta).1.user.map fun store => store.session.phraseTable) = _
      unfold Runtime.addUnigramOutcome
      dsimp only
      split
      · rfl
      · split
        · rename_i store huser
          split
          · split
            · rfl
            · refine Eq.trans ?_ (congrArg (Option.map fun store => store.session.phraseTable) huser.symm)
              exact congrArg some (phraseTable_arenaAddUnigramOutcome token _)
          · rfl
        · rfl

/-- The row kept is of the current generation, and holds what the table has for its text. -/
def Settled (runtime : TextRuntime) : Prop :=
  ∀ table ∈ runtime.phraseTable, ∀ row ∈ runtime.textLookupCache, row.generation = runtime.phraseTableGeneration ∧
    table.tokens (UserPhraseTable.key row.text) = .ok row.tokens

/-- A row of the current generation holds what the table has for its text. -/
def Fresh (runtime : TextRuntime) : Prop :=
  ∀ table ∈ runtime.phraseTable, ∀ row ∈ runtime.textLookupCache, row.generation = runtime.phraseTableGeneration →
    table.tokens (UserPhraseTable.key row.text) = .ok row.tokens

/-- Writes keep the row, and make no session. -/
theorem foldl_after (writes : List TextWrite) : ∀ runtime : TextRuntime,
    let now := writes.foldl (fun runtime write => after runtime (sessionSide entryPerLength reuse) write) runtime
    now.textLookupCache = runtime.textLookupCache ∧ (runtime.phraseTable = none → now.phraseTable = none) := by
  induction writes with
  | nil => exact fun _ => ⟨rfl, id⟩
  | cons write writes ih =>
    intro runtime now
    obtain ⟨hcache, hnone⟩ := ih (runtime.after (sessionSide entryPerLength reuse) write)
    refine ⟨hcache, fun htable => hnone ?_⟩
    have huser : runtime.user = none := map_eq_none_iff.mp htable
    have hmoves : runtime.moves (sessionSide entryPerLength reuse) write = false := by
      unfold moves
      rw [huser]
      split
      · rfl
      · rfl
      · rfl
    exact (guards_after runtime write hmoves).trans htable

/-- Writes that do not bring the generation all the way round leave a fresh row. -/
theorem Settled.writes (h : runtime.Settled) {writes : List TextWrite}
    (hround : 2 ^ 64 ∣ Stamp.moved (fun runtime write => after runtime (sessionSide entryPerLength reuse) write)
        (fun runtime write => moves runtime (sessionSide entryPerLength reuse) write) runtime writes →
      Stamp.moved (fun runtime write => after runtime (sessionSide entryPerLength reuse) write)
        (fun runtime write => moves runtime (sessionSide entryPerLength reuse) write) runtime writes = 0) :
    (writes.foldl (fun runtime write => after runtime (sessionSide entryPerLength reuse) write) runtime).Fresh := by
  obtain ⟨hcache, hnone⟩ := @foldl_after entryPerLength reuse writes runtime
  intro table htable row hrow hgeneration
  rw [hcache] at hrow
  cases hbefore : runtime.phraseTable with
  | none =>
    rw [hnone hbefore] at htable
    cases htable
  | some before =>
    obtain ⟨hsame, htokens⟩ := h before hbefore row hrow
    rw [hsame] at hgeneration
    rw [guards_after.of_count (counts_after _) hround hgeneration.symm, hbefore] at htable
    rw [← some.inj htable]
    exact htokens

/-- The row of a query is the text's, and it is settled. -/
theorem Fresh.userRow (h : runtime.Fresh) {store : LiveStore} (huser : runtime.user = some store) (text : String) :
    (runtime.userRow store text).elim [] TextTokens.tokens =
      (store.session.phraseTable.tokens (key text)).toOption.getD [] ∧
    ∀ row ∈ runtime.userRow store text, row.generation = runtime.phraseTableGeneration ∧
      store.session.phraseTable.tokens (key row.text) = .ok row.tokens := by
  have htable : store.session.phraseTable ∈ runtime.phraseTable := by
    rw [phraseTable, huser]
    rfl
  unfold TextRuntime.userRow
  dsimp only
  split
  · cases hread : store.session.phraseTable.tokens (key text) with
    | error error => exact ⟨rfl, fun row hrow => by cases hrow⟩
    | ok tokens =>
      refine ⟨rfl, fun row hrow => ?_⟩
      obtain rfl := some.inj hrow
      exact ⟨rfl, hread⟩
  · rename_i hkept
    cases hcache : runtime.textLookupCache with
    | none =>
      rw [hcache] at hkept
      exact absurd rfl hkept
    | some row =>
      rw [hcache, all_some, Bool.or_eq_true, decide_eq_true_eq, decide_eq_true_eq, not_or, not_not, not_not] at hkept
      have hrow := h _ htable row hcache hkept.1
      refine ⟨?_, fun other hother => ?_⟩
      · rw [← hkept.2, hrow]
        rfl
      · obtain rfl := some.inj hother
        exact ⟨hkept.1, hrow⟩

/-- A query answers as one of the scalars does, and leaves its row settled. -/
theorem Fresh.tokensForText (h : runtime.Fresh) (text : String) :
    (runtime.tokensForText text).2 = runtime.tokensForUcs4 (scalars text) ∧
      (runtime.tokensForText text).1.Settled := by
  unfold TextRuntime.tokensForText tokensForUcs4
  rw [PhraseTable.search_eq, ← key_eq]
  cases huser : runtime.user with
  | none =>
    refine ⟨congrArg runtime.reduceTokens (append_nil _).symm, fun table htable => ?_⟩
    have hnone : runtime.phraseTable = none := map_eq_none_iff.mpr huser
    exact absurd (hnone.symm.trans htable) (some_ne_none _).symm
  | some store =>
    obtain ⟨htokens, hsettled⟩ := h.userRow huser text
    refine ⟨?_, fun table htable row hrow => ?_⟩
    · rw [elim_some, ← htokens]
    · obtain rfl : store.session.phraseTable = table := by
        have hsome : runtime.phraseTable = some table := htable
        rw [phraseTable, huser] at hsome
        exact some.inj hsome
      exact hsettled row hrow

theorem Settled.answers_eq (rounds : List (List TextWrite × String)) : ∀ {runtime : TextRuntime},
    runtime.Settled → runtime.Paced (sessionSide entryPerLength reuse) rounds →
    runtime.textAnswers (sessionSide entryPerLength reuse) rounds =
      runtime.ucs4Answers (sessionSide entryPerLength reuse) rounds := by
  induction rounds with
  | nil => exact fun _ _ => rfl
  | cons round rest ih =>
    obtain ⟨writes, text⟩ := round
    intro runtime hsettled hpaced
    obtain ⟨hround, hrest⟩ := hpaced
    obtain ⟨hanswer, hafter⟩ := (hsettled.writes hround).tokensForText text
    exact congrArg₂ List.cons hanswer (ih hafter hrest)

/-- Whatever is written between them, each query of a text answers as the scalars of the text do at
that moment, as long as the generation does not come all the way round between two queries. -/
theorem tokensForText_run (hcache : runtime.textLookupCache = none) {rounds : List (List TextWrite × String)}
    (hpaced : runtime.Paced (sessionSide entryPerLength reuse) rounds) :
    runtime.textAnswers (sessionSide entryPerLength reuse) rounds =
      runtime.ucs4Answers (sessionSide entryPerLength reuse) rounds := by
  refine Settled.answers_eq rounds (fun table _ row hrow => ?_) hpaced
  rw [hcache] at hrow
  cases hrow

/-! ## A generation that comes round -/

/-- A library of the user is loaded, with no chunk. -/
def loadNetwork : TextWrite := .runtime (.write (.loadUserLibrary networkDictionary none) false false)

/-- Loads of a user library move the generation, and leave the phrase table and what enables a token. -/
theorem foldl_loadNetwork (side : PhraseSide SessionState PhraseError) (n : Nat) :
    ∀ {runtime : TextRuntime} {store : LiveStore}, runtime.user = some store →
    store.session.hasUserLibrary networkDictionary = true →
    ∃ loaded : LiveStore, loaded.session.phraseTable = store.session.phraseTable ∧
      loaded.session.hasUserLibrary = store.session.hasUserLibrary ∧
      (List.replicate n loadNetwork).foldl (fun runtime write => after runtime side write) runtime =
        { runtime with
          user := some loaded, phraseTableGeneration := runtime.phraseTableGeneration + BitVec.ofNat 64 n } := by
  induction n with
  | zero =>
    intro runtime store huser _
    refine ⟨store, rfl, rfl, ?_⟩
    rw [← huser, BitVec.add_zero]
    rfl
  | succ n ih =>
    intro runtime store huser hlibrary
    let next := store.write side (.loadUserLibrary networkDictionary none) false false
    have hphrases : next.session = store.session.loadUserLibrary networkDictionary none :=
      phrases_write side (.loadUserLibrary networkDictionary none) false false
    have hload : store.session.loadUserLibrary networkDictionary none =
        store.session.replaceUserArena networkDictionary (some .empty) := by
      unfold loadUserLibrary
      rw [if_pos hlibrary]
      rfl
    have htable : next.session.phraseTable = store.session.phraseTable := by
      rw [hphrases, hload]
      rfl
    have hlibraries : next.session.hasUserLibrary = store.session.hasUserLibrary := by
      rw [hphrases, hload]
      rfl
    have hmoves : runtime.moves side loadNetwork = true := by
      change (runtime.user.any fun store =>
        store.store.movesPhrases side (.loadUserLibrary networkDictionary none)) = true
      rw [huser, any_some, UserStore.movesPhrases, UserStore.commits, if_pos hlibrary]
      rfl
    have hstep : runtime.after side loadNetwork =
        { runtime with user := some next, phraseTableGeneration := runtime.phraseTableGeneration + 1 } := by
      have hwritten : runtime.written side loadNetwork = { runtime.toRuntime with user := some next } := by
        have hafter : runtime.written side loadNetwork = { runtime.toRuntime with
            user := runtime.user.map fun store =>
              store.write side (.loadUserLibrary networkDictionary none) false false } := rfl
        rw [hafter, huser]
        rfl
      rw [after, hmoves, if_pos rfl, hwritten]
    obtain ⟨loaded, hloaded, hkept, hrest⟩ := @ih (runtime.after side loadNetwork) next (by rw [hstep])
      ((congrFun hlibraries _).trans hlibrary)
    refine ⟨loaded, hloaded.trans htable, hkept.trans hlibraries, ?_⟩
    rw [replicate_succ, foldl_cons, hrest, hstep]
    simp only [BitVec.add_assoc, Nat.add_comm n 1, BitVec.ofNat_add, BitVec.ofNat_eq_ofNat]

end TextRuntime

/-- A session with nothing in it. -/
def textStore : LiveStore := ⟨.open_ openSession none, false, fun _ => false⟩

/-- A runtime over it. -/
def textRuntime : TextRuntime where
  toRuntime := .opened ⟨.empty⟩ ⟨.empty⟩ (some textStore)
  phrase := ⟨some .empty⟩
  userNibbles := 0
  phraseTableGeneration := 0
  textLookupCache := none

/-- A text of one word. -/
def textNi : String := String.ofList [Char.ofNat 0x4f60]

def addNi : TextWrite := .runtime (.write (.addPhraseIn userDictionary [0x4f60] [214] none) false false)

namespace TextRuntime

/-- The text is added after its first query and removed before its last. A training of it is between. -/
theorem tokensForText_added :
    textRuntime.textAnswers (sessionSide false false) [([], textNi), ([addNi], textNi),
      ([.runtime (.write (.observeSelection 0x07000001 0x07000001) false false)], textNi),
      ([.runtime (.write (.removeUserPhrase 0x07000001) false false)], textNi)] =
    textRuntime.ucs4Answers (sessionSide false false) [([], textNi), ([addNi], textNi),
      ([.runtime (.write (.observeSelection 0x07000001 0x07000001) false false)], textNi),
      ([.runtime (.write (.removeUserPhrase 0x07000001) false false)], textNi)] :=
  tokensForText_run rfl ⟨by decide +kernel, by decide +kernel, by decide +kernel, by decide +kernel, trivial⟩

theorem scalars_textNi : scalars textNi = [0x4f60] := by
  rw [scalars, textNi, String.toList_ofList]
  rfl

/-- A query, an add of its text with so many loads behind it, and the query again. -/
def allRound (n : Nat) : List (List TextWrite × String) :=
  [([], textNi), (addNi :: List.replicate n loadNetwork, textNi)]

variable {runtime : TextRuntime}

theorem tokensForText_some {store : LiveStore} (huser : runtime.user = some store) (text : String) :
    runtime.tokensForText text = ({ runtime with textLookupCache := runtime.userRow store text },
      runtime.reduceTokens ((runtime.phrase.search text).toOption.getD [] ++
        (runtime.userRow store text).elim [] TextTokens.tokens)) := by
  unfold tokensForText
  rw [huser]

theorem userRow_kept {store : LiveStore} {text : String} {tokens : List (BitVec 32)}
    (h : runtime.textLookupCache = some ⟨runtime.phraseTableGeneration, text, tokens⟩) :
    runtime.userRow store text = some ⟨runtime.phraseTableGeneration, text, tokens⟩ := by
  unfold userRow
  dsimp only
  rw [h, all_some, decide_eq_false (not_not.mpr rfl), decide_eq_false (not_not.mpr rfl)]
  rfl

theorem reduceTokens_nil : runtime.reduceTokens [] = [] := mergeSort_nil

theorem reduceTokens_one {token : BitVec 32} (h : runtime.phraseTableTokenEnabled token = true) :
    runtime.reduceTokens [token] = [token] := by
  rw [reduceTokens, filter_cons_of_pos h, filter_nil, mergeSort_singleton]

/-- Where the add and the loads bring the generation round, the second query answers the row of the
first, in which the text has no token. -/
theorem answers_allRound {n : Nat} (h : 1#64 + BitVec.ofNat 64 n = 0) :
    textRuntime.textAnswers (sessionSide false false) (allRound n) = [[], []] ∧
      textRuntime.ucs4Answers (sessionSide false false) (allRound n) = [[], [0x07000001]] := by
  have hsearch : (textRuntime.phrase.search textNi).toOption.getD [] = [] := by
    rw [PhraseTable.search_eq, scalars_textNi]
    rfl
  have hread : (textStore.session.phraseTable.tokens (keyUcs4 [0x4f60])).toOption = some [] := by decide +kernel
  have hrow : textRuntime.userRow textStore textNi = some ⟨0, textNi, []⟩ := by
    unfold userRow
    rw [key_eq, scalars_textNi, hread]
    rfl
  -- the first query
  have hfirst : textRuntime.tokensForText textNi =
      ({ textRuntime with textLookupCache := some ⟨0, textNi, []⟩ }, []) := by
    rw [@tokensForText_some textRuntime textStore rfl, hrow, hsearch]
    exact congrArg (Prod.mk _) reduceTokens_nil
  have hfirst4 : textRuntime.tokensForUcs4 (scalars textNi) = [] := by
    rw [scalars_textNi]
    change textRuntime.reduceTokens ([] ++ (textStore.session.phraseTable.tokens
      (keyUcs4 [0x4f60])).toOption.getD []) = []
    rw [hread]
    exact reduceTokens_nil
  -- the add
  let asked : TextRuntime := { textRuntime with textLookupCache := some ⟨0, textNi, []⟩ }
  let store := textStore.write (sessionSide false false) (.addPhraseIn userDictionary [0x4f60] [214] none) false false
  have hadded : asked.after (sessionSide false false) addNi =
      { asked with user := some store, phraseTableGeneration := 1 } := by
    have hmoves : asked.moves (sessionSide false false) addNi = true := by decide +kernel
    rw [after, hmoves]
    rfl
  have htokens : (store.session.phraseTable.tokens (keyUcs4 [0x4f60])).toOption = some [0x07000001] := by
    decide +kernel
  -- the loads
  obtain ⟨loaded, htable, hkept, hloads⟩ := @foldl_loadNetwork (sessionSide false false) n
    (asked.after (sessionSide false false) addNi) store (by rw [hadded]) (by decide +kernel)
  let now : TextRuntime := { asked with user := some loaded, phraseTableGeneration := 0 }
  have hnow : (addNi :: List.replicate n loadNetwork).foldl
      (fun runtime write => after runtime (sessionSide false false) write) asked = now := by
    rw [foldl_cons, hloads, hadded]
    exact congrArg (fun generation => { asked with user := some loaded, phraseTableGeneration := generation }) h
  have hlast : (now.tokensForText textNi).2 = [] := by
    rw [@tokensForText_some now loaded rfl, @userRow_kept now loaded textNi [] rfl]
    change now.reduceTokens ((textRuntime.phrase.search textNi).toOption.getD [] ++ []) = []
    rw [hsearch]
    exact reduceTokens_nil
  have henabled : now.phraseTableTokenEnabled 0x07000001 = true := by
    have hlibrary : loaded.session.hasUserLibrary 7 = true := by
      rw [hkept]
      decide +kernel
    unfold phraseTableTokenEnabled
    rw [Bool.and_eq_true, Bool.or_eq_true, Bool.and_eq_true]
    exact ⟨rfl, .inr ⟨rfl, hlibrary⟩⟩
  have hlast4 : now.tokensForUcs4 (scalars textNi) = [0x07000001] := by
    rw [scalars_textNi]
    change now.reduceTokens ([] ++ (loaded.session.phraseTable.tokens (keyUcs4 [0x4f60])).toOption.getD []) = _
    rw [htable, htokens]
    exact reduceTokens_one henabled
  rw [allRound, textAnswers, textAnswers, textAnswers, ucs4Answers, ucs4Answers, ucs4Answers]
  simp only [foldl_nil, hfirst, hfirst4]
  rw [hnow, hlast, hlast4]
  exact ⟨rfl, rfl⟩

/-- After an add and 2^64 - 1 loads of a user library the added text still has no token. -/
theorem not_tokensForText_round :
    textRuntime.textAnswers (sessionSide false false) (allRound (2 ^ 64 - 1)) ≠
      textRuntime.ucs4Answers (sessionSide false false) (allRound (2 ^ 64 - 1)) := by
  obtain ⟨htext, hucs4⟩ := @answers_allRound (2 ^ 64 - 1) (by decide)
  rw [htext, hucs4]
  decide

end TextRuntime

end Oxpinyin
