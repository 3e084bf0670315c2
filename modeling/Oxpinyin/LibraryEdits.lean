import Oxpinyin.SessionEdits

/-!
# What an operation edits

A session's operations, and what each leaves alone. An operation that neither loads nor replaces
libraries keeps the marks, the baselines and the user files, makes live buffers only from
baselines, and gives an arena only to the library it adds to (`edits_after`). Whatever holds of
the libraries over runs is derived from that.
-/

namespace Oxpinyin

open LittleEndian ChunkFile FiniteMap Replay Run SessionState SystemItems Option

/-! ## The operations -/

/-- One operation of a session. What a load reads from disk is given with it. -/
inductive StoreOp where
  | addPhraseIn (library : BitVec 8) (words : List (BitVec 32)) (keys : List (BitVec 16)) (count : Option (BitVec 64))
  | promoteAddonPhrase (words : List (BitVec 32)) (readings : List (List (BitVec 16) × BitVec 64))
      (unigram : BitVec 64)
  | observeSelection (last cur : BitVec 32)
  | observePredicted (last cur : BitVec 32)
  | observePredictedPrefix (cur : BitVec 32)
  | setBigramCount (prev cur : BitVec 32) (count : BitVec 64)
  | addUnigramFrequency (token delta : BitVec 32)
  | trainPronunciations (token : BitVec 32) (readings : List (List ChewingKey)) (seed : BitVec 64)
  | maskOut (mask value : BitVec 32)
  | removeUserPhrase (token : BitVec 32)
  | loadUserLibrary (library : BitVec 8) (payload : Option Bytes)
  | unloadUserLibrary (library : BitVec 8)
  | loadSystemLibraries (originals : SessionState.Originals) (replayed : SortedMap (BitVec 8) ReplayedLibrary)
      (totals : SortedMap (BitVec 8) (BitVec 32))
  | unloadSystemLibraries (originals : SessionState.Originals)
  | resetSystemLibrary (nibble : BitVec 8)
  | compactLibraries

namespace UserStore

variable (side : PhraseSide SessionState PhraseError)

/-- Sets a successor's count, the gram's total moved by the difference. A gram too short for a
total is made anew. -/
def setBigramCount (container : Container) (prev cur : BitVec 32) (count : BitVec 64) :
    Except (UserStoreError PhraseError) Container :=
  let gram := ((container.gram prev).filter fun gram => SingleGram.totalLen ≤ gram.length).getD SingleGram.newGram
  let count32 := u32OrMax count.toNat
  let total := (SingleGram.getTotalFreq gram).getD 0
  let old := SingleGram.getFreq gram cur
  let stored := match old with
    | some _ => SingleGram.setFreq gram cur count32
    | none => SingleGram.insertFreq gram cur count32
  if stored.2 then
    let newTotal := min (total.toNat - (old.getD 0).toNat + count32.toNat) (2 ^ 32 - 1)
    .ok (container.insert (le32 prev) (SingleGram.setTotalFreq stored.1 (BitVec.ofNat 32 newTotal)))
  else .error .decode

/-- The session after an operation, whether it succeeds or not. -/
def after (store : UserStore SessionState) : StoreOp → UserStore SessionState
  | .addPhraseIn library words keys count =>
    { store with phrases := (store.phrases.addPhraseIn library words keys count).1 }
  | .promoteAddonPhrase words readings unigram =>
    { store with phrases := (store.phrases.promoteAddonPhrase words readings unigram).1 }
  | .observeSelection last cur => (store.observeSelection side last cur).1
  | .observePredicted last cur => (store.observePredicted side last cur).1
  | .observePredictedPrefix cur =>
    { store with phrases := (side.addUnigram store.phrases cur (unigramDelta predictedSeed)).1 }
  | .setBigramCount prev cur count =>
    { store with container := (setBigramCount store.container prev cur count).toOption.getD store.container }
  | .addUnigramFrequency token delta =>
    { store with phrases := (store.phrases.arenaAddUnigramOutcome token delta).1 }
  | .trainPronunciations token readings seed =>
    { store with phrases := store.phrases.arenaTrain token readings (seed.setWidth 32) }
  | .maskOut mask value => (store.maskOut side mask value).1
  | .removeUserPhrase token => (store.removeUserPhrase side token).1
  | .loadUserLibrary library payload => { store with phrases := store.phrases.loadUserLibrary library payload }
  | .unloadUserLibrary library => { store with phrases := store.phrases.unloadUserLibrary library }
  | .loadSystemLibraries originals replayed totals =>
    { store with phrases := store.phrases.replaceSystemLibraries originals replayed totals }
  | .unloadSystemLibraries originals => { store with phrases := store.phrases.unloadSystemLibraries originals }
  | .resetSystemLibrary nibble => { store with phrases := store.phrases.resetSystemLibrary nibble }
  | .compactLibraries => { store with phrases := store.phrases.compactLibraries }

end UserStore

/-! ## What opens a buffer -/

namespace Replay.SystemItems

variable {items after last : SystemItems} {allowed : BitVec 8 → Prop} {nibble : BitVec 8}

/-- Only allowed libraries gain a buffer. -/
def Opens (allowed : BitVec 8 → Prop) (items after : SystemItems) : Prop :=
  ∀ nibble, (after.replayed.get? nibble).isSome → (items.replayed.get? nibble).isSome ∨ allowed nibble

theorem opens_of_eq (h : after.replayed = items.replayed) : Opens allowed items after := by
  intro nibble hsome
  rw [h] at hsome
  exact .inl hsome

theorem Opens.trans (h : Opens allowed items after) (h' : Opens allowed after last) : Opens allowed items last := by
  intro nibble hsome
  rcases h' nibble hsome with hsome | hallowed
  · exact h nibble hsome
  · exact .inr hallowed

theorem Opens.insert {library : ReplayedLibrary} (h : Opens allowed items after)
    (hnibble : (items.replayed.get? nibble).isSome ∨ allowed nibble) {totals : SortedMap (BitVec 8) (BitVec 32)}
    {extra : BitVec 64} : Opens allowed items ⟨after.replayed.insert nibble library, totals, extra⟩ := by
  intro other hsome
  rw [SortedMap.get?_insert, Function.update_apply] at hsome
  split_ifs at hsome with hother
  · rwa [hother]
  · exact h other hsome

theorem opens_putLibrary (hnibble : allowed nibble) (library : ReplayedLibrary) :
    Opens allowed items (items.putLibrary nibble library) :=
  (opens_of_eq rfl).insert (.inr hnibble)

variable {original : Baseline}

theorem opens_addItem {token : BitVec 32} (htoken : allowed (bufferOf token)) (bytes : Bytes) :
    Opens allowed items (items.addItem original token bytes).1 :=
  opens_putLibrary htoken _

theorem opens_addUnigram {token : BitVec 32} (htoken : allowed (bufferOf token))
    (delta : BitVec 32) : Opens allowed items (items.addUnigram original token delta).1 :=
  opens_putLibrary htoken _

theorem opens_setLibraryTotal (total : BitVec 32) : Opens allowed items (items.setLibraryTotal nibble total) := by
  unfold setLibraryTotal
  split
  · rename_i library hget
    refine (opens_of_eq rfl).insert (.inl ?_)
    rw [hget]
    rfl
  · exact opens_of_eq rfl

theorem opens_trainLive {original : Option Baseline} {token : BitVec 32}
    (htoken : original.isSome → allowed (bufferOf token)) (readings : List (List ChewingKey)) (delta : BitVec 32) :
    Opens allowed items (items.trainLive original token readings delta).1 := by
  unfold trainLive
  dsimp only
  split
  · rename_i library hget
    refine (opens_of_eq rfl).insert (.inl ?_)
    rw [hget]
    rfl
  · split
    · exact opens_of_eq rfl
    · rename_i original' horiginal
      refine opens_putLibrary (htoken ?_) _
      rw [(filter_eq_some_iff.mp horiginal).1]
      rfl

end Replay.SystemItems

/-! ## Edits -/

namespace SessionState

variable {s t u : SessionState} {library : BitVec 8} {words : List (BitVec 32)} {keys packed : List (BitVec 16)}
  {delta token : BitVec 32} {opens adds : BitVec 8 → Prop}

/-- What edits keep. Only some libraries gain a live buffer, and only some an arena. -/
structure Edits (opens adds : BitVec 8 → Prop) (s t : SessionState) : Prop where
  marks : t.unloaded = s.unloaded
  originals : t.originals = s.originals
  files : t.hasUserLibrary = s.hasUserLibrary
  items : SystemItems.Opens opens s.items t.items
  arenas : ∀ nibble, s.libraries.get? nibble = none → t.libraries.get? nibble = none ∨ adds nibble

open Edits

theorem Edits.of_items {items : SystemItems} (h : SystemItems.Opens opens s.items items) :
    Edits opens adds s { s with items := items } :=
  ⟨rfl, rfl, rfl, h, fun _ hnone => .inl hnone⟩

theorem Edits.refl (s : SessionState) : Edits opens adds s s := .of_items (opens_of_eq rfl)

section

variable (h : Edits opens adds s t)
include h

theorem Edits.trans (h' : Edits opens adds t u) : Edits opens adds s u := by
  refine ⟨h'.marks.trans h.marks, h'.originals.trans h.originals, h'.files.trans h.files, h.items.trans h'.items,
    fun nibble hnone => ?_⟩
  rcases h.arenas nibble hnone with hnone | hadds
  · exact h'.arenas nibble hnone
  · exact .inr hadds

/-- The texts and the index are no library's. -/
theorem Edits.texts (table : UserPhraseTable) (index : UserIndex) :
    Edits opens adds s { t with phraseTable := table, index := index } :=
  ⟨h.marks, h.originals, h.files, h.items, h.arenas⟩

theorem Edits.enlist (words : List (BitVec 32)) (token : BitVec 32)
    (readings : List (List (BitVec 16))) : Edits opens adds s (t.enlist words token readings).1 := by
  obtain ⟨table, index, henlist⟩ := t.enlist_eq words token readings
  rw [henlist]
  exact h.texts table index

/-- An arena is put where the edits may add one, or in the place of another. -/
theorem Edits.putArena (arena : UserLibrary)
    (hput : adds library ∨ (s.libraries.get? library).isSome) : Edits opens adds s (t.putArena library arena) := by
  refine ⟨h.marks, h.originals, h.files, h.items, fun nibble hnone => ?_⟩
  rw [SessionState.putArena, SortedMap.get?_insert, Function.update_apply]
  split_ifs with heq
  · rw [heq] at hnone ⊢
    rw [hnone] at hput
    exact .inr (hput.resolve_right Bool.false_ne_true)
  · exact h.arenas nibble hnone

end

theorem edits_takeItemIn (unigram : BitVec 32) (accepted : Bool) :
    Edits opens adds s (s.takeItemIn library unigram accepted) := by
  unfold takeItemIn
  split
  · exact .of_items (opens_setLibraryTotal _)
  · exact .of_items (opens_of_eq rfl)

theorem Edits.takeItemOut (h : Edits opens adds s t) (unigram : BitVec 32) :
    Edits opens adds s (t.takeItemOut library unigram) := by
  unfold SessionState.takeItemOut
  split
  · exact h.trans (.of_items (opens_setLibraryTotal _))
  · exact h.trans (.of_items (opens_of_eq rfl))

/-! ## Adds -/

variable {original : Baseline}

theorem edits_addArenaReading (hadds : adds library) :
    Edits opens adds s (s.addArenaReading library words packed delta token).1 := by
  rcases @addArenaReading_cases s library words packed delta token with ⟨_, hdone⟩ | ⟨_, _, hdone⟩ | ⟨_, hdone⟩
  · rw [hdone]
    exact .refl s
  · rw [hdone]
    exact (refl s).putArena _ (.inl hadds)
  · rw [hdone]
    exact (refl s).putArena _ (.inl hadds)

theorem edits_addArenaPhrase (hadds : adds library) (rangeEnd : Nat) :
    Edits opens adds s (s.addArenaPhrase library words packed delta rangeEnd).1 := by
  rcases @addArenaPhrase_cases s library words packed delta rangeEnd with ⟨_, hdone⟩ | ⟨_, _, _, _, hdone⟩
  · rw [hdone]
    exact .refl s
  · rw [hdone]
    exact ((edits_takeItemIn _ _).putArena _ (.inl hadds)).enlist _ _ _

theorem edits_addBufferReading (hopens : opens (bufferOf token)) :
    Edits opens adds s (s.addBufferReading original words packed delta token).1 := by
  rcases @addBufferReading_cases s words packed delta token original with ⟨_, hdone⟩ | ⟨_, hdone⟩
  · rw [hdone]
    exact .refl s
  · rw [hdone]
    exact .of_items ((opens_putLibrary hopens _).trans (opens_putLibrary hopens _))

theorem edits_addBufferPhrase
    (hopens : opens (bufferOf (addPhraseToken library (s.items.rangeEnd library original)))) :
    Edits opens adds s (s.addBufferPhrase library original words packed delta).1 := by
  rcases @addBufferPhrase_cases s library words packed delta original with ⟨_, hdone⟩ | ⟨bytes, items, hdone, hitems⟩
  · rw [hdone]
    exact .refl s
  · rw [hdone]
    refine (of_items ?_).enlist _ _ _
    rcases hitems _ rfl with rfl | ⟨extra, rfl⟩
    · exact (opens_addItem hopens bytes).trans (opens_addUnigram hopens _)
    · exact ((opens_addItem hopens bytes).trans (opens_addUnigram hopens _)).trans
        (opens_of_eq rfl)

/-- The buffers a session may open : that of a token, where the library of the token has a baseline, and that of a
new token of a library with one. -/
structure Opening (s : SessionState) (opens : BitVec 8 → Prop) : Prop where
  held : ∀ token, (s.originals.get? (phraseIndexLibraryIndex token)).isSome → opens (bufferOf token)
  fresh : ∀ library rangeEnd, (s.originals.get? library).isSome → opens (bufferOf (addPhraseToken library rangeEnd))

theorem edits_bufferAddPhrase {selected : Option (Option (BitVec 32))}
    (hopens : s.Opening opens) (horiginal : (s.originals.get? library).isSome)
    (hselected : ∀ token, selected = some (some token) → phraseIndexLibraryIndex token = library) :
    Edits opens adds s (s.bufferAddPhrase library original words keys delta selected).1 := by
  have hstep := @bufferAddPhrase_step s library words delta original keys selected
  generalize s.bufferAddPhrase library original words keys delta selected = result at hstep ⊢
  cases hstep with
  | refused error => exact .refl s
  | reading found =>
    refine edits_addBufferReading (hopens.held _ ?_)
    rw [library_of_existing hselected found]
    exact horiginal
  | phrase check found => exact edits_addBufferPhrase (hopens.fresh library _ horiginal)

/-- A phrase is added to the buffer of a library with a baseline, else to an arena. -/
theorem edits_arenaAddPhrase {selected : Option (Option (BitVec 32))} (hopens : s.Opening opens)
    (hadds : s.originals.get? library = none → adds library)
    (hselected : ∀ token, selected = some (some token) → phraseIndexLibraryIndex token = library) (rangeEnd : Nat) :
    Edits opens adds s (s.arenaAddPhrase library words keys delta selected rangeEnd).1 := by
  cases horiginal : s.originals.get? library with
  | some original =>
    rw [arenaAddPhrase, horiginal]
    exact edits_bufferAddPhrase hopens (isSome_iff_exists.mpr ⟨original, horiginal⟩) hselected
  | none =>
    have hstep := @arenaAddPhrase_step s library words delta keys selected rangeEnd
    generalize s.arenaAddPhrase library words keys delta selected rangeEnd = result at hstep ⊢
    cases hstep with
    | refused error => exact .refl s
    | buffer based =>
      rw [horiginal] at based
      cases based
    | reading bare found => exact edits_addArenaReading (hadds horiginal)
    | phrase check found => exact edits_addArenaPhrase (hadds horiginal) rangeEnd

theorem edits_addPhraseIn (hopens : s.Opening opens) (hadds : s.originals.get? library = none → adds library)
    (count : Option (BitVec 64)) : Edits opens adds s (s.addPhraseIn library words keys count).1 := by
  unfold addPhraseIn
  split_ifs
  · exact .refl s
  · exact edits_arenaAddPhrase hopens hadds (fun _ hnone => by cases hnone) 1

theorem edits_promoteAddonPhrase (hadds : adds addonDictionary) (readings : List (List (BitVec 16) × BitVec 64))
    (unigram : BitVec 64) : Edits opens adds s (s.promoteAddonPhrase words readings unigram).1 := by
  unfold promoteAddonPhrase
  dsimp only
  split_ifs
  · exact .refl s
  · rcases @arenaPromote_cases s words (readings.filter fun reading => phraseFitsKeys words reading.1)
      (unigram.setWidth 32) with ⟨_, hdone⟩ | ⟨_, _, _, _, hdone⟩
    · rw [hdone]
      exact .refl s
    · rw [hdone]
      exact ((edits_takeItemIn _ _).putArena _ (.inl hadds)).enlist _ _ _

/-! ## Trainings, removals and masks -/

/-- A raised frequency keeps the frame. -/
theorem edits_arenaAddUnigramOutcome (hopens : s.Opening opens) (token delta : BitVec 32) :
    Edits opens adds s (s.arenaAddUnigramOutcome token delta).1 := by
  have htaken : Edits opens adds s { s with items := s.items.addFacadeExtra (delta.setWidth 64) } :=
    .of_items (opens_of_eq rfl)
  unfold arenaAddUnigramOutcome
  by_cases hmark : phraseIndexLibraryIndex token ∈ s.unloaded
  · rw [if_pos hmark]
    exact .refl s
  rw [if_neg hmark]
  cases horiginal : s.originals.get? (phraseIndexLibraryIndex token) with
  | some original =>
    have hallowed := hopens.held token (by rw [horiginal]; rfl)
    dsimp only
    split_ifs
    · exact .refl s
    · exact .of_items (opens_putLibrary hallowed _)
    · exact .of_items ((opens_putLibrary hallowed _).trans (opens_of_eq rfl))
  | none =>
    dsimp only
    split_ifs
    · exact htaken
    · split
      · exact htaken
      · rename_i arena harena
        exact htaken.putArena _ (.inr (isSome_iff_exists.mpr ⟨arena, harena⟩))

theorem edits_arenaTrain (hopens : s.Opening opens) (token : BitVec 32) (readings : List (List ChewingKey))
    (delta : BitVec 32) : Edits opens adds s (s.arenaTrain token readings delta) := by
  unfold arenaTrain
  dsimp only
  split_ifs
  · exact .refl s
  · cases harena : s.libraries.get? (phraseIndexLibraryIndex token) with
    | none => exact .refl s
    | some arena => exact (refl s).putArena _ (.inr (isSome_iff_exists.mpr ⟨arena, harena⟩))
  · exact .of_items (opens_trainLive (hopens.held token) readings delta)

theorem edits_remove (token : BitVec 32) : Edits opens adds s (s.remove token).1 := by
  unfold remove
  split
  · exact .refl s
  · rename_i item _
    have hout : Edits opens adds s (s.takeItemOut (phraseIndexLibraryIndex token) item.unigram) :=
      (refl s).takeItemOut _
    obtain ⟨items, hitems⟩ := s.takeItemOut_eq (phraseIndexLibraryIndex token) item.unigram
    rw [hitems] at hout
    dsimp only
    rw [hitems]
    split
    · exact hout.texts _ _
    · split_ifs
      · exact hout.texts _ _
      · dsimp only
        cases harena : s.libraries.get? (phraseIndexLibraryIndex token) with
        | none => exact hout.texts _ _
        | some arena => exact (hout.texts _ _).putArena _ (.inr (isSome_iff_exists.mpr ⟨arena, harena⟩))

/-- A mask edits the arenas that are there. -/
theorem edits_mask (entryPerLength reuse : Bool) (mask value : BitVec 32) :
    Edits opens adds s (s.mask entryPerLength reuse mask value).1 := by
  have htexts : Edits opens adds s { s with
      index := s.index.mask entryPerLength mask value, phraseTable := (s.phraseTable.mask reuse mask value).1 } :=
    (Edits.refl s).texts _ _
  unfold SessionState.mask
  dsimp only
  split
  · exact htexts
  · refine List.foldlRecOn _ _ htexts fun t ht entry hentry => Edits.putArena ?_ _ (.inr ?_)
    · exact List.foldlRecOn _ _ ht fun u hu unigram _ => hu.takeItemOut unigram
    · exact (s.libraries.lists.mem_keys entry.1).mp (List.mem_map_of_mem hentry)

theorem edits_compactLibraries : Edits opens adds s s.compactLibraries := by
  refine ⟨rfl, rfl, rfl, ?_, fun nibble hnone => .inl ?_⟩
  · refine List.foldlRecOn _ _ (opens_of_eq rfl) fun items hitems entry _ => ?_
    split_ifs
    · exact hitems
    · exact hitems.trans ((opens_setLibraryTotal _).trans (opens_of_eq rfl))
  · have hlibraries : s.compactLibraries.libraries.get? nibble = (s.libraries.get? nibble).map UserLibrary.compact :=
      congrFun (SortedMap.get?_foldl_insert (fun _ => UserLibrary.compact) s.libraries) nibble
    rw [hlibraries, hnone, map_none]

end SessionState

/-! ## The operations of a store -/

namespace UserStore

variable {store : UserStore SessionState} {entryPerLength reuse : Bool} {opens adds : BitVec 8 → Prop}

/-- A training or predicted step adds to its phrase's frequency, or leaves the phrases. -/
theorem phrases_update {σ φ : Type} (side : PhraseSide σ φ) (store : UserStore σ) (last cur : BitVec 32)
    (policy : SeedPolicy) : (store.update side last cur policy).1.phrases = store.phrases ∨
      ∃ delta, (store.update side last cur policy).1.phrases = (side.addUnigram store.phrases cur delta).1 := by
  unfold update
  dsimp only
  split_ifs
  · exact .inl rfl
  · cases policy with
    | training => exact .inl rfl
    | predicted => exact .inr ⟨_, rfl⟩
  · split
    · exact .inl rfl
    · exact .inr ⟨_, rfl⟩

theorem edits_update (hopens : store.phrases.Opening opens) (last cur : BitVec 32) (policy : SeedPolicy) :
    SessionState.Edits opens adds store.phrases
      (store.update (sessionSide entryPerLength reuse) last cur policy).1.phrases := by
  rcases phrases_update (sessionSide entryPerLength reuse) store last cur policy with hsame | ⟨delta, hadded⟩
  · rw [hsame]
    exact .refl _
  · rw [hadded]
    exact edits_arenaAddUnigramOutcome hopens cur delta

theorem edits_maskOut (mask value : BitVec 32) :
    SessionState.Edits opens adds store.phrases
      (store.maskOut (sessionSide entryPerLength reuse) mask value).1.phrases := by
  unfold maskOut
  split
  · exact .refl _
  · dsimp only
    split
    · exact .refl _
    · split
      · exact edits_mask entryPerLength reuse mask value
      · exact edits_mask entryPerLength reuse mask value

theorem edits_removeUserPhrase (token : BitVec 32) :
    SessionState.Edits opens adds store.phrases
      (store.removeUserPhrase (sessionSide entryPerLength reuse) token).1.phrases := by
  unfold removeUserPhrase
  dsimp only
  split
  · exact .refl _
  · exact .refl _
  · split
    · exact .refl _
    · split
      · exact edits_remove token
      · exact edits_remove token

/-- The operations that load, unload or replace libraries. -/
def Transition : StoreOp → Prop
  | .loadUserLibrary _ _ | .unloadUserLibrary _ | .loadSystemLibraries _ _ _ | .unloadSystemLibraries _
  | .resetSystemLibrary _ => True
  | _ => False

/-- The libraries an operation may give an arena. -/
def Gains (s : SessionState) : StoreOp → BitVec 8 → Prop
  | .addPhraseIn library _ _ _, nibble => nibble = library ∧ s.originals.get? library = none
  | .promoteAddonPhrase _ _ _, nibble => nibble = addonDictionary
  | _, _ => False

/-- An operation that is no transition edits. -/
theorem edits_after {op : StoreOp} (hop : ¬Transition op) (hopens : store.phrases.Opening opens) :
    SessionState.Edits opens (Gains store.phrases op) store.phrases
      (store.after (sessionSide entryPerLength reuse) op).phrases := by
  cases op with
  | addPhraseIn library words keys count => exact edits_addPhraseIn hopens (fun hbare => ⟨rfl, hbare⟩) count
  | promoteAddonPhrase words readings unigram =>
    exact @SessionState.edits_promoteAddonPhrase store.phrases words opens (· = addonDictionary) rfl readings unigram
  | observeSelection last cur => exact edits_update hopens last cur .training
  | observePredicted last cur => exact edits_update hopens last cur .predicted
  | observePredictedPrefix cur => exact edits_arenaAddUnigramOutcome hopens cur _
  | setBigramCount prev cur count => exact .refl _
  | addUnigramFrequency token delta => exact edits_arenaAddUnigramOutcome hopens token delta
  | trainPronunciations token readings seed => exact edits_arenaTrain hopens token readings _
  | maskOut mask value => exact edits_maskOut mask value
  | removeUserPhrase token => exact edits_removeUserPhrase token
  | compactLibraries => exact edits_compactLibraries
  | _ => exact absurd trivial hop

end UserStore

end Oxpinyin
