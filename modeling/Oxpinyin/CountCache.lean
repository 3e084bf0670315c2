import Oxpinyin.UnloadedLibraries

/-!
# The gate and the memo in front of the user bigram

A session answers its bigram counts behind a flag, and through a memo of the grams it has read.
Each write that commits sets the flag from what it leaves, moves the write generation and drops
the memo. A memo of an older generation is not read. `counts_run` : in every state of a session a
closed flag means an empty container, and the counts read are those of the gram the container
holds.
-/

namespace Oxpinyin

open List Option LittleEndian ChunkFile FiniteMap Replay Run SingleGram SortedMap Bool

/-! ## The memo -/

/-- The grams read since the last write, with the generation of that write. -/
structure CountCache where
  generation : BitVec 64
  bigramRows : SortedMap (BitVec 32) Bytes

/-- A full memo starts over. -/
def countMemoMaxEntries : Nat := 8192

def memoInsert (map : SortedMap (BitVec 32) Bytes) (key : BitVec 32) (value : Bytes) :
    SortedMap (BitVec 32) Bytes :=
  (if countMemoMaxEntries ≤ map.entries.length then .empty else map).insert key value

namespace CountCache

def new (generation : BitVec 64) : CountCache := ⟨generation, .empty⟩

/-- A predecessor's gram, loaded where the memo has none. Only a gram that is there is kept. -/
def bigramRow (cache : CountCache) (prev : BitVec 32) (load : Option Bytes) : CountCache × Option Bytes :=
  if (cache.bigramRows.get? prev).isSome then (cache, cache.bigramRows.get? prev)
  else
    match load with
    | none => (cache, none)
    | some row =>
      let rows := memoInsert cache.bigramRows prev row
      ({ cache with bigramRows := rows }, rows.get? prev)

end CountCache

/-! ## The gated session -/

/-- A session with its gate, its write generation and its memo. -/
structure GatedStore where
  store : UserStore SessionState
  /-- Some live buffer may hold an item. -/
  hasSystemItems : Bool
  hasUserData : Bool
  writeGeneration : BitVec 64
  countCache : Option CountCache

/-- The user's part of a score. The live frequency of a system item is no part of it here. -/
structure UserCountDelta where
  bigramCount : BitVec 64
  bigramTotal : BitVec 64
  unigramDelta : BitVec 64
  unigramTotalDelta : BitVec 64

/-- Some library has an item. -/
def SessionState.arenaLive (s : SessionState) : Bool :=
  s.libraries.entries.any fun entry => !entry.2.isEmpty

/-- An item beyond the shipped chunks : in a user library, or added to a live buffer. -/
def SessionState.arenaHasItems (s : SessionState) : Bool := s.arenaLive || s.items.hasAdded

/-- A gram's count of a token and its total, zero where there is none. -/
def gramCounts (gram : Option Bytes) (token : BitVec 32) : BitVec 64 × BitVec 64 :=
  gram.elim (0, 0) fun gram =>
    (((getFreq gram token).map (BitVec.setWidth 64)).getD 0, ((getTotalFreq gram).map (BitVec.setWidth 64)).getD 0)

namespace GatedStore

/-- A session as it is opened : a bigram file counts as user data, whatever it holds. -/
def open_ (phrases : SessionState) (bigramFile : Option Container) : GatedStore where
  store := ⟨phrases, bigramFile.getD .empty⟩
  hasSystemItems := !phrases.items.replayed.entries.isEmpty
  hasUserData := phrases.items.hasAdded || bigramFile.isSome || phrases.arenaLive
  writeGeneration := 0
  countCache := none

variable (s : GatedStore)

/-- The gram of a predecessor, behind the gate. -/
def bigramRow (prev : BitVec 32) : Option Bytes :=
  if s.hasUserData then s.store.container.gram prev else none

/-- Reads through the memo. One of another generation is dropped first. -/
def withCountCache {α : Type} (read : CountCache → CountCache × α) : GatedStore × α :=
  let current := (s.countCache.filter fun cached => cached.generation = s.writeGeneration).getD
    (.new s.writeGeneration)
  let out := read current
  ({ s with countCache := some out.1 }, out.2)

def withLiveItem (token : BitVec 32) : Option Bytes :=
  if s.hasSystemItems then s.store.phrases.items.withLive token else none

/-- An item a live buffer holds and its chunk lacks. -/
def withAppendedItem (token : BitVec 32) : Option PhraseItemView :=
  (s.store.phrases.originals.get? (phraseIndexLibraryIndex token)).bind fun original =>
    if original.isDetached then
      -- the chunk's bytes are the buffer's, which alone knows what the chunk did not hold
      if s.hasSystemItems then (s.store.phrases.items.withAdded token).bind PhraseItemView.fromBytes else none
    else if original.containsItem (token &&& phraseMask) then none
    else (s.withLiveItem token).bind PhraseItemView.fromBytes

/-- The item of an arena, or one a live buffer was added. -/
def withUserItem (token : BitVec 32) : Option PhraseItemView :=
  match s.store.phrases.item token with
  | some view => some view
  | none => s.withAppendedItem token

/-- What a user item adds to a token's frequency. -/
def unigramDelta (token : BitVec 32) : BitVec 64 :=
  (s.withUserItem token).elim 0 fun view => view.unigram.setWidth 64

/-- The user's part of the score of a token behind another. -/
def countDelta (prev : Option (BitVec 32)) (token : BitVec 32) : GatedStore × UserCountDelta :=
  let counts := match prev with
    | some prev =>
      if s.hasUserData then
        s.withCountCache fun cached =>
          let row := cached.bigramRow prev (s.store.container.gram prev)
          (row.1, gramCounts row.2 token)
      else (s, (0, 0))
    | none => (s, (0, 0))
  (counts.1,
    { bigramCount := counts.2.1
      bigramTotal := counts.2.2
      unigramDelta := s.unigramDelta token
      unigramTotalDelta := s.store.phrases.items.facadeExtra })

/-- A write is done : the gate is set, the generation moves and the memo goes. -/
def markCommittedWrite (hasUserData : Bool) : GatedStore :=
  { s with hasUserData := hasUserData, writeGeneration := s.writeGeneration + 1, countCache := none }

end GatedStore

/-! ## What each write sets the gate to -/

namespace UserStore

variable (side : PhraseSide SessionState PhraseError) (store : UserStore SessionState)

/-- A write that opens the gate where it succeeds. -/
def onSuccess {ε α : Type} : Except ε α → Option Bool
  | .ok _ => some true
  | .error _ => none

/-- A training or predicted step commits unless it is refused before its first write. -/
def updateCommits (last cur : BitVec 32) (policy : SeedPolicy) : Option Bool :=
  let row := store.container.gram last
  if row.any hasPartialTail then none
  else if row.any fun gram => gram.length < totalLen then
    match policy with
    | .training => none
    | .predicted => some true
  else
    onSuccess (updateGram row cur policy : Except (UserStoreError PhraseError) _)

/-- The gate a write's commit sets, none where nothing is committed. -/
def commits : StoreOp → Option Bool
  | .addPhraseIn library words keys count => onSuccess (store.phrases.addPhraseIn library words keys count).2
  | .promoteAddonPhrase words readings unigram =>
    onSuccess (store.phrases.promoteAddonPhrase words readings unigram).2
  | .observeSelection last cur => store.updateCommits last cur .training
  | .observePredicted last cur => store.updateCommits last cur .predicted
  | .observePredictedPrefix _ => some true
  | .setBigramCount prev cur count => onSuccess (setBigramCount store.container prev cur count)
  | .addUnigramFrequency _ _ => none
  | .trainPronunciations token _ _ =>
    if phraseIndexLibraryIndex token ∈ store.phrases.unloaded then none else some true
  | .maskOut mask value =>
    let masked := store.maskOut side mask value
    match masked.2 with
    | .ok _ =>
      let gramsLeft := (store.container.maskGramsOver store.container.keys mask value).2
      some (gramsLeft || masked.1.phrases.arenaHasItems)
    | .error _ => none
  | .removeUserPhrase token =>
    let removed := store.removeUserPhrase side token
    match removed.2 with
    | .ok true =>
      let gramsLeft := (store.container.maskGramsOver store.container.keys tokenMask token).2
      some (removed.1.phrases.arenaLive || gramsLeft)
    | _ => none
  | .loadUserLibrary library payload =>
    if store.phrases.hasUserLibrary library then
      some ((store.phrases.loadUserLibrary library payload).arenaLive || !store.container.entries.isEmpty)
    else none
  | .unloadUserLibrary library =>
    if store.phrases.hasUserLibrary library then
      some ((store.phrases.unloadUserLibrary library).arenaLive || !store.container.entries.isEmpty)
    else none
  | .loadSystemLibraries originals replayed totals =>
    some (!store.container.entries.isEmpty ||
      (store.phrases.replaceSystemLibraries originals replayed totals).arenaHasItems)
  | .unloadSystemLibraries originals =>
    some (!store.container.entries.isEmpty || (store.phrases.unloadSystemLibraries originals).arenaHasItems)
  | .resetSystemLibrary nibble =>
    if 16 ≤ nibble then none
    else some (!store.container.entries.isEmpty || (store.phrases.resetSystemLibrary nibble).arenaHasItems)
  | .compactLibraries => none

end UserStore

/-- A write or a read of a session. A write is given with where it leaves the flag of the live buffers. -/
inductive SessionOp where
  | write (op : StoreOp) (hasSystemItems : Bool)
  | countDelta (prev : Option (BitVec 32)) (token : BitVec 32)
  | bigramRow (prev : BitVec 32)

/-- The session after a write or a read. -/
def GatedStore.after (side : PhraseSide SessionState PhraseError) (s : GatedStore) : SessionOp → GatedStore
  | .write op hasSystemItems =>
    let written := { s with store := s.store.after side op, hasSystemItems := hasSystemItems }
    (s.store.commits side op).elim written written.markCommittedWrite
  | .countDelta prev token => (s.countDelta prev token).1
  | .bigramRow _ => s

/-! ## A mask that leaves nothing -/

namespace Container

variable {mask value : BitVec 32} {state : Container × Bool}

/-- A key of a mask : the flag once set stays, no gram is made, and the key is gone where the
flag stays down. -/
theorem maskKey_spec (mask value : BitVec 32) (state : Container × Bool) (key : Option (BitVec 32))
    (h : (maskKey mask value state key).2 = false) :
    state.2 = false ∧ (∀ bytes, get? state.1 bytes = none →
      get? (maskKey mask value state key).1 bytes = none) ∧
    ∃ prev, key = some prev ∧ get? (maskKey mask value state key).1 (le32 prev) = none := by
  have herase : ∀ prev, (∀ bytes, get? state.1 bytes = none →
      get? (state.1.erase (le32 prev)) bytes = none) ∧
      get? (state.1.erase (le32 prev)) (le32 prev) = none := by
    intro prev
    rw [get?_erase]
    refine ⟨fun bytes hbytes => ?_, Function.update_self ..⟩
    rw [Function.update_apply, hbytes, ite_self]
  cases key with
  | none => cases h
  | some prev =>
    unfold maskKey at h ⊢
    dsimp only at h ⊢
    by_cases hselected : prev &&& mask = value
    · rw [if_pos hselected] at h ⊢
      exact ⟨h, (herase prev).1, prev, rfl, (herase prev).2⟩
    · rw [if_neg hselected] at h ⊢
      cases hgram : get? state.1 (le32 prev) with
      | none =>
        rw [hgram] at h
        exact ⟨h, fun _ hbytes => hbytes, prev, rfl, hgram⟩
      | some gram =>
        rw [hgram] at h
        dsimp only at h ⊢
        by_cases hkept : (SingleGram.maskOut gram mask value).2 = 0
        · rw [if_pos hkept] at h
          cases h
        · rw [if_neg hkept] at h ⊢
          by_cases hempty : getLength (SingleGram.maskOut gram mask value).1 = 0
          · rw [if_pos hempty] at h ⊢
            exact ⟨h, (herase prev).1, prev, rfl, (herase prev).2⟩
          · rw [if_neg hempty] at h
            cases h

/-- A mask that leaves no row has emptied every key. -/
theorem foldl_maskKey_left (keys : List (Option (BitVec 32))) : ∀ state : Container × Bool,
    (keys.foldl (maskKey mask value) state).2 = false →
    (∀ bytes, get? state.1 bytes = none → get? (keys.foldl (maskKey mask value) state).1 bytes = none) ∧
      ∀ key ∈ keys, ∃ prev, key = some prev ∧
        get? (keys.foldl (maskKey mask value) state).1 (le32 prev) = none := by
  induction keys with
  | nil => exact fun state _ => ⟨fun _ h => h, fun _ hkey => absurd hkey not_mem_nil⟩
  | cons key keys ih =>
    intro state hflag
    rw [foldl_cons] at hflag ⊢
    obtain ⟨hnone, hkeys⟩ := ih _ hflag
    have hdown : (maskKey mask value state key).2 = false := by
      by_contra hup
      rw [not_eq_false] at hup
      have hstays : ∀ (rest : List (Option (BitVec 32))) (state : Container × Bool), state.2 = true →
          (rest.foldl (maskKey mask value) state).2 = true := by
        intro rest
        induction rest with
        | nil => exact fun _ h => h
        | cons first rest ih =>
          intro state h
          refine ih _ ?_
          by_contra hfirst
          rw [(maskKey_spec mask value state first (eq_false_of_ne_true hfirst)).1] at h
          cases h
      rw [hstays keys _ hup] at hflag
      cases hflag
    obtain ⟨_, hbefore, prev, rfl, hprev⟩ := maskKey_spec mask value state key hdown
    refine ⟨fun bytes hbytes => hnone bytes (hbefore bytes hbytes), fun other hother => ?_⟩
    rcases mem_cons.mp hother with rfl | hother
    · exact ⟨prev, rfl, hnone _ hprev⟩
    · exact hkeys other hother

/-- A mask that reports no gram left has emptied the container. -/
theorem entries_maskGramsOver {container : Container}
    (h : (container.maskGramsOver container.keys mask value).2 = false) :
    (container.maskGramsOver container.keys mask value).1.entries = [] := by
  obtain ⟨hnone, hkeys⟩ := foldl_maskKey_left container.keys (container, false) h
  rw [eq_nil_iff_forall_not_mem]
  intro entry hentry
  have hget := ((lists (container.maskGramsOver container.keys mask value).1).mem entry.1 entry.2).mp hentry
  cases hbefore : get? container entry.1 with
  | none =>
    rw [show get? (container.maskGramsOver container.keys mask value).1 entry.1 = none from
      hnone entry.1 hbefore] at hget
    cases hget
  | some gram =>
    have hmem := ((lists container).mem entry.1 gram).mpr hbefore
    obtain ⟨prev, hprev, hgone⟩ := hkeys _ (mem_map_of_mem hmem)
    dsimp only at hprev
    split_ifs at hprev with hlength
    · rw [← some.inj hprev, le32_word32 hlength] at hgone
      rw [show get? (container.maskGramsOver container.keys mask value).1 entry.1 = none from hgone] at hget
      cases hget

end Container

/-! ## Writes and reads -/

namespace UserStore

variable {entryPerLength reuse : Bool} {store : UserStore SessionState}

/-- A write that commits nothing leaves the container, and one that closes the gate leaves it
empty. -/
def Tells (container : Container) (commit : Option Bool) (after : Container) : Prop :=
  (commit = none → after = container) ∧ (commit = some false → after.entries = [])

variable {container : Container}

theorem tells_same {commit : Option Bool}
    (h : commit = some false → container.entries = []) : Tells container commit container :=
  ⟨fun _ => rfl, h⟩

theorem tells_open {after : Container} : Tells container (some true) after :=
  ⟨fun h => absurd h (some_ne_none _), fun h => absurd (some.inj h) true_eq_false.mp⟩

/-- A gate that counts the grams is open where there are any. -/
theorem tells_counted {live : Bool} :
    Tells container (some (live || !container.entries.isEmpty)) container := by
  refine tells_same fun h => ?_
  have hor := some.inj h
  rw [or_eq_false_iff, not_eq_false', List.isEmpty_iff] at hor
  exact hor.2

theorem onSuccess_ne {ε α : Type} (result : Except ε α) : onSuccess result ≠ some false := by
  cases result with
  | ok a => exact fun h => by cases h
  | error error => exact fun h => by cases h

section

variable (side : PhraseSide SessionState PhraseError)

theorem tells_update (last cur : BitVec 32) (policy : SeedPolicy) :
    Tells store.container (store.updateCommits last cur policy) (store.update side last cur policy).1.container := by
  unfold updateCommits update
  dsimp only
  split_ifs
  · exact tells_same fun h => by cases h
  · cases policy with
    | training => exact tells_same fun h => by cases h
    | predicted => exact tells_open
  · cases (updateGram (store.container.gram last) cur policy : Except (UserStoreError PhraseError) _) with
    | error error => exact tells_same fun h => by cases h
    | ok stepped => exact tells_open

/-- A mask fails and leaves the container, or masks it. -/
theorem maskOut_cases (mask value : BitVec 32) :
    (∃ error, (store.maskOut side mask value).2 = .error error ∧
      (store.maskOut side mask value).1.container = store.container) ∨
    ((store.maskOut side mask value).2 = .ok () ∧ (store.maskOut side mask value).1.container =
      (store.container.maskGramsOver store.container.keys mask value).1) := by
  unfold maskOut
  split
  · exact .inl ⟨_, rfl, rfl⟩
  · dsimp only
    split
    · exact .inl ⟨_, rfl, rfl⟩
    · split
      · exact .inl ⟨_, rfl, rfl⟩
      · exact .inr ⟨rfl, rfl⟩

/-- A removal ends early or fails and leaves the container, or masks it. -/
theorem removeUserPhrase_cases (token : BitVec 32) :
    (∃ answer, side.checkRemove store.phrases token = some (.ok answer) ∧
      store.removeUserPhrase side token = (store, .ok answer)) ∨
    (∃ error, (store.removeUserPhrase side token).2 = .error error ∧
      (store.removeUserPhrase side token).1.container = store.container) ∨
    ((store.removeUserPhrase side token).2 = .ok true ∧ (store.removeUserPhrase side token).1.container =
      (store.container.maskGramsOver store.container.keys tokenMask token).1) := by
  unfold removeUserPhrase
  dsimp only
  split
  · rename_i answer hcheck
    exact .inl ⟨answer, hcheck, rfl⟩
  · exact .inr (.inl ⟨_, rfl, rfl⟩)
  · split
    · exact .inr (.inl ⟨_, rfl, rfl⟩)
    · split
      · exact .inr (.inl ⟨_, rfl, rfl⟩)
      · exact .inr (.inr ⟨rfl, rfl⟩)

theorem tells_maskOut (mask value : BitVec 32) :
    Tells store.container (store.commits side (.maskOut mask value)) (store.maskOut side mask value).1.container := by
  unfold commits
  dsimp only
  rcases @maskOut_cases store side mask value with ⟨error, hresult, hcontainer⟩ | ⟨hresult, hcontainer⟩
  · rw [hresult, hcontainer]
    exact tells_same fun h => absurd h (some_ne_none _).symm
  · rw [hresult, hcontainer]
    refine ⟨fun h => absurd h (some_ne_none _), fun h => ?_⟩
    exact Container.entries_maskGramsOver (or_eq_false_iff.mp (some.inj h)).1

end

/-- A removal that ends early has removed nothing. -/
theorem checkRemove_answer {s : SessionState} {token : BitVec 32} {answer : Bool}
    (h : s.checkRemove token = some (.ok answer)) : answer = false := by
  unfold SessionState.checkRemove at h
  split at h
  · exact (Except.ok.inj (some.inj h)).symm
  · split at h
    · cases h
    · split at h
      · cases h
      · split at h
        · exact (Except.ok.inj (some.inj h)).symm
        · split at h
          · cases h
          · cases h

theorem tells_removeUserPhrase (token : BitVec 32) :
    Tells store.container (store.commits (sessionSide entryPerLength reuse) (.removeUserPhrase token))
      (store.removeUserPhrase (sessionSide entryPerLength reuse) token).1.container := by
  unfold commits
  dsimp only
  rcases @removeUserPhrase_cases store (sessionSide entryPerLength reuse) token with
    ⟨answer, hcheck, hresult⟩ | ⟨error, hresult, hcontainer⟩ | ⟨hresult, hcontainer⟩
  · rw [hresult, checkRemove_answer hcheck]
    exact tells_same fun h => absurd h (some_ne_none _).symm
  · rw [hresult, hcontainer]
    exact tells_same fun h => absurd h (some_ne_none _).symm
  · rw [hresult, hcontainer]
    refine ⟨fun h => absurd h (some_ne_none _), fun h => ?_⟩
    exact Container.entries_maskGramsOver (or_eq_false_iff.mp (some.inj h)).2

theorem tells_setBigramCount (side : PhraseSide SessionState PhraseError) (prev cur : BitVec 32) (count : BitVec 64) :
    Tells store.container (store.commits side (.setBigramCount prev cur count))
      (store.after side (.setBigramCount prev cur count)).container := by
  unfold commits after
  dsimp only
  cases setBigramCount store.container prev cur count with
  | error error => exact tells_same fun h => absurd h (some_ne_none _).symm
  | ok container => exact tells_open

/-- Every write tells what it leaves of the container. -/
theorem tells_after (op : StoreOp) :
    Tells store.container (store.commits (sessionSide entryPerLength reuse) op)
      (store.after (sessionSide entryPerLength reuse) op).container := by
  have hquiet : ∀ {container : Container} {commit : Option Bool}, commit ≠ some false →
      Tells container commit container := fun h => tells_same fun hclosed => absurd hclosed h
  have hlibrary : ∀ {p : Prop} [Decidable p] {live : Bool} {container : Container},
      Tells container (if p then some (live || !container.entries.isEmpty) else none) container := by
    intro p _ live container
    split_ifs
    · exact tells_counted
    · exact hquiet fun h => by cases h
  have hsystem : ∀ {live : Bool} {container : Container},
      Tells container (some (!container.entries.isEmpty || live)) container := by
    intro live container
    rw [Bool.or_comm]
    exact tells_counted
  cases op with
  | addPhraseIn library words keys count => exact hquiet (onSuccess_ne _)
  | promoteAddonPhrase words readings unigram => exact hquiet (onSuccess_ne _)
  | observeSelection last cur => exact tells_update _ last cur .training
  | observePredicted last cur => exact tells_update _ last cur .predicted
  | observePredictedPrefix cur => exact tells_open
  | setBigramCount prev cur count => exact tells_setBigramCount _ prev cur count
  | addUnigramFrequency token delta => exact hquiet fun h => by cases h
  | trainPronunciations token readings seed =>
    refine hquiet ?_
    change (if phraseIndexLibraryIndex token ∈ store.phrases.unloaded then none else some true) ≠ some false
    split_ifs
    · exact fun h => by cases h
    · exact fun h => by cases h
  | maskOut mask value => exact tells_maskOut _ mask value
  | removeUserPhrase token => exact tells_removeUserPhrase token
  | loadUserLibrary library payload => exact hlibrary
  | unloadUserLibrary library => exact hlibrary
  | loadSystemLibraries originals replayed totals => exact hsystem
  | unloadSystemLibraries originals => exact hsystem
  | resetSystemLibrary nibble =>
    change Tells store.container (if 16 ≤ nibble then none else some _) _
    split_ifs
    · exact hquiet fun h => by cases h
    · exact hsystem
  | compactLibraries => exact hquiet fun h => by cases h

end UserStore

/-- A memo's grams are the container's. -/
def CountCache.Rows (cache : CountCache) (container : Container) : Prop :=
  ∀ prev row, cache.bigramRows.get? prev = some row → container.gram prev = some row

theorem CountCache.rows_new (generation : BitVec 64) (container : Container) : (new generation).Rows container :=
  fun _ _ h => by cases h

theorem get?_memoInsert (map : SortedMap (BitVec 32) Bytes) (key : BitVec 32) (value : Bytes) :
    (memoInsert map key value).get? key = some value ∧
    ∀ k row, (memoInsert map key value).get? k = some row → k = key ∧ row = value ∨ map.get? k = some row := by
  unfold memoInsert
  rw [get?_insert]
  refine ⟨Function.update_self .., fun k row hrow => ?_⟩
  rw [Function.update_apply] at hrow
  by_cases hk : k = key
  · rw [if_pos hk] at hrow
    exact .inl ⟨hk, (some.inj hrow).symm⟩
  · rw [if_neg hk] at hrow
    split_ifs at hrow
    · cases hrow
    · exact .inr hrow

/-- A read through the memo answers the container's gram, and keeps the memo to its grams. -/
theorem CountCache.Rows.bigramRow {cache : CountCache} {container : Container} (h : cache.Rows container)
    (prev : BitVec 32) :
    (cache.bigramRow prev (container.gram prev)).2 = container.gram prev ∧
      (cache.bigramRow prev (container.gram prev)).1.Rows container := by
  unfold CountCache.bigramRow
  cases hrow : cache.bigramRows.get? prev with
  | some row => exact ⟨(h prev row hrow).symm, h⟩
  | none =>
    cases hgram : container.gram prev with
    | none => exact ⟨rfl, h⟩
    | some gram =>
      obtain ⟨hself, hother⟩ := get?_memoInsert cache.bigramRows prev gram
      refine ⟨hself, fun other row hrow => ?_⟩
      rcases hother other row hrow with ⟨rfl, rfl⟩ | hbefore
      · exact hgram
      · exact h other row hbefore

namespace GatedStore

variable {s : GatedStore} {entryPerLength reuse : Bool}

/-- A closed gate hides nothing, and a memo of the current generation tells the truth. -/
structure Coherent (s : GatedStore) : Prop where
  gate : s.hasUserData = false → s.store.container.entries = []
  memo : ∀ cache ∈ s.countCache, cache.generation = s.writeGeneration → cache.Rows s.store.container

theorem coherent_open (phrases : SessionState) (bigramFile : Option Container) :
    (open_ phrases bigramFile).Coherent := by
  refine ⟨fun hgate => ?_, fun cache hcache => by cases hcache⟩
  cases bigramFile with
  | none => rfl
  | some container =>
    have hopen : (phrases.items.hasAdded || true || phrases.arenaLive) = false := hgate
    rw [Bool.or_true, Bool.true_or] at hopen
    cases hopen

theorem gram_of_entries {container : Container} (h : container.entries = []) (prev : BitVec 32) :
    container.gram prev = none := by
  rw [Container.gram, get?, h]
  rfl

theorem Coherent.bigramRow (h : s.Coherent) (prev : BitVec 32) : s.bigramRow prev = s.store.container.gram prev := by
  unfold GatedStore.bigramRow
  split_ifs with hgate
  · rfl
  · exact (gram_of_entries (h.gate (eq_false_of_ne_true hgate)) prev).symm

/-- The memo a read goes through. -/
theorem Coherent.current (h : s.Coherent) :
    ((s.countCache.filter fun cached => cached.generation = s.writeGeneration).getD (.new s.writeGeneration)).Rows
      s.store.container := by
  cases hcache : s.countCache with
  | none => exact CountCache.rows_new _ _
  | some cache =>
    by_cases hgeneration : cache.generation = s.writeGeneration
    · rw [filter_some, if_pos (decide_eq_true hgeneration), getD_some]
      exact h.memo cache hcache hgeneration
    · rw [filter_some, if_neg fun h => hgeneration (of_decide_eq_true h), getD_none]
      exact CountCache.rows_new _ _

/-- A score's counts are those of the gram that is there, and the read leaves a coherent
session. -/
theorem Coherent.countDelta (h : s.Coherent) (prev : Option (BitVec 32)) (token : BitVec 32) :
    (s.countDelta prev token).1.Coherent ∧
      ((s.countDelta prev token).2.bigramCount, (s.countDelta prev token).2.bigramTotal) =
        gramCounts (prev.bind s.store.container.gram) token := by
  cases prev with
  | none => exact ⟨h, rfl⟩
  | some prev =>
    unfold GatedStore.countDelta
    dsimp only
    cases hgate : s.hasUserData with
    | false =>
      rw [if_neg Bool.false_ne_true, bind_some, gram_of_entries (h.gate hgate) prev]
      exact ⟨h, rfl⟩
    | true =>
      rw [if_pos rfl]
      obtain ⟨hrow, hafter⟩ := h.current.bigramRow prev
      refine ⟨⟨fun hclosed => ?_, fun cache hcache _ => ?_⟩, ?_⟩
      · exact h.gate hclosed
      · obtain rfl := some.inj hcache
        exact hafter
      · exact congrArg (fun gram => gramCounts gram token) hrow

/-- Every write and every read leaves a coherent session. -/
theorem Coherent.after (h : s.Coherent) (op : SessionOp) :
    (s.after (sessionSide entryPerLength reuse) op).Coherent := by
  cases op with
  | bigramRow prev => exact h
  | countDelta prev token => exact (h.countDelta prev token).1
  | write op hasSystemItems =>
    have htells := @UserStore.tells_after entryPerLength reuse s.store op
    unfold GatedStore.after
    dsimp only
    cases hcommit : s.store.commits (sessionSide entryPerLength reuse) op with
    | none =>
      have hsame := htells.1 hcommit
      refine ⟨fun hgate => ?_, fun cache hcache hgeneration => ?_⟩
      · exact (congrArg entries hsame).trans (h.gate hgate)
      · have hrows := h.memo cache hcache hgeneration
        rw [← hsame] at hrows
        exact hrows
    | some open_ =>
      refine ⟨fun hgate => ?_, fun cache hcache => by cases hcache⟩
      have hclosed : open_ = false := hgate
      rw [hclosed] at hcommit
      exact htells.2 hcommit

end GatedStore

/-- In every state a session reaches, whatever it writes and reads : while the gate is closed the
container holds no gram, the gated gram of a predecessor is the container's, and a score's counts
are the count and the total of the gram the container holds at that moment, zero where it holds
none. -/
theorem counts_run (entryPerLength reuse : Bool) (phrases : SessionState) (bigramFile : Option Container)
    (ops : List SessionOp) :
    ∀ s ∈ states (GatedStore.after (sessionSide entryPerLength reuse)) (GatedStore.open_ phrases bigramFile) ops,
      (s.hasUserData = false → s.store.container.entries = []) ∧
      (∀ prev, s.bigramRow prev = s.store.container.gram prev) ∧
      ∀ prev token, ((s.countDelta prev token).2.bigramCount, (s.countDelta prev token).2.bigramTotal) =
        gramCounts (prev.bind s.store.container.gram) token := by
  intro s hs
  have hcoherent : s.Coherent :=
    @forall_states _ _ _ GatedStore.Coherent (fun _ _ => True) (fun _ op h _ => h.after op) ops _
      (GatedStore.coherent_open phrases bigramFile) (along_true ops _) s hs
  exact ⟨hcoherent.gate, hcoherent.bigramRow, fun prev token => (hcoherent.countDelta prev token).2⟩

/-- A session that reads a gram before and between two trainings of it. -/
def trainedSession : GatedStore :=
  [.countDelta (some 1) 2, .write (.observeSelection 1 2) false, .countDelta (some 1) 2,
    .write (.observeSelection 1 2) false].foldl
    (GatedStore.after (sessionSide false false)) (.open_ openSession none)

theorem counts_trainedSession :
    (trainedSession.hasUserData = false → trainedSession.store.container.entries = []) ∧
    (∀ prev, trainedSession.bigramRow prev = trainedSession.store.container.gram prev) ∧
    ((trainedSession.countDelta (some 1) 2).2.bigramCount, (trainedSession.countDelta (some 1) 2).2.bigramTotal) =
      (207, 207) := by
  have hmem : trainedSession ∈ states (GatedStore.after (sessionSide false false)) (.open_ openSession none)
      [.countDelta (some 1) 2, .write (.observeSelection 1 2) false, .countDelta (some 1) 2,
        .write (.observeSelection 1 2) false] :=
    List.mem_cons_of_mem _ (List.mem_cons_of_mem _ (List.mem_cons_of_mem _
      (List.mem_cons_of_mem _ List.mem_cons_self)))
  have hgram : gramCounts (trainedSession.store.container.gram 1) 2 = (207, 207) := by decide +kernel
  obtain ⟨hgate, hrow, hcounts⟩ := counts_run false false openSession none _ trainedSession hmem
  exact ⟨hgate, hrow, (hcounts (some 1) 2).trans hgram⟩

end Oxpinyin
