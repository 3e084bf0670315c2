import Oxpinyin.SessionStore

/-!
# Adding and removing phrases

Adding, promoting and removing change the libraries, the phrase table, the index and the totals
one after the other, and each of the later writes could fail. Every check comes before the
first write : the phrase table's entry is validated by `checkAdd`, and the removals from the
index are made on a copy first. `edits_all_or_nothing` : an operation that does not succeed
leaves the session as it was. A caller that selects a token of another library is the exception
(`strayToken_total`).
-/

namespace Oxpinyin

open Option LittleEndian ChunkFile FiniteMap Replay UserPhraseTable

/-! ## The phrase table -/

namespace UserPhraseTable

variable {phrases : UserPhraseTable} {words : List (BitVec 32)}

/-- An add succeeds where its check does. -/
theorem add_of_check (h : phrases.checkAdd words = .ok ()) (token : BitVec 32) :
    ∃ table answer, phrases.add words token = (table, .ok answer) := by
  rw [checkAdd] at h
  split_ifs at h with hempty
  unfold add
  dsimp only
  rw [if_neg hempty]
  cases hrecord : phrases.table.record (keyUcs4 words) with
  | none => exact ⟨_, _, rfl⟩
  | some bytes =>
    rw [hrecord] at h
    have hvalid : validate bytes = .ok () := h
    simp only [PhraseTableEntry.fromBytes, hvalid, Except.map]
    exact ⟨_, _, rfl⟩

/-- A removal succeeds where the tokens can be read. -/
theorem remove_of_tokens {tokens : List (BitVec 32)} (h : phrases.tokens (keyUcs4 words) = .ok tokens)
    (token : BitVec 32) : ∃ table answer, phrases.remove words token = (table, .ok answer) := by
  unfold remove
  unfold UserPhraseTable.tokens at h
  dsimp only
  cases hrecord : phrases.table.record (keyUcs4 words) with
  | none => exact ⟨_, _, rfl⟩
  | some bytes =>
    rw [hrecord] at h
    obtain ⟨entry, hentry, _⟩ := Run.map_eq_ok h
    simp only [hentry]
    exact ⟨_, _, rfl⟩

end UserPhraseTable

/-! ## Each operation succeeds or leaves the session -/

namespace SessionState

variable {s : SessionState} {library : BitVec 8} {words : List (BitVec 32)} {packed : List (BitVec 16)}
  {delta token : BitVec 32}

/-- Naming a new item succeeds where the phrase table's check did. -/
theorem enlist_of_check (h : s.phraseTable.checkAdd words = .ok ()) (token : BitVec 32)
    (readings : List (List (BitVec 16))) : ∃ table index,
    s.enlist words token readings = ({ s with phraseTable := table, index := index }, .ok token) := by
  obtain ⟨table, answer, hadd⟩ := add_of_check h token
  unfold enlist
  simp only [hadd]
  exact ⟨_, _, rfl⟩

/-- An item's place does not change the phrase table. -/
theorem phraseTable_placed (unigram : BitVec 32) (accepted : Bool) (arena : UserLibrary) :
    ((s.takeItemIn library unigram accepted).putArena library arena).phraseTable = s.phraseTable := by
  obtain ⟨items, hitems⟩ := s.takeItemIn_eq library unigram accepted
  rw [hitems, putArena]

/-- A reading goes into the arena, or the arena is written as it was. -/
theorem addArenaReading_cases :
    (∃ error, s.addArenaReading library words packed delta token = (s, .error error)) ∨
    ((s.item token).isSome ∧ ∃ error, s.addArenaReading library words packed delta token =
      (s.putArena library ((s.libraries.get? library).getD .empty), .error error)) ∨
    ∃ arena, s.addArenaReading library words packed delta token = (s.putArena library arena, .ok token) := by
  unfold addArenaReading
  cases s.item token with
  | none => exact .inl ⟨_, rfl⟩
  | some view =>
    dsimp only
    split_ifs
    · exact .inl ⟨_, rfl⟩
    · cases ((s.libraries.get? library).getD .empty).addReading (token &&& phraseMask) packed delta with
      | error message => exact .inr (.inl ⟨rfl, _, rfl⟩)
      | ok added => exact .inr (.inr ⟨_, rfl⟩)

/-- A phrase goes into the arena and is named there. -/
theorem addArenaPhrase_cases (rangeEnd : Nat) :
    (∃ error, s.addArenaPhrase library words packed delta rangeEnd = (s, .error error)) ∨
    ∃ unigram accepted arena token, s.addArenaPhrase library words packed delta rangeEnd =
      ((s.takeItemIn library unigram accepted).putArena library arena).enlist words token [packed] := by
  unfold addArenaPhrase
  dsimp only
  split
  · exact .inl ⟨_, rfl⟩
  · split
    · exact .inl ⟨_, rfl⟩
    · exact .inr ⟨_, _, _, _, rfl⟩

/-- A reading goes into an item of the live buffer. -/
theorem addBufferReading_cases (original : Baseline) :
    (∃ error, s.addBufferReading original words packed delta token = (s, .error error)) ∨
    ∃ merged, s.addBufferReading original words packed delta token =
      ({ s with items := ((s.items.removeItem original token).1.addItem original token merged).1 }, .ok token) := by
  unfold addBufferReading
  split_ifs
  · exact .inl ⟨_, rfl⟩
  · split
    · exact .inl ⟨_, rfl⟩
    · split
      · exact .inl ⟨_, rfl⟩
      · exact .inr ⟨_, rfl⟩

/-- A phrase goes into the live buffer and is named there. A frequency it does not take is the facade's. -/
theorem addBufferPhrase_cases (original : Baseline) :
    (∃ error, s.addBufferPhrase library original words packed delta = (s, .error error)) ∨
    ∃ bytes items, s.addBufferPhrase library original words packed delta =
        { s with items := items }.enlist words (addPhraseToken library (s.items.rangeEnd library original)) [packed] ∧
      ∀ added, added = ((s.items.addItem original (addPhraseToken library (s.items.rangeEnd library original))
          bytes).1.addUnigram original (addPhraseToken library (s.items.rangeEnd library original)) (delta * 3)).1 →
        items = added ∨ ∃ extra, items = added.addFacadeExtra extra := by
  unfold addBufferPhrase
  dsimp only
  split
  · exact .inl ⟨_, rfl⟩
  · rename_i bytes _
    refine .inr ⟨bytes, _, rfl, fun added hadded => ?_⟩
    subst hadded
    split_ifs
    · exact .inl rfl
    · exact .inr ⟨_, rfl⟩

/-- What an add to a library with a baseline does. -/
inductive BufferAdds (s : SessionState) (library : BitVec 8) (original : Baseline) (words : List (BitVec 32))
    (delta : BitVec 32) (selected : Option (Option (BitVec 32))) :
    SessionState × Except PhraseError (BitVec 32) → Prop
  | refused (error : PhraseError) : BufferAdds s library original words delta selected (s, .error error)
  | reading {packed : List (BitVec 16)} {token : BitVec 32}
    (found : s.existing library words selected = .ok (some token)) :
      BufferAdds s library original words delta selected (s.addBufferReading original words packed delta token)
  | phrase {packed : List (BitVec 16)} (check : s.phraseTable.checkAdd words = .ok ())
      (found : s.existing library words selected = .ok none) :
      BufferAdds s library original words delta selected (s.addBufferPhrase library original words packed delta)

/-- Every way an add to a live buffer ends. -/
theorem bufferAddPhrase_step (original : Baseline) (keys : List (BitVec 16))
    (selected : Option (Option (BitVec 32))) :
    BufferAdds s library original words delta selected (s.bufferAddPhrase library original words keys delta
      selected) := by
  unfold bufferAddPhrase
  split
  · exact .refused _
  · split
    · exact .refused _
    · rename_i hcheck
      split
      · exact .refused _
      · rename_i existing hexisting
        split_ifs
        · exact .refused _
        · cases existing with
          | some token => exact .reading hexisting
          | none => exact .phrase hcheck hexisting

/-- What an add to a library does. -/
inductive ArenaAdds (s : SessionState) (library : BitVec 8) (words : List (BitVec 32)) (keys : List (BitVec 16))
    (delta : BitVec 32) (selected : Option (Option (BitVec 32))) (rangeEnd : Nat) :
    SessionState × Except PhraseError (BitVec 32) → Prop
  | refused (error : PhraseError) : ArenaAdds s library words keys delta selected rangeEnd (s, .error error)
  | buffer {original : Baseline} (based : s.originals.get? library = some original) :
      ArenaAdds s library words keys delta selected rangeEnd
        (s.bufferAddPhrase library original words keys delta selected)
  | reading {packed : List (BitVec 16)} {token : BitVec 32} (bare : s.originals.get? library = none)
      (found : s.existing library words selected = .ok (some token)) :
      ArenaAdds s library words keys delta selected rangeEnd (s.addArenaReading library words packed delta token)
  | phrase {packed : List (BitVec 16)} (check : s.phraseTable.checkAdd words = .ok ())
      (found : s.existing library words selected = .ok none) :
      ArenaAdds s library words keys delta selected rangeEnd (s.addArenaPhrase library words packed delta rangeEnd)

/-- Every way an add to an arena ends. -/
theorem arenaAddPhrase_step (keys : List (BitVec 16)) (selected : Option (Option (BitVec 32))) (rangeEnd : Nat) :
    ArenaAdds s library words keys delta selected rangeEnd
      (s.arenaAddPhrase library words keys delta selected rangeEnd) := by
  unfold arenaAddPhrase
  split
  · rename_i original hbased
    exact .buffer hbased
  · rename_i hbare
    split
    · exact .refused _
    · split
      · exact .refused _
      · rename_i hcheck
        split
        · exact .refused _
        · rename_i hexisting
          exact .reading hbare hexisting
        · rename_i hexisting
          exact .phrase hcheck hexisting

/-- A promotion places the phrase behind its library's range and names it there. -/
theorem arenaPromote_cases (readings : List (List (BitVec 16) × BitVec 64)) (unigram : BitVec 32) :
    (∃ error, s.arenaPromote words readings unigram = (s, .error error)) ∨
    s.phraseTable.checkAdd words = .ok () ∧ ∃ arena token named, s.arenaPromote words readings unigram =
      ((s.takeItemIn addonDictionary unigram false).putArena addonDictionary arena).enlist words token named := by
  unfold arenaPromote
  split
  · exact .inl ⟨_, rfl⟩
  · split
    · exact .inl ⟨_, rfl⟩
    · split
      · exact .inl ⟨_, rfl⟩
      · rename_i hcheck
        dsimp only
        split
        · exact .inl ⟨_, rfl⟩
        · exact .inr ⟨hcheck, _, _, _, rfl⟩

/-- What an operation that answers a token does when it does not succeed. -/
def Spares (s : SessionState) (result : SessionState × Except PhraseError (BitVec 32)) : Prop :=
  ∀ error, result.2 = .error error → result.1 = s

theorem spares_error (error : PhraseError) : s.Spares (s, .error error) := fun _ _ => rfl

variable {t : SessionState}

theorem spares_ok (token : BitVec 32) : s.Spares (t, .ok token) := by
  intro error h
  cases h

theorem spares_enlist (h : t.phraseTable.checkAdd words = .ok ()) (token : BitVec 32)
    (readings : List (List (BitVec 16))) : s.Spares (t.enlist words token readings) := by
  obtain ⟨table, index, hdone⟩ := enlist_of_check h token readings
  rw [hdone]
  exact spares_ok token

/-- Writing an arena over itself. -/
theorem putArena_self {arena : UserLibrary} (h : s.libraries.get? library = some arena) :
    s.putArena library arena = s := by
  have hsame : s.libraries.insert library arena = s.libraries := by
    refine SortedMap.ext ((s.libraries.insert library arena).lists.unique ?_)
    rw [SortedMap.get?_insert, ← h, Function.update_eq_self]
    exact s.libraries.lists
  rw [putArena, hsame]

/-- The item of a token lies in the arena of its library. -/
theorem arena_of_item {view : PhraseItemView} (h : s.item token = some view) :
    ∃ arena, s.libraries.get? (phraseIndexLibraryIndex token) = some arena ∧
      arena.item (token &&& phraseMask) = some view :=
  bind_eq_some_iff.mp h

theorem spares_addArenaReading (h : phraseIndexLibraryIndex token = library) :
    s.Spares (s.addArenaReading library words packed delta token) := by
  rcases addArenaReading_cases with ⟨error, hdone⟩ | ⟨hitem, error, hdone⟩ | ⟨arena, hdone⟩
  · rw [hdone]
    exact spares_error error
  · obtain ⟨view, hview⟩ := isSome_iff_exists.mp hitem
    obtain ⟨arena, harena, _⟩ := arena_of_item hview
    rw [h] at harena
    rw [hdone, harena, getD_some, putArena_self harena]
    exact spares_error error
  · rw [hdone]
    exact spares_ok token

theorem spares_addArenaPhrase (hcheck : s.phraseTable.checkAdd words = .ok ()) (rangeEnd : Nat) :
    s.Spares (s.addArenaPhrase library words packed delta rangeEnd) := by
  rcases addArenaPhrase_cases rangeEnd with ⟨error, hdone⟩ | ⟨unigram, accepted, arena, token, hdone⟩
  · rw [hdone]
    exact spares_error error
  · rw [hdone]
    refine spares_enlist ?_ token _
    rw [phraseTable_placed]
    exact hcheck

theorem spares_addBufferReading (original : Baseline) :
    s.Spares (s.addBufferReading original words packed delta token) := by
  rcases addBufferReading_cases original with ⟨error, hdone⟩ | ⟨merged, hdone⟩
  · rw [hdone]
    exact spares_error error
  · rw [hdone]
    exact spares_ok token

theorem spares_addBufferPhrase (hcheck : s.phraseTable.checkAdd words = .ok ()) (original : Baseline) :
    s.Spares (s.addBufferPhrase library original words packed delta) := by
  rcases addBufferPhrase_cases original with ⟨error, hdone⟩ | ⟨bytes, items, hdone, _⟩
  · rw [hdone]
    exact spares_error error
  · rw [hdone]
    refine spares_enlist ?_ _ _
    exact hcheck

theorem spares_bufferAddPhrase (original : Baseline) (keys : List (BitVec 16))
    (selected : Option (Option (BitVec 32))) :
    s.Spares (s.bufferAddPhrase library original words keys delta selected) := by
  have hstep := @bufferAddPhrase_step s library words delta original keys selected
  generalize s.bufferAddPhrase library original words keys delta selected = result at hstep ⊢
  cases hstep with
  | refused error => exact spares_error error
  | reading found => exact spares_addBufferReading original
  | phrase check found => exact spares_addBufferPhrase check original

variable {selected : Option (Option (BitVec 32))}

/-- A token the search finds is one of the library, and so is one the caller selects. -/
theorem library_of_existing
    (hselected : ∀ token, selected = some (some token) → phraseIndexLibraryIndex token = library)
    (h : s.existing library words selected = .ok (some token)) : phraseIndexLibraryIndex token = library := by
  cases selected with
  | some found =>
    rw [existing] at h
    cases h
    exact hselected token rfl
  | none =>
    unfold existing at h
    cases htokens : s.phraseTable.tokens (keyUcs4 words) with
    | error error =>
      rw [htokens] at h
      cases h
    | ok tokens =>
      simp only [htokens] at h
      split_ifs at h
      have hhead := List.mem_of_mem_head? (Except.ok.inj h)
      simpa using (List.mem_filter.mp hhead).2

theorem spares_arenaAddPhrase (keys : List (BitVec 16))
    (hselected : s.originals.get? library = none →
      ∀ token, selected = some (some token) → phraseIndexLibraryIndex token = library) (rangeEnd : Nat) :
    s.Spares (s.arenaAddPhrase library words keys delta selected rangeEnd) := by
  have hstep := @arenaAddPhrase_step s library words delta keys selected rangeEnd
  generalize s.arenaAddPhrase library words keys delta selected rangeEnd = result at hstep ⊢
  cases hstep with
  | refused error => exact spares_error error
  | buffer based => exact spares_bufferAddPhrase _ keys selected
  | reading bare found => exact spares_addArenaReading (library_of_existing (hselected bare) found)
  | phrase check found => exact spares_addArenaPhrase check rangeEnd

theorem spares_arenaPromote (readings : List (List (BitVec 16) × BitVec 64)) (unigram : BitVec 32) :
    s.Spares (s.arenaPromote words readings unigram) := by
  rcases arenaPromote_cases readings unigram with ⟨error, hdone⟩ | ⟨hcheck, arena, token, named, hdone⟩
  · rw [hdone]
    exact spares_error error
  · rw [hdone]
    refine spares_enlist ?_ token named
    rw [phraseTable_placed]
    exact hcheck

/-- A removal whose checks pass takes the item out of its arena, the phrase table and the index. -/
theorem remove_of_check (h : s.checkRemove token = none) :
    ∃ view item arena table index, s.item token = some view ∧ decodePhraseItem view.bytes = .ok item ∧
      s.libraries.get? (phraseIndexLibraryIndex token) = some arena ∧
      s.remove token = ({ s.takeItemOut (phraseIndexLibraryIndex token) item.unigram with
        phraseTable := table, index := index }.putArena (phraseIndexLibraryIndex token)
          (arena.remove (token &&& phraseMask)).1, none) := by
  unfold checkRemove at h
  cases hitem : s.item token with
  | none =>
    rw [hitem] at h
    cases h
  | some view =>
    obtain ⟨arena, harena, _⟩ := arena_of_item hitem
    simp only [hitem] at h
    cases hdecode : decodePhraseItem view.bytes with
    | error error =>
      rw [hdecode] at h
      cases h
    | ok item =>
      simp only [hdecode] at h
      cases htokens : s.phraseTable.tokens (keyUcs4 item.phrase) with
      | error error =>
        rw [htokens] at h
        cases h
      | ok tokens =>
        simp only [htokens] at h
        split_ifs at h with hmem hreadings
        obtain ⟨items, hitems⟩ := s.takeItemOut_eq (phraseIndexLibraryIndex token) item.unigram
        obtain ⟨table, answer, htable⟩ := remove_of_tokens htokens token
        refine ⟨view, item, arena, table, (removeReadings token s.index (item.prons.map Prod.fst)).1,
          rfl, hdecode, harena, ?_⟩
        unfold remove
        simp only [hitem, bind_some, hdecode, Except.toOption, hitems, htable, hreadings,
          harena, elim_some]
        rfl

end SessionState

/-! ## The operations -/

namespace UserStore

variable {store : UserStore SessionState} {entryPerLength reuse : Bool} {token : BitVec 32}

/-- A removal that does not remove leaves the session. -/
theorem removeUserPhrase_spares
    (hfailed : (store.removeUserPhrase (sessionSide entryPerLength reuse) token).2 ≠ .ok true) :
    (store.removeUserPhrase (sessionSide entryPerLength reuse) token).1 = store := by
  unfold UserStore.removeUserPhrase at hfailed ⊢
  cases hcheck : (sessionSide entryPerLength reuse).checkRemove store.phrases token with
  | some answer =>
    cases answer with
    | ok answer => rfl
    | error fault => rfl
  | none =>
    simp only [hcheck] at hfailed ⊢
    split
    · rfl
    · rename_i hfault
      obtain ⟨view, item, arena, table, index, _, _, _, hremove⟩ := SessionState.remove_of_check hcheck
      have hdone : (sessionSide entryPerLength reuse).remove store.phrases token = _ := hremove
      simp only [hfault, hdone] at hfailed
      exact absurd rfl hfailed

end UserStore

/-- An operation that fails, or a removal that finds nothing to remove, leaves the libraries, the
phrase table, the index, the live buffers and every total as they were. -/
theorem edits_all_or_nothing (entryPerLength reuse : Bool) (store : UserStore SessionState) (library : BitVec 8)
    (original : Replay.Baseline) (words : List (BitVec 32)) (keys : List (BitVec 16)) (delta : BitVec 32)
    (selected : Option (Option (BitVec 32))) (hselected : store.phrases.originals.get? library = none →
      ∀ token, selected = some (some token) → phraseIndexLibraryIndex token = library)
    (rangeEnd : Nat) (readings : List (List (BitVec 16) × BitVec 64)) (unigram token : BitVec 32) :
    store.phrases.Spares (store.phrases.arenaAddPhrase library words keys delta selected rangeEnd) ∧
    store.phrases.Spares (store.phrases.bufferAddPhrase library original words keys delta selected) ∧
    store.phrases.Spares (store.phrases.arenaPromote words readings unigram) ∧
    ((store.removeUserPhrase (sessionSide entryPerLength reuse) token).2 ≠ .ok true →
      (store.removeUserPhrase (sessionSide entryPerLength reuse) token).1 = store) := by
  exact ⟨SessionState.spares_arenaAddPhrase keys hselected rangeEnd,
    SessionState.spares_bufferAddPhrase original keys selected,
    SessionState.spares_arenaPromote readings unigram, UserStore.removeUserPhrase_spares⟩

/-- A session with nothing in it and the three user libraries. -/
def openSession : SessionState where
  libraries := .empty
  index := .new
  unloaded := ∅
  phraseTable := .fromEntries []
  offsets := .empty
  hasLibraryOffsets := false
  items := .new
  originals := .empty
  hasUserLibrary := isUserFileLibrary
  hasOverlongIndexKey := false

/-- A phrase of the user library, and a total the network library's chunk stored with no item. -/
def storedTotal : SessionState :=
  { (openSession.addPhraseIn userDictionary [0x4f60] [214] none).1 with
    offsets := SortedMap.insert .empty networkDictionary 9, hasLibraryOffsets := true }

/-- A second text for the phrase's token is refused, and a removal of a token nobody holds. -/
theorem edits_storedTotal :
    (storedTotal.arenaAddPhrase userDictionary [0x597d] [214] 5 (some (some 0x07000001)) 1).2.isOk = false ∧
    storedTotal.Spares (storedTotal.arenaAddPhrase userDictionary [0x597d] [214] 5 (some (some 0x07000001)) 1) ∧
    storedTotal.Spares (storedTotal.bufferAddPhrase userDictionary ⟨⟨0, 1, [], none⟩, false⟩ [0x597d] [214] 5
      (some (some 0x07000001))) ∧
    storedTotal.Spares (storedTotal.arenaPromote [0x597d] [([214], 1)] 5) ∧
    ((UserStore.removeUserPhrase (sessionSide false false) ⟨storedTotal, .empty⟩ 0x07000002).2 ≠ .ok true →
      (UserStore.removeUserPhrase (sessionSide false false) ⟨storedTotal, .empty⟩ 0x07000002).1 =
        ⟨storedTotal, .empty⟩) :=
  ⟨by decide +kernel, edits_all_or_nothing false false ⟨storedTotal, .empty⟩ userDictionary ⟨⟨0, 1, [], none⟩, false⟩
    [0x597d] [214] 5 (some (some 0x07000001))
    (fun _ token htoken => by
      obtain rfl : 0x07000001 = token := Option.some.inj (Option.some.inj htoken)
      decide)
    1 [([214], 1)] 5 0x07000002⟩

/-- The user phrase's token, selected for the network library : the failed add leaves that
library an empty arena, and its total is no longer the stored one. -/
theorem strayToken_total :
    (storedTotal.arenaAddPhrase networkDictionary [0x4f60] [214] 5 (some (some 0x07000001)) 1).2.isOk = false ∧
    storedTotal.libraryTotalOf networkDictionary = 9 ∧
    (storedTotal.arenaAddPhrase networkDictionary [0x4f60] [214] 5 (some (some 0x07000001)) 1).1.libraryTotalOf
      networkDictionary = 0 := by
  decide +kernel

end Oxpinyin
