import Oxpinyin.LibraryEdits

/-!
# Unloaded libraries

What the mark of an unloaded library is worth. Unloading a library takes its arena away and marks
it, a load clears the mark, and training looks at the mark before its first write
(`arenaTrain_of_unloaded`, `arenaAddUnigramOutcome_of_unloaded`). Adding and promoting do not look
: `unloadedRun_arena` unloads a library and adds a phrase to it.
`unloaded_run` : a run with no such write keeps every marked library without an arena, and each
operation aimed at one leaves the phrases as they are.
-/

namespace Oxpinyin

open Function Option LittleEndian ChunkFile FiniteMap Replay Run SortedMap SessionState Finset

/-! ## What an operation leaves -/

namespace SessionState

variable {s t : SessionState} {nibble : BitVec 8}

/-- A marked library has no arena. -/
def NoArena (s : SessionState) : Prop := ∀ nibble ∈ s.unloaded, s.libraries.get? nibble = none

theorem Edits.noArena {opens adds : BitVec 8 → Prop} (h : Edits opens adds s t) (hs : s.NoArena)
    (hadds : ∀ nibble ∈ s.unloaded, ¬adds nibble) : t.NoArena := by
  intro nibble hmarked
  rw [h.marks] at hmarked
  exact (h.arenas nibble (hs nibble hmarked)).resolve_right (hadds nibble hmarked)

theorem noArena_replaceUserArena (h : s.NoArena) (arena : Option UserLibrary) :
    (s.replaceUserArena nibble arena).NoArena := by
  intro other hmarked
  cases arena with
  | none =>
    have hlibraries : (s.replaceUserArena nibble none).libraries.get? other =
        update s.libraries.get? nibble none other :=
      congrFun (get?_erase s.libraries nibble) other
    rw [hlibraries, update_apply]
    split_ifs with hother
    · rfl
    · exact h other (mem_of_mem_insert_of_ne hmarked hother)
  | some arena =>
    have hmarked : other ∈ s.unloaded.erase nibble := hmarked
    have hlibraries : (s.replaceUserArena nibble (some arena)).libraries.get? other =
        update s.libraries.get? nibble (some arena) other :=
      congrFun (get?_insert s.libraries nibble arena) other
    rw [hlibraries, update_of_ne (ne_of_mem_erase hmarked)]
    exact h other (mem_of_mem_erase hmarked)

variable (originals : Originals) (replayed : SortedMap (BitVec 8) ReplayedLibrary)
  (totals : SortedMap (BitVec 8) (BitVec 32))

/-- The libraries of a system transition have no arena behind it. -/
theorem libraries_applySystemLibraries (nibble : BitVec 8) :
    (s.applySystemLibraries originals replayed totals).libraries.get? nibble =
      if nibble ∈ originals.entries.map Prod.fst then none else s.libraries.get? nibble :=
  congrFun (get?_foldl_erase (originals.entries.map Prod.fst) s.libraries) nibble

theorem noArena_applySystemLibraries (h : s.NoArena) (hmarked : nibble ∈ s.unloaded) :
    (s.applySystemLibraries originals replayed totals).libraries.get? nibble = none := by
  rw [libraries_applySystemLibraries, h nibble hmarked, ite_self]

theorem noArena_replaceSystemLibraries (h : s.NoArena) :
    (s.replaceSystemLibraries originals replayed totals).NoArena := by
  intro nibble hmarked
  exact noArena_applySystemLibraries originals replayed totals h (mem_sdiff.mp hmarked).1

theorem noArena_unloadSystemLibraries (h : s.NoArena) : (s.unloadSystemLibraries originals).NoArena := by
  intro nibble hmarked
  rcases mem_union.mp hmarked with hbefore | hnamed
  · exact noArena_replaceSystemLibraries originals .empty .empty h nibble hbefore
  · have hlibraries : (s.unloadSystemLibraries originals).libraries.get? nibble = _ :=
      libraries_applySystemLibraries originals .empty .empty nibble
    rw [hlibraries, if_pos (List.mem_toFinset.mp hnamed)]

/-- A library is reset with its baseline, or where it has no arena. -/
theorem noArena_resetSystemLibrary (h : s.NoArena)
    (hnone : nibble < 16 → s.originals.get? nibble = none → s.libraries.get? nibble = none) :
    (s.resetSystemLibrary nibble).NoArena := by
  unfold resetSystemLibrary
  split_ifs with hwide
  · exact h
  · intro other hmarked
    rcases mem_insert.mp hmarked with rfl | hbefore
    · refine (libraries_applySystemLibraries _ .empty .empty other).trans ?_
      cases horiginal : s.originals.get? other with
      | none => rw [hnone (BitVec.not_le.mp hwide) horiginal, ite_self]
      | some original =>
        have hentry : (other, original) ∈ (insert .empty other original).entries := by
          rw [(lists _).mem, get?_insert, update_self]
        exact if_pos (List.mem_map_of_mem hentry)
    · exact noArena_applySystemLibraries _ .empty .empty h hbefore

end SessionState

/-! ## Adds and promotions -/

namespace SessionState

variable {s : SessionState} {library : BitVec 8} {words : List (BitVec 32)} {keys : List (BitVec 16)}

/-- An add passes its checks : its phrase can be stored, a library with a baseline has a sub-index, and the
library has no other token for the text than one of an item it holds. -/
def Admits (s : SessionState) (library : BitVec 8) (words : List (BitVec 32)) (keys : List (BitVec 16)) : Prop :=
  isUserFileLibrary library ∧ s.hasUserLibrary library ∧ phraseFitsKeys words keys ∧
    (pinyinKeysToPacked keys).isSome ∧ s.phraseTable.checkAdd words = .ok () ∧
    (∀ original, s.originals.get? library = some original → s.items.lacksSubIndex library original = false) ∧
    ∃ found, s.existing library words none = .ok found ∧
      ∀ token, found = some token → (s.originals.get? library).isSome ∨ (s.item token).isSome

/-- A promotion passes its checks. -/
def AdmitsPromotion (s : SessionState) (words : List (BitVec 32)) (readings : List (List (BitVec 16) × BitVec 64))
    (unigram : BitVec 64) : Prop :=
  ∃ prons bytes, (readings.filter fun reading => phraseFitsKeys words reading.1) ≠ [] ∧
    promotedProns (readings.filter fun reading => phraseFitsKeys words reading.1) = some prons ∧
    encodePhraseItem ⟨words, unigram.setWidth 32, prons⟩ = .ok bytes ∧ s.phraseTable.checkAdd words = .ok ()

/-- An add that is not admitted changes nothing. -/
theorem addPhraseIn_of_not_admits (count : Option (BitVec 64)) (h : ¬s.Admits library words keys) :
    (s.addPhraseIn library words keys count).1 = s := by
  unfold addPhraseIn
  split_ifs with hargs
  · rfl
  simp only [Bool.or_eq_true, Bool.not_eq_true', not_or, Bool.not_eq_false] at hargs
  obtain ⟨⟨huser, hhas⟩, hfits⟩ := hargs
  unfold arenaAddPhrase bufferAddPhrase
  cases hpacked : pinyinKeysToPacked keys with
  | none => cases s.originals.get? library <;> rfl
  | some packed =>
    cases hcheck : s.phraseTable.checkAdd words with
    | error error => cases s.originals.get? library <;> rfl
    | ok checked =>
      cases hfound : s.existing library words none with
      | error error => cases s.originals.get? library <;> rfl
      | ok found =>
        cases horiginal : s.originals.get? library with
        | some original =>
          have hlacks : s.items.lacksSubIndex library original = true := by
            by_contra hhas'
            refine h ⟨huser, hhas, hfits, by rw [hpacked]; rfl, hcheck, fun other hother => ?_, found, hfound,
              fun _ _ => Or.inl (by rw [horiginal]; rfl)⟩
            rw [← some.inj (horiginal.symm.trans hother), Bool.eq_false_iff]
            exact hhas'
          dsimp only
          rw [if_pos hlacks]
        | none =>
          have hrefused : ∃ token, found = some token ∧ s.item token = none := by
            by_contra hnone
            refine h ⟨huser, hhas, hfits, by rw [hpacked]; rfl, hcheck, fun original hsome => ?_, found, hfound,
              fun token htoken => Or.inr ?_⟩
            · rw [horiginal] at hsome
              cases hsome
            · exact isSome_iff_ne_none.mpr fun hitem => hnone ⟨token, htoken, hitem⟩
          obtain ⟨token, rfl, hitem⟩ := hrefused
          dsimp only
          unfold addArenaReading
          rw [hitem]

/-- A promotion that is not admitted changes nothing. -/
theorem promoteAddonPhrase_of_not_admits {readings : List (List (BitVec 16) × BitVec 64)} {unigram : BitVec 64}
    (h : ¬s.AdmitsPromotion words readings unigram) : (s.promoteAddonPhrase words readings unigram).1 = s := by
  unfold promoteAddonPhrase
  dsimp only
  split_ifs with hvalid
  · rfl
  unfold arenaPromote
  split
  · rfl
  · rename_i prons hprons
    split
    · rfl
    · rename_i bytes hbytes
      split
      · rfl
      · rename_i hcheck
        exact absurd ⟨prons, bytes, fun hnil => hvalid (by rw [hnil]; rfl), hprons, hbytes, hcheck⟩ h

end SessionState

/-! ## Runs -/

namespace UserStore

variable {store : UserStore SessionState} {entryPerLength reuse : Bool}

/-- The library an add, a promotion or a training is aimed at. -/
def aim : StoreOp → Option (BitVec 8)
  | .addPhraseIn library _ _ _ => some library
  | .promoteAddonPhrase _ _ _ => some addonDictionary
  | .observeSelection _ cur | .observePredicted _ cur | .observePredictedPrefix cur =>
    some (phraseIndexLibraryIndex cur)
  | .addUnigramFrequency token _ | .trainPronunciations token _ _ => some (phraseIndexLibraryIndex token)
  | _ => none

/-- An operation that gives a marked library an arena : an add or a promotion that its checks let
through, or the reset of a library that has no baseline. -/
def Revives (s : SessionState) : StoreOp → Prop
  | .addPhraseIn library words keys _ => library ∈ s.unloaded ∧ s.Admits library words keys
  | .promoteAddonPhrase words readings unigram =>
    addonDictionary ∈ s.unloaded ∧ s.AdmitsPromotion words readings unigram
  | .resetSystemLibrary nibble => nibble < 16 ∧ s.originals.get? nibble = none ∧ (s.libraries.get? nibble).isSome
  | _ => False

variable {token : BitVec 32}

theorem arenaAddUnigramOutcome_of_unloaded {s : SessionState} (delta : BitVec 32)
    (h : phraseIndexLibraryIndex token ∈ s.unloaded) : s.arenaAddUnigramOutcome token delta = (s, .missing) :=
  if_pos h

theorem arenaTrain_of_unloaded {s : SessionState} (readings : List (List ChewingKey))
    (delta : BitVec 32) (h : phraseIndexLibraryIndex token ∈ s.unloaded) : s.arenaTrain token readings delta = s :=
  if_pos h

/-- A training step leaves the phrases of an unloaded library as they are. -/
theorem update_of_unloaded {cur : BitVec 32} (last : BitVec 32) (policy : SeedPolicy)
    (h : phraseIndexLibraryIndex cur ∈ store.phrases.unloaded) :
    (store.update (sessionSide entryPerLength reuse) last cur policy).1.phrases = store.phrases := by
  rcases phrases_update (sessionSide entryPerLength reuse) store last cur policy with hsame | ⟨delta, hadded⟩
  · exact hsame
  · rw [hadded]
    exact congrArg Prod.fst (arenaAddUnigramOutcome_of_unloaded delta h)

variable {op : StoreOp}

/-- An operation aimed at an unloaded library leaves the phrases as they are. -/
theorem after_of_unloaded (hop : ¬Revives store.phrases op) {library : BitVec 8}
    (haim : aim op = some library) (h : library ∈ store.phrases.unloaded) :
    (store.after (sessionSide entryPerLength reuse) op).phrases = store.phrases := by
  cases op with
  | addPhraseIn target words keys count =>
    obtain rfl : target = library := some.inj haim
    exact addPhraseIn_of_not_admits count fun hadmits => hop ⟨h, hadmits⟩
  | promoteAddonPhrase words readings unigram =>
    obtain rfl : addonDictionary = library := some.inj haim
    exact promoteAddonPhrase_of_not_admits fun hadmits => hop ⟨h, hadmits⟩
  | observeSelection last cur =>
    obtain rfl : phraseIndexLibraryIndex cur = library := some.inj haim
    exact update_of_unloaded last .training h
  | observePredicted last cur =>
    obtain rfl : phraseIndexLibraryIndex cur = library := some.inj haim
    exact update_of_unloaded last .predicted h
  | observePredictedPrefix cur =>
    obtain rfl : phraseIndexLibraryIndex cur = library := some.inj haim
    exact congrArg Prod.fst (arenaAddUnigramOutcome_of_unloaded _ h)
  | addUnigramFrequency token delta =>
    obtain rfl : phraseIndexLibraryIndex token = library := some.inj haim
    exact congrArg Prod.fst (arenaAddUnigramOutcome_of_unloaded delta h)
  | trainPronunciations token readings seed =>
    obtain rfl : phraseIndexLibraryIndex token = library := some.inj haim
    exact arenaTrain_of_unloaded readings _ h
  | _ => cases haim

theorem aim_of_gains {s : SessionState} {library : BitVec 8} (h : Gains s op library) :
    aim op = some library := by
  cases op with
  | addPhraseIn target words keys count => exact congrArg some h.1.symm
  | promoteAddonPhrase words readings unigram => exact congrArg some h.symm
  | _ => exact h.elim

/-- An operation that revives no library keeps the marked ones without an arena. -/
theorem noArena_after (h : store.phrases.NoArena) (hop : ¬Revives store.phrases op) :
    (store.after (sessionSide entryPerLength reuse) op).phrases.NoArena := by
  by_cases htransition : Transition op
  · cases op with
    | loadUserLibrary library payload =>
      change (store.phrases.loadUserLibrary library payload).NoArena
      unfold loadUserLibrary
      split_ifs
      · exact noArena_replaceUserArena h _
      · exact h
    | unloadUserLibrary library =>
      change (store.phrases.unloadUserLibrary library).NoArena
      unfold unloadUserLibrary
      split_ifs
      · exact noArena_replaceUserArena h none
      · exact h
    | loadSystemLibraries originals replayed totals =>
      exact noArena_replaceSystemLibraries originals replayed totals h
    | unloadSystemLibraries originals => exact noArena_unloadSystemLibraries originals h
    | resetSystemLibrary nibble =>
      refine noArena_resetSystemLibrary h fun hnarrow horiginal => ?_
      by_contra harena
      exact hop ⟨hnarrow, horiginal, isSome_iff_ne_none.mpr harena⟩
    | _ => exact htransition.elim
  · by_cases hgains : ∃ library ∈ store.phrases.unloaded, Gains store.phrases op library
    · -- the operation is aimed at a marked library
      obtain ⟨library, hmark, hgains⟩ := hgains
      rw [after_of_unloaded hop (aim_of_gains hgains) hmark]
      exact h
    · have hedits := @edits_after store entryPerLength reuse (fun _ => True) op htransition
        ⟨fun _ _ => trivial, fun _ _ _ => trivial⟩
      exact hedits.noArena h fun library hmark hgain => hgains ⟨library, hmark, hgain⟩

end UserStore

/-- In every run with no operation that revives an unloaded library, the marked libraries have no
arena in any state, and an add, a promotion or a training aimed at one changes nothing of the
phrases : no library, no phrase table, no index and no total. -/
theorem unloaded_run (entryPerLength reuse : Bool) {store : UserStore SessionState} (h : store.phrases.NoArena)
    {ops : List StoreOp} (hops : Along (UserStore.after (sessionSide entryPerLength reuse))
      (fun store op => ¬UserStore.Revives store.phrases op) store ops) :
    (∀ reached ∈ states (UserStore.after (sessionSide entryPerLength reuse)) store ops, reached.phrases.NoArena) ∧
    Along (UserStore.after (sessionSide entryPerLength reuse)) (fun store op => ∀ library,
      UserStore.aim op = some library → library ∈ store.phrases.unloaded →
        (store.after (sessionSide entryPerLength reuse) op).phrases = store.phrases) store ops := by
  constructor
  · exact @forall_states _ _ _ (fun store : UserStore SessionState => store.phrases.NoArena) _
      (fun _ _ hs hop => UserStore.noArena_after hs hop) ops store h hops
  · exact along_imp (fun _ _ hop _ haim hmark => UserStore.after_of_unloaded hop haim hmark) hops

/-- A session that unloads its user library, trains one of its tokens, and loads it again before
a phrase is added to it. -/
def reloadedRun : List StoreOp :=
  [.unloadUserLibrary userDictionary, .addUnigramFrequency 0x07000001 5, .trainPronunciations 0x07000001 [] 69,
    .loadUserLibrary userDictionary none, .addPhraseIn userDictionary [0x4f60] [214] none]

theorem unloaded_reloadedRun :
    (∀ reached ∈ states (UserStore.after (sessionSide false false)) ⟨openSession, .empty⟩ reloadedRun,
      reached.phrases.NoArena) ∧
    Along (UserStore.after (sessionSide false false)) (fun store op => ∀ library,
      UserStore.aim op = some library → library ∈ store.phrases.unloaded →
        (store.after (sessionSide false false) op).phrases = store.phrases) ⟨openSession, .empty⟩ reloadedRun := by
  have hloaded : userDictionary ∉ ((reloadedRun.take 4).foldl (UserStore.after (sessionSide false false))
      ⟨openSession, .empty⟩).phrases.unloaded := by
    decide +kernel
  refine unloaded_run false false (fun nibble hmark => absurd hmark (Finset.notMem_empty nibble)) ?_
  exact ⟨not_false, not_false, not_false, not_false, fun hrevives => hloaded hrevives.1, trivial⟩

/-- A phrase added to the user library after it was unloaded. -/
def unloadedRun : List StoreOp :=
  [.unloadUserLibrary userDictionary, .addPhraseIn userDictionary [0x4f60] [214] none]

/-- The library is still marked and has an arena, and the facade's total has moved. -/
theorem unloadedRun_arena :
    userDictionary ∈ (unloadedRun.foldl (UserStore.after (sessionSide false false)) ⟨openSession,
      .empty⟩).phrases.unloaded ∧
    ((unloadedRun.foldl (UserStore.after (sessionSide false false)) ⟨openSession, .empty⟩).phrases.libraries.get?
      userDictionary).isSome ∧
    ((unloadedRun.take 1).foldl (UserStore.after (sessionSide false false))
      ⟨openSession, .empty⟩).phrases.items.facadeExtra = 0 ∧
    (unloadedRun.foldl (UserStore.after (sessionSide false false)) ⟨openSession, .empty⟩).phrases.items.facadeExtra =
      15 := by
  decide +kernel

end Oxpinyin
