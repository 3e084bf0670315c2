import Oxpinyin.LibraryTotals
import Oxpinyin.LiveBuffers

/-!
# Arenas and baselines

A library with a baseline keeps its items in its live buffer, and an arena is made only for a library
without one. The layout names each library's kind of file, so a transition brings baselines for the
system's libraries alone. `LiveStore.laid_run` : whatever the writes, no arena stands beside a baseline.
-/

namespace Oxpinyin

open ChunkFile FiniteMap Replay Run

/-! ## The layout -/

namespace SessionState

variable {s t : SessionState} {library : BitVec 8} {logs : BitVec 8 → Bool}

/-- Only the libraries that the layout gives a log have a baseline, the user files have none, and no arena
is beside a baseline. -/
structure Laid (logs : BitVec 8 → Bool) (s : SessionState) : Prop where
  baselines : ∀ nibble, (s.originals.get? nibble).isSome → logs nibble = true
  files : ∀ nibble, s.hasUserLibrary nibble = true ∨ nibble = addonDictionary → logs nibble = false
  bare : ∀ nibble, (s.originals.get? nibble).isSome → s.libraries.get? nibble = none

theorem Edits.laid {opens adds : BitVec 8 → Prop} (h : Edits opens adds s t) (hs : s.Laid logs)
    (hadds : ∀ nibble, adds nibble → s.originals.get? nibble = none) : t.Laid logs := by
  refine ⟨fun nibble hsome => ?_, fun nibble hfile => ?_, fun nibble hsome => ?_⟩
  · rw [h.originals] at hsome
    exact hs.baselines nibble hsome
  · rw [h.files] at hfile
    exact hs.files nibble hfile
  · rw [h.originals] at hsome
    refine (h.arenas nibble (hs.bare nibble hsome)).resolve_right fun hgain => ?_
    rw [hadds nibble hgain] at hsome
    cases hsome

theorem Laid.original_eq_none (h : s.Laid logs)
    (hfile : s.hasUserLibrary library = true ∨ library = addonDictionary) : s.originals.get? library = none := by
  cases horiginal : s.originals.get? library with
  | none => rfl
  | some original =>
    have hlog := h.baselines library (Option.isSome_iff_exists.mpr ⟨original, horiginal⟩)
    rw [h.files library hfile] at hlog
    cases hlog

theorem seedLibrary_layout (s : SessionState) (entry : BitVec 8 × Bytes) :
    (s.seedLibrary entry).originals = s.originals ∧ (s.seedLibrary entry).hasUserLibrary = s.hasUserLibrary := by
  unfold seedLibrary
  split
  · exact ⟨rfl, rfl⟩
  · split
    · exact ⟨rfl, rfl⟩
    · exact ⟨rfl, rfl⟩

/-- A session is opened without baselines, so it has its layout where the user files have no log. -/
theorem laid_opened (index : UserIndex) (phraseTable : UserPhraseTable) {hasUserLibrary : BitVec 8 → Bool}
    (hasOverlongIndexKey : Bool) (chunks : SortedMap (BitVec 8) Bytes)
    (hfiles : ∀ nibble, hasUserLibrary nibble = true ∨ nibble = addonDictionary → logs nibble = false) :
    (opened index phraseTable hasUserLibrary hasOverlongIndexKey chunks).Laid logs := by
  let fresh : SessionState := ⟨.empty, index, ∅, phraseTable, .empty, false, .new, .empty, hasUserLibrary,
    hasOverlongIndexKey⟩
  obtain ⟨horiginals, hsame⟩ : (chunks.entries.foldl seedLibrary fresh).originals = .empty ∧
      (chunks.entries.foldl seedLibrary fresh).hasUserLibrary = hasUserLibrary := by
    refine List.foldlRecOn (motive := fun t : SessionState => t.originals = .empty ∧
      t.hasUserLibrary = hasUserLibrary)
      chunks.entries _ ⟨rfl, rfl⟩ fun t ht entry _ => ?_
    obtain ⟨horiginals, hsame⟩ := seedLibrary_layout t entry
    exact ⟨horiginals.trans ht.1, hsame.trans ht.2⟩
  have hbare : ∀ nibble, ((chunks.entries.foldl seedLibrary fresh).originals.get? nibble).isSome = false := by
    intro nibble
    rw [horiginals]
    rfl
  refine ⟨fun nibble hsome => ?_, fun nibble hfile => ?_, fun nibble hsome => ?_⟩
  · exact absurd hsome (Bool.not_eq_true _ ▸ hbare nibble)
  · exact hfiles nibble (hfile.imp_left fun hfile => (congrFun hsame nibble).symm.trans hfile)
  · exact absurd hsome (Bool.not_eq_true _ ▸ hbare nibble)

/-- A user file's library goes or comes with its arena, where it has no baseline. -/
theorem Laid.replaceUserArena (h : s.Laid logs) (hfile : s.hasUserLibrary library = true)
    (arena : Option UserLibrary) :
    (s.replaceUserArena library arena).Laid logs := by
  refine ⟨h.baselines, h.files, fun nibble hsome => ?_⟩
  have hne : nibble ≠ library := by
    rintro rfl
    have horiginal : (s.originals.get? nibble).isSome = true := hsome
    rw [h.original_eq_none (.inl hfile)] at horiginal
    cases horiginal
  cases arena with
  | none =>
    change (s.libraries.erase library).get? nibble = none
    rw [SortedMap.get?_erase, Function.update_of_ne hne]
    exact h.bare nibble hsome
  | some arena =>
    change (s.libraries.insert library arena).get? nibble = none
    rw [SortedMap.get?_insert, Function.update_of_ne hne]
    exact h.bare nibble hsome

theorem Laid.replaceSystemLibraries (h : s.Laid logs) {originals : Originals}
    (hlogs : ∀ nibble, (originals.get? nibble).isSome → logs nibble = true)
    (replayed : SortedMap (BitVec 8) ReplayedLibrary) (totals : SortedMap (BitVec 8) (BitVec 32)) :
    (s.replaceSystemLibraries originals replayed totals).Laid logs := by
  refine ⟨fun nibble hsome => ?_, h.files, fun nibble hsome => ?_⟩
  · rw [isSome_replaceSystemLibraries] at hsome
    exact hsome.elim (hlogs nibble) (h.baselines nibble)
  · rw [isSome_replaceSystemLibraries] at hsome
    refine (libraries_applySystemLibraries originals replayed totals nibble).trans ?_
    split_ifs with hnew
    · rfl
    · exact h.bare nibble (hsome.resolve_left (mt (originals.lists.mem_keys nibble).mpr hnew))

theorem Laid.resetSystemLibrary (h : s.Laid logs) (nibble : BitVec 8) : (s.resetSystemLibrary nibble).Laid logs := by
  unfold SessionState.resetSystemLibrary
  split_ifs
  · exact h
  · refine ⟨h.baselines, h.files, fun other hsome => ?_⟩
    refine (libraries_applySystemLibraries _ .empty .empty other).trans ?_
    split_ifs
    · rfl
    · exact h.bare other hsome

end SessionState

namespace UserStore

variable {store : UserStore SessionState} {entryPerLength reuse : Bool} {logs : BitVec 8 → Bool}

/-- The baselines of a transition are of libraries with a log. -/
def Logged (logs : BitVec 8 → Bool) : StoreOp → Prop
  | .loadSystemLibraries originals _ _ | .unloadSystemLibraries originals =>
    ∀ nibble, (originals.get? nibble).isSome → logs nibble = true
  | _ => True

/-- A write puts no arena beside a baseline. -/
theorem laid_after {op : StoreOp} (h : store.phrases.Laid logs) (hop : Logged logs op) :
    (store.after (sessionSide entryPerLength reuse) op).phrases.Laid logs := by
  by_cases htransition : Transition op
  · cases op with
    | loadUserLibrary library payload =>
      change (store.phrases.loadUserLibrary library payload).Laid logs
      unfold SessionState.loadUserLibrary
      split_ifs with hfile
      · exact h.replaceUserArena hfile _
      · exact h
    | unloadUserLibrary library =>
      change (store.phrases.unloadUserLibrary library).Laid logs
      unfold SessionState.unloadUserLibrary
      split_ifs with hfile
      · exact h.replaceUserArena hfile none
      · exact h
    | loadSystemLibraries originals replayed totals => exact h.replaceSystemLibraries hop replayed totals
    | unloadSystemLibraries originals =>
      have hreplaced := h.replaceSystemLibraries hop .empty .empty
      exact ⟨hreplaced.baselines, hreplaced.files, hreplaced.bare⟩
    | resetSystemLibrary nibble => exact h.resetSystemLibrary nibble
    | _ => exact htransition.elim
  · have hedits := @edits_after store entryPerLength reuse (fun _ => True) op htransition
      ⟨fun _ _ => trivial, fun _ _ _ => trivial⟩
    refine hedits.laid h fun library hgains => ?_
    cases op with
    | addPhraseIn target words keys count => exact hgains.1 ▸ hgains.2
    | promoteAddonPhrase words readings unigram => exact h.original_eq_none (.inr hgains)
    | _ => exact hgains.elim

end UserStore

/-! ## Runs -/

/-- The baselines a write brings are of libraries with a log. -/
def StoreWrite.Logged (logs : BitVec 8 → Bool) : StoreWrite → Prop
  | .write op _ _ => UserStore.Logged logs op
  | .addSystemPhraseIn _ _ _ _ _ _ _ => True

namespace LiveStore

variable {live : LiveStore} {entryPerLength reuse : Bool}

/-- A write keeps the layout and puts no arena beside a baseline. -/
theorem laid_after {logs : BitVec 8 → Bool} (h : live.session.Laid logs) (hlogs : live.systemLogs = logs)
    {write : StoreWrite} (hwrite : write.Rows ∧ write.Logged logs) :
    (live.after (sessionSide entryPerLength reuse) write).session.Laid logs ∧
      (live.after (sessionSide entryPerLength reuse) write).systemLogs = logs := by
  cases write with
  | write op f g =>
    refine ⟨?_, hlogs⟩
    rw [LiveStore.after, phrases_write]
    exact UserStore.laid_after h hwrite.2
  | addSystemPhraseIn library originalToken words keys count f g =>
    have hedits := @edits_addSystemPhraseIn live (fun _ => True) ⟨fun _ _ => trivial, fun _ _ _ => trivial⟩ library
      originalToken hwrite.1 words keys count f g
    exact ⟨hedits.laid h fun _ hgain => hgain.elim, (systemLogs_addSystemPhraseIn ..).trans hlogs⟩

/-- Whatever the writes, no arena stands beside a baseline. -/
theorem laid_run {logs : BitVec 8 → Bool} (h : live.session.Laid logs) (hlogs : live.systemLogs = logs)
    {writes : List StoreWrite} (hwrites : ∀ write ∈ writes, write.Rows ∧ write.Logged logs) :
    ∀ reached ∈ states (fun live write => after live (sessionSide entryPerLength reuse) write) live writes,
      reached.session.Laid logs ∧ reached.systemLogs = logs :=
  @forall_states _ _ (fun live write => after live (sessionSide entryPerLength reuse) write)
    (fun reached => reached.session.Laid logs ∧ reached.systemLogs = logs)
    (fun _ write => write.Rows ∧ write.Logged logs)
    (fun _ _ hreached hwrite => laid_after hreached.1 hreached.2 hwrite) writes live ⟨h, hlogs⟩ (along_of_mem hwrites)

/-- From the user's chunks on, whatever the writes : a library with a baseline has no arena, and one with a user
file no baseline. -/
theorem arena_or_baseline {live : LiveStore} (index : UserIndex) (phraseTable : UserPhraseTable)
    {hasUserLibrary : BitVec 8 → Bool} (hasOverlongIndexKey : Bool) (chunks : SortedMap (BitVec 8) Bytes)
    (hopened : live.session = .opened index phraseTable hasUserLibrary hasOverlongIndexKey chunks)
    (hfiles : ∀ nibble, hasUserLibrary nibble = true ∨ nibble = addonDictionary → live.systemLogs nibble = false)
    (entryPerLength reuse : Bool) {writes : List StoreWrite}
    (hwrites : ∀ write ∈ writes, write.Rows ∧ write.Logged live.systemLogs) :
    ∀ reached ∈ states (fun live write => after live (sessionSide entryPerLength reuse) write) live writes, ∀ nibble,
      ((reached.session.originals.get? nibble).isSome → reached.session.libraries.get? nibble = none) ∧
        (reached.session.hasUserLibrary nibble = true ∨ nibble = addonDictionary →
          reached.session.originals.get? nibble = none) := by
  intro reached hreached nibble
  have hlaid := SessionState.laid_opened index phraseTable hasOverlongIndexKey chunks hfiles
  rw [← hopened] at hlaid
  obtain ⟨hbehind, _⟩ := laid_run hlaid rfl hwrites reached hreached
  exact ⟨hbehind.bare nibble, hbehind.original_eq_none⟩

/-- A session without chunks, where library one has a log. -/
def bareStore : LiveStore :=
  ⟨.open_ (.opened .new (.fromEntries []) isUserFileLibrary false .empty) none, false, fun library => library = 1⟩

theorem arena_or_baseline_loaded : (bareStore.after (sessionSide false false) (.write (.loadSystemLibraries
    (SortedMap.empty.insert 1 ⟨⟨5, 2, [], none⟩, false⟩) .empty .empty) false false)).session.libraries.get?
      1 = none := by
  refine (arena_or_baseline .new (.fromEntries []) false .empty rfl (by decide +kernel) false false
    (List.forall_mem_singleton.mpr ⟨?_, ?_⟩) _ (List.mem_cons_of_mem _ (mem_states_self _ [])) 1).1
      (by decide +kernel)
  · intro nibble
    revert nibble
    decide +kernel
  · intro nibble
    revert nibble
    decide +kernel

end LiveStore

end Oxpinyin
