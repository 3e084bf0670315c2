import Oxpinyin.LiveSystem

/-!
# Which libraries have a live buffer

A live buffer is made from a baseline, under the upper byte of a token. Of a token's upper byte
only the lower half names the library whose baseline is taken, so a stray token may leave a buffer
that belongs to no library. `backed_after` : of the sixteen libraries, only those with a baseline
ever have one.
-/

namespace Oxpinyin

open BitVec Option ChunkFile FiniteMap Replay Run SessionState SystemItems

/-! ## The library of a token -/

theorem phraseIndexLibraryIndex_of_lt {token : BitVec 32} (h : bufferOf token < 16) :
    phraseIndexLibraryIndex token = bufferOf token := by
  have hlow : token.toNat >>> 24 < 16 := by
    have hbyte : token.toNat >>> 24 % 256 < 16 := by simpa [bufferOf] using lt_def.mp h
    have hlt : token.toNat >>> 24 < 256 := by
      rw [Nat.shiftRight_eq_div_pow]
      omega
    rwa [Nat.mod_eq_of_lt hlt] at hbyte
  have hand : (token &&& 0x0F000000) >>> 24 = (token >>> 24) &&& 0x0F := by
    rw [ushiftRight_and_distrib]
    rfl
  unfold phraseIndexLibraryIndex bufferOf
  rw [hand]
  apply eq_of_toNat_eq
  simp only [toNat_setWidth, toNat_and, toNat_ushiftRight]
  rw [show (0x0F : BitVec 32).toNat = 2 ^ 4 - 1 from rfl, Nat.and_two_pow_sub_one_eq_mod, Nat.mod_eq_of_lt hlow]

theorem bufferOf_or (a b : BitVec 32) : bufferOf (a ||| b) = bufferOf a ||| bufferOf b := by
  rw [bufferOf, ushiftRight_or_distrib, setWidth_or]
  rfl

theorem bufferOf_masked (token : BitVec 32) : bufferOf (token &&& phraseMask) = 0#8 := by
  rw [bufferOf, ushiftRight_and_distrib]
  change setWidth 8 (token >>> 24 &&& 0#32) = 0#8
  rw [and_zero]
  rfl

theorem bufferOf_phraseIndexMakeToken {library : BitVec 8} (h : library < 16) (token : BitVec 32) :
    bufferOf (phraseIndexMakeToken library token) = library := by
  rw [phraseIndexMakeToken, bufferOf_or, bufferOf_masked, or_zero]
  revert library
  decide

theorem bufferOf_addPhraseToken {library : BitVec 8} (h : library < 16) (end_ : Nat) :
    bufferOf (addPhraseToken library end_) = library := by
  unfold addPhraseToken
  dsimp only
  split_ifs with hzero
  · have hor : phraseIndexMakeToken library (BitVec.ofNat 32 end_) + 1 =
        phraseIndexMakeToken library (BitVec.ofNat 32 end_) ||| 1 := by
      refine add_eq_or_of_and_eq_zero _ _ ?_
      have hone : (1 : BitVec 32) = phraseMask &&& 1 := by decide
      rw [hone, ← BitVec.and_assoc, hzero]
      decide
    rw [hor, bufferOf_or, bufferOf_phraseIndexMakeToken h]
    exact or_zero
  · exact bufferOf_phraseIndexMakeToken h _

/-! ## The operations -/

namespace SessionState

variable {s t : SessionState} {token : BitVec 32}

/-- There are sixteen libraries, and those with a live buffer have a baseline. -/
structure Backed (s : SessionState) : Prop where
  baseline : ∀ nibble, nibble < 16 → (s.items.replayed.get? nibble).isSome → (s.originals.get? nibble).isSome
  rows : ∀ nibble, (s.originals.get? nibble).isSome → nibble < 16

/-- The libraries a session may open a buffer for. -/
def Based (s : SessionState) (nibble : BitVec 8) : Prop := nibble < 16 → (s.originals.get? nibble).isSome

/-- Edits that open what the session may open. -/
theorem Edits.backed {adds : BitVec 8 → Prop} (h : Edits s.Based adds s t) (hs : s.Backed) : t.Backed := by
  refine ⟨fun nibble hnibble hsome => ?_, fun nibble hsome => ?_⟩
  · rw [h.originals]
    rcases h.items nibble hsome with hsome | hbased
    · exact hs.baseline nibble hnibble hsome
    · exact hbased hnibble
  · rw [h.originals] at hsome
    exact hs.rows nibble hsome

theorem based_of_token (h : (s.originals.get? (phraseIndexLibraryIndex token)).isSome) :
    s.Based (bufferOf token) := by
  intro hlow
  rwa [phraseIndexLibraryIndex_of_lt hlow] at h

theorem Backed.opening (hs : s.Backed) : s.Opening s.Based := by
  refine ⟨fun _ hsome => based_of_token hsome, fun library rangeEnd hsome _ => ?_⟩
  rwa [bufferOf_addPhraseToken (hs.rows library hsome)]

/-- A reload opens buffers only for the libraries it is made for. -/
theorem opens_applySystemLibraries (originals : Originals) (replayed : SortedMap (BitVec 8) ReplayedLibrary)
    (totals : SortedMap (BitVec 8) (BitVec 32)) :
    SystemItems.Opens (fun nibble => (originals.get? nibble).isSome) s.items
      (s.applySystemLibraries originals replayed totals).items := by
  refine List.foldlRecOn _ _ (opens_of_eq rfl) fun items hitems nibble hnibble => hitems.trans ?_
  have hforget : SystemItems.Opens (fun nibble => (originals.get? nibble).isSome) items
    (items.forgetLibrary nibble) := by
    intro other hsome
    rw [forgetLibrary, SortedMap.get?_erase, Function.update_apply] at hsome
    split_ifs at hsome
    · cases hsome
    · exact .inl hsome
  unfold reloadItems
  dsimp only
  split
  · exact hforget.insert (.inr ((originals.lists.mem_keys nibble).mp hnibble))
  · cases totals.get? nibble with
    | none => exact hforget
    | some total => exact hforget.trans (opens_setLibraryTotal total)

/-- The libraries with a baseline are those before and those reloaded. -/
theorem isSome_replaceSystemLibraries {originals : Originals} {replayed : SortedMap (BitVec 8) ReplayedLibrary}
    {totals : SortedMap (BitVec 8) (BitVec 32)} {nibble : BitVec 8} :
    ((s.replaceSystemLibraries originals replayed totals).originals.get? nibble).isSome = true ↔
      (originals.get? nibble).isSome = true ∨ (s.originals.get? nibble).isSome = true := by
  have horiginals : (s.replaceSystemLibraries originals replayed totals).originals.get? nibble =
      (originals.get? nibble).or (s.originals.get? nibble) :=
    congrFun (SortedMap.get?_insertAll originals.lists) nibble
  rw [horiginals, isSome_or, Bool.or_eq_true]

theorem backed_replaceSystemLibraries (hs : s.Backed) {originals : Originals}
    (hrows : ∀ nibble, (originals.get? nibble).isSome → nibble < 16) (replayed : SortedMap (BitVec 8) ReplayedLibrary)
    (totals : SortedMap (BitVec 8) (BitVec 32)) : (s.replaceSystemLibraries originals replayed totals).Backed := by
  refine ⟨fun nibble hnibble hsome => ?_, fun nibble hsome => ?_⟩
  · rw [isSome_replaceSystemLibraries]
    rcases opens_applySystemLibraries originals replayed totals nibble hsome with hbefore | hreloaded
    · exact .inr (hs.baseline nibble hnibble hbefore)
    · exact .inl hreloaded
  · rw [isSome_replaceSystemLibraries] at hsome
    rcases hsome with hnew | hold
    · exact hrows nibble hnew
    · exact hs.rows nibble hold

theorem backed_resetSystemLibrary (hs : s.Backed) (nibble : BitVec 8) : (s.resetSystemLibrary nibble).Backed := by
  unfold resetSystemLibrary
  split_ifs
  · exact hs
  · refine ⟨fun other hother hsome => ?_, hs.rows⟩
    rcases opens_applySystemLibraries _ .empty .empty other hsome with hbefore | hselected
    · exact hs.baseline other hother hbefore
    · cases horiginal : s.originals.get? nibble with
      | none =>
        rw [horiginal] at hselected
        cases hselected
      | some original =>
        rw [horiginal, elim_some, SortedMap.get?_insert, Function.update_apply] at hselected
        split_ifs at hselected with heq
        · rw [heq]
          exact isSome_iff_exists.mpr ⟨original, horiginal⟩
        · cases hselected

end SessionState

namespace UserStore

variable {store : UserStore SessionState} {entryPerLength reuse : Bool}

/-- The baselines of a transition are of the sixteen libraries. -/
def Rows : StoreOp → Prop
  | .loadSystemLibraries originals _ _ | .unloadSystemLibraries originals =>
    ∀ nibble, (originals.get? nibble).isSome → nibble < 16
  | _ => True

/-- A write opens no buffer for a library without a baseline. -/
theorem backed_after {op : StoreOp} (h : store.phrases.Backed) (hop : Rows op) :
    (store.after (sessionSide entryPerLength reuse) op).phrases.Backed := by
  by_cases htransition : Transition op
  · cases op with
    | loadUserLibrary library payload =>
      change (store.phrases.loadUserLibrary library payload).Backed
      unfold loadUserLibrary
      split_ifs
      · exact ⟨h.baseline, h.rows⟩
      · exact h
    | unloadUserLibrary library =>
      change (store.phrases.unloadUserLibrary library).Backed
      unfold unloadUserLibrary
      split_ifs
      · exact ⟨h.baseline, h.rows⟩
      · exact h
    | loadSystemLibraries originals replayed totals =>
      exact backed_replaceSystemLibraries h hop replayed totals
    | unloadSystemLibraries originals =>
      have hreplaced := backed_replaceSystemLibraries h hop .empty .empty
      exact ⟨hreplaced.baseline, hreplaced.rows⟩
    | resetSystemLibrary nibble => exact backed_resetSystemLibrary h nibble
    | _ => exact htransition.elim
  · exact (edits_after htransition h.opening).backed h

end UserStore

/-! ## Importing into a system library -/

/-- The readings of an item with more of the one that has the keys, if one has. -/
def mergeInto (packed : List (BitVec 16)) (delta : BitVec 32) :
    BitVec 32 → List (List (BitVec 16) × BitVec 32) → Option (List (List (BitVec 16) × BitVec 32))
  | _, [] => none
  | total, (keys, frequency) :: rest =>
    let total := total + frequency
    if keys = packed then
      some ((keys, if delta = 0 ∨ total ≤ total + delta then frequency + delta else frequency) :: rest)
    else (mergeInto packed delta total rest).map ((keys, frequency) :: ·)

/-- A reading is merged into an item. The count of readings is a byte, which wraps. -/
def ChunkFile.ChunkItem.addSystemReading (item : ChunkItem) (packed : List (BitVec 16)) (delta : BitVec 32) :
    ChunkItem :=
  match mergeInto packed delta 0 item.prons with
  | some prons => { item with prons := prons }
  | none =>
    if item.prons.length = 255 then { item with prons := [] }
    else { item with prons := item.prons ++ [(packed, delta)] }

/-- The item of a slot, a copy. -/
def Replay.Baseline.item (baseline : Baseline) (slot : BitVec 32) : Option ChunkItem :=
  match baseline.library.items.lookup slot with
  | some item => some item
  | none => (baseline.mapping.bind fun mapped => mapped.item slot).bind fun view =>
      (decodePhraseItem view.bytes).toOption

namespace SessionState

/-- The live item of a token, else the shipped one. -/
def systemItem (s : SessionState) (original : Baseline) (token : BitVec 32) : Option ChunkItem :=
  match (s.items.withLive token).bind fun bytes => (decodePhraseItem bytes).toOption with
  | some item => some item
  | none => original.item (token &&& phraseMask)

/-- An item of a system library is taken out and put back with a reading more. -/
def mergeSystemReading (s : SessionState) (original : Baseline) (packed : List (BitVec 16))
    (delta token : BitVec 32) :
    Option SessionState :=
  (s.systemItem original token).bind fun item =>
    match encodePhraseItem (item.addSystemReading packed delta) with
    | .error _ => none
    | .ok bytes =>
      let removed := s.items.removeItem original token
      let added := (removed.1.addItem original token bytes).1
      let library := phraseIndexLibraryIndex token
      -- what was not there to take out does not count
      some { s with items := if removed.2.isSome then added
        else added.setLibraryTotal library (added.libraryTotal library original - rawUnigram bytes) }

end SessionState

namespace LiveStore

variable (live : LiveStore)

/-- The phrases after a write that commits, and where it leaves the two flags. -/
def commit (phrases : SessionState) (hasSystemItems hasRemovedSystemItems : Bool) : LiveStore :=
  { live with
    toGatedStore := GatedStore.markCommittedWrite
      { live.toGatedStore with
        store := { live.store with phrases := phrases }, hasSystemItems := hasSystemItems } true
    hasRemovedSystemItems := hasRemovedSystemItems }

/-- Adds a phrase under a system library. The caller has looked its token up. -/
def addSystemPhraseIn (library : BitVec 8) (originalToken : Option (BitVec 32)) (words : List (BitVec 32))
    (keys : List (BitVec 16)) (count : Option (BitVec 64)) (hasSystemItems hasRemovedSystemItems : Bool) :
    LiveStore :=
  if !live.isSystemLibrary library || !phraseFitsKeys words keys then live
  else
    match live.session.originals.get? library with
    | none => live
    | some original =>
      let delta := SessionState.phraseDelta count
      match originalToken.filter fun token => (live.withAppendedItem token).isNone with
      | none =>
        let added := live.session.arenaAddPhrase library words keys delta
          (some originalToken) original.library.rangeEnd
        match added.2 with
        | .ok _ => live.commit added.1 hasSystemItems hasRemovedSystemItems
        | .error _ => { live with store := { live.store with phrases := added.1 } }
      | some token =>
        match (pinyinKeysToPacked keys).bind fun packed =>
          live.session.mergeSystemReading original packed delta token with
        | none => live
        | some phrases => live.commit phrases hasSystemItems hasRemovedSystemItems

end LiveStore

/-- A write to the store. -/
inductive StoreWrite where
  | write (op : StoreOp) (hasSystemItems hasRemovedSystemItems : Bool)
  | addSystemPhraseIn (library : BitVec 8) (originalToken : Option (BitVec 32)) (words : List (BitVec 32))
      (keys : List (BitVec 16)) (count : Option (BitVec 64)) (hasSystemItems hasRemovedSystemItems : Bool)

/-- The baselines of a transition are of the sixteen libraries, and an imported phrase keeps its library. -/
def StoreWrite.Rows : StoreWrite → Prop
  | .write op _ _ => UserStore.Rows op
  | .addSystemPhraseIn library originalToken _ _ _ _ _ =>
    ∀ token, originalToken = some token → phraseIndexLibraryIndex token = library

/-- The store after a write. -/
def LiveStore.after (live : LiveStore) (side : PhraseSide SessionState PhraseError) : StoreWrite → LiveStore
  | .write op hasSystemItems hasRemovedSystemItems => live.write side op hasSystemItems hasRemovedSystemItems
  | .addSystemPhraseIn library originalToken words keys count hasSystemItems hasRemovedSystemItems =>
    live.addSystemPhraseIn library originalToken words keys count hasSystemItems hasRemovedSystemItems

/-- The libraries that have a log are of the sixteen, and those with a live buffer have a baseline. -/
structure LiveStore.Backed (live : LiveStore) : Prop where
  session : live.session.Backed
  logs : ∀ nibble, live.systemLogs nibble = true → nibble < 16

namespace LiveStore

variable {live : LiveStore} {entryPerLength reuse : Bool}

theorem phrases_write (side : PhraseSide SessionState PhraseError) (op : StoreOp) (f g : Bool) :
    (live.write side op f g).session = (live.store.after side op).phrases := by
  unfold write GatedStore.after
  dsimp only
  cases live.store.commits side op with
  | none => rfl
  | some gate => rfl

theorem edits_mergeSystemReading {s t : SessionState} {original : Baseline} {packed : List (BitVec 16)}
    {delta token : BitVec 32} {opens adds : BitVec 8 → Prop} (hopens : opens (bufferOf token))
    (h : s.mergeSystemReading original packed delta token = some t) : SessionState.Edits opens adds s t := by
  obtain ⟨item, -, hmerged⟩ := bind_eq_some_iff.mp h
  cases hbytes : encodePhraseItem (item.addSystemReading packed delta) with
  | error error =>
    rw [hbytes] at hmerged
    cases hmerged
  | ok bytes =>
    rw [hbytes] at hmerged
    obtain rfl := some.inj hmerged
    have hadded : SystemItems.Opens opens s.items
        ((s.items.removeItem original token).1.addItem original token bytes).1 :=
      (opens_putLibrary hopens _).trans (opens_addItem hopens bytes)
    refine .of_items ?_
    split_ifs
    · exact hadded
    · exact hadded.trans (opens_setLibraryTotal _)

/-- An imported phrase goes where an added one goes. No library without a baseline gains an arena. -/
theorem edits_addSystemPhraseIn {opens : BitVec 8 → Prop} (hopens : live.session.Opening opens) {library : BitVec 8}
    {originalToken : Option (BitVec 32)}
    (htoken : ∀ token, originalToken = some token → phraseIndexLibraryIndex token = library)
    (words : List (BitVec 32))
    (keys : List (BitVec 16)) (count : Option (BitVec 64)) (f g : Bool) :
    SessionState.Edits opens (fun _ => False) live.session
      (live.addSystemPhraseIn library originalToken words keys count f g).session := by
  unfold addSystemPhraseIn
  split_ifs
  · exact .refl _
  · split
    · exact .refl _
    · rename_i original horiginal
      have hadded := @SessionState.edits_arenaAddPhrase live.session library words keys (phraseDelta count)
        opens (fun _ => False) (some originalToken) hopens
        (fun hnone => by rw [horiginal] at hnone; cases hnone)
        (fun token hselected => htoken token (some.inj hselected)) original.library.rangeEnd
      dsimp only
      split
      · split
        · exact hadded
        · exact hadded
      · rename_i token hfilter
        split
        · exact .refl _
        · rename_i phrases hphrases
          obtain ⟨packed, -, hmerged⟩ := bind_eq_some_iff.mp hphrases
          refine edits_mergeSystemReading (hopens.held token ?_) hmerged
          rw [htoken token (filter_eq_some_iff.mp hfilter).1, horiginal]
          rfl

theorem systemLogs_addSystemPhraseIn (library : BitVec 8) (originalToken : Option (BitVec 32))
    (words : List (BitVec 32)) (keys : List (BitVec 16)) (count : Option (BitVec 64)) (f g : Bool) :
    (live.addSystemPhraseIn library originalToken words keys count f g).systemLogs = live.systemLogs := by
  unfold addSystemPhraseIn
  split_ifs
  · rfl
  · split
    · rfl
    · dsimp only
      split
      · split
        · rfl
        · rfl
      · split
        · rfl
        · rfl

/-- A write keeps what the libraries are backed by. -/
theorem Backed.after (h : live.Backed) {write : StoreWrite} (hwrite : write.Rows) :
    (live.after (sessionSide entryPerLength reuse) write).Backed := by
  cases write with
  | write op f g =>
    refine ⟨?_, h.logs⟩
    rw [LiveStore.after, phrases_write]
    exact UserStore.backed_after h.session hwrite
  | addSystemPhraseIn library originalToken words keys count f g =>
    refine ⟨(edits_addSystemPhraseIn h.session.opening hwrite words keys count f g).backed h.session, ?_⟩
    rw [LiveStore.after, systemLogs_addSystemPhraseIn]
    exact h.logs

end LiveStore

end Oxpinyin
