import Mathlib.Algebra.BigOperators.Group.Finset.Piecewise
import Mathlib.Data.BitVec
import Mathlib.Data.FinEnum
import Oxpinyin.LibraryTotals
import Oxpinyin.LiveSystem

/-!
# The bumps of a facade

`Runtime::add_unigram_outcome` : an increment of an item that is in no system library is kept
beside the library, by token and by library, and the facade's total takes it first, accepted or
not. Whether the library's 32-bit total would overflow is told by a cheap 64-bit bound, or by a
wrapping sum of the parts of the total. `bumps_run` : the parts kept agree in every run, and the
verdict is right exactly where the offset of a stored total is not counted twice and the bound is
not behind the total.
-/

namespace Oxpinyin

open Finset LittleEndian ChunkFile FiniteMap Replay Run SortedMap Bool BitVec

/-! ## The bumps -/

/-- The accepted bumps by token and by library. -/
structure UnigramOverlay where
  tokens : SortedMap (BitVec 32) (BitVec 64)
  libraries : SortedMap (BitVec 32) (BitVec 32)

/-- The bumps of a facade. -/
structure FacadeBumps where
  /-- Every bump taken, accepted or not. -/
  total : BitVec 32
  /-- Some token has one. -/
  live : Bool
  overlay : UnigramOverlay

namespace FacadeBumps

def new : FacadeBumps := ⟨0, false, .empty, .empty⟩

variable (bumps : FacadeBumps)

/-- The accepted bumps on a library. -/
def accepted (library : BitVec 32) : BitVec 32 := (bumps.overlay.libraries.get? library).getD 0

/-- Drops the accepted bumps of replaced libraries. -/
def dropLibraries (replaced : BitVec 32 → Bool) : FacadeBumps :=
  let tokens := bumps.overlay.tokens.retain fun token => !replaced (token >>> 24)
  let removed := bumps.overlay.libraries.entries.foldl (fun removed entry =>
    if replaced entry.1 then removed + entry.2 else removed) 0
  { total := bumps.total - removed
    live := !tokens.entries.isEmpty
    overlay := ⟨tokens, bumps.overlay.libraries.retain fun nibble => !replaced nibble⟩ }

/-- The facade's total takes a bump. -/
def take (delta : BitVec 32) : FacadeBumps := { bumps with total := bumps.total + delta }

def saturatingAdd64 (a b : Nat) : Nat := min (a + b) (2 ^ 64 - 1)

/-- A token and its library take a bump. -/
def accept (token delta : BitVec 32) : FacadeBumps :=
  let library := token >>> 24
  let entry := (bumps.overlay.tokens.get? token).getD 0
  { bumps with
    live := true
    overlay :=
      { libraries := bumps.overlay.libraries.insert library (bumps.accepted library + delta)
        tokens := bumps.overlay.tokens.insert token (BitVec.ofNat 64 (saturatingAdd64 entry.toNat delta.toNat)) } }

end FacadeBumps

open FacadeBumps

/-! ## The runtime -/

/-- How far a library's stored total lies from its items. -/
def SessionState.libraryOffset (s : SessionState) (library : BitVec 8) : BitVec 32 :=
  if s.hasLibraryOffsets then s.offsetOf library else 0

/-- The total of a user library. -/
def SessionState.unigramLibraryTotal (s : SessionState) (library : BitVec 8) : BitVec 32 :=
  (s.libraries.get? library).elim (s.offsetOf library) UserLibrary.total

/-- A system library follows the mask of the runtime. -/
def LiveStore.setLibraryLoaded (live : LiveStore) (nibble : BitVec 8) (loaded : Bool) : LiveStore :=
  if 16 ≤ nibble || !live.isSystemLibrary nibble then live
  else
    let unloaded := if loaded then live.session.unloaded.erase nibble else insert nibble live.session.unloaded
    { live with store := { live.store with phrases := { live.session with unloaded := unloaded } } }

/-- The system chunks, the addon chunks, the session, the mask of unloaded libraries and the bumps. -/
structure Runtime where
  libraries : PhraseLibraries
  addons : PhraseLibraries
  user : Option LiveStore
  libraryMask : BitVec 32
  bumps : FacadeBumps

namespace Runtime

/-- A runtime as it is opened. -/
def opened (libraries addons : PhraseLibraries) (user : Option LiveStore) : Runtime :=
  ⟨libraries, addons, user, 0, .new⟩

variable (runtime : Runtime)

def liveItems : LiveSystemItems := ⟨runtime.libraries, runtime.user, runtime.libraryMask⟩

def visible (nibble : BitVec 32) : Bool := Oxpinyin.libraryVisible runtime.libraryMask nibble

/-- A token has an item : in a system library, an addon library or a user library. -/
def finds (token : BitVec 32) : Bool :=
  (runtime.liveItems.read token).get.isSome || (runtime.addons.unigramCount token).isSome ||
    runtime.user.any fun store => (store.withUserItem token).isSome

/-- The stored total of a mapped library. -/
def base (library : BitVec 32) : BitVec 32 :=
  (runtime.libraries.library (library <<< 24)).elim 0 fun mapped => mapped.library.totalFreq

/-- A library's total cannot take a bump. The bound decides where it is small enough. -/
def refuses (token delta : BitVec 32) : Bool :=
  let library := token >>> 24
  let base := runtime.base library
  let accepted := runtime.bumps.accepted library
  let userBound := runtime.user.elim 0 LiveStore.unigramTotal
  let offset := runtime.user.elim 0 fun user => user.session.libraryOffset (library.setWidth 8)
  let bound := base.toNat + accepted.toNat
  if offset ≠ 0 || 2 ^ 32 - 1 <
      FacadeBumps.saturatingAdd64 (FacadeBumps.saturatingAdd64 bound userBound.toNat) delta.toNat then
    let userTotal := runtime.user.elim 0 fun user => user.session.unigramLibraryTotal (library.setWidth 8)
    let total := base + accepted + userTotal + offset
    2 ^ 32 ≤ total.toNat + delta.toNat
  else false

/-- The dictionary's half of an increment. -/
def addUnigramDelta (token : BitVec 32) (delta : BitVec 64) : FacadeBumps × UnigramAdd :=
  if !runtime.visible (token >>> 24) then (runtime.bumps, .missing)
  else if 2 ^ 32 ≤ delta.toNat then (runtime.bumps, .missing)
  else
    let delta := delta.setWidth 32
    let taken := runtime.bumps.take delta
    if !runtime.finds token then (taken, .missing)
    else if runtime.refuses token delta then (taken, .refused)
    else (taken.accept token delta, .accepted)

/-- An increment of a token's frequency. A system library of a session takes its own. -/
def addUnigramOutcome (token : BitVec 32) (delta : BitVec 64) : Runtime × UnigramAdd :=
  let dict := runtime.addUnigramDelta token delta
  if !runtime.visible (token >>> 24) then (runtime, .missing)
  else
    match runtime.user with
    | some user =>
      if runtime.liveItems.isSystemLibrary (bufferOf token) then
        if 2 ^ 32 ≤ delta.toNat then (runtime, .missing)
        else
          let added := user.session.arenaAddUnigramOutcome token (delta.setWidth 32)
          let hasSystemItems := user.hasSystemItems || (added.2 == .accepted && (user.original token).isSome)
          let user := { user with store := { user.store with phrases := added.1 }, hasSystemItems := hasSystemItems }
          ({ runtime with user := some user }, added.2)
      else ({ runtime with bumps := dict.1 }, dict.2)
    | none => ({ runtime with bumps := dict.1 }, dict.2)

def loadLibrary (index : BitVec 32) : Runtime :=
  if 16 ≤ index then runtime
  else
    { runtime with
      libraryMask := runtime.libraryMask &&& ~~~(1#32 <<< index)
      user := runtime.user.map fun user => user.setLibraryLoaded (index.setWidth 8) true }

/-- Unloads a library. Its accepted bumps go with it. -/
def unloadLibrary (index : BitVec 32) : Runtime :=
  if 16 ≤ index then runtime
  else
    let mask := 1#32 <<< index
    { runtime with
      libraryMask := runtime.libraryMask ||| mask
      bumps := if runtime.libraryMask &&& mask = 0 then runtime.bumps.dropLibraries (· = index) else runtime.bumps
      user := runtime.user.map fun user => user.setLibraryLoaded (index.setWidth 8) false }

/-- Libraries mapped again lose their accepted bumps. -/
def finishSystemRemap (originals : SessionState.Originals) : Runtime :=
  { runtime with
    bumps := runtime.bumps.dropLibraries fun nibble => (originals.get? (nibble.setWidth 8)).isSome }

end Runtime

/-- One operation of a runtime. A write of the store is given with where it leaves the two flags. -/
inductive RuntimeOp where
  | addUnigram (token : BitVec 32) (delta : BitVec 64)
  | write (op : StoreOp) (hasSystemItems hasRemovedSystemItems : Bool)
  | loadLibrary (index : BitVec 32)
  | unloadLibrary (index : BitVec 32)
  | finishSystemRemap (originals : SessionState.Originals)

namespace Runtime

variable (side : PhraseSide SessionState PhraseError)

def after (runtime : Runtime) : RuntimeOp → Runtime
  | .addUnigram token delta => (runtime.addUnigramOutcome token delta).1
  | .write op hasSystemItems hasRemovedSystemItems =>
    { runtime with user := runtime.user.map fun user => user.write side op hasSystemItems hasRemovedSystemItems }
  | .loadLibrary index => runtime.loadLibrary index
  | .unloadLibrary index => runtime.unloadLibrary index
  | .finishSystemRemap originals => runtime.finishSystemRemap originals

end Runtime

/-! ## The parts agree -/

namespace FacadeBumps

variable {bumps : FacadeBumps}

/-- The accepted bumps held on the tokens a test passes. -/
def heldBy (bumps : FacadeBumps) (p : BitVec 32 → Bool) : BitVec 32 :=
  bumps.overlay.tokens.entries.foldl (fun sum entry => if p entry.1 then sum + entry.2.setWidth 32 else sum) 0

/-- The accepted bumps held on the tokens of a library. -/
def tokenSum (bumps : FacadeBumps) (library : BitVec 32) : BitVec 32 :=
  bumps.heldBy fun token => token >>> 24 = library

/-- All accepted bumps held. -/
def held (bumps : FacadeBumps) : BitVec 32 := bumps.heldBy fun _ => true

/-- The accepted bumps of a token, in the width of a total. -/
def bumpOf (bumps : FacadeBumps) (token : BitVec 32) : BitVec 32 :=
  ((bumps.overlay.tokens.get? token).map (BitVec.setWidth 32)).getD 0

theorem heldBy_eq (bumps : FacadeBumps) (p : BitVec 32 → Bool) :
    bumps.heldBy p = ∑ token, if p token = true then bumps.bumpOf token else 0 :=
  bumps.overlay.tokens.lists.foldl_add p (setWidth 32)

/-- What is held by library and by token is the same, and the flag tells whether there is a token. -/
structure Balanced (bumps : FacadeBumps) : Prop where
  libraries : ∀ library, bumps.accepted library = bumps.tokenSum library
  live : bumps.live = true ↔ bumps.overlay.tokens.entries ≠ []

theorem balanced_new : new.Balanced := ⟨fun _ => rfl, by decide⟩

theorem balanced_take (h : bumps.Balanced) (delta : BitVec 32) : (bumps.take delta).Balanced :=
  ⟨h.libraries, h.live⟩

/-- An accepted bump is held on its token. -/
theorem heldBy_accept {token delta : BitVec 32}
    (hroom : ((bumps.overlay.tokens.get? token).getD 0).toNat + delta.toNat < 2 ^ 64) (p : BitVec 32 → Bool) :
    (bumps.accept token delta).heldBy p = bumps.heldBy p + if p token = true then delta else 0 := by
  have hentry : (BitVec.ofNat 64 (saturatingAdd64 ((bumps.overlay.tokens.get? token).getD 0).toNat
      delta.toNat)).setWidth 32 = bumps.bumpOf token + delta := by
    rw [saturatingAdd64, min_eq_left (by omega), ofNat_add, setWidth_add _ _ (by decide),
      BitVec.ofNat_toNat, BitVec.ofNat_toNat, BitVec.setWidth_eq, SessionState.setWidth_setWidth, bumpOf]
    cases bumps.overlay.tokens.get? token with
    | none => rfl
    | some entry => rfl
  have hbump : ∀ k, (bumps.accept token delta).bumpOf k = bumps.bumpOf k + if k = token then delta else 0 := by
    intro k
    rw [bumpOf, accept, get?_insert, Function.update_apply]
    split_ifs with hk
    · rw [hk, ← hentry]
      rfl
    · exact (add_zero _).symm
  have hsplit : ∀ k, (if p k = true then (bumps.accept token delta).bumpOf k else 0) =
      (if p k = true then bumps.bumpOf k else 0) +
        if k = token then (if p token = true then delta else 0) else 0 := by
    intro k
    rw [hbump]
    by_cases hk : k = token
    · subst hk
      rw [if_pos rfl, if_pos rfl]
      split_ifs
      · rfl
      · rfl
    · rw [if_neg hk, if_neg hk, add_zero, add_zero]
  rw [heldBy_eq, heldBy_eq, sum_congr rfl fun k _ => hsplit k, sum_add_distrib, sum_ite_eq',
    if_pos (mem_univ token)]

theorem balanced_accept (h : bumps.Balanced) {token delta : BitVec 32}
    (hroom : ((bumps.overlay.tokens.get? token).getD 0).toNat + delta.toNat < 2 ^ 64) :
    (bumps.accept token delta).Balanced := by
  refine ⟨fun library => ?_, ⟨fun _ => ?_, fun _ => rfl⟩⟩
  · rw [tokenSum, heldBy_accept hroom, accepted, accept, get?_insert, Function.update_apply]
    by_cases hlibrary : library = token >>> 24
    · rw [if_pos hlibrary, if_pos (decide_eq_true hlibrary.symm), Option.getD_some, h.libraries, hlibrary]
      rfl
    · rw [if_neg hlibrary, if_neg (by simpa using fun heq => hlibrary heq.symm), add_zero]
      exact h.libraries library
  · intro hnone
    have hmem := ((bumps.accept token delta).overlay.tokens.lists.mem token _).mpr
      (congrFun (get?_insert _ token _) token |>.trans (Function.update_self ..))
    rw [hnone] at hmem
    exact List.not_mem_nil hmem

theorem heldBy_dropLibraries (replaced p : BitVec 32 → Bool) :
    (bumps.dropLibraries replaced).heldBy p = bumps.heldBy fun token => p token && !replaced (token >>> 24) := by
  rw [heldBy_eq, heldBy_eq]
  refine sum_congr rfl fun token _ => ?_
  have hbump : (bumps.dropLibraries replaced).bumpOf token =
      if (!replaced (token >>> 24)) = true then bumps.bumpOf token else 0 := by
    rw [bumpOf, dropLibraries, get?_retain]
    dsimp only
    split_ifs
    · rfl
    · rfl
  rw [hbump]
  cases p token with
  | false => rfl
  | true => rfl

variable (h : bumps.Balanced) (replaced : BitVec 32 → Bool)
include h

/-- What the dropped libraries counted is what their tokens held. -/
theorem removed_eq :
    bumps.overlay.libraries.entries.foldl (fun removed entry =>
      if replaced entry.1 then removed + entry.2 else removed) 0 =
      bumps.heldBy fun token => replaced (token >>> 24) := by
  have hlibrary : ∀ library, (if replaced library = true
    then ((bumps.overlay.libraries.get? library).map id).getD 0 else 0) =
      ∑ token : BitVec 32, if token >>> 24 = library then
        (if replaced (token >>> 24) = true then bumps.bumpOf token else 0) else 0 := by
    intro library
    have haccepted : ((bumps.overlay.libraries.get? library).map id).getD 0 = bumps.accepted library := by
      rw [Option.map_id_fun]
      rfl
    rw [haccepted, h.libraries, tokenSum, heldBy_eq]
    split_ifs with hreplaced
    · refine sum_congr rfl fun token _ => ?_
      by_cases htoken : token >>> 24 = library
      · rw [if_pos (decide_eq_true htoken), if_pos htoken, htoken, if_pos hreplaced]
      · rw [if_neg htoken, decide_eq_false htoken, if_neg Bool.false_ne_true]
    · refine (sum_eq_zero fun token _ => ?_).symm
      by_cases htoken : token >>> 24 = library
      · rw [if_pos htoken, htoken, if_neg hreplaced]
      · rw [if_neg htoken]
  refine (bumps.overlay.libraries.lists.foldl_add replaced id).trans ?_
  rw [sum_congr rfl fun library _ => hlibrary library, sum_comm, heldBy_eq]
  refine sum_congr rfl fun token _ => ?_
  rw [sum_ite_eq, if_pos (mem_univ _)]

/-- Dropped libraries take their bumps along. -/
theorem balanced_dropLibraries : (bumps.dropLibraries replaced).Balanced := by
  refine ⟨fun library => ?_, ?_⟩
  · have haccepted : (bumps.dropLibraries replaced).accepted library =
        if (!replaced library) = true then bumps.accepted library else 0 := by
      rw [accepted, dropLibraries, get?_retain]
      dsimp only
      split_ifs
      · rfl
      · rfl
    rw [tokenSum, heldBy_dropLibraries, haccepted, heldBy_eq]
    cases hreplaced : replaced library with
    | true =>
      refine (sum_eq_zero fun token _ => if_neg fun hboth => ?_).symm
      obtain ⟨hlibrary, hkept⟩ := and_eq_true_iff.mp hboth
      rw [of_decide_eq_true hlibrary, hreplaced] at hkept
      cases hkept
    | false =>
      refine (h.libraries library).trans ((heldBy_eq _ _).trans (sum_congr rfl fun token _ => ?_))
      by_cases hlibrary : token >>> 24 = library
      · rw [hlibrary, hreplaced, Bool.not_false, Bool.and_true]
      · rw [decide_eq_false hlibrary, Bool.false_and]
  · rw [dropLibraries]
    dsimp only
    rw [not_eq_true', eq_false_iff, Ne, List.isEmpty_iff]

/-- Dropped libraries take what they held out of the total. -/
theorem total_dropLibraries :
    (bumps.dropLibraries replaced).total + bumps.held = bumps.total + (bumps.dropLibraries replaced).held := by
  have hsplit : bumps.held = (bumps.heldBy fun token => replaced (token >>> 24)) +
      (bumps.dropLibraries replaced).held := by
    rw [held, held, heldBy_dropLibraries, heldBy_eq, heldBy_eq, heldBy_eq, ← sum_add_distrib]
    refine sum_congr rfl fun token _ => ?_
    cases replaced (token >>> 24) with
    | false => exact (zero_add _).symm
    | true => exact (add_zero _).symm
  rw [hsplit, ← add_assoc, dropLibraries, removed_eq h, sub_add_cancel]

end FacadeBumps

/-! ## The runs -/

namespace Runtime

variable {side : PhraseSide SessionState PhraseError} {runtime : Runtime}

/-- The call goes to the bumps : the library is loaded, and no system library of a session. -/
def Bumps (runtime : Runtime) (token : BitVec 32) (delta : BitVec 64) : Prop :=
  runtime.visible (token >>> 24) = true ∧ delta.toNat < 2 ^ 32 ∧
    (runtime.user.isSome → runtime.liveItems.isSystemLibrary (bufferOf token) = false)

instance (token : BitVec 32) (delta : BitVec 64) : Decidable (runtime.Bumps token delta) :=
  inferInstanceAs (Decidable (_ ∧ _ ∧ (_ → _)))

variable {token : BitVec 32} {delta : BitVec 64}

theorem addUnigramOutcome_of_not_bumps (h : ¬runtime.Bumps token delta) :
    (runtime.addUnigramOutcome token delta).1.bumps = runtime.bumps := by
  unfold addUnigramOutcome addUnigramDelta
  dsimp only
  by_cases hvisible : runtime.visible (token >>> 24) = true
  · rw [hvisible, Bool.not_true, if_neg Bool.false_ne_true, if_neg Bool.false_ne_true]
    by_cases hdelta : 2 ^ 32 ≤ delta.toNat
    · rw [if_pos hdelta]
      split
      · split
        · rfl
        · rfl
      · rfl
    · split
      · split
        · rfl
        · rename_i huser hsystem
          exact absurd ⟨hvisible, not_le.mp hdelta, fun _ => eq_false_iff.mpr hsystem⟩ h
      · rename_i huser
        refine absurd ⟨hvisible, not_le.mp hdelta, fun hsome => ?_⟩ h
        rw [huser] at hsome
        cases hsome
  · rw [Bool.eq_false_iff.mpr hvisible]
    rfl

/-- What a call that bumps does. -/
theorem addUnigramOutcome_of_bumps (h : runtime.Bumps token delta) :
    runtime.addUnigramOutcome token delta =
      if !runtime.finds token then ({ runtime with bumps := runtime.bumps.take (delta.setWidth 32) }, .missing)
      else if runtime.refuses token (delta.setWidth 32) then
        ({ runtime with bumps := runtime.bumps.take (delta.setWidth 32) }, .refused)
      else ({ runtime with bumps := (runtime.bumps.take (delta.setWidth 32)).accept token (delta.setWidth 32) },
          .accepted) := by
  have hdict : runtime.addUnigramOutcome token delta =
      ({ runtime with bumps := (runtime.addUnigramDelta token delta).1 },
        (runtime.addUnigramDelta token delta).2) := by
    unfold addUnigramOutcome
    rw [h.1, Bool.not_true, if_neg Bool.false_ne_true]
    split
    · rename_i huser
      rw [if_neg (Bool.eq_false_iff.mp (h.2.2 (by rw [huser]; rfl)))]
    · rfl
  rw [hdict, addUnigramDelta, h.1, Bool.not_true, if_neg Bool.false_ne_true, if_neg (not_le.mpr h.2.1)]
  dsimp only
  split_ifs
  · rfl
  · rfl
  · rfl

/-- The delta a step takes and does not accept. -/
def spill (runtime : Runtime) : RuntimeOp → BitVec 32
  | .addUnigram token delta =>
    if runtime.Bumps token delta ∧ (runtime.addUnigramOutcome token delta).2 ≠ .accepted then delta.setWidth 32 else 0
  | _ => 0

/-- The deltas a run takes and does not accept. -/
def spills (side : PhraseSide SessionState PhraseError) (runtime : Runtime) : List RuntimeOp → BitVec 32
  | [] => 0
  | op :: ops => runtime.spill op + spills side (runtime.after side op) ops

/-- No bump of a token reaches `2 ^ 64`. -/
def Room (runtime : Runtime) : RuntimeOp → Prop
  | .addUnigram token delta => ((runtime.bumps.overlay.tokens.get? token).getD 0).toNat + delta.toNat < 2 ^ 64
  | _ => True

instance : ∀ op : RuntimeOp, Decidable (runtime.Room op)
  | .addUnigram _ _ => inferInstanceAs (Decidable (_ < _))
  | .write _ _ _ | .loadLibrary _ | .unloadLibrary _ | .finishSystemRemap _ => inferInstanceAs (Decidable True)

/-- A step keeps the parts in agreement, and moves the total with what is held and its spill. -/
theorem balanced_after (h : runtime.bumps.Balanced) {op : RuntimeOp} (hroom : runtime.Room op) :
    (runtime.after side op).bumps.Balanced ∧
      (runtime.after side op).bumps.total + runtime.bumps.held =
        runtime.bumps.total + (runtime.after side op).bumps.held + runtime.spill op := by
  cases op with
  | addUnigram token delta =>
    by_cases hbumps : runtime.Bumps token delta
    · have hdelta : (delta.setWidth 32).toNat = delta.toNat := by
        rw [toNat_setWidth, Nat.mod_eq_of_lt hbumps.2.1]
      have hfits : (((runtime.bumps.take (delta.setWidth 32)).overlay.tokens.get? token).getD 0).toNat +
          (delta.setWidth 32).toNat < 2 ^ 64 := by
        rw [hdelta]
        exact hroom
      have htaken : (runtime.bumps.take (delta.setWidth 32)).total + runtime.bumps.held =
          runtime.bumps.total + (runtime.bumps.take (delta.setWidth 32)).held + delta.setWidth 32 :=
        add_right_comm _ _ _
      rw [after, spill, addUnigramOutcome_of_bumps hbumps]
      split_ifs with hfinds hmissing hrefuses hrefused haccepted
      · exact ⟨balanced_take h _, htaken⟩
      · exact absurd ⟨hbumps, fun heq => by cases heq⟩ hmissing
      · exact ⟨balanced_take h _, htaken⟩
      · exact absurd ⟨hbumps, fun heq => by cases heq⟩ hrefused
      · exact absurd rfl haccepted.2
      · refine ⟨balanced_accept (balanced_take h _) hfits, ?_⟩
        have hheld : ((runtime.bumps.take (delta.setWidth 32)).accept token (delta.setWidth 32)).held =
            (runtime.bumps.take (delta.setWidth 32)).held + delta.setWidth 32 := heldBy_accept hfits _
        refine Eq.trans ?_ (add_zero _).symm
        dsimp only
        rw [hheld, ← add_assoc]
        exact htaken
    · rw [after, spill, if_neg fun hboth => hbumps hboth.1, addUnigramOutcome_of_not_bumps hbumps]
      exact ⟨h, (add_zero _).symm⟩
  | write op hasSystemItems hasRemovedSystemItems => exact ⟨h, (add_zero _).symm⟩
  | loadLibrary index =>
    have hsame : (runtime.after side (.loadLibrary index)).bumps = runtime.bumps := by
      rw [after, loadLibrary]
      split_ifs
      · rfl
      · rfl
    rw [hsame]
    exact ⟨h, (add_zero _).symm⟩
  | unloadLibrary index =>
    rw [after, unloadLibrary]
    split_ifs
    · exact ⟨h, (add_zero _).symm⟩
    · dsimp only
      split_ifs
      · exact ⟨balanced_dropLibraries h _, (total_dropLibraries h _).trans (add_zero _).symm⟩
      · exact ⟨h, (add_zero _).symm⟩
  | finishSystemRemap originals =>
    rw [after, finishSystemRemap]
    dsimp only
    exact ⟨balanced_dropLibraries h _, (total_dropLibraries h _).trans (add_zero _).symm⟩

theorem balanced_run : ∀ {ops : List RuntimeOp} {runtime : Runtime}, runtime.bumps.Balanced →
    Along (after side) Room runtime ops →
    (ops.foldl (after side) runtime).bumps.Balanced ∧
      (ops.foldl (after side) runtime).bumps.total + runtime.bumps.held =
        runtime.bumps.total + (ops.foldl (after side) runtime).bumps.held + runtime.spills side ops
  | [], runtime, h, _ => ⟨h, (add_zero _).symm⟩
  | op :: ops, runtime, h, hroom => by
    obtain ⟨hnext, hmoved⟩ := balanced_after h hroom.1
    obtain ⟨hlast, hrest⟩ := balanced_run hnext hroom.2
    refine ⟨hlast, ?_⟩
    rw [List.foldl_cons, spills]
    linear_combination hmoved + hrest

/-- A library's live total : the arena's, with the accepted bumps. -/
def liveTotal (runtime : Runtime) (token : BitVec 32) : BitVec 32 :=
  (runtime.user.elim 0 fun user => user.session.unigramLibraryTotal (bufferOf token)) +
    runtime.bumps.accepted (token >>> 24)

/-- A token names an item of a loaded user library : one with a row in the user's directory, and
no system chunk. -/
def NamesUserItem (runtime : Runtime) (token : BitVec 32) : Prop :=
  ∃ user, runtime.user = some user ∧ user.session.hasUserLibrary (bufferOf token) = true ∧ bufferOf token < 16 ∧
    user.isSystemLibrary (bufferOf token) = false ∧ runtime.libraries.byNibble.get? (bufferOf token) = none ∧
    runtime.visible (token >>> 24) = true ∧ (user.session.item token).isSome

/-- Where the verdict is the live total's : a retained offset counted once more makes no
difference, and without one the bound is not behind the total. -/
def Decides (runtime : Runtime) (token : BitVec 32) (delta : BitVec 64) : Prop :=
  let offset := runtime.user.elim 0 fun user => user.session.libraryOffset (bufferOf token)
  let facade := runtime.user.elim 0 LiveStore.unigramTotal
  if offset ≠ 0 then
    (2 ^ 32 ≤ (runtime.liveTotal token + offset).toNat + delta.toNat ↔
      2 ^ 32 ≤ (runtime.liveTotal token).toNat + delta.toNat)
  else
    2 ^ 32 ≤ (runtime.bumps.accepted (token >>> 24)).toNat + facade.toNat + delta.toNat ∨
      (runtime.liveTotal token).toNat + delta.toNat < 2 ^ 32

section

variable (h : runtime.NamesUserItem token)
include h

theorem refused_iff_refuses (hdelta : delta.toNat < 2 ^ 32) :
    (runtime.addUnigramOutcome token delta).2 = .refused ↔ runtime.refuses token (delta.setWidth 32) = true := by
  obtain ⟨user, huser, -, -, hsystem, -, hvisible, hitem⟩ := h
  have hlive : runtime.liveItems.isSystemLibrary (bufferOf token) = false := by
    rw [LiveSystemItems.isSystemLibrary, liveItems, huser]
    exact hsystem
  have hfinds : runtime.finds token = true := by
    obtain ⟨view, hview⟩ := Option.isSome_iff_exists.mp hitem
    rw [finds, huser, Option.any_some, GatedStore.withUserItem, hview]
    exact Bool.or_true _
  rw [addUnigramOutcome_of_bumps ⟨hvisible, hdelta, fun _ => hlive⟩, hfinds, Bool.not_true, if_neg Bool.false_ne_true]
  split_ifs with hrefuses
  · exact ⟨fun _ => hrefuses, fun _ => rfl⟩
  · refine ⟨fun heq => ?_, fun htrue => absurd htrue hrefuses⟩
    cases heq

/-- When a bump is refused. -/
theorem refuses_iff {delta : BitVec 32} :
    runtime.refuses token delta = true ↔
      ((runtime.user.elim 0 fun user => user.session.libraryOffset (bufferOf token)) ≠ 0 ∨
        2 ^ 32 ≤ (runtime.bumps.accepted (token >>> 24)).toNat + (runtime.user.elim 0 LiveStore.unigramTotal).toNat +
          delta.toNat) ∧
      2 ^ 32 ≤ (runtime.liveTotal token + runtime.user.elim 0 fun user =>
        user.session.libraryOffset (bufferOf token)).toNat +
        delta.toNat := by
  obtain ⟨user, huser, -, -, -, hmapped, -, -⟩ := h
  have hnibble : bufferOf (token >>> 24 <<< 24) = bufferOf token := by
    unfold bufferOf
    bv_omega
  have hbase : runtime.base (token >>> 24) = 0 := by
    rw [base, PhraseLibraries.library, hnibble, hmapped, ite_self]
    rfl
  have hbound : ∀ a b c : Nat, 2 ^ 32 - 1 < saturatingAdd64 (saturatingAdd64 a b) c ↔
      2 ^ 32 ≤ a + b + c := by
    intro a b c
    unfold saturatingAdd64
    omega
  have htotal : runtime.bumps.accepted (token >>> 24) + user.session.unigramLibraryTotal (bufferOf token) =
      runtime.liveTotal token := by
    rw [liveTotal, huser, add_comm]
    rfl
  unfold refuses
  simp only [hbase, huser, Option.elim_some, show (token >>> 24).setWidth 8 = bufferOf token from rfl, htotal,
    show (0 : BitVec 32).toNat = 0 from rfl, zero_add]
  split_ifs with hchecked
  · rw [or_eq_true, decide_eq_true_eq, decide_eq_true_eq, hbound] at hchecked
    rw [decide_eq_true_eq]
    exact (and_iff_right hchecked).symm
  · rw [or_eq_true, decide_eq_true_eq, decide_eq_true_eq, hbound] at hchecked
    exact iff_of_false id fun hboth => hchecked hboth.1

/-- The verdict is the live total's exactly where the parts decide it. -/
theorem refused_iff (hdelta : delta.toNat < 2 ^ 32) :
    ((runtime.addUnigramOutcome token delta).2 = .refused ↔
      2 ^ 32 ≤ (runtime.liveTotal token).toNat + delta.toNat) ↔ runtime.Decides token delta := by
  have hnarrow : (delta.setWidth 32).toNat = delta.toNat := by
    rw [toNat_setWidth, Nat.mod_eq_of_lt hdelta]
  rw [refused_iff_refuses h hdelta, refuses_iff h, hnarrow, Decides]
  split_ifs with hoffset
  · rw [and_iff_right (.inl hoffset)]
  · rw [not_not.mp hoffset, add_zero, or_iff_right fun hne => hne rfl, ← not_le, and_iff_right_iff_imp,
      imp_iff_or_not]

end

end Runtime

/-- In every run of a runtime in which no token's bumps reach `2 ^ 64` : a library's accepted bumps
are those of its tokens, the flag is up while a token has one, the total is what is held with what
was taken and not accepted, a call on an unloaded library changes nothing, and the verdict on an
item of a loaded user library is the one of its live total exactly where the retained offset makes
no difference and the bound is not behind. -/
theorem bumps_run (side : PhraseSide SessionState PhraseError) (libraries addons : PhraseLibraries)
    (user : Option LiveStore) {ops : List RuntimeOp}
    (hroom : Along (Runtime.after side) Runtime.Room (.opened libraries addons user) ops) :
    ∀ reached, reached = ops.foldl (Runtime.after side) (.opened libraries addons user) →
      (∀ library, reached.bumps.accepted library = reached.bumps.tokenSum library) ∧
      (reached.bumps.live = true ↔ reached.bumps.overlay.tokens.entries ≠ []) ∧
      reached.bumps.total =
        reached.bumps.held + Runtime.spills side (.opened libraries addons user) ops ∧
      (∀ (token : BitVec 32) (delta : BitVec 64), reached.visible (token >>> 24) = false →
        reached.addUnigramOutcome token delta = (reached, .missing)) ∧
      ∀ (token : BitVec 32) (delta : BitVec 64), reached.NamesUserItem token → delta.toNat < 2 ^ 32 →
        (((reached.addUnigramOutcome token delta).2 = .refused ↔
          2 ^ 32 ≤ (reached.liveTotal token).toNat + delta.toNat) ↔ reached.Decides token delta) := by
  rintro reached rfl
  obtain ⟨hbalanced, htotal⟩ := Runtime.balanced_run FacadeBumps.balanced_new hroom
  refine ⟨hbalanced.libraries, hbalanced.live, ?_, fun token delta hunloaded => ?_,
    fun token delta hitem hdelta => ?_⟩
  · have hnothing : (Runtime.opened libraries addons user).bumps.held = 0 := rfl
    have hzero : (Runtime.opened libraries addons user).bumps.total = 0 := rfl
    rwa [hnothing, hzero, add_zero, zero_add] at htotal
  · rw [Runtime.addUnigramOutcome, hunloaded]
    rfl
  · exact Runtime.refused_iff hitem hdelta

/-- A session over a chunk of one item, with its stored total. -/
def chunkSession (total unigram : BitVec 32) : LiveStore :=
  let chunk := indexBytes total ((0 :: [8]).flatMap le32) (List.replicate 8 0 ++
    bodyBytes ⟨[0x4f60], unigram, [([0x1234], 2)]⟩)
  ⟨.open_ (.opened .new (.fromEntries []) isUserFileLibrary false (SortedMap.empty.insert userDictionary chunk)) none,
    false, fun _ => false⟩

def chunkRuntime (total unigram : BitVec 32) : Runtime :=
    .opened ⟨.empty⟩ ⟨.empty⟩ (some (chunkSession total unigram))

/-- Bumps that are accepted, refused and meet no item, around a training, a compaction and an unload. -/
def bumpedRun : List RuntimeOp :=
  [.addUnigram 0x07000001 10, .addUnigram 0x07000002 3, .write (.observeSelection 0x01000001 0x07000001) false false,
    .write .compactLibraries false false, .addUnigram 0x07000001 0xffffffff, .unloadLibrary 7,
      .addUnigram 0x07000001 10]

theorem bumps_bumpedRun :
    (bumpedRun.foldl (Runtime.after (sessionSide false false)) (chunkRuntime 5 5)).bumps.total =
      (bumpedRun.foldl (Runtime.after (sessionSide false false)) (chunkRuntime 5 5)).bumps.held +
        Runtime.spills (sessionSide false false) (chunkRuntime 5 5) bumpedRun ∧
    Runtime.spills (sessionSide false false) (chunkRuntime 5 5) bumpedRun = 2 ∧
    (((chunkRuntime 5 5).addUnigramOutcome 0x07000001 0xffffffff).2 = .refused ↔
      2 ^ 32 ≤ ((chunkRuntime 5 5).liveTotal 0x07000001).toNat + 0xffffffff) := by
  have hroom : Along (Runtime.after (sessionSide false false)) Runtime.Room (chunkRuntime 5 5) bumpedRun := by
    refine ⟨?_, ?_, trivial, trivial, ?_, trivial, ?_, trivial⟩
    · decide +kernel
    · decide +kernel
    · decide +kernel
    · decide +kernel
  have hitem : (chunkRuntime 5 5).NamesUserItem 0x07000001 := by
    refine ⟨chunkSession 5 5, rfl, ?_, ?_, ?_, ?_, ?_, ?_⟩
    · decide
    · decide
    · decide +kernel
    · decide
    · decide
    · decide +kernel
  refine ⟨(bumps_run (sessionSide false false) ⟨.empty⟩ ⟨.empty⟩ (some (chunkSession 5 5)) hroom _ rfl).2.2.1, ?_, ?_⟩
  · decide +kernel
  · refine ((@bumps_run (sessionSide false false) ⟨.empty⟩ ⟨.empty⟩ (some (chunkSession 5 5))
      [] trivial _ rfl).2.2.2.2
      0x07000001 0xffffffff hitem (by decide)).mpr ?_
    unfold Runtime.Decides
    decide +kernel

/-- A stored total far from its item is counted twice, and a bump the library has room for is
refused. After a compaction the bound lies behind the total, and one it has no room for is
accepted. -/
theorem storedTotal_verdict :
    (((chunkRuntime 0x80000000 5).addUnigramOutcome 0x07000001 10).2 = .refused ∧
      ((chunkRuntime 0x80000000 5).liveTotal 0x07000001).toNat + 10 < 2 ^ 32) ∧
    ((((chunkRuntime 0 0xffffffff).after (sessionSide false false)
      (.write .compactLibraries false false)).addUnigramOutcome
        0x07000001 1).2 = .accepted ∧
      2 ^ 32 ≤ (((chunkRuntime 0 0xffffffff).after (sessionSide false false)
        (.write .compactLibraries false false)).liveTotal 0x07000001).toNat + 1) := by
  decide +kernel

end Oxpinyin
