import Oxpinyin.UserBigram

/-!
# The dry run of a training call

Before a training call its steps are checked one by one, each on the gram the steps before it
leave. The grams are replayed in a map of their own and nothing is stored. The check and the
training read the same rows (`Replays`), so they go on together and fail together
(`checkSteps_agrees`).
-/

namespace Oxpinyin

open LittleEndian FiniteMap SingleGram UserStore Option

/-- What a checked step met, with the predecessor. -/
inductive TrainingFault where
  | shortValue (prev : BitVec 32)
  | partialTail (prev : BitVec 32)
  | setFreqMiss (prev : BitVec 32)
  deriving DecidableEq

/-- The grams the checked steps left, and the fault of the last one. -/
structure TrainingCheck where
  grams : SortedMap (BitVec 32) (Option Bytes)
  fault : Option TrainingFault

/-- The check of a new training call. -/
def TrainingCheck.begin : TrainingCheck := ⟨.empty, none⟩

section Check

variable {φ : Type}

/-- A predecessor's gram, read where the session has user data. -/
def bigramRow (hasUserData : Bool) (container : Container) (prev : BitVec 32) : Option Bytes :=
  if hasUserData then container.gram prev else none

/-- The trained gram of a checked step into the replay. -/
def replayGram (check : TrainingCheck) (prev : BitVec 32) (row : Option Bytes) (cur : BitVec 32) :
    TrainingCheck × Except (UserStoreError φ) Unit :=
  match trainedGram row cur with
  | .ok trained => ({ check with grams := check.grams.insert prev (trained.2.or row) }, .ok ())
  | .error .trainingSetFreqMiss => ({ check with fault := some (.setFreqMiss prev) }, .error .trainingSetFreqMiss)
  | .error error => (check, .error error)

/-- One step checked on the gram the earlier ones left. -/
def checkTrainingStep (hasUserData : Bool) (container : Container) (check : TrainingCheck) (prev cur : BitVec 32) :
    TrainingCheck × Except (UserStoreError φ) Unit :=
  let row := (check.grams.get? prev).getD (bigramRow hasUserData container prev)
  if row.any fun gram => gram.length < totalLen then
    ({ check with fault := some (.shortValue prev) }, .error .shortUserBigramValue)
  else if row.any hasPartialTail then
    ({ check with fault := some (.partialTail prev) }, .error .partialUserBigramTail)
  else replayGram check prev row cur

/-- The steps of a call checked in order, up to the first that fails. -/
def checkSteps (hasUserData : Bool) (container : Container) :
    List (BitVec 32 × BitVec 32) → TrainingCheck → TrainingCheck × Except (UserStoreError φ) Unit
  | [], check => (check, .ok ())
  | step :: rest, check =>
    match checkTrainingStep hasUserData container check step.1 step.2 with
    | (checked, .ok ()) => checkSteps hasUserData container rest checked
    | (checked, .error error) => (checked, .error error)

/-- The steps of a call trained in order, up to the first that fails, and their seeds. -/
def observeSteps {σ : Type} (side : PhraseSide σ φ) :
    List (BitVec 32 × BitVec 32) → UserStore σ → UserStore σ × Except (UserStoreError φ) (List Nat)
  | [], store => (store, .ok [])
  | step :: rest, store =>
    match store.observeSelection side step.1 step.2 with
    | (trained, .ok seed) =>
      let run := observeSteps side rest trained
      (run.1, run.2.map (seed :: ·))
    | (trained, .error error) => (trained, .error error)

end Check

/-! ## The replayed grams -/

theorem le32_injective {a b : BitVec 32} (h : le32 a = le32 b) : a = b := by
  rw [← word32_le32 a, h, word32_le32]

theorem gram_insert (container : Container) (prev other : BitVec 32) (gram : Bytes) :
    Container.gram (SortedMap.insert container (le32 prev) gram) other =
      if other = prev then some gram else container.gram other := by
  rw [Container.gram, SortedMap.get?_insert, Function.update_apply]
  by_cases hsame : other = prev
  · rw [hsame, if_pos rfl, if_pos rfl]
  · rw [if_neg hsame, if_neg fun h => hsame (le32_injective h)]
    rfl

/-- The rows a check reads are the grams of a container. -/
def Replays (hasUserData : Bool) (start : Container) (check : TrainingCheck) (container : Container) : Prop :=
  ∀ prev, (check.grams.get? prev).getD (bigramRow hasUserData start prev) = container.gram prev

section Agree

variable {σ φ : Type} {side : PhraseSide σ φ} {hasUserData : Bool} {start : Container} {check checked : TrainingCheck}
  {store : UserStore σ} {prev cur : BitVec 32}

/-- A step that passes is trained, and both leave the same gram. -/
theorem observeSelection_of_check (h : Replays hasUserData start check store.container)
    (hcheck : (checkTrainingStep hasUserData start check prev cur :
      TrainingCheck × Except (UserStoreError φ) Unit) = (checked, .ok ())) :
    ∃ trained seed, store.observeSelection side prev cur = (trained, .ok seed) ∧
      Replays hasUserData start checked trained.container := by
  rw [checkTrainingStep, h prev] at hcheck
  split_ifs at hcheck with hshort hpartial
  · cases (Prod.mk.inj hcheck).2
  · cases (Prod.mk.inj hcheck).2
  · rw [replayGram] at hcheck
    rw [observeSelection, update]
    dsimp only
    rw [if_neg hpartial, if_neg hshort, updateGram]
    cases htrained : (trainedGram (store.container.gram prev) cur : Except (UserStoreError φ) _) with
    | error error =>
      rw [htrained] at hcheck
      cases error <;> cases (Prod.mk.inj hcheck).2
    | ok trained =>
      rw [htrained] at hcheck
      obtain ⟨rfl, -⟩ := Prod.mk.inj hcheck
      refine ⟨_, trained.1, rfl, fun other => ?_⟩
      dsimp only
      rw [SortedMap.get?_insert, Function.update_apply]
      cases hgram : trained.2 with
      | none =>
        by_cases hsame : other = prev
        · rw [if_pos hsame, none_or, getD_some, hsame]
        · rw [if_neg hsame]
          exact h other
      | some gram =>
        dsimp only
        rw [if_pos rfl, gram_insert]
        by_cases hsame : other = prev
        · rw [if_pos hsame, if_pos hsame, some_or, getD_some]
        · rw [if_neg hsame, if_neg hsame]
          exact h other

/-- A step that fails its check fails in training, with the same error and nothing changed. -/
theorem observeSelection_of_fault (h : Replays hasUserData start check store.container) {error : UserStoreError φ}
    (hcheck : (checkTrainingStep hasUserData start check prev cur).2 = .error error) :
    store.observeSelection side prev cur = (store, .error error) := by
  rw [checkTrainingStep, h prev] at hcheck
  rw [observeSelection, update]
  dsimp only
  split_ifs at hcheck with hshort hpartial
  · have hwhole : ¬(store.container.gram prev).any hasPartialTail = true := by
      cases hrow : store.container.gram prev with
      | none => exact Bool.false_ne_true
      | some gram =>
        rw [hrow, any_some, decide_eq_true_eq] at hshort
        rw [any_some, hasPartialTail, decide_eq_false (Nat.not_le.mpr hshort), Bool.false_and]
        exact Bool.false_ne_true
    rw [if_neg hwhole, if_pos hshort, updateShort, ← Except.error.inj hcheck]
  · rw [if_pos hpartial, ← Except.error.inj hcheck]
  · rw [if_neg hpartial, if_neg hshort, updateGram]
    rw [replayGram] at hcheck
    cases htrained : (trainedGram (store.container.gram prev) cur : Except (UserStoreError φ) _) with
    | ok trained =>
      rw [htrained] at hcheck
      cases hcheck
    | error fault =>
      rw [htrained] at hcheck
      have hsame : fault = error := by
        cases fault <;> exact Except.error.inj hcheck
      rw [hsame]

/-- Steps that pass are all trained. -/
theorem observeSteps_of_checks :
    ∀ {steps : List (BitVec 32 × BitVec 32)} {check checked : TrainingCheck} {store : UserStore σ},
      Replays hasUserData start check store.container →
      (checkSteps hasUserData start steps check : TrainingCheck × Except (UserStoreError φ) Unit) = (checked,
        .ok ()) →
      ∃ trained seeds, observeSteps side steps store = (trained, .ok seeds) ∧
        Replays hasUserData start checked trained.container
  | [], check, checked, store, h, hchecks => by
    obtain ⟨rfl, -⟩ := Prod.mk.inj hchecks
    exact ⟨store, [], rfl, h⟩
  | step :: rest, check, checked, store, h, hchecks => by
    rw [checkSteps] at hchecks
    cases hstep : (checkTrainingStep hasUserData start check step.1 step.2 :
      TrainingCheck × Except (UserStoreError φ) Unit) with
    | mk next result =>
      rw [hstep] at hchecks
      cases result with
      | error error => cases (Prod.mk.inj hchecks).2
      | ok answer =>
        obtain ⟨trained, seed, hobserve, hreplays⟩ := @observeSelection_of_check _ _ side _ _ _ _ _ _ _ h hstep
        obtain ⟨last, seeds, hrest, hlast⟩ := observeSteps_of_checks hreplays hchecks
        refine ⟨last, seed :: seeds, ?_, hlast⟩
        rw [observeSteps, hobserve]
        dsimp only
        rw [hrest]
        rfl

theorem replays_begin (hgate : ∀ prev gram, start.gram prev = some gram → hasUserData = true) :
    Replays hasUserData start .begin start := by
  intro prev
  show bigramRow hasUserData start prev = start.gram prev
  rw [bigramRow]
  cases hrow : start.gram prev with
  | none => rw [ite_self]
  | some gram => rw [if_pos (hgate prev gram hrow)]

end Agree

/-- The steps of a call pass their checks exactly as far as they are trained : where all pass, all
are trained, and every predecessor's gram is the one the check replayed ; where one is the first to
fail, those before it are trained and it fails with the same error and nothing changed. -/
theorem checkSteps_agrees {σ φ : Type} (side : PhraseSide σ φ) (store : UserStore σ) (hasUserData : Bool)
    (hgate : ∀ prev gram, store.container.gram prev = some gram → hasUserData = true)
    (steps : List (BitVec 32 × BitVec 32)) :
    (∀ checked, (checkSteps hasUserData store.container steps .begin :
        TrainingCheck × Except (UserStoreError φ) Unit) = (checked, .ok ()) →
      ∃ trained seeds, observeSteps side steps store = (trained, .ok seeds) ∧
        ∀ prev, trained.container.gram prev = (checked.grams.get? prev).getD (store.container.gram prev)) ∧
    ∀ before prev cur rest checked error, steps = before ++ (prev, cur) :: rest →
      (checkSteps hasUserData store.container before .begin :
        TrainingCheck × Except (UserStoreError φ) Unit) = (checked, .ok ()) →
      (checkTrainingStep hasUserData store.container checked prev cur).2 = .error error →
      ∃ trained seeds, observeSteps side before store = (trained, .ok seeds) ∧
        trained.observeSelection side prev cur = (trained, .error error) := by
  have hbegin := replays_begin hgate
  have hrow : ∀ prev, bigramRow hasUserData store.container prev = store.container.gram prev := hbegin
  refine ⟨fun checked hchecks => ?_, fun before prev cur rest checked error _ hchecks hfault => ?_⟩
  · obtain ⟨trained, seeds, hrun, hlast⟩ := observeSteps_of_checks hbegin hchecks
    refine ⟨trained, seeds, hrun, fun prev => ?_⟩
    rw [← hlast prev, hrow]
  · obtain ⟨trained, seeds, hrun, hlast⟩ := observeSteps_of_checks hbegin hchecks
    exact ⟨trained, seeds, hrun, observeSelection_of_fault hlast hfault⟩

/-- A phrase side that takes every count. -/
def plainSide : PhraseSide Unit Unit := ⟨fun _ _ _ => ((), true), fun _ => none, fun _ _ _ => ((), none),
  fun _ _ => none, fun _ _ => ((), none)⟩

/-- A store with a gram that ends in a part of a record. -/
def brokenStore : UserStore Unit := ⟨(), SortedMap.insert .empty (le32 5) [0, 0, 0, 0, 1]⟩

theorem checkSteps_brokenStore :
    ∃ trained seeds, observeSteps plainSide [(3, 4), (3, 4)] brokenStore = (trained, .ok seeds) ∧
      trained.observeSelection plainSide 5 4 = (trained, .error .partialUserBigramTail) :=
  (checkSteps_agrees plainSide brokenStore true (fun _ _ _ => rfl) [(3, 4), (3, 4), (5, 4)]).2 [(3, 4),
    (3, 4)] 5 4 [] _ _
    rfl rfl rfl

end Oxpinyin
