import Oxpinyin.ConstraintEdits
import Oxpinyin.ReadingIterator

/-!
# Training a decoded row

Training walks the phrases of a row against the constraint store. A phrase is observed when it is
forced, or when the phrase before it is, and every step is checked before the first is observed.
`trainSpans_spec` : the steps are checked in order, a fault leaves nothing observed, and else the
observations are those of the forced phrases and of the ones behind them, each behind the tokens of
all phrases before it.
-/

namespace Oxpinyin

open List Bool
open Option hiding any_eq_false

/-! ## The user model and its faults -/

/-- Where a span does not fit the matrix. -/
inductive TrainingSpanFault where
  | pastMatrixEnd
  | emptyStartColumn
  | endEmptyColumn
  deriving DecidableEq

/-- How a training ends early. -/
inductive TrainingError (ε : Type) where
  | userModel (error : ε)
  | graph (error : GraphError)
  | staleTrainingConstraint (position : Nat)
  | staleTrainingSpan (position : Nat) (fault : TrainingSpanFault)

/-- The user model : a step is checked, and it is observed. -/
structure UserModel (σ ε : Type) where
  checkStep : σ → List PhraseToken → PhraseToken → σ × Except ε Unit
  observeWithKeys : σ → List PhraseToken → PhraseToken → List (List ChewingKey) → σ × Except ε Unit

/-- One call that observes. -/
structure Observation where
  history : List PhraseToken
  token : PhraseToken
  readings : List (List ChewingKey)

/-- What a training leaves : the user model, the calls it made, and its answer. -/
structure Training (σ ε : Type) where
  user : σ
  observed : List Observation
  answer : Except (TrainingError ε) Unit

namespace ConstraintStore

/-- The token the cell at an index forces. -/
def oneStepTokenAt (cells : ConstraintStore) (index : Nat) : Option PhraseToken :=
  match cells[index]? with
  | some (.oneStep token _ _) => some token
  | _ => none

/-- Whether the cell at an index forces a token. -/
def isOneStepAt (cells : ConstraintStore) (index : Nat) : Bool :=
  match cells[index]? with
  | some (.oneStep _ _ _) => true
  | _ => false

theorem lt_length_of_isOneStepAt {cells : ConstraintStore} {index : Nat} (h : cells.isOneStepAt index = true) :
    index < cells.length := by
  by_contra hge
  rw [isOneStepAt, getElem?_eq_none (Nat.le_of_not_lt hge)] at h
  cases h

end ConstraintStore

/-- Whether a column holds neither a key nor a zero key. -/
def ParsedMatrix.columnIsEmpty (matrix : ParsedMatrix) (offset : Nat) : Bool :=
  (matrix.columns[offset]?).all List.isEmpty && !(matrix.zeros[offset]?.getD false)

section Train

variable {σ ε : Type} (cells : ConstraintStore) (matrix : ParsedMatrix) (input : Bytes) (user : UserModel σ ε)

/-! ## The walk -/

/-- The end of a span that is observed : the next phrase, or the last cell. -/
def trainingEnd (rest : List PhraseSpan) : Nat :=
  min ((rest.head?.map (·.start)).getD (cells.length - 1)) (cells.length - 1)

/-- The checks of one step, in order. -/
def checkTraining (history : List PhraseToken) (span : PhraseSpan) (stop : Nat) (s : σ) :
    σ × Except (TrainingError ε) Unit :=
  if (cells.oneStepTokenAt span.start).any fun token => token != span.token then
    (s, .error (.staleTrainingConstraint span.start))
  else
    match user.checkStep s history span.token with
    | (s, .error e) => (s, .error (.userModel e))
    | (s, .ok ()) =>
      if matrix.columns.length ≤ stop then (s, .error (.staleTrainingSpan span.start .pastMatrixEnd))
      else if matrix.columnIsEmpty span.start then (s, .error (.staleTrainingSpan span.start .emptyStartColumn))
      else if matrix.columnIsEmpty stop then (s, .error (.staleTrainingSpan span.start .endEmptyColumn))
      else (s, .ok ())

/-- The ends of the spans, none for those that are passed only. -/
def planLoop : List PhraseToken → List PhraseSpan → Bool → σ →
    σ × Except (TrainingError ε) (List (Option Nat))
  | _, [], _, s => (s, .ok [])
  | history, span :: rest, trainNext, s =>
    if cells.length ≤ span.start then (s, .ok (List.replicate (rest.length + 1) none))
    else if !(trainNext || cells.isOneStepAt span.start) then
      let planned := planLoop (history ++ [span.token]) rest trainNext s
      (planned.1, planned.2.map (none :: ·))
    else
      match checkTraining cells matrix user history span (trainingEnd cells rest) s with
      | (s, .error e) => (s, .error e)
      | (s, .ok ()) =>
        let planned := planLoop (history ++ [span.token]) rest (cells.isOneStepAt span.start) s
        (planned.1, planned.2.map (some (trainingEnd cells rest) :: ·))

/-- The checks of a row. Nothing is planned where no phrase is forced. -/
def planSpans (retained : Except GraphError ParsedMatrix) (spans : List PhraseSpan) (s : σ) :
    σ × Except (TrainingError ε) (Option (ParsedMatrix × List (Option Nat))) :=
  if !spans.any fun span => cells.isOneStepAt span.start then (s, .ok none)
  else
    match retained with
    | .error e => (s, .error (.graph e))
    | .ok matrix =>
      let planned := planLoop cells matrix user [] spans false s
      (planned.1, planned.2.map fun ends => some (matrix, ends))

/-- The readings of a span. -/
def spanReadings (span : PhraseSpan) (stop : Nat) : List (List ChewingKey) :=
  readingsFrom matrix.columns input stop span.text.phraseLength span.start []

/-- Observes the spans that have an end. -/
def observeSpans : List PhraseToken → List (PhraseSpan × Option Nat) → σ → Training σ ε
  | _, [], s => ⟨s, [], .ok ()⟩
  | context, (span, none) :: rest, s => observeSpans (context ++ [span.token]) rest s
  | context, (span, some stop) :: rest, s =>
    let readings := spanReadings matrix input span stop
    match user.observeWithKeys s context span.token readings with
    | (s, .error e) => ⟨s, [⟨context, span.token, readings⟩], .error (.userModel e)⟩
    | (s, .ok ()) =>
      let trained := observeSpans (context ++ [span.token]) rest s
      { trained with observed := ⟨context, span.token, readings⟩ :: trained.observed }

/-- Trains the phrases of a row. -/
def trainSpans (retained : Except GraphError ParsedMatrix) (spans : List PhraseSpan) (s : σ) : Training σ ε :=
  match planSpans cells user retained spans s with
  | (s, .error e) => ⟨s, [], .error e⟩
  | (s, .ok none) => ⟨s, [], .ok ()⟩
  | (s, .ok (some (matrix, ends))) => observeSpans matrix input user [] (spans.zip ends) s

/-! ## Which phrases are observed -/

section

variable (spans : List PhraseSpan)

/-- A phrase below the cells that is forced, or whose predecessor is. -/
def observedAt (i : Nat) : Bool :=
  (spans[i]?).any fun span => decide (span.start < cells.length) &&
    (cells.isOneStepAt span.start ||
      (decide (0 < i) && (spans[i - 1]?).any fun before => cells.isOneStepAt before.start))

/-- The phrases that are observed, by their places in the row. -/
def observedPlaces : List Nat :=
  (List.range spans.length).filter (observedAt cells spans)

/-- The tokens of the phrases before a place. -/
def historyAt (i : Nat) : List PhraseToken := (spans.take i).map (·.token)

/-- The checks of the phrases at some places, in order, up to the first that fails. -/
def checkPlaces : List Nat → σ → σ × Except (TrainingError ε) Unit
  | [], s => (s, .ok ())
  | i :: places, s =>
    match (spans[i]?).map fun span =>
      checkTraining cells matrix user (historyAt spans i) span (trainingEnd cells (spans.drop (i + 1))) s with
    | none => checkPlaces places s
    | some (s, .error e) => (s, .error e)
    | some (s, .ok ()) => checkPlaces places s

/-- The observation of the phrase at a place. -/
def observationAt (i : Nat) : Option Observation :=
  (spans[i]?).map fun span => ⟨historyAt spans i, span.token,
    spanReadings matrix input span (trainingEnd cells (spans.drop (i + 1)))⟩

/-- The observations of a row. -/
def observations : List Observation :=
  (observedPlaces cells spans).filterMap (observationAt cells matrix input spans)

end

/-- Makes the calls in order, up to the first that fails. -/
def observeAll : List Observation → σ → Training σ ε
  | [], s => ⟨s, [], .ok ()⟩
  | call :: calls, s =>
    match user.observeWithKeys s call.history call.token call.readings with
    | (s, .error e) => ⟨s, [call], .error (.userModel e)⟩
    | (s, .ok ()) =>
      let trained := observeAll calls s
      { trained with observed := call :: trained.observed }

variable {cells matrix input user}

/-! ## The checks -/

/-- A phrase behind others is observed when it is forced, or the last of them is. -/
theorem observedAt_append (done : List PhraseSpan) (span : PhraseSpan) (rest : List PhraseSpan) :
    observedAt cells (done ++ span :: rest) done.length =
      (decide (span.start < cells.length) && (cells.isOneStepAt span.start ||
        (done.getLast?).any fun before => cells.isOneStepAt before.start)) := by
  rcases eq_nil_or_concat done with rfl | ⟨init, before, rfl⟩
  · simp [observedAt]
  · simp [observedAt]

theorem historyAt_append (done : List PhraseSpan) (rest : List PhraseSpan) :
    historyAt (done ++ rest) done.length = done.map (·.token) := by
  simp [historyAt]

/-- Past the cells nothing is observed. -/
theorem observedAt_past {spans : List PhraseSpan} (hrow : ConstraintStore.InOrder spans) {i j : Nat}
    {span : PhraseSpan}
    (hspan : spans[i]? = some span) (hpast : cells.length ≤ span.start) (hle : i ≤ j) :
    observedAt cells spans j = false := by
  cases hlater : spans[j]? with
  | none => simp [observedAt, hlater]
  | some later =>
    have hstart : span.start ≤ later.start := by
      rcases Nat.eq_or_lt_of_le hle with rfl | hlt
      · rw [hspan] at hlater
        cases hlater
        exact Nat.le_refl _
      · obtain ⟨hi, rfl⟩ := List.getElem?_eq_some_iff.mp hspan
        obtain ⟨hj, rfl⟩ := List.getElem?_eq_some_iff.mp hlater
        exact Nat.le_of_lt (pairwise_iff_getElem.mp hrow i j hi hj hlt)
    simp [observedAt, hlater, Nat.not_lt.mpr (Nat.le_trans hpast hstart)]

variable (cells) in
/-- The end of the phrase at a place, when it is observed. -/
def endAt (spans : List PhraseSpan) (i : Nat) : Option Nat :=
  if observedAt cells spans i then some (trainingEnd cells (spans.drop (i + 1))) else none

theorem drop_append_cons (done : List PhraseSpan) (span : PhraseSpan) (rest : List PhraseSpan) :
    (done ++ span :: rest).drop (done.length + 1) = rest := by
  rw [← drop_drop, drop_left]
  rfl

section Step

variable {spans : List PhraseSpan} {i : Nat} {span : PhraseSpan} {places : List Nat} {s s' : σ}

theorem checkPlaces_error (hspan : spans[i]? = some span) {e : TrainingError ε}
    (hcheck : checkTraining cells matrix user (historyAt spans i) span
      (trainingEnd cells (spans.drop (i + 1))) s = (s', .error e)) :
    checkPlaces cells matrix user spans (i :: places) s = (s', .error e) := by
  rw [checkPlaces, hspan, map_some, hcheck]

theorem checkPlaces_ok (hspan : spans[i]? = some span)
    (hcheck : checkTraining cells matrix user (historyAt spans i) span
      (trainingEnd cells (spans.drop (i + 1))) s = (s', .ok ())) :
    checkPlaces cells matrix user spans (i :: places) s = checkPlaces cells matrix user spans places s' := by
  rw [checkPlaces, hspan, map_some, hcheck]

end Step

/-- The ends are those of the observed phrases once their checks pass, by induction on the phrases
behind. The flag is whether the phrase before is forced. -/
theorem planLoop_eq : ∀ (rest done : List PhraseSpan) (trainNext : Bool)
    (s : σ), ConstraintStore.InOrder (done ++ rest) →
    trainNext = ((done.getLast?).any fun before => cells.isOneStepAt before.start) →
    planLoop cells matrix user (done.map (·.token)) rest trainNext s =
      let checked := checkPlaces cells matrix user (done ++ rest)
        ((range' done.length rest.length).filter (observedAt cells (done ++ rest))) s
      (checked.1, checked.2.map fun _ => (range' done.length rest.length).map (endAt cells (done ++ rest)))
  | [], _, _, _, _, _ => rfl
  | span :: rest, done, trainNext, s, hrow, hnext => by
    have hspan : (done ++ span :: rest)[done.length]? = some span := by simp
    have hobserved := @observedAt_append cells done span rest
    rw [← hnext] at hobserved
    have happend : done ++ span :: rest = (done ++ [span]) ++ rest := by simp
    have htokens : done.map (·.token) ++ [span.token] = (done ++ [span]).map (·.token) := by simp
    have hlength : done.length + 1 = (done ++ [span]).length := by simp
    rw [planLoop]
    split_ifs with hpast hskip
    · have hfilter : (range' done.length (span :: rest).length).filter
          (observedAt cells (done ++ span :: rest)) = [] := by
        refine filter_eq_nil_iff.mpr fun j hj => ?_
        rw [observedAt_past hrow hspan hpast (mem_range'_1.mp hj).1]
        exact false_ne_true
      have hends : (range' done.length (span :: rest).length).map (endAt cells (done ++ span :: rest)) =
          replicate (rest.length + 1) none := by
        refine eq_replicate_iff.mpr ⟨by simp, fun stop hstop => ?_⟩
        obtain ⟨j, hj, rfl⟩ := mem_map.mp hstop
        rw [endAt, observedAt_past hrow hspan hpast (mem_range'_1.mp hj).1]
        rfl
      rw [hfilter, hends]
      rfl
    · replace hskip : trainNext = false ∧ cells.isOneStepAt span.start = false := by simpa using hskip
      have hno : observedAt cells (done ++ span :: rest) done.length = false := by
        rw [hobserved, hskip.1, hskip.2]
        exact and_false _
      have hfalse : trainNext = (((done ++ [span]).getLast?).any fun before => cells.isOneStepAt before.start) := by
        rw [getLast?_concat, any_some, hskip.1, hskip.2]
      rw [htokens, planLoop_eq rest (done ++ [span]) trainNext s (happend ▸ hrow) hfalse, ← happend, ← hlength,
        length_cons, range'_succ, filter_cons_of_neg (by rw [hno]; exact false_ne_true),
        map_cons, endAt, hno]
      generalize checkPlaces cells matrix user (done ++ span :: rest) _ s = checked
      obtain ⟨s', answer⟩ := checked
      cases answer <;> rfl
    · replace hskip : (trainNext || cells.isOneStepAt span.start) = true := by
        rwa [not_eq_true', not_eq_false] at hskip
      have hyes : observedAt cells (done ++ span :: rest) done.length = true := by
        rw [hobserved, Bool.or_comm, hskip, Bool.and_true]
        exact decide_eq_true (Nat.lt_of_not_le hpast)
      have hforced : cells.isOneStepAt span.start =
          (((done ++ [span]).getLast?).any fun before => cells.isOneStepAt before.start) := by
        rw [getLast?_concat, any_some]
      have hplaces : (range' done.length (span :: rest).length).filter (observedAt cells (done ++ span :: rest)) =
          done.length ::
            (range' (done.length + 1) rest.length).filter (observedAt cells (done ++ span :: rest)) := by
        rw [length_cons, range'_succ, filter_cons_of_pos hyes]
      rw [hplaces]
      rcases hcheck : checkTraining cells matrix user (done.map (·.token)) span (trainingEnd cells rest) s with
        ⟨s', e | _⟩
      · rw [hcheck, checkPlaces_error hspan (by rw [historyAt_append, drop_append_cons, hcheck])]
        rfl
      · rw [hcheck, checkPlaces_ok hspan (by rw [historyAt_append, drop_append_cons, hcheck])]
        dsimp only
        rw [htokens, planLoop_eq rest (done ++ [span]) _ s' (happend ▸ hrow) hforced, ← happend, ← hlength,
          length_cons, range'_succ, map_cons, endAt, if_pos hyes, drop_append_cons]
        generalize checkPlaces cells matrix user (done ++ span :: rest) _ s' = checked
        obtain ⟨s'', answer⟩ := checked
        cases answer <;> rfl

theorem mem_observedPlaces {spans : List PhraseSpan} {i : Nat} :
    i ∈ observedPlaces cells spans ↔ ∃ span, spans[i]? = some span ∧ span.start < cells.length ∧
      (cells.isOneStepAt span.start = true ∨
        ∃ j before, i = j + 1 ∧ spans[j]? = some before ∧ cells.isOneStepAt before.start = true) := by
  have hbefore : (decide (0 < i) && (spans[i - 1]?).any fun before => cells.isOneStepAt before.start) = true ↔
      ∃ j before, i = j + 1 ∧ spans[j]? = some before ∧ cells.isOneStepAt before.start = true := by
    cases i with
    | zero => simp
    | succ j => simp [Option.any_eq_true]
  rw [observedPlaces, mem_filter, mem_range, observedAt, Option.any_eq_true]
  simp only [and_eq_true, or_eq_true, decide_eq_true_eq] at hbefore ⊢
  rw [hbefore]
  constructor
  · exact fun h => h.2
  · rintro ⟨span, hspan, h⟩
    exact ⟨(List.getElem?_eq_some_iff.mp hspan).1, span, hspan, h⟩

/-- A row has a phrase to observe when one is forced. -/
theorem observedPlaces_eq_nil {spans : List PhraseSpan} :
    observedPlaces cells spans = [] ↔ (spans.any fun span => cells.isOneStepAt span.start) = false := by
  constructor
  · intro hnone
    rw [any_eq_false]
    intro span hspan hforced
    obtain ⟨i, hi, rfl⟩ := getElem_of_mem hspan
    refine filter_eq_nil_iff.mp hnone i (mem_range.mpr hi) ?_
    simp [observedAt, getElem?_eq_getElem hi, hforced, ConstraintStore.lt_length_of_isOneStepAt hforced]
  · intro hnone
    have hfree : ∀ (i : Nat) span, spans[i]? = some span → cells.isOneStepAt span.start = false := fun i span hspan =>
      eq_false_iff.mpr (any_eq_false.mp hnone span (mem_of_getElem? hspan))
    refine filter_eq_nil_iff.mpr fun i _ hobserved => ?_
    obtain ⟨span, hspan, hobserved⟩ := (any_eq_true _ _).mp hobserved
    rw [hfree i span hspan, Bool.false_or, Bool.and_eq_true, Bool.and_eq_true] at hobserved
    obtain ⟨before, hbefore, hforced⟩ := (any_eq_true _ _).mp hobserved.2.2
    rw [hfree (i - 1) before hbefore] at hforced
    exact false_ne_true hforced

/-! ## The calls -/

/-- The spans with an end give the calls of the observed phrases, by induction on the spans behind. -/
theorem observeSpans_eq (spans : List PhraseSpan) : ∀ (rest done : List PhraseSpan) (s : σ), done ++ rest = spans →
    observeSpans matrix input user (done.map (·.token))
        (rest.zip ((range' done.length rest.length).map (endAt cells spans))) s =
      observeAll user (((range' done.length rest.length).filter (observedAt cells spans)).filterMap
        (observationAt cells matrix input spans)) s
  | [], _, _, _ => rfl
  | span :: rest, done, s, happend => by
    have hspan : spans[done.length]? = some span := by simp [← happend]
    have hnext : (done ++ [span]) ++ rest = spans := by simp [← happend]
    have htokens : done.map (·.token) ++ [span.token] = (done ++ [span]).map (·.token) := by simp
    have hlength : done.length + 1 = (done ++ [span]).length := by simp
    rw [length_cons, range'_succ, map_cons, zip_cons_cons, filter_cons]
    by_cases hobserved : observedAt cells spans done.length
    · have hend : endAt cells spans done.length = some (trainingEnd cells rest) := by
        rw [endAt, if_pos hobserved, ← happend, drop_append_cons]
      have hcall : observationAt cells matrix input spans done.length =
          some ⟨done.map (·.token), span.token, spanReadings matrix input span (trainingEnd cells rest)⟩ := by
        rw [observationAt, hspan, map_some, ← happend, historyAt_append, drop_append_cons]
      rw [hend, if_pos hobserved, filterMap_cons_some hcall, observeSpans, observeAll]
      dsimp only
      rcases hcall : user.observeWithKeys s (done.map (·.token)) span.token
        (spanReadings matrix input span (trainingEnd cells rest)) with ⟨s', e | _⟩
      · rw [hcall]
      · rw [hcall]
        dsimp only
        rw [htokens, hlength, observeSpans_eq spans rest (done ++ [span]) s' hnext]
    · have hend : endAt cells spans done.length = none := by
        rw [endAt, if_neg hobserved]
      rw [hend, if_neg hobserved, observeSpans, htokens, hlength, observeSpans_eq spans rest (done ++ [span]) s hnext]

/-- The calls that are made are the first ones, and all of them when none fails. -/
theorem observed_observeAll : ∀ (calls : List Observation) (s : σ),
    (observeAll user calls s).observed <+: calls ∧
      ((observeAll user calls s).answer = .ok () → (observeAll user calls s).observed = calls)
  | [], _ => ⟨prefix_refl _, fun _ => rfl⟩
  | call :: calls, s => by
    rw [observeAll]
    rcases user.observeWithKeys s call.history call.token call.readings with ⟨s', e | _⟩
    · exact ⟨cons_prefix_cons.mpr ⟨rfl, nil_prefix⟩, fun h => by cases h⟩
    · obtain ⟨hbegun, hall⟩ := observed_observeAll calls s'
      exact ⟨cons_prefix_cons.mpr ⟨rfl, hbegun⟩, fun h => congrArg (call :: ·) (hall h)⟩

/-- A training of a row checks the forced phrases and those behind a forced one, in order. Where a
check fails nothing is observed, and else they are observed once each, in order, up to the first call
that fails. -/
theorem trainSpans_spec (retained : Except GraphError ParsedMatrix) {spans : List PhraseSpan}
    (hrow : ConstraintStore.InOrder spans) (s : σ) :
    (∀ i, i ∈ observedPlaces cells spans ↔ ∃ span, spans[i]? = some span ∧ span.start < cells.length ∧
      (cells.isOneStepAt span.start = true ∨
        ∃ j before, i = j + 1 ∧ spans[j]? = some before ∧ cells.isOneStepAt before.start = true)) ∧
    (observedPlaces cells spans).Pairwise (· < ·) ∧
    (observedPlaces cells spans = [] → trainSpans cells input user retained spans s = ⟨s, [], .ok ()⟩) ∧
    (observedPlaces cells spans ≠ [] →
      (∀ e, retained = .error e → trainSpans cells input user retained spans s = ⟨s, [], .error (.graph e)⟩) ∧
      ∀ matrix, retained = .ok matrix →
        (∀ s' e, checkPlaces cells matrix user spans (observedPlaces cells spans) s = (s', .error e) →
          trainSpans cells input user retained spans s = ⟨s', [], .error e⟩) ∧
        ∀ s', checkPlaces cells matrix user spans (observedPlaces cells spans) s = (s', .ok ()) →
          trainSpans cells input user retained spans s =
            observeAll user (observations cells matrix input spans) s' ∧
          (trainSpans cells input user retained spans s).observed <+: observations cells matrix input spans ∧
          ((trainSpans cells input user retained spans s).answer = .ok () →
            (trainSpans cells input user retained spans s).observed = observations cells matrix input spans)) := by
  refine ⟨fun i => mem_observedPlaces, pairwise_lt_range.filter _, fun hnone => ?_, fun hsome => ?_⟩
  · unfold trainSpans planSpans
    rw [observedPlaces_eq_nil.mp hnone, if_pos (Bool.not_false)]
  have hany : ¬ (!spans.any fun span => cells.isOneStepAt span.start) = true := by
    rw [Bool.not_eq_true']
    exact fun h => hsome (observedPlaces_eq_nil.mpr h)
  have hplan := fun matrix => @planLoop_eq σ ε cells matrix user spans [] false s hrow rfl
  simp only [length_nil, ← range_eq_range', nil_append, map_nil] at hplan
  refine ⟨?_, ?_⟩
  · rintro e rfl
    rw [trainSpans, planSpans, if_neg hany]
  rintro matrix rfl
  have hplaces : (List.range spans.length).filter (observedAt cells spans) = observedPlaces cells spans := rfl
  unfold trainSpans planSpans
  rw [if_neg hany]
  dsimp only
  rw [hplan, hplaces]
  refine ⟨fun s' e hcheck => ?_, fun s' hcheck => ?_⟩
  · rw [hcheck]
    rfl
  · have hcalls := @observeSpans_eq σ ε cells matrix input user spans spans [] s' rfl
    simp only [length_nil, ← range_eq_range', map_nil] at hcalls
    rw [hcheck]
    dsimp only [Except.map]
    rw [hcalls]
    exact ⟨rfl, observed_observeAll _ s'⟩

/-- A user model that takes every step. -/
def acceptingUser : UserModel Unit Unit := ⟨fun s _ _ => (s, .ok ()), fun s _ _ _ => (s, .ok ())⟩

/-- A forced phrase and the one behind it are observed, each behind its predecessor. -/
theorem trainSpans_spec_forced :
    ((trainSpans [.oneStep 1 1 (.scalar []), .free, .free] [] acceptingUser
      (.ok (⟨[[], [], []], [true, true, true], 0⟩ : ParsedMatrix))
      [⟨0, 1, .scalar []⟩, ⟨1, 2, .scalar []⟩] ()).observed.map fun call => (call.history, call.token)) =
        [([], 1), ([1], 2)] := by
  obtain ⟨_, _, _, hsome⟩ := @trainSpans_spec Unit Unit [.oneStep 1 1 (.scalar []), .free, .free] [] acceptingUser
    (.ok (⟨[[], [], []], [true, true, true], 0⟩ : ParsedMatrix)) [⟨0, 1, .scalar []⟩, ⟨1, 2, .scalar []⟩]
    (by simp [ConstraintStore.InOrder]) ()
  obtain ⟨_, hall⟩ := (hsome (by decide)).2 _ rfl
  obtain ⟨_, _, hobserved⟩ := hall () rfl
  rw [hobserved rfl]
  rfl

end Train

end Oxpinyin
