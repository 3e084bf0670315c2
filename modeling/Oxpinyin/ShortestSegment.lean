import Oxpinyin.Constraint
import Mathlib.Algebra.Ring.Int.Defs
import Mathlib.Algebra.Ring.Nat

/-!
# The segmenter of fewest words

`segmentRun` fills one cell a position with the span that ends there, and walks back from the last. The
count of words is carried along the ends of one start, not along a path, so a cell's count is no count of
the words behind it. Each start still reaches the cell after it with a single character, and a cell is
only written when its count falls: every cell is reached, and every span leads back
(`segmentRun_spec`). The walk takes no other way out, and only an answer of more than four tokens aborts.
-/

namespace Oxpinyin.ShortestSegment

open List Run

/-- The token of no phrase. -/
def nullToken : PhraseToken := 0

/-- The answer of a phrase search. -/
structure Found where
  continued : Bool
  tokens : List PhraseToken

namespace Found

/-- Whether the search found a token. -/
def ok (found : Found) : Bool := !found.tokens.isEmpty

/-- The first token. More than four abort. -/
def firstToken (found : Found) : Option PhraseToken :=
  if 4 < found.tokens.length then none else some (found.tokens.head?.getD nullToken)

/-- The token of a span that is not passed over, none where it aborts. -/
def stepToken (found : Found) : Option PhraseToken :=
  if found.ok then found.firstToken else some nullToken

end Found

/-- The span that ends at a position, by what the pass knows. -/
structure Step where
  /-- A `u32`. -/
  nword : Nat
  token : PhraseToken
  phraseStart : Nat
  phraseLen : Nat
  backwardNstep : Int

/-- The cell of a position that nothing reaches. -/
def Step.unreachable : Step := ⟨2 ^ 32 - 1, nullToken, 0, 0, 0⟩

section Pass

variable (search : List (BitVec 32) → Found) (run : List (BitVec 32))

/-- What the search answers about a span. -/
def span (start stop : Nat) : Found := search ((run.take stop).drop start)

/-- Writes a span over a cell of a larger count. -/
def relaxCell (start stop nword : Nat) (token : PhraseToken) (steps : List Step) : List Step :=
  if nword < (steps.getD stop .unreachable).nword then
    steps.set stop ⟨nword % 2 ^ 32, token, start, stop - start, (start : Int) - stop⟩
  else steps

/-- The ends of one start. An end without a token is passed over, a single character apart. None where a
search aborts. -/
def relaxEnds (start : Nat) : List Nat → Nat → List Step → Option (List Step)
  | [], _, steps => some steps
  | stop :: stops, nword, steps =>
    let found := span search run start stop
    if found.ok = false ∧ stop - start ≠ 1 then relaxEnds start stops nword steps
    else
      match found.stepToken with
      | none => none
      | some token =>
        let nword := (nword + 1) % 2 ^ 64
        let steps := relaxCell start stop nword token steps
        if found.continued then relaxEnds start stops nword steps else some steps

/-- The pass over the starts. -/
def fillSteps : Option (List Step) :=
  (List.range run.length).foldlM (fun steps start =>
    relaxEnds search run start (List.range' (start + 1) (run.length - start))
      (steps.getD start .unreachable).nword steps)
    ((List.replicate (run.length + 1) .unreachable).set 0 { Step.unreachable with nword := 0 })

/-- The walk back, and whether it broke off. There is no answer where the fuel runs out. -/
def backtrace (steps : List Step) : Nat → Nat → List (PhraseToken × Nat × Nat) →
    Option (List (PhraseToken × Nat × Nat) × Bool)
  | 0, _, _ => none
  | fuel + 1, cursor, phrases =>
    if cursor = 0 then some (phrases.reverse, false)
    else
      let step := steps.getD cursor .unreachable
      let phrases := phrases ++ [(step.token, step.phraseStart, step.phraseLen)]
      if 0 ≤ step.backwardNstep then some (phrases.reverse, true)
      else backtrace steps fuel ((cursor + step.backwardNstep) % 2 ^ 64).toNat phrases

/-- The phrases of a run as token, start and length, and whether the walk broke off. None where a search
aborts. -/
def segmentRun : Option (Option (List (PhraseToken × Nat × Nat) × Bool)) :=
  (fillSteps search run).map fun steps => backtrace steps (run.length + 1) run.length []

end Pass

section Facts

variable {search : List (BitVec 32) → Found} {run : List (BitVec 32)} {start stop : Nat} {steps after : List Step}

/-! ## The pass -/

variable {token : PhraseToken}

variable (search run) in
/-- A span of the search with its first token, or a single character that it does not find. -/
structure Piece (start stop : Nat) (token : PhraseToken) : Prop where
  forward : start < stop
  found : (span search run start stop).ok = true ∧ (span search run start stop).firstToken = some token ∨
    (span search run start stop).ok = false ∧ stop = start + 1 ∧ token = nullToken

variable (search run) in
/-- A cell that is reached holds a span that ends there. -/
def Reaches (stop : Nat) (step : Step) : Prop :=
  step.nword < 2 ^ 32 - 1 → ∃ start, Piece search run start stop step.token ∧ step.phraseStart = start ∧
    step.phraseLen = stop - start ∧ step.backwardNstep = (start : Int) - stop

variable (search run) in
/-- The cells of the pass. -/
structure Sound (steps : List Step) : Prop where
  length : steps.length = run.length + 1
  reaches : ∀ stop, 0 < stop → Reaches search run stop (steps.getD stop .unreachable)

/-- No count has grown. -/
def Falls (steps after : List Step) : Prop :=
  ∀ j, (after.getD j .unreachable).nword ≤ (steps.getD j .unreachable).nword

theorem getD_set {stop j : Nat} {step : Step} (h : stop < steps.length) :
    (steps.set stop step).getD j .unreachable = if stop = j then step else steps.getD j .unreachable := by
  rw [getD_eq_getElem?_getD, getD_eq_getElem?_getD, getElem?_set, if_pos h]
  split_ifs <;> rfl

/-- A smaller count is written over a larger one. -/
theorem Sound.relaxCell (h : Sound search run steps)
    (hpiece : Piece search run start stop token) (hle : stop ≤ run.length) (nword : Nat) :
    Sound search run (relaxCell start stop nword token steps) ∧
      Falls steps (relaxCell start stop nword token steps) ∧
      ((relaxCell start stop nword token steps).getD stop .unreachable).nword ≤ nword := by
  have hin : stop < steps.length := by
    rw [h.length]
    omega
  unfold ShortestSegment.relaxCell
  split_ifs with hlt
  · refine ⟨⟨by rw [length_set, h.length], fun j hj => ?_⟩, fun j => ?_, ?_⟩
    · rw [getD_set hin]
      split_ifs with heq
      · subst heq
        exact fun _ => ⟨start, hpiece, rfl, rfl, rfl⟩
      · exact h.reaches j hj
    · rw [getD_set hin]
      split_ifs with heq
      · rw [← heq]
        exact Nat.le_trans (Nat.mod_le _ _) (Nat.le_of_lt hlt)
      · exact Nat.le_refl _
    · rw [getD_set hin, if_pos rfl]
      exact Nat.mod_le _ _
  · exact ⟨h, fun j => Nat.le_refl _, Nat.le_of_not_lt hlt⟩

/-- A span that is not passed over is a piece. -/
theorem piece_of_stepToken (hlt : start < stop)
    (hskip : ¬ ((span search run start stop).ok = false ∧ stop - start ≠ 1))
    (htoken : (span search run start stop).stepToken = some token) : Piece search run start stop token := by
  refine ⟨hlt, ?_⟩
  unfold Found.stepToken at htoken
  split_ifs at htoken with hok
  · exact Or.inl ⟨hok, htoken⟩
  · have hnone : (span search run start stop).ok = false := by simpa using hok
    refine Or.inr ⟨hnone, ?_, (Option.some.inj htoken).symm⟩
    by_contra hne
    exact hskip ⟨hnone, by omega⟩

/-- The ends of a start keep the cells sound. The first end is the single character, which is reached
with one word more. -/
theorem Sound.relaxEnds : ∀ {stops : List Nat} {nword : Nat} {steps : List Step},
    Sound search run steps → (∀ stop ∈ stops, start < stop ∧ stop ≤ run.length) →
    relaxEnds search run start stops nword steps = some after →
    Sound search run after ∧ Falls steps after ∧
      ((∃ rest, stops = (start + 1) :: rest) → (after.getD (start + 1) .unreachable).nword ≤ nword + 1)
  | [], nword, steps, h, _, hrun => by
    cases hrun
    exact ⟨h, fun j => Nat.le_refl _, fun ⟨_, hnil⟩ => by cases hnil⟩
  | stop :: stops, nword, steps, h, hstops, hrun => by
    obtain ⟨hlt, hle⟩ := hstops stop mem_cons_self
    have hrest : ∀ later ∈ stops, start < later ∧ later ≤ run.length := fun later hlater =>
      hstops later (mem_cons_of_mem _ hlater)
    rw [ShortestSegment.relaxEnds] at hrun
    dsimp only at hrun
    by_cases hskip : (span search run start stop).ok = false ∧ stop - start ≠ 1
    · -- an end passed over is not the single character
      rw [if_pos hskip] at hrun
      obtain ⟨hsound, hfalls, _⟩ := h.relaxEnds hrest hrun
      refine ⟨hsound, hfalls, fun ⟨_, hcons⟩ => absurd (cons.inj hcons).1 fun heq => hskip.2 ?_⟩
      omega
    · rw [if_neg hskip] at hrun
      cases htoken : (span search run start stop).stepToken with
      | none =>
        rw [htoken] at hrun
        cases hrun
      | some token =>
        rw [htoken] at hrun
        dsimp only at hrun
        obtain ⟨hsound, hfalls, hword⟩ := h.relaxCell (piece_of_stepToken hlt hskip htoken) hle ((nword + 1) % 2 ^ 64)
        have hfirst : (∃ rest, stop :: stops = (start + 1) :: rest) → stop = start + 1 :=
          fun ⟨_, hcons⟩ => (cons.inj hcons).1
        have hmod := Nat.mod_le (nword + 1) (2 ^ 64)
        split_ifs at hrun with hmore
        · obtain ⟨hsound', hfalls', _⟩ := hsound.relaxEnds hrest hrun
          refine ⟨hsound', fun j => Nat.le_trans (hfalls' j) (hfalls j), fun hone => ?_⟩
          rw [← hfirst hone]
          exact Nat.le_trans (hfalls' stop) (Nat.le_trans hword hmod)
        · cases hrun
          refine ⟨hsound, hfalls, fun hone => ?_⟩
          rw [← hfirst hone]
          exact Nat.le_trans hword hmod

/-- The pass up to a start : every cell up to it is reached with at most as many words as characters. -/
structure Filled (search : List (BitVec 32) → Found) (run : List (BitVec 32)) (start : Nat) (steps : List Step) :
    Prop extends Sound search run steps where
  reached : ∀ j ≤ start, (steps.getD j .unreachable).nword ≤ j

theorem filled_start : Filled search run 0
    ((replicate (run.length + 1) .unreachable).set 0 { Step.unreachable with nword := 0 }) := by
  have hin : 0 < (replicate (run.length + 1) Step.unreachable).length := by
    rw [length_replicate]
    exact Nat.succ_pos _
  refine ⟨⟨by simp, fun stop hpos => ?_⟩, fun j hj => ?_⟩
  · have hcell : ((replicate (run.length + 1) Step.unreachable).set 0
        { Step.unreachable with nword := 0 }).getD stop .unreachable = .unreachable := by
      rw [getD_set hin, if_neg (Nat.ne_of_lt hpos), getD_eq_getElem?_getD, getElem?_replicate]
      split_ifs <;> rfl
    rw [hcell]
    exact fun hlt => absurd hlt (Nat.lt_irrefl _)
  · rw [Nat.le_zero.mp hj, getD_set hin, if_pos rfl]

theorem Filled.step (h : Filled search run start steps) (hlt : start < run.length)
    (hrun : relaxEnds search run start (range' (start + 1) (run.length - start))
      (steps.getD start .unreachable).nword steps = some after) : Filled search run (start + 1) after := by
  obtain ⟨hsound, hfalls, hnext⟩ := h.toSound.relaxEnds (fun stop hstop => by
    have := mem_range'_1.mp hstop
    omega) hrun
  refine ⟨hsound, fun j hj => ?_⟩
  rcases Nat.lt_or_ge j (start + 1) with hlow | hhigh
  · exact Nat.le_trans (hfalls j) (h.reached j (by omega))
  · obtain rfl : j = start + 1 := by omega
    obtain ⟨count, hcount⟩ := Nat.exists_eq_add_of_lt hlt
    have hends : range' (start + 1) (run.length - start) = (start + 1) :: range' (start + 2) count := by
      rw [hcount, show start + count + 1 - start = count + 1 by omega, range'_succ]
    exact Nat.le_trans (hnext ⟨_, hends⟩) (Nat.succ_le_succ (h.reached start (Nat.le_refl _)))

theorem filled_fillSteps (hrun : fillSteps search run = some steps) : Filled search run run.length steps := by
  have hpass : ∀ (count start : Nat) (current : List Step), start + count = run.length →
      Filled search run start current →
      (range' start count).foldlM (fun steps start =>
        relaxEnds search run start (range' (start + 1) (run.length - start))
          (steps.getD start .unreachable).nword steps) current = some steps →
      Filled search run run.length steps := by
    intro count
    induction count with
    | zero =>
      intro start current hcount h hfold
      cases hfold
      rw [← hcount]
      exact h
    | succ count ih =>
      intro start current hcount h hfold
      rw [range'_succ, foldlM_cons] at hfold
      obtain ⟨next, hnext, hfold⟩ := Option.bind_eq_some_iff.mp hfold
      exact ih (start + 1) next (by omega) (h.step (by omega) hnext) hfold
  rw [fillSteps, range_eq_range'] at hrun
  exact hpass run.length 0 _ (Nat.zero_add _) filled_start hrun

/-- The pass aborts at a span with more than four tokens. -/
theorem exists_long_of_relaxEnds_none : ∀ {stops : List Nat} {nword : Nat} {steps : List Step},
    relaxEnds search run start stops nword steps = none →
    ∃ stop ∈ stops, 4 < (span search run start stop).tokens.length
  | [], _, _, hrun => by cases hrun
  | stop :: stops, nword, steps, hrun => by
    have hlater : (∃ later ∈ stops, 4 < (span search run start later).tokens.length) →
        ∃ later ∈ stop :: stops, 4 < (span search run start later).tokens.length := fun ⟨later, hmem, hlong⟩ =>
      ⟨later, mem_cons_of_mem _ hmem, hlong⟩
    rw [relaxEnds] at hrun
    dsimp only at hrun
    by_cases hskip : (span search run start stop).ok = false ∧ stop - start ≠ 1
    · rw [if_pos hskip] at hrun
      exact hlater (exists_long_of_relaxEnds_none hrun)
    · rw [if_neg hskip] at hrun
      cases htoken : (span search run start stop).stepToken with
      | none =>
        refine ⟨stop, mem_cons_self, ?_⟩
        unfold Found.stepToken Found.firstToken at htoken
        split_ifs at htoken with hok hlong
        exact hlong
      | some token =>
        rw [htoken] at hrun
        dsimp only at hrun
        split_ifs at hrun
        exact hlater (exists_long_of_relaxEnds_none hrun)

/-- An abort has a span with more than four tokens. -/
theorem exists_long_of_fillSteps_none (hrun : fillSteps search run = none) :
    ∃ start stop, start < stop ∧ stop ≤ run.length ∧ 4 < (span search run start stop).tokens.length := by
  have hpass : ∀ (starts : List Nat) (steps : List Step), (∀ start ∈ starts, start < run.length) →
      starts.foldlM (fun steps start =>
        relaxEnds search run start (range' (start + 1) (run.length - start))
          (steps.getD start .unreachable).nword steps) steps = none →
      ∃ start stop, start < stop ∧ stop ≤ run.length ∧ 4 < (span search run start stop).tokens.length := by
    intro starts
    induction starts with
    | nil =>
      intro steps _ hfold
      cases hfold
    | cons start starts ih =>
      intro steps hstarts hfold
      rw [foldlM_cons] at hfold
      cases hrelax : relaxEnds search run start (range' (start + 1) (run.length - start))
          (steps.getD start .unreachable).nword steps with
      | none =>
        obtain ⟨stop, hstop, hlong⟩ := exists_long_of_relaxEnds_none hrelax
        have hlow := mem_range'_1.mp hstop
        have hlt := hstarts start mem_cons_self
        exact ⟨start, stop, by omega, by omega, hlong⟩
      | some next =>
        rw [hrelax] at hfold
        exact ih next (fun s hs => hstarts s (mem_cons_of_mem _ hs)) hfold
  exact hpass _ _ (fun start hstart => mem_range.mp hstart) hrun

/-! ## The walk back -/

variable (search run) in
/-- Pieces one behind the other, from the start of the run up to a position. -/
inductive Tiling : Nat → List (PhraseToken × Nat × Nat) → Prop
  | nil : Tiling 0 []
  | snoc {start stop : Nat} {token : PhraseToken} {phrases : List (PhraseToken × Nat × Nat)}
      (before : Tiling start phrases) (piece : Piece search run start stop token) :
      Tiling stop (phrases ++ [(token, start, stop - start)])

/-- From a cell of a filled pass the walk goes back to the start, by induction on the position. -/
theorem backtrace_spec (hshort : run.length < 2 ^ 32 - 1) (h : Filled search run run.length steps) :
    ∀ (cursor : Nat) {fuel : Nat} {later : List (PhraseToken × Nat × Nat)}, cursor ≤ run.length → cursor < fuel →
      ∃ phrases, Tiling search run cursor phrases ∧
        backtrace steps fuel cursor later = some (phrases ++ later.reverse, false) := by
  intro cursor
  induction cursor using Nat.strongRecOn with
  | ind cursor ih =>
    intro fuel later hle hfuel
    obtain ⟨fuel, rfl⟩ := Nat.exists_eq_add_of_lt hfuel
    rw [backtrace]
    by_cases hzero : cursor = 0
    · rw [if_pos hzero, hzero]
      exact ⟨[], .nil, rfl⟩
    · have hword := h.reached cursor hle
      obtain ⟨start, hpiece, hstart, hlen, hback⟩ := h.reaches cursor (Nat.pos_of_ne_zero hzero) (by omega)
      have hforward := hpiece.forward
      have hnext : (((cursor : Int) + ((start : Int) - cursor)) % 2 ^ 64).toNat = start := by
        omega
      rw [if_neg hzero]
      dsimp only
      rw [hback, hstart, hlen, if_neg (by omega), hnext]
      obtain ⟨phrases, htiling, hwalk⟩ := @ih start hforward (cursor + fuel)
        (later ++ [((steps.getD cursor .unreachable).token, start, cursor - start)]) (by omega) (by omega)
      refine ⟨phrases ++ [((steps.getD cursor .unreachable).token, start, cursor - start)], htiling.snoc hpiece, ?_⟩
      rw [hwalk, reverse_append, append_assoc]
      rfl

/-- A run shorter than the largest count is cut into pieces that tile it, and the walk back does not
break off, or a search of one of its spans aborts with more than four tokens. -/
theorem segmentRun_spec (search : List (BitVec 32) → Found) (run : List (BitVec 32))
    (hshort : run.length < 2 ^ 32 - 1) :
    (∃ phrases, segmentRun search run = some (some (phrases, false)) ∧ Tiling search run run.length phrases) ∨
      segmentRun search run = none ∧
        ∃ start stop, start < stop ∧ stop ≤ run.length ∧ 4 < (span search run start stop).tokens.length := by
  unfold segmentRun
  cases hfill : fillSteps search run with
  | none => exact Or.inr ⟨rfl, exists_long_of_fillSteps_none hfill⟩
  | some steps =>
    obtain ⟨phrases, htiling, hwalk⟩ := @backtrace_spec search run steps hshort (filled_fillSteps hfill) run.length
      (run.length + 1) [] (Nat.le_refl _) (Nat.lt_succ_self _)
    rw [reverse_nil, append_nil] at hwalk
    exact Or.inl ⟨phrases, congrArg some hwalk, htiling⟩

/-- A table of one phrase of two characters. -/
def twoCharacters (words : List (BitVec 32)) : Found :=
  if words = [20320, 22909] then ⟨true, [0x01000002]⟩ else if words = [20320] then ⟨true, []⟩ else ⟨false, []⟩

theorem segmentRun_twoCharacters :
    ∃ phrases, segmentRun twoCharacters [20320, 22909, 21527] = some (some (phrases, false)) ∧
      Tiling twoCharacters [20320, 22909, 21527] 3 phrases := by
  refine (segmentRun_spec twoCharacters [20320, 22909, 21527] (by decide)).resolve_right ?_
  rintro ⟨hnone, _⟩
  revert hnone
  decide

/-- Five tokens of one character abort. -/
theorem segmentRun_five : ¬ ∀ (search : List (BitVec 32) → Found) (run : List (BitVec 32)),
    run.length < 2 ^ 32 - 1 → ∃ phrases, segmentRun search run = some (some (phrases, false)) ∧
      Tiling search run run.length phrases := by
  intro h
  obtain ⟨phrases, hrun, _⟩ := h (fun _ => ⟨true, [0x01000001, 0x02000001, 0x03000001, 0x04000001, 0x05000001]⟩)
    [20320] (by decide)
  have hnone : segmentRun (fun _ => ⟨true, [0x01000001, 0x02000001, 0x03000001, 0x04000001, 0x05000001]⟩)
      [20320] = none := by decide
  rw [hnone] at hrun
  cases hrun

end Facts

end Oxpinyin.ShortestSegment
