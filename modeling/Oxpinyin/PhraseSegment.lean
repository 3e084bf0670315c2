import Oxpinyin.Trellis

/-!
# Phrase segmentation

A sentence is cut into phrases of the table by a pass over its positions. A step holds the best node of
each token that ends there, and a node names the step and the token it extends. `phraseSegment_spec` :
the walk back from the last step resolves every name, and the starts it passes carry the tokens of
spans that tile the sentence. Searching at steps no node reaches changes nothing.
-/

namespace Oxpinyin.PhraseSegment

open List Run Step

/-- One node, the best known way to end a token at a position. -/
structure Node (α : Type) where
  token : PhraseToken
  prev : PhraseToken
  /-- Where the token starts, none for the virtual start. -/
  lastStep : Option Nat
  poss : α

/-- One step, the nodes in order of insertion and where each token stands. -/
structure Step (α : Type) where
  content : List (Node α)
  index : List (PhraseToken × Nat)

/-- A step without nodes. -/
def Step.empty {α : Type} : Step α := ⟨[], []⟩

/-- The node under a token. -/
def Step.find {α : Type} (step : Step α) (token : PhraseToken) : Option (Node α) :=
  (step.index.lookup token).bind fun position => step.content[position]?

/-- The reads of a language model, through the row a predecessor has loaded. -/
structure StepModel (ε α β ρ : Type) where
  emptyRow : ρ
  successorsInRow : PhraseToken → ρ → Except ε (Option NbestSuccessors × ρ)
  stepCosts : PhraseToken → PhraseToken → Except ε (NbestStepCosts α β)
  itemCostsInRow : PhraseToken → PhraseToken → Option (Nat × Nat) → ρ → Except ε (NbestStepCosts α β × ρ)

/-- The answer, told apart by how the walk back ends. -/
inductive Answer where
  /-- The last step has no node. -/
  | unmatched (result : List PhraseToken)
  /-- A node names one that is not there. -/
  | broken (result : List PhraseToken)
  | matched (result : List PhraseToken)
  deriving DecidableEq

/-- What the caller sees. -/
def Answer.value : Answer → Bool × List PhraseToken
  | unmatched result => (false, result)
  | broken result => (false, result)
  | matched result => (true, result)

section Pass

variable {ε α β ρ : Type} (ops : FloatOps α β) (model : StepModel ε α β ρ)

namespace Step

variable (step : Step α)

def relax (node : Node α) : Step α :=
  match step.index.lookup node.token with
  | some position =>
    match step.content[position]? with
    | some existing =>
      if ops.lt existing.poss node.poss then { step with content := step.content.set position node } else step
    | none => step
  | none => ⟨step.content ++ [node], (node.token, step.content.length) :: step.index⟩

/-- The first node of the largest possibility. -/
def best : Option (Node α) :=
  match step.content with
  | [] => none
  | first :: rest => some (rest.foldl (fun best node => if ops.lt best.poss node.poss then node else best) first)

end Step

/-- The costs of a token behind another, from the row of the first. -/
def stepCosts (prev token : PhraseToken) (row : ρ) : Except (EngineError ε) (NbestStepCosts α β × ρ) :=
  match model.successorsInRow prev row with
  | .error e => .error (.rowRead prev e)
  | .ok (none, row) => ((model.stepCosts prev token).mapError (.rowRead prev)).map (·, row)
  | .ok (some .miss, row) => (model.itemCostsInRow prev token none row).mapError (.rowRead prev)
  | .ok (some (.row gram), row) =>
    match gram.fault with
    | some fault => .error (.lookupGram prev fault)
    | none =>
      match gram.getFreq token with
      | .error fault => .error (.lookupGram prev fault)
      | .ok none => (model.itemCostsInRow prev token none row).mapError (.rowRead prev)
      | .ok (some freq) =>
        match gram.total with
        | .error fault => .error (.lookupGram prev fault)
        | .ok total => (model.itemCostsInRow prev token (some (freq, total)) row).mapError (.rowRead prev)

/-- One token of a span behind one node. The unigram branch is kept for the end of the span. -/
def relaxToken (start : Nat) (uniFrom : Option (Node α)) (node : Node α)
    (acc : (Step α × List (PhraseToken × β)) × ρ) (token : PhraseToken) :
    Except (EngineError ε) ((Step α × List (PhraseToken × β)) × ρ) :=
  (stepCosts model node.token token acc.2).map fun priced =>
    let costs := priced.1
    let step := match costs.blended with
      | some blended => acc.1.1.relax ops ⟨token, node.token, some start, ops.advance node.poss blended⟩
      | none => acc.1.1
    let unigrams := match uniFrom, costs.unigram with
      | some best, some unigram =>
        if best.token = node.token then acc.1.2 ++ [(token, ops.scale unigram costs.unigramLambda)] else acc.1.2
      | _, _ => acc.1.2
    ((step, unigrams), priced.2)

/-- The tokens of a span behind one node. -/
def relaxNode (start : Nat) (uniFrom : Option (Node α)) (tokens : List PhraseToken)
    (acc : Step α × List (PhraseToken × β)) (node : Node α) :
    Except (EngineError ε) (Step α × List (PhraseToken × β)) :=
  (tokens.foldlM (relaxToken ops model start uniFrom node) (acc, model.emptyRow)).map (·.1)

/-- One token of the unigram branch. -/
def relaxUnigram (start : Nat) (uniFrom : Option (Node α)) (step : Step α) (entry : PhraseToken × β) : Step α :=
  match uniFrom with
  | some best => step.relax ops ⟨entry.1, best.token, some start, ops.advance best.poss entry.2⟩
  | none => step

/-- A span : the bigram branch of every node, then the unigram branch of the best. -/
def relaxSpan (start : Nat) (predecessors : List (Node α)) (uniFrom : Option (Node α)) (tokens : List PhraseToken)
    (step : Step α) : Except (EngineError ε) (Step α) :=
  (predecessors.foldlM (relaxNode ops model start uniFrom tokens) (step, [])).map fun acc =>
    acc.2.foldl (relaxUnigram ops start uniFrom) acc.1

variable (table : Nat → Nat → List PhraseToken × Bool)

/-- The spans from a start, up to the first that does not continue. -/
def spanLoop (start : Nat) (predecessors : List (Node α)) (uniFrom : Option (Node α)) :
    List Nat → List (Step α) → Except (EngineError ε) (List (Step α))
  | [], steps => .ok steps
  | stop :: rest, steps =>
    let found := table start stop
    if found.1 = [] then
      if found.2 then spanLoop start predecessors uniFrom rest steps else .ok steps
    else
      match relaxSpan ops model start predecessors uniFrom found.1 (steps.getD stop .empty) with
      | .error e => .error e
      | .ok step =>
        if found.2 then spanLoop start predecessors uniFrom rest (steps.set stop step)
        else .ok (steps.set stop step)

/-- One position. A step no node reaches is searched only where searches are observable. -/
def expandStep (n : Nat) (observable : Bool) (steps : List (Step α)) (i : Nat) :
    Except (EngineError ε) (List (Step α)) :=
  let step := steps.getD i .empty
  if step.content = [] ∧ observable = false then .ok steps
  else spanLoop ops model table i step.content (step.best ops)
    (List.range' (i + 1) (min n (i + maxPhraseLength) - i)) steps

/-- The walk back. There is no answer where the fuel runs out. -/
def backtrack (steps : List (Step α)) : Nat → Node α → List PhraseToken → Option Answer
  | 0, _, _ => none
  | fuel + 1, cursor, result =>
    match cursor.lastStep with
    | none => some (.matched result)
    | some start =>
      match (steps.getD start .empty).find cursor.prev with
      | none => some (.broken (result.set start cursor.token))
      | some node => backtrack steps fuel node (result.set start cursor.token)

/-- The virtual start. -/
def startStep : Step α := Step.empty.relax ops ⟨sentenceStart, 0, none, ops.zero⟩

/-- Segments `n` positions. -/
def segment (n : Nat) (observable : Bool) : Except (EngineError ε) (Option Answer) :=
  ((List.range n).foldlM (expandStep ops model table n observable)
    (startStep ops :: List.replicate n .empty)).map fun steps =>
      match (steps.getD n .empty).best ops with
      | none => some (.unmatched (List.replicate n 0))
      | some best => backtrack steps (n + 1) best (List.replicate n 0)

end Pass

/-- The reads of a phrase table. -/
structure PhraseTable where
  tokensForUcs4 : List Nat → List PhraseToken
  phraseSpanContinues : List Nat → Bool

/-- What a table answers about a span. -/
def PhraseTable.spans (table : PhraseTable) (words : List Nat) (start stop : Nat) : List PhraseToken × Bool :=
  (table.tokensForUcs4 ((words.take stop).drop start), table.phraseSpanContinues ((words.take stop).drop start))

def phraseSegmentUcs4 {ε α β ρ : Type} (ops : FloatOps α β) (model : StepModel ε α β ρ) (table : PhraseTable)
    (observable : Bool) (sentence : List Nat) : Except (EngineError ε) (Option Answer) :=
  segment ops model (table.spans sentence) sentence.length observable

def phraseSegment {ε α β ρ : Type} (ops : FloatOps α β) (model : StepModel ε α β ρ) (table : PhraseTable)
    (observable : Bool) (sentence : List Char) : Except (EngineError ε) (Option Answer) :=
  phraseSegmentUcs4 ops model table observable (sentence.map Char.toNat)

section Facts

variable {ε α β ρ : Type} {ops : FloatOps α β} {model : StepModel ε α β ρ}
  {table : Nat → Nat → List PhraseToken × Bool}

/-! ## One step -/

variable {token : PhraseToken} {node : Node α}

/-- The index knows the place of every node. -/
structure Step.Indexed (step : Step α) : Prop where
  found : ∀ token position, step.index.lookup token = some position →
    ∃ node, step.content[position]? = some node ∧ node.token = token
  listed : ∀ node ∈ step.content, ∃ position, step.index.lookup node.token = some position

/-- The index knows every node, and each node is of some kind. -/
structure Step.Holds (kind : Node α → Prop) (step : Step α) : Prop extends Step.Indexed step where
  kinds : ∀ node ∈ step.content, kind node

/-- A token of a step. -/
def Step.Has (step : Step α) (token : PhraseToken) : Prop := ∃ node ∈ step.content, node.token = token

theorem Step.holds_empty (kind : Node α → Prop) : Step.Holds kind empty where
  found _ _ h := by cases h
  listed _ h := by cases h
  kinds _ h := by cases h

/-- A token of an indexed step is found. -/
theorem Step.Indexed.find {step : Step α} (h : step.Indexed) (htoken : step.Has token) :
    ∃ node ∈ step.content, step.find token = some node ∧ node.token = token := by
  obtain ⟨node, hnode, rfl⟩ := htoken
  obtain ⟨position, hposition⟩ := h.listed node hnode
  obtain ⟨found, hfound, htoken⟩ := h.found _ _ hposition
  refine ⟨found, mem_of_getElem? hfound, ?_, htoken⟩
  rw [Step.find, hposition, Option.bind_some, hfound]

/-- Relaxing keeps the index and the kind of the nodes, and no token is lost. -/
theorem Step.Holds.relax {kind : Node α → Prop} {step : Step α} (h : step.Holds kind) {node : Node α}
    (hnode : kind node) : (step.relax ops node).Holds kind ∧ ∀ token, step.Has token →
    (step.relax ops node).Has token := by
  unfold Step.relax
  cases hlookup : step.index.lookup node.token with
  | none =>
    dsimp only
    refine ⟨⟨⟨fun token position hposition => ?_, fun other hother => ?_⟩, fun other hother => ?_⟩, ?_⟩
    · rw [lookup_cons] at hposition
      split at hposition
      · rename_i heq
        cases hposition
        refine ⟨node, by simp, (beq_iff_eq.mp heq).symm⟩
      · obtain ⟨found, hfound, htoken⟩ := h.found token position hposition
        exact ⟨found, by rw [getElem?_append_left (List.getElem?_eq_some_iff.mp hfound).1, hfound], htoken⟩
    · rw [lookup_cons]
      split
      · exact ⟨_, rfl⟩
      · rename_i hne
        rcases mem_append.mp hother with hold | hnew
        · exact h.listed other hold
        · rw [mem_singleton.mp hnew, beq_self_eq_true] at hne
          cases hne
    · rcases mem_append.mp hother with hold | hnew
      · exact h.kinds other hold
      · rw [mem_singleton.mp hnew]
        exact hnode
    · rintro token ⟨other, hother, rfl⟩
      exact ⟨other, mem_append_left _ hother, rfl⟩
  | some position =>
    dsimp only
    obtain ⟨existing, hexisting, htoken⟩ := h.found _ _ hlookup
    rw [hexisting]
    dsimp only
    split_ifs with hlt
    · have hin := (List.getElem?_eq_some_iff.mp hexisting).1
      have hget : ∀ j : Nat, ∀ old, step.content[j]? = some old →
          ∃ fresh, (step.content.set position node)[j]? = some fresh ∧ fresh.token = old.token := by
        intro j old hold
        rw [getElem?_set]
        split_ifs with heq
        · subst heq
          rw [hexisting] at hold
          cases hold
          exact ⟨node, rfl, htoken.symm⟩
        · exact ⟨old, hold, rfl⟩
      refine ⟨⟨⟨fun token j hj => ?_, fun other hother => ?_⟩, fun other hother => ?_⟩, ?_⟩
      · obtain ⟨old, hold, rfl⟩ := h.found token j hj
        exact hget j old hold
      · rcases mem_or_eq_of_mem_set hother with hold | rfl
        · exact h.listed other hold
        · exact ⟨position, hlookup⟩
      · rcases mem_or_eq_of_mem_set hother with hold | rfl
        · exact h.kinds other hold
        · exact hnode
      · rintro token ⟨old, hold, rfl⟩
        obtain ⟨j, hj⟩ := mem_iff_getElem?.mp hold
        obtain ⟨fresh, hfresh, htoken⟩ := hget j old hj
        exact ⟨fresh, mem_of_getElem? hfresh, htoken⟩
    · exact ⟨h, fun _ htoken => htoken⟩

/-- The best node is one of the step. -/
theorem Step.best_mem {step : Step α} (h : step.best ops = some node) : node ∈ step.content := by
  unfold best at h
  cases hcontent : step.content with
  | nil => simp [hcontent] at h
  | cons first rest =>
    rw [hcontent] at h
    cases h
    have hfold : ∀ (rest : List (Node α)) (first : Node α),
        rest.foldl (fun best node => if ops.lt best.poss node.poss then node else best) first ∈ first :: rest := by
      intro rest
      induction rest with
      | nil => simp
      | cons node rest ih =>
        intro first
        rw [foldl_cons]
        split_ifs
        · exact mem_cons_of_mem _ (ih node)
        · rcases mem_cons.mp (ih first) with heq | hin
          · rw [heq]
            exact mem_cons_self
          · exact mem_cons_of_mem _ (mem_cons_of_mem _ hin)
    exact hfold rest first

theorem Step.best_eq_none {step : Step α} : step.best ops = none ↔ step.content = [] := by
  unfold best
  cases step.content <;> simp

/-! ## One span -/

variable {kind : Node α → Prop} {tokens : List PhraseToken}

variable {from_ after : Step α} {start : Nat}

/-- A node of a span that extends a token of the step the span starts at. -/
def Extends (from_ : Step α) (start : Nat) (tokens : List PhraseToken) (node : Node α) : Prop :=
  node.lastStep = some start ∧ node.token ∈ tokens ∧ from_.Has node.prev

/-- What holds in the bigram branch of a span : the step keeps its nodes' kind and its tokens, and the
unigram branch is over tokens of the span. -/
def SpanKept (kind : Node α → Prop) (step : Step α) (tokens : List PhraseToken)
    (acc : Step α × List (PhraseToken × β)) : Prop :=
  (acc.1.Holds kind ∧ ∀ token, step.Has token → acc.1.Has token) ∧ ∀ entry ∈ acc.2, entry.1 ∈ tokens

/-- A token behind a node keeps it. -/
theorem SpanKept.relaxToken {step : Step α}
    (hkind : ∀ node, Extends from_ start tokens node → kind node) {uniFrom : Option (Node α)}
    (hnode : node ∈ from_.content) {acc after : (Step α × List (PhraseToken × β)) × ρ}
    (htoken : token ∈ tokens) (hacc : SpanKept kind step tokens acc.1)
    (hnext : relaxToken ops model start uniFrom node acc token = .ok after) : SpanKept kind step tokens after.1 := by
  obtain ⟨priced, _, rfl⟩ := map_eq_ok hnext
  obtain ⟨⟨hholds, hlost⟩, hentries⟩ := hacc
  refine ⟨?_, ?_⟩
  · dsimp only
    cases priced.1.blended with
    | none => exact ⟨hholds, hlost⟩
    | some blended =>
      obtain ⟨hrelaxed, hgrown⟩ := @Step.Holds.relax α β ops kind acc.1.1 hholds
        ⟨token, node.token, some start, ops.advance node.poss blended⟩ (hkind _ ⟨rfl, htoken, node, hnode, rfl⟩)
      exact ⟨hrelaxed, fun other hother => hgrown other (hlost other hother)⟩
  · dsimp only
    split
    · split_ifs
      · intro entry hentry
        rcases mem_append.mp hentry with hold | hnew
        · exact hentries entry hold
        · rw [mem_singleton.mp hnew]
          exact htoken
      · exact hentries
    · exact hentries

/-- A span keeps what a step holds, and no token is lost. -/
theorem relaxSpan_spec {step : Step α}
    (hkind : ∀ node, Extends from_ start tokens node → kind node) (hstep : step.Holds kind)
    (hrun : relaxSpan ops model start from_.content (from_.best ops) tokens step = .ok after) :
    after.Holds kind ∧ ∀ token, step.Has token → after.Has token := by
  obtain ⟨⟨grown, unigrams⟩, hfold, rfl⟩ := map_eq_ok hrun
  have hbigram : SpanKept kind step tokens (grown, unigrams) := by
    refine @foldlM_inv _ _ _ _ (SpanKept kind step tokens) _ _ _ (fun acc node after hnode hacc hnext => ?_)
      ⟨⟨hstep, fun _ h => h⟩, by simp⟩ hfold
    obtain ⟨last, hinner, rfl⟩ := map_eq_ok hnext
    exact @foldlM_inv _ _ _ _ (fun acc => SpanKept kind step tokens acc.1) _ _ _
      (fun acc token after htoken hacc hnext => hacc.relaxToken hkind hnode htoken hnext) hacc hinner
  obtain ⟨hgrown, hentries⟩ := hbigram
  clear hfold hrun
  dsimp only at hgrown hentries ⊢
  induction unigrams generalizing grown with
  | nil => exact hgrown
  | cons entry unigrams ih =>
    refine ih (relaxUnigram ops start (from_.best ops) grown entry) ?_ fun later hlater =>
      hentries later (mem_cons_of_mem _ hlater)
    unfold relaxUnigram
    cases hbest : from_.best ops with
    | none => exact hgrown
    | some best =>
      obtain ⟨hrelaxed, hmore⟩ := @Step.Holds.relax α β ops kind grown hgrown.1
        ⟨entry.1, best.token, some start, ops.advance best.poss entry.2⟩
        (hkind _ ⟨rfl, hentries entry mem_cons_self, best, Step.best_mem hbest, rfl⟩)
      exact ⟨hrelaxed, fun other hother => hmore other (hgrown.2 other hother)⟩

/-- Behind no node a span changes nothing. -/
theorem relaxSpan_nil (start : Nat) (tokens : List PhraseToken) (step : Step α) :
    relaxSpan ops model start [] none tokens step = .ok step := rfl

/-! ## The pass -/

variable {observable : Bool}

variable {steps : List (Step α)} {stop n : Nat}

variable (table) in
/-- A node at a position names a span of the table and a node at its start. -/
def Linked (steps : List (Step α)) (stop : Nat) (node : Node α) : Prop :=
  ∃ start, node.lastStep = some start ∧ start < stop ∧ stop ≤ start + maxPhraseLength ∧
    node.token ∈ (table start stop).1 ∧ (steps.getD start .empty).Has node.prev

variable (ops table) in
/-- The steps of the pass : the virtual start, and linked nodes behind it. -/
structure Sound (n : Nat) (steps : List (Step α)) : Prop where
  length : steps.length = n + 1
  start : steps.getD 0 .empty = startStep ops
  linked : ∀ stop, 0 < stop → (steps.getD stop .empty).Holds (Linked table steps stop)

theorem getD_set {j : Nat} (h : stop < steps.length) :
    (steps.set stop after).getD j .empty = if stop = j then after else steps.getD j .empty := by
  rw [getD_eq_getElem?_getD, getD_eq_getElem?_getD, getElem?_set, if_pos h]
  split_ifs <;> rfl

/-- A step that grows keeps the steps sound. -/
theorem Sound.set (h : Sound ops table n steps)
    (hpos : 0 < stop) (hle : stop ≤ n) (hafter : after.Holds (Linked table steps stop))
    (hgrown : ∀ token, (steps.getD stop .empty).Has token → after.Has token) :
    Sound ops table n (steps.set stop after) := by
  have hin : stop < steps.length := by
    rw [h.length]
    omega
  have hhas : ∀ j token, (steps.getD j .empty).Has token → ((steps.set stop after).getD j .empty).Has token := by
    intro j token htoken
    rw [getD_set hin]
    split_ifs with heq
    · exact hgrown token (heq ▸ htoken)
    · exact htoken
  have hlinked : ∀ j node, Linked table steps j node → Linked table (steps.set stop after) j node :=
    fun j node ⟨start, hstart, hlt, hle, hmem, hprev⟩ => ⟨start, hstart, hlt, hle, hmem, hhas start _ hprev⟩
  refine ⟨by rw [length_set, h.length], ?_, fun j hj => ?_⟩
  · rw [getD_set hin, if_neg (Nat.ne_of_gt hpos), h.start]
  · rw [getD_set hin]
    split_ifs with heq
    · subst heq
      exact ⟨hafter.toIndexed, fun node hnode => hlinked stop node (hafter.kinds node hnode)⟩
    · exact ⟨(h.linked j hj).toIndexed, fun node hnode => hlinked j node ((h.linked j hj).kinds node hnode)⟩

/-- A span from a start keeps the steps sound. -/
theorem Sound.relaxed {step : Step α} (h : Sound ops table n steps)
    (hfrom : steps.getD start .empty = from_) (hlt : start < stop) (hle : stop ≤ n)
    (hspan : stop ≤ start + maxPhraseLength)
    (hrelax : relaxSpan ops model start from_.content (from_.best ops) (table start stop).1
      (steps.getD stop .empty) = .ok step) : Sound ops table n (steps.set stop step) := by
  obtain ⟨hholds, hgrown⟩ := relaxSpan_spec (fun node hnode => ⟨start, hnode.1, hlt, hspan, hnode.2.1,
    by rw [hfrom]; exact hnode.2.2⟩) (h.linked stop (by omega)) hrelax
  exact h.set (by omega) hle hholds hgrown

/-- The spans of a start keep the steps sound, by induction on their ends. -/
theorem Sound.spanLoop : ∀ {stops : List Nat} {steps after : List (Step α)},
    Sound ops table n steps → steps.getD start .empty = from_ →
    (∀ stop ∈ stops, start < stop ∧ stop ≤ n ∧ stop ≤ start + maxPhraseLength) →
    spanLoop ops model table start from_.content (from_.best ops) stops steps = .ok after → Sound ops table n after
  | [], steps, after, h, _, _, hrun => by
    cases hrun
    exact h
  | stop :: stops, steps, after, h, hfrom, hstops, hrun => by
    obtain ⟨hlt, hle, hspan⟩ := hstops stop mem_cons_self
    have hrest : ∀ later ∈ stops, start < later ∧ later ≤ n ∧ later ≤ start + maxPhraseLength := fun later hlater =>
      hstops later (mem_cons_of_mem _ hlater)
    rw [PhraseSegment.spanLoop] at hrun
    split_ifs at hrun with hnone hmore hmore
    · exact h.spanLoop hfrom hrest hrun
    · cases hrun
      exact h
    · rcases hrelax : relaxSpan ops model start from_.content (from_.best ops) (table start stop).1
        (steps.getD stop .empty) with e | step
      · rw [hrelax] at hrun
        cases hrun
      · rw [hrelax] at hrun
        refine (h.relaxed hfrom hlt hle hspan hrelax).spanLoop ?_ hrest hrun
        rw [getD_set (by rw [h.length]; omega), if_neg (by omega), hfrom]
    · rcases hrelax : relaxSpan ops model start from_.content (from_.best ops) (table start stop).1
        (steps.getD stop .empty) with e | step
      · rw [hrelax] at hrun
        cases hrun
      · rw [hrelax] at hrun
        cases hrun
        exact h.relaxed hfrom hlt hle hspan hrelax

/-- Without nodes at the start its spans change nothing. -/
theorem spanLoop_nil {start : Nat} : ∀ {stops : List Nat} {steps : List (Step α)},
    spanLoop ops model table start [] none stops steps = .ok steps
  | [], _ => rfl
  | stop :: stops, steps => by
    have hset : steps.set stop (steps.getD stop .empty) = steps := by
      by_cases hin : stop < steps.length
      · rw [getD_eq_getElem?_getD, getElem?_eq_getElem hin, Option.getD_some, set_getElem_self]
      · rw [set_eq_of_length_le (Nat.le_of_not_lt hin)]
    rw [spanLoop, relaxSpan_nil]
    dsimp only
    rw [hset, spanLoop_nil]
    split_ifs <;> rfl

/-- Searching where no node is changes nothing. -/
theorem expandStep_observable (n : Nat) (steps : List (Step α)) (i : Nat) :
    expandStep ops model table n true steps i = expandStep ops model table n false steps i := by
  unfold expandStep
  by_cases hnone : (steps.getD i .empty).content = []
  · have hbest := (@Step.best_eq_none α β ops (steps.getD i .empty)).mpr hnone
    dsimp only
    rw [hbest, hnone, spanLoop_nil]
    simp
  · dsimp only
    rw [if_neg fun h => hnone h.1, if_neg fun h => hnone h.1]

theorem sound_start (n : Nat) : Sound ops table n (startStep ops :: replicate n .empty) where
  length := by simp
  start := rfl
  linked stop hpos := by
    obtain ⟨j, rfl⟩ := Nat.exists_eq_add_of_lt hpos
    have hempty : (startStep ops :: replicate n Step.empty).getD (0 + j + 1) .empty = .empty := by
      rw [getD_cons_succ, getD_eq_getElem?_getD, getElem?_replicate]
      split_ifs <;> rfl
    rw [hempty]
    exact Step.holds_empty _

/-- The steps are sound behind the pass. -/
theorem sound_pass (hrun : (range n).foldlM (expandStep ops model table n observable)
      (startStep ops :: replicate n .empty) = .ok steps) : Sound ops table n steps := by
  refine @foldlM_inv _ _ _ _ (Sound ops table n) _ _ _ (fun steps i after hi h hnext => ?_) (sound_start n) hrun
  unfold expandStep at hnext
  dsimp only at hnext
  split_ifs at hnext with hskip
  · cases hnext
    exact h
  · refine h.spanLoop rfl (fun stop hstop => ?_) hnext
    have hlt := mem_range.mp hi
    obtain ⟨hlow, hhigh⟩ := mem_range'_1.mp hstop
    omega

/-! ## The walk back -/

variable (table) in
/-- Spans of the table, one behind the other, from the start of the sentence up to a position. -/
inductive Tiling : Nat → List (Nat × Nat × PhraseToken) → Prop
  | nil : Tiling 0 []
  | snoc {start stop : Nat} {token : PhraseToken} {spans : List (Nat × Nat × PhraseToken)}
    (before : Tiling start spans)
      (forward : start < stop) (short : stop ≤ start + maxPhraseLength) (listed : token ∈ (table start stop).1) :
      Tiling stop (spans ++ [(start, stop, token)])

section

variable (spans : List (Nat × Nat × PhraseToken))

/-- Writes the tokens of spans at their starts. -/
def place (result : List PhraseToken) : List PhraseToken :=
  spans.foldr (fun span result => result.set span.1 span.2.2) result

theorem place_concat (start stop : Nat) (token : PhraseToken) (result : List PhraseToken) :
    place (spans ++ [(start, stop, token)]) result = place spans (result.set start token) := by
  rw [place, foldr_append]
  rfl

theorem length_place (result : List PhraseToken) : (place spans result).length = result.length := by
  induction spans with
  | nil => rfl
  | cons span spans ih => rw [place, foldr_cons, length_set]; exact ih

end

/-- Where no span starts nothing is written. -/
theorem getElem?_place_of_ne {spans : List (Nat × Nat × PhraseToken)} {p : Nat} (h : ∀ span ∈ spans, span.1 ≠ p)
    (result : List PhraseToken) : (place spans result)[p]? = result[p]? := by
  induction spans with
  | nil => rfl
  | cons span spans ih =>
    rw [place, foldr_cons, getElem?_set_ne (h span mem_cons_self)]
    exact ih fun later hlater => h later (mem_cons_of_mem _ hlater)

theorem Tiling.lt {spans : List (Nat × Nat × PhraseToken)} (h : Tiling table stop spans) :
    ∀ span ∈ spans, span.1 < stop := by
  induction h with
  | nil => simp
  | snoc _ hlt _ _ ih =>
    intro span hspan
    rcases mem_append.mp hspan with hspan | hspan
    · exact Nat.lt_trans (ih span hspan) hlt
    · rw [mem_singleton.mp hspan]
      exact hlt

/-- A start carries the token of its span. -/
theorem Tiling.getElem?_place {stop : Nat} {spans : List (Nat × Nat × PhraseToken)} (h : Tiling table stop spans) :
    ∀ {result : List PhraseToken}, stop ≤ result.length →
      ∀ span ∈ spans, (place spans result)[span.1]? = some span.2.2 := by
  induction h with
  | nil => simp
  | snoc before hlt _ _ ih =>
    intro result hle span hspan
    rw [place_concat]
    rcases mem_append.mp hspan with hspan | hspan
    · exact ih (by rw [length_set]; omega) span hspan
    · rw [mem_singleton.mp hspan, getElem?_place_of_ne fun other hother => Nat.ne_of_lt (before.lt other hother),
        getElem?_set_self (by omega)]

/-- The walk back from a node of a sound pass reaches the virtual start, by induction on its position. -/
theorem backtrack_spec {n : Nat} {steps : List (Step α)} (h : Sound ops table n steps) :
    ∀ (stop : Nat) {cursor : Node α} {fuel : Nat} {result : List PhraseToken},
      cursor ∈ (steps.getD stop .empty).content → stop < fuel → ∃ spans, Tiling table stop spans ∧
        backtrack steps fuel cursor result = some (.matched (place spans result)) := by
  intro stop
  induction stop using Nat.strongRecOn with
  | ind stop ih =>
    intro cursor fuel result hcursor hfuel
    obtain ⟨fuel, rfl⟩ := Nat.exists_eq_add_of_lt hfuel
    rw [backtrack]
    rcases Nat.eq_zero_or_pos stop with rfl | hpos
    · rw [h.start] at hcursor
      rw [mem_singleton.mp hcursor]
      exact ⟨[], .nil, rfl⟩
    · have hlinked := h.linked stop hpos
      obtain ⟨start, hstart, hlt, hshort, hlisted, hprev⟩ := hlinked.kinds cursor hcursor
      have hindexed : (steps.getD start .empty).Indexed := by
        rcases Nat.eq_zero_or_pos start with rfl | hpos
        · rw [h.start]
          exact (Step.Holds.relax (Step.holds_empty fun _ => True) trivial).1.toIndexed
        · exact (h.linked start hpos).toIndexed
      obtain ⟨node, hnode, hfind, _⟩ := hindexed.find hprev
      obtain ⟨spans, htiling, hback⟩ := @ih start hlt node (stop + fuel) (result.set start cursor.token) hnode
        (by omega)
      rw [hstart]
      dsimp only
      rw [hfind]
      dsimp only
      rw [hback, ← place_concat spans start stop]
      exact ⟨_, htiling.snoc hlt hshort hlisted, rfl⟩

/-- The answers of a segmentation : no node at the end, or the tokens of a tiling at its starts. -/
theorem segment_spec {answer : Option Answer}
    (hrun : segment ops model table n observable = .ok answer) :
    answer = some (.unmatched (replicate n 0)) ∨
      ∃ spans, Tiling table n spans ∧ answer = some (.matched (place spans (replicate n 0))) := by
  obtain ⟨steps, hpass, rfl⟩ := map_eq_ok hrun
  have hsound := sound_pass hpass
  cases hbest : (steps.getD n .empty).best ops with
  | none => exact Or.inl rfl
  | some best =>
    obtain ⟨spans, htiling, hback⟩ := @backtrack_spec α β ops table n steps hsound n best (n + 1)
      (replicate n 0) (Step.best_mem hbest) (Nat.lt_succ_self n)
    exact Or.inr ⟨spans, htiling, hback⟩

/-- Whether searches are observable changes no answer. -/
theorem segment_observable (n : Nat) (observable : Bool) :
    segment ops model table n observable = segment ops model table n false := by
  cases observable with
  | false => rfl
  | true =>
    have hstep : expandStep ops model table n true = expandStep ops model table n false :=
      funext fun steps => funext fun i => expandStep_observable n steps i
    rw [segment, segment, hstep]

/-- An answer is as long as the sentence. When it matches, it carries the tokens of spans of the table
that tile the sentence at their starts and the null token elsewhere, and else the null token alone. The
walk back always resolves, and observable searches change no answer. -/
theorem phraseSegment_spec (ops : FloatOps α β) (model : StepModel ε α β ρ) (table : PhraseTable) (observable : Bool)
    (sentence : List Char) :
    phraseSegment ops model table observable sentence = phraseSegment ops model table false sentence ∧
    ∀ answer, phraseSegment ops model table observable sentence = .ok answer →
      ∃ matched result, answer = some (if matched then .matched result else .unmatched result) ∧
        result.length = sentence.length ∧
        (matched = false → result = List.replicate sentence.length 0) ∧
        (matched = true → ∃ spans, Tiling (table.spans (sentence.map Char.toNat)) sentence.length spans ∧
          (∀ span ∈ spans, result[span.1]? = some span.2.2) ∧
          (∀ p < sentence.length, (∀ span ∈ spans, span.1 ≠ p) → result[p]? = some 0) ∧
          ((∀ span ∈ spans, span.2.2 ≠ 0) →
            ∀ p < sentence.length, result[p]? ≠ some 0 ↔ ∃ span ∈ spans, span.1 = p)) := by
  have hlength : (sentence.map Char.toNat).length = sentence.length := length_map _
  refine ⟨segment_observable _ observable, fun answer hrun => ?_⟩
  rw [phraseSegment, phraseSegmentUcs4, hlength] at hrun
  rcases segment_spec hrun with rfl | ⟨spans, htiling, rfl⟩
  · exact ⟨false, _, rfl, length_replicate, fun _ => rfl, fun h => absurd h Bool.false_ne_true⟩
  · have hplaced : ∀ span ∈ spans, (place spans (List.replicate sentence.length 0))[span.1]? = some span.2.2 :=
      htiling.getElem?_place (by rw [length_replicate])
    have helse : ∀ p < sentence.length, (∀ span ∈ spans, span.1 ≠ p) →
        (place spans (List.replicate sentence.length 0))[p]? = some 0 := by
      intro p hp hne
      rw [getElem?_place_of_ne hne, getElem?_replicate, if_pos hp]
    have hcount : (place spans (List.replicate sentence.length 0)).length = sentence.length := by
      rw [length_place, length_replicate]
    refine ⟨true, _, rfl, hcount, fun h => absurd h.symm Bool.false_ne_true, fun _ =>
      ⟨spans, htiling, hplaced, helse, fun hnull p hp => ⟨fun hset => ?_, ?_⟩⟩⟩
    · by_contra hnone
      exact hset (helse p hp fun span hspan heq => hnone ⟨span, hspan, heq⟩)
    · rintro ⟨span, hspan, rfl⟩ hzero
      rw [hplaced span hspan] at hzero
      exact hnull span hspan (Option.some.inj hzero)

/-- Possibilities that are counts. -/
def countOps : FloatOps Nat Nat :=
  ⟨0, 1, 0, fun a b => decide (a < b), fun _ => false, fun a _ => a, fun a _ => a, fun a b => a * b, fun a b => a + b⟩

/-- A model without rows that knows every token by its unigram. -/
def unigramModel : StepModel Unit Nat Nat Unit :=
  ⟨(), fun _ _ => .ok (none, ()), fun _ _ => .ok ⟨none, some 1, 1⟩, fun _ _ _ _ => .ok (⟨none, some 1, 1⟩, ())⟩

/-- A table whose every span is the null token. -/
def nullTable : PhraseTable := ⟨fun _ => [0], fun _ => true⟩

/-- A span of the null token is matched at a position that stays null. -/
theorem phraseSegment_null : ¬ ∀ answer, phraseSegment countOps unigramModel nullTable false ['你'] = .ok answer →
    ∃ result spans, answer = some (.matched result) ∧ Tiling (nullTable.spans [20320]) 1 spans ∧
      ∀ p < 1, result[p]? ≠ some 0 ↔ ∃ span ∈ spans, span.1 = p := by
  intro hall
  obtain ⟨result, spans, hanswer, htiling, hstarts⟩ := hall (some (.matched [0])) rfl
  cases hanswer
  cases htiling with
  | @snoc start _ token spans before hlt _ _ =>
    obtain rfl : start = 0 := by omega
    exact (hstarts 0 (by omega)).mpr ⟨(0, 1, token), by simp, rfl⟩ rfl

end Facts

end Oxpinyin.PhraseSegment
