import Oxpinyin.Generation

/-!
# The n-best trellis

A step holds, for each byte position, one node a phrase token ending there; a node keeps at
most two values. A value points back at the step it started from, the token and the slot of
the value it extends. `Trellis.forward` is the pass over the positions : it takes the beam
of a position and extends it by the phrases of every span that starts there, one forced
phrase where a constraint forces it. `nbestSentences` reads the rows off the last step.

Scores are floating point. They order values and decide nothing else that is proved here,
so their arithmetic is a parameter (`FloatOps`).
-/

namespace Oxpinyin

/-- Beam width of a step. -/
def nbeam : Nat := 32

/-- The sentence-start token. -/
def sentenceStart : PhraseToken := 1#32

/-- The origin of a seed : `u32::MAX`. -/
def seedStep : Nat := 2 ^ 32 - 1

/-- Values kept a node, and rows extracted. -/
structure NbestShape where
  nstore : Nat
  nbest : Nat

/-- The pinyin surface. -/
def NbestShape.pinyin : NbestShape := ⟨2, 3⟩

/-- The zhuyin surface. -/
def NbestShape.zhuyin : NbestShape := ⟨1, 1⟩

/-- The floating-point arithmetic of the pass : `α` is `f32` and `β` is `f64`. -/
structure FloatOps (α β : Type) where
  zero : α
  one : α
  epsilon : α
  lt : α → α → Bool
  isNaN : α → Bool
  /-- A possibility less the penalty of a length. -/
  adjust : α → Nat → α
  /-- The quotient of two counts. -/
  ratio : Nat → Nat → α
  /-- A probability times a single-precision factor. -/
  scale : β → α → β
  /-- A possibility plus the logarithm of a probability. -/
  advance : α → β → α

/-- Saturating addition of `u32`. -/
def satAdd32 (a b : Nat) : Nat :=
  min (a + b) (2 ^ 32 - 1)

/-- One hypothesis. -/
structure Value (α : Type) where
  /-- Token of the phrase that ends here. -/
  token : PhraseToken
  /-- Token of the value it extends. -/
  prevToken : PhraseToken
  /-- Where the phrase starts. -/
  from_ : Nat
  /-- Slot of the value it extends. -/
  sub : Nat
  /-- Characters so far. -/
  length : Nat
  /-- Keys so far. -/
  keys : Nat
  /-- Possibility so far. -/
  poss : α

/-- The value a pass starts from. -/
def Value.seed {α β : Type} (ops : FloatOps α β) (token : PhraseToken) : Value α :=
  ⟨token, 0, seedStep, 0, 0, 0, ops.zero⟩

/-- A value with its slot and its place in the batch it was taken from. -/
structure BeamEntry (α : Type) where
  value : Value α
  slot : Nat
  batchPosition : Nat

/-! ## Orders -/

section Orders

variable {α β : Type} (ops : FloatOps α β)

/-- Best first, not-a-number last. -/
def orderedPossCompare (left right : α) : Ordering :=
  match ops.isNaN left, ops.isNaN right with
  | true, true => .eq
  | true, false => .gt
  | false, true => .lt
  | false, false => if ops.lt right left then .lt else if ops.lt left right then .gt else .eq

/-- The score of the pinyin surface. -/
def adjustedPoss (value : Value α) : α :=
  ops.adjust value.poss value.length

/-- The zhuyin node's order. -/
def zhuyinLosesTo (left right : Value α) : Bool :=
  (left.length == right.length && ops.lt left.poss right.poss) || decide (right.length < left.length)

/-- Whether a stored value gives way to a new one. -/
def nodeLosesTo (left right : Value α) (nstore : Nat) : Bool :=
  if nstore = 1 then zhuyinLosesTo ops left right
  else orderedPossCompare ops (adjustedPoss ops left) (adjustedPoss ops right) == .gt

/-- The order of a selection, by batch position at last. -/
def selectionCompare (left right : BeamEntry α) (nstore : Nat) : Ordering :=
  if nstore = 1 then
    (compare left.value.length right.value.length).then
      ((orderedPossCompare ops left.value.poss right.value.poss).then
        (compare left.batchPosition right.batchPosition))
  else
    (orderedPossCompare ops (adjustedPoss ops left.value) (adjustedPoss ops right.value)).then
      (compare left.batchPosition right.batchPosition)

/-- The best `count` entries, in order. -/
def selectTop (values : List (BeamEntry α)) (count nstore : Nat) : List (BeamEntry α) :=
  (values.mergeSort fun a b => selectionCompare ops a b nstore != .gt).take count

/-- Orders tails by raw possibility. -/
def tailMerge (values : List (Value α)) : List (Value α) :=
  values.mergeSort fun a b => orderedPossCompare ops a.poss b.poss != .gt

end Orders

/-! ## Nodes and steps -/

/-- The values of a node in their slots. -/
abbrev Node (α : Type) := List (Value α)

/-- A full two-slot node gives up its front for a better value only. -/
def Node.keep {α β : Type} (ops : FloatOps α β) (node : Node α) (value : Value α) (nstore : Nat) :
    Node α :=
  match node with
  | [] => [value]
  | first :: rest =>
    if rest = [] ∧ nstore = 2 then
      if nodeLosesTo ops first value nstore then [value, first] else [first, value]
    else if nodeLosesTo ops first value nstore then value :: rest
    else first :: rest

/-- The nodes of a position in order of creation, and where each token's node is. -/
structure Step (α : Type) where
  index : List (PhraseToken × Nat)
  nodes : List (Node α)

namespace Step

variable {α : Type}

/-- A position without nodes. -/
def empty : Step α := ⟨[], []⟩

/-- The node of a token. -/
def node (step : Step α) (token : PhraseToken) : Option (Node α) :=
  (step.index.lookup token).bind fun index => step.nodes[index]?

/-- Changes the node of a token, a new one if there is none. -/
def modifyNode (step : Step α) (token : PhraseToken) (f : Node α → Node α) : Step α :=
  match step.index.lookup token with
  | some index => { step with nodes := step.nodes.modify index f }
  | none =>
    if step.nodes.length < 2 ^ 32 then
      ⟨(token, step.nodes.length) :: step.index, step.nodes ++ [f []]⟩
    else step

end Step

/-- What a step of the pass prices of a token. -/
structure SpanEntry where
  token : PhraseToken
  /-- The key path it was found on. -/
  path : Nat
  keys : Nat
  chars : Nat
  pronunciation : Option (Nat × Nat)

/-- One step the pass took : the value it built, from which value, over which span. The
source keeps no such record. -/
structure Built (α : Type) where
  value : Value α
  predecessor : Value α
  entry : SpanEntry
  start : Nat
  stop : Nat

/-- The steps, and the key path each token's text is read through. -/
structure Trellis (α : Type) where
  shape : NbestShape
  steps : List (Step α)
  texts : List (PhraseToken × KeyPath)
  /-- The steps taken so far. -/
  built : List (Built α)

namespace Trellis

variable {α β : Type} (ops : FloatOps α β)

/-- One seed value a token at the first step. -/
def withSeeds (bound : Nat) (seeds : List PhraseToken) (shape : NbestShape) : Trellis α :=
  let steps : List (Step α) := List.replicate (bound + 1) .empty
  ⟨shape, steps.modify 0 fun step => seeds.foldl
    (fun step token => step.modifyNode token fun _ => [Value.seed ops token]) step, [], []⟩

variable (trellis : Trellis α)

/-- Stores a value at a position. -/
def insert (position : Nat) (value : Value α) : Trellis α :=
  { trellis with
    steps := trellis.steps.modify position fun step =>
      step.modifyNode value.token fun node => Node.keep ops node value trellis.shape.nstore }

/-- The values of a position with their slots, in order of creation. -/
def candidates (position : Nat) : List (BeamEntry α) :=
  ((trellis.steps.getD position .empty).nodes.flatMap List.zipIdx).zipIdx.map fun entry =>
    ⟨entry.1.1, entry.1.2, entry.2⟩

/-- The best values of a position. -/
def beam (position : Nat) : List (BeamEntry α) :=
  selectTop ops (trellis.candidates position) nbeam trellis.shape.nstore

/-- The best values of the last position, by raw possibility. -/
def tails : List (Value α) :=
  tailMerge ops ((selectTop ops (trellis.candidates (trellis.steps.length - 1))
    trellis.shape.nbest trellis.shape.nstore).map (·.value))

/-- The value a reference names. -/
def valueAt (position : Nat) (token : PhraseToken) (slot : Nat) : Option (Value α) :=
  ((trellis.steps[position]?).bind fun step => step.node token).bind fun node => node[slot]?

/-- Walks back references, last phrase first. Each goes to an earlier position, so the
number of positions bounds the walk. -/
def chain : Nat → Value α → List (Nat × PhraseToken)
  | 0, _ => []
  | fuel + 1, current =>
    if current.from_ = seedStep then []
    else (current.from_, current.token) ::
      match trellis.valueAt current.from_ current.prevToken current.sub with
      | some next => chain fuel next
      | none => []

/-- The phrases of a tail with their positions, in order. -/
def extract (tail : Value α) : List (Nat × PhraseToken) :=
  (trellis.chain trellis.steps.length tail).reverse

end Trellis

/-! ## Expanding a span -/

/-- The pre-log pieces of a step's cost. -/
structure NbestStepCosts (α β : Type) where
  blended : Option β
  unigram : Option β
  unigramLambda : α

/-- A merged row as the pass reads it. -/
structure MergedGram where
  fault : Option GramFault
  getFreq : PhraseToken → Except GramFault (Option Nat)
  total : Except GramFault Nat
  /-- The items from the first one not below `first` up to `last`. -/
  search : PhraseToken → PhraseToken → Except GramFault (List (PhraseToken × Nat))

/-- A predecessor's successors. -/
inductive NbestSuccessors where
  | row (gram : MergedGram)
  | miss

/-- The reads the pass makes of a language model. -/
structure LanguageModel (ε α β : Type) where
  /-- The merged row of a predecessor, none for a model without rows. -/
  successors : PhraseToken → Except ε (Option NbestSuccessors)
  /-- The cost of a token after a predecessor, given the row's item. -/
  itemCosts : PhraseToken → PhraseToken → Option (Nat × Nat) → Except ε (NbestStepCosts α β)

/-- Which of the two step costs a step takes. -/
inductive Branch where
  | bigram (item : Option (Nat × Nat))
  | unigram

section Expand

variable {ε α β : Type} (ops : FloatOps α β) (dictionary : Dictionary ε)
  (model : LanguageModel ε α β) (paths : List KeyPath)

/-- Prices a token on its path. -/
def price (path : Nat) (token : PhraseToken) : Except (EngineError ε) (Option SpanEntry) :=
  let found := paths.getD path ⟨[], []⟩
  match dictionary.trellisItem found.keys found.tones token with
  | .error e => .error (.dictionary e)
  | .ok item => .ok (item.map fun item =>
      ⟨token, path, min found.keys.length (2 ^ 32 - 1), item.chars, item.pronunciation⟩)

/-- The first slot of a walk that spells `token` and prices. -/
def firstPriced (token : PhraseToken) : List (PhraseToken × Nat) →
    Except (EngineError ε) (Option SpanEntry)
  | [] => .ok none
  | (ranged, path) :: rest =>
    if ranged = token then
      match price dictionary paths path token with
      | .error e => .error e
      | .ok (some entry) => .ok (some entry)
      | .ok none => firstPriced token rest
    else firstPriced token rest

/-- The pronunciation has not the count zero. -/
def eligible (entry : SpanEntry) : Bool :=
  match entry.pronunciation with
  | some (0, _) => false
  | _ => true

/-- The entry of a ranged token, if it prices and is eligible. -/
def priceEligible (slot : PhraseToken × Nat) : Except (EngineError ε) (Option SpanEntry) :=
  (price dictionary paths slot.2 slot.1).map fun entry => entry.filter eligible

/-- One step of the pass on `branch`. A value is stored unless the model or the
pronunciation gives no probability. -/
def expandOne (start stop : Nat) (predecessor : BeamEntry α) (branch : Branch)
    (trellis : Trellis α) (entry : SpanEntry) : Except (EngineError ε) (Trellis α) :=
  let prev := predecessor.value.token
  let item := match branch with
    | .bigram item => item
    | .unigram => none
  match model.itemCosts prev entry.token item with
  | .error e => .error (.rowRead prev e)
  | .ok step =>
    let pronunciation := match entry.pronunciation with
      | none => ops.one
      | some (matched, total) => if total = 0 then ops.zero else ops.ratio matched total
    if ops.lt pronunciation ops.epsilon then .ok trellis
    else
      let probability := match branch with
        | .bigram _ => step.blended.map fun s => ops.scale s pronunciation
        | .unigram => step.unigram.map fun elem =>
            ops.scale (ops.scale elem pronunciation) step.unigramLambda
      match probability with
      | none => .ok trellis
      | some probability =>
        let texts := match trellis.texts.lookup entry.token with
          | some _ => trellis.texts
          | none => (entry.token, paths.getD entry.path ⟨[], []⟩) :: trellis.texts
        if start < seedStep then
          let value : Value α := ⟨entry.token, prev, start, predecessor.slot,
            satAdd32 predecessor.value.length entry.chars,
            satAdd32 predecessor.value.keys entry.keys,
            ops.advance predecessor.value.poss probability⟩
          .ok (Trellis.insert ops
            { trellis with
              texts := texts
              built := trellis.built ++ [⟨value, predecessor.value, entry, start, stop⟩] }
            stop value)
        else .error (.graph (.inputTooLong start maxGraphPosition))

/-- The entries a predecessor's row gives, each with its frequency and the row's total. -/
def rowEntries (ranges : PhraseIndexRanges Nat) (oneStep : Option PhraseToken)
    (prev : PhraseToken) (gram : MergedGram) :
    Except (EngineError ε) (List (SpanEntry × (Nat × Nat))) :=
  let refuse {γ : Type} (read : Except GramFault γ) : Except (EngineError ε) γ :=
    read.mapError (.lookupGram prev)
  match gram.fault, oneStep with
  | some fault, _ => .error (.lookupGram prev fault)
  | none, some token => do
    match ← refuse (gram.getFreq token) with
    | none => .ok []
    | some freq =>
      let total ← refuse gram.total
      (ranges.walkTokens.filter (·.1 == token)).foldlM (fun selected slot =>
        (priceEligible dictionary paths slot).map fun entry =>
          selected ++ entry.toList.map fun entry => (entry, (freq, total))) []
  | none, none =>
    ranges.iter.foldlM (fun selected range => do
      let items ← refuse (gram.search range.first range.last)
      if items = [] then .ok selected
      else
        let total ← refuse gram.total
        items.foldlM (fun selected item => do
          let own ← match ranges.entry range item.1 with
            | some path => price dictionary paths path item.1
            | none => .ok none
          let found ← match own with
            | some entry => .ok (some entry)
            | none => firstPriced dictionary paths item.1 ranges.walkTokens
          match found with
          | some entry =>
            .ok (if eligible entry then selected ++ [(entry, (item.2, total))] else selected)
          | none => .ok selected) selected) []

/-- The steps of one predecessor over ranged tokens, each priced when it is met. -/
def expandTokens (start stop : Nat) (predecessor : BeamEntry α) (branch : Branch)
    (tokens : List (PhraseToken × Nat)) (trellis : Trellis α) :
    Except (EngineError ε) (Trellis α) :=
  tokens.foldlM (fun trellis slot => do
    match ← priceEligible dictionary paths slot with
    | some entry => expandOne ops model paths start stop predecessor branch trellis entry
    | none => .ok trellis) trellis

/-- The bigram steps of one predecessor. -/
def expandBigram (ranges : PhraseIndexRanges Nat) (oneStep : Option PhraseToken)
    (start stop : Nat) (trellis : Trellis α) (predecessor : BeamEntry α) :
    Except (EngineError ε) (Trellis α) :=
  let prev := predecessor.value.token
  match model.successors prev with
  | .error e => .error (.rowRead prev e)
  | .ok (some .miss) => .ok trellis
  | .ok (some (.row gram)) => do
    let selected ← rowEntries dictionary paths ranges oneStep prev gram
    selected.foldlM (fun trellis chosen =>
      expandOne ops model paths start stop predecessor (.bigram (some chosen.2)) trellis chosen.1)
      trellis
  | .ok none =>
    expandTokens ops dictionary model paths start stop predecessor (.bigram none)
      ranges.walkTokens trellis

/-- Extends the beam over one span : the bigram steps of every predecessor, then the unigram
steps of the best one. -/
def expandEntries (ranges : PhraseIndexRanges Nat) (beam : List (BeamEntry α)) (start stop : Nat)
    (oneStep : Option PhraseToken) (trellis : Trellis α) : Except (EngineError ε) (Trellis α) :=
  if oneStep = none ∧ ranges.iter = [] then .ok trellis
  else do
    let trellis ← beam.foldlM
      (expandBigram ops dictionary model paths ranges oneStep start stop) trellis
    match beam with
    | [] => .ok trellis
    | predecessor :: _ =>
      expandTokens ops dictionary model paths start stop predecessor .unigram
        ranges.walkTokens trellis

end Expand

/-! ## The forward pass -/

section Forward

variable {ε α β : Type} (ops : FloatOps α β) (dictionary : Dictionary ε)
  (model : LanguageModel ε α β) (view : GenerationView) (bound : Nat)
  (constraints : Option ConstraintStore)

/-- The constraint at a position. -/
def cellAt (position : Nat) : Option Cell :=
  constraints.bind fun store => store[position]?

/-- Whether the position is inside a forced run. -/
def isNoSearch (position : Nat) : Bool :=
  match cellAt constraints position with
  | some (.noSearch _) => true
  | _ => false

/-- The widening loop from `stop` on. A span may not end inside a forced run. -/
def widen (position : Nat) (beam : List (BeamEntry α)) :
    Nat → Nat → Trellis α → Except (EngineError ε) (Trellis α)
  | 0, _, trellis => .ok trellis
  | fuel + 1, stop, trellis =>
    if bound < stop ∨ isNoSearch constraints stop then .ok trellis
    else do
      let (found, widening) ← view.search dictionary position stop
      let trellis ← expandEntries ops dictionary model found.paths found.ranges beam position stop
        none trellis
      if widening then widen position beam fuel (stop + 1) trellis else .ok trellis

/-- The free spans that start at a position. -/
def widenFreeSpan (position : Nat) (beam : List (BeamEntry α)) (trellis : Trellis α) :
    Except (EngineError ε) (Trellis α) :=
  widen ops dictionary model view bound constraints position beam (bound - position)
    (position + 1) trellis

/-- The one span of a forced run : the forced token only. -/
def forcedSpan (position stop : Nat) (token : PhraseToken) (beam : List (BeamEntry α))
    (trellis : Trellis α) : Except (EngineError ε) (Trellis α) :=
  if position < stop ∧ stop ≤ bound then do
    let (found, _) ← view.search dictionary position stop
    let entry ← firstPriced dictionary found.paths token found.ranges.walkTokens
    let forced : PhraseIndexRanges Nat :=
      PhraseIndexRanges.empty.convert (entry.toList.map fun entry => (entry.token, some entry.path))
    if found.ranges.iter = [] then .ok trellis
    else
      expandEntries ops dictionary model found.paths forced beam position stop (some token) trellis
  else .ok trellis

/-- The pass at one position. -/
def forwardStep (trellis : Trellis α) (position : Nat) : Except (EngineError ε) (Trellis α) :=
  if isNoSearch constraints position then .ok trellis
  else
    let beam := trellis.beam ops position
    if beam.length = 0 then .ok trellis
    else
      match cellAt constraints position with
      | some (.oneStep token stop _) =>
        forcedSpan ops dictionary model view bound position stop token beam trellis
      | _ => widenFreeSpan ops dictionary model view bound constraints position beam trellis

/-- The forward pass over the positions below the bound. -/
def forward (seeds : List PhraseToken) (shape : NbestShape) :
    Except (EngineError ε) (Trellis α) :=
  (List.range bound).foldlM (forwardStep ops dictionary model view bound constraints)
    (Trellis.withSeeds ops bound seeds shape)

/-! ## The rows -/

/-- One decoded sentence. -/
structure NbestRow (α : Type) where
  text : PhraseText
  /-- The phrases at their positions. -/
  spans : List PhraseSpan
  keys : Nat
  /-- Bytes the sentence spans. -/
  span : Nat
  poss : α

/-- The text of a token, read over the path it was first priced on. -/
def tokenText (trellis : Trellis α) (token : PhraseToken) :
    Except (EngineError ε) (Option PhraseText) :=
  match trellis.texts.lookup token with
  | none => .ok none
  | some path => (dictionary.trellisText path.keys path.tones token).mapError .dictionary

/-- The phrases of a row with their texts, none where one has no text. -/
def rowSpans (trellis : Trellis α) : List (Nat × PhraseToken) →
    Except (EngineError ε) (Option (List PhraseSpan))
  | [] => .ok (some [])
  | (start, token) :: rest =>
    match tokenText dictionary trellis token with
    | .error e => .error e
    | .ok none => .ok none
    | .ok (some text) => (rowSpans trellis rest).map fun spans =>
        spans.map fun spans => ⟨start, token, text⟩ :: spans

/-- The row of a tail, none without text. -/
def rowOf (trellis : Trellis α) (tail : Value α) :
    Except (EngineError ε) (Option (NbestRow α)) :=
  (rowSpans dictionary trellis (trellis.extract tail)).map fun spans =>
    spans.bind fun spans =>
      let text := spans.foldl (fun text span => text.append span.text) (.scalar [])
      if text.isEmpty then none else some ⟨text, spans, tail.keys, bound, tail.poss⟩

/-- The rows of the tails. -/
def rows (trellis : Trellis α) : Except (EngineError ε) (List (NbestRow α)) :=
  (trellis.tails ops).foldlM (fun rows tail =>
    (rowOf dictionary bound trellis tail).map fun row => rows ++ row.toList) []

/-- The sentence rows for the columns of a parse. -/
def nbestSentences (seeds : List PhraseToken) (shape : NbestShape) :
    Except (EngineError ε) (List (NbestRow α)) := do
  let trellis ← forward ops dictionary model view bound constraints seeds shape
  rows ops dictionary bound trellis

end Forward

end Oxpinyin
