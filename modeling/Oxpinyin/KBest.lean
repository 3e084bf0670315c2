import Oxpinyin.GraphValid
import Oxpinyin.Lib.Buckets
import Oxpinyin.Lib.Selection

/-!
# The k-best sweep

`kBestTo` visits the nodes in order. A state is "arrived here through this edge", and each
state holds a bucket of partial paths, entries of one arena that point back at the entry
they extend. Reaching a node ranks the buckets of its states and cuts them to `k`; then
every entry left is extended by every edge that leaves the node. Costs are `i64` with
saturating addition, and may depend on the edge taken before.
-/

namespace Oxpinyin

namespace KBest

/-- Largest `k` accepted. -/
def maxK : Nat := 4096

/-- Why a search could not run. -/
inductive DecodeError where
  /-- `k` is beyond `maxK`. -/
  | kTooLarge (k limit : Nat)
  /-- The graph has more edges than 32-bit ids. -/
  | tooManyEdges (edges : Nat)
  /-- The sweep outgrew its 32-bit entry indexes. -/
  | tooManyEntries (k : Nat)
  deriving DecidableEq, Repr

/-- Saturating addition of `i64`. -/
def satAdd (a b : Int) : Int :=
  max (-2 ^ 63) (min (2 ^ 63 - 1) (a + b))

/-- The cost of an edge after the edge before it, none at the start of a path. -/
abbrev EdgeCost := Option Edge → Edge → Int

/-- One path of a result : its cost and the ids of its edges. -/
structure DecodedPath where
  /-- Total cost. -/
  cost : Int
  /-- The edges taken, in input order. -/
  edges : List Nat
  deriving DecidableEq

/-- One partial path : its cost, its last edge and the entry it extends. -/
structure Entry where
  cost : Int
  last : Option Nat
  previous : Option Nat
  deriving DecidableEq

instance : Inhabited Entry := ⟨⟨0, none, none⟩⟩

/-! ## States at a node -/

/-- Edge ids entering each node, in one flat list. -/
structure Incoming where
  starts : List Nat
  ids : List Nat

/-- Groups the edge ids by the node they enter. -/
def incomingIndex (graph : SegmentGraph) : Except DecodeError Incoming :=
  if 2 ^ 32 ≤ graph.edges.length then .error (.tooManyEdges graph.edges.length)
  else
    let keys := graph.edges.map (·.to_)
    let starts := Buckets.accumulate graph.nodeCount (Buckets.countKeys graph.nodeCount keys)
    .ok ⟨starts, Buckets.fill starts keys⟩

/-- The states that can be current at `node`. State `0` is the start, state `id + 1` is
arrival through edge `id`. -/
def statesAt (incoming : Incoming) (node : Nat) : List Nat :=
  let first := if node = 0 then [0] else []
  match incoming.starts[node]?, incoming.starts[node + 1]? with
  | some start, some stop =>
    first ++ ((incoming.ids.drop start).take (stop - start)).map (· + 1)
  | _, _ => first

/-! ## The sweep -/

/-- The entries and one bucket of entries a state. -/
structure Sweep where
  arena : List Entry
  buckets : List (List Nat)

/-- The cost of the entry at `index`. -/
def entryCost (arena : List Entry) (index : Nat) : Int :=
  (arena.getD index default).cost

/-- Stable sort by cost and truncation to `k`. -/
def rankBucket (arena : List Entry) (k : Nat) (bucket : List Nat) : List Nat :=
  (Selection.sortByCost (entryCost arena) bucket).take k

/-- Ranks the bucket of every state at a node. -/
def rankStates (k : Nat) (states : List Nat) (sweep : Sweep) : Sweep :=
  states.foldl
    (fun sweep state => { sweep with
      buckets := sweep.buckets.modify state (rankBucket sweep.arena k) }) sweep

section Extend

variable (graph : SegmentGraph) (scorer : EdgeCost) (k target : Nat)

/-- Extends one entry by one edge, unless the edge overshoots. -/
def extendEntry (entryIndex : Nat) (entry : Entry) (sweep : Sweep) (id : Nat) :
    Except DecodeError Sweep :=
  match graph.edges[id]? with
  | none => .ok sweep
  | some edge =>
    if target < edge.to_ then .ok sweep
    else if 2 ^ 32 ≤ sweep.arena.length then .error (.tooManyEntries k)
    else
      let previous := entry.last.bind fun id => graph.edges[id]?
      .ok ⟨sweep.arena ++ [⟨satAdd entry.cost (scorer previous edge), some id, some entryIndex⟩],
        sweep.buckets.modify (id + 1) (· ++ [sweep.arena.length])⟩

/-- Extends one entry by every edge leaving `node`. -/
def extendAll (node : Nat) (sweep : Sweep) (entryIndex : Nat) : Except DecodeError Sweep :=
  (graph.outgoingIds node).foldlM
    (extendEntry graph scorer k target entryIndex (sweep.arena.getD entryIndex default)) sweep

/-- Extends every entry of one state. -/
def extendState (node : Nat) (sweep : Sweep) (state : Nat) : Except DecodeError Sweep :=
  (sweep.buckets.getD state []).foldlM (extendAll graph scorer k target node) sweep

/-- The loop body at a node before the target. -/
def sweepNode (incoming : Incoming) (sweep : Sweep) (node : Nat) : Except DecodeError Sweep :=
  (statesAt incoming node).foldlM (extendState graph scorer k target node)
    (rankStates k (statesAt incoming node) sweep)

/-- The sweep up to the target, whose states are ranked last. -/
def sweepTo (incoming : Incoming) : Except DecodeError Sweep := do
  let sweep ← (List.range target).foldlM (sweepNode graph scorer k target incoming)
    ⟨[⟨0, none, none⟩], [0] :: List.replicate graph.edges.length []⟩
  .ok (rankStates k (statesAt incoming target) sweep)

end Extend

/-! ## The result -/

/-- Walks backpointers, last edge first. An entry points below itself, so the index bounds
the walk. -/
def backpointers (arena : List Entry) : Nat → Option Nat → List Nat
  | _, none => []
  | 0, some _ => []
  | fuel + 1, some current =>
    let entry := arena.getD current default
    entry.last.toList ++ backpointers arena fuel entry.previous

/-- The path of the entry at `index`. -/
def reconstruct (arena : List Entry) (index : Nat) : DecodedPath :=
  ⟨entryCost arena index, (backpointers arena (index + 1) (some index)).reverse⟩

/-- The entries of the states at the target, ranked and cut to `k`. -/
def finalists (incoming : Incoming) (k target : Nat) (sweep : Sweep) : List Nat :=
  rankBucket sweep.arena k
    ((statesAt incoming target).flatMap fun state => sweep.buckets.getD state [])

/-- The `k` best paths from the start of the input to `target`. -/
def kBestTo (graph : SegmentGraph) (scorer : EdgeCost) (k target : Nat) :
    Except DecodeError (List DecodedPath) :=
  if maxK < k then .error (.kTooLarge k maxK)
  else if k = 0 ∨ graph.nodeCount ≤ target then .ok []
  else do
    let incoming ← incomingIndex graph
    let sweep ← sweepTo graph scorer k target incoming
    .ok ((finalists incoming k target sweep).map (reconstruct sweep.arena))

/-- The `k` best paths from the start of the input to its consumed end. -/
def kBest (graph : SegmentGraph) (scorer : EdgeCost) (k : Nat) :
    Except DecodeError (List DecodedPath) :=
  kBestTo graph scorer k graph.consumed

end KBest

end Oxpinyin
