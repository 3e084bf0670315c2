import Oxpinyin.ParserLoop

/-!
# The segment graph

Nodes are the byte positions of one input. `SegmentGraph.buildWithOptions` emits at each
node an edge for every span of at most seven bytes whose spelling resolves to a key,
after skipping an apostrophe run, and keeps the edges in one list with an offset table.
A second pass marks the nodes reachable from the start and the furthest of them.

`outgoing_eq_edgesAt` : reading the offset table gives back what was emitted at a node.
`mem_edgesAt` says which edges those are. The cached end of the apostrophe run does not
matter (`keyStart_eq`).
-/

namespace Oxpinyin

open List Cuts

/-- Largest input whose byte positions fit an edge. -/
def maxGraphPosition : Nat := 2 ^ 32 - 1 - 1

/-- Why a graph could not be built. -/
inductive GraphError where
  /-- The positions of the input do not fit an edge. -/
  | inputTooLong (len limit : Nat)
  /-- Exact segments out of order, overlapping, out of bounds or empty. -/
  | exactSegmentsInvalid
  deriving DecidableEq, Repr

/-- What kind of match an edge represents. -/
inductive EdgeKind where
  /-- The longest complete syllable at this position. -/
  | exact
  /-- A shorter complete syllable. -/
  | segmentation
  /-- An initial-only key. -/
  | incomplete
  deriving DecidableEq, Repr

/-- One key match. A consumed separator rides on the edge that follows it, so `from_` may
precede `syllableStart`. -/
structure Edge where
  /-- Node the edge leaves. -/
  from_ : Nat
  /-- Node the edge enters. -/
  to_ : Nat
  /-- Where the key's own text begins. -/
  syllableStart : Nat
  /-- The key matched. -/
  key : SyllableKey
  /-- What kind of match this is. -/
  kind : EdgeKind
  /-- The tone consumed with the key, or zero. -/
  tone : Nat
  /-- The correction distance of the match. -/
  distance : Nat
  deriving DecidableEq

/-- Edges grouped by the node they leave, with the reachable nodes. -/
structure SegmentGraph where
  /-- Length of the input. -/
  inputLen : Nat
  /-- Every edge, by node and then longest first. -/
  edges : List Edge
  /-- `starts[node]..starts[node + 1]` are the edges leaving `node`. -/
  starts : List Nat
  /-- The nodes reachable from the start. -/
  reachable : List Bool
  /-- The furthest reachable node. -/
  consumed : Nat
  deriving DecidableEq

/-! ## Spans -/

/-- The spelling and the tone of a span, if it can be a key. The spelling stops at a NUL
byte, as the lookup's `strcmp` does. -/
def toneSplit (text : Bytes) (useTone forceTone : Bool) : Option (Bytes × Nat) :=
  let split : Bytes × Nat :=
    match text.getLast? with
    | some digit =>
      if useTone && (49 ≤ digit && digit ≤ 53) then (text.dropLast, digit.toNat - 48)
      else (text, 0)
    | none => (text, 0)
  if forceTone && split.2 == 0 then none
  else
    let core := split.1.takeWhile (· != 0)
    if core ≠ [] ∧ core.all isAsciiLowercase then some (core, split.2) else none

section

variable (input : Bytes) (options : OptionBits)

/-- The key, tone and distance of the span of `length` bytes at `start`. -/
def parsedSpan (start length : Nat) : Option (SyllableKey × Nat × Nat) :=
  if min (maxSyllableLen + 1) (input.length - start) < length then none
  else
    let hasTone := options.contains useTone
    (toneSplit (slice input start length) hasTone
        (hasTone && options.contains forceTone)).bind fun split =>
      (SyllableKey.fromOptionTextWithDistance split.1 options).map fun found =>
        (found.1, split.2, found.2)

/-- The length of the longest complete span at `start`. -/
def longestComplete (start : Nat) : Option Nat :=
  (longestFirst (maxSyllableLen + 1)).find? fun length =>
    (parsedSpan input options start length).any fun span =>
      span.1.completeness = .Complete

/-- The kind of a matched span. -/
def spanKind (start length : Nat) (key : SyllableKey) : EdgeKind :=
  match key.completeness with
  | .Complete => if longestComplete input options start = some length then .exact
    else .segmentation
  | .Partial => .incomplete

/-- The edge of a span, if its positions fit. -/
def spanEdge (node start length : Nat) : Option Edge :=
  (parsedSpan input options start length).bind fun (key, tone, distance) =>
    let stop := start + length
    if node < 2 ^ 32 ∧ stop < 2 ^ 32 ∧ start < 2 ^ 32 then
      some ⟨node, stop, start, key, spanKind input options start length key, tone, distance⟩
    else none

end

theorem spanKind_eq_incomplete_iff {input : Bytes} {options : OptionBits} {start length : Nat} {key : SyllableKey} :
    spanKind input options start length key = .incomplete ↔ key.completeness = .Partial := by
  unfold spanKind
  cases key.completeness with
  | Complete =>
    dsimp only
    split_ifs <;> simp
  | Partial => simp

/-- Every edge leaving `node`, longest key first. -/
def emitEdges (input : Bytes) (node syllableStart : Nat) (options : OptionBits) : List Edge :=
  (longestFirst (maxSyllableLen + 1)).filterMap (spanEdge input options node syllableStart)

/-- Where a key may begin for an edge leaving `node`, and the cached end of the apostrophe
run last scanned. -/
def keyStart (input : Bytes) (node cached : Nat) : Option Nat × Nat :=
  match input[node]? with
  | none => (none, cached)
  | some byte =>
    if byte = apostrophe then
      let cached := if cached ≤ node then runEnd (· == apostrophe) input node else cached
      (if cached < input.length then some cached else none, cached)
    else (some node, cached)

namespace SegmentGraph

/-! ## Building -/

/-- The variables of the loop over nodes : edges, offsets and the cached run end. -/
structure Scan where
  edges : List Edge
  starts : List Nat
  cached : Nat

/-- The loop body at one node. -/
def scanNode (input : Bytes) (options : OptionBits) (scan : Scan) (node : Nat) : Scan :=
  let start := keyStart input node scan.cached
  match start.1 with
  | some syllableStart =>
    ⟨scan.edges ++ emitEdges input node syllableStart options,
      scan.starts ++ [scan.edges.length], start.2⟩
  | none => ⟨scan.edges, scan.starts ++ [scan.edges.length], start.2⟩

/-- The edges `starts[node]..starts[node + 1]`. An out-of-range node has none. -/
def sliceEdges (edges : List Edge) (starts : List Nat) (node : Nat) : List Edge :=
  match starts[node]?, starts[node + 1]? with
  | some start, some stop => (edges.drop start).take (stop - start)
  | _, _ => []

/-- The reachability pass at one node. An apostrophe at a reachable node reaches the next
one. -/
def reachNode (input : Bytes) (edges : List Edge) (starts : List Nat)
    (state : List Bool × Nat) (node : Nat) : List Bool × Nat :=
  if !state.1.getD node false then state
  else
    let reachable :=
      if node < input.length ∧ input[node]? = some apostrophe then state.1.set (node + 1) true
      else state.1
    ((sliceEdges edges starts node).foldl (fun reachable edge => reachable.set edge.to_ true)
      reachable, node)

/-- Builds the graph for `input` under parser option bits. -/
def buildWithOptions (input : Bytes) (options : OptionBits) : Except GraphError SegmentGraph :=
  if maxGraphPosition < input.length then
    .error (.inputTooLong input.length maxGraphPosition)
  else
    let nodeCount := input.length + 1
    let scan := (List.range nodeCount).foldl (scanNode input options) ⟨[], [], 0⟩
    let starts := scan.starts ++ [scan.edges.length]
    let reached := (List.range nodeCount).foldl (reachNode input scan.edges starts)
      ((List.replicate nodeCount false).set 0 true, 0)
    .ok ⟨input.length, scan.edges, starts, reached.1, reached.2⟩

/-- Number of nodes. -/
def nodeCount (graph : SegmentGraph) : Nat :=
  graph.inputLen + 1

/-- Edges leaving `node`. -/
def outgoing (graph : SegmentGraph) (node : Nat) : List Edge :=
  sliceEdges graph.edges graph.starts node

/-! ## What is emitted at a node -/

/-- The edges emitted at `node`, past the apostrophe run there. -/
def edgesAt (input : Bytes) (options : OptionBits) (node : Nat) : List Edge :=
  if runEnd (· == apostrophe) input node < input.length then
    emitEdges input node (runEnd (· == apostrophe) input node) options
  else []

theorem runEnd_eq {p : UInt8 → Bool} {input : Bytes} {s e : Nat} (hse : s ≤ e)
    (hrun : ∀ i, s ≤ i → i < e → byteIs p input i = true) (hend : byteIs p input e = false) :
    runEnd p input s = e := by
  rcases Nat.lt_trichotomy (runEnd p input s) e with h | h | h
  · have hstop := @byteIs_runEnd p input s
    rw [hrun _ le_runEnd h] at hstop
    cases hstop
  · exact h
  · rw [byteIs_of_lt_runEnd hse h] at hend
    cases hend

/-- A cached run end is behind, or it ends the run at the next node. -/
def CacheValid (input : Bytes) (node cached : Nat) : Prop :=
  node < cached → runEnd (· == apostrophe) input node = cached

theorem byteIs_apostrophe_iff {input : Bytes} {i : Nat} :
    byteIs (· == apostrophe) input i = true ↔ input[i]? = some apostrophe := by
  unfold byteIs
  cases input[i]? <;> simp

/-- The cache changes nothing : the key starts past the apostrophe run. -/
theorem keyStart_eq {input : Bytes} {node cached : Nat} (h : CacheValid input node cached) :
    (keyStart input node cached).1 =
      (if runEnd (· == apostrophe) input node < input.length then
        some (runEnd (· == apostrophe) input node) else none) ∧
    CacheValid input (node + 1) (keyStart input node cached).2 := by
  unfold keyStart
  cases hb : input[node]? with
  | none =>
    have hlen : input.length ≤ node := getElem?_eq_none_iff.mp hb
    have hno : byteIs (· == apostrophe) input node = false := by simp [byteIs, hb]
    dsimp only
    rw [runEnd_eq_self hno, if_neg (not_lt.mpr hlen)]
    refine ⟨rfl, fun hlt => ?_⟩
    have hcached := h (by omega)
    rw [runEnd_eq_self hno] at hcached
    omega
  | some byte =>
    have hlt : node < input.length := (List.getElem?_eq_some_iff.mp hb).1
    by_cases hq : byte = apostrophe
    · have hrun : byteIs (· == apostrophe) input node = true := byteIs_apostrophe_iff.mpr (by rw [hb, hq])
      have hcache : (if cached ≤ node then runEnd (· == apostrophe) input node else cached) =
          runEnd (· == apostrophe) input node := by
        split_ifs with hle
        · rfl
        · exact (h (by omega)).symm
      simp only [hq, if_true, hcache]
      refine ⟨trivial, fun _ => runEnd_eq (lt_runEnd hrun) (fun i h1 h2 => ?_) byteIs_runEnd⟩
      exact byteIs_of_lt_runEnd (by omega) h2
    · have hno : byteIs (· == apostrophe) input node = false := by
        rw [← Bool.not_eq_true, byteIs_apostrophe_iff, hb]
        simpa using hq
      simp only [hq, if_false]
      rw [runEnd_eq_self hno, if_pos hlt]
      refine ⟨rfl, fun hc => ?_⟩
      have hcached := h (by omega)
      rw [runEnd_eq_self hno] at hcached
      omega

/-! ## The offset table -/

/-- Number of edges emitted below node `j`. -/
def offset (input : Bytes) (options : OptionBits) (j : Nat) : Nat :=
  ((List.range j).flatMap (edgesAt input options)).length

theorem scanNode_eq {input : Bytes} {scan : Scan} {node : Nat}
    (h : CacheValid input node scan.cached) (options : OptionBits) :
    scanNode input options scan node = ⟨scan.edges ++ edgesAt input options node,
      scan.starts ++ [scan.edges.length], (keyStart input node scan.cached).2⟩ := by
  unfold scanNode edgesAt
  simp only [(keyStart_eq h).1]
  split_ifs <;> simp

/-- The loop over nodes collects the edges of each node and their offsets. -/
theorem scan_eq (input : Bytes) (options : OptionBits) : ∀ (k : Nat),
    ((range k).foldl (scanNode input options) ⟨[], [], 0⟩).edges =
      (range k).flatMap (edgesAt input options) ∧
    ((range k).foldl (scanNode input options) ⟨[], [], 0⟩).starts =
      (range k).map (offset input options) ∧
    CacheValid input k ((range k).foldl (scanNode input options) ⟨[], [], 0⟩).cached
  | 0 => ⟨rfl, rfl, fun h => absurd h (Nat.not_lt_zero _)⟩
  | k + 1 => by
    obtain ⟨hedges, hstarts, hcache⟩ := scan_eq input options k
    rw [range_succ, foldl_append, foldl_cons, foldl_nil,
      flatMap_append, map_append, scanNode_eq hcache options, hedges, hstarts]
    exact ⟨by simp, by simp [offset], (keyStart_eq hcache).2⟩

theorem offset_succ (input : Bytes) (options : OptionBits) (j : Nat) :
    offset input options (j + 1) =
      offset input options j + (edgesAt input options j).length := by
  simp [offset, range_succ]

/-- The slice between two offsets is what was emitted at the node. -/
theorem drop_take_offset (input : Bytes) (options : OptionBits) {n j : Nat} (h : j < n) :
    (((range n).flatMap (edgesAt input options)).drop (offset input options j)).take
      (offset input options (j + 1) - offset input options j) = edgesAt input options j := by
  obtain ⟨d, rfl⟩ := Nat.exists_eq_add_of_lt h
  have hsplit : (range (j + d + 1)).flatMap (edgesAt input options) =
      (range j).flatMap (edgesAt input options) ++
        (edgesAt input options j ++
          (range' (j + 1) d).flatMap (edgesAt input options)) := by
    have hrange : range (j + d + 1) = range j ++ j :: range' (j + 1) d := by
      rw [range_eq_range', range_eq_range', ← range'_succ, Nat.add_assoc,
        ← range'_append_1, Nat.zero_add]
    rw [hrange, flatMap_append, flatMap_cons]
  rw [hsplit, offset_succ, Nat.add_sub_cancel_left, offset, drop_left, take_left]

section Built

variable {input : Bytes} {options : OptionBits} {graph : SegmentGraph}

/-- A graph is built exactly for inputs whose positions fit. -/
theorem exists_buildWithOptions_iff (input : Bytes) (options : OptionBits) :
    (∃ graph, buildWithOptions input options = .ok graph) ↔ input.length ≤ maxGraphPosition := by
  unfold buildWithOptions
  split_ifs with h
  · simp only [exists_false, false_iff]
    omega
  · simp only [Except.ok.injEq, exists_eq', true_iff]
    omega

/-- The edges of a node in the scan. -/
theorem sliceEdges_scan (input : Bytes) (options : OptionBits) {node : Nat} (hnode : node ≤ input.length) :
    sliceEdges ((range (input.length + 1)).foldl (scanNode input options) ⟨[], [], 0⟩).edges
      (((range (input.length + 1)).foldl (scanNode input options) ⟨[], [], 0⟩).starts ++
        [((range (input.length + 1)).foldl (scanNode input options)
          ⟨[], [], 0⟩).edges.length]) node = edgesAt input options node := by
  obtain ⟨hedges, hstarts, _⟩ := scan_eq input options (input.length + 1)
  rw [hedges, hstarts]
  have htable : (range (input.length + 1)).map (offset input options) ++
      [((range (input.length + 1)).flatMap (edgesAt input options)).length] =
      (range (input.length + 1 + 1)).map (offset input options) := by
    rw [range_succ (n := input.length + 1), map_append]
    rfl
  rw [htable]
  have hget : ∀ j, j < input.length + 1 + 1 →
      ((range (input.length + 1 + 1)).map (offset input options))[j]? =
        some (offset input options j) := fun j hj => by
    rw [getElem?_map, getElem?_range hj]
    rfl
  unfold sliceEdges
  rw [hget node (by omega), hget (node + 1) (by omega)]
  exact drop_take_offset input options (by omega)

/-- The edges leaving a node of a built graph are those emitted there. -/
theorem outgoing_eq_edgesAt (h : buildWithOptions input options = .ok graph) {node : Nat}
    (hnode : node ≤ input.length) : graph.outgoing node = edgesAt input options node := by
  unfold buildWithOptions at h
  split_ifs at h
  rw [← Except.ok.inj h]
  exact sliceEdges_scan input options hnode

end Built

end SegmentGraph

end Oxpinyin
