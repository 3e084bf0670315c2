import Oxpinyin.GraphPaths

/-!
# Well-formed segment graphs

A `SegmentGraph` comes from `buildWithOptions` or from `buildExact`. `SegmentGraph.Valid`
is what a search relies on : every edge runs forward to a node, and the offset table lists
under each node the ids of the edges that leave it. `valid_buildWithOptions` and
`valid_buildExact` : both constructors establish it.
-/

namespace Oxpinyin

open List

namespace SegmentGraph

/-- Ids of the edges leaving `node`. -/
def outgoingIds (graph : SegmentGraph) (node : Nat) : List Nat :=
  let start := graph.starts.getD node 0
  let stop := max (graph.starts.getD (node + 1) start) start
  List.range' start (stop - start)

/-- The ids of the edges with a property, ascending. -/
def idsWhere (graph : SegmentGraph) (p : Edge → Bool) : List Nat :=
  (List.range graph.edges.length).filter fun id => (graph.edges[id]?).any p

theorem mem_idsWhere {graph : SegmentGraph} {p : Edge → Bool} {id : Nat} :
    id ∈ graph.idsWhere p ↔ ∃ edge, graph.edges[id]? = some edge ∧ p edge = true := by
  unfold idsWhere
  rw [mem_filter, mem_range, Option.any_eq_true]
  constructor
  · rintro ⟨_, edge, hedge, hp⟩
    exact ⟨edge, hedge, hp⟩
  · rintro ⟨edge, hedge, hp⟩
    exact ⟨(List.getElem?_eq_some_iff.mp hedge).1, edge, hedge, hp⟩

theorem pairwise_idsWhere (graph : SegmentGraph) (p : Edge → Bool) : (graph.idsWhere p).Pairwise (· < ·) :=
  List.Pairwise.filter _ pairwise_lt_range

/-- Every edge runs forward, and the offset table lists the edges leaving each node. -/
structure Valid (graph : SegmentGraph) : Prop where
  /-- Edges run forward. -/
  forward : ∀ edge ∈ graph.edges, edge.from_ < edge.to_
  /-- Edges end at a node. -/
  inside : ∀ edge ∈ graph.edges, edge.to_ < graph.nodeCount
  /-- The offset table lists the edges leaving a node. -/
  outgoing : ∀ node, node < graph.nodeCount →
    graph.outgoingIds node = graph.idsWhere (·.from_ == node)

/-! ## Offset tables -/

/-- Two neighbouring offsets that enclose the edges leaving `node`. -/
theorem outgoingIds_eq {graph : SegmentGraph} {node start stop : Nat}
    (hstart : graph.starts[node]? = some start) (hstop : graph.starts[node + 1]? = some stop)
    (hle : start ≤ stop) (hlen : stop ≤ graph.edges.length) (hiff : ∀ id edge, graph.edges[id]? = some edge →
      (edge.from_ = node ↔ start ≤ id ∧ id < stop)) : graph.outgoingIds node = graph.idsWhere (·.from_ == node) := by
  unfold outgoingIds
  simp only [getD_eq_getElem?_getD, hstart, hstop, Option.getD_some, max_eq_left hle]
  refine Perm.eq_of_pairwise (fun a b _ _ => le_antisymm)
    ((pairwise_lt_range').imp le_of_lt)
    ((pairwise_idsWhere graph _).imp le_of_lt) ?_
  refine (perm_ext_iff_of_nodup nodup_range' ((pairwise_idsWhere graph _).imp ne_of_lt)).mpr fun id => ?_
  rw [mem_range'_1, mem_idsWhere]
  constructor
  · rintro ⟨hid, hlt⟩
    have hedge := getElem?_eq_getElem (show id < graph.edges.length by omega)
    exact ⟨_, hedge, beq_iff_eq.mpr ((hiff id _ hedge).mpr ⟨hid, by omega⟩)⟩
  · rintro ⟨edge, hedge, hfrom⟩
    obtain ⟨hid, hlt⟩ := (hiff id edge hedge).mp (beq_iff_eq.mp hfrom)
    omega

section Built

variable {input : Bytes} {options : OptionBits} {graph : SegmentGraph} {edge : Edge} {node : Nat}

theorem edgesAt_forward (h : edge ∈ edgesAt input options node) :
    edge.from_ = node ∧ node < edge.to_ ∧ edge.to_ ≤ input.length := by
  obtain ⟨_, l, hl, _, hspan⟩ := mem_edgesAt.mp h
  obtain ⟨key, tone, distance, hparsed, hfrom, hto, _⟩ := spanEdge_eq_some hspan
  have hfits := (parsedSpan_fits hl hparsed).1
  have hrun := @le_runEnd (· == apostrophe) input node
  omega

theorem offset_mono {i j : Nat} (h : i ≤ j) : offset input options i ≤ offset input options j := by
  induction j, h using Nat.le_induction with
  | base => exact le_refl _
  | succ j _ ih =>
    rw [offset_succ]
    omega

/-- An edge stands between the offsets of the node it leaves. -/
theorem offset_le_id : ∀ {n id : Nat},
    ((range n).flatMap (edgesAt input options))[id]? = some edge →
    offset input options edge.from_ ≤ id ∧ id < offset input options (edge.from_ + 1) ∧
      edge.from_ < n
  | 0, id, h => by simp at h
  | n + 1, id, h => by
    rw [range_succ, flatMap_append, getElem?_append] at h
    split_ifs at h with hid
    · obtain ⟨hle, hlt, hn⟩ := offset_le_id h
      exact ⟨hle, hlt, by omega⟩
    · rw [flatMap_singleton] at h
      have hfrom := (edgesAt_forward (mem_of_getElem? h)).1
      have hrest := (List.getElem?_eq_some_iff.mp h).1
      rw [hfrom, offset_succ]
      unfold offset
      omega

/-- The edges and the offset table of a built graph. -/
theorem tables_buildWithOptions (h : buildWithOptions input options = .ok graph) :
    graph.inputLen = input.length ∧
    graph.edges = (range (input.length + 1)).flatMap (edgesAt input options) ∧
    graph.starts = (range (input.length + 2)).map (offset input options) := by
  unfold buildWithOptions at h
  split_ifs at h
  obtain ⟨hedges, hstarts, _⟩ := scan_eq input options (input.length + 1)
  rw [← Except.ok.inj h]
  refine ⟨rfl, hedges, ?_⟩
  have htable : (range (input.length + 2)).map (offset input options) =
      (range (input.length + 1)).map (offset input options) ++
        [offset input options (input.length + 1)] := by
    rw [range_succ (n := input.length + 1), map_append, map_singleton]
  rw [htable, ← hstarts, offset, ← hedges]

/-- Building from an input gives a well-formed graph. -/
theorem valid_buildWithOptions (h : buildWithOptions input options = .ok graph) : graph.Valid := by
  obtain ⟨hlen, hedges, hstarts⟩ := tables_buildWithOptions h
  have hmem : ∀ edge ∈ graph.edges, edge.from_ < edge.to_ ∧ edge.to_ ≤ input.length := by
    intro edge hedge
    rw [hedges] at hedge
    obtain ⟨node, _, hat⟩ := mem_flatMap.mp hedge
    obtain ⟨hfrom, hlt, hle⟩ := edgesAt_forward hat
    exact ⟨by omega, hle⟩
  refine ⟨fun edge hedge => (hmem edge hedge).1, fun edge hedge => ?_, fun node hnode => ?_⟩
  · have := (hmem edge hedge).2
    unfold nodeCount
    omega
  · have hget : ∀ j, j ≤ input.length + 1 → graph.starts[j]? = some (offset input options j) := by
      intro j hj
      rw [hstarts, getElem?_map, getElem?_range (by omega)]
      rfl
    unfold nodeCount at hnode
    have hstop : offset input options (node + 1) ≤ graph.edges.length := by
      rw [hedges]
      exact offset_mono (by omega)
    refine outgoingIds_eq (hget node (by omega)) (hget (node + 1) (by omega))
      (offset_mono (Nat.le_succ node)) hstop fun id edge hedge => ?_
    rw [hedges] at hedge
    obtain ⟨hle, hlt, _⟩ := offset_le_id hedge
    constructor
    · rintro rfl
      exact ⟨hle, hlt⟩
    · rintro ⟨hle', hlt'⟩
      rcases Nat.lt_trichotomy edge.from_ node with hlow | heq | hhigh
      · have := @offset_mono input options _ _ (Nat.succ_le_of_lt hlow)
        rw [Nat.succ_eq_add_one] at this
        omega
      · exact heq
      · have := @offset_mono input options _ _ (Nat.succ_le_of_lt hhigh)
        rw [Nat.succ_eq_add_one] at this
        omega

end Built

/-! ## Graphs of parsed segments -/

/-- One key of an input that another scheme has parsed. -/
structure ExactSegment where
  /-- Where the key begins. -/
  start : Nat
  /-- Where the key ends. -/
  stop : Nat
  /-- The key. -/
  key : SyllableKey
  /-- Its tone, or zero. -/
  tone : Nat

/-- Adds the edge of one segment to the edges and the end of the segment before it. -/
def exactEdge (input : Bytes) (state : List Edge × Nat) (segment : ExactSegment) :
    Except GraphError (List Edge × Nat) :=
  if segment.stop ≤ segment.start ∨ segment.start < state.2 ∨ input.length < segment.stop ∨
      ¬ (slice input state.2 (segment.start - state.2)).all (· == apostrophe) then
    .error .exactSegmentsInvalid
  else
    let from_ := if state.1.isEmpty then 0 else state.2
    if from_ < 2 ^ 32 ∧ segment.stop < 2 ^ 32 ∧ segment.start < 2 ^ 32 then
      .ok (state.1 ++ [⟨from_, segment.stop, segment.start, segment.key, .exact, segment.tone, 0⟩],
        segment.stop)
    else .error .exactSegmentsInvalid

/-- Moves the cursor over the edges that leave a node before `node`, and records it. -/
def exactStart (edges : List Edge) (state : List Nat × Nat) (node : Nat) : List Nat × Nat :=
  let cursor := state.2 + ((edges.drop state.2).takeWhile (·.from_ < node)).length
  (state.1 ++ [cursor], cursor)

/-- The reachability pass over one edge. -/
def exactReach (state : List Bool × Nat) (edge : Edge) : List Bool × Nat :=
  if state.1.getD edge.from_ false then (state.1.set edge.to_ true, max state.2 edge.to_)
  else state

/-- Builds the graph for an already-parsed input, one edge a segment. -/
def buildExact (input : Bytes) (segments : List ExactSegment) : Except GraphError SegmentGraph :=
  if maxGraphPosition < input.length then
    .error (.inputTooLong input.length maxGraphPosition)
  else do
    let (edges, _) ← segments.foldlM (exactEdge input) ([], 0)
    let nodeCount := input.length + 1
    let starts := ((List.range (nodeCount + 1)).foldl (exactStart edges) ([], 0)).1
    let reached := edges.foldl exactReach ((List.replicate nodeCount false).set 0 true, 0)
    .ok ⟨input.length, edges, starts, reached.1, reached.2⟩

/-- The edges of segments form one chain. -/
structure ExactChain (input : Bytes) (state : List Edge × Nat) : Prop where
  forward : ∀ edge ∈ state.1, edge.from_ < edge.to_ ∧ edge.to_ ≤ state.2
  inside : state.2 ≤ input.length
  sorted : state.1.Pairwise fun a b => a.from_ < b.from_

/-- One more segment in the chain. -/
theorem ExactChain.exactEdge {input : Bytes} {state next : List Edge × Nat}
    {segment : ExactSegment} (h : ExactChain input state)
    (hstep : exactEdge input state segment = .ok next) : ExactChain input next := by
  unfold SegmentGraph.exactEdge at hstep
  split_ifs at hstep with hbad hempty
  · dsimp only at hstep
    split_ifs at hstep
    obtain rfl := Except.ok.inj hstep
    have hnil := isEmpty_iff.mp hempty
    refine ⟨?_, by dsimp only; omega, by simp [hnil]⟩
    simp only [hnil, nil_append, mem_singleton, forall_eq, le_refl, and_true]
    omega
  · dsimp only at hstep
    split_ifs at hstep
    obtain rfl := Except.ok.inj hstep
    refine ⟨?_, by dsimp only; omega, ?_⟩
    · intro edge hedge
      rcases mem_append.mp hedge with hedge | hedge
      · have := h.forward edge hedge
        dsimp only
        omega
      · obtain rfl := mem_singleton.mp hedge
        dsimp only
        omega
    · rw [pairwise_append]
      refine ⟨h.sorted, pairwise_singleton _ _, fun edge hedge b hb => ?_⟩
      obtain rfl := mem_singleton.mp hb
      have := h.forward edge hedge
      dsimp only
      omega

/-- The chain of all segments. -/
theorem ExactChain.foldlM {input : Bytes} : ∀ {segments : List ExactSegment}
    {state final : List Edge × Nat}, ExactChain input state →
    segments.foldlM (SegmentGraph.exactEdge input) state = .ok final → ExactChain input final
  | [], state, final, h, hrun => by
    obtain rfl := Except.ok.inj hrun
    exact h
  | segment :: segments, state, final, h, hrun => by
    rw [foldlM_cons] at hrun
    cases hstep : SegmentGraph.exactEdge input state segment with
    | error e =>
      rw [hstep] at hrun
      cases hrun
    | ok next =>
      rw [hstep] at hrun
      exact ExactChain.foldlM (h.exactEdge hstep) hrun

theorem takeWhile_from_succ (edges : List Edge) (n : Nat) :
    edges.takeWhile (·.from_ < n + 1) = edges.takeWhile (·.from_ < n) ++
      (edges.drop (edges.takeWhile (·.from_ < n)).length).takeWhile (·.from_ < n + 1) := by
  induction edges with
  | nil => rfl
  | cons edge edges ih =>
    simp only [takeWhile_cons]
    by_cases hlt : edge.from_ < n
    · simp only [hlt, Nat.lt_succ_of_lt hlt, decide_true, if_true, length_cons, drop_succ_cons, cons_append]
      rw [ih]
    · simp [hlt, takeWhile_cons]

/-- The cursor stops at the first edge that leaves a node from `node` on. -/
theorem exactStart_eq (edges : List Edge) : ∀ n,
    (range (n + 1)).foldl (exactStart edges) ([], 0) =
      ((range (n + 1)).map fun node => (edges.takeWhile (·.from_ < node)).length,
        (edges.takeWhile (·.from_ < n)).length)
  | 0 => by simp [exactStart]
  | n + 1 => by
    rw [range_succ, foldl_append, exactStart_eq edges n, foldl_cons, foldl_nil, map_append, map_singleton]
    have hcursor := congrArg length (takeWhile_from_succ edges n)
    rw [length_append] at hcursor
    simp only [exactStart, ← hcursor]

/-- The offset of a node splits the sorted edges. -/
theorem lt_length_takeWhile_iff {edges : List Edge}
    (hsorted : edges.Pairwise fun a b => a.from_ < b.from_) {id node : Nat} {edge : Edge}
    (hedge : edges[id]? = some edge) : id < (edges.takeWhile (·.from_ < node)).length ↔ edge.from_ < node := by
  induction edges generalizing id with
  | nil => simp at hedge
  | cons head edges ih =>
    obtain ⟨hhead, htail⟩ := pairwise_cons.mp hsorted
    by_cases hlt : head.from_ < node
    · rw [takeWhile_cons_of_pos (by simpa using hlt), length_cons]
      cases id with
      | zero =>
        rw [getElem?_cons_zero, Option.some.injEq] at hedge
        subst hedge
        exact ⟨fun _ => hlt, fun _ => Nat.succ_pos _⟩
      | succ id =>
        rw [getElem?_cons_succ] at hedge
        rw [Nat.add_lt_add_iff_right, ih htail hedge]
    · rw [takeWhile_cons_of_neg (by simpa using hlt)]
      have hge : head.from_ ≤ edge.from_ := by
        rcases mem_cons.mp (mem_of_getElem? hedge) with rfl | hmem
        · exact le_refl _
        · exact (hhead edge hmem).le
      simp only [length_nil, Nat.not_lt_zero, false_iff]
      omega

/-- Building from exact segments gives a well-formed graph. -/
theorem valid_buildExact {input : Bytes} {segments : List ExactSegment} {graph : SegmentGraph}
    (h : buildExact input segments = .ok graph) : graph.Valid := by
  unfold buildExact at h
  split_ifs at h
  cases hfold : segments.foldlM (exactEdge input) ([], 0) with
  | error e =>
    rw [hfold] at h
    cases h
  | ok final =>
    rw [hfold] at h
    obtain rfl := Except.ok.inj h
    have hchain : ExactChain input final := ExactChain.foldlM (by constructor <;> simp) hfold
    refine ⟨fun edge hedge => (hchain.forward edge hedge).1, fun edge hedge => ?_,
      fun node hnode => ?_⟩
    · have h1 := (hchain.forward edge hedge).2
      have h2 := hchain.inside
      unfold nodeCount
      dsimp only
      omega
    · have hget : ∀ j, j ≤ input.length + 1 →
          (((range (input.length + 1 + 1)).foldl (exactStart final.1) ([], 0)).1)[j]? =
            some (final.1.takeWhile (·.from_ < j)).length := by
        intro j hj
        rw [exactStart_eq, getElem?_map, getElem?_range (by omega)]
        rfl
      unfold nodeCount at hnode
      dsimp only at hnode
      refine outgoingIds_eq (hget node (by omega)) (hget (node + 1) (by omega)) ?_
        (takeWhile_sublist _).length_le fun id edge hedge => ?_
      · rw [takeWhile_from_succ, length_append]
        exact Nat.le_add_right _ _
      · rw [lt_length_takeWhile_iff hchain.sorted hedge, ← not_lt, lt_length_takeWhile_iff hchain.sorted hedge]
        omega

end SegmentGraph

end Oxpinyin
