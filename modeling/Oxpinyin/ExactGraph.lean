import Oxpinyin.WindowLength

/-!
# Graphs of parsed segments

Schemes with a parser of their own hand their keys over as segments of the input, and the graph of
such segments is a chain. `buildExact_iff` : segments are accepted exactly when they follow each other
from the start with only apostrophes between them, on an input whose positions the graph can hold, and
then the graph has no path through them but the segments themselves, which `fewestKeys` selects.
-/

namespace Oxpinyin

namespace SegmentGraph

open List Lightest

/-- The segment an edge stands for. -/
def Edge.exactSegment (edge : Edge) : ExactSegment :=
  ⟨edge.syllableStart, edge.to_, edge.key, edge.tone⟩

/-- A graph that is one chain of segments. -/
structure OneChain (graph : SegmentGraph) (segments : List ExactSegment) : Prop where
  edges : graph.edges.map Edge.exactSegment = segments
  only : ∀ es, Walk graph 0 (chainEnd 0 segments) es ↔ es = graph.edges
  selected : graph.fewestKeys false = graph.edges
  partitioned : graph.Partitioned

section Chain

variable {input : Bytes} {segments : List ExactSegment} {graph : SegmentGraph} {a t : Nat} {es : List Edge}

theorem exactSegment_chainEdges : ∀ (segments : List ExactSegment) (p : Nat),
    (chainEdges p segments).map Edge.exactSegment = segments
  | [], _ => rfl
  | segment :: rest, p => by
    rw [chainEdges, map_cons, exactSegment_chainEdges rest segment.stop]
    rfl

theorem lt_nodeCount_of_outgoing (h : graph.Partitioned) {p : Nat} {edge : Edge} (hedge : edge ∈ graph.outgoing p) :
    p < graph.nodeCount := by
  rw [outgoing] at hedge
  unfold sliceEdges at hedge
  split at hedge
  · next start stop _ hstop =>
    have hlt := (List.getElem?_eq_some_iff.mp hstop).1
    rw [h.length] at hlt
    omega
  · cases hedge

/-- Walks over the offsets are routes over the edges. -/
theorem walk_iff_route (h : graph.Partitioned) (hnode : ∀ edge ∈ graph.edges, edge.from_ < graph.nodeCount) :
    Walk graph a t es ↔ Route Edge.from_ Edge.to_ (· ∈ graph.edges) a t es := by
  constructor
  · intro hwalk
    induction hwalk with
    | nil n => exact .nil n
    | cons hedge _ ih =>
      obtain ⟨hmem, hfrom⟩ := (mem_outgoing_of_partitioned h (lt_nodeCount_of_outgoing h hedge) _).mp hedge
      exact .cons hmem hfrom ih
  · intro hroute
    induction hroute with
    | nil n => exact .nil n
    | cons hmem hfrom _ ih =>
      refine .cons ((mem_outgoing_of_partitioned h ?_ _).mpr ⟨hmem, hfrom⟩) ih
      rw [← hfrom]
      exact hnode _ hmem

/-- At most one edge of a chain leaves a node. -/
theorem ExactChain.eq_of_from_eq {state : List Edge × Nat} (h : ExactChain input state) {edge other : Edge}
    (hedge : edge ∈ state.1) (hother : other ∈ state.1) (hfrom : edge.from_ = other.from_) : edge = other := by
  by_contra hne
  have hsorted := pairwise_iff_getElem.mp h.sorted
  obtain ⟨i, hi, rfl⟩ := getElem_of_mem hedge
  obtain ⟨j, hj, rfl⟩ := getElem_of_mem hother
  rcases Nat.lt_trichotomy i j with hlt | rfl | hlt
  · have := hsorted i j hi hj hlt
    omega
  · exact hne rfl
  · have := hsorted j i hj hi hlt
    omega

/-- An exact graph is one chain of its segments. -/
theorem oneChain_buildExact (h : buildExact input segments = .ok graph) : graph.OneChain segments := by
  obtain ⟨hfollows, hedges, _⟩ := follows_of_buildExact h
  obtain ⟨last, hchain, _, hlen, _⟩ := parts_buildExact h
  have hinside := hchain.inside
  have hpartitioned := partitioned_buildExact h
  have hforward : ∀ edge ∈ graph.edges, edge.from_ < edge.to_ := fun edge hedge => (hchain.forward edge hedge).1
  have hnode : ∀ edge ∈ graph.edges, edge.from_ < graph.nodeCount := by
    intro edge hedge
    obtain ⟨hlt, hle⟩ := hchain.forward edge hedge
    rw [nodeCount, hlen]
    dsimp only at hle hinside
    omega
  have hone : ∀ edge other : Edge, edge ∈ graph.edges → other ∈ graph.edges → edge.from_ = other.from_ →
    edge = other :=
    fun edge other hedge hother => hchain.eq_of_from_eq hedge hother
  have hroute : Route Edge.from_ Edge.to_ (· ∈ graph.edges) 0 (chainEnd 0 segments) graph.edges := by
    rw [hedges]
    exact (route_chainEdges hfollows).imp fun edge hedge => hedge.1
  refine ⟨?_, fun es => ?_, ?_, hpartitioned⟩
  · rw [hedges]
    exact exactSegment_chainEdges segments 0
  · rw [walk_iff_route hpartitioned hnode]
    constructor
    · intro hother
      exact hother.unique hforward hone hroute
    · rintro rfl
      exact hroute
  · -- the selected path ends where the segments do
    obtain ⟨last, hbest⟩ := (searchable_buildExact h).best false
    have hlast : last = chainEnd 0 segments := by
      rw [← pathEnd_of_route hbest.admitted, pathEnd_exact h]
    have hselected := hbest.admitted.imp fun edge hedge => hedge.1
    rw [hlast] at hselected
    exact hselected.unique hforward hone hroute

end Chain

/-- Segments are accepted when they follow each other on an input that is not too long, and are then
the only path through the graph. -/
theorem buildExact_iff (input : Bytes) (segments : List ExactSegment) :
    ((∃ graph, buildExact input segments = .ok graph) ↔ input.length ≤ maxGraphPosition ∧ Follows input 0 segments) ∧
      ∀ graph, buildExact input segments = .ok graph → graph.OneChain segments := by
  refine ⟨⟨?_, ?_⟩, fun graph => oneChain_buildExact⟩
  · rintro ⟨graph, h⟩
    obtain ⟨hfollows, _, hlong⟩ := follows_of_buildExact h
    exact ⟨hlong, hfollows⟩
  · rintro ⟨hlong, hfollows⟩
    exact exists_buildExact hlong hfollows

/-- Two segments of `'ni'hao`, behind an apostrophe each. -/
theorem buildExact_iff_nihao : ∃ key other graph,
    buildExact [39, 110, 105, 39, 104, 97, 111] [⟨1, 3, key, 0⟩, ⟨4, 7, other, 3⟩] = .ok graph ∧
      graph.OneChain [⟨1, 3, key, 0⟩, ⟨4, 7, other, 3⟩] := by
  have hsome : 1 < syllableKeyCount := by decide +kernel
  let key : SyllableKey := ⟨0, Nat.lt_trans Nat.zero_lt_one hsome⟩
  let other : SyllableKey := ⟨1, hsome⟩
  obtain ⟨haccepted, hchain⟩ := buildExact_iff [39, 110, 105, 39, 104, 97, 111] [⟨1, 3, key, 0⟩, ⟨4, 7, other, 3⟩]
  obtain ⟨graph, hgraph⟩ := haccepted.mpr ⟨by decide, by simp, by simp, by simp, rfl, by simp, by simp, by simp, rfl,
    trivial⟩
  exact ⟨key, other, graph, hgraph, hchain graph hgraph⟩

/-- The empty walk on an input longer than the graph can hold is refused. -/
theorem not_buildExact_of_follows : ∃ input : Bytes, Follows input 0 [] ∧
    ¬ ∃ graph, buildExact input [] = .ok graph := by
  refine ⟨List.replicate (maxGraphPosition + 1) apostrophe, trivial, ?_⟩
  rintro ⟨graph, h⟩
  have hlong := (follows_of_buildExact h).2.2
  rw [List.length_replicate] at hlong
  omega

end SegmentGraph

end Oxpinyin
