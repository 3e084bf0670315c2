import Oxpinyin.GraphBuild
import Oxpinyin.Lib.Lightest
import Oxpinyin.Lib.Run

/-!
# The rank of the selected parse

`fewestKeys` compares ranks that hold a number of keys and a total correction distance in one
integer. A key has distance zero or one and moves at least one byte on, so that the distance never
reaches the bits of the count, and the order of ranks is that of the pairs. The selected path is
then the best of all (`fewestKeys_optimal`), by `Lightest.Table`.
-/

namespace Oxpinyin

open List Option Sweep Cuts Lightest Edge

namespace SegmentGraph

/-- A graph comes from an input, from the segments of another parser, or is the empty one. -/
inductive Constructed : SegmentGraph → Prop
  | input {bytes : Bytes} {options : OptionBits} {graph : SegmentGraph} :
      buildWithOptions bytes options = .ok graph → Constructed graph
  | exact {bytes : Bytes} {segments : List ExactSegment} {graph : SegmentGraph} :
      buildExact bytes segments = .ok graph → Constructed graph
  | default : Constructed ⟨0, [], [], [], 0⟩

/-- The edges of a graph that the filter admits. -/
def Allows (graph : SegmentGraph) (allowIncomplete : Bool) (edge : Edge) : Prop :=
  edge ∈ graph.edges ∧ admitted allowIncomplete edge = true

/-- A path of the graph that the filter admits. -/
abbrev Path (graph : SegmentGraph) (allowIncomplete : Bool) : Nat → Nat → List Edge → Prop :=
  Route Edge.from_ Edge.to_ (graph.Allows allowIncomplete)

/-- The correction distance of a path. -/
def totalDistance (es : List Edge) : Nat := total Edge.distance es

/-- The rank of an edge : a key, and its distance. -/
def edgeRank (edge : Edge) : Nat := 2 ^ 32 + edge.distance

/-- The number of keys and the distance of a path, packed. -/
def packed (es : List Edge) : Nat := es.length * 2 ^ 32 + totalDistance es

/-- The table of the pass before node `k`. -/
def table (graph : SegmentGraph) (allowIncomplete : Bool) (k : Nat) : Steps :=
  (List.range k).foldl (fewestNode graph allowIncomplete graph.consumed)
    (List.replicate (graph.consumed + 1) none)

/-- The entries of a table by node. -/
def entries (steps : Steps) (n : Nat) : Option (Nat × Edge) := steps.getD n none

/-- What the search needs of a graph. -/
structure Searchable (graph : SegmentGraph) : Prop where
  outgoing : ∀ p, p < graph.consumed → ∀ edge, edge ∈ graph.outgoing p ↔ edge ∈ graph.edges ∧ edge.from_ = p
  forward : ∀ edge ∈ graph.edges, edge.from_ < edge.to_
  distances : ∀ edge ∈ graph.edges, edge.distance ≤ 1
  closed : ∀ n es, Route Edge.from_ Edge.to_ (· ∈ graph.edges) 0 n es → n ≤ graph.consumed
  short : graph.consumed < 2 ^ 32

theorem packed_nil : packed [] = 0 := Nat.zero_mul _

theorem packed_eq_total (es : List Edge) : packed es = total edgeRank es := by
  induction es with
  | nil => rfl
  | cons edge es ih =>
    rw [total_cons, ← ih, packed, packed, totalDistance, totalDistance, total_cons, length_cons, edgeRank,
      Nat.succ_mul]
    generalize es.length * 2 ^ 32 = keys
    omega

/-! ## The graphs there are -/

section Built

variable {input : Bytes} {options : OptionBits} {segments : List ExactSegment} {graph : SegmentGraph}

theorem mem_sliceEdges {edges : List Edge} {starts : List Nat} {node start stop : Nat} {edge : Edge}
    (hstart : starts[node]? = some start) (hstop : starts[node + 1]? = some stop)
    (hiff : ∀ id edge, edges[id]? = some edge → (edge.from_ = node ↔ start ≤ id ∧ id < stop)) :
    edge ∈ sliceEdges edges starts node ↔ edge ∈ edges ∧ edge.from_ = node := by
  rw [sliceEdges, hstart, hstop]
  dsimp only
  rw [mem_iff_getElem?, mem_iff_getElem?]
  constructor
  · rintro ⟨i, hi⟩
    obtain ⟨hlt, _⟩ := List.getElem?_eq_some_iff.mp hi
    rw [length_take] at hlt
    rw [getElem?_take_of_lt (by omega), getElem?_drop] at hi
    exact ⟨⟨_, hi⟩, (hiff _ _ hi).mpr ⟨by omega, by omega⟩⟩
  · rintro ⟨⟨id, hid⟩, hfrom⟩
    obtain ⟨hle, hlt⟩ := (hiff id edge hid).mp hfrom
    refine ⟨id - start, ?_⟩
    rw [getElem?_take_of_lt (by omega), getElem?_drop, Nat.add_sub_cancel' hle, hid]

theorem mem_outgoing_of_partitioned (h : graph.Partitioned) {p : Nat} (hp : p < graph.nodeCount) (edge : Edge) :
    edge ∈ graph.outgoing p ↔ edge ∈ graph.edges ∧ edge.from_ = p := by
  have hlength := h.length
  obtain ⟨start, hstart⟩ : ∃ start, graph.starts[p]? = some start := ⟨_, getElem?_eq_getElem (by omega)⟩
  obtain ⟨stop, hstop⟩ : ∃ stop, graph.starts[p + 1]? = some stop := ⟨_, getElem?_eq_getElem (by omega)⟩
  exact mem_sliceEdges hstart hstop fun id edge hedge => h.leaving p id start stop edge hstart hstop hedge

theorem fromOptionTextWithDistance_le {text : Bytes} {found : SyllableKey × Nat}
    (h : SyllableKey.fromOptionTextWithDistance text options = some found) : found.2 ≤ 1 := by
  unfold SyllableKey.fromOptionTextWithDistance at h
  split at h
  · obtain rfl := some.inj h
    exact Nat.zero_le _
  · obtain ⟨canonical, _, hkey⟩ := bind_eq_some_iff.mp h
    obtain ⟨key, _, rfl⟩ := map_eq_some_iff.mp hkey
    exact Nat.le_refl _

/-- The search may run on a parsed graph. -/
theorem searchable_buildWithOptions (h : buildWithOptions input options = .ok graph) : graph.Searchable := by
  have hlong := (exists_buildWithOptions_iff input options).mp ⟨graph, h⟩
  rw [maxGraphPosition] at hlong
  obtain ⟨hreach, hmost⟩ := consumed_spec h
  have hconsumed := reach_le hreach
  obtain ⟨hlen, _⟩ := tables_buildWithOptions h
  refine ⟨fun p hp => mem_outgoing_of_partitioned (partitioned_buildWithOptions h) ?_, fun edge hedge => ?_,
    fun edge hedge => ?_, fun n es hroute => ?_, by omega⟩
  · rw [nodeCount, hlen]
    omega
  · exact (edgesAt_forward ((mem_edges_iff h).mp hedge)).2.1
  · obtain ⟨_, l, _, _, hspan⟩ := mem_edgesAt.mp ((mem_edges_iff h).mp hedge)
    obtain ⟨key, tone, distance, hparsed, _, _, _, _, _, hdistance, _⟩ := spanEdge_eq_some hspan
    unfold parsedSpan at hparsed
    split_ifs at hparsed
    obtain ⟨split, _, hfound⟩ := bind_eq_some_iff.mp hparsed
    obtain ⟨found, hlookup, heq⟩ := map_eq_some_iff.mp hfound
    obtain ⟨_, hparts⟩ := Prod.mk.inj heq
    obtain ⟨_, rfl⟩ := Prod.mk.inj hparts
    rw [hdistance]
    exact fromOptionTextWithDistance_le hlookup
  · refine hmost n ?_
    have hwalk : ∀ {a t : Nat} {es : List Edge}, Route from_ to_ (· ∈ graph.edges) a t es →
        Reach (Advance input options fun _ => True) a → Reach (Advance input options fun _ => True) t := by
      intro a t es hroute
      induction hroute with
      | nil n => exact id
      | cons hedge hfrom _ ih =>
        intro ha
        refine ih (.step ha (Or.inr ⟨_, ?_, trivial, rfl⟩))
        rw [← hfrom]
        exact (mem_edges_iff h).mp hedge
    exact hwalk hroute .zero

/-- An edge of the segments of an input. -/
def Laid (input : Bytes) (edge : Edge) : Prop :=
  edge.distance = 0 ∧ edge.from_ < edge.to_ ∧ edge.to_ ≤ input.length

/-- The edges of segments follow each other from the start. -/
def Linked (input : Bytes) (state : List Edge × Nat) : Prop :=
  Route Edge.from_ Edge.to_ (Laid input) 0 state.2 state.1

theorem Linked.exactEdge {state next : List Edge × Nat} {segment : ExactSegment} (hroute : Linked input state)
    (hstep : exactEdge input state segment = .ok next) : Linked input next := by
  obtain ⟨edges, last⟩ := state
  unfold Linked at hroute ⊢
  dsimp only at hroute
  have hfrom : (if edges.isEmpty then 0 else last) = last := by
    split_ifs with hempty
    · rw [List.isEmpty_iff.mp hempty] at hroute
      cases hroute
      rfl
    · rfl
  unfold SegmentGraph.exactEdge at hstep
  dsimp only at hstep
  rw [hfrom] at hstep
  split_ifs at hstep with hbad
  obtain rfl := Except.ok.inj hstep
  have hlaid : Laid input ⟨last, segment.stop, segment.start, segment.key, .exact, segment.tone, 0⟩ :=
    ⟨rfl, by dsimp only; omega, by dsimp only; omega⟩
  exact hroute.concat hlaid rfl

/-- A pass over edges that follow each other ends at the last of them. -/
theorem foldl_exactReach {a t : Nat} {es : List Edge} (h : Route from_ to_ (Laid input) a t es) :
    ∀ {state : List Bool × Nat}, state.1.length = input.length + 1 → state.1.getD a false = true → state.2 = a →
      (es.foldl exactReach state).2 = t := by
  induction h with
  | nil n => exact fun _ _ hat => hat
  | @cons n t edge es hedge hfrom _ ih =>
    intro state hlength hmark hat
    obtain ⟨_, hlt, hle⟩ := hedge
    rw [foldl_cons, exactReach, hfrom, if_pos hmark]
    refine ih (by rw [length_set, hlength]) ?_ ?_
    · dsimp only
      rw [getD_set_true _ (by omega)]
      simp
    · dsimp only
      omega

variable (h : buildExact input segments = .ok graph)
include h

/-- What the graph of segments is made of. -/
theorem parts_buildExact :
    ∃ last, ExactChain input (graph.edges, last) ∧
      Route from_ to_ (Laid input) 0 last graph.edges ∧
      graph.inputLen = input.length ∧ input.length ≤ maxGraphPosition ∧
      graph.starts = (List.range (input.length + 2)).map
        (fun node => (graph.edges.takeWhile (·.from_ < node)).length) ∧
      graph.consumed = last := by
  unfold buildExact at h
  split_ifs at h with hlong
  obtain ⟨final, hfold, h⟩ := Run.bind_eq_ok h
  obtain rfl := Except.ok.inj h
  have hchain : ExactChain input final := ExactChain.foldlM (by constructor <;> simp) hfold
  have hstart : Linked input ([], 0) := .nil 0
  have hroute : Linked input final := Run.foldlM_inv (fun _ _ _ _ hstate hstep => hstate.exactEdge hstep) hstart hfold
  refine ⟨final.2, hchain, hroute, rfl, Nat.le_of_not_lt hlong, ?_, ?_⟩
  · dsimp only
    rw [exactStart_eq]
  · refine foldl_exactReach hroute (by simp) ?_ rfl
    dsimp only
    rw [getD_set_true _ (by simp)]
    simp

/-- The offsets of an exact graph cut its edges. -/
theorem partitioned_buildExact : graph.Partitioned := by
  obtain ⟨last, hchain, _, hlen, _, hstarts, _⟩ := parts_buildExact h
  have hget : ∀ j, j ≤ input.length + 1 →
      graph.starts[j]? = some (graph.edges.takeWhile (·.from_ < j)).length := by
    intro j hj
    rw [hstarts, getElem?_map, getElem?_range (by omega)]
    rfl
  have hmono : ∀ i j, i ≤ j →
      (graph.edges.takeWhile (·.from_ < i)).length ≤ (graph.edges.takeWhile (·.from_ < j)).length := by
    intro i j hij
    induction j, hij using Nat.le_induction with
    | base => exact Nat.le_refl _
    | succ j _ ih =>
      rw [takeWhile_from_succ, length_append]
      omega
  refine ⟨?_, ?_, ?_, ?_, fun node id start stop edge hstart hstop hedge => ?_⟩
  · rw [hstarts, length_map, length_range, nodeCount, hlen]
  · rw [hget 0 (Nat.zero_le _)]
    cases graph.edges with
    | nil => rfl
    | cons edge edges => rfl
  · have hall : graph.edges.takeWhile (·.from_ < input.length + 1) = graph.edges := by
      rw [takeWhile_eq_self_iff]
      intro edge hedge
      obtain ⟨hlt, hle⟩ := hchain.forward edge hedge
      have hinside := hchain.inside
      rw [decide_eq_true_iff]
      dsimp only at hle hinside
      omega
    rw [nodeCount, hlen, hget _ (Nat.le_refl _), hall]
  · rw [hstarts]
    exact pairwise_lt_range.map _ fun i j hij => hmono i j (Nat.le_of_lt hij)
  · have hnode := (List.getElem?_eq_some_iff.mp hstop).1
    rw [hstarts, length_map, length_range] at hnode
    rw [hget _ (by omega)] at hstart
    rw [hget _ (by omega)] at hstop
    obtain rfl := some.inj hstart
    obtain rfl := some.inj hstop
    rw [lt_length_takeWhile_iff hchain.sorted hedge, ← not_lt, lt_length_takeWhile_iff hchain.sorted hedge]
    omega

/-- The search may run on an exact graph. -/
theorem searchable_buildExact : graph.Searchable := by
  obtain ⟨last, hchain, hroute, hlen, hlong, _, hconsumed⟩ := parts_buildExact h
  rw [maxGraphPosition] at hlong
  have hinside := hchain.inside
  dsimp only at hinside
  refine ⟨fun p hp => mem_outgoing_of_partitioned (partitioned_buildExact h) ?_,
    fun edge hedge => (hchain.forward edge hedge).1, fun edge hedge => ?_, fun n es hroute => ?_, by omega⟩
  · rw [nodeCount, hlen]
    omega
  · rw [(hroute.mem edge hedge).1]
    exact Nat.zero_le _
  · rw [hconsumed]
    induction es using List.reverseRecOn with
    | nil =>
      cases hroute
      exact Nat.zero_le _
    | append_singleton es edge _ =>
      obtain ⟨_, hedge, rfl⟩ := hroute.of_concat
      exact (hchain.forward edge hedge).2

end Built

theorem Constructed.searchable {graph : SegmentGraph} (h : Constructed graph) : graph.Searchable := by
  cases h with
  | input h => exact searchable_buildWithOptions h
  | exact h => exact searchable_buildExact h
  | default =>
    refine ⟨fun p hp => absurd hp (Nat.not_lt_zero p), by simp, by simp, fun n es hroute => ?_, by decide⟩
    cases hroute with
    | nil => exact Nat.le_refl 0
    | cons hedge => cases hedge

/-! ## The table -/

section Table

variable {graph : SegmentGraph} {allowIncomplete : Bool} {bound r k n : Nat} {steps : Steps} {edge : Edge}

/-- One edge offered. -/
theorem entries_offer (hlength : steps.length = bound + 1) (n : Nat) :
    entries (offer bound r steps edge) n =
      if edge.to_ = n ∧ n ≤ bound ∧ ∀ seen, entries steps n = some seen → r + edgeRank edge < seen.1 then
        some (r + edgeRank edge, edge)
      else entries steps n := by
  have hrank : r + 2 ^ 32 + edge.distance = r + edgeRank edge := Nat.add_assoc _ _ _
  have hbetter : ((steps.getD edge.to_ none).all fun seen => decide (r + edgeRank edge < seen.1)) = true ↔
      ∀ seen, entries steps edge.to_ = some seen → r + edgeRank edge < seen.1 := by
    rw [entries, Option.all_eq_true]
    simp
  rw [offer, hrank]
  by_cases hout : bound < edge.to_
  · rw [if_pos hout, if_neg fun h => by omega]
  rw [if_neg hout]
  dsimp only
  by_cases hn : edge.to_ = n
  · subst hn
    by_cases hlower : ∀ seen, entries steps edge.to_ = some seen → r + edgeRank edge < seen.1
    · rw [if_pos (hbetter.mpr hlower), if_pos ⟨rfl, by omega, hlower⟩, entries, getD_eq_getElem?_getD,
        getElem?_set_self (by omega)]
      rfl
    · rw [if_neg fun h => hlower (hbetter.mp h), if_neg fun h => hlower h.2.2]
  · refine Eq.trans ?_ (if_neg fun h => hn h.1).symm
    split_ifs
    · rw [entries, getD_eq_getElem?_getD, getElem?_set_ne hn, ← getD_eq_getElem?_getD, entries]
    · rfl

/-- What the offers of a node do to a table. -/
structure Offered (bound r : Nat) (edges : List Edge) (steps steps' : Steps) : Prop where
  length : steps'.length = bound + 1
  change : ∀ n, entries steps' n = entries steps n ∨ ∃ edge ∈ edges, edge.to_ = n ∧
    entries steps' n = some (r + edgeRank edge, edge) ∧ ∀ old, entries steps n = some old → r + edgeRank edge < old.1
  taken : ∀ edge ∈ edges, edge.to_ ≤ bound →
    ∃ r' found, entries steps' edge.to_ = some (r', found) ∧ r' ≤ r + edgeRank edge

/-- All edges of a node offered. -/
theorem offered_foldl : ∀ (edges : List Edge) {steps : Steps}, steps.length = bound + 1 →
    Offered bound r edges steps (edges.foldl (offer bound r) steps)
  | [], steps, hlength => ⟨hlength, fun n => Or.inl rfl, by simp⟩
  | edge :: rest, steps, hlength => by
    rw [foldl_cons]
    have hnext := @offered_foldl rest (offer bound r steps edge) (length_offer.trans hlength)
    have hhead := @entries_offer bound r steps edge hlength
    refine ⟨hnext.length, fun n => ?_, fun taken htaken hto => ?_⟩
    · rcases hnext.change n with hsame | ⟨later, hlater, hto, hnew, hbetter⟩
      · rw [hsame, hhead n]
        split_ifs with hoffer
        · exact Or.inr ⟨edge, mem_cons_self, hoffer.1, rfl, hoffer.2.2⟩
        · exact Or.inl rfl
      · refine Or.inr ⟨later, mem_cons_of_mem _ hlater, hto, hnew, fun old hold => ?_⟩
        rw [hhead n] at hbetter
        split_ifs at hbetter with hoffer
        · exact Nat.lt_trans (hbetter _ rfl) (hoffer.2.2 old hold)
        · exact hbetter old hold
    · rcases mem_cons.mp htaken with rfl | htaken
      · -- the head's offer leaves an entry no heavier, and later offers only lower it
        obtain ⟨r', found, hentry, hle⟩ : ∃ r' found, entries (offer bound r steps taken) taken.to_ =
          some (r', found) ∧
            r' ≤ r + edgeRank taken := by
          rw [hhead taken.to_]
          split_ifs with hoffer
          · exact ⟨_, _, rfl, Nat.le_refl _⟩
          · simp only [true_and, hto, not_forall, not_lt] at hoffer
            obtain ⟨seen, hseen, hle⟩ := hoffer
            exact ⟨seen.1, seen.2, hseen, hle⟩
        rcases hnext.change taken.to_ with hsame | ⟨later, _, _, hnew, hbetter⟩
        · exact ⟨r', found, hsame.trans hentry, hle⟩
        · exact ⟨_, _, hnew, Nat.le_trans (Nat.le_of_lt (hbetter _ hentry)) hle⟩
      · exact hnext.taken taken htaken hto

theorem nodeRank_eq (steps : Steps) (k : Nat) :
    (if k = 0 then some 0 else (steps.getD k none).map (·.1)) = rank (entries steps) k := rfl

/-- The pass at a node is a visit. -/
theorem visit_fewestNode (hgraph : graph.Searchable) (hk : k < graph.consumed)
    (hlength : steps.length = graph.consumed + 1) :
    (fewestNode graph allowIncomplete graph.consumed steps k).length = graph.consumed + 1 ∧
      Visit from_ to_ edgeRank (graph.Allows allowIncomplete) graph.consumed k (entries steps)
        (entries (fewestNode graph allowIncomplete graph.consumed steps k)) := by
  have hallows : ∀ edge, edge ∈ (graph.outgoing k).filter (admitted allowIncomplete) ↔
      graph.Allows allowIncomplete edge ∧ edge.from_ = k := by
    intro edge
    rw [mem_filter, hgraph.outgoing k hk, Allows]
    tauto
  unfold fewestNode
  rw [nodeRank_eq]
  cases hrank : rank (entries steps) k with
  | none =>
    dsimp only
    exact ⟨hlength, fun n => Or.inl rfl, fun edge _ _ _ r' hr' => by rw [hrank] at hr'; cases hr'⟩
  | some r =>
    dsimp only
    have hoffered := @offered_foldl graph.consumed r ((graph.outgoing k).filter (admitted allowIncomplete))
      steps hlength
    refine ⟨hoffered.length, fun n => ?_, fun edge hallowed hfrom hto r' hr' => ?_⟩
    · rcases hoffered.change n with hsame | ⟨edge, hedge, hto, hnew, hbetter⟩
      · exact Or.inl hsame
      · obtain ⟨hallowed, hfrom⟩ := (hallows edge).mp hedge
        exact Or.inr ⟨r, edge, hallowed, hfrom, hto, hrank, hnew, hbetter⟩
    · obtain rfl := some.inj (hrank.symm.trans hr')
      exact hoffered.taken edge ((hallows edge).mpr ⟨hallowed, hfrom⟩) hto

theorem Allows.forward (hgraph : graph.Searchable) (edge : Edge) (h : graph.Allows allowIncomplete edge) :
    edge.from_ < edge.to_ :=
  hgraph.forward edge h.1

/-- The pass keeps the lightest routes through the nodes it has visited. -/
theorem table_spec (hgraph : graph.Searchable) : ∀ k, k ≤ graph.consumed →
    (graph.table allowIncomplete k).length = graph.consumed + 1 ∧
      Lightest.Table from_ to_ edgeRank (graph.Allows allowIncomplete) graph.consumed k
        (entries (graph.table allowIncomplete k))
  | 0, _ => by
    have hnone : entries (graph.table allowIncomplete 0) = fun _ => none := by
      funext n
      rw [entries, table, range_zero, foldl_nil, getD_eq_getElem?_getD, getElem?_replicate]
      split_ifs
      · rfl
      · rfl
    refine ⟨length_replicate, ?_⟩
    rw [hnone]
    exact .start
  | k + 1, hk => by
    obtain ⟨hlength, htable⟩ := table_spec hgraph k (by omega)
    have hvisit := @visit_fewestNode graph allowIncomplete k _ hgraph (by omega) hlength
    rw [table, range_succ, foldl_append, foldl_cons, foldl_nil, ← table]
    exact ⟨hvisit.1, htable.step (Allows.forward hgraph) hvisit.2⟩

/-- Following the last edges back gives a path of the rank of its end, whose every edge is the entry of
the node it enters. -/
theorem traceBack_spec (htable : Lightest.Table from_ to_ edgeRank (graph.Allows allowIncomplete) bound k
      (entries steps)) (hgraph : graph.Searchable) :
    ∀ {fuel node r : Nat}, node ≤ fuel → rank (entries steps) node = some r →
      graph.Path allowIncomplete 0 node (traceBack steps fuel node).reverse ∧
      packed (traceBack steps fuel node).reverse = r ∧
      ∀ front edge back, (traceBack steps fuel node).reverse = front ++ edge :: back →
        entries steps edge.to_ = some (packed (front ++ [edge]), edge)
  | 0, node, r, hnode, hrank => by
    obtain rfl : node = 0 := by omega
    obtain rfl := some.inj hrank
    exact ⟨.nil 0, packed_nil, by simp [SegmentGraph.traceBack]⟩
  | fuel + 1, node, r, hnode, hrank => by
    unfold SegmentGraph.traceBack
    by_cases hzero : node = 0
    · subst hzero
      obtain rfl := some.inj hrank
      exact ⟨.nil 0, packed_nil, by simp⟩
    rw [rank, if_neg hzero] at hrank
    obtain ⟨⟨weight, edge⟩, hentry, rfl⟩ := map_eq_some_iff.mp hrank
    obtain ⟨hallowed, _, hto, r', hr', hweight⟩ := htable.entry node weight edge hentry
    have hlt := Allows.forward hgraph edge hallowed
    obtain ⟨hpath, hpacked, hbegun⟩ := traceBack_spec htable hgraph (show edge.from_ ≤ fuel by omega) hr'
    have hlast : packed ((traceBack steps fuel edge.from_).reverse ++ [edge]) = weight := by
      rw [packed_eq_total, total_append, total_singleton, ← packed_eq_total, hpacked, hweight]
    rw [if_neg hzero]
    rw [entries] at hentry
    rw [hentry]
    dsimp only
    rw [reverse_cons]
    refine ⟨?_, hlast, fun front mid back hsplit => ?_⟩
    · rw [← hto]
      exact hpath.concat hallowed rfl
    · rcases eq_nil_or_concat back with rfl | ⟨back, final, rfl⟩
      · obtain ⟨rfl, hedge⟩ := append_inj' hsplit rfl
        obtain rfl := (List.cons.inj hedge).1
        rw [hlast, hto]
        exact hentry
      · rw [concat_eq_append, ← cons_append, ← append_assoc] at hsplit
        obtain ⟨hfront, _⟩ := append_inj' hsplit rfl
        exact hbegun front mid back hfront

end Table

/-! ## The selected path -/

section Selected

variable {graph : SegmentGraph} {allowIncomplete : Bool} {n : Nat} {es : List Edge}

theorem totalDistance_le (hgraph : graph.Searchable) {a : Nat} (h : graph.Path allowIncomplete a n es) :
    totalDistance es ≤ es.length := by
  have hall := h.mem
  clear h
  induction es with
  | nil => exact Nat.le_refl _
  | cons edge es ih =>
    have hhead := hgraph.distances edge (hall edge mem_cons_self).1
    have htail := ih fun edge hedge => hall edge (mem_cons_of_mem _ hedge)
    rw [totalDistance] at htail
    rw [totalDistance, total_cons, length_cons]
    omega

/-- A path of a graph is shorter than a word holds, in keys and in distance. -/
theorem path_bounds (hgraph : graph.Searchable) (h : graph.Path allowIncomplete 0 n es) :
    n ≤ graph.consumed ∧ es.length ≤ n ∧ totalDistance es ≤ es.length := by
  have hlength := h.length_le (Allows.forward hgraph)
  exact ⟨hgraph.closed n es (h.imp fun edge hedge => hedge.1), by omega, totalDistance_le hgraph h⟩

/-- The order of ranks is that of the pairs. -/
theorem packed_le_iff {xs ys : List Edge} (hx : totalDistance xs < 2 ^ 32) (hy : totalDistance ys < 2 ^ 32) :
    packed xs ≤ packed ys ↔
      xs.length < ys.length ∨ xs.length = ys.length ∧ totalDistance xs ≤ totalDistance ys := by
  unfold packed
  omega

/-- The best path of a graph to its furthest node. -/
structure Best (graph : SegmentGraph) (allowIncomplete : Bool) (last : Nat) (path : List Edge) : Prop where
  admitted : graph.Path allowIncomplete 0 last path
  furthest : ∀ n es, graph.Path allowIncomplete 0 n es → n ≤ last
  least : ∀ es, graph.Path allowIncomplete 0 last es → path.length < es.length ∨
    path.length = es.length ∧ totalDistance path ≤ totalDistance es
  /-- An edge comes from the smallest node that a path as good can come from. -/
  first : ∀ front edge back, path = front ++ edge :: back → ∀ others final,
    graph.Path allowIncomplete 0 edge.to_ (others ++ [final]) → others.length = front.length →
    totalDistance (others ++ [final]) = totalDistance (front ++ [edge]) → edge.from_ ≤ final.from_

/-- The rank a node has when its edges are offered is that of a path, and holds one key more. -/
def Uncarried (graph : SegmentGraph) (allowIncomplete : Bool) : Prop :=
  ∀ node weight, node < graph.consumed → rank (entries (graph.table allowIncomplete node)) node = some weight →
    ∃ es, graph.Path allowIncomplete 0 node es ∧ weight = es.length * 2 ^ 32 + totalDistance es ∧
      ∀ edge, graph.Allows allowIncomplete edge → edge.from_ = node →
        totalDistance es + edge.distance < 2 ^ 32 ∧ weight + 2 ^ 32 + edge.distance < 2 ^ 64

/-- The selected path is the best of the graph. -/
theorem Searchable.best (hgraph : graph.Searchable) (allowIncomplete : Bool) :
    ∃ last, graph.Best allowIncomplete last (graph.fewestKeys allowIncomplete) := by
  have hshort := hgraph.short
  obtain ⟨_, htable⟩ := @table_spec graph allowIncomplete hgraph graph.consumed (Nat.le_refl _)
  obtain ⟨hle, hlast, hmost⟩ := furthestStep_spec (graph.table allowIncomplete graph.consumed) graph.consumed
  set steps := graph.table allowIncomplete graph.consumed
  set last := furthestStep steps graph.consumed
  have hfewest : graph.fewestKeys allowIncomplete = (traceBack steps last last).reverse := rfl
  obtain ⟨weight, hweight⟩ : ∃ weight, rank (entries steps) last = some weight := by
    rw [rank]
    split_ifs with hzero
    · exact ⟨0, rfl⟩
    · obtain ⟨found, hfound⟩ := isSome_iff_exists.mp (hlast.resolve_left hzero)
      exact ⟨found.1, by rw [entries, hfound]; rfl⟩
  obtain ⟨hpath, hpacked, hbegun⟩ := traceBack_spec htable hgraph (Nat.le_refl last) hweight
  rw [← hfewest] at hpath hpacked hbegun
  have hsmall : ∀ {n : Nat} {es : List Edge}, graph.Path allowIncomplete 0 n es → totalDistance es < 2 ^ 32 := by
    intro n es hes
    have := path_bounds hgraph hes
    omega
  refine ⟨last, hpath, fun n es hes => ?_, fun es hes => ?_, fun front edge back hsplit others final hothers hcount
    hdistance => ?_⟩
  · have hn := (path_bounds hgraph hes).1
    obtain ⟨r, hr, _⟩ := htable.le_total (Allows.forward hgraph) hes hn
    rw [rank] at hr
    split_ifs at hr with hzero
    · omega
    · obtain ⟨found, hfound, _⟩ := map_eq_some_iff.mp hr
      exact hmost n hn (by rw [← entries, hfound]; rfl)
  · obtain ⟨r, hr, hle⟩ := htable.le_total (Allows.forward hgraph) hes hle
    obtain rfl := some.inj (hweight.symm.trans hr)
    rw [← packed_eq_total, ← hpacked] at hle
    exact (packed_le_iff (hsmall hpath) (hsmall hes)).mp hle
  · have hentry := hbegun front edge back hsplit
    refine htable.first_source (Allows.forward hgraph) hothers (path_bounds hgraph hothers).1 hentry ?_
    rw [← packed_eq_total, packed, packed, hdistance, length_append, length_append, hcount]
    exact Nat.le_refl _

/-- No rank of the pass carries from its distance. -/
theorem Searchable.uncarried (hgraph : graph.Searchable) (allowIncomplete : Bool) :
    graph.Uncarried allowIncomplete := by
  have hshort := hgraph.short
  intro node weight hnode hrank
  obtain ⟨_, hbefore⟩ := @table_spec graph allowIncomplete hgraph node (Nat.le_of_lt hnode)
  obtain ⟨hes, hpacked, _⟩ := traceBack_spec hbefore hgraph (Nat.le_refl node) hrank
  have hbounds := path_bounds hgraph hes
  refine ⟨_, hes, by rw [← hpacked, packed], fun edge hedge _ => ?_⟩
  have hone := hgraph.distances edge hedge.1
  rw [← hpacked, packed]
  omega

/-- The selected path is the best of the graph, and no rank carries from its distance. -/
theorem fewestKeys_optimal (h : Constructed graph) (allowIncomplete : Bool) :
    (∃ last, graph.Best allowIncomplete last (graph.fewestKeys allowIncomplete)) ∧
      graph.Uncarried allowIncomplete :=
  ⟨h.searchable.best allowIncomplete, h.searchable.uncarried allowIncomplete⟩

end Selected

theorem fewestKeys_optimal_xian : ∃ graph, buildWithOptions [120, 105, 97, 110] ⟨0⟩ = .ok graph ∧
    (∃ last, graph.Best false last (graph.fewestKeys false)) ∧ graph.Uncarried false := by
  obtain ⟨graph, h⟩ := (exists_buildWithOptions_iff [120, 105, 97, 110] ⟨0⟩).mpr (by decide)
  exact ⟨graph, h, fewestKeys_optimal (.input h) false⟩

end SegmentGraph

end Oxpinyin
