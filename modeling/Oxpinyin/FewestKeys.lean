import Oxpinyin.GraphValid
import Oxpinyin.Lib.Sweep

/-!
# The selected parse

`SegmentGraph.fewestKeys` takes, among the paths of the graph that the option word admits,
one that reaches furthest, with the fewest keys and then the least correction distance. Its
table is filled by one forward pass, and the reachability pass of the builder is another :
both are instances of `Sweep.Marks`.

`consumed_spec` : the graph consumes up to the furthest position keys and apostrophes reach.
`fewestKeys_spec` : the selected path is a path of admitted edges, and no admitted edges
reach further.
-/

namespace Oxpinyin

open List Sweep Cuts Or

namespace SegmentGraph

/-! ## The pass of the builder -/

/-- A key of the list, or an apostrophe, takes the parse from `p` to `q`. -/
def Advance (input : Bytes) (options : OptionBits) (admits : Edge → Prop) (p q : Nat) : Prop :=
  (input[p]? = some apostrophe ∧ q = p + 1) ∨
    ∃ edge ∈ edgesAt input options p, admits edge ∧ edge.to_ = q

section Reach

variable {input : Bytes} {options : OptionBits} {graph : SegmentGraph} {admits : Edge → Prop} {p q : Nat}

theorem advance_lt (h : Advance input options admits p q) : p < q ∧ q ≤ input.length := by
  rcases h with ⟨hbyte, rfl⟩ | ⟨edge, hedge, _, rfl⟩
  · have := (List.getElem?_eq_some_iff.mp hbyte).1
    omega
  · exact (edgesAt_forward hedge).2

theorem reach_le (h : Reach (Advance input options admits) p) : p ≤ input.length := by
  cases h with
  | zero => exact Nat.zero_le _
  | step _ hs => exact (advance_lt hs).2

theorem getD_set_true {reachable : List Bool} {i : Nat} (n : Nat) (hi : i < reachable.length) :
    (reachable.set i true).getD n false = (reachable.getD n false || i == n) := by
  rw [getD_eq_getElem?_getD, getElem?_set, getD_eq_getElem?_getD]
  by_cases hn : i = n
  · simp [hn, hn ▸ hi]
  · simp [hn, beq_false_of_ne hn]

theorem getD_foldl_set (edges : List Edge) (reachable : List Bool) (n : Nat)
    (hin : ∀ edge ∈ edges, edge.to_ < reachable.length) :
    (edges.foldl (fun reachable edge => reachable.set edge.to_ true) reachable).getD n false =
      (reachable.getD n false || edges.any (·.to_ == n)) := by
  induction edges generalizing reachable with
  | nil => simp
  | cons edge rest ih =>
    rw [foldl_cons, ih _ fun e he => by
        rw [length_set]; exact hin e (mem_cons_of_mem _ he),
      getD_set_true n (hin edge mem_cons_self), any_cons, Bool.or_assoc]

theorem length_foldl_set (edges : List Edge) (reachable : List Bool) :
    (edges.foldl (fun reachable edge => reachable.set edge.to_ true) reachable).length =
      reachable.length := by
  induction edges generalizing reachable with
  | nil => rfl
  | cons edge rest ih => rw [foldl_cons, ih, length_set]

/-- The reachability pass before node `k`. -/
structure Reached (input : Bytes) (options : OptionBits) (k : Nat) (state : List Bool × Nat) :
    Prop where
  length : state.1.length = input.length + 1
  marks : Marks (Advance input options fun _ => True) k fun n => state.1.getD n false = true
  last : Reach (Advance input options fun _ => True) state.2
  furthest : ∀ n, n < k → Reach (Advance input options fun _ => True) n → n ≤ state.2

/-- One node of the reachability pass. -/
theorem Reached.reachNode {edges : List Edge} {starts : List Nat} {k : Nat}
    {state : List Bool × Nat} (hk : k ≤ input.length)
    (hslice : sliceEdges edges starts k = edgesAt input options k) (h : Reached input options k state) :
    Reached input options (k + 1) (reachNode input edges starts state k) := by
  have hforward : ∀ p q, Advance input options (fun _ => True) p q → p < q :=
    fun p q hs => (advance_lt hs).1
  have hmark := h.marks.reach hforward (Nat.le_refl k)
  unfold SegmentGraph.reachNode
  by_cases hreached : state.1.getD k false = true
  · simp only [hreached, Bool.not_true, Bool.false_eq_true, if_false]
    rw [hslice]
    have hlength : (if k < input.length ∧ input[k]? = some apostrophe then state.1.set (k + 1) true
        else state.1).length = input.length + 1 := by
      split_ifs
      · rw [length_set, h.length]
      · exact h.length
    refine ⟨by rw [length_foldl_set, hlength], h.marks.step hforward fun n => ?_,
      hmark.mp hreached, fun n hn _ => by omega⟩
    rw [getD_foldl_set _ _ _ fun edge hedge => by
      rw [hlength]; have := (edgesAt_forward hedge).2.2; omega]
    have hhop : (if k < input.length ∧ input[k]? = some apostrophe then state.1.set (k + 1) true
        else state.1).getD n false = true ↔
        state.1.getD n false = true ∨ (input[k]? = some apostrophe ∧ n = k + 1) := by
      split_ifs with hbyte
      · rw [getD_set_true n (by rw [h.length]; omega), Bool.or_eq_true, beq_iff_eq]
        simp only [hbyte.2, true_and, eq_comm]
      · refine ⟨inl, fun hor => hor.elim id fun hq => absurd ⟨?_, hq.1⟩ hbyte⟩
        exact (List.getElem?_eq_some_iff.mp hq.1).1
    rw [Bool.or_eq_true, hhop, any_eq_true, or_assoc]
    simp only [hreached, true_and, Advance, beq_iff_eq]
  · simp only [Bool.not_eq_true] at hreached
    simp only [hreached, Bool.not_false, if_true]
    refine ⟨h.length, h.marks.step hforward fun n => ?_, h.last, fun n hn hr => ?_⟩
    · rw [hreached]
      simp
    · rcases Nat.lt_succ_iff_lt_or_eq.mp hn with hlt | rfl
      · exact h.furthest n hlt hr
      · rw [hmark.mpr hr] at hreached
        cases hreached

/-- The pass over the nodes below `k`. -/
theorem reached_pass {edges : List Edge} {starts : List Nat}
    (hslice : ∀ node, node ≤ input.length → sliceEdges edges starts node = edgesAt input options node) :
    ∀ k, k ≤ input.length + 1 → Reached input options k
      ((range k).foldl (SegmentGraph.reachNode input edges starts)
        ((replicate (input.length + 1) false).set 0 true, 0))
  | 0, _ => by
    refine ⟨by simp, .start fun n => ?_, .zero, fun n hn => absurd hn (Nat.not_lt_zero n)⟩
    rw [range_zero, foldl_nil, getD_set_true n (by simp),
      getD_eq_getElem?_getD, getElem?_replicate, Bool.or_eq_true, beq_iff_eq]
    split_ifs <;> simp [@eq_comm _ 0]
  | k + 1, hk => by
    rw [range_succ, foldl_append, foldl_cons, foldl_nil]
    exact (reached_pass hslice k (by omega)).reachNode (by omega) (hslice k (by omega))

/-- The pass over all nodes of a graph. -/
theorem reached_built (h : buildWithOptions input options = .ok graph) :
    Reached input options (input.length + 1) (graph.reachable, graph.consumed) := by
  unfold buildWithOptions at h
  split_ifs at h
  rw [← Except.ok.inj h]
  exact reached_pass (fun node => sliceEdges_scan input options) (input.length + 1) (Nat.le_refl _)

/-- The graph consumes up to the furthest position that keys and apostrophes reach. -/
theorem consumed_spec (h : buildWithOptions input options = .ok graph) :
    Reach (Advance input options fun _ => True) graph.consumed ∧
      ∀ n, Reach (Advance input options fun _ => True) n → n ≤ graph.consumed := by
  have hdone := reached_built h
  exact ⟨hdone.last, fun n hn => hdone.furthest n (Nat.lt_succ_of_le (reach_le hn)) hn⟩

end Reach

/-! ## Fewest keys -/

/-- The best way found to each node : its rank and its last edge. -/
abbrev Steps := List (Option (Nat × Edge))

/-- Whether the filter admits an edge. -/
def admitted (allowIncomplete : Bool) (edge : Edge) : Bool :=
  allowIncomplete || edge.kind != .incomplete

/-- Offers an edge to the node it enters. A rank is the number of keys above bit 32, and
the total correction distance below it. -/
def offer (bound rank : Nat) (steps : Steps) (edge : Edge) : Steps :=
  if bound < edge.to_ then steps
  else
    let candidate := rank + 2 ^ 32 + edge.distance
    if (steps.getD edge.to_ none).all fun seen => decide (candidate < seen.1) then
      steps.set edge.to_ (some (candidate, edge))
    else steps

/-- The pass at one node. The root has rank zero. -/
def fewestNode (graph : SegmentGraph) (allowIncomplete : Bool) (bound : Nat) (steps : Steps)
    (node : Nat) : Steps :=
  match if node = 0 then some 0 else (steps.getD node none).map (·.1) with
  | some rank =>
    ((graph.outgoing node).filter (admitted allowIncomplete)).foldl (offer bound rank) steps
  | none => steps

/-- The furthest node with a way to it, at most `node`. -/
def furthestStep (steps : Steps) : Nat → Nat
  | 0 => 0
  | node + 1 => if (steps.getD (node + 1) none).isSome then node + 1 else furthestStep steps node

/-- Follows the last edges back, last one first. Each comes from an earlier node, so the
node bounds the walk. -/
def traceBack (steps : Steps) : Nat → Nat → List Edge
  | 0, _ => []
  | fuel + 1, node =>
    if node = 0 then []
    else
      match steps.getD node none with
      | some (_, edge) => edge :: traceBack steps fuel edge.from_
      | none => []

/-- The path that reaches furthest, then with the fewest keys, then with the least
distance. -/
def fewestKeys (graph : SegmentGraph) (allowIncomplete : Bool) : List Edge :=
  let bound := graph.consumed
  let steps := (List.range bound).foldl (fewestNode graph allowIncomplete bound)
    (List.replicate (bound + 1) none)
  let node := furthestStep steps bound
  (traceBack steps node node).reverse

section Fewest

variable {graph : SegmentGraph} {allowIncomplete : Bool} {bound rank n : Nat} {steps : Steps} {edge : Edge}

theorem length_offer : (offer bound rank steps edge).length = steps.length := by
  unfold offer
  dsimp only
  split_ifs <;> simp

/-- What an offer changes : the node the edge enters has a way to it afterwards, the old one
or the edge. -/
theorem getD_offer (hlength : steps.length = bound + 1) (n : Nat) :
    (((offer bound rank steps edge).getD n none).isSome = true ↔
      (steps.getD n none).isSome = true ∨ (edge.to_ = n ∧ n ≤ bound)) ∧
    ∀ found, (offer bound rank steps edge).getD n none = some found →
      steps.getD n none = some found ∨ (found.2 = edge ∧ edge.to_ = n) := by
  unfold offer
  dsimp only
  split_ifs with hbound hbetter
  · refine ⟨⟨inl, fun h => h.elim id fun hn => ?_⟩, fun found h => inl h⟩
    omega
  · have hset : (steps.set edge.to_ (some (rank + 2 ^ 32 + edge.distance, edge))).getD n none =
        if edge.to_ = n then some (rank + 2 ^ 32 + edge.distance, edge) else steps.getD n none := by
      rw [getD_eq_getElem?_getD, getElem?_set, getD_eq_getElem?_getD]
      split_ifs
      · rfl
      · omega
      · rfl
    rw [hset]
    split_ifs with hn
    · refine ⟨⟨fun _ => inr ⟨hn, by omega⟩, fun _ => rfl⟩, fun found h => inr ?_⟩
      rw [← Option.some.inj h]
      exact ⟨rfl, hn⟩
    · exact ⟨⟨inl, fun h => h.elim id fun hto => absurd hto.1 hn⟩, fun found h => inl h⟩
  · refine ⟨⟨inl, fun h => h.elim id fun hn => ?_⟩, fun found h => inl h⟩
    rw [← hn.1]
    cases hseen : steps.getD edge.to_ none with
    | none =>
      rw [hseen] at hbetter
      exact absurd rfl hbetter
    | some seen => rfl

/-- What the offers of a node change. -/
theorem getD_foldl_offer : ∀ (edges : List Edge) {steps : Steps}, steps.length = bound + 1 →
    (edges.foldl (offer bound rank) steps).length = bound + 1 ∧
    ∀ n, (((edges.foldl (offer bound rank) steps).getD n none).isSome = true ↔
      (steps.getD n none).isSome = true ∨ ∃ edge ∈ edges, edge.to_ = n ∧ n ≤ bound) ∧
    ∀ found, (edges.foldl (offer bound rank) steps).getD n none = some found →
      steps.getD n none = some found ∨ (found.2 ∈ edges ∧ found.2.to_ = n)
  | [], steps, hlength => ⟨hlength, fun n => ⟨by simp, fun found h => inl h⟩⟩
  | edge :: rest, steps, hlength => by
    rw [foldl_cons]
    obtain ⟨hlen, hrest⟩ := getD_foldl_offer rest (length_offer.trans hlength)
    refine ⟨hlen, fun n => ?_⟩
    obtain ⟨hsome, hfound⟩ := hrest n
    obtain ⟨hsome', hfound'⟩ := @getD_offer bound rank steps edge hlength n
    refine ⟨?_, fun found h => ?_⟩
    · rw [hsome, hsome']
      simp [or_assoc]
    · rcases hfound found h with hold | ⟨hmem, hto⟩
      · rcases hfound' found hold with hold | ⟨rfl, hto⟩
        · exact inl hold
        · exact inr ⟨mem_cons_self, hto⟩
      · exact inr ⟨mem_cons_of_mem _ hmem, hto⟩

/-- An admitted edge takes the path from `p` to `q`. -/
def Taken (graph : SegmentGraph) (allowIncomplete : Bool) (bound p q : Nat) : Prop :=
  p < bound ∧
    ∃ edge ∈ graph.outgoing p, admitted allowIncomplete edge = true ∧ edge.to_ = q ∧ q ≤ bound

/-- Edges leave the node they are listed at, forward. -/
def Leaves (graph : SegmentGraph) (bound : Nat) : Prop :=
  ∀ p, p ≤ bound → ∀ edge ∈ graph.outgoing p, edge.from_ = p ∧ p < edge.to_

/-- The table before node `k`. -/
structure Filled (graph : SegmentGraph) (allowIncomplete : Bool) (bound k : Nat) (steps : Steps) :
    Prop where
  length : steps.length = bound + 1
  marks : Marks (Taken graph allowIncomplete bound) k
    fun n => n = 0 ∨ (steps.getD n none).isSome = true
  entry : ∀ n found, steps.getD n none = some found → found.2.to_ = n ∧ found.2.from_ < n ∧
    found.2 ∈ graph.outgoing found.2.from_ ∧ admitted allowIncomplete found.2 = true ∧
    (found.2.from_ = 0 ∨ (steps.getD found.2.from_ none).isSome = true)

theorem taken_lt (hleaves : Leaves graph bound) {p q : Nat} (h : Taken graph allowIncomplete bound p q) : p < q := by
  obtain ⟨hp, edge, hedge, _, rfl, _⟩ := h
  exact (hleaves p (Nat.le_of_lt hp) edge hedge).2

/-- One node of the table. -/
theorem Filled.fewestNode {k : Nat} (hleaves : Leaves graph bound)
    (h : Filled graph allowIncomplete bound k steps) (hk : k < bound) :
    Filled graph allowIncomplete bound (k + 1) (fewestNode graph allowIncomplete bound steps k) := by
  have hforward : ∀ p q, Taken graph allowIncomplete bound p q → p < q := fun p q => taken_lt hleaves
  cases hrank : if k = 0 then some 0 else (steps.getD k none).map (·.1) with
  | none =>
    have hmark : ¬ (k = 0 ∨ (steps.getD k none).isSome = true) := by
      split_ifs at hrank with hzero
      rw [Option.map_eq_none_iff] at hrank
      simp only [hrank, hzero, Option.isSome_none, Bool.false_eq_true, or_self, not_false_eq_true]
    unfold SegmentGraph.fewestNode
    rw [hrank]
    refine ⟨h.length, h.marks.step hforward fun n => ?_, h.entry⟩
    simp only [hmark, false_and, or_false]
  | some rank =>
    have hmark : k = 0 ∨ (steps.getD k none).isSome = true := by
      split_ifs at hrank with hzero
      · exact inl hzero
      · obtain ⟨found, hfound, _⟩ := Option.map_eq_some_iff.mp hrank
        exact inr (by rw [hfound]; rfl)
    unfold SegmentGraph.fewestNode
    rw [hrank]
    obtain ⟨hlen, hpass⟩ := @getD_foldl_offer bound rank
      ((graph.outgoing k).filter (admitted allowIncomplete)) steps h.length
    refine ⟨hlen, h.marks.step hforward fun n => ?_, fun n found hfound => ?_⟩
    · rw [(hpass n).1, or_assoc]
      simp only [hmark, true_and, Taken, mem_filter, and_assoc, hk]
    · rcases (hpass n).2 found hfound with hold | ⟨hmem, hto⟩
      · obtain ⟨hto, hfrom, hout, hadmitted, hreach⟩ := h.entry n found hold
        exact ⟨hto, hfrom, hout, hadmitted, hreach.imp_right fun hsome => (hpass _).1.mpr (inl hsome)⟩
      · obtain ⟨hout, hadmitted⟩ := mem_filter.mp hmem
        obtain ⟨hfrom, hlt⟩ := hleaves k (Nat.le_of_lt hk) found.2 hout
        rw [hfrom]
        exact ⟨hto, by omega, hout, hadmitted, hmark.imp_right fun hsome => (hpass _).1.mpr (inl hsome)⟩

theorem filled_pass (hleaves : Leaves graph bound) : ∀ k, k ≤ bound →
    Filled graph allowIncomplete bound k ((range k).foldl (fewestNode graph allowIncomplete bound)
        (replicate (bound + 1) none))
  | 0, _ => by
    have hnone : ∀ n, (replicate (bound + 1) (none : Option (Nat × Edge))).getD n none =
        none := by
      intro n
      rw [getD_eq_getElem?_getD, getElem?_replicate]
      split_ifs <;> rfl
    refine ⟨length_replicate, .start fun n => ?_, fun n found h => ?_⟩
    · rw [range_zero, foldl_nil, hnone]
      simp
    · rw [range_zero, foldl_nil, hnone] at h
      cases h
  | k + 1, hk => by
    rw [range_succ, foldl_append, foldl_cons, foldl_nil]
    exact (filled_pass hleaves k (by omega)).fewestNode hleaves (by omega)

theorem furthestStep_spec (steps : Steps) : ∀ node,
    furthestStep steps node ≤ node ∧
    (furthestStep steps node = 0 ∨ (steps.getD (furthestStep steps node) none).isSome = true) ∧
    ∀ n, n ≤ node → (steps.getD n none).isSome = true → n ≤ furthestStep steps node
  | 0 => ⟨Nat.le_refl 0, inl rfl, fun n hn _ => hn⟩
  | node + 1 => by
    unfold furthestStep
    split_ifs with hsome
    · exact ⟨Nat.le_refl _, inr hsome, fun n hn _ => hn⟩
    · obtain ⟨hle, hlast, hmax⟩ := furthestStep_spec steps node
      refine ⟨by omega, hlast, fun n hn hstep => ?_⟩
      rcases Nat.lt_or_eq_of_le hn with hlt | rfl
      · exact hmax n (by omega) hstep
      · exact absurd hstep hsome

theorem walk_append_singleton {a b : Nat} {es : List Edge} (h : Walk graph a b es)
    (hedge : edge ∈ graph.outgoing b) : Walk graph a edge.to_ (es ++ [edge]) := by
  induction h with
  | nil n => exact .cons hedge (.nil _)
  | cons hfirst _ ih => exact .cons hfirst (ih hedge)

/-- Following the last edges back from a marked node gives a path to it. -/
theorem Filled.traceBack {k : Nat} (h : Filled graph allowIncomplete bound k steps) :
    ∀ {fuel node : Nat}, node ≤ fuel → (node = 0 ∨ (steps.getD node none).isSome = true) →
      Walk graph 0 node (traceBack steps fuel node).reverse ∧
      ∀ edge ∈ traceBack steps fuel node, edge.from_ < node ∧ edge ∈ graph.outgoing edge.from_ ∧
        admitted allowIncomplete edge = true
  | 0, node, hnode, _ => by
    obtain rfl : node = 0 := by omega
    exact ⟨.nil 0, by simp [SegmentGraph.traceBack]⟩
  | fuel + 1, node, hnode, hmark => by
    unfold SegmentGraph.traceBack
    split_ifs with hzero
    · subst hzero
      exact ⟨.nil 0, by simp⟩
    · obtain ⟨found, hfound⟩ := Option.isSome_iff_exists.mp (hmark.resolve_left hzero)
      obtain ⟨hto, hfrom, hout, hadmitted, hreach⟩ := h.entry node found hfound
      rw [hfound]
      dsimp only
      obtain ⟨hwalk, hedges⟩ := h.traceBack (show found.2.from_ ≤ fuel by omega) hreach
      refine ⟨?_, fun edge hedge => ?_⟩
      · rw [reverse_cons, ← hto]
        exact walk_append_singleton hwalk hout
      · rcases mem_cons.mp hedge with rfl | hedge
        · exact ⟨hfrom, hout, hadmitted⟩
        · obtain ⟨hlt, hrest⟩ := hedges edge hedge
          exact ⟨Nat.lt_trans hlt hfrom, hrest⟩

/-- The selected path : admitted edges from the start to a node that no admitted edges
pass. -/
theorem fewestKeys_walk (hleaves : Leaves graph graph.consumed) :
    ∃ last, last ≤ graph.consumed ∧ Walk graph 0 last (graph.fewestKeys allowIncomplete) ∧
      (∀ edge ∈ graph.fewestKeys allowIncomplete, edge.from_ < last ∧
        edge ∈ graph.outgoing edge.from_ ∧ admitted allowIncomplete edge = true) ∧
      ∀ n, n ≤ graph.consumed → Reach (Taken graph allowIncomplete graph.consumed) n → n ≤ last := by
  have hdone := @filled_pass graph allowIncomplete graph.consumed hleaves graph.consumed (Nat.le_refl _)
  unfold fewestKeys
  dsimp only
  generalize (range graph.consumed).foldl (fewestNode graph allowIncomplete graph.consumed)
    (replicate (graph.consumed + 1) none) = steps at hdone
  obtain ⟨hle, hlast, hmax⟩ := furthestStep_spec steps graph.consumed
  obtain ⟨hwalk, hedges⟩ := hdone.traceBack (Nat.le_refl _) hlast
  refine ⟨_, hle, hwalk, fun edge hedge => hedges edge (mem_reverse.mp hedge), fun n hn hreach => ?_⟩
  rcases (hdone.marks.reach (fun p q => taken_lt hleaves) hn).mpr hreach with rfl | hsome
  · exact Nat.zero_le _
  · exact hmax n hn hsome

end Fewest

/-! ## The furthest positions -/

section Furthest

variable {input : Bytes} {options : OptionBits} {graph : SegmentGraph} {allowIncomplete : Bool}

theorem leaves_built (h : buildWithOptions input options = .ok graph) : Leaves graph graph.consumed := by
  intro p hp edge hedge
  have hinside := reach_le (consumed_spec h).1
  rw [outgoing_eq_edgesAt h (by omega)] at hedge
  obtain ⟨hfrom, hlt, _⟩ := edgesAt_forward hedge
  exact ⟨hfrom, hlt⟩

/-- An edge rides over a run of apostrophes from any node of the run. -/
theorem mem_edgesAt_of_run {p m : Nat} {edge : Edge} (hle : m ≤ p)
    (hrun : ∀ i, m ≤ i → i < p → byteIs (· == apostrophe) input i = true)
    (hedge : edge ∈ edgesAt input options p) : { edge with from_ := m } ∈ edgesAt input options m := by
  have hsame : runEnd (· == apostrophe) input m = runEnd (· == apostrophe) input p := by
    refine runEnd_eq (Nat.le_trans hle le_runEnd) (fun i hi hlt => ?_) byteIs_runEnd
    rcases Nat.lt_or_ge i p with hip | hip
    · exact hrun i hi hip
    · exact byteIs_of_lt_runEnd hip hlt
  obtain ⟨hlt, l, hl, hmax, hspan⟩ := mem_edgesAt.mp hedge
  refine mem_edgesAt.mpr ⟨by rw [hsame]; exact hlt, l, hl, hmax, ?_⟩
  rw [hsame]
  obtain ⟨⟨key, tone, distance⟩, hparsed, hsome⟩ := Option.bind_eq_some_iff.mp hspan
  unfold spanEdge
  rw [hparsed, Option.bind_some]
  dsimp only at hsome ⊢
  split_ifs at hsome with hfit
  rw [if_pos ⟨by omega, hfit.2⟩, ← Option.some.inj hsome]

/-- Edges ride over apostrophes, so what keys and apostrophes reach is an apostrophe run
behind what edges alone reach. -/
theorem taken_of_advance (h : buildWithOptions input options = .ok graph) {n : Nat}
    (hn : Reach (Advance input options fun edge => admitted allowIncomplete edge = true) n) :
    ∃ m, Reach (Taken graph allowIncomplete graph.consumed) m ∧ m ≤ n ∧
      ∀ i, m ≤ i → i < n → byteIs (· == apostrophe) input i = true := by
  induction hn with
  | zero => exact ⟨0, .zero, Nat.le_refl 0, fun i hi hlt => absurd hlt (Nat.not_lt_zero i)⟩
  | @step p q hp hs ih =>
    obtain ⟨m, hm, hle, hrun⟩ := ih
    have hq : q ≤ graph.consumed := by
      refine (consumed_spec h).2 q ?_
      exact (Reach.step hp hs).mono fun a b hab =>
        hab.imp_right fun ⟨edge, hedge, _, hto⟩ => ⟨edge, hedge, trivial, hto⟩
    rcases hs with ⟨hbyte, rfl⟩ | ⟨edge, hedge, hadmitted, rfl⟩
    · refine ⟨m, hm, by omega, fun i hi hlt => ?_⟩
      rcases Nat.lt_or_eq_of_le (Nat.le_of_lt_succ hlt) with hlt | rfl
      · exact hrun i hi hlt
      · exact byteIs_apostrophe_iff.mpr hbyte
    · have hinside := reach_le (consumed_spec h).1
      have hlt := (edgesAt_forward hedge).2.1
      refine ⟨edge.to_, .step hm ⟨by omega, { edge with from_ := m }, ?_, hadmitted, rfl, hq⟩,
        Nat.le_refl _, fun i hi hlt => by omega⟩
      rw [outgoing_eq_edgesAt h (by omega)]
      exact mem_edgesAt_of_run hle hrun hedge

theorem reach_walk (h : buildWithOptions input options = .ok graph) {admits : Edge → Prop}
    {a b : Nat} {es : List Edge} (hwalk : Walk graph a b es) (hadmitted : ∀ edge ∈ es, admits edge)
    (ha : Reach (Advance input options admits) a) : Reach (Advance input options admits) b := by
  induction hwalk with
  | nil n => exact ha
  | cons hedge _ ih =>
    refine ih (fun edge he => hadmitted edge (mem_cons_of_mem _ he)) (.step ha (inr ⟨_, ?_,
      hadmitted _ mem_cons_self, rfl⟩))
    rwa [outgoing_eq_edgesAt h (reach_le ha)] at hedge

theorem reach_runEnd {admits : Edge → Prop} {n : Nat} (hn : Reach (Advance input options admits) n) :
    Reach (Advance input options admits) (runEnd (· == apostrophe) input n) := by
  have hrun : ∀ d, n + d ≤ runEnd (· == apostrophe) input n →
      Reach (Advance input options admits) (n + d) := by
    intro d
    induction d with
    | zero => exact fun _ => hn
    | succ d ih =>
      intro hd
      refine .step (ih (by omega)) (inl ⟨byteIs_apostrophe_iff.mp ?_, rfl⟩)
      exact byteIs_of_lt_runEnd (Nat.le_add_right n d) hd
  have hle := @le_runEnd (· == apostrophe) input n
  have := hrun (runEnd (· == apostrophe) input n - n) (by omega)
  rwa [Nat.add_sub_cancel' hle] at this

/-- The selected path and the apostrophes behind it reach as far as admitted keys and
apostrophes can. -/
theorem fewestKeys_spec (h : buildWithOptions input options = .ok graph) :
    ∃ last, last ≤ graph.consumed ∧ Walk graph 0 last (graph.fewestKeys allowIncomplete) ∧
      (∀ edge ∈ graph.fewestKeys allowIncomplete, edge ∈ edgesAt input options edge.from_ ∧
        admitted allowIncomplete edge = true) ∧
      Reach (Advance input options fun edge => admitted allowIncomplete edge = true)
        (runEnd (· == apostrophe) input last) ∧
      ∀ n, Reach (Advance input options fun edge => admitted allowIncomplete edge = true) n →
        n ≤ runEnd (· == apostrophe) input last := by
  obtain ⟨last, hle, hwalk, hedges, hmax⟩ := @fewestKeys_walk graph allowIncomplete (leaves_built h)
  have hreach := reach_walk h hwalk (fun edge he => (hedges edge he).2.2) .zero
  refine ⟨last, hle, hwalk, fun edge he => ?_, reach_runEnd hreach, fun n hn => ?_⟩
  · obtain ⟨hlt, hout, hadmitted⟩ := hedges edge he
    have := reach_le (consumed_spec h).1
    rw [outgoing_eq_edgesAt h (by omega)] at hout
    exact ⟨hout, hadmitted⟩
  · obtain ⟨m, hm, hmn, hrun⟩ := taken_of_advance h hn
    have hconsumed : n ≤ graph.consumed := by
      refine (consumed_spec h).2 n (hn.mono fun a b hab => ?_)
      exact hab.imp_right fun ⟨edge, hedge, _, hto⟩ => ⟨edge, hedge, trivial, hto⟩
    have hlast := hmax m (by omega) hm
    by_contra hlt
    have hstop := @byteIs_runEnd (· == apostrophe) input last
    rw [hrun _ (Nat.le_trans hlast le_runEnd) (by omega)] at hstop
    cases hstop

end Furthest

end SegmentGraph

end Oxpinyin
