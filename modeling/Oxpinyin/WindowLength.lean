import Oxpinyin.FewestRank
import Oxpinyin.RetainedParse

/-!
# The parsed length of a window

A candidate window starts at an anchor inside the buffer. Its parsed length is that of the rest of
the buffer, parsed on its own. `windowParsedLen` finds it on the graph of the whole buffer, by a
sweep over the nodes behind the anchor. `windowParsedLen_eq` : both lengths are the same.
-/

set_option linter.unusedSectionVars false

namespace Oxpinyin

open List Sweep Cuts SegmentGraph Lightest

/-! ## Windows -/

namespace SegmentGraph

/-- A segment that holds a position strictly inside. -/
def ExactSegment.encloses (segment : ExactSegment) (anchor : Nat) : Bool :=
  segment.start < anchor && anchor < segment.stop

/-- A segment counted from an anchor. -/
def ExactSegment.rebase (anchor : Nat) (segment : ExactSegment) : ExactSegment :=
  ⟨segment.start - anchor, segment.stop - anchor, segment.key, segment.tone⟩

end SegmentGraph

/-- The graph of the buffer behind an anchor. -/
def buildUncachedGraphAt (input : Bytes) (exact_ : List ExactSegment) (options : OptionBits) (anchor : Nat) :
    Except GraphError SegmentGraph :=
  let remaining := input.drop anchor
  if exact_.isEmpty then buildWithOptions remaining options
  else if exact_.any (·.encloses anchor) then buildExact remaining []
  else buildExact remaining ((exact_.filter fun segment => anchor ≤ segment.start).map (·.rebase anchor))

/-- An edge of the sweep. -/
def sweepEdge (anchor : Nat) (state : List Bool × Nat) (edge : Edge) : List Bool × Nat :=
  (state.1.set (edge.to_ - anchor) true, max state.2 edge.to_)

/-- The sweep at one node. -/
def sweepNode (graph : SegmentGraph) (options : OptionBits) (anchor : Nat) (state : List Bool × Nat) (node : Nat) :
    List Bool × Nat :=
  if state.1.getD (node - anchor) false then
    ((graph.outgoing node).filter (admitted options.hasIncomplete)).foldl (sweepEdge anchor) state
  else state

/-- The sweep before its first node. A segment behind the anchor is reached from it. -/
def sweepStart (input : Bytes) (exact_ : List ExactSegment) (anchor : Nat) : List Bool × Nat :=
  let reached := (List.replicate ((input.drop anchor).length + 1) false).set 0 true
  match exact_.find? fun segment => anchor ≤ segment.start with
  | some first => (reached.set (first.stop - anchor) true, first.stop)
  | none => (reached, anchor)

/-- The length that keys parse behind an anchor, on the graph of the whole buffer. -/
def windowParsedLen (input : Bytes) (exact_ : List ExactSegment) (options : OptionBits) (graph : SegmentGraph)
    (anchor : Nat) : Nat :=
  let remaining := input.drop anchor
  if exact_.any (·.encloses anchor) then apostropheExtended remaining 0
  else
    let swept := (List.range' anchor (input.length - anchor)).foldl (sweepNode graph options anchor)
      (sweepStart input exact_ anchor)
    apostropheExtended remaining (swept.2 - anchor)

/-! ## The sweep -/

section Sweeping

variable {input : Bytes} {exact_ : List ExactSegment} {options : OptionBits} {graph : SegmentGraph} {anchor : Nat}

/-- An admitted key behind the anchor, counted from it. -/
def KeyHop (graph : SegmentGraph) (options : OptionBits) (anchor p q : Nat) : Prop :=
  ∃ edge ∈ graph.outgoing (anchor + p), admitted options.hasIncomplete edge = true ∧ edge.to_ = anchor + q

/-- The first segment behind the anchor, or an admitted key. -/
def WindowHop (graph : SegmentGraph) (exact_ : List ExactSegment) (options : OptionBits) (anchor p q : Nat) : Prop :=
  (p = 0 ∧ ∃ first, exact_.find? (fun segment => anchor ≤ segment.start) = some first ∧ first.stop = anchor + q) ∨
    KeyHop graph options anchor p q

/-- The positions of a window : its keys and its first segment run forward and end in the buffer. -/
structure Windowed (input : Bytes) (exact_ : List ExactSegment) (graph : SegmentGraph) (anchor : Nat) : Prop where
  anchored : anchor ≤ input.length
  keys : ∀ p, p ≤ input.length → ∀ edge ∈ graph.outgoing p, p < edge.to_ ∧ edge.to_ ≤ input.length
  first : ∀ first, exact_.find? (fun segment => anchor ≤ segment.start) = some first →
    anchor < first.stop ∧ first.stop ≤ input.length

/-- The sweep before node `anchor + k`. -/
structure Swept (input : Bytes) (exact_ : List ExactSegment) (options : OptionBits) (graph : SegmentGraph)
    (anchor k : Nat) (state : List Bool × Nat) : Prop where
  length : state.1.length = input.length - anchor + 1
  marks : ∀ q, state.1.getD q false = true ↔ q = 0 ∨
    (∃ first, exact_.find? (fun segment => anchor ≤ segment.start) = some first ∧ first.stop = anchor + q) ∨
    ∃ p, p < k ∧ Reach (WindowHop graph exact_ options anchor) p ∧ KeyHop graph options anchor p q
  last : ∃ q, state.2 = anchor + q ∧ Reach (WindowHop graph exact_ options anchor) q
  furthest : ∀ q, state.1.getD q false = true → anchor + q ≤ state.2

theorem reach_window_le (h : Windowed input exact_ graph anchor) {q : Nat}
    (hq : Reach (WindowHop graph exact_ options anchor) q) : anchor + q ≤ input.length := by
  induction hq with
  | zero => exact h.anchored
  | @step p q _ hhop ih =>
    rcases hhop with ⟨_, first, hfirst, hstop⟩ | ⟨edge, hedge, _, hto⟩
    · rw [← hstop]
      exact (h.first first hfirst).2
    · rw [← hto]
      exact (h.keys _ ih edge hedge).2

/-- Up to the node the sweep has come to, the marks are what is reached. -/
theorem Swept.mark_iff (h : Windowed input exact_ graph anchor) {k : Nat} {state : List Bool × Nat}
    (hswept : Swept input exact_ options graph anchor k state) {q : Nat} (hq : q ≤ k) :
    state.1.getD q false = true ↔ Reach (WindowHop graph exact_ options anchor) q := by
  rw [hswept.marks]
  constructor
  · rintro (rfl | ⟨first, hfirst⟩ | ⟨p, _, hp, hhop⟩)
    · exact .zero
    · exact .step .zero (Or.inl ⟨rfl, first, hfirst⟩)
    · exact .step hp (Or.inr hhop)
  · intro hreach
    cases hreach with
    | zero => exact Or.inl rfl
    | @step p q hp hhop =>
      rcases hhop with ⟨_, hfirst⟩ | hkey
      · exact Or.inr (Or.inl hfirst)
      · obtain ⟨edge, hedge, _, hto⟩ := hkey
        have hlt := (h.keys _ (reach_window_le h hp) edge hedge).1
        exact Or.inr (Or.inr ⟨p, by omega, hp, edge, hedge, ‹_›, hto⟩)

/-- What the edges of a node do to the sweep. -/
structure EdgesSwept (anchor size : Nat) (edges : List Edge) (state state' : List Bool × Nat) : Prop where
  length : state'.1.length = size + 1
  marks : ∀ q, state'.1.getD q false = true ↔ state.1.getD q false = true ∨ ∃ edge ∈ edges, edge.to_ = anchor + q
  grows : state.2 ≤ state'.2
  covers : ∀ edge ∈ edges, edge.to_ ≤ state'.2
  last : state'.2 = state.2 ∨ ∃ edge ∈ edges, state'.2 = edge.to_

theorem edgesSwept : ∀ (edges : List Edge) {state : List Bool × Nat} {size : Nat}, state.1.length = size + 1 →
    (∀ edge ∈ edges, anchor ≤ edge.to_ ∧ edge.to_ ≤ anchor + size) →
    EdgesSwept anchor size edges state (edges.foldl (sweepEdge anchor) state)
  | [], state, size, hlength, _ => ⟨hlength, by simp, Nat.le_refl _, by simp, Or.inl rfl⟩
  | edge :: rest, state, size, hlength, hin => by
    obtain ⟨hlow, hhigh⟩ := hin edge mem_cons_self
    have hnext := @edgesSwept rest (sweepEdge anchor state edge) size
      (by rw [sweepEdge, length_set, hlength]) fun e he => hin e (mem_cons_of_mem _ he)
    have hgrows : max state.2 edge.to_ ≤ (rest.foldl (sweepEdge anchor) (sweepEdge anchor state edge)).2 :=
      hnext.grows
    refine ⟨hnext.length, fun q => ?_, ?_, fun other hother => ?_, ?_⟩
    · have hplace : edge.to_ - anchor = q ↔ edge.to_ = anchor + q := by omega
      rw [foldl_cons, hnext.marks, sweepEdge, getD_set_true q (by omega), Bool.or_eq_true, beq_iff_eq, hplace,
        or_assoc]
      simp
    · rw [foldl_cons]
      omega
    · rcases mem_cons.mp hother with rfl | hother
      · rw [foldl_cons]
        omega
      · exact hnext.covers other hother
    · rw [foldl_cons]
      rcases hnext.last with hlast | ⟨other, hother, hlast⟩
      · rw [hlast, sweepEdge]
        rcases Nat.le_total state.2 edge.to_ with hle | hle
        · exact Or.inr ⟨edge, mem_cons_self, Nat.max_eq_right hle⟩
        · exact Or.inl (Nat.max_eq_left hle)
      · exact Or.inr ⟨other, mem_cons_of_mem _ hother, hlast⟩

variable (h : Windowed input exact_ graph anchor)
include h

/-- Before any node. -/
theorem Swept.start : Swept input exact_ options graph anchor 0 (sweepStart input exact_ anchor) := by
  have hfresh : ∀ q, ((List.replicate ((input.drop anchor).length + 1) false).set 0 true).getD q false =
    true ↔ q = 0 := by
    intro q
    rw [getD_set_true q (by simp), getD_eq_getElem?_getD, getElem?_replicate, Bool.or_eq_true, beq_iff_eq]
    split_ifs <;> simp [@eq_comm _ 0]
  have hanchored := h.anchored
  unfold sweepStart
  dsimp only
  cases hfind : exact_.find? fun segment => decide (anchor ≤ segment.start) with
  | none =>
    refine ⟨by simp, fun q => ?_, ⟨0, rfl, .zero⟩, fun q hq => ?_⟩
    · rw [hfresh, hfind]
      simp
    · obtain rfl := (hfresh q).mp hq
      exact Nat.le_refl _
  | some first =>
    obtain ⟨hlow, hhigh⟩ := h.first first hfind
    have hmarks : ∀ q, (((List.replicate ((input.drop anchor).length + 1) false).set 0 true).set
        (first.stop - anchor) true).getD q false = true ↔ q = 0 ∨ first.stop = anchor + q := by
      intro q
      have hplace : first.stop - anchor = q ↔ first.stop = anchor + q := by omega
      rw [getD_set_true q (by simp; omega), Bool.or_eq_true, hfresh, beq_iff_eq, hplace]
    refine ⟨by simp, fun q => ?_, ⟨first.stop - anchor, ?_, ?_⟩, fun q hq => ?_⟩
    · rw [hmarks, hfind]
      simp
    · exact (Nat.add_sub_cancel' (Nat.le_of_lt hlow)).symm
    · exact .step .zero (Or.inl ⟨rfl, first, hfind, by omega⟩)
    · rcases (hmarks q).mp hq with rfl | hq
      · exact Nat.le_of_lt hlow
      · exact Nat.le_of_eq hq.symm

/-- One node swept. -/
theorem Swept.step {k : Nat} {state : List Bool × Nat} (hk : anchor + k ≤ input.length)
    (hswept : Swept input exact_ options graph anchor k state) :
    Swept input exact_ options graph anchor (k + 1) (sweepNode graph options anchor state (anchor + k)) := by
  have hmark := hswept.mark_iff h (Nat.le_refl k)
  unfold sweepNode
  rw [Nat.add_sub_cancel_left]
  split_ifs with hreached
  · have hreach := hmark.mp hreached
    have hedges := @edgesSwept anchor ((graph.outgoing (anchor + k)).filter (admitted options.hasIncomplete)) state
      (input.length - anchor) hswept.length fun edge hedge => by
        have := h.keys _ hk edge (mem_filter.mp hedge).1
        omega
    have hkey : ∀ q, (∃ edge ∈ (graph.outgoing (anchor + k)).filter (admitted options.hasIncomplete),
        edge.to_ = anchor + q) ↔ KeyHop graph options anchor k q := by
      intro q
      simp only [mem_filter, and_assoc, KeyHop]
    refine ⟨hedges.length, fun q => ?_, ?_, fun q hq => ?_⟩
    · rw [hedges.marks, hkey, hswept.marks, or_assoc, or_assoc]
      refine or_congr_right (or_congr_right ⟨?_, ?_⟩)
      · rintro (⟨p, hp, hreach, hhop⟩ | hhop)
        · exact ⟨p, by omega, hreach, hhop⟩
        · exact ⟨k, Nat.lt_succ_self k, hreach, hhop⟩
      · rintro ⟨p, hp, hreach, hhop⟩
        rcases Nat.lt_succ_iff_lt_or_eq.mp hp with hlt | rfl
        · exact Or.inl ⟨p, hlt, hreach, hhop⟩
        · exact Or.inr hhop
    · rcases hedges.last with hlast | ⟨edge, hedge, hlast⟩
      · rw [hlast]
        exact hswept.last
      · obtain ⟨hout, hadmitted⟩ := mem_filter.mp hedge
        have hlt := (h.keys _ hk edge hout).1
        exact ⟨edge.to_ - anchor, by omega, .step hreach (Or.inr ⟨edge, hout, hadmitted, by omega⟩)⟩
    · rcases (hedges.marks q).mp hq with hold | ⟨edge, hedge, hto⟩
      · exact Nat.le_trans (hswept.furthest q hold) hedges.grows
      · rw [← hto]
        exact hedges.covers edge hedge
  · refine ⟨hswept.length, fun q => ?_, hswept.last, hswept.furthest⟩
    rw [hswept.marks]
    refine or_congr_right (or_congr_right ⟨?_, ?_⟩)
    · rintro ⟨p, hp, hrest⟩
      exact ⟨p, by omega, hrest⟩
    · rintro ⟨p, hp, hreach, hhop⟩
      rcases Nat.lt_succ_iff_lt_or_eq.mp hp with hlt | rfl
      · exact ⟨p, hlt, hreach, hhop⟩
      · exact absurd (hmark.mpr hreach) hreached

theorem swept_run : ∀ k, anchor + k ≤ input.length →
    Swept input exact_ options graph anchor k
      ((List.range' anchor k).foldl (sweepNode graph options anchor) (sweepStart input exact_ anchor))
  | 0, _ => .start h
  | k + 1, hk => by
    rw [range'_concat, foldl_append, foldl_cons, foldl_nil, Nat.one_mul]
    exact (swept_run k (by omega)).step h (by omega)

/-- The sweep ends at the furthest position it can reach. -/
theorem sweep_spec (options : OptionBits) :
    ∃ q, ((List.range' anchor (input.length - anchor)).foldl (sweepNode graph options anchor)
        (sweepStart input exact_ anchor)).2 = anchor + q ∧
      Reach (WindowHop graph exact_ options anchor) q ∧
      ∀ n, Reach (WindowHop graph exact_ options anchor) n → n ≤ q := by
  have hanchored := h.anchored
  have hdone := @swept_run input exact_ options graph anchor h (input.length - anchor) (by omega)
  obtain ⟨q, hq, hreach⟩ := hdone.last
  refine ⟨q, hq, hreach, fun n hn => ?_⟩
  have hle := reach_window_le h hn
  have hfar := hdone.furthest n ((hdone.mark_iff h (by omega)).mpr hn)
  omega

end Sweeping

/-! ## Keys of a suffix -/

section Suffix

variable {input : Bytes} {options : OptionBits} {graph suffix : SegmentGraph} {anchor p q : Nat}

theorem runEnd_drop (f : UInt8 → Bool) (input : Bytes) (anchor p : Nat) :
    anchor + runEnd f (input.drop anchor) p = runEnd f input (anchor + p) := by
  rw [runEnd, runEnd, drop_drop, Nat.add_assoc]

theorem parsedSpan_drop (input : Bytes) (options : OptionBits) (anchor start length : Nat) :
    parsedSpan (input.drop anchor) options start length = parsedSpan input options (anchor + start) length := by
  unfold parsedSpan
  rw [slice, slice, drop_drop, length_drop, Nat.sub_sub]

/-- Where an admitted key goes from a position. -/
theorem exists_key_iff (hlong : input.length ≤ maxGraphPosition) (incomplete : Bool) :
    (∃ edge ∈ edgesAt input options p, admitted incomplete edge = true ∧ edge.to_ = q) ↔
      runEnd (· == apostrophe) input p < input.length ∧ ∃ l, 0 < l ∧ l ≤ maxSyllableLen + 1 ∧
        runEnd (· == apostrophe) input p + l = q ∧ ∃ key tone distance,
          parsedSpan input options (runEnd (· == apostrophe) input p) l = some (key, tone, distance) ∧
            (incomplete = true ∨ key.completeness ≠ .Partial) := by
  have hadmitted : ∀ edge : Edge, admitted incomplete edge = true ↔ incomplete = true ∨ edge.kind ≠ .incomplete := by
    intro edge
    rw [admitted, Bool.or_eq_true, bne_iff_ne]
  constructor
  · rintro ⟨edge, hedge, hkind, rfl⟩
    obtain ⟨hin, l, hpos, hmax, hspan⟩ := mem_edgesAt.mp hedge
    obtain ⟨key, tone, distance, hparsed, _, hto, _, _, _, _, hcomplete⟩ := spanEdge_eq_some hspan
    refine ⟨hin, l, hpos, hmax, hto.symm, key, tone, distance, hparsed, ?_⟩
    rwa [hadmitted, ne_eq, hcomplete] at hkind
  · rintro ⟨hin, l, hpos, hmax, hto, key, tone, distance, hparsed, hkind⟩
    have hfit := (parsedSpan_fits hpos hparsed).1
    have hrun := @le_runEnd (· == apostrophe) input p
    rw [maxGraphPosition] at hlong
    obtain ⟨edge, hspan⟩ : ∃ edge,
        spanEdge input options p (runEnd (· == apostrophe) input p) l = some edge := by
      rw [spanEdge, hparsed, Option.bind_some]
      dsimp only
      rw [if_pos ⟨by omega, by omega, by omega⟩]
      exact ⟨_, rfl⟩
    obtain ⟨_, _, _, hparsed', _, hto', _, _, _, _, hcomplete⟩ := spanEdge_eq_some hspan
    obtain ⟨rfl, _⟩ := Prod.mk.inj (Option.some.inj (hparsed.symm.trans hparsed'))
    refine ⟨edge, mem_edgesAt.mpr ⟨hin, l, hpos, hmax, hspan⟩, ?_, hto'.trans hto⟩
    rwa [hadmitted, ne_eq, hcomplete]

/-- The keys of a suffix are those of the buffer behind the anchor. -/
theorem exists_key_drop (hlong : input.length ≤ maxGraphPosition) (incomplete : Bool) :
    (∃ edge ∈ edgesAt (input.drop anchor) options p, admitted incomplete edge = true ∧ edge.to_ = q) ↔
      ∃ edge ∈ edgesAt input options (anchor + p), admitted incomplete edge = true ∧ edge.to_ = anchor + q := by
  rw [exists_key_iff (by rw [length_drop]; omega), exists_key_iff hlong, ← runEnd_drop]
  simp only [parsedSpan_drop, length_drop, Nat.lt_sub_iff_add_lt', Nat.add_assoc, Nat.add_left_cancel_iff]

variable {allowed : Edge → Prop}

/-- The end of a path. -/
theorem pathEnd_of_route {last : Nat} {es : List Edge}
    (h : Route Edge.from_ Edge.to_ allowed 0 last es) : pathEnd es = last := by
  induction es using List.reverseRecOn with
  | nil =>
    cases h
    rfl
  | append_singleton es edge _ =>
    obtain ⟨_, _, hto⟩ := h.of_concat
    rw [pathEnd, getLast?_concat]
    exact hto

/-- What a path reaches is what its edges reach one by one. -/
theorem exists_route_iff :
    (∃ es, Route Edge.from_ Edge.to_ allowed 0 q es) ↔
      Reach (fun p q => ∃ edge, allowed edge ∧ edge.from_ = p ∧ edge.to_ = q) q := by
  constructor
  · rintro ⟨es, h⟩
    induction es using List.reverseRecOn generalizing q with
    | nil =>
      cases h
      exact .zero
    | append_singleton es edge ih =>
      obtain ⟨hroute, hallowed, hto⟩ := h.of_concat
      exact .step (ih hroute) ⟨edge, hallowed, rfl, hto⟩
  · intro h
    induction h with
    | zero => exact ⟨[], .nil 0⟩
    | step _ hedge ih =>
      obtain ⟨es, hroute⟩ := ih
      obtain ⟨edge, hallowed, hfrom, rfl⟩ := hedge
      exact ⟨es ++ [edge], hroute.concat hallowed hfrom⟩

/-- The selected path of a graph ends at the furthest position of an admitted path. -/
theorem pathEnd_fewestKeys (h : graph.Searchable) (incomplete : Bool) :
    (∃ es, graph.Path incomplete 0 (pathEnd (graph.fewestKeys incomplete)) es) ∧
      ∀ n es, graph.Path incomplete 0 n es → n ≤ pathEnd (graph.fewestKeys incomplete) := by
  obtain ⟨last, hbest⟩ := h.best incomplete
  rw [pathEnd_of_route hbest.admitted]
  exact ⟨⟨_, hbest.admitted⟩, hbest.furthest⟩

theorem keyHop_iff (h : buildWithOptions input options = .ok graph) :
    KeyHop graph options anchor p q ↔
      ∃ edge ∈ edgesAt input options (anchor + p), admitted options.hasIncomplete edge = true ∧
        edge.to_ = anchor + q := by
  unfold KeyHop
  by_cases hnode : anchor + p ≤ input.length
  · rw [outgoing_eq_edgesAt h hnode]
  · rw [outgoing_of_lt h (Nat.lt_of_not_le hnode)]
    constructor
    · rintro ⟨_, hedge, _⟩
      cases hedge
    · rintro ⟨edge, hedge, _⟩
      have := edgesAt_forward hedge
      omega

/-- What a parsed suffix reaches is what the window reaches. -/
theorem path_iff_reach (hbuild : buildWithOptions input options = .ok graph)
    (hsuffix : buildWithOptions (input.drop anchor) options = .ok suffix) :
    (∃ es, suffix.Path options.hasIncomplete 0 q es) ↔ Reach (WindowHop graph [] options anchor) q := by
  have hlong := (exists_buildWithOptions_iff input options).mp ⟨graph, hbuild⟩
  have hhop : (fun p q => ∃ edge, suffix.Allows options.hasIncomplete edge ∧ edge.from_ = p ∧ edge.to_ = q) =
      WindowHop graph [] options anchor := by
    ext p q
    rw [WindowHop, keyHop_iff hbuild, ← exists_key_drop hlong]
    constructor
    · rintro ⟨edge, ⟨hedge, hadmitted⟩, rfl, hto⟩
      exact Or.inr ⟨edge, (mem_edges_iff hsuffix).mp hedge, hadmitted, hto⟩
    · rintro (⟨_, _, hfirst, _⟩ | ⟨edge, hedge, hadmitted, hto⟩)
      · cases hfirst
      · have hfrom := (edgesAt_forward hedge).1
        exact ⟨edge, ⟨(mem_edges_iff hsuffix).mpr (by rwa [hfrom]), hadmitted⟩, hfrom, hto⟩
  rw [exists_route_iff, hhop]

/-- The window of an input behind an anchor. -/
theorem windowed_input (h : buildWithOptions input options = .ok graph) (hanchor : anchor ≤ input.length) :
    Windowed input [] graph anchor := by
  refine ⟨hanchor, fun p hp edge hedge => ?_, fun first hfirst => by cases hfirst⟩
  rw [outgoing_eq_edgesAt h hp] at hedge
  exact (edgesAt_forward hedge).2

/-- The parsed length of a window of an input is that of its suffix. -/
theorem windowParsedLen_input (h : buildWithOptions input options = .ok graph) (hanchor : anchor ≤ input.length) :
    ∃ suffix, buildWithOptions (input.drop anchor) options = .ok suffix ∧
      windowParsedLen input [] options graph anchor =
        apostropheExtended (input.drop anchor) (pathEnd (suffix.fewestKeys options.hasIncomplete)) := by
  have hlong := (exists_buildWithOptions_iff input options).mp ⟨graph, h⟩
  obtain ⟨suffix, hsuffix⟩ := (exists_buildWithOptions_iff (input.drop anchor) options).mpr
    (by rw [length_drop]; omega)
  obtain ⟨hpath, hmost⟩ := pathEnd_fewestKeys (searchable_buildWithOptions hsuffix) options.hasIncomplete
  obtain ⟨q, hswept, hreach, hfar⟩ := sweep_spec (windowed_input h hanchor) options
  have hend : q = pathEnd (suffix.fewestKeys options.hasIncomplete) := by
    refine Nat.le_antisymm ?_ ?_
    · obtain ⟨es, hes⟩ := (path_iff_reach h hsuffix).mpr hreach
      exact hmost q es hes
    · exact hfar _ ((path_iff_reach h hsuffix).mp hpath)
  refine ⟨suffix, hsuffix, ?_⟩
  rw [← hend]
  unfold windowParsedLen
  rw [any_nil, if_neg Bool.false_ne_true]
  dsimp only
  rw [hswept, Nat.add_sub_cancel_left]

end Suffix

/-! ## Segments of a suffix -/

/-- Segments in order behind a position, with only apostrophes between them. -/
def Follows (input : Bytes) : Nat → List ExactSegment → Prop
  | _, [] => True
  | p, segment :: rest => segment.start < segment.stop ∧ p ≤ segment.start ∧ segment.stop ≤ input.length ∧
      (slice input p (segment.start - p)).all (· == apostrophe) = true ∧ Follows input segment.stop rest

/-- The edges of segments behind a position. -/
def chainEdges : Nat → List ExactSegment → List Edge
  | _, [] => []
  | p, segment :: rest =>
    ⟨p, segment.stop, segment.start, segment.key, .exact, segment.tone, 0⟩ :: chainEdges segment.stop rest

/-- The end of segments behind a position. -/
def chainEnd : Nat → List ExactSegment → Nat
  | p, [] => p
  | _, segment :: rest => chainEnd segment.stop rest

section Segments

variable {input : Bytes} {options : OptionBits} {graph suffix : SegmentGraph} {anchor p q : Nat}
  {segments : List ExactSegment}

theorem le_chainEnd : ∀ {segments : List ExactSegment} {p : Nat}, Follows input p segments → p ≤ chainEnd p segments
  | [], p, _ => Nat.le_refl p
  | segment :: rest, p, h => by
    obtain ⟨hlt, hle, _, _, hrest⟩ := h
    have := le_chainEnd hrest
    rw [chainEnd]
    omega

/-- When a segment is accepted. -/
theorem exactEdge_eq_ok (hshort : input.length < 2 ^ 32) {edges : List Edge} (hstart : edges = [] → p = 0)
    {segment : ExactSegment} {next : List Edge × Nat} :
    exactEdge input (edges, p) segment = .ok next ↔
      Follows input p [segment] ∧ next = (edges ++ chainEdges p [segment], segment.stop) := by
  have hfrom : (if edges.isEmpty then 0 else p) = p := by
    split_ifs with hempty
    · exact (hstart (List.isEmpty_iff.mp hempty)).symm
    · rfl
  unfold exactEdge
  simp only [hfrom, Follows, chainEdges, and_true]
  constructor
  · intro h
    split_ifs at h with hbad hsmall
    rw [not_or, not_or, not_or, not_not] at hbad
    exact ⟨⟨by omega, by omega, by omega, hbad.2.2.2⟩, (Except.ok.inj h).symm⟩
  · rintro ⟨⟨hlt, hle, hin, hall⟩, rfl⟩
    rw [if_neg, if_pos ⟨by omega, by omega, by omega⟩]
    rw [not_or, not_or, not_or, not_not]
    exact ⟨by omega, by omega, by omega, hall⟩

/-- Segments are accepted when they follow each other. -/
theorem foldlM_exactEdge (hshort : input.length < 2 ^ 32) : ∀ (segments : List ExactSegment)
    {edges : List Edge} {p : Nat},
    (edges = [] → p = 0) → ∀ final, segments.foldlM (exactEdge input) (edges, p) = .ok final ↔
      Follows input p segments ∧ final = (edges ++ chainEdges p segments, chainEnd p segments)
  | [], edges, p, _, final => by
    rw [foldlM_nil, chainEdges, chainEnd, append_nil]
    constructor
    · intro h
      exact ⟨trivial, (Except.ok.inj h).symm⟩
    · rintro ⟨_, rfl⟩
      rfl
  | segment :: rest, edges, p, hstart, final => by
    have hsome : edges ++ chainEdges p [segment] = [] → segment.stop = 0 := fun hnil => by simp [chainEdges] at hnil
    have hnext := foldlM_exactEdge hshort rest hsome final
    rw [append_assoc] at hnext
    have hsplit : Follows input p (segment :: rest) ↔ Follows input p [segment] ∧
      Follows input segment.stop rest := by
      simp only [Follows, and_true, and_assoc]
    rw [foldlM_cons, hsplit]
    constructor
    · intro h
      obtain ⟨next, hstep, hfold⟩ := Run.bind_eq_ok h
      obtain ⟨hfollows, rfl⟩ := (exactEdge_eq_ok hshort hstart).mp hstep
      obtain ⟨hrest, rfl⟩ := hnext.mp hfold
      exact ⟨⟨hfollows, hrest⟩, rfl⟩
    · rintro ⟨⟨hfollows, hrest⟩, rfl⟩
      rw [(exactEdge_eq_ok hshort hstart).mpr ⟨hfollows, rfl⟩]
      exact hnext.mpr ⟨hrest, rfl⟩

/-- What segments make of a buffer. -/
theorem follows_of_buildExact (h : buildExact input segments = .ok graph) :
    Follows input 0 segments ∧ graph.edges = chainEdges 0 segments ∧ input.length ≤ maxGraphPosition := by
  unfold buildExact at h
  split_ifs at h with hlong
  obtain ⟨final, hfold, h⟩ := Run.bind_eq_ok h
  rw [maxGraphPosition] at hlong
  obtain ⟨hfollows, rfl⟩ := (foldlM_exactEdge (by omega) segments (fun _ => rfl) final).mp hfold
  obtain rfl := Except.ok.inj h
  exact ⟨hfollows, nil_append _, by rw [maxGraphPosition]; omega⟩

theorem exists_buildExact (hlong : input.length ≤ maxGraphPosition) (h : Follows input 0 segments) :
    ∃ graph, buildExact input segments = .ok graph := by
  have hshort : input.length < 2 ^ 32 := by
    rw [maxGraphPosition] at hlong
    omega
  have hfold := (@foldlM_exactEdge input hshort segments [] 0 (fun _ => rfl) _).mpr ⟨h, rfl⟩
  unfold buildExact
  rw [if_neg (Nat.not_lt.mpr hlong), hfold]
  exact ⟨_, rfl⟩

theorem route_chainEdges : ∀ {segments : List ExactSegment} {p : Nat}, Follows input p segments →
    Route Edge.from_ Edge.to_ (fun edge => edge ∈ chainEdges p segments ∧ edge.kind = .exact ∧
      edge.to_ ≤ input.length)
      p (chainEnd p segments) (chainEdges p segments)
  | [], p, _ => .nil p
  | segment :: rest, p, h => by
    obtain ⟨_, _, hin, _, hrest⟩ := h
    refine .cons ⟨mem_cons_self, rfl, hin⟩ rfl ?_
    exact (route_chainEdges hrest).imp fun edge hedge => ⟨mem_cons_of_mem _ hedge.1, hedge.2⟩

theorem Follows.le_start : ∀ {segments : List ExactSegment} {p : Nat}, Follows input p segments →
    ∀ segment ∈ segments, p ≤ segment.start ∧ segment.start < segment.stop ∧ segment.stop ≤ input.length
  | [], p, _ => by simp
  | segment :: rest, p, h => by
    obtain ⟨hlt, hle, hin, _, hrest⟩ := h
    intro other hother
    rcases mem_cons.mp hother with rfl | hother
    · exact ⟨hle, hlt, hin⟩
    · obtain ⟨hother, hforward⟩ := hrest.le_start other hother
      exact ⟨by omega, hforward⟩

theorem Follows.append : ∀ {front back : List ExactSegment} {p : Nat}, Follows input p (front ++ back) →
    Follows input (chainEnd p front) back ∧ chainEnd p (front ++ back) = chainEnd (chainEnd p front) back ∧
      chainEdges p (front ++ back) = chainEdges p front ++ chainEdges (chainEnd p front) back
  | [], back, p, h => ⟨h, rfl, rfl⟩
  | segment :: front, back, p, h => by
    obtain ⟨_, _, _, _, hrest⟩ := h
    obtain ⟨hback, hend, hedges⟩ := hrest.append
    exact ⟨hback, hend, congrArg (List.cons _) hedges⟩

/-- The segments before an anchor that none encloses, and those behind it. -/
theorem Follows.exists_split : ∀ {segments : List ExactSegment} {p : Nat}, Follows input p segments →
    segments.any (·.encloses anchor) = false →
    ∃ front, segments = front ++ segments.filter (fun segment => anchor ≤ segment.start) ∧
      (p ≤ anchor → chainEnd p front ≤ anchor)
  | [], p, _, _ => ⟨[], rfl, id⟩
  | segment :: rest, p, h, hout => by
    rw [any_cons, Bool.or_eq_false_iff] at hout
    by_cases hstart : anchor ≤ segment.start
    · have hall : (segment :: rest).filter (fun segment => anchor ≤ segment.start) = segment :: rest := by
        obtain ⟨hlt, _, _, _, hrest⟩ := h
        rw [filter_eq_self]
        intro other hother
        rw [decide_eq_true_iff]
        rcases mem_cons.mp hother with rfl | hother
        · exact hstart
        · have := (hrest.le_start other hother).1
          omega
      exact ⟨[], by rw [hall, nil_append], id⟩
    · obtain ⟨_, _, _, _, hrest⟩ := h
      obtain ⟨front, hfront, hbefore⟩ := hrest.exists_split hout.2
      refine ⟨segment :: front, ?_, fun _ => hbefore ?_⟩
      · rw [filter_cons_of_neg (by simpa using hstart), cons_append, ← hfront]
      · have hinside := hout.1
        rw [ExactSegment.encloses, Bool.and_eq_false_iff, decide_eq_false_iff_not, decide_eq_false_iff_not] at hinside
        omega

/-- Segments behind an anchor follow each other in the suffix too. -/
theorem Follows.rebase : ∀ {segments : List ExactSegment} {p : Nat}, Follows input p segments →
    (∀ segment ∈ segments, anchor ≤ segment.start) →
    Follows (input.drop anchor) (p - anchor) (segments.map (·.rebase anchor))
  | [], p, _, _ => trivial
  | segment :: rest, p, h, hbehind => by
    obtain ⟨hlt, hle, hin, hall, hrest⟩ := h
    have hstart := hbehind segment mem_cons_self
    refine ⟨?_, ?_, ?_, ?_, hrest.rebase fun other hother => hbehind other (mem_cons_of_mem _ hother)⟩
    · exact Nat.sub_lt_sub_right hstart hlt
    · exact Nat.sub_le_sub_right hle anchor
    · rw [length_drop]
      exact Nat.sub_le_sub_right hin anchor
    · -- the gap in the suffix is the end of the gap in the buffer
      have hgap : segment.start - p = max p anchor - p + (segment.start - max p anchor) := by omega
      have hplace : p + (max p anchor - p) = anchor + (p - anchor) := by omega
      have hrest : segment.start - max p anchor = segment.start - anchor - (p - anchor) := by omega
      rw [hgap, slice_add, all_append, Bool.and_eq_true, hplace, hrest] at hall
      rw [slice, drop_drop]
      exact hall.2

theorem chainEnd_rebase : ∀ (segments : List ExactSegment) (p : Nat),
    chainEnd (p - anchor) (segments.map (·.rebase anchor)) = chainEnd p segments - anchor
  | [], _ => rfl
  | segment :: rest, _ => chainEnd_rebase rest segment.stop

section

variable (h : buildExact input segments = .ok graph)
include h

/-- The window of a buffer with segments behind an anchor. -/
theorem windowed_exact (hanchor : anchor ≤ input.length) : Windowed input segments graph anchor := by
  obtain ⟨last, hchain, _, hlen, _⟩ := parts_buildExact h
  have hinside := hchain.inside
  refine ⟨hanchor, fun p hp edge hedge => ?_, fun first hfirst => ?_⟩
  · have hnode : p < graph.nodeCount := by
      rw [nodeCount, hlen]
      exact Nat.lt_succ_of_le hp
    obtain ⟨hmem, rfl⟩ := (mem_outgoing_of_partitioned (partitioned_buildExact h) hnode edge).mp hedge
    obtain ⟨hlt, hle⟩ := hchain.forward edge hmem
    exact ⟨hlt, Nat.le_trans hle hinside⟩
  · have hbehind : anchor ≤ first.start := by simpa using find?_some hfirst
    obtain ⟨_, hlt, hin⟩ := (follows_of_buildExact h).1.le_start first (mem_of_find?_eq_some hfirst)
    exact ⟨Nat.lt_of_le_of_lt hbehind hlt, hin⟩

theorem consumed_exact :
    graph.consumed = chainEnd 0 segments ∧ ∀ edge ∈ graph.edges, edge.to_ ≤ chainEnd 0 segments := by
  obtain ⟨hfollows, hedges, _⟩ := follows_of_buildExact h
  obtain ⟨last, hchain, hroute, _, _, _, hconsumed⟩ := parts_buildExact h
  have hlast : last = chainEnd 0 segments := by
    rw [← pathEnd_of_route hroute, hedges, pathEnd_of_route (route_chainEdges hfollows)]
  rw [← hlast]
  exact ⟨hconsumed, fun edge hedge => (hchain.forward edge hedge).2⟩

/-- The selected path of segments goes through them all. -/
theorem pathEnd_exact (incomplete : Bool) : pathEnd (graph.fewestKeys incomplete) = chainEnd 0 segments := by
  obtain ⟨hfollows, hedges, _⟩ := follows_of_buildExact h
  obtain ⟨⟨es, hes⟩, hmost⟩ := pathEnd_fewestKeys (searchable_buildExact h) incomplete
  refine Nat.le_antisymm ?_ ?_
  · rw [← (consumed_exact h).1]
    exact (searchable_buildExact h).closed _ es (hes.imp fun edge hedge => hedge.1)
  · refine hmost _ (chainEdges 0 segments) ((route_chainEdges hfollows).imp fun edge hedge => ⟨?_, ?_⟩)
    · rw [hedges]
      exact hedge.1
    · rw [admitted, hedge.2.1]
      exact Bool.or_true _

end

theorem Follows.stop_le : ∀ {segments : List ExactSegment} {p : Nat}, Follows input p segments →
    ∀ segment ∈ segments, segment.stop ≤ chainEnd p segments
  | [], _, _ => by simp
  | segment :: rest, _, h => by
    obtain ⟨_, _, _, _, hrest⟩ := h
    intro other hother
    rcases mem_cons.mp hother with rfl | hother
    · exact le_chainEnd hrest
    · exact hrest.stop_le other hother

/-- Keys of a graph take a window from where they begin to where they end. -/
theorem reach_of_route (h : graph.Partitioned) {a t : Nat} {es : List Edge}
    (hroute : Route Edge.from_ Edge.to_ (fun edge => graph.Allows options.hasIncomplete edge ∧
      edge.from_ < edge.to_ ∧ edge.from_ < graph.nodeCount) a t es) (ha : anchor ≤ a)
    (hreach : Reach (WindowHop graph segments options anchor) (a - anchor)) :
    Reach (WindowHop graph segments options anchor) (t - anchor) := by
  induction hroute with
  | nil => exact hreach
  | @cons n t edge es hedge hfrom _ ih =>
    obtain ⟨⟨hmem, hadmitted⟩, hlt, hnode⟩ := hedge
    subst hfrom
    refine ih (by omega) (.step hreach (Or.inr ⟨edge, ?_, hadmitted, by omega⟩))
    rw [Nat.add_sub_cancel' ha]
    exact (mem_outgoing_of_partitioned h hnode edge).mpr ⟨hmem, rfl⟩

/-- The window of segments goes through all of them. -/
theorem reach_window_end (h : buildExact input segments = .ok graph)
    (hsplit : ∃ front, segments = front ++ segments.filter (fun segment => anchor ≤ segment.start)) :
    Reach (WindowHop graph segments options anchor)
      (chainEnd anchor (segments.filter fun segment => anchor ≤ segment.start) - anchor) := by
  obtain ⟨front, hfront⟩ := hsplit
  obtain ⟨hfollows, hedges, _⟩ := follows_of_buildExact h
  have hfind : segments.find? (fun segment => anchor ≤ segment.start) =
      (segments.filter fun segment => anchor ≤ segment.start).head? := head?_filter.symm
  have hbehind : ∀ segment ∈ segments.filter (fun segment => anchor ≤ segment.start), anchor ≤ segment.start :=
    fun segment hsegment => by simpa using (mem_filter.mp hsegment).2
  generalize segments.filter (fun segment => anchor ≤ segment.start) = back at hfront hfind hbehind ⊢
  cases back with
  | nil =>
    rw [chainEnd, Nat.sub_self]
    exact .zero
  | cons first rest =>
    rw [hfront] at hfollows hedges
    obtain ⟨hback, _, hparts⟩ := hfollows.append
    obtain ⟨hlt, _, _, _, hrest⟩ := hback
    have hstart := hbehind first mem_cons_self
    have hlen := (parts_buildExact h).choose_spec.2.2.1
    rw [chainEnd]
    refine reach_of_route (partitioned_buildExact h) ((route_chainEdges hrest).imp fun edge hedge => ?_) (by omega)
      (.step .zero (Or.inl ⟨rfl, first, hfind, by omega⟩))
    obtain ⟨hmem, hkind, hto⟩ := hedge
    have hin : edge ∈ graph.edges := by
      rw [hedges, hparts]
      exact mem_append_right _ (mem_cons_of_mem _ hmem)
    have hforward := (searchable_buildExact h).forward edge hin
    refine ⟨⟨hin, ?_⟩, hforward, ?_⟩
    · rw [admitted, hkind]
      exact Bool.or_true _
    · rw [nodeCount, hlen]
      omega

theorem mem_edges_of_outgoing {edge : Edge} (h : edge ∈ graph.outgoing p) : edge ∈ graph.edges := by
  rw [outgoing] at h
  unfold sliceEdges at h
  split at h
  · exact mem_of_mem_drop (mem_of_mem_take h)
  · cases h

/-- No key of a window of segments ends behind them. -/
theorem window_le_chainEnd (h : buildExact input segments = .ok graph)
    (hreach : Reach (WindowHop graph segments options anchor) q) : anchor + q ≤ max anchor (chainEnd 0 segments) := by
  cases hreach with
  | zero => exact Nat.le_max_left _ _
  | @step p q hp hhop =>
    refine Nat.le_trans ?_ (Nat.le_max_right _ _)
    rcases hhop with ⟨_, first, hfirst, hstop⟩ | ⟨edge, hedge, _, hto⟩
    · rw [← hstop]
      exact (follows_of_buildExact h).1.stop_le first (mem_of_find?_eq_some hfirst)
    · rw [← hto]
      exact (consumed_exact h).2 edge (mem_edges_of_outgoing hedge)

/-- The parsed length of a window of segments is that of its suffix. -/
theorem windowParsedLen_exact (h : buildExact input segments = .ok graph) (hanchor : anchor ≤ input.length)
    (hout : segments.any (·.encloses anchor) = false) :
    ∃ suffix, buildExact (input.drop anchor)
        ((segments.filter fun segment => anchor ≤ segment.start).map (·.rebase anchor)) = .ok suffix ∧
      windowParsedLen input segments options graph anchor =
        apostropheExtended (input.drop anchor) (pathEnd (suffix.fewestKeys options.hasIncomplete)) := by
  obtain ⟨hfollows, _, hlong⟩ := follows_of_buildExact h
  obtain ⟨front, hfront, hbefore⟩ := hfollows.exists_split hout
  have hfront_le := hbefore (Nat.zero_le _)
  obtain ⟨hback, hend, _⟩ := (hfront ▸ hfollows).append
  have hbehind : ∀ segment ∈ segments.filter (fun segment => anchor ≤ segment.start), anchor ≤ segment.start :=
    fun segment hsegment => by simpa using (mem_filter.mp hsegment).2
  have hrebased := hback.rebase hbehind
  rw [Nat.sub_eq_zero_of_le hfront_le] at hrebased
  obtain ⟨suffix, hsuffix⟩ := exists_buildExact (by rw [length_drop]; omega) hrebased
  have hlast : pathEnd (suffix.fewestKeys options.hasIncomplete) =
      chainEnd anchor (segments.filter fun segment => anchor ≤ segment.start) - anchor := by
    rw [pathEnd_exact hsuffix, ← chainEnd_rebase, Nat.sub_self]
  obtain ⟨q, hswept, hreach, hfar⟩ := sweep_spec (windowed_exact h hanchor) options
  have hq : q = pathEnd (suffix.fewestKeys options.hasIncomplete) := by
    refine Nat.le_antisymm ?_ ?_
    · have hle := window_le_chainEnd h hreach
      rw [hfront, hend] at hle
      rw [hlast]
      cases hfilter : segments.filter fun segment => anchor ≤ segment.start with
      | nil =>
        rw [hfilter, chainEnd] at hle
        rw [chainEnd]
        omega
      | cons first rest =>
        rw [hfilter, chainEnd] at hle
        rw [chainEnd]
        omega
    · rw [hlast]
      exact hfar _ (reach_window_end h ⟨front, hfront⟩)
  refine ⟨suffix, hsuffix, ?_⟩
  rw [← hq]
  unfold windowParsedLen
  rw [hout, if_neg Bool.false_ne_true]
  dsimp only
  rw [hswept, Nat.add_sub_cancel_left]

end Segments

/-! ## The parsed length -/

section Window

variable {input : Bytes} {exact_ : List ExactSegment} {options : OptionBits} {graph : SegmentGraph} {anchor : Nat}

/-- At the start, the graph is that of the whole buffer. -/
theorem buildUncachedGraphAt_zero (input : Bytes) (exact_ : List ExactSegment) (options : OptionBits) :
    buildUncachedGraphAt input exact_ options 0 =
      if exact_.isEmpty then buildWithOptions input options else buildExact input exact_ := by
  have hany : exact_.any (·.encloses 0) = false := by
    rw [any_eq_false]
    intro segment _
    simp [ExactSegment.encloses]
  have hall : (exact_.filter fun segment => 0 ≤ segment.start).map (·.rebase 0) = exact_ := by
    rw [filter_eq_self.mpr fun segment _ => by simp]
    exact map_id'' (fun segment => rfl) exact_
  unfold buildUncachedGraphAt
  rw [drop_zero, hany, hall]
  rfl

/-- The parsed length that the sweep finds on the graph of a buffer is that of the graph of the
suffix, built on its own. -/
theorem windowParsedLen_eq (h : buildUncachedGraphAt input exact_ options 0 = .ok graph)
    (hanchor : anchor ≤ input.length) :
    ∃ suffix, buildUncachedGraphAt input exact_ options anchor = .ok suffix ∧
      windowParsedLen input exact_ options graph anchor =
        apostropheExtended (input.drop anchor) (pathEnd (suffix.fewestKeys options.hasIncomplete)) := by
  rw [buildUncachedGraphAt_zero] at h
  unfold buildUncachedGraphAt
  dsimp only
  split_ifs at h ⊢ with hempty hinside
  · obtain rfl := List.isEmpty_iff.mp hempty
    exact windowParsedLen_input h hanchor
  · -- an anchor inside a segment : no key is parsed on either side
    have hlong := (follows_of_buildExact h).2.2
    obtain ⟨suffix, hsuffix⟩ := @exists_buildExact (input.drop anchor) [] (by rw [length_drop]; omega) trivial
    refine ⟨suffix, hsuffix, ?_⟩
    rw [pathEnd_exact hsuffix]
    unfold windowParsedLen
    rw [hinside, if_pos rfl]
    rfl
  · exact windowParsedLen_exact h hanchor (Bool.eq_false_of_not_eq_true hinside)

/-- A window inside the apostrophes of `xi'an`. -/
theorem windowParsedLen_eq_xian : ∃ graph suffix, buildUncachedGraphAt [120, 105, 39, 97, 110] [] ⟨0⟩ 0 = .ok graph ∧
    buildUncachedGraphAt [120, 105, 39, 97, 110] [] ⟨0⟩ 2 = .ok suffix ∧
    windowParsedLen [120, 105, 39, 97, 110] [] ⟨0⟩ graph 2 =
      apostropheExtended [39, 97, 110] (pathEnd (suffix.fewestKeys false)) := by
  obtain ⟨graph, h⟩ := (exists_buildWithOptions_iff [120, 105, 39, 97, 110] ⟨0⟩).mpr (by decide)
  obtain ⟨suffix, hsuffix, heq⟩ := @windowParsedLen_eq [120, 105, 39, 97, 110] [] ⟨0⟩ graph 2 h (by decide)
  exact ⟨graph, suffix, h, hsuffix, heq⟩

end Window

end Oxpinyin
