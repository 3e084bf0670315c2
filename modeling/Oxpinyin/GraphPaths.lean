import Oxpinyin.Graph
import Mathlib.Data.List.TakeWhile

/-!
# Paths of the graph and alternatives of the parser

On a lowercase group the graph's complete edges are the parser's complete blocks, so a
path of complete edges through the group is a segmentation of it. The spans of seven
bytes the graph also tries never resolve (`SyllableKey.fromOptionText_wellSpelled`).
`completeAlternatives_eq_walks` : the parser's complete alternatives are exactly the
paths of complete edges, with the same spans and the same canonical syllables.
-/

namespace Oxpinyin

open List Option Cuts SegmentGraph

/-! ## Walks -/

/-- A path of the graph from node `n` to node `t`. -/
inductive Walk (graph : SegmentGraph) : Nat → Nat → List Edge → Prop
  | nil (n : Nat) : Walk graph n n []
  | cons {n t edge es} : edge ∈ graph.outgoing n → Walk graph edge.to_ t es →
      Walk graph n t (edge :: es)

/-- A path that takes no incomplete edge. -/
def CompleteWalk (graph : SegmentGraph) (n t : Nat) (es : List Edge) : Prop :=
  Walk graph n t es ∧ ∀ e ∈ es, e.kind ≠ .incomplete

/-- The span and the canonical syllable of a complete edge. -/
def Edge.segment (e : Edge) : ParsedSyllable :=
  ⟨e.key.text, e.syllableStart, e.to_, .Complete⟩

/-! ## Edges at a node -/

section Edges

variable {input : Bytes} {options : OptionBits} {node start l : Nat} {e : Edge}

theorem spanEdge_eq_some (h : spanEdge input options node start l = some e) :
    ∃ key tone distance, parsedSpan input options start l = some (key, tone, distance) ∧
      e.from_ = node ∧ e.to_ = start + l ∧ e.syllableStart = start ∧ e.key = key ∧
      e.tone = tone ∧ e.distance = distance ∧
      (e.kind = .incomplete ↔ key.completeness = .Partial) := by
  obtain ⟨⟨key, tone, distance⟩, hspan, hedge⟩ := bind_eq_some_iff.mp h
  dsimp only at hedge
  split_ifs at hedge with hfit
  have hkind : e.kind = spanKind input options start l key := by rw [← some.inj hedge]
  rw [hkind, spanKind_eq_incomplete_iff, ← some.inj hedge]
  exact ⟨key, tone, distance, hspan, rfl, rfl, rfl, rfl, rfl, rfl, Iff.rfl⟩

theorem mem_emitEdges : e ∈ emitEdges input node start options ↔
    ∃ l, 0 < l ∧ l ≤ maxSyllableLen + 1 ∧ spanEdge input options node start l = some e := by
  simp only [emitEdges, mem_filterMap, mem_longestFirst, and_assoc, Nat.succ_le_iff]

theorem mem_edgesAt : e ∈ edgesAt input options node ↔
    runEnd (· == apostrophe) input node < input.length ∧
    ∃ l, 0 < l ∧ l ≤ maxSyllableLen + 1 ∧
      spanEdge input options node (runEnd (· == apostrophe) input node) l = some e := by
  unfold edgesAt
  split_ifs with h
  · simp [h, mem_emitEdges]
  · simp [h]

theorem parsedSpan_fits {found : SyllableKey × Nat × Nat} (hl : 0 < l)
    (h : parsedSpan input options start l = some found) : start + l ≤ input.length ∧ l ≤ maxSyllableLen + 1 := by
  unfold parsedSpan at h
  split_ifs at h with hfit
  omega

/-- Without tones a lowercase span is looked up whole. -/
theorem parsedSpan_of_lowercase (htone : options.contains useTone = false)
    (hfit : start + l ≤ input.length) (hl : 0 < l) (hmax : l ≤ maxSyllableLen + 1)
    (hlow : (slice input start l).all isAsciiLowercase = true) :
    parsedSpan input options start l =
      (SyllableKey.fromOptionTextWithDistance (slice input start l) options).map fun found =>
        (found.1, 0, found.2) := by
  have hcore : (slice input start l).takeWhile (· != 0) = slice input start l := by
    rw [takeWhile_eq_self_iff]
    intro b hb
    have hlower := List.all_eq_true.mp hlow b hb
    rw [bne_iff_ne]
    rintro rfl
    simp [isAsciiLowercase] at hlower
  have hne : slice input start l ≠ [] := by
    rw [← length_pos_iff, length_slice hfit]
    exact hl
  have hsplit : ∀ force, toneSplit (slice input start l) false (false && force) =
      some (slice input start l, 0) := by
    intro force
    unfold toneSplit
    cases (slice input start l).getLast? <;> simp [hcore, hne, hlow]
  unfold parsedSpan
  rw [if_neg (by omega), htone]
  dsimp only
  rw [hsplit, bind_some]

end Edges

/-! ## Walks of a lowercase group -/

section Group

variable {group : Bytes} {options : OptionBits} {graph : SegmentGraph}

section

variable (hlow : group.all isAsciiLowercase = true)
include hlow

theorem byteIs_of_all {i : Nat} (hi : i < group.length) : byteIs isAsciiLowercase group i = true := by
  unfold byteIs
  rw [getElem?_eq_getElem hi]
  exact List.all_eq_true.mp hlow _ (getElem_mem hi)

theorem runEnd_apostrophe_of_lowercase {n : Nat} : runEnd (· == apostrophe) group n = n := by
  refine runEnd_eq_self ?_
  by_contra hq
  rw [Bool.not_eq_false] at hq
  have hnot := not_lowercase_of_apostrophe hq
  rw [byteIs_of_all hlow (byteIs_lt hq)] at hnot
  cases hnot

theorem all_slice (c l : Nat) : (slice group c l).all isAsciiLowercase = true := by
  rw [List.all_eq_true] at hlow ⊢
  exact fun b hb => hlow b (mem_of_mem_drop (mem_of_mem_take hb))

end

variable {n : Nat}

/-- A complete edge of a lowercase group is a complete syllable of the parser. -/
theorem complete_of_mem_edgesAt (htone : options.contains useTone = false)
    (hlow : group.all isAsciiLowercase = true) {e : Edge}
    (he : e ∈ edgesAt group options n) (hkind : e.kind ≠ .incomplete) :
    e.from_ = n ∧ e.syllableStart = n ∧ n < e.to_ ∧ e.to_ ≤ group.length ∧
      (lexiconOf options).complete (between group n e.to_) = some e.key.text := by
  obtain ⟨_, l, hl, hmax, hedge⟩ := mem_edgesAt.mp he
  rw [runEnd_apostrophe_of_lowercase hlow] at hedge
  obtain ⟨key, tone, distance, hspan, hfrom, hto, hstart, hkey, _, _, hkinds⟩ := spanEdge_eq_some hedge
  obtain ⟨hfit, _⟩ := parsedSpan_fits hl hspan
  rw [parsedSpan_of_lowercase htone hfit hl hmax (all_slice hlow n l)] at hspan
  obtain ⟨⟨key', distance'⟩, hfound, hpair⟩ := map_eq_some_iff.mp hspan
  obtain rfl : key' = key := congrArg Prod.fst hpair
  have hcomp : key'.completeness = .Complete := by
    cases hc : key'.completeness with
    | Complete => rfl
    | Partial => exact absurd (hkinds.mpr hc) hkind
  refine ⟨hfrom, hstart, by omega, by omega, ?_⟩
  have hslice : between group n e.to_ = slice group n l := by
    rw [between, hto, Nat.add_sub_cancel_left]
  rw [hslice, hkey]
  simp [lexiconOf, completeSyllable, SyllableKey.fromOptionText, hfound, hcomp]

/-- A complete syllable of the parser is a complete edge of the group's graph. -/
theorem mem_edgesAt_of_complete (htone : options.contains useTone = false)
    (hlow : group.all isAsciiLowercase = true) (hlen : group.length ≤ maxGraphPosition)
    {m : Nat} (hnm : n < m) (hm : m ≤ group.length) {text : Bytes}
    (h : (lexiconOf options).complete (between group n m) = some text) :
    ∃ e ∈ edgesAt group options n, e.kind ≠ .incomplete ∧
      e.segment = ⟨text, n, m, .Complete⟩ := by
  have hslice : between group n m = slice group n (m - n) := rfl
  simp only [lexiconOf] at h
  have hspell := (completeSyllable_wellSpelled h).2.1
  rw [hslice, length_slice (by omega)] at hspell
  obtain ⟨key, hkey, htext⟩ := bind_eq_some_iff.mp h
  split_ifs at htext with hcomp
  obtain rfl := some.inj htext
  obtain ⟨⟨key', distance⟩, hfound, rfl⟩ := map_eq_some_iff.mp hkey
  have hspan := parsedSpan_of_lowercase htone (by omega : n + (m - n) ≤ group.length)
    (by omega) (by omega) (all_slice hlow n (m - n))
  rw [← hslice, hfound] at hspan
  have hstop : n + (m - n) = m := by omega
  unfold maxGraphPosition at hlen
  have hedge : ∃ e, spanEdge group options n n (m - n) = some e := by
    unfold spanEdge
    rw [hspan, map_some, bind_some]
    dsimp only
    rw [if_pos (by omega)]
    exact ⟨_, rfl⟩
  obtain ⟨e, he⟩ := hedge
  obtain ⟨key, tone, distance', hspan', _, hto, hstart, hkey', _, _, hkinds⟩ := spanEdge_eq_some he
  rw [hspan, map_some] at hspan'
  obtain ⟨rfl, _⟩ := Prod.mk.inj (some.inj hspan')
  refine ⟨e, ?_, ?_, ?_⟩
  · rw [mem_edgesAt, runEnd_apostrophe_of_lowercase hlow]
    exact ⟨by omega, m - n, by omega, by omega, he⟩
  · intro hinc
    rw [hkinds.mp hinc] at hcomp
    cases hcomp
  · simp only [Edge.segment, hkey', hstart, hto, hstop]

variable {t : Nat} {es : List Edge}

/-- A complete walk of a lowercase group is a segmentation of it. -/
theorem CompleteWalk.segments (hbuild : buildWithOptions group options = .ok graph)
    (htone : options.contains useTone = false) (hlow : group.all isAsciiLowercase = true)
    (h : CompleteWalk graph n t es) (hn : n ≤ group.length) :
    Segments (lexiconOf options) group n t (es.map Edge.segment) := by
  obtain ⟨hwalk, hkinds⟩ := h
  induction hwalk with
  | nil n => exact .nil n
  | @cons n t e es he _ ih =>
    rw [outgoing_eq_edgesAt hbuild hn] at he
    obtain ⟨_, hstart, hlt, hle, htext⟩ := complete_of_mem_edgesAt htone hlow he (hkinds e mem_cons_self)
    have hrest := ih hle fun e' he' => hkinds e' (mem_cons_of_mem e he')
    have hcons := Segments.cons hlt htext hrest
    rw [map_cons, Edge.segment, hstart]
    exact hcons

/-- A segmentation of a lowercase group is a complete walk. -/
theorem exists_completeWalk_of_segments (hbuild : buildWithOptions group options = .ok graph)
    (htone : options.contains useTone = false) (hlow : group.all isAsciiLowercase = true)
    {path : List ParsedSyllable} (h : Segments (lexiconOf options) group n t path)
    (ht : t ≤ group.length) : ∃ es, CompleteWalk graph n t es ∧ path = es.map Edge.segment := by
  have hlen := (exists_buildWithOptions_iff group options).mp ⟨graph, hbuild⟩
  induction h with
  | nil n => exact ⟨[], ⟨.nil n, by simp⟩, rfl⟩
  | @cons n m t text rest hnm htext hrest ih =>
    have hm := hrest.le
    obtain ⟨es, ⟨hwalk, hkinds⟩, rfl⟩ := ih ht
    obtain ⟨e, he, hkind, hseg⟩ := mem_edgesAt_of_complete htone hlow hlen hnm (by omega) htext
    have hto : e.to_ = m := congrArg ParsedSyllable.stop hseg
    rw [← outgoing_eq_edgesAt hbuild (by omega)] at he
    refine ⟨e :: es, ⟨.cons he (by rw [hto]; exact hwalk), fun e' he' => ?_⟩, ?_⟩
    · rcases mem_cons.mp he' with rfl | he'
      · exact hkind
      · exact hkinds e' he'
    · rw [map_cons, hseg]

/-- Two edges at a node that end at the same place are the same edge. -/
theorem edgesAt_unique {e e' : Edge} (he : e ∈ edgesAt group options n)
    (he' : e' ∈ edgesAt group options n) (hto : e.to_ = e'.to_) : e = e' := by
  obtain ⟨_, l, _, _, hedge⟩ := mem_edgesAt.mp he
  obtain ⟨_, l', _, _, hedge'⟩ := mem_edgesAt.mp he'
  obtain ⟨_, _, _, _, _, hl, _⟩ := spanEdge_eq_some hedge
  obtain ⟨_, _, _, _, _, hl', _⟩ := spanEdge_eq_some hedge'
  obtain rfl : l = l' := by omega
  rw [hedge] at hedge'
  exact some.inj hedge'

/-- The spans of a walk determine it. -/
theorem Walk.eq_of_segment_eq (hbuild : buildWithOptions group options = .ok graph)
    {t' : Nat} {es' : List Edge} (h : Walk graph n t es) (h' : Walk graph n t' es')
    (heq : es.map Edge.segment = es'.map Edge.segment) (hn : n ≤ group.length) : es = es' := by
  induction h generalizing es' with
  | nil n =>
    cases h' with
    | nil => rfl
    | cons _ _ => simp at heq
  | @cons n t e es he _ ih =>
    cases h' with
    | nil => simp at heq
    | @cons _ _ e' es' he' hrest' =>
      obtain ⟨hhead, htail⟩ := List.cons.inj heq
      have hto : e.to_ = e'.to_ := congrArg ParsedSyllable.stop hhead
      rw [outgoing_eq_edgesAt hbuild hn] at he he'
      obtain rfl := edgesAt_unique he he' hto
      have hle : e.to_ ≤ group.length := by
        obtain ⟨_, l, hl, _, hedge⟩ := mem_edgesAt.mp he
        obtain ⟨_, _, _, hspan, _, hto', _⟩ := spanEdge_eq_some hedge
        have := (parsedSpan_fits hl hspan).1
        omega
      rw [ih hrest' htail hle]

/-- The parser reads a lowercase group with a complete cut as one group. -/
theorem parseInput_of_group (hne : group ≠ []) (hlow : group.all isAsciiLowercase = true)
    (hcut : cutsUpTo group options group.length ≠ 0) :
    parseInput group options =
      if maxParseResults < cutsUpTo group options group.length then .error tooManyAlternatives
      else .ok (finish (completeCuts group 0 options group.length) group group.length) := by
  have hpos : 0 < group.length := length_pos_iff.mpr hne
  have hquote : byteIs (· == apostrophe) group 0 = false := by
    by_contra hq
    rw [Bool.not_eq_false] at hq
    have hnot := not_lowercase_of_apostrophe hq
    rw [byteIs_of_all hlow hpos] at hnot
    cases hnot
  have hend : runEnd isAsciiLowercase group 0 = group.length :=
    runEnd_eq (Nat.zero_le _) (fun i _ hi => byteIs_of_all hlow hi) (by simp [byteIs])
  have hslice : slice group 0 (group.length - 0) = group := by simp [slice]
  unfold parseInput
  rw [if_neg (by rw [hquote]; decide)]
  unfold parseLoop
  simp only [hend, hslice]
  rw [if_neg (by omega)]
  by_cases hover : maxParseResults < cutsUpTo group options group.length
  · rw [parseGroup_of_overLimit hover, if_pos hover]
    rfl
  · rw [parseGroup_of_complete hcut (by omega), if_neg hover]
    simp only [bind, Except.bind, pure, Except.pure]
    rw [if_neg (by omega)]
    unfold combine
    rw [length_singleton, one_mul, length_completeCuts, if_neg hover]
    simp

/-- The complete alternatives of a lowercase group are the paths of complete edges of its
graph, one for one, with the same spans and the same canonical syllables. A group whose
positions fit the graph has one. -/
theorem completeAlternatives_eq_walks (group : Bytes) (options : OptionBits) (hne : group ≠ [])
    (hlow : group.all isAsciiLowercase = true) (hcut : ∃ path, Segments (lexiconOf options) group 0 group.length path)
    (htone : options.contains useTone = false) :
    (group.length ≤ maxGraphPosition → ∃ graph, buildWithOptions group options = .ok graph) ∧
    ∀ graph, buildWithOptions group options = .ok graph →
      ∃ found, searchComplete group 0 options = some found ∧
        (FullPinyinParser.parseWithOptions group options =
          if maxParseResults < found.length then .error tooManyAlternatives
          else .ok (found.map fun path => ⟨path, []⟩)) ∧
        (∀ path, path ∈ found ↔
          ∃ es, CompleteWalk graph 0 group.length es ∧ path = es.map Edge.segment) ∧
        ∀ es es', CompleteWalk graph 0 group.length es → CompleteWalk graph 0 group.length es' →
          es.map Edge.segment = es'.map Edge.segment → es = es' := by
  refine ⟨(exists_buildWithOptions_iff group options).mpr, fun graph hbuild => ?_⟩
  refine ⟨_, searchComplete_eq group 0 options, ?_, fun path => ?_, fun es es' h h' heq => ?_⟩
  · have hcuts := @cutsUpTo_ne_zero_iff_segments group options 0 group.length group.length
      (le_refl _) (le_refl _)
    rw [between_self, Nat.zero_add] at hcuts
    rw [FullPinyinParser.parseWithOptions, parseInput_of_group hne hlow (hcuts.mpr hcut),
      length_completeCuts, finish, drop_length]
  · have hmem := @mem_completeCuts group options 0 group.length group.length path
      (le_refl _) (le_refl _)
    rw [between_self, Nat.zero_add] at hmem
    rw [hmem]
    constructor
    · exact fun hsegs => exists_completeWalk_of_segments hbuild htone hlow hsegs (le_refl _)
    · rintro ⟨es, hwalk, rfl⟩
      exact hwalk.segments hbuild htone hlow (Nat.zero_le _)
  · exact h.1.eq_of_segment_eq hbuild h'.1 heq (Nat.zero_le _)

/-- The two readings of `xian` are the two complete paths of its graph. -/
theorem completeAlternatives_eq_walks_xian :
    ∃ graph found, buildWithOptions (ascii "xian") default = .ok graph ∧
      searchComplete (ascii "xian") 0 default = some found ∧
      ∀ path, path ∈ found ↔
        ∃ es, CompleteWalk graph 0 (ascii "xian").length es ∧ path = es.map Edge.segment := by
  have hcut : ∃ path, Segments (lexiconOf default) (ascii "xian") 0 (ascii "xian").length path :=
    ⟨_, .cons (by decide) (show (lexiconOf default).complete (between (ascii "xian") 0 4) =
      some (ascii "xian") by decide +kernel) (.nil _)⟩
  obtain ⟨hfits, hall⟩ := completeAlternatives_eq_walks (ascii "xian") default (by decide)
    (by decide) hcut (by decide)
  obtain ⟨graph, hgraph⟩ := hfits (by decide)
  obtain ⟨found, hfound, _, hmem, _⟩ := hall graph hgraph
  exact ⟨graph, found, hgraph, hfound, hmem⟩

end Group

end Oxpinyin
