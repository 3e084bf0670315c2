import Oxpinyin.FewestKeys

/-!
# What the graph of an input is

`buildWithOptions_spec` : the one pass of the builder gives forward edges, an offset table that
cuts the edge list at its nodes, longest key first, and the closure of the start under keys and
apostrophes, whatever the cache of the apostrophe run holds.

A span is looked up by its text before a NUL byte, so that a separator behind the NUL can lie
inside an edge. `separated_iff` : this is the only way it can.
-/

namespace Oxpinyin

open List Option Sweep Cuts Bool

namespace SegmentGraph

/-! ## The graph of an input -/

/-- Where a key may begin for an edge leaving `node`, the run of apostrophes scanned from there. -/
def perNodeKeyStart (input : Bytes) (node : Nat) : Option Nat :=
  match input[node]? with
  | none => none
  | some byte =>
    if byte = apostrophe then
      let cursor := runEnd (· == apostrophe) input (node + 1)
      if cursor < input.length then some cursor else none
    else some node

/-- The edges of a node, its run of apostrophes scanned from there. -/
def perNodeEdges (input : Bytes) (options : OptionBits) (node : Nat) : List Edge :=
  match perNodeKeyStart input node with
  | some start => emitEdges input node start options
  | none => []

/-- The offsets cut the edge list into the edges of each node. -/
structure Partitioned (graph : SegmentGraph) : Prop where
  length : graph.starts.length = graph.nodeCount + 1
  first : graph.starts[0]? = some 0
  last : graph.starts[graph.nodeCount]? = some graph.edges.length
  ascending : graph.starts.Pairwise (· ≤ ·)
  leaving : ∀ node id start stop edge, graph.starts[node]? = some start → graph.starts[node + 1]? = some stop →
    graph.edges[id]? = some edge → (edge.from_ = node ↔ start ≤ id ∧ id < stop)

/-- An edge, or an apostrophe, takes the parse one step on. -/
def Hop (graph : SegmentGraph) (input : Bytes) (p q : Nat) : Prop :=
  (input[p]? = some apostrophe ∧ q = p + 1) ∨ ∃ edge ∈ graph.edges, edge.from_ = p ∧ edge.to_ = q

section Built

variable {input : Bytes} {options : OptionBits} {graph : SegmentGraph} {edge : Edge} {node : Nat}

/-- A scan of one node gives its edges. -/
theorem perNodeEdges_eq (input : Bytes) (options : OptionBits) (node : Nat) :
    perNodeEdges input options node = edgesAt input options node := by
  unfold perNodeEdges perNodeKeyStart edgesAt
  cases hbyte : input[node]? with
  | none =>
    have hout : input.length ≤ node := getElem?_eq_none_iff.mp hbyte
    have hrun := @le_runEnd (· == apostrophe) input node
    exact (if_neg (by omega)).symm
  | some byte =>
    have hin : node < input.length := (List.getElem?_eq_some_iff.mp hbyte).1
    dsimp only
    by_cases hq : byte = apostrophe
    · have hhead : byteIs (· == apostrophe) input node = true := byteIs_apostrophe_iff.mpr (by rw [hbyte, hq])
      have hrun : runEnd (· == apostrophe) input node = runEnd (· == apostrophe) input (node + 1) := by
        refine runEnd_eq (Nat.le_trans (Nat.le_succ node) le_runEnd) (fun i hlow hhigh => ?_) byteIs_runEnd
        rcases Nat.eq_or_lt_of_le hlow with rfl | hlt
        · exact hhead
        · exact byteIs_of_lt_runEnd hlt hhigh
      rw [if_pos hq, hrun]
      split_ifs
      · rfl
      · rfl
    · have hhead : byteIs (· == apostrophe) input node = false := by
        rw [← not_eq_true, byteIs_apostrophe_iff, hbyte]
        simpa using hq
      rw [if_neg hq, runEnd_eq_self hhead, if_pos hin]

section

variable (h : buildWithOptions input options = .ok graph)
include h

/-- The offsets of a parsed graph cut its edges. -/
theorem partitioned_buildWithOptions : graph.Partitioned := by
  obtain ⟨hlen, hedges, hstarts⟩ := tables_buildWithOptions h
  have hget : ∀ j, j ≤ input.length + 1 → graph.starts[j]? = some (offset input options j) := by
    intro j hj
    rw [hstarts, getElem?_map, getElem?_range (by omega)]
    rfl
  refine ⟨?_, hget 0 (Nat.zero_le _), ?_, ?_, fun node id start stop edge hstart hstop hedge => ?_⟩
  · rw [hstarts, length_map, length_range, nodeCount, hlen]
  · rw [nodeCount, hlen, hget _ (Nat.le_refl _), hedges]
    rfl
  · rw [hstarts]
    exact pairwise_lt_range.map _ fun i j hij => offset_mono (Nat.le_of_lt hij)
  · have hnode : node + 1 ≤ input.length + 1 := by
      have := (List.getElem?_eq_some_iff.mp hstop).1
      rw [hstarts, length_map, length_range] at this
      omega
    rw [hget _ (by omega)] at hstart
    rw [hget _ hnode] at hstop
    obtain rfl := some.inj hstart
    obtain rfl := some.inj hstop
    rw [hedges] at hedge
    obtain ⟨hle, hlt, _⟩ := offset_le_id hedge
    refine ⟨fun hfrom => hfrom ▸ ⟨hle, hlt⟩, fun hin => ?_⟩
    rcases Nat.lt_trichotomy edge.from_ node with hlow | heq | hhigh
    · have := @offset_mono input options _ _ (Nat.succ_le_of_lt hlow)
      rw [Nat.succ_eq_add_one] at this
      omega
    · exact heq
    · have := @offset_mono input options _ _ (Nat.succ_le_of_lt hhigh)
      rw [Nat.succ_eq_add_one] at this
      omega

theorem mem_edges_iff : edge ∈ graph.edges ↔ edge ∈ edgesAt input options edge.from_ := by
  obtain ⟨_, hedges, _⟩ := tables_buildWithOptions h
  rw [hedges, mem_flatMap]
  constructor
  · rintro ⟨node, _, hat⟩
    rwa [(edgesAt_forward hat).1]
  · intro hat
    obtain ⟨_, hlt, hle⟩ := edgesAt_forward hat
    exact ⟨edge.from_, mem_range.mpr (by omega), hat⟩

theorem hop_eq_advance : graph.Hop input = Advance input options fun _ => True := by
  ext p q
  refine or_congr_right ⟨?_, ?_⟩
  · rintro ⟨edge, hedge, rfl, hto⟩
    exact ⟨edge, (mem_edges_iff h).mp hedge, trivial, hto⟩
  · rintro ⟨edge, hedge, _, hto⟩
    have hfrom := (edgesAt_forward hedge).1
    exact ⟨edge, (mem_edges_iff h).mpr (by rwa [hfrom]), hfrom, hto⟩

end

/-- The edges of a node, longest key first. -/
theorem pairwise_edgesAt (input : Bytes) (options : OptionBits) (node : Nat) :
    (edgesAt input options node).Pairwise fun a b => b.to_ - b.syllableStart < a.to_ - a.syllableStart := by
  unfold edgesAt
  split_ifs
  · unfold emitEdges
    have hlengths : (longestFirst (maxSyllableLen + 1)).Pairwise fun a b => b < a := by
      rw [longestFirst, pairwise_reverse]
      exact pairwise_lt_range'
    refine hlengths.filterMap _ fun l l' hlt a ha b hb => ?_
    obtain ⟨_, _, _, _, _, hto, hstart, _⟩ := spanEdge_eq_some (mem_def.mp ha)
    obtain ⟨_, _, _, _, _, hto', hstart', _⟩ := spanEdge_eq_some (mem_def.mp hb)
    omega
  · exact List.Pairwise.nil

theorem outgoing_of_lt (h : buildWithOptions input options = .ok graph) (hnode : input.length < node) :
    graph.outgoing node = [] := by
  obtain ⟨_, _, hstarts⟩ := tables_buildWithOptions h
  have hnone : graph.starts[node + 1]? = none := by
    rw [hstarts, getElem?_eq_none_iff, length_map, length_range]
    omega
  rw [outgoing, sliceEdges, hnone]
  cases graph.starts[node]? with
  | none => rfl
  | some start => rfl

/-- The marks of the reachability pass. -/
theorem reachable_iff (h : buildWithOptions input options = .ok graph) (n : Nat) :
    graph.reachable[n]? = some true ↔ Reach (Advance input options fun _ => True) n := by
  have hdone := reached_built h
  have hmark : graph.reachable[n]? = some true ↔ graph.reachable.getD n false = true := by
    rw [getD_eq_getElem?_getD]
    cases graph.reachable[n]? with
    | none => simp
    | some mark => simp
  rw [hmark]
  refine ⟨hdone.marks.sound, fun hreach => ?_⟩
  have hle := reach_le hreach
  exact (hdone.marks.reach (fun p q hs => (advance_lt hs).1) (by omega)).mpr hreach

/-- The graph of an input, for every option word : forward edges, an offset table that cuts the
edge list at its nodes, the longest key of a node first, the closure of the start under keys and
apostrophes with its furthest node, and the edges of a scan of every node on its own. -/
theorem buildWithOptions_spec (input : Bytes) (options : OptionBits) :
    (maxGraphPosition < input.length ∧
        buildWithOptions input options = .error (.inputTooLong input.length maxGraphPosition)) ∨
      ∃ graph, buildWithOptions input options = .ok graph ∧ graph.inputLen = input.length ∧
        (∀ edge ∈ graph.edges, edge.from_ < edge.to_ ∧ edge.to_ ≤ input.length) ∧
        graph.Partitioned ∧
        (∀ node, (graph.outgoing node).Pairwise fun a b =>
          b.to_ - b.syllableStart < a.to_ - a.syllableStart) ∧
        (∀ n, graph.reachable[n]? = some true ↔ Reach (graph.Hop input) n) ∧
        (Reach (graph.Hop input) graph.consumed ∧ ∀ n, Reach (graph.Hop input) n → n ≤ graph.consumed) ∧
        graph.edges = (List.range (input.length + 1)).flatMap (perNodeEdges input options) := by
  by_cases hlong : maxGraphPosition < input.length
  · exact Or.inl ⟨hlong, if_pos hlong⟩
  obtain ⟨graph, h⟩ := (exists_buildWithOptions_iff input options).mpr (Nat.le_of_not_lt hlong)
  obtain ⟨hlen, hedges, _⟩ := tables_buildWithOptions h
  refine Or.inr ⟨graph, h, hlen, fun edge hedge => ?_, partitioned_buildWithOptions h, fun node => ?_, fun n => ?_,
    ?_, ?_⟩
  · exact (edgesAt_forward ((mem_edges_iff h).mp hedge)).2
  · by_cases hnode : node ≤ input.length
    · rw [outgoing_eq_edgesAt h hnode]
      exact pairwise_edgesAt input options node
    · rw [outgoing_of_lt h (Nat.lt_of_not_le hnode)]
      exact List.Pairwise.nil
  · rw [hop_eq_advance h]
    exact reachable_iff h n
  · rw [hop_eq_advance h]
    exact consumed_spec h
  · rw [hedges]
    exact flatMap_congr fun node _ => (perNodeEdges_eq input options node).symm

end Built

/-! ## Separators and spans -/

/-- A tone digit. -/
def isToneDigit (byte : UInt8) : Bool := 49 ≤ byte && byte ≤ 53

/-- The letters of `length` bytes at `start` spell a key, a NUL follows them, and a separator behind
it is in reach of a span. Where a tone is forced, so is a tone digit behind the separator. -/
def HidesSeparator (input : Bytes) (options : OptionBits) (start length separator : Nat) : Prop :=
  0 < length ∧ (slice input start length).all isAsciiLowercase = true ∧
    (SyllableKey.fromOptionTextWithDistance (slice input start length) options).isSome ∧
    input[start + length]? = some 0 ∧ start + length < separator ∧ separator < start + (maxSyllableLen + 1) ∧
    input[separator]? = some apostrophe ∧
    (options.contains useTone = true → options.contains forceTone = true →
      ∃ stop byte, separator < stop ∧ stop < start + (maxSyllableLen + 1) ∧ input[stop]? = some byte ∧
        isToneDigit byte = true)

section Spans

variable {input : Bytes} {options : OptionBits} {graph : SegmentGraph} {start length : Nat}

theorem getElem?_slice {i : Nat} (h : i < length) : (slice input start length)[i]? = input[start + i]? := by
  rw [slice, getElem?_take_of_lt h, getElem?_drop]

theorem isToneDigit_apostrophe : isToneDigit apostrophe = false := by decide

theorem isAsciiLowercase_apostrophe : isAsciiLowercase apostrophe = false := by decide

/-- The text before a NUL, if it can be a spelling. -/
def spelling (body : Bytes) (tone : Nat) : Option (Bytes × Nat) :=
  if body.takeWhile (· != 0) ≠ [] ∧ (body.takeWhile (· != 0)).all isAsciiLowercase = true then
    some (body.takeWhile (· != 0), tone)
  else none

variable {text : Bytes} {hasTone : Bool}

/-- A span without a tone digit. -/
theorem toneSplit_plain (force : Bool)
    (h : ∀ digit, text.getLast? = some digit → (hasTone && isToneDigit digit) = false) :
    toneSplit text hasTone force = if force = true then none else spelling text 0 := by
  have hsplit : toneSplit text hasTone force =
      if (force && (0 : Nat) == 0) = true then none else spelling text 0 := by
    unfold toneSplit
    cases hlast : text.getLast? with
    | none => rfl
    | some digit =>
      have hdigit : (hasTone && (decide (49 ≤ digit) && decide (digit ≤ 53))) = false := h digit hlast
      simp only [hdigit, false_eq_true, if_false]
      rfl
  rw [hsplit]
  cases force with
  | false => rfl
  | true => rfl

/-- A span with a tone digit. -/
theorem toneSplit_tone (body : Bytes) {digit : UInt8} (force : Bool) (hdigit : isToneDigit digit = true) :
    toneSplit (body ++ [digit]) true force = spelling body (digit.toNat - 48) := by
  have hlast : (body ++ [digit]).getLast? = some digit := getLast?_concat
  have htone : (true && (decide (49 ≤ digit) && decide (digit ≤ 53))) = true := hdigit
  have hpositive : (digit.toNat - 48 == 0) = false := by
    rw [isToneDigit, Bool.and_eq_true, decide_eq_true_iff, decide_eq_true_iff, UInt8.le_iff_toNat_le] at hdigit
    have hlow : 49 ≤ digit.toNat := hdigit.1
    rw [beq_eq_false_iff_ne]
    omega
  unfold toneSplit
  simp only [hlast, htone, if_true, dropLast_concat, hpositive, Bool.and_false, Bool.false_eq_true, if_false]
  rfl

variable {core : Bytes} {tone : Nat}

theorem spelling_eq_some {body : Bytes} {found : Nat} (h : spelling body found = some (core, tone)) :
    core = body.takeWhile (· != 0) ∧ core ≠ [] ∧ core.all isAsciiLowercase = true := by
  unfold spelling at h
  split_ifs at h with hcore
  obtain ⟨rfl, rfl⟩ := Prod.mk.inj (some.inj h)
  exact ⟨rfl, hcore⟩

variable {force : Bool}

/-- What a span is split into : the text before a NUL of its body, and a tone digit or nothing. -/
theorem toneSplit_eq_some (h : toneSplit text hasTone force = some (core, tone)) :
    ∃ body tail, text = body ++ tail ∧ (core = body.takeWhile (· != 0) ∧ core ≠ [] ∧
      core.all isAsciiLowercase = true) ∧ (∀ byte ∈ tail, isToneDigit byte = true) ∧
      (force = true → ∃ digit, tail = [digit]) := by
  by_cases hplain : ∀ digit, text.getLast? = some digit → (hasTone && isToneDigit digit) = false
  · rw [toneSplit_plain force hplain] at h
    split_ifs at h with hforce
    exact ⟨text, [], (append_nil _).symm, spelling_eq_some h, by simp, fun hf => absurd hf hforce⟩
  · simp only [not_forall, not_eq_false, and_eq_true] at hplain
    obtain ⟨digit, hlast, hdigit⟩ := hplain
    obtain ⟨rfl, hdigit⟩ := hdigit
    have htext := (dropLast_append_getLast? digit hlast).symm
    rw [htext, toneSplit_tone _ force hdigit] at h
    exact ⟨text.dropLast, [digit], htext, spelling_eq_some h, by simpa using hdigit, fun _ => ⟨digit, rfl⟩⟩

/-- The text before a NUL is the letters in front of it. -/
theorem spelling_letters (hcore : core ≠ []) (hlow : core.all isAsciiLowercase = true)
    (back : Bytes) (tone : Nat) : spelling (core ++ 0 :: back) tone = some (core, tone) := by
  have hnonzero : ∀ byte ∈ core, (byte != 0) = true := by
    intro byte hbyte
    have hlower := all_eq_true.mp hlow byte hbyte
    rw [bne_iff_ne]
    rintro rfl
    simp [isAsciiLowercase] at hlower
  have htake : (core ++ 0 :: back).takeWhile (· != 0) = core := by
    rw [takeWhile_append_of_pos hnonzero, takeWhile_cons_of_neg (by simp), append_nil]
  rw [spelling, htake, if_pos ⟨hcore, hlow⟩]

/-- A separator in a span lies behind a NUL, and before the tone digit if there is one. -/
theorem split_separator {k : Nat}
    (h : toneSplit text hasTone force = some (core, tone)) (hsep : text[k]? = some apostrophe) :
    ∃ back, text = core ++ 0 :: back ∧ core ≠ [] ∧ core.all isAsciiLowercase = true ∧ core.length < k ∧
      (force = true → ∃ digit, text.getLast? = some digit ∧ isToneDigit digit = true ∧ k + 1 < text.length) := by
  obtain ⟨body, tail, rfl, ⟨hcore, hne, hlow⟩, htail, hforce⟩ := toneSplit_eq_some h
  have hbody : k < body.length := by
    by_contra hout
    rw [getElem?_append_right (Nat.le_of_not_lt hout)] at hsep
    have hdigit := htail apostrophe (mem_of_getElem? hsep)
    rw [isToneDigit_apostrophe] at hdigit
    cases hdigit
  rw [getElem?_append_left hbody] at hsep
  obtain ⟨rest, hrest⟩ := takeWhile_prefix (fun byte : UInt8 => byte != 0) (l := body)
  rw [← hcore] at hrest
  have hle : core.length ≤ k := by
    by_contra hin
    rw [← hrest, getElem?_append_left (Nat.lt_of_not_le hin)] at hsep
    have hlower := all_eq_true.mp hlow apostrophe (mem_of_getElem? hsep)
    rw [isAsciiLowercase_apostrophe] at hlower
    cases hlower
  have hstop := any_takeWhile_length (p := fun byte : UInt8 => byte != 0) body
  rw [← hcore] at hstop
  cases rest with
  | nil =>
    rw [append_nil] at hrest
    rw [hrest] at hle
    omega
  | cons byte rest =>
    have hbyte : body[core.length]? = some byte := by
      rw [← hrest, getElem?_append_right (Nat.le_refl _), Nat.sub_self]
      rfl
    rw [hbyte] at hstop
    obtain rfl : byte = 0 := by simpa using hstop
    refine ⟨rest ++ tail, by rw [← hrest]; simp, hne, hlow, ?_, fun hf => ?_⟩
    · refine Nat.lt_of_le_of_ne hle fun heq => ?_
      rw [heq, hsep] at hbyte
      exact absurd (some.inj hbyte) (by decide)
    · obtain ⟨digit, rfl⟩ := hforce hf
      refine ⟨digit, getLast?_concat, htail digit mem_cons_self, ?_⟩
      rw [length_append, length_singleton]
      omega

variable {separator : Nat}

/-- An edge with a separator inside its own text. -/
theorem hides_of_edge (h : buildWithOptions input options = .ok graph) {edge : Edge}
    (hedge : edge ∈ graph.edges) (hlow : edge.syllableStart ≤ separator) (hhigh : separator < edge.to_)
    (hsep : input[separator]? = some apostrophe) :
    ∃ length, HidesSeparator input options edge.syllableStart length separator := by
  obtain ⟨_, l, hl, hmax, hspan⟩ := mem_edgesAt.mp ((mem_edges_iff h).mp hedge)
  obtain ⟨key, tone, distance, hparsed, _, hto, hstart, _⟩ := spanEdge_eq_some hspan
  rw [← hstart] at hparsed hto
  obtain ⟨hfit, _⟩ := parsedSpan_fits hl hparsed
  unfold parsedSpan at hparsed
  split_ifs at hparsed
  obtain ⟨⟨core, split⟩, hsplit, hfound⟩ := bind_eq_some_iff.mp hparsed
  obtain ⟨found, hlookup, _⟩ := map_eq_some_iff.mp hfound
  have hat : ∀ i, i < l → (slice input edge.syllableStart l)[i]? = input[edge.syllableStart + i]? :=
    fun i => getElem?_slice
  have hk : (slice input edge.syllableStart l)[separator - edge.syllableStart]? = some apostrophe := by
    rw [hat _ (by omega), Nat.add_sub_cancel' hlow, hsep]
  obtain ⟨back, htext, hne, hlower, hlt, hforce⟩ := split_separator hsplit hk
  have hletters : slice input edge.syllableStart core.length = core := by
    have htake : (slice input edge.syllableStart l).take core.length = core := by
      rw [htext, take_left]
    rwa [slice, take_take, Nat.min_eq_left (by omega)] at htake
  refine ⟨core.length, length_pos_of_ne_nil hne, by rw [hletters, hlower], ?_, ?_, by omega, by omega, hsep,
    fun htone hforced => ?_⟩
  · rw [hletters, hlookup]
    rfl
  · rw [← hat _ (by omega), htext, getElem?_append_right (Nat.le_refl _), Nat.sub_self]
    rfl
  · obtain ⟨digit, hlast, hdigit, hbefore⟩ := hforce (by rw [htone, hforced]; rfl)
    rw [length_slice hfit] at hbefore
    refine ⟨edge.syllableStart + (l - 1), digit, by omega, by omega, ?_, hdigit⟩
    rw [← hat _ (by omega), ← hlast, getLast?_eq_getElem?, length_slice hfit]

theorem slice_add (input : Bytes) (start a b : Nat) :
    slice input start (a + b) = slice input start a ++ slice input (start + a) b := by
  rw [slice, slice, slice, take_add, drop_drop]

theorem slice_one {i : Nat} {byte : UInt8} (h : input[i]? = some byte) : slice input i 1 = [byte] := by
  obtain ⟨hlt, rfl⟩ := List.getElem?_eq_some_iff.mp h
  rw [slice, drop_eq_getElem_cons hlt]
  rfl

/-- A hidden separator is inside an edge. -/
theorem edge_of_hides (h : buildWithOptions input options = .ok graph)
    (hhides : HidesSeparator input options start length separator) :
    ∃ edge ∈ graph.edges, edge.syllableStart ≤ separator ∧ separator < edge.to_ := by
  obtain ⟨hpos, hlower, hlookup, hzero, hlow, hhigh, hsep, hforced⟩ := hhides
  have hlong : input.length ≤ maxGraphPosition := (exists_buildWithOptions_iff input options).mp ⟨graph, h⟩
  rw [maxGraphPosition] at hlong
  have hne : slice input start length ≠ [] := by
    intro hnil
    have hin := (List.getElem?_eq_some_iff.mp hzero).1
    have hlength := @length_slice input start length (by omega)
    rw [hnil, length_nil] at hlength
    omega
  -- the span ends with the separator, or with the tone digit that is forced
  obtain ⟨stop, byte, hstop, hreach, hbyte, tone, hsplit⟩ : ∃ stop byte, separator ≤ stop ∧
      stop < start + (maxSyllableLen + 1) ∧ input[stop]? = some byte ∧ ∃ tone, ∀ back,
        toneSplit (slice input start length ++ 0 :: back ++ [byte]) (options.contains useTone)
          (options.contains useTone && options.contains forceTone) = some (slice input start length, tone) := by
    cases hforce : options.contains useTone && options.contains forceTone with
    | false =>
      refine ⟨separator, apostrophe, Nat.le_refl _, hhigh, hsep, 0, fun back => ?_⟩
      rw [toneSplit_plain false fun digit hlast => ?_, if_neg Bool.false_ne_true, append_assoc, cons_append,
        spelling_letters hne hlower]
      rw [getLast?_concat] at hlast
      rw [← some.inj hlast, isToneDigit_apostrophe, Bool.and_false]
    | true =>
      obtain ⟨htone, hforced'⟩ := (and_eq_true _ _).mp hforce
      obtain ⟨stop, byte, hstop, hreach, hbyte, hdigit⟩ := hforced htone hforced'
      refine ⟨stop, byte, Nat.le_of_lt hstop, hreach, hbyte, byte.toNat - 48, fun back => ?_⟩
      rw [htone, toneSplit_tone _ true hdigit, spelling_letters hne hlower]
  have hin := (List.getElem?_eq_some_iff.mp hbyte).1
  have htext : slice input start (stop - start + 1) =
      slice input start length ++ 0 :: slice input (start + length + 1) (stop - start - length - 1) ++ [byte] := by
    have hlength : stop - start + 1 = length + 1 + (stop - start - length - 1) + 1 := by omega
    have hlast : start + (length + 1 + (stop - start - length - 1)) = stop := by omega
    rw [hlength, slice_add, slice_add, slice_add, hlast, slice_one hbyte, slice_one hzero, ← Nat.add_assoc start]
    simp
  have hfirst : byteIs (· == apostrophe) input start = false := by
    rw [← not_eq_true, byteIs_apostrophe_iff]
    intro hq
    rw [← Nat.add_zero start, ← getElem?_slice hpos] at hq
    have hletter := all_eq_true.mp hlower apostrophe (mem_of_getElem? hq)
    rw [isAsciiLowercase_apostrophe] at hletter
    cases hletter
  obtain ⟨found, hfound⟩ := isSome_iff_exists.mp hlookup
  have hparsed : parsedSpan input options start (stop - start + 1) = some (found.1, tone, found.2) := by
    unfold parsedSpan
    rw [if_neg (by omega)]
    dsimp only
    rw [htext, hsplit, bind_some, hfound, map_some]
  obtain ⟨edge, hspan⟩ : ∃ edge, spanEdge input options start start (stop - start + 1) = some edge := by
    rw [spanEdge, hparsed, bind_some]
    dsimp only
    rw [if_pos ⟨by omega, by omega, by omega⟩]
    exact ⟨_, rfl⟩
  obtain ⟨_, _, _, _, hfrom, hto, hstart, _⟩ := spanEdge_eq_some hspan
  have hat : edge ∈ edgesAt input options edge.from_ := by
    rw [hfrom, mem_edgesAt, runEnd_eq_self hfirst]
    exact ⟨by omega, _, Nat.succ_pos _, by omega, hspan⟩
  exact ⟨edge, (mem_edges_iff h).mpr hat, by omega, by omega⟩

/-- The edges of a graph hold no separator inside their own text, unless a NUL in the input hides
one. -/
theorem separated_iff (h : buildWithOptions input options = .ok graph) :
    (∀ edge ∈ graph.edges, ∀ i, edge.syllableStart ≤ i → i < edge.to_ → input[i]? ≠ some apostrophe) ↔
      ¬∃ start length separator, HidesSeparator input options start length separator := by
  constructor
  · rintro hnone ⟨start, length, separator, hhides⟩
    obtain ⟨edge, hedge, hlow, hhigh⟩ := edge_of_hides h hhides
    exact hnone edge hedge separator hlow hhigh hhides.2.2.2.2.2.2.1
  · intro hnone edge hedge i hlow hhigh hsep
    obtain ⟨length, hhides⟩ := hides_of_edge h hedge hlow hhigh hsep
    exact hnone ⟨_, _, _, hhides⟩

end Spans

theorem separated_iff_nihao : ∃ graph, buildWithOptions [110, 105, 39, 104, 97, 111] ⟨0⟩ = .ok graph ∧
    ((∀ edge ∈ graph.edges, ∀ i, edge.syllableStart ≤ i → i < edge.to_ →
        ([110, 105, 39, 104, 97, 111] : Bytes)[i]? ≠ some apostrophe) ↔
      ¬∃ start length separator, HidesSeparator [110, 105, 39, 104, 97, 111] ⟨0⟩ start length separator) := by
  obtain ⟨graph, h⟩ := (exists_buildWithOptions_iff [110, 105, 39, 104, 97, 111] ⟨0⟩).mpr (by decide)
  exact ⟨graph, h, separated_iff h⟩

/-- In `ni`, a NUL and an apostrophe, the key of `ni` is also that of all four bytes. -/
theorem not_separated : ∃ graph, buildWithOptions [110, 105, 0, 39] ⟨0⟩ = .ok graph ∧
    ∃ edge ∈ graph.edges, ∃ i, edge.syllableStart ≤ i ∧ i < edge.to_ ∧
      ([110, 105, 0, 39] : Bytes)[i]? = some apostrophe := by
  obtain ⟨graph, h⟩ := (exists_buildWithOptions_iff [110, 105, 0, 39] ⟨0⟩).mpr (by decide)
  have hhides : HidesSeparator [110, 105, 0, 39] ⟨0⟩ 0 2 3 :=
    ⟨by decide, by decide, by decide +kernel, rfl, by decide, by decide, rfl, fun h => absurd h (by decide)⟩
  obtain ⟨edge, hedge, hlow, hhigh⟩ := edge_of_hides h hhides
  exact ⟨graph, h, edge, hedge, 3, hlow, hhigh, rfl⟩

end SegmentGraph

end Oxpinyin
