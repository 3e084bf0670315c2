import Oxpinyin.KBestSweep

/-!
# The k-best search is exact

`kBestTo_spec` : on a well-formed graph the result is the `k` cheapest paths to the
target, each with its own cost, ascending and with ties in order of the last edge, unless
the ids or the entries outgrow 32 bits. `kBestTo_tooManyEdges` : the longest inputs do
outgrow them.
-/

namespace Oxpinyin

namespace KBest

open List Selection SegmentGraph

/-! ## The specification -/

/-- The paths that end with edge `id`, given the paths to each node. -/
def pathsVia (graph : SegmentGraph) (paths : Nat → List (List Nat)) (id : Nat) :
    List (List Nat) :=
  match graph.edges[id]? with
  | some edge => (paths edge.from_).map (· ++ [id])
  | none => []

/-- Every path to `v` whose nodes lie below `bound`, by brute force. -/
def pathsBelow (graph : SegmentGraph) : Nat → Nat → List (List Nat)
  | 0, _ => []
  | bound + 1, v =>
    (if v = 0 then [[]] else []) ++
      (graph.idsWhere (·.to_ == v)).flatMap (pathsVia graph (pathsBelow graph bound))

/-- Every path from node `0` to `target`. -/
def allPaths (graph : SegmentGraph) (target : Nat) : List (List Nat) :=
  pathsBelow graph (target + 1) target

/-- The listed paths are the paths. -/
theorem mem_pathsBelow {graph : SegmentGraph} (hvalid : graph.Valid) : ∀ {bound v : Nat}
    {p : List Nat}, v < bound → (p ∈ pathsBelow graph bound v ↔ PathTo graph p v)
  | bound + 1, v, p, hv => by
    unfold pathsBelow
    rw [mem_append, mem_flatMap]
    constructor
    · rintro (hp | ⟨id, hid, hp⟩)
      · split_ifs at hp with hzero
        · rw [mem_singleton.mp hp, hzero]
          exact .nil
        · simp at hp
      · obtain ⟨edge, hedge, hto⟩ := mem_idsWhere.mp hid
        have hto' := beq_iff_eq.mp hto
        simp only [pathsVia, hedge, mem_map] at hp
        obtain ⟨q, hq, rfl⟩ := hp
        have hforward := hvalid.forward edge (mem_of_getElem? hedge)
        rw [← hto']
        exact .snoc ((mem_pathsBelow hvalid (by omega)).mp hq) hedge
    · intro hp
      cases hp with
      | nil => simp
      | @snoc q id edge hq hedge =>
        have hforward := hvalid.forward edge (mem_of_getElem? hedge)
        refine Or.inr ⟨id, mem_idsWhere.mpr ⟨edge, hedge, by simp⟩, ?_⟩
        simp only [pathsVia, hedge, mem_map]
        exact ⟨q, (mem_pathsBelow hvalid (by omega)).mpr hq, rfl⟩

theorem getLast?_pathsVia {graph : SegmentGraph} {paths : Nat → List (List Nat)} {id : Nat}
    {p : List Nat} (hp : p ∈ pathsVia graph paths id) : p.getLast? = some id := by
  unfold pathsVia at hp
  cases hedge : graph.edges[id]? with
  | none => simp [hedge] at hp
  | some edge =>
    simp only [hedge, mem_map] at hp
    obtain ⟨q, _, rfl⟩ := hp
    exact getLast?_concat

/-- Each path is listed once. -/
theorem nodup_pathsBelow (graph : SegmentGraph) : ∀ (bound v : Nat),
    (pathsBelow graph bound v).Nodup
  | 0, _ => nodup_nil
  | bound + 1, v => by
    unfold pathsBelow
    rw [nodup_append]
    refine ⟨by split_ifs <;> simp, ?_, ?_⟩
    · rw [nodup_flatMap]
      refine ⟨fun id _ => ?_, ?_⟩
      · unfold pathsVia
        cases graph.edges[id]? with
        | none => exact nodup_nil
        | some edge =>
          exact (nodup_pathsBelow graph bound edge.from_).map fun a b hab => append_cancel_right hab
      · refine (pairwise_idsWhere graph _).imp fun {a b} hlt p hp hp' => ?_
        have := Option.some.inj ((getLast?_pathsVia hp).symm.trans (getLast?_pathsVia hp'))
        omega
    · rintro p hp q hq rfl
      obtain ⟨id, _, hid⟩ := mem_flatMap.mp hq
      have hsome := getLast?_pathsVia hid
      split_ifs at hp
      · rw [mem_singleton.mp hp] at hsome
        cases hsome
      · simp at hp

/-- The `k` best paths to `target`. -/
structure IsResult (graph : SegmentGraph) (scorer : EdgeCost) (k target : Nat)
    (found : List DecodedPath) : Prop where
  /-- No path twice. -/
  distinct : (found.map (·.edges)).Nodup
  /-- Every result is a path to the target. -/
  real : ∀ d ∈ found, PathTo graph d.edges target
  /-- Its cost is the saturating left fold of its edge costs. -/
  cost : ∀ d ∈ found, d.cost = pathCost graph scorer d.edges
  /-- The costs are the `k` smallest of all, ascending. -/
  costs : found.map (·.cost) =
    (((allPaths graph target).map (pathCost graph scorer)).mergeSort fun a b => decide (a ≤ b)).take k
  /-- Equal costs are in order of the last edge. -/
  ties : found.Pairwise fun a b => a.cost = b.cost →
    ∀ i ∈ a.edges.getLast?, ∀ j ∈ b.edges.getLast?, i ≤ j

section Result

variable {graph : SegmentGraph} {scorer : EdgeCost} {k target : Nat}

theorem isResult_nil (hnone : k = 0 ∨ ∀ p, ¬ PathTo graph p target) (hvalid : graph.Valid) :
    IsResult graph scorer k target [] := by
  refine ⟨by simp, by simp, by simp, ?_, by simp⟩
  rcases hnone with rfl | hnone
  · simp
  · have hempty : allPaths graph target = [] := by
      refine eq_nil_iff_forall_not_mem.mpr fun p hp => hnone p ?_
      exact (mem_pathsBelow hvalid (Nat.lt_succ_self _)).mp hp
    simp [hempty]

theorem PathTo.lt_nodeCount (hvalid : graph.Valid) {p : List Nat} {v : Nat}
    (h : PathTo graph p v) : v < graph.nodeCount := by
  cases h with
  | nil => exact Nat.succ_pos _
  | snoc _ hedge => exact hvalid.inside _ (mem_of_getElem? hedge)

/-- The `k` best paths, reconstructed, are a result. -/
theorem isResult_of_isKBest (hvalid : graph.Valid) {best : List (List Nat)}
    (h : IsKBest k (pathCost graph scorer) {p | PathTo graph p target} best)
    (hties : best.Pairwise fun a b => pathCost graph scorer a < pathCost graph scorer b ∨
      pathCost graph scorer a = pathCost graph scorer b ∧ stateOf a ≤ stateOf b) :
    IsResult graph scorer k target (best.map fun p => ⟨pathCost graph scorer p, p⟩) := by
  refine ⟨?_, ?_, ?_, ?_, ?_⟩
  · simpa only [map_map, Function.comp_def, map_id'] using h.nodup
  · intro d hd
    obtain ⟨p, hp, rfl⟩ := mem_map.mp hd
    exact h.subset p hp
  · intro d hd
    obtain ⟨p, _, rfl⟩ := mem_map.mp hd
    rfl
  · rw [map_map]
    exact h.map_cost_eq (nodup_pathsBelow graph (target + 1) target)
      fun p => mem_pathsBelow hvalid (Nat.lt_succ_self _)
  · refine pairwise_map.mpr (hties.imp fun {a b} hab heq i hi j hj => ?_)
    rcases hab with hlt | ⟨_, hle⟩
    · exact absurd heq hlt.ne
    · unfold stateOf at hle
      rw [Option.mem_def.mp hi, Option.mem_def.mp hj] at hle
      dsimp only at hle
      omega

/-- Reading the finalists of a finished sweep. -/
theorem isResult_finalists {incoming : Incoming} (hvalid : graph.Valid)
    (hin : incomingIndex graph = .ok incoming) (htarget : target < graph.nodeCount)
    {sweep : Sweep} {paths : List (List Nat)} (h : Swept graph scorer k target target sweep paths) :
    IsResult graph scorer k target
      ((finalists incoming k target (rankStates k (statesAt incoming target) sweep)).map
        (reconstruct (rankStates k (statesAt incoming target) sweep).arena)) := by
  have hstates := pairwise_statesAt hvalid hin htarget
  obtain ⟨htraced, _, _⟩ := rankStates_traced k (hstates.imp ne_of_lt) h.traced
  have hbest := h.rank hvalid hin htarget (le_refl _)
  generalize rankStates k (statesAt incoming target) sweep = ranked at htraced hbest ⊢
  have hcover := Covers.flatMap (@arrivals_disjoint graph _ hstates) fun s hs => (hbest s hs).covers
  have hset : {p | ∃ s ∈ statesAt incoming target, p ∈ Arrivals graph s} =
      {p | PathTo graph p target} := by
    ext p
    exact exists_statesAt_iff hvalid hin htarget
  rw [hset] at hcover
  have hsorted : ((statesAt incoming target).flatMap (bucketPaths ranked paths)).Pairwise
      fun a b => stateOf a ≤ stateOf b := by
    rw [pairwise_flatMap]
    refine ⟨fun s hs => ?_, hstates.imp_of_mem fun {s s'} hs hs' hlt a ha b hb => ?_⟩
    · refine pairwise_of_forall_mem_list fun a ha b hb => ?_
      rw [((hbest s hs).subset a ha).2, ((hbest s hs).subset b hb).2]
    · rw [((hbest s hs).subset a ha).2, ((hbest s' hs').subset b hb).2]
      exact hlt.le
  have hties := (@pairwise_ties _ _ _ (pathCost graph scorer) _ _ hsorted hcover.nodup).sublist (take_sublist k _)
  have hbounded : ∀ i ∈ (statesAt incoming target).flatMap fun s => ranked.buckets.getD s [],
      i < ranked.arena.length := by
    intro i hi
    obtain ⟨s, _, his⟩ := mem_flatMap.mp hi
    exact htraced.bounded s i his
  have hread : (finalists incoming k target ranked).map (reconstruct ranked.arena) =
      ((finalists incoming k target ranked).map fun i => paths.getD i []).map
        fun p => ⟨pathCost graph scorer p, p⟩ := by
    rw [map_map]
    refine map_congr_left fun i hi => ?_
    have hpath := htraced.getElem?_paths (hbounded i ((perm_sortByCost _).mem_iff.mp (mem_of_mem_take hi)))
    simp only [reconstruct, Function.comp_apply, htraced.backpointers_eq i hpath (i + 1)
      (Nat.lt_succ_self i), reverse_reverse, entryCost, (htraced.getElem?_entry hpath).1]
  rw [hread, finalists, map_rankBucket htraced k hbounded, map_flatMap]
  exact isResult_of_isKBest hvalid hcover.isKBest hties

/-- The k-best search returns the `k` best paths, unless the graph has more edges than
32-bit ids or the sweep more entries than 32-bit indexes. -/
theorem kBestTo_spec (graph : SegmentGraph) (hvalid : graph.Valid) (scorer : EdgeCost)
    (k target : Nat) (hk : k ≤ maxK) :
    match kBestTo graph scorer k target with
    | .ok found => IsResult graph scorer k target found
    | .error e => 0 < k ∧ target < graph.nodeCount ∧
        ((e = .tooManyEdges graph.edges.length ∧ 2 ^ 32 ≤ graph.edges.length) ∨
          (e = .tooManyEntries k ∧ 2 ^ 32 ≤ entryBound graph k target)) := by
  unfold kBestTo
  rw [if_neg (not_lt.mpr hk)]
  by_cases hnone : k = 0 ∨ graph.nodeCount ≤ target
  · rw [if_pos hnone]
    refine isResult_nil (hnone.imp_right fun hle p hp => ?_) hvalid
    exact absurd (hp.lt_nodeCount hvalid) (not_lt.mpr hle)
  · rw [if_neg hnone]
    have hpos : 0 < k := by omega
    have htarget : target < graph.nodeCount := by omega
    cases hin : incomingIndex graph with
    | error e =>
      unfold incomingIndex at hin
      split_ifs at hin with hedges
      obtain rfl := Except.error.inj hin
      exact ⟨hpos, htarget, Or.inl ⟨rfl, hedges⟩⟩
    | ok incoming =>
      have hsweep := sweep_spec hvalid hin hpos scorer (le_refl target) htarget.le
      change match (sweepTo graph scorer k target incoming >>= fun sweep =>
        .ok ((finalists incoming k target sweep).map (reconstruct sweep.arena))) with
        | .ok found => _
        | .error e => _
      unfold sweepTo
      cases hres : (List.range target).foldlM (sweepNode graph scorer k target incoming)
          ⟨[⟨0, none, none⟩], [0] :: List.replicate graph.edges.length []⟩ with
      | error e =>
        rw [hres] at hsweep
        exact ⟨hpos, htarget, Or.inr hsweep⟩
      | ok sweep =>
        rw [hres] at hsweep
        obtain ⟨⟨paths, hswept⟩, _⟩ := hsweep
        exact isResult_finalists hvalid hin htarget hswept

/-- The search over the readings of `xian`. -/
theorem kBestTo_xian : ∃ graph, buildWithOptions (ascii "xian") default = .ok graph ∧
    match kBestTo graph (fun _ _ => 1) 2 4 with
    | .ok found => IsResult graph (fun _ _ => 1) 2 4 found
    | .error e => 0 < 2 ∧ 4 < graph.nodeCount ∧
        ((e = .tooManyEdges graph.edges.length ∧ 2 ^ 32 ≤ graph.edges.length) ∨
          (e = .tooManyEntries 2 ∧ 2 ^ 32 ≤ entryBound graph 2 4)) := by
  obtain ⟨graph, hgraph⟩ := (exists_buildWithOptions_iff (ascii "xian") default).mpr (by decide)
  exact ⟨graph, hgraph, kBestTo_spec graph (valid_buildWithOptions hgraph) (fun _ _ => 1) 2 4
    (by decide)⟩

end Result

/-! ## A graph with too many edges -/

section Large

/-- The text `an`, `n` times. -/
def repeatedAn (n : Nat) : Bytes :=
  (List.replicate n (ascii "an")).flatten

theorem repeatedAn_add (m n : Nat) : repeatedAn (m + n) = repeatedAn m ++ repeatedAn n := by
  unfold repeatedAn
  rw [replicate_add, flatten_append]

theorem length_repeatedAn (n : Nat) : (repeatedAn n).length = 2 * n := by
  unfold repeatedAn
  rw [length_flatten, map_replicate, sum_replicate]
  simp [ascii, Nat.mul_comm]

/-- Four bytes or more from the end the text reads `anan` or `nana`. -/
theorem drop_repeatedAn {n j : Nat} (hj : j + 4 ≤ 2 * n) :
    ∃ rest, (repeatedAn n).drop j = ascii "anan" ++ rest ∨ (repeatedAn n).drop j = ascii "nana" ++ rest := by
  have hsplit : ∀ i m, (repeatedAn (i + m)).drop (2 * i) = repeatedAn m := by
    intro i m
    rw [repeatedAn_add, drop_left' (length_repeatedAn i)]
  rcases Nat.even_or_odd' j with ⟨i, rfl | rfl⟩
  · obtain ⟨m, rfl⟩ := Nat.exists_eq_add_of_le (show i + 2 ≤ n by omega)
    refine ⟨repeatedAn m, Or.inl ?_⟩
    rw [Nat.add_assoc, hsplit, repeatedAn_add]
    congr 1
  · obtain ⟨m, rfl⟩ := Nat.exists_eq_add_of_le (show i + 3 ≤ n by omega)
    refine ⟨ascii "n" ++ repeatedAn m, Or.inr ?_⟩
    rw [← drop_drop, Nat.add_assoc, hsplit, repeatedAn_add, ← append_assoc, drop_append_of_le_length (by decide)]
    congr 1

theorem lowercase_repeatedAn (n : Nat) : (repeatedAn n).all isAsciiLowercase = true := by
  unfold repeatedAn
  rw [all_flatten, all_replicate]
  simp [show (ascii "an").all isAsciiLowercase = true by decide]

/-- A lowercase span with a spelling in the inventory makes an edge. -/
theorem exists_spanEdge {n j l : Nat} {text rest : Bytes} (hdrop : (repeatedAn n).drop j = text ++ rest)
    (hfit : j + l ≤ 2 * n) (hpos : 0 < l) (hmax : l ≤ maxSyllableLen + 1) (hl : l ≤ text.length)
    (hlen : 2 * n < 2 ^ 32)
    (hkey : (SyllableKey.fromOptionTextWithDistance (text.take l) default).isSome = true) :
    ∃ edge ∈ edgesAt (repeatedAn n) default j, edge.to_ = j + l := by
  have hrun := @runEnd_apostrophe_of_lowercase (repeatedAn n) (lowercase_repeatedAn n) j
  have hslice : slice (repeatedAn n) j l = text.take l := by
    rw [slice, hdrop, take_append_of_le_length hl]
  obtain ⟨found, hfound⟩ := Option.isSome_iff_exists.mp hkey
  have hlength := length_repeatedAn n
  have hspan : parsedSpan (repeatedAn n) default j l = some (found.1, 0, found.2) := by
    rw [parsedSpan_of_lowercase (by simp) (by omega) hpos hmax
      (all_slice (lowercase_repeatedAn n) j l), hslice, hfound]
    rfl
  refine ⟨⟨j, j + l, j, found.1, spanKind (repeatedAn n) default j l found.1, 0, found.2⟩,
    mem_edgesAt.mpr ⟨?_, l, hpos, hmax, ?_⟩, rfl⟩
  · rw [hrun]
    omega
  · rw [hrun]
    simp only [spanEdge, hspan, Option.bind_some]
    rw [if_pos (by omega)]

theorem two_le_length_edgesAt {n j : Nat} (hj : j + 4 ≤ 2 * n) (hlen : 2 * n < 2 ^ 32) :
    2 ≤ (edgesAt (repeatedAn n) default j).length := by
  have htwo : ∀ a ∈ edgesAt (repeatedAn n) default j, ∀ b ∈ edgesAt (repeatedAn n) default j,
      a.to_ ≠ b.to_ → 2 ≤ (edgesAt (repeatedAn n) default j).length := by
    intro a ha b hb hne
    have hsub : [a, b] ⊆ edgesAt (repeatedAn n) default j := by simp [ha, hb]
    have hnodup : [a, b].Nodup := by
      simp only [nodup_cons, mem_singleton, not_mem_nil, not_false_eq_true, nodup_nil, and_true]
      rintro rfl
      exact hne rfl
    exact (hnodup.subperm hsub).length_le
  obtain ⟨rest, hdrop | hdrop⟩ := drop_repeatedAn hj
  · obtain ⟨a, ha, hato⟩ := exists_spanEdge (l := 1) hdrop (by omega) (by decide) (by decide)
      (by decide) hlen (by decide +kernel)
    obtain ⟨b, hb, hbto⟩ := exists_spanEdge (l := 2) hdrop (by omega) (by decide) (by decide)
      (by decide) hlen (by decide +kernel)
    exact htwo a ha b hb (by omega)
  · obtain ⟨a, ha, hato⟩ := exists_spanEdge (l := 2) hdrop (by omega) (by decide) (by decide)
      (by decide) hlen (by decide +kernel)
    obtain ⟨b, hb, hbto⟩ := exists_spanEdge (l := 3) hdrop (by omega) (by decide) (by decide)
      (by decide) hlen (by decide +kernel)
    exact htwo a ha b hb (by omega)

theorem two_mul_le_offset {n : Nat} (hlen : 2 * n < 2 ^ 32) : ∀ {j : Nat}, j + 3 ≤ 2 * n →
    2 * j ≤ offset (repeatedAn n) default j
  | 0, _ => Nat.zero_le _
  | j + 1, hj => by
    have ih := two_mul_le_offset hlen (show j + 3 ≤ 2 * n by omega)
    have hnode := two_le_length_edgesAt (show j + 4 ≤ 2 * n by omega) hlen
    rw [offset_succ]
    omega

/-- The longest input a graph takes can have more edges than 32-bit ids : the search for
the empty path to node `0` then fails. -/
theorem kBestTo_tooManyEdges : ∃ graph,
    buildWithOptions (repeatedAn (2 ^ 31 - 1)) default = .ok graph ∧
    kBestTo graph (fun _ _ => 0) 1 0 = .error (.tooManyEdges graph.edges.length) ∧
    ¬ ∃ found, kBestTo graph (fun _ _ => 0) 1 0 = .ok found ∧
      IsResult graph (fun _ _ => 0) 1 0 found := by
  have hlen : (repeatedAn (2 ^ 31 - 1)).length = 2 ^ 32 - 2 := by
    rw [length_repeatedAn]
    norm_num
  obtain ⟨graph, hgraph⟩ := (exists_buildWithOptions_iff (repeatedAn (2 ^ 31 - 1)) default).mpr
    (by rw [hlen]; decide)
  have hmany : 2 ^ 32 ≤ graph.edges.length := by
    obtain ⟨_, hedges, _⟩ := tables_buildWithOptions hgraph
    have hle := @two_mul_le_offset (2 ^ 31 - 1) (by norm_num) (2 ^ 32 - 5) (by norm_num)
    have hmono := @offset_mono (repeatedAn (2 ^ 31 - 1)) default (2 ^ 32 - 5)
      ((repeatedAn (2 ^ 31 - 1)).length + 1) (by rw [hlen]; norm_num)
    rw [hedges]
    refine le_trans ?_ (hle.trans hmono)
    norm_num
  have herror : kBestTo graph (fun _ _ => 0) 1 0 = .error (.tooManyEdges graph.edges.length) := by
    unfold kBestTo
    rw [if_neg (by decide), if_neg (by unfold nodeCount; omega)]
    unfold incomingIndex
    rw [if_pos hmany]
    rfl
  refine ⟨graph, hgraph, herror, ?_⟩
  rintro ⟨found, hok, _⟩
  rw [herror] at hok
  cases hok

end Large

end KBest

end Oxpinyin
