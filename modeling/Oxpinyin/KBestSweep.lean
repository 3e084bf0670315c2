import Oxpinyin.KBest

/-!
# The k-best sweep keeps candidates enough

The paths of a graph are lists of edge ids, and the cost of one is the saturating left fold
of its edge costs. Two paths that end with the same edge are extended at the same price, so
the order of their costs survives the extension (`pathCost_mono`); ranking the states and
cutting them to `k` therefore loses nothing (`Swept`, kept by every node of the sweep).
`Traced` ties the arena to the paths its entries stand for.

`sweep_spec` : a sweep that stops before node `n` holds candidates enough for every edge
taken so far, or has outgrown 32 bits.
-/

namespace Oxpinyin

namespace KBest

open List Option Selection SegmentGraph

/-! ## Paths -/

/-- A path from node `0` to `v`, as the ids of its edges. -/
inductive PathTo (graph : SegmentGraph) : List Nat → Nat → Prop
  | nil : PathTo graph [] 0
  | snoc {path : List Nat} {id : Nat} {edge : Edge} : PathTo graph path edge.from_ →
      graph.edges[id]? = some edge → PathTo graph (path ++ [id]) edge.to_

/-- Adds one edge to a cost and the edge before it. -/
def pathStep (graph : SegmentGraph) (scorer : EdgeCost) (state : Int × Option Edge) (id : Nat) :
    Int × Option Edge :=
  match graph.edges[id]? with
  | some edge => (satAdd state.1 (scorer state.2 edge), some edge)
  | none => state

/-- The saturating left fold of the edge costs of a path. -/
def pathCost (graph : SegmentGraph) (scorer : EdgeCost) (path : List Nat) : Int :=
  (path.foldl (pathStep graph scorer) (0, none)).1

/-- The state a path arrives in. -/
def stateOf (path : List Nat) : Nat :=
  match path.getLast? with
  | none => 0
  | some id => id + 1

/-- The paths that arrive in a state. -/
def Arrivals (graph : SegmentGraph) (state : Nat) : Set (List Nat) :=
  {path | (∃ v, PathTo graph path v) ∧ stateOf path = state}

section Paths

variable {graph : SegmentGraph} {scorer : EdgeCost} {path : List Nat} {v id : Nat} {edge : Edge}

@[simp] theorem stateOf_append (path : List Nat) (id : Nat) : stateOf (path ++ [id]) = id + 1 := by
  simp [stateOf]

theorem pathFold_snd (h : PathTo graph path v) :
    (path.foldl (pathStep graph scorer) (0, none)).2 =
      path.getLast?.bind fun id => graph.edges[id]? := by
  cases h with
  | nil => rfl
  | snoc _ hedge =>
    rw [foldl_append, getLast?_concat]
    simp [pathStep, hedge]

/-- The cost of a path with one edge more. -/
theorem pathCost_append (h : PathTo graph path v) (hedge : graph.edges[id]? = some edge) :
    pathCost graph scorer (path ++ [id]) =
      satAdd (pathCost graph scorer path) (scorer (path.getLast?.bind fun id => graph.edges[id]?) edge) := by
  unfold pathCost
  rw [foldl_append, foldl_cons, foldl_nil, ← @pathFold_snd graph scorer path v h]
  simp only [pathStep, hedge]

theorem satAdd_mono {a b : Int} (c : Int) (h : a ≤ b) : satAdd a c ≤ satAdd b c := by
  unfold satAdd
  omega

theorem getLast?_of_stateOf {p q : List Nat} (h : stateOf p = stateOf q) : p.getLast? = q.getLast? := by
  unfold stateOf at h
  cases hp : p.getLast? <;> cases hq : q.getLast? <;> simp_all

/-- Paths that end with the same edge keep the order of their costs. -/
theorem pathCost_mono {p q : List Nat} {state : Nat} (hp : p ∈ Arrivals graph state)
    (hq : q ∈ Arrivals graph state) (hedge : graph.edges[id]? = some edge)
    (hle : pathCost graph scorer p ≤ pathCost graph scorer q) :
    pathCost graph scorer (p ++ [id]) ≤ pathCost graph scorer (q ++ [id]) := by
  obtain ⟨⟨v, hpv⟩, hps⟩ := hp
  obtain ⟨⟨w, hqw⟩, hqs⟩ := hq
  rw [pathCost_append hpv hedge, pathCost_append hqw hedge, getLast?_of_stateOf (hps.trans hqs.symm)]
  exact satAdd_mono _ hle

/-- The node at which a path ends is that of its state. -/
theorem PathTo.stateOf_cases (h : PathTo graph path v) :
    (v = 0 ∧ path = []) ∨
      ∃ id edge, graph.edges[id]? = some edge ∧ edge.to_ = v ∧ stateOf path = id + 1 := by
  cases h with
  | nil => exact Or.inl ⟨rfl, rfl⟩
  | snoc _ hedge => exact Or.inr ⟨_, _, hedge, rfl, stateOf_append _ _⟩

end Paths

/-! ## The states at a node -/

section States

variable {graph : SegmentGraph} {incoming : Incoming} {node state : Nat}

theorem positions_map_eq (edges : List Edge) (node : Nat) :
    Buckets.positions (edges.map (·.to_)) node =
      (range edges.length).filter fun id => (edges[id]?).any (·.to_ == node) := by
  unfold Buckets.positions
  rw [length_map]
  refine filter_congr fun id _ => ?_
  rw [getElem?_map]
  cases edges[id]? with
  | none => rfl
  | some edge => simp [Bool.beq_eq_decide_eq]

variable (hvalid : graph.Valid) (h : incomingIndex graph = .ok incoming) (hnode : node < graph.nodeCount)
include hvalid h hnode

/-- The states at a node : the start, and the edges entering it. -/
theorem statesAt_eq :
    statesAt incoming node = (if node = 0 then [0] else []) ++ (graph.idsWhere (·.to_ == node)).map (· + 1) := by
  unfold incomingIndex at h
  split_ifs at h
  obtain rfl := Except.ok.inj h
  have hbound : ∀ v ∈ graph.edges.map (·.to_), v < graph.nodeCount := by
    intro v hv
    obtain ⟨edge, hedge, rfl⟩ := List.mem_map.mp hv
    exact hvalid.inside edge hedge
  have hget := fun v (hv : v ≤ graph.nodeCount) =>
    Buckets.getElem?_accumulate graph.nodeCount (graph.edges.map (·.to_)) hv
  unfold statesAt idsWhere
  dsimp only
  rw [hget node hnode.le, hget (node + 1) hnode, ← positions_map_eq]
  dsimp only
  rw [Buckets.slice_index hbound hnode]

theorem mem_statesAt :
    state ∈ statesAt incoming node ↔ (node = 0 ∧ state = 0) ∨
      ∃ id edge, graph.edges[id]? = some edge ∧ edge.to_ = node ∧ state = id + 1 := by
  rw [statesAt_eq hvalid h hnode, mem_append, List.mem_map]
  refine or_congr ?_ ?_
  · split_ifs with hzero <;> simp [hzero]
  · simp only [mem_idsWhere, beq_iff_eq]
    constructor
    · rintro ⟨id, ⟨edge, hedge, hto⟩, rfl⟩
      exact ⟨id, edge, hedge, hto, rfl⟩
    · rintro ⟨id, edge, hedge, hto, rfl⟩
      exact ⟨id, ⟨edge, hedge, hto⟩, rfl⟩

theorem pairwise_statesAt : (statesAt incoming node).Pairwise (· < ·) := by
  rw [statesAt_eq hvalid h hnode, pairwise_append]
  refine ⟨by split_ifs <;> simp, ?_, ?_⟩
  · exact pairwise_map.mpr ((pairwise_idsWhere graph _).imp fun hlt => by omega)
  · intro a ha b hb
    obtain ⟨id, _, rfl⟩ := mem_map.mp hb
    split_ifs at ha
    · rw [mem_singleton.mp ha]
      omega
    · simp at ha

end States

/-! ## The paths behind the entries -/

section Sweeps

variable {graph : SegmentGraph} {scorer : EdgeCost} {k target node : Nat}

/-- The paths the entries of a sweep stand for. -/
structure Traced (graph : SegmentGraph) (scorer : EdgeCost) (sweep : Sweep)
    (paths : List (List Nat)) : Prop where
  /-- One path an entry. -/
  length_paths : paths.length = sweep.arena.length
  /-- One bucket a state. -/
  length_buckets : sweep.buckets.length = graph.edges.length + 1
  /-- Buckets hold entries. -/
  bounded : ∀ state, ∀ i ∈ sweep.buckets.getD state [], i < sweep.arena.length
  /-- An entry has the cost and the last edge of its path. -/
  entry : ∀ (i : Nat) (e : Entry) (p : List Nat), sweep.arena[i]? = some e → paths[i]? = some p →
    e.cost = pathCost graph scorer p ∧ e.last = p.getLast?
  /-- An entry points at the entry of the path without the last edge. -/
  link : ∀ (i : Nat) (e : Entry) (p : List Nat), sweep.arena[i]? = some e → paths[i]? = some p →
    (e.previous = none ∧ p = []) ∨
      ∃ j q id, e.previous = some j ∧ j < i ∧ paths[j]? = some q ∧ p = q ++ [id]

/-- The paths in the bucket of a state. -/
def bucketPaths (sweep : Sweep) (paths : List (List Nat)) (state : Nat) : List (List Nat) :=
  (sweep.buckets.getD state []).map fun i => paths.getD i []

variable {sweep : Sweep} {paths : List (List Nat)}

/-- Walking backpointers spells the path. -/
theorem Traced.backpointers_eq (h : Traced graph scorer sweep paths) : ∀ (i : Nat)
    {p : List Nat}, paths[i]? = some p →
    ∀ fuel, i < fuel → backpointers sweep.arena fuel (some i) = p.reverse := by
  intro i
  induction i using Nat.strongRecOn with
  | ind i ih =>
    intro p hp fuel hfuel
    obtain ⟨fuel, rfl⟩ := Nat.exists_eq_add_of_lt hfuel
    have hlt : i < sweep.arena.length := by
      rw [← h.length_paths]
      exact (List.getElem?_eq_some_iff.mp hp).1
    have he := getElem?_eq_getElem hlt
    obtain ⟨_, hlast⟩ := h.entry i _ p he hp
    simp only [backpointers, getD_eq_getElem?_getD, he, getD_some, hlast]
    rcases h.link i _ p he hp with ⟨hnone, rfl⟩ | ⟨j, q, id, hprev, hj, hq, rfl⟩
    · rw [hnone]
      simp [backpointers]
    · rw [hprev, ih j hj hq _ (by omega)]
      simp

/-- Extending a sweep : what a bucket gains and how much the arena grows. -/
def Extends (graph : SegmentGraph) (scorer : EdgeCost) (k : Nat) (sweep : Sweep)
    (paths : List (List Nat)) (gain : Nat → List (List Nat)) (growth : Nat) :
    Except DecodeError Sweep → Prop
  | .ok next => ∃ paths', Traced graph scorer next paths' ∧ paths <+: paths' ∧
      (∀ state, bucketPaths next paths' state = bucketPaths sweep paths state ++ gain state) ∧
      next.arena.length ≤ sweep.arena.length + growth
  | .error e => e = .tooManyEntries k ∧ 2 ^ 32 ≤ sweep.arena.length + growth

open Extends

theorem Extends.refl (h : Traced graph scorer sweep paths) (growth : Nat) :
    Extends graph scorer k sweep paths (fun _ => []) growth (.ok sweep) :=
  ⟨paths, h, prefix_refl _, by simp, Nat.le_add_right _ _⟩

variable {growth : Nat}

variable {gain : Nat → List (List Nat)} {growth' : Nat} {result : Except DecodeError Sweep}

/-- Two steps of a sweep in a row. -/
theorem Extends.bind {gain' : Nat → List (List Nat)}
    {f : Sweep → Except DecodeError Sweep} (h : Extends graph scorer k sweep paths gain growth result)
    (hf : ∀ next paths', Traced graph scorer next paths' → paths <+: paths' →
      (∀ state, bucketPaths next paths' state = bucketPaths sweep paths state ++ gain state) →
      Extends graph scorer k next paths' gain' growth' (f next)) :
    Extends graph scorer k sweep paths (fun state => gain state ++ gain' state)
      (growth + growth') (result >>= f) := by
  cases result with
  | error e => exact ⟨h.1, by have := h.2; omega⟩
  | ok next =>
    obtain ⟨paths', htraced, hpre, hgain, hlen⟩ := h
    have hnext := hf next paths' htraced hpre hgain
    change Extends _ _ _ _ _ _ _ (f next)
    cases hres : f next with
    | error e =>
      rw [hres] at hnext
      exact ⟨hnext.1, by have := hnext.2; omega⟩
    | ok last =>
      rw [hres] at hnext
      obtain ⟨paths'', htraced', hpre', hgain', hlen'⟩ := hnext
      refine ⟨paths'', htraced', hpre.trans hpre', fun state => ?_, by omega⟩
      rw [hgain', hgain, append_assoc]

/-- A loop extends by what its steps gain. -/
theorem Extends.foldlM {ι : Type} {f : Sweep → ι → Except DecodeError Sweep} {l : List ι}
    {gain : ι → Nat → List (List Nat)} (htraced : Traced graph scorer sweep paths) (keep : Nat → Prop)
    (hgain : ∀ i ∈ l, ∀ state, keep state → gain i state = [])
    (hf : ∀ i ∈ l, ∀ next paths', Traced graph scorer next paths' → paths <+: paths' →
      (∀ state, keep state → bucketPaths next paths' state = bucketPaths sweep paths state) →
      Extends graph scorer k next paths' (gain i) growth (f next i)) :
    Extends graph scorer k sweep paths (fun state => l.flatMap fun i => gain i state)
      (l.length * growth) (l.foldlM f sweep) := by
  suffices hgeneral : ∀ (l' : List ι), l' ⊆ l → ∀ next paths', Traced graph scorer next paths' →
      paths <+: paths' →
      (∀ state, keep state → bucketPaths next paths' state = bucketPaths sweep paths state) →
      Extends graph scorer k next paths' (fun state => l'.flatMap fun i => gain i state)
        (l'.length * growth) (l'.foldlM f next) from
    hgeneral l (fun _ h => h) sweep paths htraced (prefix_refl _) fun _ _ => rfl
  intro l'
  induction l' with
  | nil => exact fun _ next paths' h _ _ => refl h _
  | cons i l' ih =>
    intro hsub next paths' h hpre hkeep
    have hi := hsub mem_cons_self
    have hstep := hf i hi next paths' h hpre hkeep
    rw [foldlM_cons, length_cons, Nat.succ_mul, Nat.add_comm]
    refine hstep.bind fun last paths'' h' hpre' hgain' => ?_
    refine ih (fun j hj => hsub (mem_cons_of_mem _ hj)) last paths'' h' (hpre.trans hpre') fun state hstate => ?_
    rw [hgain' state, hgain i hi state hstate, append_nil, hkeep state hstate]

/-! ## Extending -/

variable {slot : Nat} {entry : Entry}

variable {i : Nat}

/-- What the bucket of a state gains from extending `path` by `id`. -/
def gainOf (graph : SegmentGraph) (target : Nat) (path : List Nat) (id state : Nat) :
    List (List Nat) :=
  if state = id + 1 ∧ (graph.edges[id]?).any (·.to_ ≤ target) then [path ++ [id]] else []

theorem bucketPaths_of_isPrefix {paths' : List (List Nat)}
    (h : Traced graph scorer sweep paths) (hpre : paths <+: paths') (state : Nat) :
    (sweep.buckets.getD state []).map (fun i => paths'.getD i []) =
      bucketPaths sweep paths state := by
  refine map_congr_left fun i hi => ?_
  have hlt : i < paths.length := by
    rw [h.length_paths]
    exact h.bounded state i hi
  obtain ⟨rest, rfl⟩ := hpre
  rw [getD_eq_getElem?_getD, getD_eq_getElem?_getD, getElem?_append_left hlt]

theorem getD_modify_append {buckets : List (List Nat)} (hslot : slot < buckets.length)
    (index state : Nat) :
    (buckets.modify slot (· ++ [index])).getD state [] =
      buckets.getD state [] ++ if state = slot then [index] else [] := by
  rw [getD_eq_getElem?_getD, getD_eq_getElem?_getD, getElem?_modify]
  by_cases hs : slot = state
  · subst hs
    rw [getElem?_eq_getElem hslot]
    simp
  · simp [hs, Ne.symm hs]

/-- Pushing the entry of a path with one edge more. -/
theorem Traced.push {id : Nat} {path : List Nat} (h : Traced graph scorer sweep paths)
    (hi : paths[i]? = some path) (hslot : slot < sweep.buckets.length)
    (hcost : entry.cost = pathCost graph scorer (path ++ [id])) (hlast : entry.last = some id)
    (hprevious : entry.previous = some i) :
    Traced graph scorer ⟨sweep.arena ++ [entry],
      sweep.buckets.modify slot (· ++ [sweep.arena.length])⟩ (paths ++ [path ++ [id]]) where
  length_paths := by simp [h.length_paths]
  length_buckets := by simp [h.length_buckets]
  bounded state j hj := by
    dsimp only at hj ⊢
    rw [getD_modify_append hslot] at hj
    rw [length_append, length_singleton]
    rcases mem_append.mp hj with hj | hj
    · have := h.bounded state j hj
      omega
    · split_ifs at hj
      · rw [mem_singleton.mp hj]
        omega
      · simp at hj
  entry j e p he hp := by
    dsimp only at he
    rw [getElem?_append] at he hp
    rw [h.length_paths] at hp
    split_ifs at he hp with hj
    · exact h.entry j e p he hp
    · rw [getElem?_singleton] at he hp
      split_ifs at he hp
      obtain rfl := some.inj he
      obtain rfl := some.inj hp
      rw [getLast?_concat]
      exact ⟨hcost, hlast⟩
  link j e p he hp := by
    dsimp only at he
    rw [getElem?_append] at he hp
    rw [h.length_paths] at hp
    split_ifs at he hp with hj
    · rcases h.link j e p he hp with hnone | ⟨m, q, id', hprev, hm, hq, rfl⟩
      · exact Or.inl hnone
      · refine Or.inr ⟨m, q, id', hprev, hm, ?_, rfl⟩
        rw [getElem?_append_left (by rw [h.length_paths]; omega), hq]
    · rw [getElem?_singleton] at he hp
      split_ifs at he hp
      obtain rfl := some.inj he
      obtain rfl := some.inj hp
      have hlt := (List.getElem?_eq_some_iff.mp hi).1
      refine Or.inr ⟨i, path, id, hprevious, ?_, ?_, rfl⟩
      · rw [h.length_paths] at hlt
        omega
      · rw [getElem?_append_left hlt, hi]

/-- One entry extended by one edge. -/
theorem extendEntry_extends (k target id : Nat)
    {v : Nat} {path : List Nat} (h : Traced graph scorer sweep paths)
    (hi : paths[i]? = some path) (hpath : PathTo graph path v)
    (hcost : entry.cost = pathCost graph scorer path) (hlast : entry.last = path.getLast?) :
    Extends graph scorer k sweep paths (gainOf graph target path id) 1
      (extendEntry graph scorer k target i entry sweep id) := by
  unfold extendEntry
  cases hedge : graph.edges[id]? with
  | none =>
    have hgain : gainOf graph target path id = fun _ => [] := by
      funext state
      simp [gainOf, hedge]
    rw [hgain]
    exact refl h 1
  | some edge =>
    by_cases hover : target < edge.to_
    · have hgain : gainOf graph target path id = fun _ => [] := by
        funext state
        simp [gainOf, hedge, hover]
      rw [hgain]
      simp only [hover, if_true]
      exact refl h 1
    · simp only [hover, if_false]
      split_ifs with hfull
      · exact ⟨rfl, by omega⟩
      · have hslot : id + 1 < sweep.buckets.length := by
          rw [h.length_buckets]
          have := (List.getElem?_eq_some_iff.mp hedge).1
          omega
        refine ⟨paths ++ [path ++ [id]], h.push hi hslot ?_ rfl rfl, prefix_append _ _, fun state => ?_, by simp⟩
        · rw [pathCost_append hpath hedge, hcost, hlast]
        · unfold bucketPaths
          dsimp only
          rw [getD_modify_append hslot, map_append, bucketPaths_of_isPrefix h (prefix_append _ _)]
          unfold bucketPaths gainOf
          congr 1
          by_cases hs : state = id + 1
          · simp [hs, hedge, not_lt.mp hover, ← h.length_paths]
          · simp [hs]

theorem Extends.mono (hle : growth ≤ growth')
    (h : Extends graph scorer k sweep paths gain growth result) :
    Extends graph scorer k sweep paths gain growth' result := by
  cases result with
  | error e => exact ⟨h.1, by have := h.2; omega⟩
  | ok next =>
    obtain ⟨paths', htraced, hpre, hgain, hlen⟩ := h
    exact ⟨paths', htraced, hpre, hgain, by omega⟩

/-- What the bucket of a state gains from extending `path` by every edge leaving `node`. -/
def gainAt (graph : SegmentGraph) (target node : Nat) (path : List Nat) (state : Nat) :
    List (List Nat) :=
  (graph.outgoingIds node).flatMap fun id => gainOf graph target path id state

theorem Traced.getElem?_entry {sweep : Sweep} {paths : List (List Nat)} {i : Nat}
    {path : List Nat} (h : Traced graph scorer sweep paths) (hi : paths[i]? = some path) :
    (sweep.arena.getD i default).cost = pathCost graph scorer path ∧
      (sweep.arena.getD i default).last = path.getLast? := by
  have hlt : i < sweep.arena.length := by
    rw [← h.length_paths]
    exact (List.getElem?_eq_some_iff.mp hi).1
  rw [getD_eq_getElem?_getD, getElem?_eq_getElem hlt, getD_some]
  exact h.entry i _ path (getElem?_eq_getElem hlt) hi

theorem Traced.getElem?_paths {sweep : Sweep} {paths : List (List Nat)} {i : Nat}
    (h : Traced graph scorer sweep paths) (hi : i < sweep.arena.length) : paths[i]? = some (paths.getD i []) := by
  rw [← h.length_paths] at hi
  rw [getD_eq_getElem?_getD, getElem?_eq_getElem hi, getD_some]

theorem getElem?_of_isPrefix {l l' : List (List Nat)} (hpre : l <+: l') {i : Nat} {p : List Nat}
    (h : l[i]? = some p) : l'[i]? = some p := by
  obtain ⟨rest, rfl⟩ := hpre
  rw [getElem?_append_left (List.getElem?_eq_some_iff.mp h).1, h]

theorem extendAll_extends (k target : Nat)
    {path : List Nat} (h : Traced graph scorer sweep paths) (hi : paths[i]? = some path)
    (hpath : PathTo graph path node) :
    Extends graph scorer k sweep paths (gainAt graph target node path)
      (graph.outgoingIds node).length (extendAll graph scorer k target node sweep i) := by
  obtain ⟨hcost, hlast⟩ := h.getElem?_entry hi
  have hloop := foldlM (k := k) h (fun _ => False) (by simp)
    (fun id _ next paths' h' hpre _ =>
      extendEntry_extends k target id h'
        (getElem?_of_isPrefix hpre hi) hpath hcost hlast) (l := graph.outgoingIds node)
  rw [Nat.mul_one] at hloop
  exact hloop

/-- Every entry of a state extended by every edge leaving the node. -/
theorem extendState_extends {state : Nat} (h : Traced graph scorer sweep paths)
    (hpaths : ∀ p ∈ bucketPaths sweep paths state, PathTo graph p node) :
    Extends graph scorer k sweep paths
      (fun s => (bucketPaths sweep paths state).flatMap fun p => gainAt graph target node p s)
      ((bucketPaths sweep paths state).length * (graph.outgoingIds node).length)
      (extendState graph scorer k target node sweep state) := by
  have hget : ∀ i ∈ sweep.buckets.getD state [], paths[i]? = some (paths.getD i []) :=
    fun i hi => h.getElem?_paths (h.bounded state i hi)
  have hloop := foldlM (k := k) h (fun _ => False) (by simp)
    (fun i hi next paths' h' hpre _ =>
      extendAll_extends k target h'
        (getElem?_of_isPrefix hpre (hget i hi))
        (hpaths _ (mem_map_of_mem hi))) (l := sweep.buckets.getD state [])
  unfold bucketPaths extendState
  rw [length_map]
  simpa only [flatMap_map] using hloop

/-! ## Ranking -/

/-- Ranking entries ranks the paths they stand for. -/
theorem map_rankBucket (h : Traced graph scorer sweep paths) (k : Nat) {bucket : List Nat}
    (hbucket : ∀ i ∈ bucket, i < sweep.arena.length) :
    (rankBucket sweep.arena k bucket).map (fun i => paths.getD i []) =
      (sortByCost (pathCost graph scorer) (bucket.map fun i => paths.getD i [])).take k := by
  have hcost : ∀ i ∈ bucket, entryCost sweep.arena i = pathCost graph scorer (paths.getD i []) :=
    fun i hi => (h.getElem?_entry (h.getElem?_paths (hbucket i hi))).1
  unfold rankBucket sortByCost
  rw [map_take, map_mergeSort]
  intro a ha b hb
  rw [hcost a ha, hcost b hb]

/-- Ranking a bucket keeps what the paths stand for. -/
theorem rankState_traced (h : Traced graph scorer sweep paths) (k state : Nat) :
    Traced graph scorer { sweep with
        buckets := sweep.buckets.modify state (rankBucket sweep.arena k) } paths ∧
    ∀ s, bucketPaths { sweep with
        buckets := sweep.buckets.modify state (rankBucket sweep.arena k) } paths s =
      if s = state then (sortByCost (pathCost graph scorer) (bucketPaths sweep paths s)).take k
      else bucketPaths sweep paths s := by
  have hbucket : ∀ s, (sweep.buckets.modify state (rankBucket sweep.arena k)).getD s [] =
      if s = state then rankBucket sweep.arena k (sweep.buckets.getD s [])
      else sweep.buckets.getD s [] := by
    intro s
    rw [getD_eq_getElem?_getD, getD_eq_getElem?_getD, getElem?_modify]
    by_cases hs : state = s
    · subst hs
      simp only [if_true]
      cases sweep.buckets[state]? with
      | none => simp [rankBucket, sortByCost]
      | some bucket => rfl
    · simp [hs, Ne.symm hs]
  refine ⟨⟨h.length_paths, by simp [h.length_buckets], ?_, h.entry, h.link⟩, fun s => ?_⟩
  · intro s i hi
    dsimp only at hi
    rw [hbucket] at hi
    split_ifs at hi
    · exact h.bounded s i ((perm_sortByCost _).mem_iff.mp (mem_of_mem_take hi))
    · exact h.bounded s i hi
  · have hmap : bucketPaths { sweep with
        buckets := sweep.buckets.modify state (rankBucket sweep.arena k) } paths s =
      ((sweep.buckets.modify state (rankBucket sweep.arena k)).getD s []).map
        fun i => paths.getD i [] := rfl
    rw [hmap, hbucket]
    split_ifs
    · exact map_rankBucket h k (h.bounded s)
    · rfl

/-- Ranking the states at a node. -/
theorem rankStates_traced (k : Nat) {paths : List (List Nat)} : ∀ {states : List Nat}
    {sweep : Sweep}, states.Nodup → Traced graph scorer sweep paths →
    Traced graph scorer (rankStates k states sweep) paths ∧
    (rankStates k states sweep).arena = sweep.arena ∧
    ∀ s, bucketPaths (rankStates k states sweep) paths s =
      if s ∈ states then (sortByCost (pathCost graph scorer) (bucketPaths sweep paths s)).take k
      else bucketPaths sweep paths s
  | [], sweep, _, h => ⟨h, rfl, by simp [rankStates]⟩
  | state :: states, sweep, hnodup, h => by
    obtain ⟨hnew, htail⟩ := nodup_cons.mp hnodup
    obtain ⟨htraced, hpaths⟩ := rankState_traced h k state
    obtain ⟨hlast, harena, hrest⟩ := rankStates_traced k htail htraced
    refine ⟨hlast, harena, fun s => ?_⟩
    have hcons : rankStates k (state :: states) sweep = rankStates k states { sweep with
        buckets := sweep.buckets.modify state (rankBucket sweep.arena k) } := rfl
    rw [hcons, hrest, hpaths]
    by_cases hs : s = state
    · subst hs
      simp [hnew]
    · simp [hs]

/-! ## One node -/

variable {n : Nat}

/-- What the sweep has done before node `n`. -/
structure Swept (graph : SegmentGraph) (scorer : EdgeCost) (k target n : Nat) (sweep : Sweep)
    (paths : List (List Nat)) : Prop where
  /-- The entries stand for paths. -/
  traced : Traced graph scorer sweep paths
  /-- The start state holds the empty path. -/
  start : bucketPaths sweep paths 0 = [[]]
  /-- Edges taken before `n` that have not been passed hold candidates enough. -/
  pending : ∀ (id : Nat) (edge : Edge), graph.edges[id]? = some edge → n ≤ edge.to_ →
    edge.to_ ≤ target → edge.from_ < n →
    Covers k (pathCost graph scorer) (Arrivals graph (id + 1)) (bucketPaths sweep paths (id + 1))
  /-- Edges leaving a later node hold nothing. -/
  untouched : ∀ (id : Nat) (edge : Edge), graph.edges[id]? = some edge → n ≤ edge.from_ →
    bucketPaths sweep paths (id + 1) = []

theorem arrivals_zero : Arrivals graph 0 = {[]} := by
  ext p
  constructor
  · rintro ⟨⟨v, hp⟩, hstate⟩
    rcases hp.stateOf_cases with ⟨_, rfl⟩ | ⟨id, _, _, _, hid⟩
    · rfl
    · omega
  · rintro rfl
    exact ⟨⟨0, .nil⟩, rfl⟩

theorem arrivals_succ {id : Nat} {edge : Edge} (hedge : graph.edges[id]? = some edge) :
    Arrivals graph (id + 1) = {p | ∃ q, PathTo graph q edge.from_ ∧ p = q ++ [id]} := by
  ext p
  constructor
  · rintro ⟨⟨v, hp⟩, hstate⟩
    cases hp with
    | nil => simp [stateOf] at hstate
    | snoc hq hid =>
      rw [stateOf_append, Nat.add_right_cancel_iff] at hstate
      subst hstate
      rw [some.inj (hid.symm.trans hedge)] at hq
      exact ⟨_, hq, rfl⟩
  · rintro ⟨q, hq, rfl⟩
    exact ⟨⟨_, .snoc hq hedge⟩, stateOf_append _ _⟩

theorem arrivals_disjoint {l : List Nat} (hl : l.Pairwise (· < ·)) :
    l.Pairwise fun s s' => ∀ p ∈ Arrivals graph s, p ∉ Arrivals graph s' :=
  hl.imp fun hlt p hp hp' => by
    have := hp.2.symm.trans hp'.2
    omega

/-- An edge leaving `node` extends each path once; other states gain nothing. -/
theorem gainAt_succ (hvalid : graph.Valid) (hn : node < graph.nodeCount) {id : Nat} {edge : Edge}
    (hedge : graph.edges[id]? = some edge) (path : List Nat) :
    gainAt graph target node path (id + 1) =
      if edge.from_ = node ∧ edge.to_ ≤ target then [path ++ [id]] else [] := by
  have hother : ∀ id' ∈ graph.outgoingIds node, id' ≠ id →
      gainOf graph target path id' (id + 1) = [] := by
    intro id' _ hne
    unfold gainOf
    rw [if_neg (by rintro ⟨heq, _⟩; omega)]
  have hself : gainOf graph target path id (id + 1) =
      if edge.to_ ≤ target then [path ++ [id]] else [] := by
    simp [gainOf, hedge]
  have hmem : id ∈ graph.outgoingIds node ↔ edge.from_ = node := by
    rw [hvalid.outgoing node hn, mem_idsWhere]
    simp [hedge]
  have hnodup : (graph.outgoingIds node).Nodup := by
    rw [hvalid.outgoing node hn]
    exact (pairwise_idsWhere graph _).imp ne_of_lt
  unfold gainAt
  by_cases hin : id ∈ graph.outgoingIds node
  · obtain ⟨front, back, hsplit⟩ := append_of_mem hin
    rw [hsplit] at hother hnodup ⊢
    rw [nodup_append] at hnodup
    have hback := (nodup_cons.mp hnodup.2.1).1
    have hfront : id ∉ front := fun hmem => hnodup.2.2 id hmem id mem_cons_self rfl
    rw [flatMap_append, flatMap_cons, hself,
      flatMap_eq_nil_iff.mpr fun id' hid' => hother id' (by simp [hid'])
        (by rintro rfl; exact hfront hid'),
      flatMap_eq_nil_iff.mpr fun id' hid' => hother id' (by simp [hid'])
        (by rintro rfl; exact hback hid')]
    simp [hmem.mp hin]
  · rw [flatMap_eq_nil_iff.mpr fun id' hid' => hother id' hid'
      (by rintro rfl; exact hin hid'), if_neg fun hand => hin (hmem.mpr hand.1)]

theorem gainAt_zero (path : List Nat) : gainAt graph target node path 0 = [] := by
  unfold gainAt gainOf
  simp

theorem flatMap_const_nil {α β : Type} (l : List α) : (l.flatMap fun _ => ([] : List β)) = [] :=
  flatMap_eq_nil_iff.mpr fun _ _ => rfl

/-- A bound on the entries of a sweep that stops before node `n`. -/
def entryBound (graph : SegmentGraph) (k n : Nat) : Nat :=
  1 + ((List.range n).map fun node =>
    ((if node = 0 then 1 else 0) + (graph.idsWhere (·.to_ == node)).length) *
      (k * (graph.outgoingIds node).length)).sum

theorem swept_zero (graph : SegmentGraph) (scorer : EdgeCost) (k target : Nat) :
    Swept graph scorer k target 0
      ⟨[⟨0, none, none⟩], [0] :: replicate graph.edges.length []⟩ [[]] := by
  have hempty : ∀ id, (replicate graph.edges.length ([] : List Nat)).getD id [] = [] := by
    intro id
    rw [getD_eq_getElem?_getD, getElem?_replicate]
    split_ifs <;> rfl
  refine ⟨⟨by simp, by simp, ?_, ?_, ?_⟩, rfl, fun _ _ _ _ _ hfrom => ?_, fun id _ _ _ => ?_⟩
  · intro state i hi
    cases state with
    | zero => simpa using hi
    | succ id =>
      rw [getD_cons_succ, hempty] at hi
      simp at hi
  · intro i e p he hp
    rw [getElem?_singleton] at he hp
    split_ifs at he hp
    obtain rfl := some.inj he
    obtain rfl := some.inj hp
    exact ⟨rfl, rfl⟩
  · intro i e p he hp
    rw [getElem?_singleton] at he hp
    split_ifs at he hp
    obtain rfl := some.inj he
    obtain rfl := some.inj hp
    exact Or.inl ⟨rfl, rfl⟩
  · omega
  · unfold bucketPaths
    rw [getD_cons_succ, hempty, map_nil]

variable {incoming : Incoming} (hvalid : graph.Valid) (hin : incomingIndex graph = .ok incoming)
include hvalid hin

/-- The arrivals of the states at a node are the paths to it. -/
theorem exists_statesAt_iff (hnode : node < graph.nodeCount) {p : List Nat} :
    (∃ s ∈ statesAt incoming node, p ∈ Arrivals graph s) ↔ PathTo graph p node := by
  constructor
  · rintro ⟨s, hs, hp⟩
    rcases (mem_statesAt hvalid hin hnode).mp hs with ⟨rfl, rfl⟩ | ⟨id, edge, hedge, rfl, rfl⟩
    · rw [arrivals_zero, Set.mem_singleton_iff] at hp
      subst hp
      exact .nil
    · rw [arrivals_succ hedge] at hp
      obtain ⟨q, hq, rfl⟩ := hp
      exact .snoc hq hedge
  · intro hp
    refine ⟨stateOf p, (mem_statesAt hvalid hin hnode).mpr ?_, ⟨node, hp⟩, rfl⟩
    rcases hp.stateOf_cases with ⟨rfl, rfl⟩ | ⟨id, edge, hedge, hto, hstate⟩
    · exact Or.inl ⟨rfl, rfl⟩
    · exact Or.inr ⟨id, edge, hedge, hto, hstate⟩

/-- After ranking, the states at the node hold their `k` best. -/
theorem Swept.rank (hn : n < graph.nodeCount) (htarget : n ≤ target) (h : Swept graph scorer k target n sweep paths) :
    ∀ s ∈ statesAt incoming n, IsKBest k (pathCost graph scorer) (Arrivals graph s)
      (bucketPaths (rankStates k (statesAt incoming n) sweep) paths s) := by
  intro s hs
  have hnodup := (pairwise_statesAt hvalid hin hn).imp ne_of_lt
  rw [(rankStates_traced k hnodup h.traced).2.2 s, if_pos hs]
  refine Covers.isKBest ?_
  rcases (mem_statesAt hvalid hin hn).mp hs with ⟨rfl, rfl⟩ | ⟨id, edge, hedge, hto, rfl⟩
  · rw [h.start, arrivals_zero]
    exact ⟨by simp, by simp, by simp⟩
  · refine h.pending id edge hedge hto.ge (hto.trans_le htarget) ?_
    have := hvalid.forward edge (mem_of_getElem? hedge)
    omega

/-- The states of a node extended one after the other. -/
theorem extendStates_extends (hn : node < graph.nodeCount) {sweep : Sweep} {paths : List (List Nat)}
    (h : Traced graph scorer sweep paths)
    (hbest : ∀ s ∈ statesAt incoming node, IsKBest k (pathCost graph scorer) (Arrivals graph s)
      (bucketPaths sweep paths s)) :
    Extends graph scorer k sweep paths (fun s => (statesAt incoming node).flatMap fun s' =>
        (bucketPaths sweep paths s').flatMap fun p => gainAt graph target node p s)
      ((statesAt incoming node).length * (k * (graph.outgoingIds node).length))
      ((statesAt incoming node).foldlM (extendState graph scorer k target node) sweep) := by
  have hstay : ∀ s ∈ statesAt incoming node, ∀ p, gainAt graph target node p s = [] := by
    intro s hs p
    rcases (mem_statesAt hvalid hin hn).mp hs with ⟨_, rfl⟩ | ⟨id, edge, hedge, hto, rfl⟩
    · exact gainAt_zero p
    · have := hvalid.forward edge (mem_of_getElem? hedge)
      rw [gainAt_succ hvalid hn hedge, if_neg (by omega)]
  refine foldlM h (· ∈ statesAt incoming node) ?_ ?_
  · exact fun s' _ s hs => flatMap_eq_nil_iff.mpr fun p _ => hstay s hs p
  · intro s' hs' next paths' h' _ hkeep
    have hstate := hkeep s' hs'
    rw [← hstate]
    have hpaths : ∀ p ∈ bucketPaths next paths' s', PathTo graph p node := by
      rw [hstate]
      exact fun p hp =>
        (exists_statesAt_iff hvalid hin hn).mp ⟨s', hs', (hbest s' hs').subset p hp⟩
    refine (extendState_extends h' hpaths).mono (Nat.mul_le_mul_right _ ?_)
    rw [hstate]
    exact (hbest s' hs').length_le

/-- The paths in the states at a node, extended by one edge, are candidates for it. -/
theorem covers_snoc {id : Nat} {edge : Edge} (hedge : graph.edges[id]? = some edge)
    (hn : edge.from_ < graph.nodeCount) {best : Nat → List (List Nat)}
    (hbest : ∀ s ∈ statesAt incoming edge.from_, IsKBest k (pathCost graph scorer) (Arrivals graph s) (best s)) :
    Covers k (pathCost graph scorer) (Arrivals graph (id + 1))
      ((statesAt incoming edge.from_).flatMap fun s => (best s).map (· ++ [id])) := by
  have hset : Arrivals graph (id + 1) =
      {p | ∃ s ∈ statesAt incoming edge.from_, p ∈ (· ++ [id]) '' Arrivals graph s} := by
    rw [arrivals_succ hedge]
    ext p
    constructor
    · rintro ⟨q, hq, rfl⟩
      obtain ⟨s, hs, hqs⟩ := (exists_statesAt_iff hvalid hin hn).mpr hq
      exact ⟨s, hs, q, hqs, rfl⟩
    · rintro ⟨s, hs, q, hq, rfl⟩
      exact ⟨q, (exists_statesAt_iff hvalid hin hn).mp ⟨s, hs, hq⟩, rfl⟩
  rw [hset]
  refine Covers.flatMap ?_ fun s hs => (hbest s hs).covers.map ?_ ?_
  · refine (@arrivals_disjoint graph _ (pairwise_statesAt hvalid hin hn)).imp fun hdisjoint p hp hp' => ?_
    obtain ⟨q, hq, rfl⟩ := hp
    obtain ⟨q', hq', heq⟩ := hp'
    rw [append_cancel_right heq] at hq'
    exact hdisjoint q hq hq'
  · exact fun a b hab => append_cancel_right hab
  · exact fun p hp q hq hle => pathCost_mono hp hq hedge hle

theorem not_mem_statesAt (hn : node < graph.nodeCount) {id : Nat} {edge : Edge} (hedge : graph.edges[id]? = some edge)
    (hto : edge.to_ ≠ node) : id + 1 ∉ statesAt incoming node := by
  rw [mem_statesAt hvalid hin hn]
  rintro (⟨_, hzero⟩ | ⟨id', edge', hedge', hto', hid⟩)
  · omega
  · rw [← Nat.add_right_cancel hid, hedge] at hedge'
    exact hto (some.inj hedge' ▸ hto')

/-- One node of the sweep. -/
theorem sweepNode_spec (hk : 0 < k) (hn : n < graph.nodeCount) (htarget : n ≤ target)
    (h : Swept graph scorer k target n sweep paths) :
    match sweepNode graph scorer k target incoming sweep n with
    | .ok next => (∃ paths', Swept graph scorer k target (n + 1) next paths') ∧
        next.arena.length ≤ sweep.arena.length +
          (statesAt incoming n).length * (k * (graph.outgoingIds n).length)
    | .error e => e = .tooManyEntries k ∧ 2 ^ 32 ≤ sweep.arena.length +
        (statesAt incoming n).length * (k * (graph.outgoingIds n).length) := by
  have hnodup := (pairwise_statesAt hvalid hin hn).imp ne_of_lt
  obtain ⟨htraced, harena, hranked⟩ := rankStates_traced k hnodup h.traced
  have hbest := h.rank hvalid hin hn htarget
  have hext := @extendStates_extends graph scorer k target n incoming hvalid hin hn _ _ htraced hbest
  rw [← harena]
  unfold sweepNode
  generalize (statesAt incoming n).foldlM (extendState graph scorer k target n)
    (rankStates k (statesAt incoming n) sweep) = result at hext ⊢
  cases result with
  | error e => exact hext
  | ok next =>
    obtain ⟨paths', htraced', _, hgain, hlen⟩ := hext
    dsimp only at hgain
    refine ⟨⟨paths', htraced', ?_, fun id edge hedge hto hle hfrom => ?_, fun id edge hedge hfrom => ?_⟩, hlen⟩
    · rw [hgain, hranked, h.start]
      simp only [gainAt_zero, flatMap_const_nil, append_nil]
      split_ifs
      · rw [sortByCost, mergeSort_singleton, take_of_length_le (Nat.succ_le_of_lt hk)]
      · rfl
    · have hstate := not_mem_statesAt hvalid hin hn hedge (by omega)
      rw [hgain, hranked, if_neg hstate]
      simp only [gainAt_succ hvalid hn hedge, hle, and_true]
      by_cases hlt : edge.from_ < n
      · simp only [hlt.ne, if_false, flatMap_const_nil, append_nil]
        exact h.pending id edge hedge (by omega) hle hlt
      · obtain rfl : edge.from_ = n := by omega
        rw [h.untouched id edge hedge (le_refl _), nil_append]
        simp only [if_true, ← map_eq_flatMap]
        exact covers_snoc hvalid hin hedge hn hbest
    · have hforward := hvalid.forward edge (mem_of_getElem? hedge)
      have hstate := not_mem_statesAt hvalid hin hn hedge (by omega)
      rw [hgain, hranked, if_neg hstate, h.untouched id edge hedge (by omega), nil_append]
      simp only [gainAt_succ hvalid hn hedge, (show edge.from_ ≠ n by omega), false_and, if_false, flatMap_const_nil]

/-! ## The whole sweep -/

theorem entryBound_succ (hn : n < graph.nodeCount) :
    entryBound graph k (n + 1) = entryBound graph k n +
      (statesAt incoming n).length * (k * (graph.outgoingIds n).length) := by
  unfold entryBound
  rw [range_succ, map_append, sum_append, statesAt_eq hvalid hin hn, length_append, length_map]
  by_cases hzero : n = 0 <;> simp [hzero, Nat.add_assoc]

/-- The sweep before node `n`. -/
theorem sweep_spec (hk : 0 < k) (scorer : EdgeCost) : ∀ {n : Nat}, n ≤ target → n ≤ graph.nodeCount →
    match (range n).foldlM (sweepNode graph scorer k target incoming)
      ⟨[⟨0, none, none⟩], [0] :: replicate graph.edges.length []⟩ with
    | .ok sweep => (∃ paths, Swept graph scorer k target n sweep paths) ∧
        sweep.arena.length ≤ entryBound graph k n
    | .error e => e = .tooManyEntries k ∧ 2 ^ 32 ≤ entryBound graph k n
  | 0, _, _ => ⟨⟨_, swept_zero graph scorer k target⟩, le_refl _⟩
  | n + 1, htarget, hcount => by
    have ih := sweep_spec hk scorer (show n ≤ target by omega) (show n ≤ graph.nodeCount by omega)
    rw [range_succ, foldlM_append, entryBound_succ hvalid hin (by omega)]
    generalize (range n).foldlM (sweepNode graph scorer k target incoming)
      ⟨[⟨0, none, none⟩], [0] :: replicate graph.edges.length []⟩ = result at ih ⊢
    cases result with
    | error e => exact ⟨ih.1, by have := ih.2; omega⟩
    | ok sweep =>
      obtain ⟨⟨paths, hswept⟩, hlen⟩ := ih
      have hstep := sweepNode_spec hvalid hin hk (by omega) (by omega) hswept
      have hlast : (Except.ok sweep >>= fun init =>
          [n].foldlM (sweepNode graph scorer k target incoming) init) =
          sweepNode graph scorer k target incoming sweep n := by
        change [n].foldlM (sweepNode graph scorer k target incoming) sweep = _
        rw [foldlM_cons]
        simp only [foldlM_nil, bind_pure]
      rw [hlast]
      cases hres : sweepNode graph scorer k target incoming sweep n with
      | error e =>
        rw [hres] at hstep
        exact ⟨hstep.1, by have := hstep.2; omega⟩
      | ok next =>
        rw [hres] at hstep
        exact ⟨hstep.1, by have := hstep.2; omega⟩

end Sweeps

end KBest

end Oxpinyin
