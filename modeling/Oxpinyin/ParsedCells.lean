import Oxpinyin.ScanCover

/-!
# Columns and zero cells of the parsed matrix

A parsed matrix files each key under the start of its text and marks cells with the zero
key. Over a selected path the marks are the apostrophes between selected keys, and every
cell behind the path up to the bound (`zeros_cases`). No key stands at a marked cell
(`columns_nil`). The cells behind the path hold apostrophes exactly when the bound
is the parsed length, which is where the marks and the buffer can part.
-/

namespace Oxpinyin

open List Cuts SegmentGraph ParsedMatrix

/-! ## The order of a path -/

/-- The edges of a path follow each other. -/
theorem walk_ordered {input : Bytes} {options : OptionBits} {graph : SegmentGraph}
    (h : buildWithOptions input options = .ok graph) {n t : Nat} {es : List Edge}
    (hwalk : Walk graph n t es) (hn : n ≤ input.length) :
    (∀ edge ∈ es, n ≤ edge.from_ ∧ edge.from_ ≤ edge.syllableStart ∧
      edge.syllableStart < edge.to_ ∧ edge.to_ ≤ t) ∧
    es.Pairwise (fun a b => a.to_ ≤ b.from_) ∧ n ≤ t := by
  induction hwalk with
  | nil n => exact ⟨by simp, List.Pairwise.nil, Nat.le_refl n⟩
  | @cons n t edge es hedge hwalk ih =>
    rw [outgoing_eq_edgesAt h hn] at hedge
    obtain ⟨hfrom, hle, hlt, _, _⟩ := edgesAt_text hedge
    obtain ⟨_, _, hinside⟩ := edgesAt_forward hedge
    obtain ⟨hedges, hpairs, hlast⟩ := ih hinside
    refine ⟨fun e he => ?_, List.Pairwise.cons (fun e he => (hedges e he).1) hpairs, by omega⟩
    rcases mem_cons.mp he with rfl | he
    · exact ⟨by omega, by omega, hlt, hlast⟩
    · have := hedges e he
      omega

/-- The apostrophes before a selected key are not text of another. -/
theorem not_isText_gap {es : List Edge} (hpairs : es.Pairwise fun a b => a.to_ ≤ b.from_)
    (hedges : ∀ edge ∈ es, edge.from_ ≤ edge.syllableStart ∧ edge.syllableStart < edge.to_)
    {edge : Edge} (hedge : edge ∈ es) {i : Nat} (hi : edge.from_ ≤ i)
    (hlt : i < edge.syllableStart) : ¬ IsText es i := by
  rintro ⟨other, hother, hstart, hstop⟩
  have he := hedges edge hedge
  have ho := hedges other hother
  obtain ⟨a, ha, rfl⟩ := mem_iff_getElem.mp hedge
  obtain ⟨b, hb, rfl⟩ := mem_iff_getElem.mp hother
  rw [pairwise_iff_getElem] at hpairs
  rcases Nat.lt_trichotomy a b with hab | rfl | hab
  · have := hpairs a b ha hb hab
    omega
  · omega
  · have := hpairs b a hb ha hab
    omega

namespace ParsedMatrix

/-! ## Placing the keys -/

variable {bound : Nat} {physical : Bool} {first : Option Nat}

/-- The column a key is filed under. -/
def columnOf (physical : Bool) (key : ScanKey) : Nat :=
  if physical && key.crossesSeparator then key.syllableStart else key.from_

/-- The key as it is filed. -/
def settled (physical : Bool) (key : ScanKey) : ScanKey :=
  { key with
    from_ := columnOf physical key
    crossesSeparator := false
    syllableStart := columnOf physical key }

theorem getD_fillZeros (zeros : List Bool) (start stop i : Nat) :
    (fillZeros zeros start stop).getD i false = true ↔
      zeros.getD i false = true ∨ (start ≤ i ∧ i < stop ∧ i < zeros.length) := by
  unfold fillZeros
  rw [getD_eq_getElem?_getD, getElem?_mapIdx, getD_eq_getElem?_getD]
  cases hget : zeros[i]? with
  | none =>
    have := List.getElem?_eq_none_iff.mp hget
    simp only [Option.map_none, Option.getD_none, Bool.false_eq_true, false_or, false_iff]
    omega
  | some zero =>
    have := (List.getElem?_eq_some_iff.mp hget).1
    simp [this]

/-- What placing a list of keys does. -/
theorem placed_spec : ∀ (keys : List ScanKey) (state : Placing), state.columns.length = bound + 1 →
    state.zeros.length = bound + 1 →
    let placed := keys.foldl (place bound physical first) state
    placed.columns.length = bound + 1 ∧ placed.zeros.length = bound + 1 ∧
    (∀ c, c ≤ bound → placed.columns.getD c [] = state.columns.getD c [] ++
      (keys.filter fun key => columnOf physical key == c).map (settled physical)) ∧
    (∀ i, placed.zeros.getD i false = true → state.zeros.getD i false = true ∨
      ∃ key ∈ keys, physical = true ∧ key.crossesSeparator = true ∧ key.from_ ≤ i ∧
        i < key.syllableStart) ∧
    placed.lastEnd = keys.foldl (fun last key => max last key.to_) state.lastEnd
  | [], state, hcolumns, hzeros => by
    refine ⟨hcolumns, hzeros, fun c _ => by simp, fun i h => Or.inl h, rfl⟩
  | key :: rest, state, hcolumns, hzeros => by
    have hcolumns' : (place bound physical first state key).columns.length = bound + 1 := by
      unfold place
      rw [Columns.length_push, hcolumns]
    have hzeros' : (place bound physical first state key).zeros.length = bound + 1 := by
      unfold place
      dsimp only
      split_ifs
      · rw [fillZeros, length_mapIdx, hzeros]
      · exact hzeros
    obtain ⟨hlenC, hlenZ, hcols, hcells, hlast⟩ := placed_spec rest _ hcolumns' hzeros'
    rw [foldl_cons]
    refine ⟨hlenC, hlenZ, fun c hc => ?_, fun i hi => ?_, hlast⟩
    · rw [hcols c hc]
      have hpush : (place bound physical first state key).columns.getD c [] =
          state.columns.getD c [] ++ if columnOf physical key = c then [settled physical key] else [] := by
        have hget := getElem?_eq_getElem (show c < state.columns.length by omega)
        change (state.columns.push (columnOf physical key) (settled physical key)).getD c [] = _
        unfold Columns.push
        rw [getD_eq_getElem?_getD, getElem?_modify, getD_eq_getElem?_getD, hget]
        split_ifs <;> simp
      rw [hpush, append_assoc, filter_cons]
      split_ifs <;> simp_all
    · rcases hcells i hi with hold | ⟨found, hfound, hin⟩
      · unfold place at hold
        dsimp only at hold
        split_ifs at hold with hmoved
        · rcases (getD_fillZeros _ _ _ _).mp hold with hold | ⟨hstart, hstop, _⟩
          · exact Or.inl hold
          · simp only [Bool.and_eq_true] at hmoved
            exact Or.inr ⟨key, mem_cons_self, hmoved.1.1, hmoved.1.2, hstart, by omega⟩
        · exact Or.inl hold
      · exact Or.inr ⟨found, mem_cons_of_mem _ hfound, hin⟩

theorem foldl_max_le {keys : List ScanKey} {start i : Nat} :
    keys.foldl (fun last key => max last key.to_) start ≤ i ↔
      start ≤ i ∧ ∀ key ∈ keys, key.to_ ≤ i := by
  induction keys generalizing start with
  | nil => simp
  | cons key rest ih =>
    rw [foldl_cons, ih, Nat.max_le]
    simp [and_assoc]

/-- The columns and the cells of a parsed matrix. -/
theorem fromScan_spec (scan : Columns) (bound : Nat) (physical : Bool) :
    (∀ c, c ≤ bound → (fromScan scan bound physical).columns.getD c [] =
      (scan.flatten.filter fun key => columnOf physical key == c).map (settled physical)) ∧
    (fromScan scan bound physical).columns.length = bound + 1 ∧
    (∀ i, i < bound → (fromScan scan bound physical).zeros.getD i false = true → physical = true ∧
      ((∃ key ∈ scan.flatten, key.crossesSeparator = true ∧ key.from_ ≤ i ∧
        i < key.syllableStart) ∨ ∀ key ∈ scan.flatten, key.to_ ≤ i)) ∧
    (physical = true → ∀ i, i < bound → (∀ key ∈ scan.flatten, key.to_ ≤ i) →
      (fromScan scan bound physical).zeros.getD i false = true) := by
  obtain ⟨hlenC, hlenZ, hcols, hcells, hlast⟩ :=
    @placed_spec bound physical (scan.flatten.map (·.syllableStart)).min? scan.flatten
      ⟨List.replicate (bound + 1) [], List.replicate (bound + 1) false, 0⟩ (by simp) (by simp)
  have hfinal : ∀ (zeros : List Bool) (some : Bool) (i : Nat), i < bound →
      (if some then zeros.set bound true else zeros).getD i false = zeros.getD i false := by
    intro zeros some i hi
    split_ifs
    · rw [getD_eq_getElem?_getD, getElem?_set_ne (by omega), getD_eq_getElem?_getD]
    · rfl
  refine ⟨fun c hc => ?_, hlenC, fun i hi hzero => ?_, fun hphysical i hi hends => ?_⟩
  · refine (hcols c hc).trans ?_
    rw [getD_eq_getElem?_getD, getElem?_replicate, if_pos (by omega)]
    rfl
  · unfold fromScan at hzero
    dsimp only at hzero
    rw [hfinal _ _ i hi] at hzero
    have hplaced : ∀ i, (scan.flatten.foldl (place bound physical
        (scan.flatten.map (·.syllableStart)).min?) ⟨List.replicate (bound + 1) [],
          List.replicate (bound + 1) false, 0⟩).zeros.getD i false = true →
        physical = true ∧ ∃ key ∈ scan.flatten, key.crossesSeparator = true ∧ key.from_ ≤ i ∧
          i < key.syllableStart := by
      intro i hcell
      rcases hcells i hcell with hstart | ⟨key, hkey, hphysical, hin⟩
      · rw [getD_eq_getElem?_getD, getElem?_replicate] at hstart
        split_ifs at hstart <;> cases hstart
      · exact ⟨hphysical, key, hkey, hin⟩
    split_ifs at hzero with hphysical
    · rcases (getD_fillZeros _ _ _ _).mp hzero with hcell | ⟨hbehind, _⟩
      · exact ⟨hphysical, Or.inl (hplaced i hcell).2⟩
      · rw [hlast] at hbehind
        exact ⟨hphysical, Or.inr (foldl_max_le.mp hbehind).2⟩
    · exact absurd (hplaced i hzero).1 hphysical
  · unfold fromScan
    dsimp only
    rw [hfinal _ _ i hi, if_pos hphysical, getD_fillZeros]
    refine Or.inr ⟨?_, by omega, by omega⟩
    rw [hlast]
    exact foldl_max_le.mpr ⟨Nat.zero_le _, hends⟩

/-- A key of a column is a settled key of the scan. -/
theorem mem_column {scan : Columns} {i : Nat} {found : ScanKey}
    (h : found ∈ (fromScan scan bound physical).columns.getD i []) :
    ∃ key ∈ scan.flatten, columnOf physical key = i ∧ found = settled physical key := by
  obtain ⟨hcolumns, hlength, _⟩ := fromScan_spec scan bound physical
  have hi : i ≤ bound := by
    by_contra hbeyond
    rw [getD_eq_getElem?_getD, getElem?_eq_none (by omega)] at h
    simp at h
  rw [hcolumns i hi] at h
  obtain ⟨key, hfiltered, rfl⟩ := mem_map.mp h
  obtain ⟨hscan, hcolumn⟩ := mem_filter.mp hfiltered
  exact ⟨key, hscan, beq_iff_eq.mp hcolumn, rfl⟩

end ParsedMatrix

/-! ## Over a selected path -/

/-- A path of the graph of a buffer, selected for its matrix. -/
structure SelectedOver (raw : Bytes) (options : OptionBits) (graph : SegmentGraph)
    (selected : List Edge) (last : Nat) : Prop where
  built : buildWithOptions raw options = .ok graph
  walk : Walk graph 0 last selected
  edges : ∀ edge ∈ selected, edge ∈ edgesAt raw options edge.from_
  inside : last ≤ graph.consumed

namespace SelectedOver

variable {raw : Bytes} {options : OptionBits} {graph : SegmentGraph} {selected : List Edge}
  {last : Nat} {divided physical : Bool} {key : ScanKey} {i : Nat}

variable (h : SelectedOver raw options graph selected last)
include h

theorem isText_lt (hi : IsText selected i) : i < last := by
  obtain ⟨edge, hedge, _, hlt⟩ := hi
  have := ((walk_ordered h.built h.walk (Nat.zero_le _)).1 edge hedge).2.2.2
  omega

section

variable (hkey : key ∈ (buildScanMatrixOver graph selected options divided).flatten)
include hkey

theorem covered : Covered selected key := by
  obtain ⟨_, hcovered, _⟩ := (every_buildScanMatrixOver h.edges).flatten key hkey
  exact hcovered

theorem to_le : key.to_ ≤ last := by
  have hcovered := h.covered hkey
  have hforward := hcovered.forward
  have := h.isText_lt (hcovered.text (key.to_ - 1) (by omega) (by omega))
  omega

/-- With physical separators every key is filed under the start of its text. -/
theorem columnOf_physical : columnOf true key = key.syllableStart := by
  have hcovered := h.covered hkey
  unfold columnOf
  rw [hcovered.crossing, Bool.true_and]
  split_ifs with hcross
  · rfl
  · have := hcovered.le
    rw [decide_eq_true_eq] at hcross
    omega

end

/-- A path that is not empty has a key in the matrix that ends with it. -/
theorem exists_last (hne : selected ≠ []) :
    ∃ key ∈ (buildScanMatrixOver graph selected options divided).flatten, key.to_ = last := by
  have hmem := getLast_mem hne
  have hend : (selected.getLast hne).to_ = last := by
    rw [← pathEnd_of_walk h.walk, pathEnd, getLast?_eq_some_getLast hne]
    rfl
  obtain ⟨_, _, hlt, hto⟩ := (walk_ordered h.built h.walk (Nat.zero_le _)).1 _ hmem
  have hinside := h.inside
  obtain ⟨c, keys, hkeys, key, hkey, hstop⟩ :=
    @hasEnd_buildScanMatrixOver graph selected options divided _ hmem (by omega)
  exact ⟨key, mem_flatten.mpr ⟨keys, mem_of_getElem? hkeys, hkey⟩, hstop.trans hend⟩

/-- A zero cell stands before a selected key or behind the path, where there is no text. -/
theorem zeros_cases (hne : selected ≠ []) (hi : i < graph.consumed)
    (hzero : (fromScan (buildScanMatrixOver graph selected options divided) graph.consumed
      physical).zeros.getD i false = true) :
    physical = true ∧ ¬ IsText selected i ∧
      (byteIs (· == apostrophe) raw i = true ∨ last ≤ i) := by
  obtain ⟨hedges, hpairs, _⟩ := walk_ordered h.built h.walk (Nat.zero_le _)
  obtain ⟨_, _, hcells, _⟩ := fromScan_spec
    (buildScanMatrixOver graph selected options divided) graph.consumed physical
  obtain ⟨hphysical, ⟨key, hkey, hcross, hfrom, hstart⟩ | hbehind⟩ := hcells i hi hzero
  · obtain heq | ⟨edge, hedge, hfromEq, hstartEq⟩ := (h.covered hkey).gap
    · omega
    · rw [← hfromEq] at hfrom
      rw [← hstartEq] at hstart
      refine ⟨hphysical, not_isText_gap hpairs (fun e he => ?_) hedge hfrom hstart, Or.inl ?_⟩
      · exact ⟨(hedges e he).2.1, (hedges e he).2.2.1⟩
      · exact (edgesAt_text (h.edges edge hedge)).2.2.2.1 i hfrom hstart
  · obtain ⟨key, hkey, hend⟩ := @exists_last _ _ _ _ _ divided h hne
    have hle := hbehind key hkey
    exact ⟨hphysical, fun htext => absurd (h.isText_lt htext) (by omega), Or.inr (by omega)⟩

theorem zeros_text (hi : IsText selected i) :
    (fromScan (buildScanMatrixOver graph selected options divided)
      graph.consumed physical).zeros.getD i false = false := by
  have hne : selected ≠ [] := by
    rintro rfl
    obtain ⟨edge, hedge, _⟩ := hi
    simp at hedge
  have hlt := h.isText_lt hi
  have hinside := h.inside
  rw [← Bool.not_eq_true]
  exact fun hzero => (h.zeros_cases hne (by omega) hzero).2.1 hi

theorem zeros_behind (hle : last ≤ i) (hi : i < graph.consumed) :
    (fromScan (buildScanMatrixOver graph selected options divided)
      graph.consumed true).zeros.getD i false = true :=
  (fromScan_spec _ _ _).2.2.2 rfl i hi fun _ hkey => Nat.le_trans (h.to_le hkey) hle

/-- No key is filed under a column without text. -/
theorem columns_nil (hi : i ≤ graph.consumed) (htext : ¬ IsText selected i) :
    (fromScan (buildScanMatrixOver graph selected options divided)
      graph.consumed true).columns.getD i [] = [] := by
  rw [(fromScan_spec _ _ _).1 i hi, map_eq_nil_iff, filter_eq_nil_iff]
  intro key hkey hcolumn
  rw [beq_iff_eq, h.columnOf_physical hkey] at hcolumn
  have hcovered := h.covered hkey
  exact htext (hcovered.text i (Nat.le_of_eq hcolumn) (by rw [← hcolumn]; exact hcovered.forward))

end SelectedOver

end Oxpinyin
