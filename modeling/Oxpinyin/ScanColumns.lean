import Oxpinyin.ParseTimeKeys

/-!
# The columns of the scan matrix

A key stands in the column of its `from_`, its text is not empty and it ends inside the parse. The
halves of a split are measured by the spellings of the tables, and the splits hold all of this
because their text is text of the selected path (`Covered`). Of the keys of a column no two have one
key, tone and end (`buildScanMatrix_spec`).
-/

namespace Oxpinyin

open List SegmentGraph

/-- The scan matrix of a graph. -/
def buildScanMatrix (graph : SegmentGraph) (options : OptionBits) (divided : Bool) : Columns :=
  buildScanMatrixOver graph (graph.fewestKeys options.hasIncomplete) options divided

/-- Two keys are kept apart in a column by key, tone or end. -/
def ScanKey.Apart (a b : ScanKey) : Prop := ¬ (a.key = b.key ∧ a.tone = b.tone ∧ a.to_ = b.to_)

theorem pairwise_keepFirst (column : List ScanKey) : (keepFirst column).Pairwise ScanKey.Apart := by
  unfold keepFirst
  refine foldlRecOn (motive := List.Pairwise ScanKey.Apart) _ _ .nil fun kept hkept key _ => ?_
  split_ifs with hduplicate
  · exact hkept
  · refine pairwise_append.mpr ⟨hkept, pairwise_singleton _ _, fun earlier hearlier k hk => ?_⟩
    obtain rfl := mem_singleton.mp hk
    rintro ⟨hkey, htone, hto⟩
    refine hduplicate (any_eq_true.mpr ⟨earlier, hearlier, ?_⟩)
    simp [hkey, htone, hto]

theorem length_resplitStep (columns : Columns) : (resplitStep columns).length = columns.length :=
  length_visitColumns length_resplitKey _ _

theorem length_innerSplitStep (columns : Columns) : (innerSplitStep columns).length = columns.length :=
  length_visitColumns length_dividedKey _ _

/-- The passes neither add nor drop a column. -/
theorem length_extendMatrix (columns : Columns) (options : OptionBits) (divided : Bool) :
    (extendMatrix columns options divided).length = columns.length := by
  have hfuzzy : ∀ current : Columns, ((fuzzyAdditions current options).foldl
      (fun columns addition => Columns.push columns addition.from_ addition) current).length =
        current.length := by
    intro current
    refine foldlRecOn (motive := fun columns : Columns => columns.length = current.length) _ _ rfl
      fun columns hcolumns addition _ => ?_
    rw [Columns.length_push, hcolumns]
  unfold extendMatrix
  dsimp only
  rw [length_map, hfuzzy]
  split_ifs
  · rw [length_innerSplitStep, length_resplitStep]
  · exact length_innerSplitStep columns
  · exact length_resplitStep columns
  · rfl

theorem pairwise_extendMatrix {columns : Columns} {options : OptionBits} {divided : Bool} :
    ∀ column ∈ extendMatrix columns options divided, column.Pairwise ScanKey.Apart := by
  intro column hcolumn
  obtain ⟨before, _, rfl⟩ := mem_map.mp hcolumn
  exact pairwise_keepFirst before

/-- Every key of the scan matrix of a buffer stands in the column of its `from_` and ends behind the
start of its text, inside the parse. No column has a key with its tone and end twice. -/
theorem buildScanMatrix_spec {raw : Bytes} {options : OptionBits} {graph : SegmentGraph}
    (h : buildWithOptions raw options = .ok graph) (divided : Bool) :
    (buildScanMatrix graph options divided).length = graph.consumed + 1 ∧
    ∀ (c : Nat) (column : List ScanKey), (buildScanMatrix graph options divided)[c]? = some column →
      (∀ key ∈ column, key.from_ = c ∧ key.from_ ≤ key.syllableStart ∧
        key.syllableStart < key.to_ ∧ key.to_ ≤ graph.consumed) ∧
      column.Pairwise ScanKey.Apart := by
  obtain ⟨last, hinside, hwalk, hedges, _⟩ := @fewestKeys_spec _ _ _ options.hasIncomplete h
  have hover : SelectedOver raw options graph (graph.fewestKeys options.hasIncomplete) last :=
    ⟨h, hwalk, fun edge hedge => (hedges edge hedge).1, hinside⟩
  refine ⟨?_, fun c column hcolumn => ⟨fun key hkey => ?_, ?_⟩⟩
  · unfold buildScanMatrix buildScanMatrixOver
    rw [length_extendMatrix, length_placeSelected]
  · obtain ⟨hcovered, hfrom⟩ := every_buildScanMatrixOver hover.edges c column hcolumn key hkey
    have hto := hover.to_le (List.mem_flatten.mpr ⟨column, List.mem_of_getElem? hcolumn, hkey⟩)
    exact ⟨hfrom, hcovered.le, hcovered.forward, Nat.le_trans hto hinside⟩
  · exact pairwise_extendMatrix column (List.mem_of_getElem? hcolumn)

/-- `xi'an`, whose second syllable rides over the apostrophe. -/
theorem buildScanMatrix_xian : ∃ graph,
    buildWithOptions (ascii "xi'an") ⟨useDividedTable⟩ = .ok graph ∧
    (buildScanMatrix graph ⟨useDividedTable⟩ true).length = graph.consumed + 1 := by
  obtain ⟨graph, hgraph⟩ := (exists_buildWithOptions_iff (ascii "xi'an") ⟨useDividedTable⟩).mpr (by decide)
  exact ⟨graph, hgraph, (buildScanMatrix_spec hgraph true).1⟩

end Oxpinyin
