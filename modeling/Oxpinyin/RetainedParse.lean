import Oxpinyin.ScanMatrix
import Oxpinyin.Lib.Run

/-!
# The retained parse of a buffer

A session keeps one parse of its whole buffer : the selected path, the scan matrix over it
and the parsed matrix. Two lengths come out of it. `matrixKeys` answers the graph's consumed
length, over every key, and `fullParsedLen` the end of the selected path, over the keys the
option word admits, with the apostrophes behind it.

`bound_eq_fullParsedLen_iff` : they agree exactly when the keys that are filtered out reach
no further.
-/

namespace Oxpinyin

open Sweep Cuts SegmentGraph Run

/-- What the parse reads of a session in full-pinyin mode. -/
structure ParseInput where
  /-- The raw buffer. -/
  raw : Bytes
  /-- The option word. -/
  options : OptionBits
  /-- Whether the split passes run : not on the zhuyin facade. -/
  divided : Bool
  /-- Whether apostrophes are separators the user typed. -/
  physicalSeparators : Bool

/-- The selected path and the length it parses. -/
structure SelectedPath where
  edges : List Edge
  parsedLen : Nat

/-- The scan matrix and the parsed matrix. -/
structure RetainedParse where
  scan : Columns
  matrix : ParsedMatrix

/-- A key with the bytes of its text. -/
structure MatrixKey where
  key : ChewingKey
  syllableStart : Nat
  stop : Nat

/-- Moves an end over the apostrophes behind it. -/
def apostropheExtended (input : Bytes) (stop : Nat) : Nat :=
  runEnd (· == apostrophe) input stop

/-- The end of a path. -/
def pathEnd (edges : List Edge) : Nat :=
  (edges.getLast?.map (·.to_)).getD 0

/-- Keys by syllable start, in scan order within a column. -/
def inColumnOrder (keys : List MatrixKey) : List MatrixKey :=
  if keys.Pairwise (fun a b => a.syllableStart ≤ b.syllableStart) then keys
  else keys.mergeSort fun a b => decide (a.syllableStart ≤ b.syllableStart)

namespace ParseInput

variable (input : ParseInput)

/-- The selected path of the whole buffer. -/
def selectedPath : Except GraphError SelectedPath :=
  (buildWithOptions input.raw input.options).map fun graph =>
    let edges := graph.fewestKeys input.options.hasIncomplete
    ⟨edges, apostropheExtended input.raw (pathEnd edges)⟩

/-- The scan matrix of the whole buffer and its parsed form. -/
def retainedParse : Except GraphError RetainedParse := do
  let graph ← buildWithOptions input.raw input.options
  let selected ← input.selectedPath
  let scan := buildScanMatrixOver graph selected.edges input.options input.divided
  .ok ⟨scan, .fromScan scan graph.consumed input.physicalSeparators⟩

/-- The keys of the scan matrix, and the bound of the parsed matrix. -/
def matrixKeys : Except GraphError (List MatrixKey × Nat) :=
  input.retainedParse.map fun retained =>
    (inColumnOrder (retained.scan.flatten.map fun key =>
      ⟨key.key.chewingKey.withTone key.tone, key.syllableStart, key.to_⟩), retained.matrix.bound)

/-- The parsed length of the whole buffer. -/
def fullParsedLen : Nat :=
  if input.raw = [] then 0
  else
    match input.selectedPath with
    | .ok selected => selected.parsedLen
    | .error _ => 0

end ParseInput

/-! ## The two lengths -/

theorem pathEnd_eq {graph : SegmentGraph} {a b : Nat} {es : List Edge} (h : Walk graph a b es) :
    es = [] ∧ a = b ∨ es ≠ [] ∧ pathEnd es = b := by
  induction h with
  | nil n => exact Or.inl ⟨rfl, rfl⟩
  | @cons n t edge es _ _ ih =>
    right
    rcases ih with ⟨rfl, rfl⟩ | ⟨hne, hend⟩
    · exact ⟨by simp, rfl⟩
    · refine ⟨by simp, ?_⟩
      unfold pathEnd at hend ⊢
      rw [List.getLast?_cons, ← hend]
      cases es with
      | nil => exact absurd rfl hne
      | cons => simp [List.getLast?_cons]

theorem pathEnd_of_walk {graph : SegmentGraph} {last : Nat} {es : List Edge}
    (h : Walk graph 0 last es) : pathEnd es = last := by
  rcases pathEnd_eq h with ⟨rfl, rfl⟩ | ⟨_, hend⟩
  · rfl
  · exact hend

namespace ParseInput

/-- The keys without initial-only ones reach as far as all keys do. -/
def CompleteReach (input : ParseInput) : Prop :=
  ∀ n, Reach (Advance input.raw input.options fun _ => True) n →
    ∃ m, n ≤ m ∧ Reach (Advance input.raw input.options fun edge => edge.kind ≠ .incomplete) m

variable {input : ParseInput} {graph : SegmentGraph}

section

variable (h : buildWithOptions input.raw input.options = .ok graph)
include h

/-- The parses of a buffer are those of its graph. -/
theorem retainedParse_eq : input.retainedParse = .ok
      (let scan := buildScanMatrixOver graph (graph.fewestKeys input.options.hasIncomplete)
        input.options input.divided
      ⟨scan, .fromScan scan graph.consumed input.physicalSeparators⟩) := by
  unfold retainedParse selectedPath
  rw [h]
  rfl

/-- The parsed length is the furthest position that admitted keys and apostrophes reach. -/
theorem fullParsedLen_spec :
    Reach (Advance input.raw input.options fun edge =>
      admitted input.options.hasIncomplete edge = true) input.fullParsedLen ∧
    ∀ n, Reach (Advance input.raw input.options fun edge =>
      admitted input.options.hasIncomplete edge = true) n → n ≤ input.fullParsedLen := by
  obtain ⟨last, _, hwalk, _, hreach, hmax⟩ := @fewestKeys_spec _ _ _ input.options.hasIncomplete h
  have hlen : input.fullParsedLen = runEnd (· == apostrophe) input.raw last := by
    unfold fullParsedLen selectedPath
    rw [h]
    split_ifs with hraw
    · have hle := reach_le hreach
      rw [hraw, List.length_nil] at hle
      rw [hraw]
      exact (Nat.le_zero.mp hle).symm
    · exact congrArg (apostropheExtended input.raw) (pathEnd_of_walk hwalk)
  rw [hlen]
  exact ⟨hreach, hmax⟩

theorem fullParsedLen_le_consumed : input.fullParsedLen ≤ graph.consumed := by
  refine (consumed_spec h).2 _ ((fullParsedLen_spec h).1.mono fun a b hab => ?_)
  exact hab.imp_right fun ⟨edge, hedge, _, hto⟩ => ⟨edge, hedge, trivial, hto⟩

/-- All keys reach the parsed length exactly when initial-only ones are admitted or reach no
further than the others. -/
theorem consumed_eq_fullParsedLen :
    graph.consumed = input.fullParsedLen ↔ input.options.hasIncomplete = true ∨ input.CompleteReach := by
  obtain ⟨hfull, hfurthest⟩ := fullParsedLen_spec h
  obtain ⟨hall, hallMax⟩ := consumed_spec h
  have hle := fullParsedLen_le_consumed h
  constructor
  · intro heq
    by_cases hinc : input.options.hasIncomplete = true
    · exact Or.inl hinc
    · refine Or.inr fun n hn => ⟨input.fullParsedLen, heq ▸ hallMax n hn, hfull.mono fun a b hab => ?_⟩
      refine hab.imp_right fun ⟨edge, hedge, hadmitted, hto⟩ => ⟨edge, hedge, ?_, hto⟩
      simpa [admitted, hinc] using hadmitted
  · rintro (hinc | hcomplete)
    · refine Nat.le_antisymm (hfurthest _ (hall.mono fun a b hab => ?_)) hle
      exact hab.imp_right fun ⟨edge, hedge, _, hto⟩ =>
        ⟨edge, hedge, by simp [admitted, hinc], hto⟩
    · obtain ⟨m, hm, hreach⟩ := hcomplete _ hall
      refine Nat.le_antisymm (Nat.le_trans hm (hfurthest m (hreach.mono fun a b hab => ?_))) hle
      exact hab.imp_right fun ⟨edge, hedge, hkind, hto⟩ =>
        ⟨edge, hedge, by simp [admitted, hkind], hto⟩

end

/-- The matrix of a retained parse, over the graph of the buffer. -/
theorem matrix_of_retainedParse {retained : RetainedParse} (h : input.retainedParse = .ok retained) :
    ∃ graph, buildWithOptions input.raw input.options = .ok graph ∧
      retained.matrix = .fromScan (buildScanMatrixOver graph
        (graph.fewestKeys input.options.hasIncomplete) input.options input.divided)
        graph.consumed input.physicalSeparators := by
  obtain ⟨graph, hgraph, _⟩ := bind_eq_ok h
  rw [retainedParse_eq hgraph] at h
  exact ⟨graph, hgraph, by rw [← Except.ok.inj h]⟩

/-- The bound of the retained matrix is the parsed length exactly when initial-only keys are
admitted or reach no further than the others. -/
theorem bound_eq_fullParsedLen_iff {keys : List MatrixKey} {bound : Nat} (h : input.matrixKeys = .ok (keys, bound)) :
    bound = input.fullParsedLen ↔ input.options.hasIncomplete = true ∨ input.CompleteReach := by
  obtain ⟨retained, hretained, hpair⟩ := map_eq_ok h
  obtain ⟨graph, hgraph, hmatrix⟩ := matrix_of_retainedParse hretained
  obtain rfl : graph.consumed = bound := by
    rw [hmatrix] at hpair
    exact (Prod.mk.inj hpair).2
  exact consumed_eq_fullParsedLen hgraph

/-- A buffer with the default options. -/
def plain (text : String) : ParseInput :=
  ⟨ascii text, default, true, true⟩

theorem bound_eq_fullParsedLen_ni : ∃ keys, (plain "ni").matrixKeys = .ok (keys, 2) ∧
    (plain "ni").CompleteReach := by
  have hrun : ((plain "ni").matrixKeys.toOption.map Prod.snd) = some 2 := by decide +kernel
  obtain ⟨⟨keys, bound⟩, hok, rfl⟩ := Option.map_eq_some_iff.mp hrun
  have hkeys := eq_ok_of_toOption hok
  refine ⟨keys, hkeys, ((bound_eq_fullParsedLen_iff hkeys).mp ?_).resolve_left ?_⟩
  · decide +kernel
  · decide

/-- `b` is an initial-only key : the matrix has a column behind it, and the parsed length is
zero. -/
theorem bound_ne_fullParsedLen_b : ∃ keys, (plain "b").matrixKeys = .ok (keys, 1) ∧
    (plain "b").fullParsedLen = 0 := by
  have hrun : ((plain "b").matrixKeys.toOption.map Prod.snd) = some 1 := by decide +kernel
  obtain ⟨⟨keys, bound⟩, hok, rfl⟩ := Option.map_eq_some_iff.mp hrun
  exact ⟨keys, eq_ok_of_toOption hok, by decide +kernel⟩

end ParseInput

end Oxpinyin
