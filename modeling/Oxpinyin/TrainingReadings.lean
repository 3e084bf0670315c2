import Oxpinyin.GenerationPaths
import Oxpinyin.ParsedCells

/-!
# Training readings

Training walks the columns of the parsed matrix again, over the span of one phrase, and
yields every sequence of as many keys as the phrase has characters. It has no zero cells :
it steps over a byte when the byte is an apostrophe and its column is empty.

`trainingReadings_spec` : what the walk yields. `trains_iff` : every key sequence a span
search finds is yielded again, unless the zero cells cover bytes that are no separators.
-/

namespace Oxpinyin

open Option List Backtrack Cuts SegmentGraph Run ParsedMatrix KeyPath GenerationView

/-! ## The iterator -/

/-- The key a reading has for a key of the matrix. -/
def ScanKey.reading (key : ScanKey) : ChewingKey :=
  key.key.chewingKey.withTone key.tone

section Readings

variable (matrix : Columns) (input : Bytes) (stop length : Nat)

/-- One turn of the loop at its top frame, a position and the next key of its column. -/
def expandReading (keys : List ChewingKey) (frame : Nat × Nat) : Outcome (Nat × Nat) ChewingKey :=
  if frame.1 = stop ∧ keys.length = length then .leave [[]]
  else if frame.1 < stop ∧ input[frame.1]? = some apostrophe ∧
      (matrix[frame.1]?).any List.isEmpty then .stay (frame.1 + 1, frame.2)
  else if stop ≤ frame.1 ∨ length ≤ keys.length then .leave []
  else
    match (matrix[frame.1]?).bind fun column => column[frame.2]? with
    | none => .leave []
    | some edge =>
      if edge.to_ ≤ frame.1 then .stay (frame.1, frame.2 + 1)
      else .enter [] (frame.1, frame.2 + 1) edge.reading (edge.to_, 0)

/-- Bounds the turns left at a frame. -/
def readingRank (frame : Nat × Nat) : Nat :=
  (stop - frame.1) * (matrix.flatten.length + 1) + (matrix.flatten.length - frame.2)

/-- Everything the iterator yields from `start`. -/
def trainingReadings (start : Nat) : Option (List (List ChewingKey)) :=
  run (expandReading matrix input stop length) (2 ^ (readingRank matrix stop (start, 0) + 1))
    ⟨[], [], [(start, 0)]⟩

variable {matrix input stop length}

variable (matrix input) in
/-- The iterator steps over the byte at `p`. -/
def HopAt (p : Nat) : Prop :=
  input[p]? = some apostrophe ∧ matrix[p]? = some []

variable (matrix input stop length) in
/-- What a turn does, case by case. -/
inductive ReadingTurn (keys : List ChewingKey) (p i : Nat) : Outcome (Nat × Nat) ChewingKey → Prop
  | yields : p = stop → keys.length = length → ReadingTurn keys p i (.leave [[]])
  | hop : p < stop → HopAt matrix input p → ReadingTurn keys p i (.stay (p + 1, i))
  | full : ¬ (p = stop ∧ keys.length = length) → ¬ (p < stop ∧ HopAt matrix input p) →
      stop ≤ p ∨ length ≤ keys.length → ReadingTurn keys p i (.leave [])
  | spent : p < stop → ¬ HopAt matrix input p →
      ((matrix[p]?).bind fun column => column[i]?) = none → ReadingTurn keys p i (.leave [])
  | skip {edge : ScanKey} : ((matrix[p]?).bind fun column => column[i]?) = some edge →
      p < stop → ¬ HopAt matrix input p → edge.to_ ≤ p → ReadingTurn keys p i (.stay (p, i + 1))
  | key {edge : ScanKey} : ((matrix[p]?).bind fun column => column[i]?) = some edge →
      p < stop → ¬ HopAt matrix input p → p < edge.to_ →
      ReadingTurn keys p i (.enter [] (p, i + 1) edge.reading (edge.to_, 0))

variable {frame : Nat × Nat}

theorem turn_of_eq {keys : List ChewingKey} {outcome : Outcome (Nat × Nat) ChewingKey}
    (h : expandReading matrix input stop length keys frame = outcome) :
    ReadingTurn matrix input stop length keys frame.1 frame.2 outcome := by
  obtain ⟨p, i⟩ := frame
  subst h
  have hempty : (matrix[p]?).any List.isEmpty = true ↔ matrix[p]? = some [] := by
    cases matrix[p]? <;> simp
  unfold expandReading
  dsimp only
  split_ifs with hdone hhop hleave
  · exact .yields hdone.1 hdone.2
  · exact .hop hhop.1 ⟨hhop.2.1, hempty.mp hhop.2.2⟩
  · exact .full hdone (fun h => hhop ⟨h.1, h.2.1, hempty.mpr h.2.2⟩) hleave
  · rw [not_or, Nat.not_le, Nat.not_le] at hleave
    have hno : ¬ HopAt matrix input p := fun h => hhop ⟨hleave.1, h.1, hempty.mpr h.2⟩
    split
    · rename_i hnone
      exact .spent hleave.1 hno hnone
    · rename_i edge hedge
      split_ifs with hto
      · exact .skip hedge hleave.1 hno hto
      · exact .key hedge hleave.1 hno (by omega)

variable {p i : Nat} {edge : ScanKey}

section

variable (h : ((matrix[p]?).bind fun column => column[i]?) = some edge)
include h

theorem index_lt : i < matrix.flatten.length := by
  obtain ⟨column, hcolumn, hedge⟩ := bind_eq_some_iff.mp h
  have hlt := (List.getElem?_eq_some_iff.mp hedge).1
  exact Nat.lt_of_lt_of_le hlt (sublist_flatten_of_mem (mem_of_getElem? hcolumn)).length_le

theorem rank_index_lt :
    readingRank matrix stop (p, i + 1) < readingRank matrix stop (p, i) := by
  have := index_lt h
  unfold readingRank
  dsimp only
  omega

end

theorem rank_position_lt {q : Nat} (i j : Nat) (hp : p < stop) (hpq : p < q) :
    readingRank matrix stop (q, j) < readingRank matrix stop (p, i) := by
  have hmul : (stop - q) * (matrix.flatten.length + 1) + (matrix.flatten.length + 1) ≤
      (stop - p) * (matrix.flatten.length + 1) := by
    rw [← Nat.succ_mul]
    exact Nat.mul_le_mul_right _ (by omega)
  unfold readingRank
  dsimp only
  omega

theorem ranked_expandReading : Ranked (expandReading matrix input stop length)
    (fun _ => readingRank matrix stop) := by
  refine ⟨?_, ?_, ?_⟩
  · rintro keys ⟨p, i⟩ next hstay
    cases turn_of_eq hstay with
    | hop hp _ => exact rank_position_lt i i hp (Nat.lt_succ_self p)
    | skip hedge _ _ _ => exact rank_index_lt hedge
  · rintro keys ⟨p, i⟩ found resume label child henter
    cases turn_of_eq henter with
    | key hedge _ _ _ => exact rank_index_lt hedge
  · rintro keys ⟨p, i⟩ found resume label child henter
    cases turn_of_eq henter with
    | key hedge hp _ hto => exact rank_position_lt i 0 hp hto

/-! ## What is yielded -/

variable {keys : List ScanKey}

variable (matrix input stop) in
/-- Keys from a position to `stop`, the first from index `i` of its column on. -/
inductive Reads : Nat → Nat → List ScanKey → Prop
  | done {i : Nat} : Reads stop i []
  | hop {p i : Nat} {keys : List ScanKey} : p < stop → HopAt matrix input p →
      Reads (p + 1) i keys → Reads p i keys
  | key {p i j : Nat} {edge : ScanKey} {keys : List ScanKey} : p < stop →
      ¬ HopAt matrix input p → i ≤ j → ((matrix[p]?).bind fun column => column[j]?) = some edge →
      p < edge.to_ → Reads edge.to_ 0 keys → Reads p i (edge :: keys)

theorem Reads.le (h : Reads matrix input stop p i keys) : p ≤ stop := by
  cases h with
  | done => exact Nat.le_refl _
  | hop hp _ _ => exact Nat.le_of_lt hp
  | key hp _ _ _ _ _ => exact Nat.le_of_lt hp

theorem reads_stop (h : Reads matrix input stop stop i keys) : keys = [] := by
  cases h with
  | done => rfl
  | hop hp _ _ => exact absurd hp (Nat.lt_irrefl _)
  | key hp _ _ _ _ _ => exact absurd hp (Nat.lt_irrefl _)

theorem reads_hop_iff (hp : p < stop) (hhop : HopAt matrix input p) :
    Reads matrix input stop p i keys ↔ Reads matrix input stop (p + 1) i keys := by
  refine ⟨fun h => ?_, .hop hp hhop⟩
  cases h with
  | done => exact absurd hp (Nat.lt_irrefl _)
  | hop _ _ hrest => exact hrest
  | key _ hno _ _ _ _ => exact absurd hhop hno

/-- Reading at a key of a column : the key, if it runs forward, or those behind it. -/
theorem reads_key_iff (hp : p < stop) (hno : ¬ HopAt matrix input p)
    (hedge : ((matrix[p]?).bind fun column => column[i]?) = some edge) :
    Reads matrix input stop p i keys ↔
      (p < edge.to_ ∧ ∃ rest, keys = edge :: rest ∧ Reads matrix input stop edge.to_ 0 rest) ∨
      Reads matrix input stop p (i + 1) keys := by
  constructor
  · intro h
    cases h with
    | done => exact absurd hp (Nat.lt_irrefl _)
    | hop _ hhop _ => exact absurd hhop hno
    | @key _ _ j found keys _ _ hij hfound hto hrest =>
      rcases Nat.lt_or_eq_of_le hij with hlt | rfl
      · exact Or.inr (.key hp hno hlt hfound hto hrest)
      · obtain rfl := some.inj (hfound.symm.trans hedge)
        exact Or.inl ⟨hto, keys, rfl, hrest⟩
  · rintro (⟨hto, rest, rfl, hrest⟩ | h)
    · exact .key hp hno (Nat.le_refl i) hedge hto hrest
    · cases h with
      | done => exact absurd hp (Nat.lt_irrefl _)
      | hop _ hhop _ => exact absurd hhop hno
      | key _ _ hij hfound hto hrest => exact .key hp hno (by omega) hfound hto hrest

theorem reads_spent (hp : p < stop) (hno : ¬ HopAt matrix input p)
    (hnone : ((matrix[p]?).bind fun column => column[i]?) = none) : ¬ Reads matrix input stop p i keys := by
  intro h
  cases h with
  | done => exact absurd hp (Nat.lt_irrefl _)
  | hop _ hhop _ => exact absurd hhop hno
  | @key _ _ j edge _ _ _ hij hfound _ _ =>
    obtain ⟨column, hcolumn, hedge⟩ := bind_eq_some_iff.mp hfound
    rw [hcolumn, bind_some, List.getElem?_eq_none_iff] at hnone
    have := (List.getElem?_eq_some_iff.mp hedge).1
    omega

/-- A frame yields the readings from it that bring the keys to the length. -/
theorem mem_of_yields {keys : List ChewingKey} {ys : List (List ChewingKey)}
    {n : Nat} (h : Yields (expandReading matrix input stop length) keys frame ys n) :
    ∀ y, y ∈ ys ↔ ∃ rest, Reads matrix input stop frame.1 frame.2 rest ∧
      keys.length + rest.length = length ∧ y = keys ++ rest.map ScanKey.reading := by
  induction h with
  | @leave keys frame found hleave =>
    obtain ⟨p, i⟩ := frame
    intro y
    cases turn_of_eq hleave with
    | yields hp hlen =>
      subst hp
      constructor
      · intro hy
        exact ⟨[], .done, hlen, by simpa using hy⟩
      · rintro ⟨rest, hreads, _, rfl⟩
        rw [reads_stop hreads]
        simp
    | full hdone hhop hleft =>
      refine ⟨fun hy => by simp at hy, ?_⟩
      rintro ⟨rest, hreads, hlen, _⟩
      exfalso
      rcases hleft with hstop | hlong
      · obtain rfl : p = stop := Nat.le_antisymm hreads.le hstop
        rw [reads_stop hreads] at hlen
        exact hdone ⟨rfl, hlen⟩
      · obtain rfl : rest = [] := length_eq_zero_iff.mp (by omega)
        cases hreads with
        | done => exact hdone ⟨rfl, hlen⟩
        | hop hp hat _ => exact hhop ⟨hp, hat⟩
    | spent hp hno hnone =>
      refine ⟨fun hy => by simp at hy, ?_⟩
      rintro ⟨rest, hreads, _, _⟩
      exact absurd hreads (reads_spent hp hno hnone)
  | @stay keys frame next ys n hstay _ ih =>
    obtain ⟨p, i⟩ := frame
    intro y
    rw [ih y]
    cases turn_of_eq hstay with
    | hop hp hhop => simp only [reads_hop_iff hp hhop]
    | skip hedge hp hno hto =>
      have hback : ¬ p < _ := Nat.not_lt.mpr hto
      simp only [reads_key_iff hp hno hedge, hback, false_and, false_or]
  | @enter keys frame found resume label child ys zs m n henter _ _ ihc ihr =>
    obtain ⟨p, i⟩ := frame
    intro y
    cases turn_of_eq henter with
    | key hedge hp hno hto =>
      rw [map_nil, nil_append, mem_append, ihc y, ihr y]
      constructor
      · rintro (⟨rest, hreads, hlen, rfl⟩ | ⟨rest, hreads, hlen, rfl⟩)
        · refine ⟨_ :: rest, (reads_key_iff hp hno hedge).mpr (Or.inl ⟨hto, rest, rfl, hreads⟩), ?_, ?_⟩
          · simp only [length_append, length_cons, length_nil] at hlen ⊢
            omega
          · simp
        · exact ⟨rest, (reads_key_iff hp hno hedge).mpr (Or.inr hreads), hlen, rfl⟩
      · rintro ⟨rest, hreads, hlen, rfl⟩
        rcases (reads_key_iff hp hno hedge).mp hreads with ⟨_, tail, rfl, htail⟩ | hreads
        · refine Or.inl ⟨tail, htail, ?_, by simp⟩
          simp only [length_append, length_cons, length_nil] at hlen ⊢
          omega
        · exact Or.inr ⟨rest, hreads, hlen, rfl⟩

/-- The iterator ends, and it yields the readings of the length. -/
theorem trainingReadings_spec (matrix : Columns) (input : Bytes) (stop length start : Nat) :
    ∃ readings, trainingReadings matrix input stop length start = some readings ∧
      ∀ y, y ∈ readings ↔ ∃ keys, Reads matrix input stop start 0 keys ∧ keys.length = length ∧
        y = keys.map ScanKey.reading := by
  obtain ⟨ys, n, hyields, hrun⟩ := run_eq_of_ranked
    (@ranked_expandReading matrix input stop length) (f := (start, 0)) (Nat.le_refl _)
  refine ⟨ys, hrun, fun y => ?_⟩
  rw [mem_of_yields hyields y]
  simp

end Readings

/-! ## Searches and readings -/

/-- The readings of a path. -/
def KeyPath.readings (path : KeyPath) : List ChewingKey :=
  List.zipWith (fun key tone => key.chewingKey.withTone tone) path.keys path.tones

theorem readings_extend (keys : List ScanKey) : (extend ⟨[], []⟩ keys).readings = keys.map ScanKey.reading := by
  unfold readings extend
  induction keys with
  | nil => rfl
  | cons key keys ih =>
    simp only [nil_append, map_cons, zipWith_cons_cons] at ih ⊢
    rw [ih]
    rfl

/-- The view of the span search on a parsed matrix. -/
def ParsedMatrix.view (matrix : ParsedMatrix) : GenerationView :=
  ⟨matrix.columns, matrix.zeros⟩

theorem mem_getD_iff {columns : Columns} {p : Nat} {key : ScanKey} :
    key ∈ columns.getD p [] ↔ ∃ j : Nat, ((columns[p]?).bind fun column => column[j]?) = some key := by
  rw [getD_eq_getElem?_getD]
  cases columns[p]? with
  | none => simp
  | some column => simp [mem_iff_getElem?]

theorem getElem?_eq_nil {columns : Columns} {i : Nat} (hi : i < columns.length)
    (hnil : columns.getD i [] = []) : columns[i]? = some [] := by
  have hget := getElem?_eq_getElem hi
  rw [getD_eq_getElem?_getD, hget, getD_some] at hnil
  rw [hget, hnil]

/-- Where every zero cell is a byte the iterator steps over, a path of the search is a
reading. -/
theorem reads_of_follows {matrix : ParsedMatrix} {input : Bytes} {stop p : Nat} {keys : List ScanKey}
    (hzeros : ∀ p, p < stop → matrix.zeros.getD p false = true → HopAt matrix.columns input p)
    (h : matrix.view.Follows stop p keys) : Reads matrix.columns input stop p 0 keys := by
  induction h with
  | done => exact .done
  | zero hp hzero _ ih => exact .hop hp (hzeros _ hp hzero) ih
  | key hp _ hkey hto _ _ ih =>
    obtain ⟨j, hj⟩ := mem_getD_iff.mp hkey
    refine .key hp (fun hhop => ?_) (Nat.zero_le j) hj hto ih
    simp only [view] at hj
    rw [hhop.2] at hj
    simp at hj

/-- A reading does not pass a byte that is no apostrophe where no key goes beyond it. -/
theorem not_reads {columns : Columns} {input : Bytes} {stop p i wall : Nat} {keys : List ScanKey}
    (h : Reads columns input stop p i keys) (hp : p ≤ wall) (hwall : wall < stop)
    (hends : ∀ p, ∀ key ∈ columns.getD p [], key.to_ ≤ wall) (hbyte : input[wall]? ≠ some apostrophe) : False := by
  induction h with
  | done => omega
  | @hop p i keys _ hhop _ ih =>
    rcases Nat.lt_or_eq_of_le hp with hlt | rfl
    · exact ih (by omega)
    · exact hbyte hhop.1
  | key _ _ _ hedge _ _ ih => exact ih (hends _ _ (mem_getD_iff.mpr ⟨_, hedge⟩))

namespace ParseInput

variable {input : ParseInput} {retained : RetainedParse}

/-- Every key sequence a span search finds is a training reading of the span. -/
def Trains (input : ParseInput) (retained : RetainedParse) : Prop :=
  ∀ (ε : Type) (dictionary : Dictionary ε) (start stop : Nat) (found : SpanRanges)
    (continued : Bool), stop ≤ retained.matrix.bound →
    retained.matrix.view.walk dictionary stop (stop - start) start ⟨[], []⟩ (.empty, false) =
      .ok (found, continued) →
    ∀ path ∈ found.paths, ∃ readings,
      trainingReadings retained.matrix.columns input.raw stop path.keys.length start =
        some readings ∧ path.readings ∈ readings

/-- No complete key stands at the start of the buffer. -/
def StartsWithoutKey (input : ParseInput) : Prop :=
  ∀ edge ∈ edgesAt input.raw input.options 0, edge.kind = .incomplete

/-- The selected path of a buffer, with its end and the length it parses. -/
theorem selectedOver {graph : SegmentGraph} (h : buildWithOptions input.raw input.options = .ok graph) :
    ∃ last, SelectedOver input.raw input.options graph (graph.fewestKeys input.options.hasIncomplete) last ∧
      input.fullParsedLen = runEnd (· == apostrophe) input.raw last ∧
      ∀ edge ∈ graph.fewestKeys input.options.hasIncomplete,
        admitted input.options.hasIncomplete edge = true := by
  obtain ⟨last, hle, hwalk, hedges, hreach, hmax⟩ := @fewestKeys_spec _ _ _ input.options.hasIncomplete h
  refine ⟨last, ⟨h, hwalk, fun edge he => (hedges edge he).1, hle⟩, ?_, fun edge he => (hedges edge he).2⟩
  obtain ⟨hfull, hfullMax⟩ := fullParsedLen_spec h
  exact Nat.le_antisymm (hmax _ hfull) (hfullMax _ hreach)

/-- A search that steps over separators only trains. -/
theorem trains_of_zeros (hzeros : ∀ p, p < retained.matrix.bound → retained.matrix.zeros.getD p false = true →
      HopAt retained.matrix.columns input.raw p) : input.Trains retained := by
  intro ε dictionary start stop found continued hstop hwalk path hpath
  obtain hold | ⟨keys, hfollows, rfl, _⟩ := walk_sound hwalk path hpath
  · simp [SpanRanges.empty] at hold
  · have hreads := reads_of_follows (fun p hp => hzeros p (by omega)) hfollows
    obtain ⟨readings, hrun, hmem⟩ := trainingReadings_spec retained.matrix.columns input.raw stop
      (extend ⟨[], []⟩ keys).keys.length start
    refine ⟨readings, hrun, (hmem _).mpr ⟨keys, hreads, ?_, readings_extend keys⟩⟩
    simp [extend]

/-- Without keys there is nothing to train. -/
theorem trains_of_empty (hcolumns : ∀ p, retained.matrix.columns.getD p [] = []) : input.Trains retained := by
  intro ε dictionary start stop found continued _ hwalk path hpath
  obtain hold | ⟨keys, hfollows, rfl, hne⟩ := walk_sound hwalk path hpath
  · simp [SpanRanges.empty] at hold
  · exfalso
    have hnil : keys = [] := by
      clear hwalk hpath hne
      induction hfollows with
      | done => rfl
      | zero _ _ _ ih => exact ih
      | @key p _ _ _ _ hkey _ _ _ _ =>
        rw [show retained.matrix.view.columns.getD p [] = [] from hcolumns p] at hkey
        simp at hkey
    rw [hnil] at hne
    exact hne rfl

/-- Zero cells alone lead nowhere but to their end. -/
theorem follows_zeros {view : GenerationView} {stop : Nat} : ∀ (d : Nat) {p : Nat}, p + d = stop →
    (∀ i, p ≤ i → i < stop → view.zeros.getD i false = true) → view.Follows stop p []
  | 0, p, hp, _ => by
    obtain rfl : p = stop := hp
    exact .done
  | d + 1, p, hp, hzeros =>
    .zero (by omega) (hzeros p (Nat.le_refl p) (by omega))
      (follows_zeros d (by omega) fun i hi hstop => hzeros i (by omega) hstop)

variable {graph : SegmentGraph}

variable {divided : Bool}

variable {physical : Bool}

/-- Without a selected key the matrix has none. -/
theorem columns_of_unselected {last : Nat}
    (h : SelectedOver input.raw input.options graph [] last) (p : Nat) :
    (fromScan (buildScanMatrixOver graph [] input.options divided)
      graph.consumed physical).columns.getD p [] = [] := by
  rw [eq_nil_iff_forall_not_mem]
  intro found hfound
  obtain ⟨key, hkey, _⟩ := mem_column hfound
  have hcovered := h.covered hkey
  obtain ⟨edge, hedge, _⟩ := hcovered.text _ (Nat.le_refl _) hcovered.forward
  simp at hedge

/-- With no complete key at the start and no other admitted nothing is selected. -/
theorem selected_of_startsWithoutKey (hinc : input.options.hasIncomplete = false)
    (hstart : input.StartsWithoutKey) (hgraph : buildWithOptions input.raw input.options = .ok graph) :
    graph.fewestKeys input.options.hasIncomplete = [] := by
  obtain ⟨last, hover, _, hadmitted⟩ := selectedOver hgraph
  cases hselected : graph.fewestKeys input.options.hasIncomplete with
  | nil => rfl
  | cons edge rest =>
    exfalso
    have hwalk := hover.walk
    rw [hselected] at hwalk hadmitted
    cases hwalk with
    | cons hout _ =>
      rw [outgoing_eq_edgesAt hgraph (Nat.zero_le _)] at hout
      have hkind := hadmitted edge mem_cons_self
      simp [admitted, hinc, hstart edge hout] at hkind

/-- With a complete key at the start something is selected. -/
theorem selected_ne_nil (hstart : ¬ input.StartsWithoutKey)
    (hgraph : buildWithOptions input.raw input.options = .ok graph) :
    graph.fewestKeys input.options.hasIncomplete ≠ [] := by
  intro hselected
  obtain ⟨last, hover, hlen, _⟩ := selectedOver hgraph
  have hwalk := hover.walk
  rw [hselected] at hwalk
  obtain rfl : 0 = last := pathEnd_of_walk hwalk
  refine hstart fun edge hedge => ?_
  by_contra hkind
  have hto := (fullParsedLen_spec hgraph).2 edge.to_
    (.step .zero (Or.inr ⟨edge, hedge, by simp [admitted, hkind], rfl⟩))
  obtain ⟨_, l, hl, _, hspan⟩ := mem_edgesAt.mp hedge
  obtain ⟨_, _, _, _, _, hend, _⟩ := spanEdge_eq_some hspan
  omega

/-- Where the selected path reaches the bound, the cells behind it are separators. -/
theorem hopAt_of_zero (hgraph : buildWithOptions input.raw input.options = .ok graph)
    (hbound : graph.consumed = input.fullParsedLen)
    (hne : graph.fewestKeys input.options.hasIncomplete ≠ []) {i : Nat}
    (hi : i < graph.consumed) (hzero : (fromScan (buildScanMatrixOver graph
      (graph.fewestKeys input.options.hasIncomplete) input.options divided)
      graph.consumed physical).zeros.getD i false = true) :
    HopAt (fromScan (buildScanMatrixOver graph
      (graph.fewestKeys input.options.hasIncomplete) input.options divided)
      graph.consumed physical).columns input.raw i := by
  obtain ⟨last, hover, hlen, _⟩ := selectedOver hgraph
  obtain ⟨rfl, htext, hbyte⟩ := hover.zeros_cases hne hi hzero
  refine ⟨byteIs_apostrophe_iff.mp ?_, ?_⟩
  · rcases hbyte with hbyte | hbehind
    · exact hbyte
    · exact byteIs_of_lt_runEnd hbehind (by omega)
  · have hnil := @SelectedOver.columns_nil _ _ _ _ _ divided _ hover (Nat.le_of_lt hi) htext
    refine getElem?_eq_nil ?_ hnil
    rw [(fromScan_spec _ _ _).2.1]
    omega

theorem completeness_of_admitted {edge : Edge} {node : Nat}
    (hedge : edge ∈ edgesAt input.raw input.options node) (hadmitted : admitted false edge = true) :
    edge.key.completeness = .Complete := by
  obtain ⟨_, l, _, _, hspan⟩ := mem_edgesAt.mp hedge
  obtain ⟨key, _, _, _, _, _, _, rfl, _, _, hkind⟩ := spanEdge_eq_some hspan
  have hne : edge.kind ≠ .incomplete := by simpa [admitted] using hadmitted
  cases hcompleteness : edge.key.completeness with
  | Complete => rfl
  | Partial => exact absurd (hkind.mpr hcompleteness) hne

/-- A dictionary without phrases. -/
def emptyDictionary : Dictionary Empty :=
  ⟨fun _ _ => .ok (.empty, false), fun _ _ _ => .ok none, fun _ _ _ => .ok none⟩

/-- Where the selected path stops short of the bound behind a key, a search from the last
key passes bytes that are no separators. -/
theorem not_trains {matrix : ParsedMatrix} (hinc : input.options.hasIncomplete = false)
    (hgraph : buildWithOptions input.raw input.options = .ok graph)
    (hbound : input.fullParsedLen < graph.consumed) (hne : graph.fewestKeys input.options.hasIncomplete ≠ [])
    (hmatrix : matrix = .fromScan (buildScanMatrixOver graph
      (graph.fewestKeys input.options.hasIncomplete) input.options divided) graph.consumed true)
    (hretained : retained.matrix = matrix) : ¬ input.Trains retained := by
  obtain ⟨last, hover, hlen, hadmitted⟩ := selectedOver hgraph
  have hlast : last ≤ input.fullParsedLen := hlen ▸ le_runEnd
  have hmatrixBound : matrix.bound = graph.consumed := by rw [hmatrix]; rfl
  obtain ⟨key, hkey, hto⟩ := @SelectedOver.exists_last _ _ _ _ _ divided hover hne
  have hcovered := hover.covered hkey
  have hforward := hcovered.forward
  -- the search : the last key, then the zero cells up to the bound
  have hfollows : matrix.view.Follows graph.consumed key.syllableStart
      [settled true key] := by
    have hcolumn := hover.columnOf_physical hkey
    refine .key (by omega) ?_ ?_ ?_ ?_ (follows_zeros (graph.consumed - last) ?_ fun i hi hstop => ?_)
    · rw [hmatrix]
      exact hover.zeros_text (hcovered.text _ (Nat.le_refl _) hforward)
    · rw [hmatrix]
      change _ ∈ (fromScan _ _ _).columns.getD _ _
      rw [(fromScan_spec _ _ _).1 _ (by omega)]
      exact mem_map_of_mem (mem_filter.mpr ⟨hkey, beq_iff_eq.mpr hcolumn⟩)
    · exact hforward
    · change key.to_ ≤ graph.consumed
      omega
    · change key.to_ + _ = graph.consumed
      omega
    · rw [hmatrix]
      refine hover.zeros_behind ?_ hstop
      change key.to_ ≤ i at hi
      omega
  intro htrains
  have hcomplete : ∀ p, ∀ found ∈ matrix.view.columns.getD p [],
      found.key.completeness = .Complete := by
    intro p found hfound
    rw [hmatrix] at hfound
    obtain ⟨other, hother, _, rfl⟩ := mem_column hfound
    refine (hover.covered hother).complete fun edge hedge => ?_
    exact completeness_of_admitted (hover.edges edge hedge) (hinc ▸ hadmitted edge hedge)
  obtain ⟨⟨found, continued⟩, hwalk⟩ := @GenerationView.walk_ok Empty matrix.view emptyDictionary
    graph.consumed (fun _ _ => ⟨_, rfl⟩) hcomplete (graph.consumed - key.syllableStart)
    key.syllableStart ⟨[], []⟩ (.empty, false) (by simp)
  have hpath := (walk_complete hwalk (Nat.le_refl _)).2 _ hfollows
    (by simp [extend, maxPhraseLength]) (by simp [extend])
  rw [← hretained] at hwalk
  obtain ⟨readings, hrun, hmem⟩ := htrains Empty emptyDictionary _ _ found continued
    (by rw [hretained, hmatrixBound]) hwalk _ hpath
  obtain ⟨all, hall, hspec⟩ := trainingReadings_spec retained.matrix.columns input.raw
    graph.consumed (extend ⟨[], []⟩ [settled true key]).keys.length
    key.syllableStart
  obtain rfl := some.inj (hrun.symm.trans hall)
  obtain ⟨keys, hreads, _⟩ := (hspec _).mp hmem
  -- the byte behind the selected path is no apostrophe, and no key goes beyond it
  refine @not_reads _ _ _ _ _ input.fullParsedLen _ hreads (by omega) hbound (fun p found hfound => ?_) ?_
  · rw [hretained, hmatrix] at hfound
    obtain ⟨other, hother, _, rfl⟩ := mem_column hfound
    have hend := hover.to_le hother
    exact Nat.le_trans hend hlast
  · rw [hlen, Ne, ← byteIs_apostrophe_iff, byteIs_runEnd]
    simp

/-- Training yields every key sequence a span search finds, exactly when apostrophes are no
physical separators, nothing is selected, or the selected path reaches the bound. -/
theorem trains_iff (h : input.retainedParse = .ok retained) :
    input.Trains retained ↔ input.physicalSeparators = false ∨ input.StartsWithoutKey ∨
      input.options.hasIncomplete = true ∨ input.CompleteReach := by
  obtain ⟨graph, hgraph, hmatrix⟩ := matrix_of_retainedParse h
  have hbound : retained.matrix.bound = graph.consumed := by rw [hmatrix]; rfl
  constructor
  · intro htrains
    by_contra hnot
    simp only [not_or, Bool.not_eq_false, Bool.not_eq_true] at hnot
    obtain ⟨hphysical, hstart, hinc, hreach⟩ := hnot
    rw [hphysical] at hmatrix
    refine not_trains hinc hgraph ?_ (selected_ne_nil hstart hgraph) hmatrix rfl htrains
    refine Nat.lt_of_le_of_ne (fullParsedLen_le_consumed hgraph) fun heq => ?_
    rcases (consumed_eq_fullParsedLen hgraph).mp heq.symm with hinc' | hreach'
    · rw [hinc] at hinc'
      cases hinc'
    · exact hreach hreach'
  · intro hcases
    by_cases hne : graph.fewestKeys input.options.hasIncomplete = []
    · obtain ⟨last, hover, _⟩ := selectedOver hgraph
      rw [hne] at hover hmatrix
      refine trains_of_empty fun p => ?_
      rw [hmatrix]
      exact columns_of_unselected hover p
    · refine trains_of_zeros fun p hp hzero => ?_
      rw [hbound] at hp
      rw [hmatrix] at hzero ⊢
      have hfull : graph.consumed = input.fullParsedLen := by
        refine (consumed_eq_fullParsedLen hgraph).mpr ?_
        rcases hcases with hlogical | hstart | hrest
        · have := ((ParsedMatrix.fromScan_spec _ _ _).2.2.1 p hp hzero).1
          rw [hlogical] at this
          cases this
        · rw [← Bool.not_eq_false]
          by_contra hinc
          rw [not_or, not_not] at hinc
          exact hne (selected_of_startsWithoutKey hinc.1 hstart hgraph)
        · exact hrest
      exact hopAt_of_zero hgraph hfull hne hp hzero

/-- Every search over `ni` trains : its path is the whole buffer. -/
theorem trains_ni : ∃ retained, (plain "ni").retainedParse = .ok retained ∧
    (plain "ni").Trains retained := by
  have hlen : (buildWithOptions (plain "ni").raw (plain "ni").options).toOption.map (·.consumed) =
      some (plain "ni").fullParsedLen := by decide +kernel
  obtain ⟨graph, hgraph, hconsumed⟩ := Option.map_eq_some_iff.mp hlen
  have hbuilt := eq_ok_of_toOption hgraph
  have hretained := retainedParse_eq hbuilt
  refine ⟨_, hretained, (trains_iff hretained).mpr ?_⟩
  exact Or.inr (Or.inr ((consumed_eq_fullParsedLen hbuilt).mp hconsumed))

/-- In `nib` the last key is followed by a zero cell over `b`, which no reading passes. -/
theorem not_trains_nib : ∃ retained, (plain "nib").retainedParse = .ok retained ∧
    ¬ (plain "nib").Trains retained := by
  have hparse : ((buildWithOptions (plain "nib").raw (plain "nib").options).toOption.map
      fun graph => (graph.consumed, (graph.fewestKeys (plain "nib").options.hasIncomplete).length)) =
      some (3, 1) := by decide +kernel
  obtain ⟨graph, hgraph, hpair⟩ := Option.map_eq_some_iff.mp hparse
  obtain ⟨hconsumed, hselected⟩ := Prod.mk.inj hpair
  have hbuilt := eq_ok_of_toOption hgraph
  have hlen : (plain "nib").fullParsedLen = 2 := by decide +kernel
  refine ⟨_, retainedParse_eq hbuilt, not_trains rfl hbuilt (by omega) (fun hnil => ?_) rfl rfl⟩
  rw [hnil] at hselected
  cases hselected

end ParseInput

end Oxpinyin
