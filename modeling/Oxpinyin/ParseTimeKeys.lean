import Oxpinyin.ParsedCells
import Oxpinyin.Lib.Lockstep
import Mathlib.Data.List.Find
import Mathlib.Data.List.Sort

/-!
# The matrix of a parser's own keys

A parser that places its keys itself asks `parseTimeKeys` for the matrix of them. It runs the
passes of the scan matrix a second time, over chewing keys filed under the start of their text,
where the scan matrix files syllables under the graph node they leave. `Starts` says which node
is which start, and the two matrices are in step along it (`Tracks`). Where no ambiguity bit is
set, the keys of the selected path come out alike (`parseTimeKeys_scan`).
-/

namespace Oxpinyin

open List Cuts SegmentGraph Lockstep ChewingKey ScanKey SyllableKey

/-! ## Keys by their start -/

/-- The tone of a key. -/
def MatrixKey.tone (key : MatrixKey) : Nat := key.key.tone

deriving instance DecidableEq for MatrixKey

/-- One column a byte position. -/
abbrev MatrixColumns := List (List MatrixKey)

/-- Appends a key to a column. -/
def MatrixColumns.push (columns : MatrixColumns) (index : Nat) (key : MatrixKey) : MatrixColumns :=
  columns.modify index (· ++ [key])

/-- Adds the two halves of a split. They meet where the left text ends. -/
def appendMatrixSplit (columns : MatrixColumns) (key : MatrixKey) (stop : Nat)
    (left right : Bytes) : MatrixColumns :=
  match ChewingKey.fromPinyin left, ChewingKey.fromPinyin right with
  | some leftKey, some rightKey =>
    let split := key.syllableStart + left.length
    if columns.length ≤ split then columns
    else
      (columns.push key.syllableStart ⟨leftKey, key.syllableStart, split⟩).push split
        ⟨rightKey, split, stop⟩
  | _, _ => columns

/-- Resplits one pair of neighbours, if the table has it. -/
def resplitMatrixPair (key : MatrixKey) (columns : MatrixColumns) (next : MatrixKey) :
    MatrixColumns :=
  if key.tone ≠ 0 ∨ next.tone ≠ 0 ∨ next.syllableStart ≠ key.stop then columns
  else
    match resplitTable.find? fun row =>
      ChewingKey.fromPinyin row.1 == some key.key &&
        ChewingKey.fromPinyin row.2.1 == some next.key with
    | some (_, _, left, right) => appendMatrixSplit columns key next.stop left right
    | none => columns

/-- Resplits a key with every key of the column it ends at. -/
def resplitMatrixKey (columns : MatrixColumns) (key : MatrixKey) : MatrixColumns :=
  match columns[key.stop]? with
  | some nexts => nexts.foldl (resplitMatrixPair key) columns
  | none => columns

/-- Divides one key, if the table has it. -/
def dividedMatrixKey (columns : MatrixColumns) (key : MatrixKey) : MatrixColumns :=
  if key.tone ≠ 0 then columns
  else
    match dividedTable.find? fun row => ChewingKey.fromPinyin row.1 == some key.key with
    | some (_, left, right) => appendMatrixSplit columns key key.stop left right
    | none => columns

/-- Visits the keys of the first columns, each as it stands when its column is reached. -/
def visitColumns {α : Type} (visit : List (List α) → α → List (List α)) (count : Nat)
    (columns : List (List α)) : List (List α) :=
  (List.range count).foldl
    (fun columns index => (columns.getD index []).foldl visit columns) columns

/-- The fuzzy alternates of a column behind its keys. -/
def withFuzzy (options : OptionBits) (column : List MatrixKey) : List MatrixKey :=
  column ++ column.flatMap fun key =>
    (fuzzyChewingAlternatives key.key options).map fun alternate =>
      ⟨alternate, key.syllableStart, key.stop⟩

/-- The first of each key of a column. -/
def uniqueKeys (column : List MatrixKey) : List MatrixKey :=
  column.foldl (fun unique key => if key ∈ unique then unique else unique ++ [key]) []

/-- The matrix of keys a parser placed outside the graph, in column order. -/
def parseTimeKeys (keys : List MatrixKey) (parsedLen : Nat) (options : OptionBits)
    (divided : Bool) : List MatrixKey :=
  if keys = [] then []
  else
    let columns : MatrixColumns := keys.foldl
      (fun columns key => MatrixColumns.push columns key.syllableStart key)
      (List.replicate (parsedLen + 1) [])
    let columns := if divided && options.hasResplitTable then
      visitColumns resplitMatrixKey parsedLen columns else columns
    let columns := if divided && options.hasDividedTable then
      visitColumns dividedMatrixKey columns.length columns else columns
    (columns.map fun column => uniqueKeys (withFuzzy options column)).flatten

/-- A scan key as a matrix key. -/
def ScanKey.matrixKey (key : ScanKey) : MatrixKey :=
  ⟨key.key.chewingKey.withTone key.tone, key.syllableStart, key.to_⟩

/-- The option word has no ambiguity bit. -/
def OptionBits.Unambiguous (options : OptionBits) : Prop :=
  ∀ pair ∈ fuzzyInitials ++ fuzzyFinals, options.contains pair.1 = false

/-! ## Chewing keys of syllables -/

/-- The spellings of all keys, by dense id. -/
def keySpellings : List Bytes :=
  fullPinyinSyllables ++ incompletePinyinKeys ++ optionOnlyCompleteSyllables ++
    zhuyinOnlyCompleteSyllables

/-- The fields of a row as a number. -/
def ContentItem.code (row : ContentItem) : Nat :=
  row.initial * 128 + row.middle * 32 + row.final

/-- The content table has one row a key, and the zero key's first. -/
theorem keySpellings_perm : ([] :: keySpellings).Perm (contentTable.map (·.pinyin)) := by
  have hsorted : ([] :: keySpellings).insertionSort (fun left right =>
    spellingRank maxSyllableLen left ≤ spellingRank maxSyllableLen right) =
      contentTable.map (·.pinyin) := by
    decide +kernel
  rw [← hsorted]
  exact (perm_insertionSort _ _).symm

/-- The numbers are distinct, and none is a bit of the ones seen. -/
def distinctFrom (seen : Nat) : List Nat → Bool
  | [] => true
  | n :: ns => !seen.testBit n && distinctFrom (seen ||| 2 ^ n) ns

theorem nodup_of_distinctFrom : ∀ {ns : List Nat} {seen : Nat}, distinctFrom seen ns = true →
    ns.Nodup ∧ ∀ n ∈ ns, seen.testBit n = false
  | [], _, _ => ⟨.nil, forall_mem_nil _⟩
  | n :: ns, seen, h => by
    rw [distinctFrom, Bool.and_eq_true, Bool.not_eq_true'] at h
    obtain ⟨hnodup, hnew⟩ := nodup_of_distinctFrom h.2
    simp only [Nat.testBit_or, Nat.testBit_two_pow, Bool.or_eq_false_iff, decide_eq_false_iff_not] at hnew
    refine ⟨nodup_cons.mpr ⟨fun hmem => (hnew n hmem).2 rfl, hnodup⟩, ?_⟩
    exact forall_mem_cons.mpr ⟨h.1, fun m hm => (hnew m hm).1⟩

/-- No two rows have one spelling, or the same fields. -/
theorem contentTable_nodup : (contentTable.map (·.pinyin)).Nodup ∧
    (contentTable.map ContentItem.code).Nodup := by
  have hspellings : ((contentTable.map (·.pinyin)).map (spellingRank maxSyllableLen)).IsChain (· < ·) := by
    decide +kernel
  have hcodes : distinctFrom 0 (contentTable.map ContentItem.code) = true := by
    decide +kernel
  exact ⟨Nodup.of_map _ (hspellings.pairwise.imp Nat.ne_of_lt), (nodup_of_distinctFrom hcodes).1⟩

/-- The table of spellings has each key at its index. -/
theorem SyllableKey.getElem?_keySpellings (key : SyllableKey) : keySpellings[key.index]? = some key.text := by
  have hlt := key.index_lt
  unfold keySpellings text
  unfold syllableKeyCount at hlt
  dsimp only
  rw [append_assoc, append_assoc, getElem?_append]
  split_ifs with hfull
  · rw [getElem?_eq_getElem hfull]
  rw [getElem?_eq_none (Nat.le_of_not_lt hfull), getElem?_append]
  split_ifs with hpart
  · rw [getElem?_eq_getElem hpart]
  rw [getElem?_eq_none (Nat.le_of_not_lt hpart), getElem?_append, ← Nat.sub_sub]
  split_ifs with hoption
  · rw [getElem?_eq_getElem hoption]
  rw [getElem?_eq_none (Nat.le_of_not_lt hoption)]
  have hlast : key.index - fullPinyinSyllables.length - incompletePinyinKeys.length -
      optionOnlyCompleteSyllables.length < zhuyinOnlyCompleteSyllables.length := by
    omega
  simp only [← Nat.sub_sub, getElem?_eq_getElem hlast, Option.getD_some]

theorem SyllableKey.text_injective {a b : SyllableKey} (h : a.text = b.text) : a = b := by
  have hnodup : keySpellings.Nodup := (nodup_cons.mp (keySpellings_perm.nodup_iff.mpr contentTable_nodup.1)).2
  have hlt := (List.getElem?_eq_some_iff.mp a.getElem?_keySpellings).1
  have hindex : a.index = b.index := by
    refine (getElem?_inj hlt hnodup).mp ?_
    rw [a.getElem?_keySpellings, b.getElem?_keySpellings, h]
  cases a
  cases b
  cases hindex
  rfl

/-- A key's spelling has a row, and the key has its fields. -/
theorem SyllableKey.exists_row (key : SyllableKey) : ∃ row ∈ contentTable, row.pinyin = key.text ∧
    fromPinyin key.text = some ⟨row.initial, row.middle, row.final, 0⟩ ∧
    key.chewingKey = ⟨row.initial, row.middle, row.final, 0⟩ := by
  have hin : key.text ∈ contentTable.map (·.pinyin) :=
    keySpellings_perm.mem_iff.mp (mem_cons_of_mem _ (mem_of_getElem? key.getElem?_keySpellings))
  obtain ⟨witness, hwitness, htext⟩ := mem_map.mp hin
  cases hrow : contentTable.find? fun row => row.pinyin == key.text with
  | none => exact absurd (beq_iff_eq.mpr htext) (by simpa using find?_eq_none.mp hrow witness hwitness)
  | some row =>
    have hfound : fromPinyin key.text = some ⟨row.initial, row.middle, row.final, 0⟩ := by
      unfold fromPinyin
      rw [hrow]
      rfl
    refine ⟨row, mem_of_find?_eq_some hrow, by simpa using find?_some hrow, hfound, ?_⟩
    unfold chewingKey
    rw [hfound]
    rfl

theorem SyllableKey.fromPinyin_text (key : SyllableKey) : ChewingKey.fromPinyin key.text = some key.chewingKey := by
  obtain ⟨row, _, _, hfound, hkey⟩ := key.exists_row
  rw [hfound, hkey]

theorem SyllableKey.chewingKey_injective {a b : SyllableKey} (h : a.chewingKey = b.chewingKey) : a = b := by
  obtain ⟨row, hrow, htext, _, hkey⟩ := a.exists_row
  obtain ⟨row', hrow', htext', _, hkey'⟩ := b.exists_row
  rw [hkey, hkey'] at h
  have hcode : row.code = row'.code := by
    obtain ⟨hinitial, hmiddle, hfinal, _⟩ := ChewingKey.mk.inj h
    unfold ContentItem.code
    rw [hinitial, hmiddle, hfinal]
  refine text_injective ?_
  rw [← htext, ← htext', inj_on_of_nodup_map contentTable_nodup.2 hrow hrow' hcode]

/-- A spelling of the tables is a key's, or its chewing key is not the key's. -/
theorem fromPinyin_eq_iff {text : Bytes} (h : (fromText text).isSome) (key : SyllableKey) :
    ChewingKey.fromPinyin text = some key.chewingKey ↔ text = key.text := by
  obtain ⟨found, hfound⟩ := Option.isSome_iff_exists.mp h
  have htext := (fromText_eq_some hfound).1
  constructor
  · intro hkey
    rw [← htext, found.fromPinyin_text] at hkey
    rw [← htext, chewingKey_injective (Option.some.inj hkey)]
  · intro heq
    rw [heq]
    exact key.fromPinyin_text

/-- The spellings of the tables are keys. -/
theorem splitTables_keys :
    (∀ row ∈ resplitTable, (fromText row.1).isSome ∧ (fromText row.2.1).isSome ∧
      (fromText row.2.2.1).isSome ∧ (fromText row.2.2.2).isSome) ∧
    ∀ row ∈ dividedTable, (fromText row.1).isSome ∧
      (fromText row.2.1).isSome ∧ (fromText row.2.2).isSome := by
  have hresplit : ∀ row ∈ resplitTable, ∀ text ∈ [row.1, row.2.1, row.2.2.1, row.2.2.2],
      rankedIn fullPinyinSyllables text = true := by
    decide +kernel
  have hdivided : ∀ row ∈ dividedTable, ∀ text ∈ [row.1, row.2.1, row.2.2],
    rankedIn fullPinyinSyllables text = true := by
    decide +kernel
  have hkey : ∀ text, rankedIn fullPinyinSyllables text = true → (fromText text).isSome := fun text h => by
    obtain ⟨key, hkey⟩ := fromText_of_mem (mem_of_rankedIn h)
    rw [hkey]
    rfl
  refine ⟨fun row hrow => ?_, fun row hrow => ?_⟩
  · have htexts := fun text htext => hkey text (hresplit row hrow text htext)
    simpa using htexts
  · have htexts := fun text htext => hkey text (hdivided row hrow text htext)
    simpa using htexts

/-! ## Nodes and starts -/

/-- Keys that leave the node `c` start at `j` : a selected key rides over apostrophes from the
one to the other, or text goes through the node. -/
def Starts (selected : List Edge) (c j : Nat) : Prop :=
  (∃ edge ∈ selected, edge.from_ = c ∧ edge.syllableStart = j) ∨
    (j = c ∧ IsText selected c ∧ ∃ i, i + 1 = c ∧ IsText selected i)

namespace SelectedOver

variable {raw : Bytes} {options : OptionBits} {graph : SegmentGraph} {selected : List Edge} {last c j i count : Nat}

variable (h : SelectedOver raw options graph selected last)
include h

/-- The gap before a selected key is no text. -/
theorem not_isText {edge : Edge} (hedge : edge ∈ selected) (hi : edge.from_ ≤ i) (hlt : i < edge.syllableStart) :
    ¬ IsText selected i := by
  obtain ⟨hedges, hpairs, _⟩ := walk_ordered h.built h.walk (Nat.zero_le _)
  exact not_isText_gap hpairs (fun edge he => ⟨(hedges edge he).2.1, (hedges edge he).2.2.1⟩) hedge hi hlt

/-- The starts follow each other as the nodes do. -/
theorem starts_ordered : Lockstep.Ordered (Starts selected) := by
  obtain ⟨hedges, hpairs, _⟩ := walk_ordered h.built h.walk (Nat.zero_le _)
  intro c c' j j' hstarts hstarts'
  rcases hstarts with ⟨edge, hedge, rfl, rfl⟩ | ⟨rfl, htext, _⟩
  · have he := hedges edge hedge
    rcases hstarts' with ⟨other, hother, rfl, rfl⟩ | ⟨rfl, _, i, rfl, htext'⟩
    · have ho := hedges other hother
      obtain ⟨a, ha, rfl⟩ := mem_iff_getElem.mp hedge
      obtain ⟨b, hb, rfl⟩ := mem_iff_getElem.mp hother
      rw [pairwise_iff_getElem] at hpairs
      rcases Nat.lt_trichotomy a b with hab | rfl | hab
      · have := hpairs a b ha hb hab
        omega
      · omega
      · have := hpairs b a hb ha hab
        omega
    · refine ⟨fun hlt => ?_, fun hlt => by omega⟩
      by_contra hnot
      exact h.not_isText hedge (by omega) (by omega) htext'
  · rcases hstarts' with ⟨other, hother, rfl, rfl⟩ | ⟨rfl, _, _⟩
    · have ho := hedges other hother
      refine ⟨fun hlt => by omega, fun hlt => ?_⟩
      by_contra hnot
      exact h.not_isText hother (by omega) hlt htext
    · exact Iff.rfl

/-- Where text ends, keys start at the node itself. -/
theorem starts_behind (htext : IsText selected i) (hstarts : Starts selected c (i + 1)) : c = i + 1 := by
  rcases hstarts with ⟨edge, hedge, rfl, hstart⟩ | ⟨rfl, _⟩
  · have := ((walk_ordered h.built h.walk (Nat.zero_le _)).1 edge hedge).2.1
    by_contra hne
    exact h.not_isText hedge (by omega) (by omega) htext
  · rfl

theorem starts_lt (hstarts : Starts selected c j) : c ≤ j ∧ j < graph.consumed := by
  have hinside := h.inside
  rcases hstarts with ⟨edge, hedge, rfl, rfl⟩ | ⟨rfl, htext, _⟩
  · have := (walk_ordered h.built h.walk (Nat.zero_le _)).1 edge hedge
    omega
  · have := h.isText_lt htext
    omega

/-- Both matrices list their columns in one order. -/
theorem aligned (hcount : graph.consumed ≤ count) :
    Aligned (Starts selected) (range count) (range count) := by
  refine aligned_of_ascending h.starts_ordered pairwise_lt_range pairwise_lt_range
    (fun c _ j hstarts => ?_) fun j _ c hstarts => ?_
  · have := h.starts_lt hstarts
    exact mem_range.mpr (by omega)
  · have := h.starts_lt hstarts
    exact mem_range.mpr (by omega)

end SelectedOver

/-! ## Two matrices in step -/

theorem getD_modify_append {α : Type} {columns : List (List α)} {index c : Nat} {key : α}
    (h : index < columns.length) : (columns.modify index (· ++ [key])).getD c [] =
      columns.getD c [] ++ if index = c then [key] else [] := by
  rw [getD_eq_getElem?_getD, getElem?_modify, getD_eq_getElem?_getD]
  by_cases hc : index = c
  · subst hc
    simp [getElem?_eq_getElem h]
  · simp [hc]

/-- A key in its column, from a node that stands for its start. -/
def Rooted (selected : List Edge) (c : Nat) (key : ScanKey) : Prop :=
  Placed selected c key ∧ Starts selected c key.syllableStart

/-- The matrix of chewing keys has the columns of the scan matrix, each where its start is. -/
structure Tracks (selected : List Edge) (scan : Columns) (matrix : MatrixColumns) : Prop where
  length : matrix.length = scan.length
  rooted : scan.Every (Rooted selected)
  same : ∀ {c j : Nat}, Starts selected c j →
    matrix.getD j [] = (scan.getD c []).map ScanKey.matrixKey
  idle : ∀ {j : Nat}, (∀ c, ¬ Starts selected c j) → matrix.getD j [] = []

section Tracks

variable {raw : Bytes} {options : OptionBits} {graph : SegmentGraph} {selected : List Edge}
  {last c : Nat} {scan : Columns} {matrix : MatrixColumns} {key next : ScanKey}

/-- A node that stands for no start has no keys. -/
theorem Tracks.blank (h : Tracks selected scan matrix) (hnone : ∀ j, ¬ Starts selected c j) :
    scan.getD c [] = [] := by
  rw [eq_nil_iff_forall_not_mem]
  exact fun key hkey => hnone _ (h.rooted.getD key hkey).2

/-- A key pushed on both matrices. -/
theorem Tracks.push (hover : SelectedOver raw options graph selected last)
    (h : Tracks selected scan matrix) (hkey : Rooted selected c key) (hlt : key.syllableStart < scan.length) :
    Tracks selected (scan.push c key) (matrix.push key.syllableStart key.matrixKey) := by
  have hle := (hover.starts_lt hkey.2).1
  refine ⟨?_, h.rooted.push hkey, fun hstarts => ?_, fun hnone => ?_⟩
  · rw [Columns.length_push, MatrixColumns.push, length_modify, h.length]
  · unfold MatrixColumns.push Columns.push
    rw [getD_modify_append (by rw [h.length]; exact hlt), getD_modify_append (by omega), map_append, h.same hstarts]
    congr 1
    split_ifs with hj hc hc
    · rfl
    · have hstart := hkey.2
      rw [hj] at hstart
      exact absurd (hover.starts_ordered.left_unique hstart hstarts) hc
    · have hstart := hkey.2
      rw [hc] at hstart
      exact absurd (hover.starts_ordered.right_unique hstart hstarts) hj
    · rfl
  · unfold MatrixColumns.push
    rw [getD_modify_append (by rw [h.length]; exact hlt), h.idle hnone]
    split_ifs with hj
    · rw [← hj] at hnone
      exact absurd hkey.2 (hnone c)
    · rfl

/-- Both matrices are cut at the same place. -/
theorem Tracks.appendSplit {stop : Nat} {left right : Bytes}
    (hover : SelectedOver raw options graph selected last) (h : Tracks selected scan matrix)
    (hkey : Rooted selected c key) (htone : key.tone = 0)
    (hsplits : Splits selected key stop left right) (hleft : (fromText left).isSome)
    (hright : (fromText right).isSome) :
    Tracks selected (appendSplit scan key stop left right)
      (appendMatrixSplit matrix key.matrixKey stop left right) := by
  obtain ⟨leftKey, hleftKey⟩ := Option.isSome_iff_exists.mp hleft
  obtain ⟨rightKey, hrightKey⟩ := Option.isSome_iff_exists.mp hright
  have hleftChewing := (fromPinyin_eq_iff hleft leftKey).mpr (fromText_eq_some hleftKey).1.symm
  have hrightChewing := (fromPinyin_eq_iff hright rightKey).mpr (fromText_eq_some hrightKey).1.symm
  have hpos := hsplits.left_pos
  have hsplit := hsplits.split_lt
  have hcolumn : key.from_ = c := hkey.1.column
  unfold Oxpinyin.appendSplit appendMatrixSplit
  rw [hleftKey, hrightKey, hleftChewing, hrightChewing]
  dsimp only
  rw [h.length]
  change Tracks selected (if scan.length ≤ key.syllableStart + left.length then _ else _)
    (if scan.length ≤ key.syllableStart + left.length then _ else _)
  split_ifs with hout
  · exact h
  · have hroot : Rooted selected key.from_
        { key with key := leftKey, to_ := key.syllableStart + left.length } :=
      ⟨hkey.1.leftHalf hsplits hleftKey, hcolumn ▸ hkey.2⟩
    have hrootRight : Rooted selected (key.syllableStart + left.length)
        ⟨rightKey, key.syllableStart + left.length, stop, key.syllableStart + left.length, false, 0⟩ :=
      ⟨hsplits.rightHalf hrightKey, Or.inr ⟨rfl, hsplits.text _ (by omega) (by omega),
        key.syllableStart + left.length - 1, by omega, hsplits.text _ (by omega) (by omega)⟩⟩
    have hfirst := Tracks.push hover h hroot (by dsimp only; omega)
    have hsecond := Tracks.push hover hfirst hrootRight (by rw [Columns.length_push]; dsimp only; omega)
    have hleftKey' : ({ key with key := leftKey, to_ := key.syllableStart + left.length } : ScanKey).matrixKey =
        ⟨leftKey.chewingKey, key.syllableStart, key.syllableStart + left.length⟩ := by
      unfold matrixKey
      dsimp only
      rw [htone, chewingKey_withTone_zero]
    rw [hleftKey'] at hsecond
    unfold matrixKey at hsecond
    dsimp only at hsecond
    rw [chewingKey_withTone_zero] at hsecond
    exact hsecond

/-! ## The passes -/

/-- The tables are read alike by spellings and by chewing keys. -/
theorem find?_resplitTable (key next : SyllableKey) :
    (resplitTable.find? fun row => fromPinyin row.1 == some key.chewingKey &&
      fromPinyin row.2.1 == some next.chewingKey) =
    resplitTable.find? fun row => row.1 == key.text && row.2.1 == next.text := by
  refine find?_congr fun row hrow => ?_
  obtain ⟨hfirst, hsecond, _⟩ := splitTables_keys.1 row hrow
  rw [Bool.eq_iff_iff]
  simp only [Bool.and_eq_true, beq_iff_eq]
  rw [fromPinyin_eq_iff hfirst, fromPinyin_eq_iff hsecond]

theorem find?_dividedTable (key : SyllableKey) :
    (dividedTable.find? fun row => fromPinyin row.1 == some key.chewingKey) =
    dividedTable.find? fun row => row.1 == key.text := by
  refine find?_congr fun row hrow => ?_
  rw [Bool.eq_iff_iff]
  simp only [beq_iff_eq]
  exact fromPinyin_eq_iff (splitTables_keys.2 row hrow).1 key

section

variable (hover : SelectedOver raw options graph selected last) (h : Tracks selected scan matrix)
  (hkey : Rooted selected c key)
include hover h hkey

/-- A pair that meets at `e` where keys start, without a gap. -/
theorem Tracks.resplitPair (hnext : Rooted selected key.to_ next) (hstart : next.syllableStart = key.to_) :
    Tracks selected (resplitPair key scan next) (resplitMatrixPair key.matrixKey matrix next.matrixKey) := by
  have hcross : next.crossesSeparator = false := by
    rw [hnext.1.crossing, decide_eq_false_iff_not, hnext.1.column, hstart]
    exact Nat.lt_irrefl _
  unfold Oxpinyin.resplitPair resplitMatrixPair
  change Tracks selected _ (if key.tone ≠ 0 ∨ next.tone ≠ 0 ∨ next.syllableStart ≠ key.to_ then _ else _)
  by_cases htones : key.tone ≠ 0 ∨ next.tone ≠ 0
  · rw [if_pos (Or.inr htones), if_pos (htones.imp_right Or.inl)]
    exact h
  · obtain ⟨hzero, hzero'⟩ := not_or.mp htones
    rw [not_not] at hzero hzero'
    rw [if_neg (by simp [hcross, hzero, hzero']), if_neg (by simp [hzero, hzero', hstart])]
    unfold matrixKey
    dsimp only
    rw [hzero, hzero', chewingKey_withTone_zero, chewingKey_withTone_zero, find?_resplitTable]
    cases hrow : resplitTable.find? fun row => row.1 == key.key.text && row.2.1 == next.key.text with
    | none => exact h
    | some row =>
      obtain ⟨first, second, left, right⟩ := row
      have hin := mem_of_find?_eq_some hrow
      have htexts := find?_some hrow
      simp only [Bool.and_eq_true, beq_iff_eq] at htexts
      obtain ⟨_, _, hleft, hright⟩ := splitTables_keys.1 _ hin
      have happend := h.appendSplit hover hkey hzero
        (hkey.1.splits_pair hnext.1 rfl hcross hin htexts.1 htexts.2) hleft hright
      unfold matrixKey at happend
      rw [hzero, chewingKey_withTone_zero] at happend
      exact happend

/-- A key split again. -/
theorem Tracks.resplitKey : Tracks selected (resplitKey scan key) (resplitMatrixKey matrix key.matrixKey) := by
  obtain ⟨stop, hstop⟩ := Nat.exists_eq_succ_of_ne_zero (Nat.ne_zero_of_lt hkey.1.forward)
  have hbefore : IsText selected stop :=
    hkey.1.text stop (Nat.le_of_lt_succ (hstop ▸ hkey.1.forward)) (hstop ▸ Nat.lt_succ_self stop)
  unfold Oxpinyin.resplitKey resplitMatrixKey
  change Tracks selected _ (match matrix[key.to_]? with
    | some nexts => nexts.foldl (resplitMatrixPair key.matrixKey) matrix
    | none => matrix)
  rcases Nat.lt_or_ge key.to_ scan.length with hin | hout
  · have hscan := getElem?_eq_getElem hin
    have hmatrix := getElem?_eq_getElem (show key.to_ < matrix.length from h.length ▸ hin)
    have hnexts : ∀ next ∈ scan[key.to_], Rooted selected key.to_ next :=
      fun next hnext => h.rooted _ _ hscan next hnext
    have hlt : key.to_ < matrix.length := h.length ▸ hin
    rw [hscan, hmatrix]
    dsimp only
    by_cases hstarts : ∃ d, Starts selected d key.to_
    · obtain ⟨d, hd⟩ := hstarts
      obtain rfl : d = key.to_ := by
        rw [hstop] at hd ⊢
        exact hover.starts_behind hbefore hd
      have hsame := h.same hd
      rw [getD_eq_getElem?_getD, getD_eq_getElem?_getD, hscan, hmatrix] at hsame
      change matrix[key.to_] = scan[key.to_].map matrixKey at hsame
      rw [hsame, foldl_map]
      exact foldl_rel h fun next hnext current current' hcurrent => hcurrent.resplitPair hover
        hkey (hnexts next hnext) (hover.starts_ordered.right_unique (hnexts next hnext).2 hd)
    · -- every key that leaves the node rides over a gap
      have hidle := h.idle fun d hd => hstarts ⟨d, hd⟩
      rw [getD_eq_getElem?_getD, hmatrix] at hidle
      change matrix[key.to_] = [] at hidle
      rw [hidle, foldl_nil]
      refine foldlRecOn (motive := fun current => Tracks selected current matrix) _ _ h
        fun current hcurrent next hnext => ?_
      have hroot := hnexts next hnext
      have hcross : next.crossesSeparator = true := by
        rw [hroot.1.crossing, decide_eq_true_iff, hroot.1.column]
        refine Nat.lt_of_le_of_ne (hroot.1.column ▸ hroot.1.le) fun heq => hstarts ⟨key.to_, ?_⟩
        have := hroot.2
        rw [← heq] at this
        exact this
      unfold Oxpinyin.resplitPair
      rw [if_pos (Or.inl hcross)]
      exact hcurrent
  · rw [getElem?_eq_none hout, getElem?_eq_none (h.length ▸ hout)]
    exact h

/-- A divided key. -/
theorem Tracks.dividedKey : Tracks selected (dividedKey scan key) (dividedMatrixKey matrix key.matrixKey) := by
  unfold Oxpinyin.dividedKey dividedMatrixKey
  change Tracks selected _ (if key.tone ≠ 0 then _ else _)
  split_ifs with htone
  · exact h
  · rw [not_not] at htone
    unfold matrixKey
    dsimp only
    rw [htone, chewingKey_withTone_zero, find?_dividedTable]
    cases hrow : dividedTable.find? fun row => row.1 == key.key.text with
    | none => exact h
    | some row =>
      obtain ⟨text, left, right⟩ := row
      have hin := mem_of_find?_eq_some hrow
      have htext := find?_some hrow
      simp only [beq_iff_eq] at htext
      obtain ⟨_, hleft, hright⟩ := splitTables_keys.2 _ hin
      have happend := h.appendSplit hover hkey htone (hkey.1.splits_key hin htext) hleft hright
      unfold matrixKey at happend
      rw [htone, chewingKey_withTone_zero] at happend
      exact happend

end

/-- A pass that keeps the matrices in step at one key keeps them in step over the columns. -/
theorem Tracks.visitColumns {visit : Columns → ScanKey → Columns}
    {visitMatrix : MatrixColumns → MatrixKey → MatrixColumns} {count : Nat}
    (hover : SelectedOver raw options graph selected last)
    (hvisit : ∀ {scan : Columns} {matrix : MatrixColumns} {c : Nat} {key : ScanKey},
      Tracks selected scan matrix → Rooted selected c key →
        Tracks selected (visit scan key) (visitMatrix matrix key.matrixKey))
    (hcount : graph.consumed ≤ count) (h : Tracks selected scan matrix) :
    Tracks selected (visitColumns visit count scan) (visitColumns visitMatrix count matrix) := by
  unfold Oxpinyin.visitColumns
  refine (hover.aligned hcount).foldl (fun scan matrix c hnone h => ?_) (fun scan matrix j hnone h => ?_)
    (fun scan matrix c j hstarts h => ?_) scan matrix h
  · rw [h.blank hnone]
    exact h
  · rw [h.idle hnone]
    exact h
  · rw [h.same hstarts, foldl_map]
    exact foldl_rel h fun key hkey current current' hcurrent =>
      hvisit hcurrent (h.rooted.getD key hkey)

/-- The matrices of the selected edges. -/
theorem tracks_placeSelected (hover : SelectedOver raw options graph selected last) :
    Tracks selected (placeSelected graph.consumed selected)
      ((selected.map fun edge => (fromEdge edge).matrixKey).foldl
        (fun columns key => MatrixColumns.push columns key.syllableStart key)
        (replicate (graph.consumed + 1) [])) := by
  have hstart : Tracks selected (replicate (graph.consumed + 1) [])
      (replicate (graph.consumed + 1) []) := by
    refine ⟨by simp, Columns.every_replicate _, fun _ => ?_, fun _ => ?_⟩ <;>
      simp [getD_eq_getElem?_getD, getElem?_replicate] <;> grind
  unfold placeSelected
  rw [foldl_map, foldl_map]
  have hplaced := @List.foldl_rel _ _ _ selected
    (fun columns edge => Columns.push columns (fromEdge edge).from_ (fromEdge edge))
    (fun columns edge => MatrixColumns.push columns (fromEdge edge).matrixKey.syllableStart
      (fromEdge edge).matrixKey) _ _
    (fun scan matrix => Tracks selected scan matrix ∧ scan.length = graph.consumed + 1)
    ⟨hstart, length_replicate⟩ fun edge hedge scan matrix h => ?_
  · exact hplaced.1
  · have hroot : Rooted selected edge.from_ (fromEdge edge) :=
      ⟨placed_fromEdge hedge (hover.edges edge hedge), Or.inl ⟨edge, hedge, rfl, rfl⟩⟩
    have hlt := (hover.starts_lt hroot.2).2
    refine ⟨h.1.push hover hroot (by rw [h.2]; omega), ?_⟩
    rw [Columns.length_push, h.2]

end Tracks

/-! ## Columns without alternates -/

section Unique

variable {options : OptionBits} {start : Nat} {keys : List ScanKey}

section

variable (h : options.Unambiguous)
include h

theorem fuzzySwaps_unambiguous {field : ChewingKey → Nat}
    {pairs : List (BitVec 32 × String × String)} (hsub : ∀ pair ∈ pairs, pair ∈ fuzzyInitials ++ fuzzyFinals) :
    fuzzySwaps field pairs options = [] := by
  unfold fuzzySwaps
  rw [flatMap_eq_nil_iff]
  intro pair hpair
  dsimp only
  rw [h pair (hsub pair hpair), if_neg Bool.false_ne_true]

/-- Without an ambiguity bit no key has alternates. -/
theorem fuzzyChewingAlternatives_unambiguous (key : ChewingKey) :
    fuzzyChewingAlternatives key options = [] := by
  unfold fuzzyChewingAlternatives
  rw [fuzzySwaps_unambiguous h fun _ => mem_append_left _, fuzzySwaps_unambiguous h fun _ => mem_append_right _]
  simp

theorem withFuzzy_unambiguous (column : List MatrixKey) :
    withFuzzy options column = column := by
  unfold withFuzzy
  simp [fuzzyChewingAlternatives_unambiguous h]

theorem fuzzyAdditions_unambiguous (columns : Columns) :
    fuzzyAdditions columns options = [] := by
  unfold fuzzyAdditions fuzzyAlternatives
  simp [fuzzyChewingAlternatives_unambiguous h]

end

/-- Keys with one start are one matrix key when syllable, end and tone agree. -/
theorem matrixKey_eq_iff {a b : ScanKey} (hstart : a.syllableStart = b.syllableStart) :
    a.matrixKey = b.matrixKey ↔ a.key = b.key ∧ a.to_ = b.to_ ∧ a.tone = b.tone := by
  constructor
  · intro heq
    have hkey := congrArg MatrixKey.key heq
    have htone : a.tone = b.tone := congrArg ChewingKey.tone hkey
    have hzero := congrArg (fun key => withTone key 0) hkey
    refine ⟨chewingKey_injective ?_, congrArg MatrixKey.stop heq, htone⟩
    rw [← chewingKey_withTone_zero a.key, ← chewingKey_withTone_zero b.key]
    exact hzero
  · rintro ⟨hkey, hto, htone⟩
    unfold matrixKey
    rw [hkey, hto, htone, hstart]

/-- Both matrices drop the same duplicates of a column. -/
theorem uniqueKeys_map (h : ∀ key ∈ keys, key.syllableStart = start) :
    uniqueKeys (keys.map matrixKey) = (keepFirst keys).map matrixKey := by
  unfold uniqueKeys keepFirst
  rw [foldl_map]
  have hrel := @List.foldl_rel _ _ _ keys
    (fun unique key => if key.matrixKey ∈ unique then unique else unique ++ [key.matrixKey])
    (fun kept key => if kept.any fun earlier =>
      earlier.key == key.key && earlier.to_ == key.to_ && earlier.tone == key.tone then kept
      else kept ++ [key]) [] []
    (fun unique kept => unique = kept.map matrixKey ∧ ∀ key ∈ kept, key.syllableStart = start)
    ⟨rfl, by simp⟩ fun key hkey unique kept hcurrent => ?_
  · exact hrel.1
  · obtain ⟨rfl, hkept⟩ := hcurrent
    have hmem : key.matrixKey ∈ kept.map matrixKey ↔ (kept.any fun earlier =>
        earlier.key == key.key && earlier.to_ == key.to_ && earlier.tone == key.tone) = true := by
      rw [mem_map, any_eq_true]
      refine exists_congr fun earlier => and_congr_right fun hearlier => ?_
      rw [matrixKey_eq_iff ((hkept earlier hearlier).trans (h key hkey).symm)]
      simp [and_assoc]
    by_cases hduplicate : key.matrixKey ∈ kept.map matrixKey
    · rw [if_pos hduplicate, if_pos (hmem.mp hduplicate)]
      exact ⟨rfl, hkept⟩
    · rw [if_neg hduplicate, if_neg (fun hany => hduplicate (hmem.mpr hany))]
      refine ⟨by rw [map_append]; rfl, fun other hother => ?_⟩
      rcases mem_append.mp hother with hother | hother
      · exact hkept other hother
      · rw [mem_singleton.mp hother]
        exact h key hkey

end Unique

/-! ## One key sequence -/

theorem flatMap_range_getD {α β : Type} (columns : List (List α)) (f : List α → List β) :
    (range columns.length).flatMap (fun index => f (columns.getD index [])) =
      (columns.map f).flatten := by
  rw [flatMap_def]
  congr 1
  refine ext_getElem (by simp) fun index hindex hindex' => ?_
  rw [length_map] at hindex'
  simp [getD_eq_getElem?_getD, getElem?_eq_getElem hindex']

section Sequence

variable {raw : Bytes} {options : OptionBits} {graph : SegmentGraph} {selected : List Edge}
  {last : Nat} {scan : Columns} {matrix : MatrixColumns}

/-- Matrices in step list the same keys. -/
theorem Tracks.flatten (hover : SelectedOver raw options graph selected last)
    (hoptions : options.Unambiguous) (h : Tracks selected scan matrix) (hlength : graph.consumed ≤ scan.length) :
    (matrix.map fun column => uniqueKeys (withFuzzy options column)).flatten =
      (scan.map keepFirst).flatten.map matrixKey := by
  have hkeep : (scan.map keepFirst).flatten.map matrixKey =
      (scan.map fun column => (keepFirst column).map matrixKey).flatten := by
    rw [map_flatten, map_map]
    rfl
  rw [hkeep, ← flatMap_range_getD, ← flatMap_range_getD, h.length]
  refine ((hover.aligned hlength).flatMap (fun c hnone => ?_) (fun j hnone => ?_)
    fun c j hstarts => ?_).symm
  · rw [h.blank hnone]
    rfl
  · rw [h.idle hnone, withFuzzy_unambiguous hoptions]
    rfl
  · rw [h.same hstarts, withFuzzy_unambiguous hoptions]
    exact (uniqueKeys_map fun key hkey =>
      hover.starts_ordered.right_unique (h.rooted.getD key hkey).2 hstarts).symm

@[simp] theorem length_placeSelected (bound : Nat) (selected : List Edge) :
    (placeSelected bound selected).length = bound + 1 := by
  unfold placeSelected
  refine foldlRecOn (motive := fun columns : Columns => columns.length = bound + 1) _ _
    length_replicate fun columns hcolumns key _ => ?_
  rw [Columns.length_push, hcolumns]

/-- A pass that keeps the number of columns. -/
theorem length_visitColumns {α : Type} {visit : List (List α) → α → List (List α)}
    (hvisit : ∀ columns key, (visit columns key).length = columns.length) (count : Nat)
    (columns : List (List α)) : (visitColumns visit count columns).length = columns.length := by
  unfold visitColumns
  refine foldlRecOn (motive := fun current : List (List α) => current.length = columns.length) _ _
    rfl fun current hcurrent index _ => ?_
  refine foldlRecOn (motive := fun current : List (List α) => current.length = columns.length) _ _
    hcurrent fun current' hcurrent' key _ => ?_
  rw [hvisit, hcurrent']

theorem length_appendSplit (columns : Columns) (key : ScanKey) (stop : Nat) (left right : Bytes) :
    (appendSplit columns key stop left right).length = columns.length := by
  unfold appendSplit
  split
  · dsimp only
    split_ifs <;> simp
  · rfl

theorem length_resplitKey (columns : Columns) (key : ScanKey) : (resplitKey columns key).length = columns.length := by
  unfold resplitKey
  split
  · refine foldlRecOn (motive := fun current : Columns => current.length = columns.length) _ _
      rfl fun current hcurrent next _ => ?_
    unfold resplitPair
    split_ifs
    · exact hcurrent
    · split
      · rw [length_appendSplit, hcurrent]
      · exact hcurrent
  · rfl

theorem length_dividedKey (columns : Columns) (key : ScanKey) : (dividedKey columns key).length = columns.length := by
  unfold dividedKey
  split_ifs
  · rfl
  · split
    · exact length_appendSplit _ _ _ _ _
    · rfl

/-- A pass keeps the matrices in step, and their length, whether it runs or not. -/
theorem Tracks.pass {visit : Columns → ScanKey → Columns}
    {visitMatrix : MatrixColumns → MatrixKey → MatrixColumns} {count : Nat}
    (hover : SelectedOver raw options graph selected last)
    (hvisit : ∀ {scan : Columns} {matrix : MatrixColumns} {c : Nat} {key : ScanKey},
      Tracks selected scan matrix → Rooted selected c key →
        Tracks selected (visit scan key) (visitMatrix matrix key.matrixKey))
    (hlength : ∀ columns key, (visit columns key).length = columns.length)
    (hcount : graph.consumed ≤ count) (h : Tracks selected scan matrix) (runs : Bool) :
    Tracks selected (if runs then Oxpinyin.visitColumns visit count scan else scan)
        (if runs then Oxpinyin.visitColumns visitMatrix count matrix else matrix) ∧
      (if runs then Oxpinyin.visitColumns visit count scan else scan).length = scan.length := by
  cases runs with
  | false => exact ⟨h, rfl⟩
  | true => exact ⟨h.visitColumns hover hvisit hcount, length_visitColumns hlength _ _⟩

/-- The keys of the selected path, filed by their start, have the keys of the scan matrix as their
matrix, in its order. -/
theorem parseTimeKeys_scan (hgraph : buildWithOptions raw options = .ok graph)
    (hoptions : options.Unambiguous) (divided : Bool) :
    parseTimeKeys ((graph.fewestKeys options.hasIncomplete).map fun edge => (ScanKey.fromEdge edge).matrixKey)
        graph.consumed options divided =
      (buildScanMatrixOver graph (graph.fewestKeys options.hasIncomplete) options divided).flatten.map
        ScanKey.matrixKey := by
  obtain ⟨last, hle, hwalk, hedges, _⟩ := @fewestKeys_spec _ _ _ options.hasIncomplete hgraph
  have hover : SelectedOver raw options graph (graph.fewestKeys options.hasIncomplete) last :=
    ⟨hgraph, hwalk, fun edge he => (hedges edge he).1, hle⟩
  generalize graph.fewestKeys options.hasIncomplete = selected at hover
  unfold parseTimeKeys
  by_cases hempty : selected.map (fun edge => (ScanKey.fromEdge edge).matrixKey) = []
  · rw [if_pos hempty]
    rw [map_eq_nil_iff] at hempty
    have hnone : (buildScanMatrixOver graph selected options divided).flatten = [] := by
      rw [eq_nil_iff_forall_not_mem]
      intro key hkey
      have hcovered := hover.covered hkey
      obtain ⟨edge, hedge, _⟩ := hcovered.text _ (Nat.le_refl _) hcovered.forward
      rw [hempty] at hedge
      cases hedge
    rw [hnone]
    rfl
  · rw [if_neg hempty]
    have hplaced := tracks_placeSelected hover
    have hbound := length_placeSelected graph.consumed selected
    -- the first pass leaves out the last column
    obtain ⟨hresplit, hlength⟩ := hplaced.pass hover (fun h hkey => h.resplitKey hover hkey)
      length_resplitKey (Nat.le_refl _) (divided && options.hasResplitTable)
    rw [hbound] at hlength
    obtain ⟨hdivided, hlength'⟩ := hresplit.pass hover (fun h hkey => h.dividedKey hover hkey)
      length_dividedKey (Nat.le_succ _) (divided && options.hasDividedTable)
    rw [hlength] at hlength'
    have hstep : resplitStep (placeSelected graph.consumed selected) =
        visitColumns resplitKey graph.consumed (placeSelected graph.consumed selected) := by
      unfold resplitStep visitColumns
      rw [hbound]
      rfl
    unfold buildScanMatrixOver extendMatrix
    dsimp only
    rw [fuzzyAdditions_unambiguous hoptions, foldl_nil, hstep]
    have hmatrix := hresplit.length.trans hlength
    have hinner : ∀ columns : Columns, columns.length = graph.consumed + 1 →
        innerSplitStep columns = visitColumns dividedKey (graph.consumed + 1) columns := by
      intro columns hcolumns
      unfold innerSplitStep visitColumns
      rw [hcolumns]
    rw [hinner _ hlength]
    rw [hmatrix]
    exact hdivided.flatten hover hoptions (by rw [hlength']; exact Nat.le_succ _)

/-- `xian` with the divided readings of the table. -/
theorem parseTimeKeys_xian : ∃ graph,
    buildWithOptions (ascii "xian") ⟨useDividedTable⟩ = .ok graph ∧
    parseTimeKeys ((graph.fewestKeys false).map fun edge => (ScanKey.fromEdge edge).matrixKey)
        graph.consumed ⟨useDividedTable⟩ true =
      (buildScanMatrixOver graph (graph.fewestKeys false) ⟨useDividedTable⟩ true).flatten.map
        ScanKey.matrixKey := by
  obtain ⟨graph, hgraph⟩ := (exists_buildWithOptions_iff (ascii "xian") ⟨useDividedTable⟩).mpr (by decide)
  exact ⟨graph, hgraph, parseTimeKeys_scan hgraph (by unfold OptionBits.Unambiguous; decide) true⟩

/-- The two differ in where keys are said to start : a scan key that rides over an apostrophe leaves
an earlier node. -/
theorem not_parseTimeKeys_from : ¬ ∀ (raw : Bytes) (options : OptionBits) (graph : SegmentGraph)
    (divided : Bool), buildWithOptions raw options = .ok graph → options.Unambiguous →
    parseTimeKeys ((graph.fewestKeys options.hasIncomplete).map fun edge => (ScanKey.fromEdge edge).matrixKey)
        graph.consumed options divided =
      (buildScanMatrixOver graph (graph.fewestKeys options.hasIncomplete) options divided).flatten.map
        fun key => ⟨key.key.chewingKey.withTone key.tone, key.from_, key.to_⟩ := by
  intro h
  have hdiffer : (buildWithOptions (ascii "xi'an") default).toOption.all (fun graph =>
      decide (parseTimeKeys
        ((graph.fewestKeys false).map fun edge => (ScanKey.fromEdge edge).matrixKey)
        graph.consumed default false =
      (buildScanMatrixOver graph (graph.fewestKeys false) default false).flatten.map
        fun key => ⟨key.key.chewingKey.withTone key.tone, key.from_, key.to_⟩)) = false := by
    decide +kernel
  obtain ⟨graph, hgraph⟩ := (exists_buildWithOptions_iff (ascii "xi'an") default).mpr (by decide)
  rw [hgraph] at hdiffer
  simp only [Except.toOption, Option.all_some, decide_eq_false_iff_not] at hdiffer
  exact hdiffer (h _ default graph false hgraph (by unfold OptionBits.Unambiguous; decide))

end Sequence

end Oxpinyin
