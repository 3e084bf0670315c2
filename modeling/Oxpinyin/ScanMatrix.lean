import Oxpinyin.FewestKeys
import Oxpinyin.ChewingKey

/-!
# The scan matrix

The columns of keys the decoder walks, one a byte position. `buildScanMatrixOver` places the
keys of the selected parse, then adds what the split tables and the ambiguity bits read
differently : pairs cut at another place (`resplitStep`), syllables cut in two
(`innerSplitStep`), and fuzzy alternates. `ParsedMatrix.fromScan` moves every key to the
start of its text and puts zero-key cells where apostrophes stand.
-/

namespace Oxpinyin

/-- One key of the scan matrix. `from_` and `syllableStart` differ when the key rides over
an apostrophe run. -/
structure ScanKey where
  key : SyllableKey
  from_ : Nat
  to_ : Nat
  syllableStart : Nat
  crossesSeparator : Bool
  tone : Nat
  deriving DecidableEq

/-- The key of an edge at its position. -/
def ScanKey.fromEdge (edge : Edge) : ScanKey :=
  ⟨edge.key, edge.from_, edge.to_, edge.syllableStart, decide (edge.from_ < edge.syllableStart),
    edge.tone⟩

/-- One column a byte position. -/
abbrev Columns := List (List ScanKey)

/-- Appends a key to a column. -/
def Columns.push (columns : Columns) (index : Nat) (key : ScanKey) : Columns :=
  columns.modify index (· ++ [key])

/-! ## The split tables -/

/-- Pairs of syllables and the pair they are also read as. -/
def resplitTable : List (Bytes × Bytes × Bytes × Bytes) :=
  [
    ("a", "nan", "an", "an"), ("an", "gang", "ang", "ang"), ("ba", "nan", "ban", "an"),
    ("ca", "nan", "can", "an"), ("chan", "gan", "chang", "an"), ("chan", "ge", "chang", "e"),
    ("che", "nai", "chen", "ai"), ("chen", "gan", "cheng", "an"), ("chu", "nan", "chun", "an"),
    ("dan", "gan", "dang", "an"), ("e", "nai", "en", "ai"), ("e", "nen", "en", "en"),
    ("fa", "nan", "fan", "an"), ("fan", "gai", "fang", "ai"), ("fan", "gan", "fang", "an"),
    ("fan", "ge", "fang", "e"), ("ga", "nai", "gan", "ai"), ("ga", "nen", "gan", "en"),
    ("gan", "gao", "gang", "ao"), ("guan", "gan", "guang", "an"), ("hu", "nan", "hun", "an"),
    ("huan", "gan", "huang", "an"), ("ji", "ne", "jin", "e"), ("ji", "nou", "jin", "ou"),
    ("jia", "nai", "jian", "ai"), ("jia", "nan", "jian", "an"), ("jia", "nao", "jian", "ao"),
    ("jia", "ne", "jian", "e"), ("jia", "nou", "jian", "ou"), ("jian", "gan", "jiang", "an"),
    ("jin", "gai", "jing", "ai"), ("jin", "gan", "jing", "an"), ("jin", "ge", "jing", "e"),
    ("kuan", "gao", "kuang", "ao"), ("li", "nan", "lin", "an"), ("lia", "nai", "lian", "ai"),
    ("lia", "ne", "lian", "e"), ("lian", "gan", "liang", "an"), ("ma", "ne", "man", "e"),
    ("men", "gen", "meng", "en"), ("min", "gan", "ming", "an"), ("min", "ge", "ming", "e"),
    ("na", "nai", "nan", "ai"), ("na", "nan", "nan", "an"), ("na", "nao", "nan", "ao"),
    ("na", "nou", "nan", "ou"), ("nin", "gan", "ning", "an"), ("pa", "nan", "pan", "an"),
    ("pen", "gan", "peng", "an"), ("pin", "gan", "ping", "an"), ("qi", "nai", "qin", "ai"),
    ("qi", "nan", "qin", "an"), ("qia", "nan", "qian", "an"), ("qia", "ne", "qian", "e"),
    ("qin", "gai", "qing", "ai"), ("qin", "gan", "qing", "an"), ("qu", "na", "qun", "a"),
    ("re", "nai", "ren", "ai"), ("re", "nan", "ren", "an"), ("san", "gou", "sang", "ou"),
    ("shan", "gan", "shang", "an"), ("she", "nai", "shen", "ai"), ("she", "nao", "shen", "ao"),
    ("wa", "nan", "wan", "an"), ("wa", "ne", "wan", "e"), ("wa", "nou", "wan", "ou"),
    ("wen", "gan", "weng", "an"), ("xi", "nai", "xin", "ai"), ("xi", "nan", "xin", "an"),
    ("xia", "nai", "xian", "ai"), ("xia", "nan", "xian", "an"), ("xia", "ne", "xian", "e"),
    ("xian", "gai", "xiang", "ai"), ("xian", "gan", "xiang", "an"), ("xian", "ge", "xiang", "e"),
    ("xin", "gai", "xing", "ai"), ("xin", "gan", "xing", "an"), ("ya", "nan", "yan", "an"),
    ("yi", "nan", "yin", "an"), ("yi", "ne", "yin", "e"), ("zhan", "gai", "zhang", "ai"),
    ("zhe", "nai", "zhen", "ai"), ("zhe", "nan", "zhen", "an"), ("zhen", "gan", "zheng", "an"),
    ("zhua", "nan", "zhuan", "an")
  ].map fun row : String × String × String × String =>
    (ascii row.1, ascii row.2.1, ascii row.2.2.1, ascii row.2.2.2)

/-- Syllables and the pair they are also read as. -/
def dividedTable : List (Bytes × Bytes × Bytes) :=
  [
    ("bian", "bi", "an"), ("bie", "bi", "e"), ("dian", "di", "an"), ("jian", "ji", "an"),
    ("jiang", "ji", "ang"), ("jie", "ji", "e"), ("jue", "ju", "e"), ("kuai", "ku", "ai"),
    ("lian", "li", "an"), ("liang", "li", "ang"), ("liao", "li", "ao"), ("luan", "lu", "an"),
    ("qian", "qi", "an"), ("qie", "qi", "e"), ("shuan", "shu", "an"), ("tian", "ti", "an"),
    ("tuan", "tu", "an"), ("xian", "xi", "an"), ("yuan", "yu", "an"), ("zuan", "zu", "an")
  ].map fun row : String × String × String => (ascii row.1, ascii row.2.1, ascii row.2.2)

/-- Adds the two halves of a split. They meet where the left text ends. -/
def appendSplit (columns : Columns) (key : ScanKey) (stop : Nat) (left right : Bytes) : Columns :=
  match SyllableKey.fromText left, SyllableKey.fromText right with
  | some leftKey, some rightKey =>
    let split := key.syllableStart + left.length
    if columns.length ≤ split then columns
    else
      (columns.push key.from_ { key with key := leftKey, to_ := split }).push split
        ⟨rightKey, split, stop, split, false, 0⟩
  | _, _ => columns

/-- Resplits one pair of neighbours, if the table has it. -/
def resplitPair (key : ScanKey) (columns : Columns) (next : ScanKey) : Columns :=
  if next.crossesSeparator ∨ key.tone ≠ 0 ∨ next.tone ≠ 0 then columns
  else
    match resplitTable.find? fun row => row.1 == key.key.text && row.2.1 == next.key.text with
    | some (_, _, left, right) => appendSplit columns key next.to_ left right
    | none => columns

/-- Resplits a key with every key of the column it ends at. -/
def resplitKey (columns : Columns) (key : ScanKey) : Columns :=
  match columns[key.to_]? with
  | some nexts => nexts.foldl (resplitPair key) columns
  | none => columns

/-- The forward resplit pass. Right halves are visited when their column is reached. -/
def resplitStep (columns : Columns) : Columns :=
  (List.range (columns.length - 1)).foldl
    (fun columns index => (columns.getD index []).foldl resplitKey columns) columns

/-- Divides one key, if the table has it. -/
def dividedKey (columns : Columns) (key : ScanKey) : Columns :=
  if key.tone ≠ 0 then columns
  else
    match dividedTable.find? fun row => row.1 == key.key.text with
    | some (_, left, right) => appendSplit columns key key.to_ left right
    | none => columns

/-- The divided pass. -/
def innerSplitStep (columns : Columns) : Columns :=
  (List.range columns.length).foldl
    (fun columns index => (columns.getD index []).foldl dividedKey columns) columns

/-! ## Alternates and duplicates -/

/-- The fuzzy alternates of every key, each over its key's span. -/
def fuzzyAdditions (columns : Columns) (options : OptionBits) : List ScanKey :=
  columns.zipIdx.flatMap fun column =>
    column.1.flatMap fun key => (key.key.fuzzyAlternatives options).map fun alternate =>
      { key with key := alternate, from_ := column.2 }

/-- The first of each key, end and tone of a column. -/
def keepFirst (column : List ScanKey) : List ScanKey :=
  column.foldl (fun kept key =>
    if kept.any fun earlier =>
        earlier.key == key.key && earlier.to_ == key.to_ && earlier.tone == key.tone then kept
    else kept ++ [key]) []

/-- The passes over a matrix whose selected keys are placed. -/
def extendMatrix (columns : Columns) (options : OptionBits) (divided : Bool) : Columns :=
  let columns := if divided && options.hasResplitTable then resplitStep columns else columns
  let columns := if divided && options.hasDividedTable then innerSplitStep columns else columns
  let columns := (fuzzyAdditions columns options).foldl
    (fun columns addition => Columns.push columns addition.from_ addition) columns
  columns.map keepFirst

/-- The columns of the selected parse. -/
def placeSelected (bound : Nat) (selected : List Edge) : Columns :=
  (selected.map ScanKey.fromEdge).foldl (fun columns key => Columns.push columns key.from_ key)
    (List.replicate (bound + 1) [])

/-- The scan matrix over a selected parse. -/
def buildScanMatrixOver (graph : SegmentGraph) (selected : List Edge) (options : OptionBits)
    (divided : Bool) : Columns :=
  extendMatrix (placeSelected graph.consumed selected) options divided

/-! ## The parsed matrix -/

/-- The columns of a parse and its zero-key cells. -/
structure ParsedMatrix where
  columns : Columns
  zeros : List Bool
  bound : Nat

namespace ParsedMatrix

/-- Sets the cells from `start` up to `stop`. -/
def fillZeros (zeros : List Bool) (start stop : Nat) : List Bool :=
  zeros.mapIdx fun i zero => zero || (decide (start ≤ i) && decide (i < stop))

/-- The variables of the loop over the keys : columns, cells and the last end. -/
structure Placing where
  columns : Columns
  zeros : List Bool
  lastEnd : Nat

/-- Places one key. A key that crosses physical separators moves behind them, and they
become zero cells unless no key is before them. -/
def place (bound : Nat) (physical : Bool) (first : Option Nat) (state : Placing) (key : ScanKey) :
    Placing :=
  let moved := physical && key.crossesSeparator
  let zeros :=
    if moved && first.any (fun start => decide (start ≤ key.from_)) then
      fillZeros state.zeros key.from_ (min key.syllableStart bound)
    else state.zeros
  let column := if moved then key.syllableStart else key.from_
  let raw : ScanKey :=
    { key with from_ := column, crossesSeparator := false, syllableStart := column }
  ⟨state.columns.push column raw, zeros, max state.lastEnd raw.to_⟩

/-- The parsed matrix of a scan. -/
def fromScan (scan : Columns) (bound : Nat) (physical : Bool) : ParsedMatrix :=
  let first := (scan.flatten.map (·.syllableStart)).min?
  let placed := scan.flatten.foldl (place bound physical first)
    ⟨List.replicate (bound + 1) [], List.replicate (bound + 1) false, 0⟩
  let zeros := if physical then fillZeros placed.zeros placed.lastEnd (bound + 1) else placed.zeros
  let zeros := if first.isSome then zeros.set bound true else zeros
  ⟨placed.columns, zeros, bound⟩

end ParsedMatrix

end Oxpinyin
