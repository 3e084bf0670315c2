import Oxpinyin.ScanMatrix
import Oxpinyin.Constraint
import Oxpinyin.SingleGram

/-!
# Span searches over the scan matrix

`GenerationView.walk` follows every key path of a span through the columns, hops over
zero-key cells, and asks the dictionary for the phrases of each complete path. The answers
are ranges of tokens, filed by library (`PhraseIndexRanges`). A search also reports whether
a longer span may still find something.

The dictionary and the language model are parameters : what they keep between calls is a
cache of their own answers, so they answer by their arguments.
-/

namespace Oxpinyin

/-- Longest phrase in keys. -/
def maxPhraseLength : Nat := 16

/-- Why a decode failed. -/
inductive EngineError (ε : Type) where
  /-- The dictionary's own failure. -/
  | dictionary (error : ε)
  /-- The model's failure on a token's row. -/
  | rowRead (token : PhraseToken) (error : ε)
  /-- A merged row that cannot be read. -/
  | lookupGram (token : PhraseToken) (fault : GramFault)
  /-- A toned initial-only key. -/
  | tonedIncompleteKey
  /-- The input does not fit a graph. -/
  | graph (error : GraphError)

/-! ## Ranges of tokens -/

/-- Number of phrase libraries. -/
def phraseIndexLibraryCount : Nat := 16

/-- The library of a token. -/
def phraseIndexLibrary (token : PhraseToken) : Nat :=
  (token >>> 24 &&& 0x0f#32).toNat

/-- Consecutive tokens of one library, with the place of the first one's slot. -/
structure PhraseIndexRange where
  first : PhraseToken
  last : PhraseToken
  slot : Nat
  deriving DecidableEq

/-- Ranges by library, in order of arrival, and one slot a ranged token. -/
structure PhraseIndexRanges (α : Type) where
  libraries : List (List PhraseIndexRange)
  slots : List (Option α)

namespace PhraseIndexRanges

variable {α β : Type}

/-- No ranges. -/
def empty : PhraseIndexRanges α :=
  ⟨List.replicate phraseIndexLibraryCount [], []⟩

/-- Files a closed range under its library. -/
def push (ranges : PhraseIndexRanges α) (range : PhraseIndexRange) : PhraseIndexRanges α :=
  { ranges with
    libraries := ranges.libraries.modify (phraseIndexLibrary range.first) (· ++ [range]) }

/-- Takes one item : it extends the open range or opens a new one. -/
def convertItem (state : PhraseIndexRanges α × Option PhraseIndexRange)
    (item : PhraseToken × Option α) : PhraseIndexRanges α × Option PhraseIndexRange :=
  let slot := min state.1.slots.length (2 ^ 32 - 1)
  let ranges : PhraseIndexRanges α := { state.1 with slots := state.1.slots ++ [item.2] }
  match state.2 with
  | some opened =>
    if opened.last.toNat + 1 = item.1.toNat ∧
        phraseIndexLibrary opened.first = phraseIndexLibrary item.1 then
      (ranges, some { opened with last := item.1 })
    else (ranges.push opened, some ⟨item.1, item.1, slot⟩)
  | none => (ranges, some ⟨item.1, item.1, slot⟩)

variable (ranges : PhraseIndexRanges α)

/-- Appends the ranges of one search call. -/
def convert (items : List (PhraseToken × Option α)) : PhraseIndexRanges α :=
  let state := items.foldl convertItem (ranges, none)
  match state.2 with
  | some opened => state.1.push opened
  | none => state.1

/-- Every range, by library and then in order of arrival. -/
def iter : List PhraseIndexRange :=
  ranges.libraries.flatten

/-- What `token` resolved to inside `range`. -/
def entry (range : PhraseIndexRange) (token : PhraseToken) : Option α :=
  if token < range.first ∨ range.last < token then none
  else (ranges.slots[range.slot + (token.toNat - range.first.toNat)]?).join

/-- Every filled slot with its token, in the order of `iter`. -/
def walkTokens : List (PhraseToken × α) :=
  ranges.iter.flatMap fun range =>
    (List.range' range.first.toNat (range.last.toNat + 1 - range.first.toNat)).filterMap fun n =>
      (ranges.entry range (BitVec.ofNat 32 n)).map fun found => (BitVec.ofNat 32 n, found)

/-- Appends the ranges of `other`, library by library, its entries mapped. -/
def appendFrom (other : PhraseIndexRanges β) (map : β → α) : PhraseIndexRanges α :=
  let base := min ranges.slots.length (2 ^ 32 - 1)
  ⟨List.zipWith (fun ours theirs => ours ++ theirs.map fun range =>
      { range with slot := min (range.slot + base) (2 ^ 32 - 1) })
      ranges.libraries other.libraries,
    ranges.slots ++ other.slots.map (·.map map)⟩

end PhraseIndexRanges

/-! ## The dictionary and the model -/

/-- What a step prices of a token : characters and pronunciation possibility. -/
structure TrellisItem where
  chars : Nat
  pronunciation : Option (Nat × Nat)

/-- The reads the pass makes of a dictionary, over a key path with its tones. -/
structure Dictionary (ε : Type) where
  /-- The ranges of a complete path, and whether a longer path exists. -/
  trellisRangesContinued : List SyllableKey → List Nat → Except ε (PhraseIndexRanges Unit × Bool)
  /-- What a step prices of a token on the path. -/
  trellisItem : List SyllableKey → List Nat → PhraseToken → Except ε (Option TrellisItem)
  /-- The text of a token on the path. -/
  trellisText : List SyllableKey → List Nat → PhraseToken → Except ε (Option PhraseText)

/-! ## Walking the columns -/

/-- A key path : its keys and their tones. -/
structure KeyPath where
  keys : List SyllableKey
  tones : List Nat
  deriving DecidableEq

/-- A search's ranges and the paths they were found on. A slot holds the number of its
path. -/
structure SpanRanges where
  ranges : PhraseIndexRanges Nat
  paths : List KeyPath

/-- No ranges and no paths. -/
def SpanRanges.empty : SpanRanges := ⟨.empty, []⟩

/-- The columns of a parse and its zero-key cells. -/
structure GenerationView where
  columns : List (List ScanKey)
  zeros : List Bool

/-- Refuses a path whose first initial-only key has a tone. -/
def checkTonedIncomplete {ε : Type} (path : KeyPath) : Except (EngineError ε) Unit :=
  match path.keys.findIdx? fun key => key.completeness = .Partial with
  | some index =>
    if (path.tones[index]?).any (· != 0) then .error .tonedIncompleteKey else .ok ()
  | none => .ok ()

namespace GenerationView

variable {ε : Type} (view : GenerationView) (dictionary : Dictionary ε)

/-- The end of a path : the dictionary is asked, and its ranges are filed. -/
def leaf (path : KeyPath) (state : SpanRanges × Bool) :
    Except (EngineError ε) (SpanRanges × Bool) :=
  if maxPhraseLength < path.keys.length then .ok state
  else if path.keys = [] then .ok (state.1, true)
  else
    match @checkTonedIncomplete ε path with
    | .error e => .error e
    | .ok _ =>
      match dictionary.trellisRangesContinued path.keys path.tones with
      | .error e => .error (.dictionary e)
      | .ok (ranges, continued) =>
        .ok (⟨state.1.ranges.appendFrom ranges fun _ => state.1.paths.length,
          state.1.paths ++ [path]⟩, state.2 || continued)

/-- Follows every path from `start` to `stop`, keys of a column in order. A zero-key cell
is a hop of one. Every hop and every key runs forward, so the length of the span bounds
the walk. -/
def walk (stop : Nat) : Nat → Nat → KeyPath → SpanRanges × Bool →
    Except (EngineError ε) (SpanRanges × Bool)
  | fuel, start, path, state =>
    if stop < start then .ok state
    else if start = stop then leaf dictionary path state
    else
      match fuel with
      | 0 => .ok state
      | fuel + 1 =>
        if view.zeros.getD start false then walk stop fuel (start + 1) path state
        else
          (view.columns.getD start []).foldlM (fun state key =>
            if stop < key.to_ then .ok (state.1, true)
            else if key.to_ ≤ start then .ok state
            else
              let path : KeyPath := ⟨path.keys ++ [key.key], path.tones ++ [key.tone]⟩
              if path.keys.length ≤ maxPhraseLength then walk stop fuel key.to_ path state
              else .ok state) state

/-- One span search : the ranges found, and whether a longer span may find more. -/
def search (start stop : Nat) : Except (EngineError ε) (SpanRanges × Bool) :=
  match view.columns[start]? with
  | none => .ok (.empty, false)
  | some column =>
    if column = [] ∧ view.zeros.getD start false = false then .ok (.empty, false)
    else if stop + 1 < view.columns.length ∧ view.columns.getD stop [] = [] ∧
        view.zeros.getD stop false = false then .ok (.empty, true)
    else walk view dictionary stop (stop - start) start ⟨[], []⟩ (.empty, false)

end GenerationView

end Oxpinyin
