import Oxpinyin.Lib.Search
import Oxpinyin.DoublePinyin
import Oxpinyin.ZhuyinKeyboards

/-!
# The zhuyin parsers

A zhuyin keyboard spells a syllable by symbols of its keys, with a tone key behind them. The batch
parser takes the longest slice that spells a key, again and again, and stops where no slice spells one
or the tone of the longest is none of its syllable. `parseDetailed_greedy` : these are the keys of the
greedy rule. `parseWithOptions_single` : an input that the parser of one key accepts is one key of the
batch parser (`zhuyinParse_spec`).
-/

set_option linter.unusedSectionVars false

namespace Oxpinyin.Zhuyin

open List Option Cuts Search Or

/-! ## Options -/

def zhuyinIncomplete : BitVec 32 := 1#32 <<< 4

def zhuyinCorrectHsu : BitVec 32 := 1#32 <<< 29

def zhuyinCorrectEten26 : BitVec 32 := 1#32 <<< 30

def zhuyinCorrectShuffle : BitVec 32 := 1#32 <<< 31

/-- All three correction bits. -/
def zhuyinCorrectAll : BitVec 32 := 0x7#32 <<< 29

/-! ## The index -/

/-- A spelling with the canonical one, its pinyin and the options it needs. -/
structure ZhuyinRow where
  input : List Char
  canonical : List Char
  pinyin : Bytes
  flags : BitVec 32

/-- A table of spellings, sorted. -/
abbrev ZhuyinIndex := List ZhuyinRow

def ZhuyinIndex.position (index : ZhuyinIndex) (spelling : List Char) : Option Nat :=
  let position := partitionPoint (fun row : ZhuyinRow => decide (row.input < spelling)) index
  if (index[position]?).any fun row => row.input == spelling then some position else none

def searchZhuyinIndex (index : ZhuyinIndex) (zhuyin : List Char) (options : BitVec 32) :
    Option (SyllableKey × List Char) := do
  let position ← index.position zhuyin
  let row ← index[position]?
  if row.input ≠ zhuyin then none
  else if row.flags &&& zhuyinIncomplete ≠ 0 ∧ options &&& zhuyinIncomplete = 0 then none
  else
    let corrections := row.flags &&& (zhuyinCorrectAll ||| pinyinAmbAll)
    if corrections ≠ 0 ∧ corrections &&& options ≠ corrections then none
    else (SyllableKey.fromCanonicalText row.pinyin).map fun key => (key, row.canonical)

/-- The indexes of the keyboards. -/
structure ZhuyinIndexes where
  zhuyinPinyinMap : ZhuyinIndex
  hsuZhuyinIndex : ZhuyinIndex
  eten26ZhuyinIndex : ZhuyinIndex

/-! ## Keyboards -/

/-- The first row of a key. -/
def lookup {α : Type} (table : List (UInt8 × α)) (byte : UInt8) : Option α :=
  (table.find? fun row => row.1 == byte).map (·.2)

/-- Every row of a key. -/
def allSymbols (table : SymbolTable) (byte : UInt8) : List (List Char) :=
  (table.filter fun row => row.1 == byte).map (·.2)

/-- The first and the second row of a key. -/
def twoSymbols (table : SymbolTable) (byte : UInt8) : Option (List Char × Option (List Char)) :=
  match allSymbols table byte with
  | [] => none
  | first :: rest => some (first, rest.head?)

structure SimpleTables where
  symbols : SymbolTable
  tones : ToneTable
  index : ZhuyinIndex

structure DiscreteTables where
  initials : SymbolTable
  middles : SymbolTable
  finals : SymbolTable
  tones : ToneTable
  index : ZhuyinIndex
  /-- The correction bit of the keyboard. -/
  correction : BitVec 32

/-- The keyboard reads the index of the simple ones. -/
structure Cp26Tables where
  initials : SymbolTable
  middles : SymbolTable
  finals : SymbolTable
  tones : ToneTable
  index : ZhuyinIndex

inductive Keyboard where
  | simple (tables : SimpleTables)
  | discrete (tables : DiscreteTables)
  | cp26 (tables : Cp26Tables)

inductive ZhuyinScheme where
  | standard | hsu | ibm | ginyieh | eten | eten26 | standardDvorak | hsuDvorak | dachenCp26
  deriving DecidableEq

/-- The keyboard of a scheme. -/
def ZhuyinScheme.keyboard (indexes : ZhuyinIndexes) : ZhuyinScheme → Option Keyboard
  | .standard => some (.simple ⟨standardSymbols, standardTones, indexes.zhuyinPinyinMap⟩)
  | .ibm => some (.simple ⟨ibmSymbols, ibmTones, indexes.zhuyinPinyinMap⟩)
  | .ginyieh => some (.simple ⟨ginyiehSymbols, ginyiehTones, indexes.zhuyinPinyinMap⟩)
  | .eten => some (.simple ⟨etenSymbols, etenTones, indexes.zhuyinPinyinMap⟩)
  | .hsu => some (.discrete ⟨hsuInitials, hsuMiddles, hsuFinals, hsuTones, indexes.hsuZhuyinIndex, zhuyinCorrectHsu⟩)
  | .eten26 => some (.discrete
      ⟨eten26Initials, eten26Middles, eten26Finals, eten26Tones, indexes.eten26ZhuyinIndex, zhuyinCorrectEten26⟩)
  | .hsuDvorak => some (.discrete
      ⟨hsuDvorakInitials, hsuDvorakMiddles, hsuDvorakFinals, hsuDvorakTones, indexes.hsuZhuyinIndex,
        zhuyinCorrectHsu⟩)
  | .dachenCp26 => some (.cp26 ⟨cp26Initials, cp26Middles, cp26Finals, cp26Tones, indexes.zhuyinPinyinMap⟩)
  | .standardDvorak => none

def toneSymbol : Nat → List Char
  | 1 => [' ']
  | 2 => ['ˊ']
  | 3 => ['ˇ']
  | 4 => ['ˋ']
  | 5 => ['˙']
  | _ => []

/-- The tone of a key, under the option. -/
def toneOf (tones : ToneTable) (useTone : Bool) (byte : UInt8) : Option Nat :=
  if useTone then lookup tones byte else none

/-- The symbols of a key. -/
def symbolsFor (keyboard : Option Keyboard) (byte : UInt8) (useTone : Bool) : List (List Char) :=
  match keyboard with
  | some (.simple tables) => (lookup tables.symbols byte).toList ++
      ((toneOf tables.tones useTone byte).map toneSymbol).toList
  | some (.discrete tables) =>
    [tables.initials, tables.middles, tables.finals].flatMap (allSymbols · byte) ++
      ((toneOf tables.tones useTone byte).map toneSymbol).toList
  | some (.cp26 tables) =>
    [tables.initials, tables.middles, tables.finals].flatMap (allSymbols · byte) ++
      (if byte == 105 then [['ㄧ', 'ㄚ']] else []) ++ ((toneOf tables.tones useTone byte).map toneSymbol).toList
  | none => []

/-- A key is on the keyboard. -/
def inScheme (keyboard : Option Keyboard) (byte : UInt8) (useTone : Bool) : Bool :=
  !(symbolsFor keyboard byte useTone).isEmpty

/-! ## The parsers of one key -/

/-- A spelled key : its syllable, canonical spelling and tone. -/
abbrev Spelled := SyllableKey × List Char × Nat

/-- Takes a tone key off the end. -/
def stripTone (tones : ToneTable) (useTone : Bool) (input : Bytes) : Bytes × Nat :=
  match input.getLast?.bind (toneOf tones useTone) with
  | some tone => (input.dropLast, tone)
  | none => (input, 0)

def parseOneZhuyinKey (input : Bytes) (useTone : Bool) (options : BitVec 32) (tables : SimpleTables) :
    Option Spelled := do
  let (symbols, tone) := stripTone tables.tones useTone input
  if symbols = [] then none
  else
    let zhuyin ← symbols.mapM (lookup tables.symbols)
    let (key, canonical) ← searchZhuyinIndex tables.index zhuyin.flatten options
    return (key, canonical, tone)

/-- The symbol of the next key if the table has one, and the keys behind it. -/
def probeSlot (table : SymbolTable) : Bytes → List Char × Bytes
  | [] => ([], [])
  | byte :: rest =>
    match lookup table byte with
    | some symbol => (symbol, rest)
    | none => ([], byte :: rest)

/-- The tone of the next key if it has one, and the keys behind it. -/
def probeTone (tones : ToneTable) (useTone : Bool) : Bytes → Nat × Bytes
  | [] => (0, [])
  | byte :: rest =>
    match toneOf tones useTone byte with
    | some tone => (tone, rest)
    | none => (0, byte :: rest)

def parseOneDiscreteKey (input : Bytes) (useTone : Bool) (options : BitVec 32) (tables : DiscreteTables) :
    Option Spelled := do
  if input = [] then none
  else
    let (initial, rest) := probeSlot tables.initials input
    let (middle, rest) := probeSlot tables.middles rest
    let (final, rest) := probeSlot tables.finals rest
    let (tone, rest) := probeTone tables.tones useTone rest
    if rest ≠ [] then none
    else
      let (key, canonical) ← searchZhuyinIndex tables.index (initial ++ middle ++ final) options
      return (key, canonical, tone)

/-- The length of the run of the first key. -/
def countSameChars : Bytes → Nat
  | [] => 0
  | byte :: rest => ((byte :: rest).takeWhile (· == byte)).length

/-- A run of a key cycles its rows. -/
def probeRun (table : SymbolTable) : Bytes → List Char × Bytes
  | [] => ([], [])
  | byte :: rest =>
    let count := countSameChars (byte :: rest)
    match twoSymbols table byte with
    | some (first, second) =>
      (second.elim first fun second => if (count - 1) % 2 = 0 then first else second, (byte :: rest).drop count)
    | none => ([], byte :: rest)

/-- The middle and the final that a run of a middle key spells. -/
def middleCycle (byte : UInt8) (count : Nat) : List Char × List Char :=
  if byte = 117 then
    match (count - 1) % 3 with
    | 0 => (['ㄧ'], [])
    | 1 => ([], ['ㄚ'])
    | _ => (['ㄧ'], ['ㄚ'])
  else if byte = 109 then
    if (count - 1) % 2 = 0 then (['ㄩ'], []) else ([], ['ㄡ'])
  else if byte = 106 then (['ㄨ'], [])
  else ([], [])

/-- The middle keys, which may spell a final as well. -/
def probeMiddle (table : SymbolTable) : Bytes → (List Char × List Char) × Bytes
  | [] => (([], []), [])
  | byte :: rest =>
    let count := countSameChars (byte :: rest)
    (middleCycle byte count, if (twoSymbols table byte).isSome then (byte :: rest).drop count else byte :: rest)

def parseOneCp26Key (input : Bytes) (useTone : Bool) (options : BitVec 32) (tables : Cp26Tables) :
    Option Spelled := do
  let (symbols, tone) := stripTone tables.tones useTone input
  if symbols = [] then none
  else
    let (initial, rest) := probeRun tables.initials symbols
    let ((middle, final), rest) := probeMiddle tables.middles rest
    let (final, rest) := if final = [] then probeRun tables.finals rest else (final, rest)
    if rest ≠ [] then none
    else
      let (key, canonical) ← searchZhuyinIndex tables.index (initial ++ middle ++ final) options
      return (key, canonical, tone)

/-- The parser of one key of a keyboard. A forced tone is asked for under `useTone` only, but for the
discrete keyboards always. -/
def Keyboard.parseOneKey (keyboard : Keyboard) (input : Bytes) (useTone forceTone : Bool) (options : BitVec 32) :
    Option Spelled :=
  match keyboard with
  | .simple tables => (parseOneZhuyinKey input useTone options tables).filter fun found =>
      !(useTone && forceTone && found.2.2 == 0)
  | .discrete tables => (parseOneDiscreteKey input useTone options tables).filter fun found =>
      !(forceTone && found.2.2 == 0)
  | .cp26 tables => (parseOneCp26Key input useTone options tables).filter fun found =>
      !(useTone && forceTone && found.2.2 == 0)

/-- The syllable and tone of an input that is one key. -/
def spelledKey (keyboard : Option Keyboard) (options : BitVec 32) (input : Bytes) : Option (SyllableKey × Nat) :=
  let bits : OptionBits := ⟨options &&& ~~~pinyinAmbAll⟩
  keyboard.bind fun keyboard =>
    (keyboard.parseOneKey input (bits.contains useTone) (bits.contains forceTone) bits.bits).map fun found =>
      (found.1, found.2.2)

def parseOneKey (keyboard : Option Keyboard) (options : BitVec 32) (input : Bytes) : Option ChewingKey :=
  (spelledKey keyboard options input).bind fun found => (ChewingKey.fromPinyin found.1.text).map (·.withTone found.2)

/-! ## The batch parser -/

structure ZhuyinKey where
  key : SyllableKey
  start : Nat
  stop : Nat
  zhuyin : List Char
  tone : Nat
  deriving DecidableEq

structure ZhuyinParse where
  keys : List ZhuyinKey
  consumed : Nat
  deriving DecidableEq

/-- A syllable may have a tone. -/
def isValidZhuyin (key : SyllableKey) (tone : Nat) : Bool :=
  (validZhuyinTones[key.index]?).any fun mask => decide (tone < 8) && mask &&& (1#8 <<< tone) != 0

namespace Keyboard

variable (keyboard : Keyboard)

/-- A key is in the window of the batch parser. -/
def holds (useTone : Bool) (byte : UInt8) : Bool :=
  match keyboard with
  | .simple tables => (lookup tables.symbols byte).isSome || (useTone && (lookup tables.tones byte).isSome)
  | .discrete tables =>
    [tables.initials, tables.middles, tables.finals].any (fun table => table.any fun row => row.1 == byte) ||
      (useTone && (lookup tables.tones byte).isSome)
  | .cp26 tables => inScheme (some (.cp26 tables)) byte useTone

/-- The options of the batch parser. -/
def parserOptions (allowIncomplete : Bool) : BitVec 32 :=
  match keyboard with
  | .simple _ => if allowIncomplete then zhuyinCorrectShuffle ||| zhuyinIncomplete else zhuyinCorrectShuffle
  | .discrete tables => if allowIncomplete then tables.correction ||| zhuyinIncomplete else tables.correction
  | .cp26 _ => if allowIncomplete then zhuyinIncomplete else 0

def maxKeyLen : Nat :=
  match keyboard with
  | .cp26 _ => 12
  | _ => 4

/-- The probe of the batch parser at a slice. -/
def probeAt (input : Bytes) (useTone forceTone allowIncomplete : Bool) (start length : Nat) : Option ZhuyinKey :=
  (keyboard.parseOneKey (slice input start length) useTone forceTone (keyboard.parserOptions allowIncomplete)).map
    fun found => ⟨found.1, start, start + length, found.2.1, found.2.2⟩

/-- The leading run of keys of the keyboard. -/
def maximumLen (input : Bytes) (useTone : Bool) : Nat := (input.takeWhile (keyboard.holds useTone)).length

end Keyboard

open Keyboard

def parseDetailed (keyboard : Option Keyboard) (input : Bytes) (useTone forceTone allowIncomplete : Bool) :
    ZhuyinParse :=
  match keyboard with
  | none => ⟨[], 0⟩
  | some keyboard =>
    let maximumLen := keyboard.maximumLen input useTone
    let found := greedyWhile (keyboard.probeAt input useTone forceTone allowIncomplete)
      (fun key => isValidZhuyin key.key key.tone) keyboard.maxKeyLen maximumLen maximumLen 0
    ⟨found.1, found.2⟩

def parseWithOptions (keyboard : Option Keyboard) (input : Bytes) (options : BitVec 32) : ZhuyinParse :=
  let bits : OptionBits := ⟨options⟩
  parseDetailed keyboard input (bits.contains useTone) (bits.contains forceTone) (bits.contains zhuyinIncomplete)

/-! ## What a key is made of -/

section Held

variable {byte : UInt8}

theorem isSome_lookup {α : Type} {table : List (UInt8 × α)} :
    (lookup table byte).isSome = table.any fun row => row.1 == byte := by
  rw [lookup, isSome_map, Bool.eq_iff_iff, find?_isSome, List.any_eq_true]

theorem isSome_twoSymbols {table : SymbolTable} :
    (twoSymbols table byte).isSome = !(allSymbols table byte).isEmpty := by
  unfold twoSymbols
  cases allSymbols table byte <;> rfl

theorem any_eq_allSymbols {table : SymbolTable} :
    (table.any fun row => row.1 == byte) = !(allSymbols table byte).isEmpty := by
  rw [allSymbols, isEmpty_map, Bool.eq_iff_iff]
  simp [filter_eq_nil_iff]

variable {tones : ToneTable}

theorem isSome_toneOf {useTone : Bool} :
    (toneOf tones useTone byte).isSome = (useTone && (lookup tones byte).isSome) := by
  cases useTone <;> rfl

/-- The window holds the keys of the keyboard. -/
theorem holds_eq (keyboard : Keyboard) (useTone : Bool) (byte : UInt8) :
    keyboard.holds useTone byte = inScheme (some keyboard) byte useTone := by
  cases keyboard with
  | simple tables =>
    simp only [holds, inScheme, symbolsFor, ← isSome_toneOf]
    cases lookup tables.symbols byte <;> cases toneOf tables.tones useTone byte <;> rfl
  | discrete tables =>
    simp only [holds, inScheme, symbolsFor, ← isSome_toneOf, flatMap_cons, flatMap_nil,
      any_eq_allSymbols, any_cons, any_nil]
    cases allSymbols tables.initials byte <;> cases allSymbols tables.middles byte <;>
      cases allSymbols tables.finals byte <;> cases toneOf tables.tones useTone byte <;> rfl
  | cp26 tables => rfl

/-- Without its tone key an input has its other keys. -/
theorem mem_stripTone {useTone : Bool} {input : Bytes} (h : byte ∈ input) :
    byte ∈ (stripTone tones useTone input).1 ∨ (useTone && (lookup tones byte).isSome) = true := by
  unfold stripTone
  cases htone : input.getLast?.bind (toneOf tones useTone) with
  | none => exact inl h
  | some tone =>
    obtain ⟨last, hlast, htone⟩ := bind_eq_some_iff.mp htone
    rw [← dropLast_append_getLast? last hlast, mem_append, mem_singleton] at h
    refine h.imp id ?_
    rintro rfl
    rw [← isSome_toneOf, htone]
    rfl

theorem isSome_of_mapM {α : Type} {table : List (UInt8 × α)} : ∀ {input : Bytes} {found : List α},
    input.mapM (lookup table) = some found → ∀ byte ∈ input, (lookup table byte).isSome = true
  | [], _, _ => forall_mem_nil _
  | byte :: input, found, h => by
    rw [mapM_cons] at h
    obtain ⟨symbol, hsymbol, h⟩ := bind_eq_some_iff.mp h
    obtain ⟨rest, hrest, -⟩ := bind_eq_some_iff.mp h
    exact forall_mem_cons.mpr ⟨by rw [hsymbol]; rfl, isSome_of_mapM hrest⟩

/-- Behind the run of the first key are the other keys. -/
theorem mem_drop_countSameChars {first : UInt8} {rest : Bytes} (h : byte ∈ first :: rest) :
    byte ∈ (first :: rest).drop (countSameChars (first :: rest)) ∨ byte = first := by
  have hdrop := @List.drop_left _ ((first :: rest).takeWhile (· == first)) ((first :: rest).dropWhile (· == first))
  rw [takeWhile_append_dropWhile] at hdrop
  rw [countSameChars, hdrop]
  rw [← @List.takeWhile_append_dropWhile _ (· == first) (first :: rest), mem_append] at h
  exact h.symm.imp id fun hrun => by simpa using mem_takeWhile_imp hrun

section

variable {table : SymbolTable} {input : Bytes} (h : byte ∈ input)
include h

theorem mem_probeSlot : byte ∈ (probeSlot table input).2 ∨ (table.any fun row => row.1 == byte) = true := by
  cases input with
  | nil => cases h
  | cons first rest =>
    rw [probeSlot]
    cases hfound : lookup table first with
    | none => exact inl h
    | some symbol =>
      refine (mem_cons.mp h).symm.imp id ?_
      rintro rfl
      rw [← isSome_lookup, hfound]
      rfl

theorem mem_probeTone {useTone : Bool} :
    byte ∈ (probeTone tones useTone input).2 ∨ (useTone && (lookup tones byte).isSome) = true := by
  cases input with
  | nil => cases h
  | cons first rest =>
    rw [probeTone]
    cases htone : toneOf tones useTone first with
    | none => exact inl h
    | some tone =>
      refine (mem_cons.mp h).symm.imp id ?_
      rintro rfl
      rw [← isSome_toneOf, htone]
      rfl

theorem mem_probeRun : byte ∈ (probeRun table input).2 ∨ (table.any fun row => row.1 == byte) = true := by
  cases input with
  | nil => cases h
  | cons first rest =>
    rw [probeRun]
    cases hfound : twoSymbols table first with
    | none => exact inl h
    | some symbols =>
      refine (mem_drop_countSameChars h).imp id ?_
      rintro rfl
      rw [any_eq_allSymbols, ← isSome_twoSymbols, hfound]
      rfl

theorem mem_probeMiddle : byte ∈ (probeMiddle table input).2 ∨ (table.any fun row => row.1 == byte) = true := by
  cases input with
  | nil => cases h
  | cons first rest =>
    rw [probeMiddle]
    cases hfound : (twoSymbols table first).isSome with
    | false => exact inl h
    | true =>
      refine (mem_drop_countSameChars h).imp id ?_
      rintro rfl
      rw [any_eq_allSymbols, ← isSome_twoSymbols, hfound]

end

/-- A key that was accepted with its tone key taken off. -/
theorem ne_nil_of_stripTone {useTone : Bool} {input : Bytes} (h : (stripTone tones useTone input).1 ≠ []) :
    input ≠ [] := by
  rintro rfl
  exact h rfl

section

variable {input : Bytes} {useTone : Bool} {options : BitVec 32}

theorem mem_parseOneZhuyinKey {tables : SimpleTables} {found : Spelled}
    (h : parseOneZhuyinKey input useTone options tables = some found) :
    input ≠ [] ∧ ∀ byte ∈ input, (lookup tables.symbols byte).isSome = true ∨
      (useTone && (lookup tables.tones byte).isSome) = true := by
  unfold parseOneZhuyinKey at h
  rcases hstrip : stripTone tables.tones useTone input with ⟨symbols, tone⟩
  have hsymbols : (stripTone tables.tones useTone input).1 = symbols := by rw [hstrip]
  rw [hstrip] at h
  dsimp only at h
  split_ifs at h with hnil
  obtain ⟨zhuyin, hzhuyin, -⟩ := bind_eq_some_iff.mp h
  refine ⟨ne_nil_of_stripTone (hsymbols ▸ hnil), fun byte hbyte => (mem_stripTone hbyte).imp (fun hmem => ?_) id⟩
  exact isSome_of_mapM hzhuyin byte (hsymbols ▸ hmem)

/-- Every byte of a key is a symbol of the keyboard. -/
theorem mem_parseOneDiscreteKey {tables : DiscreteTables} {found : Spelled}
    (h : parseOneDiscreteKey input useTone options tables = some found) :
    input ≠ [] ∧ ∀ byte ∈ input,
      ([tables.initials, tables.middles, tables.finals].any fun table => table.any fun row => row.1 == byte) = true ∨
        (useTone && (lookup tables.tones byte).isSome) = true := by
  unfold parseOneDiscreteKey at h
  split_ifs at h with hnil
  refine ⟨hnil, fun byte hbyte => ?_⟩
  simp only [any_cons, any_nil, Bool.or_false, Bool.or_eq_true]
  rcases hinitial : probeSlot tables.initials input with ⟨initial, afterInitial⟩
  rcases hmiddle : probeSlot tables.middles afterInitial with ⟨middle, afterMiddle⟩
  rcases hfinal : probeSlot tables.finals afterMiddle with ⟨final, afterFinal⟩
  rcases htone : probeTone tables.tones useTone afterFinal with ⟨tone, afterTone⟩
  simp only [hinitial, hmiddle, hfinal, htone] at h
  split_ifs at h with hrest
  rcases @mem_probeSlot _ tables.initials _ hbyte with hbyte | hheld
  · rw [hinitial] at hbyte
    rcases @mem_probeSlot _ tables.middles _ hbyte with hbyte | hheld
    · rw [hmiddle] at hbyte
      rcases @mem_probeSlot _ tables.finals _ hbyte with hbyte | hheld
      · rw [hfinal] at hbyte
        rcases @mem_probeTone _ tables.tones _ hbyte useTone with hbyte | hheld
        · rw [htone, not_not.mp hrest] at hbyte
          cases hbyte
        · exact inr hheld
      · exact inl (inr (inr hheld))
    · exact inl (inr (inl hheld))
  · exact inl (inl hheld)

/-- Every byte of a key is a symbol of the keyboard. -/
theorem mem_parseOneCp26Key {tables : Cp26Tables} {found : Spelled}
    (h : parseOneCp26Key input useTone options tables = some found) :
    input ≠ [] ∧ ∀ byte ∈ input,
      ([tables.initials, tables.middles, tables.finals].any fun table => table.any fun row => row.1 == byte) = true ∨
        (useTone && (lookup tables.tones byte).isSome) = true := by
  unfold parseOneCp26Key at h
  rcases hstrip : stripTone tables.tones useTone input with ⟨symbols, tone⟩
  have hsymbols : (stripTone tables.tones useTone input).1 = symbols := by rw [hstrip]
  rw [hstrip] at h
  dsimp only at h
  have hnil : ¬ symbols = [] := by
    intro hnil
    rw [if_pos hnil] at h
    cases h
  rw [if_neg hnil] at h
  refine ⟨ne_nil_of_stripTone (hsymbols ▸ hnil), fun byte hbyte => (mem_stripTone hbyte).imp (fun hmem => ?_) id⟩
  rw [hsymbols] at hmem
  simp only [any_cons, any_nil, Bool.or_false, Bool.or_eq_true]
  rcases hinitial : probeRun tables.initials symbols with ⟨initial, afterInitial⟩
  rcases hmiddle : probeMiddle tables.middles afterInitial with ⟨⟨middle, final⟩, afterMiddle⟩
  simp only [hinitial, hmiddle] at h
  rcases @mem_probeRun _ tables.initials _ hmem with hmem | hheld
  · rw [hinitial] at hmem
    rcases @mem_probeMiddle _ tables.middles _ hmem with hmem | hheld
    · rw [hmiddle] at hmem
      by_cases hfinal : final = []
      · rcases @mem_probeRun _ tables.finals _ hmem with hmem | hheld
        · rcases hlast : probeRun tables.finals afterMiddle with ⟨last, afterFinal⟩
          rw [hlast] at hmem
          simp only [hfinal, if_true, hlast] at h
          split_ifs at h with hrest
          rw [not_not.mp hrest] at hmem
          cases hmem
        · exact inr (inr hheld)
      · simp only [hfinal, if_false] at h
        split_ifs at h with hrest
        rw [not_not.mp hrest] at hmem
        cases hmem
    · exact inr (inl hheld)
  · exact inl hheld

end

/-- The keys of an input that is one key are on the keyboard. -/
theorem holds_of_parseOneKey {keyboard : Keyboard} {input : Bytes} {useTone forceTone : Bool} {options : BitVec 32}
    {found : Spelled} (h : keyboard.parseOneKey input useTone forceTone options = some found) :
    input ≠ [] ∧ ∀ byte ∈ input, keyboard.holds useTone byte = true := by
  cases keyboard with
  | simple tables =>
    obtain ⟨hnil, hheld⟩ := mem_parseOneZhuyinKey (eq_some_of_filter_eq_some h)
    exact ⟨hnil, fun byte hbyte => Bool.or_eq_true_iff.mpr (hheld byte hbyte)⟩
  | discrete tables =>
    obtain ⟨hnil, hheld⟩ := mem_parseOneDiscreteKey (eq_some_of_filter_eq_some h)
    exact ⟨hnil, fun byte hbyte => Bool.or_eq_true_iff.mpr (hheld byte hbyte)⟩
  | cp26 tables =>
    obtain ⟨hnil, hheld⟩ := mem_parseOneCp26Key (eq_some_of_filter_eq_some h)
    refine ⟨hnil, fun byte hbyte => ?_⟩
    have hheld := hheld byte hbyte
    rw [← isSome_toneOf] at hheld
    simp only [any_cons, any_nil, any_eq_allSymbols] at hheld
    simp only [holds, inScheme, symbolsFor, flatMap_cons, flatMap_nil]
    revert hheld
    cases allSymbols tables.initials byte <;> cases allSymbols tables.middles byte <;>
      cases allSymbols tables.finals byte <;> cases toneOf tables.tones useTone byte <;> simp

end Held

/-! ## The greedy rule -/

/-- The keys stand one behind the other. -/
inductive Adjacent : Nat → List ZhuyinKey → Nat → Prop
  | nil (c : Nat) : Adjacent c [] c
  | cons {key : ZhuyinKey} {keys : List ZhuyinKey} {stop : Nat} : key.start < key.stop → Adjacent key.stop keys stop →
      Adjacent key.start (key :: keys) stop

/-- The keys are the longest slices that spell one, up to where there is none or its tone is not valid. -/
structure LongestKeys (slices : Nat → Nat → Option Spelled) (parse : ZhuyinParse) : Prop where
  adjacent : Adjacent 0 parse.keys parse.consumed
  longest : ∀ key ∈ parse.keys, slices key.start (key.stop - key.start) = some (key.key, key.zhuyin, key.tone) ∧
    (∀ l, key.stop - key.start < l → slices key.start l = none) ∧ isValidZhuyin key.key key.tone = true
  stops : (∀ l, 0 < l → slices parse.consumed l = none) ∨
    ∃ l found, 0 < l ∧ slices parse.consumed l = some found ∧ (∀ l', l < l' → slices parse.consumed l' = none) ∧
      isValidZhuyin found.1 found.2.2 = false

/-- The key of a slice within the leading run of keys of the keyboard, if it is not too long for one. -/
def oneKeyAt (keyboard : Option Keyboard) (input : Bytes) (useTone forceTone allowIncomplete : Bool)
    (start length : Nat) : Option Spelled :=
  keyboard.bind fun keyboard =>
    if length ≤ keyboard.maxKeyLen ∧
        start + length ≤ (input.takeWhile fun byte => inScheme (some keyboard) byte useTone).length then
      keyboard.parseOneKey (slice input start length) useTone forceTone (keyboard.parserOptions allowIncomplete)
    else none

/-- The key that a spelled slice becomes. -/
def Spelled.at_ (start length : Nat) (found : Spelled) :
    ZhuyinKey := ⟨found.1, start, start + length, found.2.1, found.2.2⟩

/-- The key of a slice, with its place. -/
def slicesAt (slices : Nat → Nat → Option Spelled) (start length : Nat) : Option ZhuyinKey :=
  (slices start length).map (Spelled.at_ start length)

/-- Keys cut by the greedy rule. -/
theorem longestKeys_of_munchWhile {slices : Nat → Nat → Option Spelled} {c stop : Nat} {keys : List ZhuyinKey}
    (h : MunchWhile (slicesAt slices) (fun key => isValidZhuyin key.key key.tone) c stop keys) :
    Adjacent c keys stop ∧
    (∀ key ∈ keys, slices key.start (key.stop - key.start) = some (key.key, key.zhuyin, key.tone) ∧
      (∀ l, key.stop - key.start < l → slices key.start l = none) ∧ isValidZhuyin key.key key.tone = true) ∧
    ((∀ l, 0 < l → slices stop l = none) ∨ ∃ l found, 0 < l ∧ slices stop l = some found ∧
      (∀ l', l < l' → slices stop l' = none) ∧ isValidZhuyin found.1 found.2.2 = false) := by
  induction h with
  | stop c hnone => exact ⟨.nil c, forall_mem_nil _, inl fun l hl => map_eq_none_iff.mp (hnone l hl)⟩
  | @refuse c l key hpos hkey hlonger htest =>
    obtain ⟨found, hfound, rfl⟩ := map_eq_some_iff.mp hkey
    refine ⟨.nil c, forall_mem_nil _, inr ⟨l, found, hpos, hfound, fun l' hl' => ?_, htest⟩⟩
    exact map_eq_none_iff.mp (hlonger l' hl')
  | @take c l t key keys hpos hkey hlonger htest _ ih =>
    obtain ⟨found, hfound, rfl⟩ := map_eq_some_iff.mp hkey
    obtain ⟨hadjacent, hlongest, hstops⟩ := ih
    have hkeys : Adjacent (found.at_ c l).start (found.at_ c l :: keys) t :=
      Adjacent.cons (Nat.lt_add_of_pos_right hpos) hadjacent
    refine ⟨hkeys, ?_, hstops⟩
    have hlen : (found.at_ c l).stop - (found.at_ c l).start = l := Nat.add_sub_cancel_left c l
    refine forall_mem_cons.mpr ⟨?_, hlongest⟩
    rw [hlen]
    exact ⟨hfound, fun l' hl' => map_eq_none_iff.mp (hlonger l' hl'), htest⟩

/-- The batch parser follows the greedy rule of a scanner that tests its keys. -/
theorem munchWhile_parseDetailed (keyboard : Option Keyboard) (input : Bytes)
    (useTone forceTone allowIncomplete : Bool) :
    MunchWhile (slicesAt (oneKeyAt keyboard input useTone forceTone allowIncomplete))
      (fun key => isValidZhuyin key.key key.tone) 0
      (parseDetailed keyboard input useTone forceTone allowIncomplete).consumed
      (parseDetailed keyboard input useTone forceTone allowIncomplete).keys := by
  cases keyboard with
  | none => exact .stop 0 fun _ _ => rfl
  | some keyboard =>
    have hrun : (fun byte => inScheme (some keyboard) byte useTone) = keyboard.holds useTone :=
      funext fun byte => (holds_eq keyboard useTone byte).symm
    have hlabel : windowed (keyboard.probeAt input useTone forceTone allowIncomplete) keyboard.maxKeyLen
        (keyboard.maximumLen input useTone) =
          slicesAt (oneKeyAt (some keyboard) input useTone forceTone allowIncomplete) := by
      funext c l
      rw [slicesAt, oneKeyAt, bind_some, hrun, windowed, probeAt, apply_ite (Option.map (Spelled.at_ c l))]
      rfl
    rw [← hlabel]
    exact munchWhile_greedyWhile (Nat.zero_le _) (Nat.le_refl (keyboard.maximumLen input useTone))

theorem parseDetailed_greedy (keyboard : Option Keyboard) (input : Bytes) (useTone forceTone allowIncomplete : Bool) :
    LongestKeys (oneKeyAt keyboard input useTone forceTone allowIncomplete)
      (parseDetailed keyboard input useTone forceTone allowIncomplete) := by
  obtain ⟨hadjacent, hlongest, hstops⟩ :=
    longestKeys_of_munchWhile (munchWhile_parseDetailed keyboard input useTone forceTone allowIncomplete)
  exact ⟨hadjacent, hlongest, hstops⟩

/-! ## One key -/

/-- A spelling found under options with no correction is found under others that have the incomplete bit
if these have it. -/
theorem searchZhuyinIndex_mono {index : ZhuyinIndex} {zhuyin : List Char} {options others : BitVec 32}
    {found : SyllableKey × List Char} (hplain : options &&& (zhuyinCorrectAll ||| pinyinAmbAll) = 0)
    (hincomplete : options &&& zhuyinIncomplete ≠ 0 → others &&& zhuyinIncomplete ≠ 0)
    (h : searchZhuyinIndex index zhuyin options = some found) :
    searchZhuyinIndex index zhuyin others = some found := by
  unfold searchZhuyinIndex at h ⊢
  obtain ⟨position, hposition, h⟩ := bind_eq_some_iff.mp h
  obtain ⟨row, hrow, h⟩ := bind_eq_some_iff.mp h
  rw [hposition, bind_eq_bind, bind_some, hrow, bind_eq_bind, bind_some]
  dsimp only at h ⊢
  split_ifs at h with hinput hflags hcorrections
  have hnone : row.flags &&& (zhuyinCorrectAll ||| pinyinAmbAll) = 0 := by
    by_contra hne
    refine hcorrections ⟨hne, fun heq => hne ?_⟩
    rw [← heq, BitVec.and_assoc, BitVec.and_comm _ options, hplain]
    exact BitVec.and_zero
  rw [if_neg hinput, if_neg fun hrefused => hflags ⟨hrefused.1, ?_⟩, if_neg fun hrefused => hrefused.1 hnone]
  · exact h
  · by_contra hne
    exact hincomplete hne hrefused.2

section Mono

variable {input : Bytes} {useTone : Bool} {options others : BitVec 32} {found : Spelled}
  (hmono : ∀ index zhuyin found, searchZhuyinIndex index zhuyin options = some found →
    searchZhuyinIndex index zhuyin others = some found)

include hmono

theorem parseOneZhuyinKey_mono {tables : SimpleTables}
    (h : parseOneZhuyinKey input useTone options tables = some found) :
    parseOneZhuyinKey input useTone others tables = some found := by
  unfold parseOneZhuyinKey at h ⊢
  dsimp only at h ⊢
  split_ifs at h ⊢
  obtain ⟨zhuyin, hzhuyin, h⟩ := bind_eq_some_iff.mp h
  obtain ⟨spelling, hspelling, h⟩ := bind_eq_some_iff.mp h
  rw [hzhuyin, bind_eq_bind, bind_some, hmono _ _ _ hspelling]
  exact h

theorem parseOneDiscreteKey_mono {tables : DiscreteTables}
    (h : parseOneDiscreteKey input useTone options tables = some found) :
    parseOneDiscreteKey input useTone others tables = some found := by
  unfold parseOneDiscreteKey at h ⊢
  dsimp only at h ⊢
  split_ifs at h ⊢
  obtain ⟨spelling, hspelling, h⟩ := bind_eq_some_iff.mp h
  rw [hmono _ _ _ hspelling]
  exact h

theorem parseOneCp26Key_mono {tables : Cp26Tables} (h : parseOneCp26Key input useTone options tables = some found) :
    parseOneCp26Key input useTone others tables = some found := by
  unfold parseOneCp26Key at h ⊢
  dsimp only at h ⊢
  split_ifs at h ⊢
  all_goals
    obtain ⟨spelling, hspelling, h⟩ := bind_eq_some_iff.mp h
    rw [hmono _ _ _ hspelling]
    exact h

theorem Keyboard.parseOneKey_mono {keyboard : Keyboard} {forceTone : Bool}
    (h : keyboard.parseOneKey input useTone forceTone options = some found) :
    keyboard.parseOneKey input useTone forceTone others = some found := by
  cases keyboard with
  | simple tables =>
    obtain ⟨hfound, htone⟩ := filter_eq_some_iff.mp h
    exact filter_eq_some_iff.mpr ⟨parseOneZhuyinKey_mono hmono hfound, htone⟩
  | discrete tables =>
    obtain ⟨hfound, htone⟩ := filter_eq_some_iff.mp h
    exact filter_eq_some_iff.mpr ⟨parseOneDiscreteKey_mono hmono hfound, htone⟩
  | cp26 tables =>
    obtain ⟨hfound, htone⟩ := filter_eq_some_iff.mp h
    exact filter_eq_some_iff.mpr ⟨parseOneCp26Key_mono hmono hfound, htone⟩

end Mono

theorem parserOptions_incomplete (keyboard : Keyboard) : keyboard.parserOptions true &&& zhuyinIncomplete ≠ 0 := by
  cases keyboard with
  | simple tables =>
    change (zhuyinCorrectShuffle ||| zhuyinIncomplete) &&& zhuyinIncomplete ≠ 0
    decide
  | discrete tables =>
    change (tables.correction ||| zhuyinIncomplete) &&& zhuyinIncomplete ≠ 0
    rw [BitVec.and_comm, BitVec.and_or_distrib_left]
    intro h
    have hbit := congrArg (fun bits => bits.getLsbD 4) h
    simp [zhuyinIncomplete] at hbit
  | cp26 tables =>
    change zhuyinIncomplete &&& zhuyinIncomplete ≠ 0
    decide

/-- The batch parser takes an input that the parser of one key accepts as one key. -/
theorem parseWithOptions_single {keyboard : Keyboard} {options : BitVec 32} {input : Bytes} {syllable : SyllableKey}
    {tone : Nat} (hplain : options &&& zhuyinCorrectAll = 0) (hlength : input.length ≤ keyboard.maxKeyLen)
    (hspelled : spelledKey (some keyboard) options input = some (syllable, tone))
    (hvalid : isValidZhuyin syllable tone = true) :
    ∃ zhuyin, parseWithOptions (some keyboard) input options =
      ⟨[⟨syllable, 0, input.length, zhuyin, tone⟩], input.length⟩ := by
  unfold spelledKey at hspelled
  dsimp only at hspelled
  rw [bind_some] at hspelled
  obtain ⟨⟨key, zhuyin, found⟩, hfound, heq⟩ := map_eq_some_iff.mp hspelled
  cases heq
  rw [DoublePinyin.contains_masked options (by decide), DoublePinyin.contains_masked options (by decide)] at hfound
  have hmasked : (options &&& ~~~pinyinAmbAll) &&& (zhuyinCorrectAll ||| pinyinAmbAll) = 0 := by
    rw [BitVec.and_assoc, show ~~~pinyinAmbAll &&& (zhuyinCorrectAll ||| pinyinAmbAll) =
      zhuyinCorrectAll by decide, hplain]
  have hincomplete : (options &&& ~~~pinyinAmbAll) &&& zhuyinIncomplete ≠ 0 →
      keyboard.parserOptions ((⟨options⟩ : OptionBits).contains zhuyinIncomplete) &&& zhuyinIncomplete ≠ 0 :=
        fun hset => by
    have hcontains : (⟨options⟩ : OptionBits).contains zhuyinIncomplete = true := by
      rw [← @DoublePinyin.contains_masked (~~~pinyinAmbAll) options zhuyinIncomplete (by decide)]
      exact bne_iff_ne.mpr hset
    rw [hcontains]
    exact parserOptions_incomplete keyboard
  obtain ⟨hnil, hholds⟩ := holds_of_parseOneKey hfound
  have hbatch := parseOneKey_mono (fun _ _ _ => searchZhuyinIndex_mono hmasked hincomplete) hfound
  have hrun : keyboard.maximumLen input ((⟨options⟩ : OptionBits).contains useTone) = input.length := by
    rw [maximumLen, takeWhile_eq_self_iff.mpr hholds]
  have hpos : 0 < input.length := length_pos_of_ne_nil hnil
  obtain ⟨last, hlast⟩ := Nat.exists_eq_succ_of_ne_zero (Nat.ne_of_gt hpos)
  refine ⟨zhuyin, ?_⟩
  unfold parseWithOptions parseDetailed
  dsimp only
  rw [hrun]
  have hprobe : keyboard.probeAt input ((⟨options⟩ : OptionBits).contains useTone)
    ((⟨options⟩ : OptionBits).contains forceTone)
      ((⟨options⟩ : OptionBits).contains zhuyinIncomplete) 0 input.length =
        some ⟨key, 0, 0 + input.length, zhuyin, found⟩ := by
    rw [probeAt, slice, drop_zero, take_length, hbatch]
    rfl
  have hwhole := @greedyWhile_whole _ _ keyboard.maxKeyLen input.length
    (fun key => isValidZhuyin key.key key.tone) _ last hpos
    hlength hprobe hvalid
  rw [← Nat.succ_eq_add_one, ← hlast] at hwhole
  rw [hwhole, Nat.zero_add]

/-- The batch parser takes the longest keys of the leading run of keys of its keyboard, up to where there is
none or its tone is not valid. Under options with no correction a whole input that the parser of one key
accepts, with a valid tone, is its only key. -/
theorem zhuyinParse_spec (indexes : ZhuyinIndexes) (scheme : ZhuyinScheme) (input : Bytes) (options : BitVec 32) :
    LongestKeys (oneKeyAt (scheme.keyboard indexes) input ((⟨options⟩ : OptionBits).contains useTone)
      ((⟨options⟩ : OptionBits).contains forceTone) ((⟨options⟩ : OptionBits).contains zhuyinIncomplete))
        (parseWithOptions (scheme.keyboard indexes) input options) ∧
    ∀ keyboard key, scheme.keyboard indexes = some keyboard → options &&& zhuyinCorrectAll = 0 →
      input.length ≤ keyboard.maxKeyLen → parseOneKey (scheme.keyboard indexes) options input = some key →
      ∃ syllable tone, spelledKey (scheme.keyboard indexes) options input = some (syllable, tone) ∧
        ChewingKey.fromPinyin syllable.text = some (key.withTone 0) ∧ key.tone = tone ∧
        (isValidZhuyin syllable tone = true → ∃ zhuyin, parseWithOptions (scheme.keyboard indexes) input options =
          ⟨[⟨syllable, 0, input.length, zhuyin, tone⟩], input.length⟩) := by
  refine ⟨parseDetailed_greedy _ _ _ _ _, fun keyboard key hkeyboard hplain hlength hkey => ?_⟩
  rw [hkeyboard] at hkey ⊢
  obtain ⟨⟨syllable, tone⟩, hspelled, hkey⟩ := bind_eq_some_iff.mp hkey
  obtain ⟨chewing, hchewing, rfl⟩ := map_eq_some_iff.mp hkey
  refine ⟨syllable, tone, hspelled, ?_, rfl, parseWithOptions_single hplain hlength hspelled⟩
  rw [hchewing]
  obtain ⟨row, -, rfl⟩ := map_eq_some_iff.mp hchewing
  rfl

theorem five_lt : 5 < syllableKeyCount := by
  simp [syllableKeyCount, fullPinyinSyllables_length]
  omega

/-- An index of one spelling. -/
def baIndex : ZhuyinIndex := [⟨['ㄅ', 'ㄚ'], ['ㄅ', 'ㄚ'], ascii "ba", 0⟩]

theorem fromCanonicalText_ba : SyllableKey.fromCanonicalText (ascii "ba") = some ⟨5, five_lt⟩ := by
  have hindex : fullPinyinSyllables.idxOf? (ascii "ba") = some 5 := by rfl
  rw [SyllableKey.fromCanonicalText, hindex]
  exact dif_pos five_lt

theorem searchZhuyinIndex_ba (options : BitVec 32) :
    searchZhuyinIndex baIndex ['ㄅ', 'ㄚ'] options = some (⟨5, five_lt⟩, ['ㄅ', 'ㄚ']) := by
  have hposition : ZhuyinIndex.position baIndex ['ㄅ', 'ㄚ'] = some 0 := by rfl
  unfold searchZhuyinIndex
  rw [hposition]
  simp [baIndex, fromCanonicalText_ba]

theorem mapM_standard : (ascii "18").mapM (lookup standardSymbols) = some [['ㄅ'], ['ㄚ']] := by
  rfl

/-- The keys of `ba` with a tone are one key. -/
theorem zhuyinParse_spec_ba : ∃ zhuyin,
    parseWithOptions (ZhuyinScheme.standard.keyboard ⟨baIndex, [], []⟩) (ascii "183") useTone =
      ⟨[⟨⟨5, five_lt⟩, 0, 3, zhuyin, 3⟩], 3⟩ := by
  have hspelled : spelledKey (ZhuyinScheme.standard.keyboard ⟨baIndex, [], []⟩) useTone (ascii "183") =
      some (⟨5, five_lt⟩, 3) := by
    have hstrip : stripTone standardTones true (ascii "183") = (ascii "18", 3) := by simp [stripTone, toneOf,
      lookup, standardTones, toneRows, ascii]
    have htone : (⟨useTone &&& ~~~pinyinAmbAll⟩ : OptionBits).contains useTone = true := by decide
    have hforce : (⟨useTone &&& ~~~pinyinAmbAll⟩ : OptionBits).contains forceTone = false := by decide
    unfold spelledKey
    dsimp only [ZhuyinScheme.keyboard]
    rw [htone, hforce, bind_some]
    unfold Keyboard.parseOneKey parseOneZhuyinKey
    dsimp only
    rw [hstrip]
    dsimp only
    rw [mapM_standard, if_neg (by simp [ascii]), bind_eq_bind, bind_some]
    rw [show [['ㄅ'], ['ㄚ']].flatten = ['ㄅ', 'ㄚ'] from rfl, searchZhuyinIndex_ba]
    rfl
  have hkey : (parseOneKey (ZhuyinScheme.standard.keyboard ⟨baIndex, [], []⟩) useTone (ascii "183")) =
      (ChewingKey.fromPinyin (SyllableKey.text ⟨5, five_lt⟩)).map (·.withTone 3) := by
    rw [parseOneKey, hspelled]
    rfl
  have hchewing : ChewingKey.fromPinyin (SyllableKey.text ⟨5, five_lt⟩) = some ⟨1, 0, 1, 0⟩ := by rfl
  rw [hchewing] at hkey
  obtain ⟨-, hsingle⟩ := zhuyinParse_spec ⟨baIndex, [], []⟩ .standard (ascii "183") useTone
  obtain ⟨syllable, tone, hfound, -, -, hparse⟩ := hsingle _ _ rfl (by decide)
    (by simp [ascii, Keyboard.maxKeyLen]) hkey
  rw [hspelled] at hfound
  cases hfound
  exact hparse (by rfl)

end Oxpinyin.Zhuyin
