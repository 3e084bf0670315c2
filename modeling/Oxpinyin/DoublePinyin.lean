import Oxpinyin.GraphBuild
import Oxpinyin.ParseTimeKeys
import Oxpinyin.Lib.Munch

/-!
# Double pinyin

A double-pinyin scheme spells a syllable by two keys, one for its initial and one for its final, with an
initial-only key of one and a toned one of three. The batch parser takes the longest slice that spells
a key, again and again. `parseWithOptions_spec` : it stops only where no slice spells one, and the
parser of a single key agrees with it on inputs that are one key.
-/

namespace Oxpinyin

open Option List Cuts SegmentGraph

/-- All ten ambiguity bits. -/
def pinyinAmbAll : BitVec 32 := 0x3ff#32 <<< 10

namespace DoublePinyin

/-! ## Tables -/

/-- Tables are indexed by `a` to `z`, then `;`. -/
def schemeKeyCount : Nat := 27

/-- `MS_SHENG`. -/
def msSheng : List (Option Bytes) :=
  [
    none, some "b", some "c", some "d", none, some "f", some "g", some "h", some "ch", some "j",
    some "k", some "l", some "m", some "n", some "'", some "p", some "q", some "r", some "s", some "t",
    some "sh", some "zh", some "w", some "x", some "y", some "z", none
  ].map (Option.map ascii)

/-- `MS_YUN`. -/
def msYun : List (Option Bytes × Option Bytes) :=
  [
    (some "a", none), (some "ou", none), (some "iao", none), (some "uang", some "iang"),
    (some "e", none), (some "en", none), (some "eng", some "ng"), (some "ang", none), (some "i", none),
    (some "an", none), (some "ao", none), (some "ai", none), (some "ian", none), (some "in", none),
    (some "uo", some "o"), (some "un", none), (some "iu", none), (some "uan", some "er"),
    (some "ong", some "iong"), (some "ue", none), (some "u", none), (some "ui", some "ue"),
    (some "ia", some "ua"), (some "ie", none), (some "uai", some "v"), (some "ei", none),
    (some "ing", none)
  ].map fun row => (row.1.map ascii, row.2.map ascii)

/-- `ZRM_SHENG`. -/
def zrmSheng : List (Option Bytes) :=
  [
    none, some "b", some "c", some "d", none, some "f", some "g", some "h", some "ch", some "j",
    some "k", some "l", some "m", some "n", some "'", some "p", some "q", some "r", some "s", some "t",
    some "sh", some "zh", some "w", some "x", some "y", some "z", none
  ].map (Option.map ascii)

/-- `ZRM_YUN`. -/
def zrmYun : List (Option Bytes × Option Bytes) :=
  [
    (some "a", none), (some "ou", none), (some "iao", none), (some "uang", some "iang"),
    (some "e", none), (some "en", none), (some "eng", some "ng"), (some "ang", none), (some "i", none),
    (some "an", none), (some "ao", none), (some "ai", none), (some "ian", none), (some "in", none),
    (some "uo", some "o"), (some "un", none), (some "iu", none), (some "uan", some "er"),
    (some "ong", some "iong"), (some "ue", none), (some "u", none), (some "ui", some "v"),
    (some "ia", some "ua"), (some "ie", none), (some "uai", some "ing"), (some "ei", none),
    (none, none)
  ].map fun row => (row.1.map ascii, row.2.map ascii)

/-- `ZRM_FALLBACK`. -/
def zrmFallback : List (Bytes × Bytes) :=
  [
    ("aa", "a"), ("ai", "ai"), ("an", "an"), ("ah", "ang"), ("ao", "ao"), ("ee", "e"), ("ei", "ei"),
    ("en", "en"), ("er", "er"), ("oo", "o"), ("ou", "ou")
  ].map fun row => (ascii row.1, ascii row.2)

/-- `ABC_SHENG`. -/
def abcSheng : List (Option Bytes) :=
  [
    some "zh", some "b", some "c", some "d", some "ch", some "f", some "g", some "h", none, some "j",
    some "k", some "l", some "m", some "n", some "'", some "p", some "q", some "r", some "s", some "t",
    none, some "sh", some "w", some "x", some "y", some "z", none
  ].map (Option.map ascii)

/-- `ABC_YUN`. -/
def abcYun : List (Option Bytes × Option Bytes) :=
  [
    (some "a", none), (some "ou", none), (some "in", some "uai"), (some "ia", some "ua"),
    (some "e", none), (some "en", none), (some "eng", some "ng"), (some "ang", none), (some "i", none),
    (some "an", none), (some "ao", none), (some "ai", none), (some "ue", some "ui"), (some "un", none),
    (some "uo", some "o"), (some "uan", none), (some "ei", none), (some "er", some "iu"),
    (some "ong", some "iong"), (some "iang", some "uang"), (some "u", none), (some "v", some "ue"),
    (some "ian", none), (some "ie", none), (some "ing", none), (some "iao", none), (none, none)
  ].map fun row => (row.1.map ascii, row.2.map ascii)

/-- `ZG_SHENG`. -/
def zgSheng : List (Option Bytes) :=
  [
    some "ch", some "b", some "c", some "d", none, some "f", some "g", some "h", some "sh", some "j",
    some "k", some "l", some "m", some "n", some "'", some "p", some "q", some "r", some "s", some "t",
    some "zh", none, some "w", some "x", some "y", some "z", none
  ].map (Option.map ascii)

/-- `ZG_YUN`. -/
def zgYun : List (Option Bytes × Option Bytes) :=
  [
    (some "a", none), (some "iao", none), (none, none), (some "ie", none), (some "e", none),
    (some "ian", none), (some "iang", some "uang"), (some "ong", some "iong"), (some "i", none),
    (some "er", some "iu"), (some "ei", none), (some "uan", none), (some "un", none),
    (some "ue", some "ui"), (some "uo", some "o"), (some "ai", none), (some "ao", none),
    (some "an", none), (some "ang", none), (some "eng", some "ng"), (some "u", none), (some "v", none),
    (some "en", none), (some "ia", some "ua"), (some "in", some "uai"), (some "ou", none),
    (some "ing", none)
  ].map fun row => (row.1.map ascii, row.2.map ascii)

/-- `PYJJ_SHENG`. -/
def pyjjSheng : List (Option Bytes) :=
  [
    some "'", some "b", some "c", some "d", none, some "f", some "g", some "h", some "sh", some "j",
    some "k", some "l", some "m", some "n", some "'", some "p", some "q", some "r", some "s", some "t",
    some "ch", some "zh", some "w", some "x", some "y", some "z", none
  ].map (Option.map ascii)

/-- `PYJJ_YUN`. -/
def pyjjYun : List (Option Bytes × Option Bytes) :=
  [
    (some "a", none), (some "ia", some "ua"), (some "uan", none), (some "ao", none), (some "e", none),
    (some "an", none), (some "ang", none), (some "iang", some "uang"), (some "i", none),
    (some "ian", none), (some "iao", none), (some "in", none), (some "ie", none), (some "iu", none),
    (some "uo", some "o"), (some "ou", none), (some "er", some "ing"), (some "en", none),
    (some "ai", none), (some "eng", some "ng"), (some "u", none), (some "v", some "ui"),
    (some "ei", none), (some "uai", some "ue"), (some "ong", some "iong"), (some "un", none),
    (none, none)
  ].map fun row => (row.1.map ascii, row.2.map ascii)

/-- `PYJJ_FALLBACK`. -/
def pyjjFallback : List (Bytes × Bytes) :=
  [
    ("aa", "a"), ("as", "ai"), ("af", "an"), ("ag", "ang"), ("ad", "ao"), ("ee", "e"), ("ew", "ei"),
    ("er", "en"), ("eq", "er"), ("oo", "o"), ("op", "ou")
  ].map fun row => (ascii row.1, ascii row.2)

/-- `XHE_SHENG`. -/
def xheSheng : List (Option Bytes) :=
  [
    none, some "b", some "c", some "d", none, some "f", some "g", some "h", some "ch", some "j",
    some "k", some "l", some "m", some "n", some "'", some "p", some "q", some "r", some "s", some "t",
    some "sh", some "zh", some "w", some "x", some "y", some "z", none
  ].map (Option.map ascii)

/-- `XHE_YUN`. -/
def xheYun : List (Option Bytes × Option Bytes) :=
  [
    (some "a", none), (some "in", none), (some "ao", none), (some "ai", none), (some "e", none),
    (some "en", none), (some "eng", some "ng"), (some "ang", none), (some "i", none),
    (some "an", none), (some "uai", some "ing"), (some "iang", some "uang"), (some "ian", none),
    (some "iao", none), (some "uo", some "o"), (some "ie", none), (some "iu", none),
    (some "uan", some "er"), (some "ong", some "iong"), (some "ue", none), (some "u", none),
    (some "v", some "ui"), (some "ei", none), (some "ia", some "ua"), (some "un", none),
    (some "ou", none), (none, none)
  ].map fun row => (row.1.map ascii, row.2.map ascii)

/-- `XHE_FALLBACK`. -/
def xheFallback : List (Bytes × Bytes) :=
  [
    ("aa", "a"), ("ai", "ai"), ("an", "an"), ("ah", "ang"), ("ao", "ao"), ("ee", "e"), ("ei", "ei"),
    ("en", "en"), ("er", "er"), ("oo", "o"), ("ou", "ou")
  ].map fun row => (ascii row.1, ascii row.2)

/-- The source tables of a scheme. -/
structure SchemeTables where
  /-- The initial of each key. -/
  shengmu : List (Option Bytes)
  /-- The finals of each key, at most two. -/
  yunmu : List (Option Bytes × Option Bytes)
  /-- The finals that are spelled by two keys of their own. -/
  fallback : Option (List (Bytes × Bytes))

/-- The schemes. -/
inductive DoublePinyinScheme where
  | Zrm
  | Ms
  | Ziguang
  | Abc
  | Pyjj
  | Xhe
  | Customized
  deriving DecidableEq, Repr

/-- The tables of a scheme. A user's keyboard has none. -/
def DoublePinyinScheme.tables : DoublePinyinScheme → Option SchemeTables
  | .Zrm => some ⟨zrmSheng, zrmYun, some zrmFallback⟩
  | .Ms => some ⟨msSheng, msYun, none⟩
  | .Ziguang => some ⟨zgSheng, zgYun, none⟩
  | .Abc => some ⟨abcSheng, abcYun, none⟩
  | .Pyjj => some ⟨pyjjSheng, pyjjYun, some pyjjFallback⟩
  | .Xhe => some ⟨xheSheng, xheYun, some xheFallback⟩
  | .Customized => none

/-! ## One key -/

/-- Whether a byte is a double-pinyin input key. -/
def isKey (byte : UInt8) : Bool := isAsciiLowercase byte || byte == 59

/-- The place of a key in the tables. -/
def keyId (byte : UInt8) : Nat :=
  if byte == 59 then schemeKeyCount - 1 else (byte - 97).toNat

/-- The key of a spelling, with the two corrections that every probe makes : `ue` for `ve` and `v`
for `u`. -/
def lookupPinyin (spelling : Bytes) : Option SyllableKey :=
  match SyllableKey.fromText spelling with
  | some key => some key
  | none =>
    if spelling = ascii "lue" ∨ spelling = ascii "nue" then SyllableKey.fromText (spelling.take 1 ++ ascii "ve")
    else
      spelling.head?.bind fun first =>
        if (ascii "jqxy").contains first && spelling.contains 118 then
          SyllableKey.fromText (spelling.map fun byte => if byte == 118 then 117 else byte)
        else none

/-- The key of a final spelled by two keys of its own. Both are ASCII, so `from_utf8` refuses none. -/
def parseFallback (input : Bytes) (tables : SchemeTables) : Option SyllableKey :=
  tables.fallback.bind fun table => (table.find? fun row => row.1 == input).bind fun row => lookupPinyin row.2

/-- The initial-only key of a byte. -/
def parseIncomplete (byte : UInt8) (allowIncomplete : Bool) (tables : SchemeTables) : Option SyllableKey :=
  if !allowIncomplete || !isKey byte then none
  else
    (tables.shengmu[keyId byte]?).join.bind fun sheng =>
      if sheng = [apostrophe] then none else SyllableKey.fromText sheng

/-- The key of an initial and a final. -/
def parseTwoKeys (first second : UInt8) (tables : SchemeTables) : Option SyllableKey :=
  if !isKey first || !isKey second then none
  else
    match (tables.shengmu[keyId first]?).join with
    | none => parseFallback [first, second] tables
    | some value =>
      let sheng := if value = [apostrophe] then [] else value
      let yun := (tables.yunmu[keyId second]?).getD (none, none)
      match [yun.1, yun.2].findSome? fun candidate => candidate.bind fun yunmu => lookupPinyin (sheng ++ yunmu) with
      | some key => some key
      | none => parseFallback [first, second] tables

/-- `b'1'..=b'5'`. -/
def isTone (byte : UInt8) : Bool := 49 ≤ byte && byte ≤ 53

/-- The key and the tone of a whole slice, under the three bits that a batch reads. -/
def probeOneKey (input : Bytes) (useTone forceTone allowIncomplete : Bool) (tables : SchemeTables) :
    Option (SyllableKey × Nat) :=
  if forceTone && input.length != 3 then none
  else
    match input with
    | [byte] => (parseIncomplete byte allowIncomplete tables).map fun key => (key, 0)
    | [first, second] => (parseTwoKeys first second tables).map fun key => (key, 0)
    | [first, second, digit] =>
      if useTone && isTone digit then
        (parseTwoKeys first second tables).map fun key => (key, digit.toNat - 48)
      else none
    | _ => none

/-! ## The parsers -/

/-- A parser of one scheme. -/
structure DoublePinyinParser where
  /-- The scheme in force. -/
  scheme : DoublePinyinScheme
  /-- Its fallback table is left out. -/
  suppressFallback : Bool
  deriving DecidableEq, Repr

/-- The tables a parser reads. -/
def DoublePinyinParser.tables (parser : DoublePinyinParser) : Option SchemeTables :=
  parser.scheme.tables.map fun tables =>
    if parser.suppressFallback then { tables with fallback := none } else tables

/-- One parsed key. -/
structure DoublePinyinKey where
  /-- The full-pinyin key. -/
  key : SyllableKey
  /-- Where its text begins. -/
  start : Nat
  /-- Where its text ends. -/
  stop : Nat
  /-- The tone of its third byte, or zero. -/
  tone : Nat
  deriving DecidableEq

/-- Result of one greedy parse. -/
structure DoublePinyinParse where
  /-- The keys in input order. -/
  keys : List DoublePinyinKey
  /-- The bytes consumed. -/
  consumed : Nat
  deriving DecidableEq

/-- The probe of the batch parser at a slice. -/
def probeAt (input : Bytes) (options : OptionBits) (tables : SchemeTables) (start length : Nat) :
    Option DoublePinyinKey :=
  (probeOneKey (slice input start length) (options.contains useTone) (options.contains forceTone)
      (options.contains pinyinIncomplete) tables).map fun found => ⟨found.1, start, start + length, found.2⟩

/-- The batch parser. Its window takes in tone digits under every option word. -/
def parseWithOptions (parser : DoublePinyinParser) (input : Bytes) (options : BitVec 32) : DoublePinyinParse :=
  match parser.tables with
  | none => ⟨[], 0⟩
  | some tables =>
    let maximumLen := (input.takeWhile fun byte => isKey byte || isTone byte).length
    let found := greedy (probeAt input ⟨options⟩ tables) 3 maximumLen maximumLen 0
    ⟨found.1, found.2⟩

/-- The parser of one key from the whole of an input. -/
def parseOneKey (parser : DoublePinyinParser) (options : BitVec 32) (input : Bytes) : Option ChewingKey :=
  let bits : OptionBits := ⟨options &&& ~~~(pinyinCorrectAll ||| pinyinAmbAll)⟩
  if bits.contains forceTone && input.length != 3 then none
  else
    parser.tables.bind fun tables =>
      match input with
      | [byte] =>
        (parseIncomplete byte (bits.contains pinyinIncomplete) tables).bind fun syllable =>
          ChewingKey.fromPinyin syllable.text
      | [first, second] =>
        (parseTwoKeys first second tables).bind fun syllable =>
          (ChewingKey.fromPinyin syllable.text).map (·.withTone 0)
      | [first, second, digit] =>
        if bits.contains useTone && isTone digit then
          (parseTwoKeys first second tables).bind fun syllable =>
            (ChewingKey.fromPinyin syllable.text).map (·.withTone (digit.toNat - 48))
        else none
      | _ => none

/-! ## Slices that spell a key -/

section Slices

variable {parser : DoublePinyinParser} {input text : Bytes} {options : OptionBits} {tables : SchemeTables}
  {start length : Nat}

/-- The key that a slice inside the input spells. -/
def keyAt (parser : DoublePinyinParser) (input : Bytes) (options : OptionBits) (start length : Nat) :
    Option DoublePinyinKey :=
  if start + length ≤ input.length then
    parser.tables.bind fun tables => probeAt input options tables start length
  else none

theorem isKey_of_parseIncomplete {byte : UInt8} {allowIncomplete : Bool} {key : SyllableKey}
    (h : parseIncomplete byte allowIncomplete tables = some key) : isKey byte = true := by
  unfold parseIncomplete at h
  split_ifs at h with hbad
  rw [Bool.or_eq_true, not_or] at hbad
  simpa using hbad.2

theorem isKey_of_parseTwoKeys {first second : UInt8} {key : SyllableKey}
    (h : parseTwoKeys first second tables = some key) : isKey first = true ∧ isKey second = true := by
  unfold parseTwoKeys at h
  split_ifs at h with hbad
  rw [Bool.or_eq_true, not_or] at hbad
  simpa using hbad

/-- A slice that spells a key is one of keys with at most a tone digit behind them. -/
theorem window_of_probeOneKey {hasTone forced allowIncomplete : Bool} {found : SyllableKey × Nat}
    (h : probeOneKey text hasTone forced allowIncomplete tables = some found) :
    0 < text.length ∧ text.length ≤ 3 ∧ text.all (fun byte => isKey byte || isTone byte) = true := by
  unfold probeOneKey at h
  by_cases hforce : (forced && text.length != 3) = true
  · rw [if_pos hforce] at h
    cases h
  rw [if_neg hforce] at h
  split at h
  · obtain ⟨key, hkey, _⟩ := map_eq_some_iff.mp h
    simp [isKey_of_parseIncomplete hkey]
  · obtain ⟨key, hkey, _⟩ := map_eq_some_iff.mp h
    obtain ⟨hfirst, hsecond⟩ := isKey_of_parseTwoKeys hkey
    simp [hfirst, hsecond]
  · split_ifs at h with htone
    obtain ⟨key, hkey, _⟩ := map_eq_some_iff.mp h
    obtain ⟨hfirst, hsecond⟩ := isKey_of_parseTwoKeys hkey
    rw [Bool.and_eq_true] at htone
    simp [hfirst, hsecond, htone.2]
  · cases h

variable {key : DoublePinyinKey}

theorem keyAt_eq_some (h : keyAt parser input options start length = some key) :
    start + length ≤ input.length ∧ ∃ tables, parser.tables = some tables ∧
      probeAt input options tables start length = some key := by
  unfold keyAt at h
  split_ifs at h with hin
  exact ⟨hin, bind_eq_some_iff.mp h⟩

theorem keyAt_nonempty (h : keyAt parser input options start length = some key) : 0 < length := by
  obtain ⟨_, tables, _, hprobe⟩ := keyAt_eq_some h
  obtain ⟨found, hfound, _⟩ := map_eq_some_iff.mp hprobe
  have hpos := (window_of_probeOneKey hfound).1
  rw [slice, length_take] at hpos
  omega

/-- A slice that spells a key is inside the window that begins before it. -/
theorem keyAt_window (hstart : start ≤ (input.takeWhile fun byte => isKey byte || isTone byte).length)
    (h : keyAt parser input options start length = some key) :
    length ≤ 3 ∧ start + length ≤ (input.takeWhile fun byte => isKey byte || isTone byte).length := by
  obtain ⟨hin, tables, _, hprobe⟩ := keyAt_eq_some h
  obtain ⟨found, hfound, _⟩ := map_eq_some_iff.mp hprobe
  obtain ⟨_, hshort, hall⟩ := window_of_probeOneKey hfound
  have hlength : (slice input start length).length = length := by
    rw [slice, length_take, length_drop]
    omega
  rw [hlength] at hshort
  refine ⟨hshort, ?_⟩
  by_contra hout
  -- the byte that ends the window would be inside the slice
  have hwindow : runEnd (fun byte => isKey byte || isTone byte) input 0 =
      (input.takeWhile fun byte => isKey byte || isTone byte).length := by
    rw [runEnd, drop_zero, Nat.zero_add]
  have hend := @byteIs_runEnd (fun byte => isKey byte || isTone byte) input 0
  rw [hwindow] at hend
  set window := (input.takeWhile fun byte => isKey byte || isTone byte).length
  have hget := getElem?_eq_getElem (show window < input.length by omega)
  have hslice : (slice input start length)[window - start]? = some input[window] := by
    rw [getElem?_slice (by omega), Nat.add_sub_cancel' hstart, hget]
  have hbyte := all_eq_true.mp hall _ (mem_of_getElem? hslice)
  rw [byteIs, hget, any_some, hbyte] at hend
  cases hend

/-- A batch follows the longest keys. -/
theorem munch_parseWithOptions (parser : DoublePinyinParser) (input : Bytes) (options : BitVec 32) :
    Munch (keyAt parser input ⟨options⟩) 0 (parseWithOptions parser input options).consumed
      (parseWithOptions parser input options).keys := by
  unfold parseWithOptions
  cases htables : parser.tables with
  | none =>
    refine .stop 0 fun l _ => ?_
    rw [keyAt, htables]
    exact ite_self _
  | some tables =>
    dsimp only
    refine munch_greedy (fun c l key hc _ hkey => keyAt_window hc hkey) (fun c l hle => ?_) (Nat.zero_le _)
      (Nat.le_refl _)
    have hwindow : (input.takeWhile fun byte => isKey byte || isTone byte).length ≤ input.length :=
      (takeWhile_sublist _).length_le
    rw [keyAt, if_pos (Nat.le_trans hle hwindow), htables]
    rfl

end Slices

/-! ## The parser of one key -/

/-- A mask leaves the bits that are in it. -/
theorem contains_masked {mask : BitVec 32} (options : BitVec 32) {bit : BitVec 32} (hbit : mask &&& bit = bit) :
    (⟨options &&& mask⟩ : OptionBits).contains bit = (⟨options⟩ : OptionBits).contains bit := by
  unfold OptionBits.contains
  dsimp only
  rw [BitVec.and_assoc, hbit]

/-- The parser of one key is the probe of the whole input. -/
theorem parseOneKey_eq (parser : DoublePinyinParser) (options : BitVec 32) (input : Bytes) :
    parseOneKey parser options input = (keyAt parser input ⟨options⟩ 0 input.length).map fun found =>
      found.key.chewingKey.withTone found.tone := by
  have hwhole : slice input 0 input.length = input := by
    rw [slice, drop_zero, take_length]
  unfold parseOneKey keyAt probeAt probeOneKey
  dsimp only
  rw [contains_masked options (by decide), contains_masked options (by decide), contains_masked options (by decide),
    hwhole, Nat.zero_add, if_pos (Nat.le_refl _)]
  cases parser.tables with
  | none => simp
  | some tables =>
    by_cases hforce : ((⟨options⟩ : OptionBits).contains forceTone && input.length != 3) = true
    · rw [if_pos hforce]
      simp [hforce]
    · rw [if_neg hforce]
      simp only [bind_some, if_neg hforce]
      split
      · next byte =>
        cases parseIncomplete byte ((⟨options⟩ : OptionBits).contains pinyinIncomplete) tables with
        | none => rfl
        | some key =>
          rw [bind_some, key.fromPinyin_text]
          exact congrArg some (SyllableKey.chewingKey_withTone_zero key).symm
      · next first second =>
        cases parseTwoKeys first second tables with
        | none => rfl
        | some key =>
          rw [bind_some, key.fromPinyin_text]
          rfl
      · next first second digit =>
        split_ifs
        · cases parseTwoKeys first second tables with
          | none => rfl
          | some key =>
            rw [bind_some, key.fromPinyin_text]
            rfl
        · rfl
      · rfl

/-- A batch follows the longest keys that slices of the input spell, and is one key of the whole input
exactly when the parser of one key accepts it, with that key. -/
theorem parseWithOptions_spec (parser : DoublePinyinParser) (input : Bytes) (options : BitVec 32) :
    Munch (keyAt parser input ⟨options⟩) 0 (parseWithOptions parser input options).consumed
        (parseWithOptions parser input options).keys ∧
      ∀ key, parseOneKey parser options input = some key ↔
        ∃ found, parseWithOptions parser input options = ⟨[found], input.length⟩ ∧
          key = found.key.chewingKey.withTone found.tone := by
  have hmunch := munch_parseWithOptions parser input options
  refine ⟨hmunch, fun key => ?_⟩
  have houtside : ∀ start length, input.length < start + length → keyAt parser input ⟨options⟩ start length = none :=
    fun start length hout => if_neg (Nat.not_le.mpr hout)
  rw [parseOneKey_eq, Option.map_eq_some_iff]
  constructor
  · rintro ⟨found, hfound, rfl⟩
    have hpos := keyAt_nonempty hfound
    have hwhole : Munch (keyAt parser input ⟨options⟩) 0 (0 + input.length) [found] :=
      .take hpos hfound (fun l hlt => houtside 0 l (by omega)) (.stop _ fun l hl => houtside _ l (by omega))
    obtain ⟨hconsumed, hkeys⟩ := hmunch.unique hwhole
    refine ⟨found, ?_, rfl⟩
    rw [Nat.zero_add] at hconsumed
    rw [← hkeys, ← hconsumed]
  · rintro ⟨found, hparse, rfl⟩
    rw [hparse] at hmunch
    dsimp only at hmunch
    generalize input.length = total at hmunch ⊢
    cases hmunch with
    | @take c l t b bs hpos hlabel hlonger hrest =>
      cases hrest with
      | stop => exact ⟨found, by simpa using hlabel, rfl⟩

end DoublePinyin

end Oxpinyin
