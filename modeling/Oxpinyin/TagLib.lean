import Oxpinyin.ToolText
import Mathlib.Data.List.TakeWhile
import Mathlib.Logic.Function.Basic

/-!
# Tagged lines

The text models of the training tools are lines of tokens. A reader takes the lines off a text,
`splitLine` cuts a line into runs of graph characters and quoted texts, and a stack of tag
registrations says how many values and which tags a line of each kind has. The character classes
are the library's : a parameter, with what its documentation says of it.
-/

namespace Oxpinyin.Tool

open List Except UInt8
open String hiding append_assoc length_append

/-! ## Reading lines -/

/-- An input stream and the line last read. -/
structure LineReader where
  rest : Bytes
  eof : Bool
  fail : Bool
  line : Bytes

namespace LineReader

/-- A stream over a text. -/
def fromBytes (text : Bytes) : LineReader := ⟨text, false, false, []⟩

/-- Reads the next line. A last line without a newline is still read. -/
def getline (reader : LineReader) : Bool × LineReader :=
  if reader.eof || reader.fail then (false, { reader with fail := true })
  else if reader.rest = [] then (false, ⟨[], true, true, []⟩)
  else
    let line := reader.rest.takeWhile (· != 10)
    match reader.rest.drop line.length with
    | _ :: rest => (true, { reader with rest := rest, line := line })
    | [] => (true, ⟨[], true, false, line⟩)

/-- The line as C reads it. -/
def cStr (reader : LineReader) : Bytes := reader.line.takeWhile (· != 0)

end LineReader

open LineReader

/-! ## Characters -/

/-- The one bits at the top of a byte. -/
def leadingOnes (c : UInt8) : Nat :=
  ((List.range 8).takeWhile fun i => c.toNat.testBit (7 - i)).length

/-- The step over the sequence a byte leads. -/
def utf8NextCharStep (c : UInt8) : Nat :=
  match leadingOnes c with
  | 2 => 2
  | 3 => 3
  | 4 => 4
  | _ => 1

/-- The library's characters : what a string starts with, and two classes. -/
structure Glib where
  getChar : Bytes → Nat
  isSpace : Nat → Bool
  isGraph : Nat → Bool

/-- What the documentation says. -/
structure Glib.Documented (glib : Glib) : Prop where
  getChar_encode : ∀ (c : Char) (rest : Bytes), glib.getChar (String.utf8EncodeChar c ++ rest) = c.toNat
  isSpace_blank : glib.isSpace 32 = true
  isSpace_ascii : ∀ n, 33 ≤ n → n ≤ 126 → glib.isSpace n = false
  isGraph_ascii : ∀ n, 33 ≤ n → n ≤ 126 → glib.isGraph n = true
  isGraph_control : ∀ n, n ≤ 32 → glib.isGraph n = false

/-! ## Splitting a line -/

/-- Where the reading of a line is undefined. -/
inductive Undefined where
  | noToken
  | unterminatedEscape
  | pastLineEnd
  deriving DecidableEq

/-- The string behind its first character. -/
def nextChar (rest : Bytes) : Bytes :=
  rest.drop (utf8NextCharStep (rest.headD 0))

theorem utf8NextCharStep_pos (c : UInt8) : 0 < utf8NextCharStep c := by
  unfold utf8NextCharStep
  split <;> decide

theorem length_nextChar (c : UInt8) (rest : Bytes) : (nextChar (c :: rest)).length < (c :: rest).length := by
  have hpos := utf8NextCharStep_pos c
  unfold nextChar
  rw [headD_cons, length_drop, length_cons]
  omega

theorem length_nextChar_le (rest : Bytes) : (nextChar rest).length ≤ rest.length :=
  length_drop ▸ Nat.sub_le _ _

section Split

variable (glib : Glib)

/-- The string from the first character on that is not graph. -/
def graphEnd : Bytes → Except Undefined Bytes
  | [] => .error .pastLineEnd
  | c :: rest =>
    if c = 0 then .ok (c :: rest)
    else if glib.isGraph (glib.getChar (c :: rest)) then graphEnd (nextChar (c :: rest))
    else .ok (c :: rest)
termination_by string => string.length
decreasing_by exact length_nextChar _ _

/-- The string from the closing quote or the end on. An escape takes the next character along,
and there is no answer where none is left. -/
def quoteEnd : Bytes → Except Undefined (Option Bytes)
  | [] => .error .pastLineEnd
  | c :: rest =>
    if c = 0 then .ok (some (c :: rest))
    else if glib.getChar (c :: rest) = 92 then
      if nextChar (c :: rest) = [] then .error .pastLineEnd
      else if (nextChar (c :: rest)).headD 0 = 0 then .ok none
      else quoteEnd (nextChar (nextChar (c :: rest)))
    else if glib.getChar (c :: rest) = 34 then .ok (some (c :: rest))
    else quoteEnd (nextChar (c :: rest))
termination_by string => string.length
decreasing_by
  · exact Nat.lt_of_le_of_lt (length_nextChar_le _) (length_nextChar _ _)
  · exact length_nextChar _ _

theorem length_graphEnd : ∀ {string stop : Bytes}, graphEnd glib string = .ok stop → stop.length ≤ string.length
  | [], stop, h => by
    unfold graphEnd at h
    cases h
  | c :: rest, stop, h => by
    have hlt := length_nextChar c rest
    unfold graphEnd at h
    split_ifs at h
    · rw [← ok.inj h]
    · exact Nat.le_trans (length_graphEnd h) (Nat.le_of_lt hlt)
    · rw [← ok.inj h]
termination_by string => string.length
decreasing_by exact hlt

theorem length_quoteEnd : ∀ {string stop : Bytes}, quoteEnd glib string = .ok (some stop) →
    stop.length ≤ string.length
  | [], stop, h => by
    unfold quoteEnd at h
    cases h
  | c :: rest, stop, h => by
    have hlt := length_nextChar c rest
    unfold quoteEnd at h
    split_ifs at h
    · rw [← Option.some.inj (ok.inj h)]
    · cases h
    · exact Nat.le_trans (length_quoteEnd h) (Nat.le_trans (length_nextChar_le _) (Nat.le_of_lt hlt))
    · rw [← Option.some.inj (ok.inj h)]
    · exact Nat.le_trans (length_quoteEnd h) (Nat.le_of_lt hlt)
termination_by string => string.length
decreasing_by
  · exact Nat.lt_of_le_of_lt (length_nextChar_le _) hlt
  · exact hlt

/-- The bytes before an end of the string. -/
def tokenBefore (start stop : Bytes) : Bytes := start.take (start.length - stop.length)

/-- The run or the quoted text a string starts with, and the string where it ends. -/
def readToken (string : Bytes) : Except Undefined (Option (Bytes × Bytes)) :=
  if glib.getChar string = 34 then
    (quoteEnd glib (nextChar string)).map fun stop =>
      stop.map fun stop => (tokenBefore (nextChar string) stop, stop)
  else (graphEnd glib string).map fun stop => some (tokenBefore string stop, stop)

theorem length_readToken {c : UInt8} {rest token stop : Bytes}
    (h : readToken glib (c :: rest) = .ok (some (token, stop))) : stop.length ≤ (c :: rest).length := by
  have hlt := length_nextChar c rest
  unfold readToken at h
  split_ifs at h
  · cases hquote : quoteEnd glib (nextChar (c :: rest)) with
    | error e => simp [hquote, Except.map] at h
    | ok found =>
      cases found with
      | none => simp [hquote, Except.map] at h
      | some end_ =>
        simp only [hquote, Except.map, Option.map_some, Except.ok.injEq, Option.some.injEq, Prod.mk.injEq] at h
        rw [← h.2]
        exact Nat.le_trans (length_quoteEnd glib hquote) (Nat.le_of_lt hlt)
  · cases hgraph : graphEnd glib (c :: rest) with
    | error e => simp [hgraph, Except.map] at h
    | ok end_ =>
      simp only [hgraph, Except.map, Except.ok.injEq, Option.some.injEq, Prod.mk.injEq] at h
      rw [← h.2]
      exact length_graphEnd glib hgraph

/-- The tokens of a string that ends with its NUL. -/
def splitFrom : Bytes → Except Undefined (Option (List Bytes))
  | [] => .error .pastLineEnd
  | c :: rest =>
    if c = 0 then .ok (some [])
    else if glib.isSpace (glib.getChar (c :: rest)) then splitFrom (nextChar (c :: rest))
    else
      match _h : readToken glib (c :: rest) with
      | .error e => .error e
      | .ok none => .ok none
      | .ok (some (_, [])) => .error .pastLineEnd
      | .ok (some (token, d :: after)) =>
        if d = 0 then .ok (some [token])
        else (splitFrom (nextChar (d :: after))).map fun tokens => tokens.map (token :: ·)
termination_by string => string.length
decreasing_by
  · exact length_nextChar _ _
  · exact Nat.lt_of_lt_of_le (length_nextChar _ _) (length_readToken glib ‹_›)

/-- The tokens of a line. -/
def splitLine (line : Bytes) : Except Undefined (Option (List Bytes)) := splitFrom glib (line ++ [0])

variable {glib} {c : UInt8} {rest : Bytes}

/-- A token and what stops it. -/
theorem splitFrom_token {token after : Bytes} {d : UInt8} (hne : c ≠ 0)
    (hspace : glib.isSpace (glib.getChar (c :: rest)) = false)
    (hread : readToken glib (c :: rest) = .ok (some (token, d :: after))) :
    splitFrom glib (c :: rest) =
      if d = 0 then .ok (some [token])
      else (splitFrom glib (nextChar (d :: after))).map fun tokens => tokens.map (token :: ·) := by
  rw [splitFrom, if_neg hne, hspace, if_neg Bool.false_ne_true]
  split
  · rename_i e he
    rw [hread] at he
    cases he
  · rename_i he
    rw [hread] at he
    cases he
  · rename_i token he
    rw [hread] at he
    cases he
  · rename_i token d after he
    rw [hread] at he
    cases he
    rfl

/-- A quoted text that an escape ends. -/
theorem splitFrom_none (hne : c ≠ 0) (hspace : glib.isSpace (glib.getChar (c :: rest)) = false)
    (hread : readToken glib (c :: rest) = .ok none) : splitFrom glib (c :: rest) = .ok none := by
  rw [splitFrom, if_neg hne, hspace, if_neg Bool.false_ne_true]
  split
  · rename_i e he
    rw [hread] at he
    cases he
  · rfl
  · rename_i token he
    rw [hread] at he
    cases he
  · rename_i token d after he
    rw [hread] at he
    cases he

end Split

/-! ## Tags -/

/-- One registration. -/
structure TagEntry where
  lineType : Int
  lineTag : Bytes
  numOfValues : Nat
  requiredTags : List Bytes
  ignoredTags : List Bytes
  deriving DecidableEq

/-- A stack of states, each a list of registrations. The top is first. -/
structure TagLib where
  stack : List (List TagEntry)
  deriving DecidableEq

/-- What a read leaves : the kind of the line, its values and its tags. -/
structure TagLine where
  lineType : Int
  values : List Bytes
  required : Bytes → Option Bytes

namespace TagLib

def init : TagLib := ⟨[[]]⟩

def top (lib : TagLib) : List TagEntry := lib.stack.headD []

/-- Registers a kind of line, if neither its type nor its tag is registered. -/
def addTag (lib : TagLib) (lineType : Int) (lineTag : Bytes) (numOfValues : Nat)
    (requiredTags ignoredTags : Bytes) : TagLib :=
  if lib.top.any fun entry => entry.lineType == lineType || entry.lineTag == lineTag then lib
  else
    let entry : TagEntry := ⟨lineType, lineTag, numOfValues, strsplitSet requiredTags (ascii ",:") (-1),
      strsplitSet ignoredTags (ascii ",:") (-1)⟩
    match lib.stack with
    | [] => lib
    | state :: states => ⟨(state ++ [entry]) :: states⟩

def pushState (lib : TagLib) : TagLib := ⟨lib.top :: lib.stack⟩

def popState (lib : TagLib) : TagLib :=
  if 1 < lib.stack.length then ⟨lib.stack.tail⟩ else lib

/-- Reads the tags behind the values. An ignored or unexpected tag takes the token behind it along. -/
def readTags (entry : TagEntry) : List Bytes → (Bytes → Option Bytes) → Bool × (Bytes → Option Bytes)
  | [], required => (true, required)
  | [tag], required =>
    (entry.ignoredTags.contains tag || !entry.requiredTags.contains tag, required)
  | tag :: value :: rest, required =>
    if entry.ignoredTags.contains tag || !entry.requiredTags.contains tag then readTags entry rest required
    else readTags entry rest (Function.update required tag (some value))

/-- Reads a line. The kind of the line before stays where no tag matches. -/
def read (lib : TagLib) (glib : Glib) (inputLine : Bytes) (lineType : Int) : Except Undefined (Bool × TagLine) :=
  match splitLine glib inputLine with
  | .error e => .error e
  | .ok none => .error .unterminatedEscape
  | .ok (some []) =>
    if lib.top = [] then .ok (false, ⟨lineType, [], fun _ => none⟩) else .error .noToken
  | .ok (some (lineTag :: tokens)) =>
    match lib.top.find? fun entry => entry.lineTag == lineTag with
    | none => .ok (false, ⟨lineType, [], fun _ => none⟩)
    | some entry =>
      let values := tokens.take entry.numOfValues
      if tokens.length < entry.numOfValues then .ok (false, ⟨entry.lineType, values, fun _ => none⟩)
      else
        let tags := readTags entry (tokens.drop entry.numOfValues) fun _ => none
        .ok (tags.1 && entry.requiredTags.all fun tag => (tags.2 tag).isSome,
          ⟨entry.lineType, values, tags.2⟩)

end TagLib

/-! ## Numbers as they are printed -/

/-- The decimal digits of a number. -/
def decimalNat (n : Nat) : Bytes :=
  if n < 10 then [UInt8.ofNat (48 + n)] else decimalNat (n / 10) ++ [UInt8.ofNat (48 + n % 10)]

/-- A number as it is printed. -/
def decimal : Int → Bytes
  | .ofNat n => decimalNat n
  | .negSucc n => 45 :: decimalNat (n + 1)

theorem digitsValue_concat (digits : Bytes) (c : UInt8) :
    digitsValue (digits ++ [c]) = 10 * digitsValue digits + (c.toNat - 48) := by
  unfold digitsValue
  rw [foldl_append]
  rfl

theorem digit_facts : ∀ d < 10, (UInt8.ofNat (48 + d)).toNat - 48 = d ∧ isDigit (UInt8.ofNat (48 + d)) = true ∧
    isSpace (UInt8.ofNat (48 + d)) = false ∧ UInt8.ofNat (48 + d) ≠ 45 ∧ UInt8.ofNat (48 + d) ≠ 43 ∧
    33 ≤ UInt8.ofNat (48 + d) ∧ UInt8.ofNat (48 + d) ≤ 126 ∧ UInt8.ofNat (48 + d) ≠ 34 := by
  decide

/-- Digits, and their value. -/
theorem decimalNat_spec (n : Nat) : digitsValue (decimalNat n) = n ∧ decimalNat n ≠ [] ∧
    ∀ c ∈ decimalNat n, ∃ d < 10, c = UInt8.ofNat (48 + d) := by
  induction n using Nat.strongRecOn with
  | ind n ih =>
    unfold decimalNat
    split_ifs with h
    · refine ⟨?_, cons_ne_nil _ _, fun c hc => ⟨n, h, mem_singleton.mp hc⟩⟩
      have := (digit_facts n h).1
      unfold digitsValue
      rw [foldl_cons, foldl_nil, this]
      omega
    · obtain ⟨hvalue, _, hdigits⟩ := ih (n / 10) (by omega)
      refine ⟨?_, by simp, fun c hc => ?_⟩
      · rw [digitsValue_concat, hvalue, (digit_facts (n % 10) (by omega)).1]
        omega
      · rcases mem_append.mp hc with hc | hc
        · exact hdigits c hc
        · exact ⟨n % 10, by omega, mem_singleton.mp hc⟩

theorem leadingValue_decimalNat (n : Nat) : leadingValue (decimalNat n) = n := by
  obtain ⟨hvalue, _, hdigits⟩ := decimalNat_spec n
  unfold leadingValue
  have hall : ∀ c ∈ decimalNat n, isDigit c = true := by
    intro c hc
    obtain ⟨d, hd, rfl⟩ := hdigits c hc
    exact (digit_facts d hd).2.1
  rw [takeWhile_eq_self_iff.mpr hall, hvalue]

/-- A printed number is read back. -/
theorem leadingNumber_decimal (n : Int) : leadingNumber (decimal n) = n := by
  cases n with
  | ofNat n =>
    obtain ⟨_, hne, hdigits⟩ := decimalNat_spec n
    have hvalue := leadingValue_decimalNat n
    change leadingNumber (decimalNat n) = _
    cases hcase : decimalNat n with
    | nil => exact absurd hcase hne
    | cons c rest =>
      obtain ⟨d, hd, rfl⟩ := hdigits c (hcase ▸ mem_cons_self)
      obtain ⟨_, _, hspace, hminus, hplus, _⟩ := digit_facts d hd
      rw [hcase] at hvalue
      unfold leadingNumber
      rw [dropWhile_cons, hspace]
      simp only [Bool.false_eq_true, ↓reduceIte]
      split
      · exact absurd (List.cons.inj ‹_›).1 hminus
      · exact absurd (List.cons.inj ‹_›).1 hplus
      · rw [hvalue]
        rfl
  | negSucc n =>
    change -(leadingValue (decimalNat (n + 1)) : Int) = _
    rw [leadingValue_decimalNat]
    rfl

theorem strtol_decimal (value : BitVec 32) : strtol (decimal value.toInt) = value.toInt := by
  have hlow := value.le_toInt
  have hhigh := value.toInt_lt
  unfold strtol
  rw [leadingNumber_decimal]
  omega

/-- A 32-bit field survives being printed as a signed number and read back. -/
theorem atoi_decimal (value : BitVec 32) : atoi (decimal value.toInt) = value := by
  unfold atoi
  rw [strtol_decimal, BitVec.ofInt_toInt]

theorem atol_decimal (value : BitVec 32) : (atol (decimal value.toInt)).setWidth 32 = value := by
  have hlt := value.isLt
  unfold atol
  rw [strtol_decimal]
  refine BitVec.eq_of_toNat_eq ?_
  rw [BitVec.toNat_setWidth, BitVec.toNat_ofInt, BitVec.toInt_eq_toNat_cond]
  split_ifs <;> omega

/-! ## Lines of words -/

section Words

variable {glib : Glib}

/-- Characters in their encoding. -/
def encodeChars (chars : List Char) : Bytes := chars.flatMap String.utf8EncodeChar

/-- A run of graph characters that does not start with a quote, nor with one that is a space as well. -/
def Word (glib : Glib) (word : Bytes) : Prop :=
  ∃ (c : Char) (chars : List Char), word = encodeChars (c :: chars) ∧ c.toNat ≠ 34 ∧
    glib.isSpace c.toNat = false ∧ ∀ d ∈ c :: chars, glib.isGraph d.toNat = true

/-- The step of a first byte is the length of its sequence. -/
theorem utf8EncodeChar_cons (c : Char) : ∃ first rest, utf8EncodeChar c = first :: rest ∧
    utf8NextCharStep first = rest.length + 1 ∧ (c.toNat ≠ 0 → first ≠ 0) := by
  have hone : ∀ n ≤ 127, utf8NextCharStep (UInt8.ofNat n) = 1 ∧ (n ≠ 0 → UInt8.ofNat n ≠ 0) := by decide
  have htwo : ∀ n < 32, utf8NextCharStep (UInt8.ofNat (n + 192)) = 2 ∧ UInt8.ofNat (n + 192) ≠ 0 := by decide
  have hthree : ∀ n < 16, utf8NextCharStep (UInt8.ofNat (n + 224)) = 3 ∧ UInt8.ofNat (n + 224) ≠ 0 := by decide
  have hfour : ∀ n < 8, utf8NextCharStep (UInt8.ofNat (n + 240)) = 4 ∧ UInt8.ofNat (n + 240) ≠ 0 := by decide
  unfold utf8EncodeChar
  dsimp only
  split_ifs with h1 h2 h3
  · exact ⟨_, _, rfl, (hone _ h1).1, (hone _ h1).2⟩
  · have := htwo _ (Nat.mod_lt (c.val.toNat / 64) (show 0 < 32 by decide))
    exact ⟨_, _, rfl, this.1, fun _ => this.2⟩
  · have := hthree _ (Nat.mod_lt (c.val.toNat / 4096) (show 0 < 16 by decide))
    exact ⟨_, _, rfl, this.1, fun _ => this.2⟩
  · have := hfour _ (Nat.mod_lt (c.val.toNat / 262144) (show 0 < 8 by decide))
    exact ⟨_, _, rfl, this.1, fun _ => this.2⟩

theorem nextChar_encode (c : Char) (rest : Bytes) : nextChar (utf8EncodeChar c ++ rest) = rest := by
  obtain ⟨first, tail, hencode, hstep, _⟩ := utf8EncodeChar_cons c
  unfold nextChar
  rw [hencode, cons_append, headD_cons, hstep, drop_succ_cons, drop_left]

section

variable (h : glib.Documented)
include h

theorem getChar_ascii {b : UInt8} (hb : b ≤ 127) (rest : Bytes) :
    glib.getChar (b :: rest) = b.toNat := by
  have hchar : ∀ n ≤ 127, utf8EncodeChar (Char.ofNat n) = [UInt8.ofNat n] ∧ (Char.ofNat n).toNat = n := by
    decide
  obtain ⟨hencode, hnat⟩ := hchar b.toNat (UInt8.le_iff_toNat_le.mp hb)
  have := h.getChar_encode (Char.ofNat b.toNat) rest
  rw [hencode, hnat, UInt8.ofNat_toNat] at this
  exact this

theorem isGraph_ne_zero {n : Nat} (hgraph : glib.isGraph n = true) : n ≠ 0 := by
  rintro rfl
  rw [h.isGraph_control 0 (by decide)] at hgraph
  cases hgraph

/-- A scan passes a graph character. -/
theorem graphEnd_encode {c : Char} (hgraph : glib.isGraph c.toNat = true) (rest : Bytes) :
    graphEnd glib (utf8EncodeChar c ++ rest) = graphEnd glib rest := by
  obtain ⟨first, tail, hencode, _, hne⟩ := utf8EncodeChar_cons c
  have hget := h.getChar_encode c rest
  have hnext := nextChar_encode c rest
  rw [hencode, cons_append] at hget hnext ⊢
  rw [graphEnd, if_neg (hne (isGraph_ne_zero h hgraph)), hget, if_pos hgraph, hnext]

theorem graphEnd_encodeChars {chars : List Char}
    (hgraph : ∀ c ∈ chars, glib.isGraph c.toNat = true) (rest : Bytes) :
    graphEnd glib (encodeChars chars ++ rest) = graphEnd glib rest := by
  induction chars with
  | nil => rfl
  | cons c chars ih =>
    unfold encodeChars
    rw [flatMap_cons, append_assoc, graphEnd_encode h (hgraph c mem_cons_self)]
    exact ih fun d hd => hgraph d (mem_cons_of_mem _ hd)

end

/-- What a word may stop at : a blank, or the end of the line. -/
def Stops (stop : Bytes) : Prop := (∃ rest, stop = 32 :: rest) ∨ stop = [0]

theorem graphEnd_stops (h : glib.Documented) {stop : Bytes} (hstop : Stops stop) : graphEnd glib stop = .ok stop := by
  rcases hstop with ⟨rest, rfl⟩ | rfl
  · rw [graphEnd, if_neg (by decide), getChar_ascii h (by decide)]
    rw [show (32 : UInt8).toNat = 32 from rfl, h.isGraph_control 32 le_rfl, if_neg Bool.false_ne_true]
  · rw [graphEnd, if_pos rfl]

theorem tokenBefore_append (token stop : Bytes) : tokenBefore (token ++ stop) stop = token := by
  unfold tokenBefore
  rw [length_append, Nat.add_sub_cancel, take_left]

variable {word : Bytes}

/-- A word is read up to where it stops. -/
theorem readToken_word (h : glib.Documented) {stop : Bytes} (hword : Word glib word) (hstop : Stops stop) :
    readToken glib (word ++ stop) = .ok (some (word, stop)) ∧
      ∃ first rest, word = first :: rest ∧ first ≠ 0 ∧ glib.isSpace (glib.getChar (word ++ stop)) = false := by
  obtain ⟨c, chars, hchars, hquote, hspace, hgraph⟩ := hword
  have hsplit : word ++ stop = utf8EncodeChar c ++ (encodeChars chars ++ stop) := by
    rw [hchars, encodeChars, flatMap_cons, append_assoc]
    rfl
  have hget : glib.getChar (word ++ stop) = c.toNat := by
    rw [hsplit, h.getChar_encode]
  have hc := hgraph c mem_cons_self
  constructor
  · unfold readToken
    rw [hget, if_neg hquote, hchars, graphEnd_encodeChars h hgraph, graphEnd_stops h hstop]
    change ok (some (tokenBefore _ _, _)) = _
    rw [tokenBefore_append]
  · obtain ⟨first, tail, hencode, _, hne⟩ := utf8EncodeChar_cons c
    refine ⟨first, tail ++ encodeChars chars, ?_, hne (isGraph_ne_zero h hc), ?_⟩
    · rw [hchars, encodeChars, flatMap_cons, hencode]
      rfl
    · rw [hget]
      exact hspace

theorem nextChar_ascii {b : UInt8} (hb : b ≤ 127) (rest : Bytes) : nextChar (b :: rest) = rest := by
  have hone : ∀ n ≤ 127, utf8NextCharStep (UInt8.ofNat n) = 1 := by decide
  have hstep := hone b.toNat (UInt8.le_iff_toNat_le.mp hb)
  rw [UInt8.ofNat_toNat] at hstep
  unfold nextChar
  rw [headD_cons, hstep, drop_succ_cons, drop_zero]

/-- A word and the blank behind it. -/
theorem splitFrom_word (h : glib.Documented) (hword : Word glib word) (rest : Bytes) :
    splitFrom glib (word ++ 32 :: rest) =
      (splitFrom glib rest).map fun tokens => tokens.map (word :: ·) := by
  obtain ⟨hread, first, tail, hcons, hne, hspace⟩ := readToken_word h hword (Or.inl ⟨rest, rfl⟩)
  rw [hcons, cons_append] at hread hspace ⊢
  rw [splitFrom_token hne hspace hread, if_neg (by decide), nextChar_ascii (by decide)]

/-- The last word of a line. -/
theorem splitFrom_last (h : glib.Documented) (hword : Word glib word) :
    splitFrom glib (word ++ [0]) = .ok (some [word]) := by
  obtain ⟨hread, first, tail, hcons, hne, hspace⟩ := readToken_word h hword (Or.inr rfl)
  rw [hcons, cons_append] at hread hspace ⊢
  rw [splitFrom_token hne hspace hread, if_pos rfl]

/-- Words with blanks between them. -/
def joinWords : List Bytes → Bytes
  | [] => []
  | [word] => word
  | word :: rest => word ++ 32 :: joinWords rest

theorem splitFrom_joinWords (h : glib.Documented) : ∀ {words : List Bytes}, words ≠ [] →
    (∀ word ∈ words, Word glib word) → splitFrom glib (joinWords words ++ [0]) = .ok (some words)
  | [], hne, _ => absurd rfl hne
  | [word], _, hwords => splitFrom_last h (hwords word mem_cons_self)
  | word :: second :: rest, _, hwords => by
    rw [joinWords, append_assoc, cons_append, splitFrom_word h (hwords word mem_cons_self),
      splitFrom_joinWords h (cons_ne_nil second rest) fun w hw => hwords w (mem_cons_of_mem _ hw)]
    · rfl
    · exact fun hnil => cons_ne_nil _ _ hnil

section

variable (h : glib.Documented)
include h

/-- Words of printable ASCII. -/
theorem word_ascii {first : UInt8} {rest : Bytes} (hquote : first ≠ 34)
    (hascii : ∀ b ∈ first :: rest, 33 ≤ b ∧ b ≤ 126) : Word glib (first :: rest) := by
  have hchar : ∀ n ≤ 126, utf8EncodeChar (Char.ofNat n) = [UInt8.ofNat n] ∧ (Char.ofNat n).toNat = n := by
    decide
  have hencode : ∀ bytes : Bytes, (∀ b ∈ bytes, 33 ≤ b ∧ b ≤ 126) →
      encodeChars (bytes.map fun b => Char.ofNat b.toNat) = bytes ∧
      ∀ c ∈ bytes.map fun b => Char.ofNat b.toNat, glib.isGraph c.toNat = true := by
    intro bytes hbytes
    induction bytes with
    | nil => exact ⟨rfl, by simp⟩
    | cons b bytes ih =>
      obtain ⟨hlow, hhigh⟩ := hbytes b mem_cons_self
      obtain ⟨hone, hnat⟩ := hchar b.toNat (le_iff_toNat_le.mp hhigh)
      obtain ⟨hrest, hgraph⟩ := ih fun d hd => hbytes d (mem_cons_of_mem _ hd)
      constructor
      · unfold encodeChars at hrest ⊢
        rw [map_cons, flatMap_cons, hrest, hone, UInt8.ofNat_toNat]
        rfl
      · intro c hc
        rw [map_cons] at hc
        rcases mem_cons.mp hc with rfl | hc
        · rw [hnat]
          exact h.isGraph_ascii _ (le_iff_toNat_le.mp hlow) (le_iff_toNat_le.mp hhigh)
        · exact hgraph c hc
  obtain ⟨hbytes, hgraph⟩ := hencode (first :: rest) hascii
  rw [map_cons] at hbytes hgraph
  obtain ⟨hlow, hhigh⟩ := hascii first mem_cons_self
  refine ⟨Char.ofNat first.toNat, rest.map fun b => Char.ofNat b.toNat, hbytes.symm, ?_, ?_, hgraph⟩
  · rw [(hchar first.toNat (le_iff_toNat_le.mp hhigh)).2]
    exact fun heq => hquote (UInt8.toNat_inj.mp heq)
  · rw [(hchar first.toNat (le_iff_toNat_le.mp hhigh)).2]
    exact h.isSpace_ascii _ (le_iff_toNat_le.mp hlow) (le_iff_toNat_le.mp hhigh)

/-- A printed number is a word. -/
theorem word_decimal (n : Int) : Word glib (decimal n) := by
  have hnat : ∀ n : Nat, ∀ b ∈ decimalNat n, (33 ≤ b ∧ b ≤ 126) ∧ b ≠ 34 := by
    intro n b hb
    obtain ⟨d, hd, rfl⟩ := (decimalNat_spec n).2.2 b hb
    obtain ⟨_, _, _, _, _, hlow, hhigh, hquote⟩ := digit_facts d hd
    exact ⟨⟨hlow, hhigh⟩, hquote⟩
  cases n with
  | ofNat n =>
    have hne := (decimalNat_spec n).2.1
    have hall := hnat n
    change Word glib (decimalNat n)
    cases hcase : decimalNat n with
    | nil => exact absurd hcase hne
    | cons first rest =>
      rw [hcase] at hall
      exact word_ascii h (hall first mem_cons_self).2 fun b hb => (hall b hb).1
  | negSucc n =>
    refine word_ascii h (by decide) fun b hb => ?_
    rcases mem_cons.mp hb with rfl | hb
    · decide
    · exact (hnat _ b hb).1

/-- A text in quotes and the blank behind it. -/
theorem splitFrom_quoted {text : Bytes}
    (htext : ∀ b ∈ text, 32 ≤ b ∧ b ≤ 126 ∧ b ≠ 34 ∧ b ≠ 92) (rest : Bytes) :
    splitFrom glib (34 :: (text ++ 34 :: 32 :: rest)) =
      (splitFrom glib rest).map fun tokens => tokens.map (text :: ·) := by
  have hend : ∀ text : Bytes, (∀ b ∈ text, 32 ≤ b ∧ b ≤ 126 ∧ b ≠ 34 ∧ b ≠ 92) →
      quoteEnd glib (text ++ 34 :: 32 :: rest) = .ok (some (34 :: 32 :: rest)) := by
    intro text
    induction text with
    | nil =>
      intro _
      have hquote := getChar_ascii h (show (34 : UInt8) ≤ 127 by decide) (32 :: rest)
      rw [nil_append, quoteEnd, if_neg (by decide), hquote, if_neg (by decide), if_pos (by decide)]
    | cons b text ih =>
      intro hall
      obtain ⟨hlow, hhigh, hquote, hescape⟩ := hall b mem_cons_self
      have hascii : b ≤ 127 := UInt8.le_trans hhigh (by decide)
      have hne : b ≠ 0 := by
        rintro rfl
        exact absurd hlow (by decide)
      have hescape' : b.toNat ≠ 92 := fun heq => hescape (UInt8.toNat_inj.mp heq)
      have hquote' : b.toNat ≠ 34 := fun heq => hquote (UInt8.toNat_inj.mp heq)
      rw [cons_append, quoteEnd, if_neg hne, getChar_ascii h hascii, if_neg hescape', if_neg hquote',
        nextChar_ascii hascii]
      exact ih fun d hd => hall d (mem_cons_of_mem _ hd)
  have hget := getChar_ascii h (show (34 : UInt8) ≤ 127 by decide) (text ++ 34 :: 32 :: rest)
  have hread : readToken glib (34 :: (text ++ 34 :: 32 :: rest)) = .ok (some (text, 34 :: 32 :: rest)) := by
    unfold readToken
    rw [hget, if_pos (by decide), nextChar_ascii (by decide), hend text htext]
    change ok (some (tokenBefore _ _, _)) = _
    rw [tokenBefore_append]
  have hspace : glib.isSpace (glib.getChar (34 :: (text ++ 34 :: 32 :: rest))) = false := by
    rw [hget]
    exact h.isSpace_ascii _ (by decide) (by decide)
  have hblank : splitFrom glib (32 :: rest) = splitFrom glib rest := by
    rw [splitFrom, if_neg (by decide), getChar_ascii h (by decide), nextChar_ascii (by decide),
      show (32 : UInt8).toNat = 32 from rfl, if_pos h.isSpace_blank]
  rw [splitFrom_token (by decide) hspace hread, if_neg (by decide), nextChar_ascii (by decide), hblank]

/-- Words have no control characters. -/
theorem Word.no_control (hword : Word glib word) : ∀ b ∈ word, 32 ≤ b := by
  have hhigh : ∀ n < 64, 32 ≤ UInt8.ofNat (n + 128) := by decide
  have hfirst : ∀ n < 32, 32 ≤ UInt8.ofNat (n + 192) ∧ 32 ≤ UInt8.ofNat (n % 16 + 224) ∧
      32 ≤ UInt8.ofNat (n % 8 + 240) := by decide
  have hone : ∀ n ≤ 127, 32 ≤ n → 32 ≤ UInt8.ofNat n := by decide
  have hencode : ∀ c : Char, 32 ≤ c.toNat → ∀ b ∈ utf8EncodeChar c, 32 ≤ b := by
    intro c hc b hb
    have htail : ∀ n, 32 ≤ UInt8.ofNat (n % 64 + 128) := fun n => hhigh _ (Nat.mod_lt _ (by decide))
    have htwo : ∀ n, 32 ≤ UInt8.ofNat (n % 32 + 192) := fun n => (hfirst _ (Nat.mod_lt n (by decide))).1
    have hthree : ∀ n, 32 ≤ UInt8.ofNat (n % 16 + 224) := by
      intro n
      have := (hfirst (n % 16) (by omega)).2.1
      rwa [Nat.mod_mod] at this
    have hfour : ∀ n, 32 ≤ UInt8.ofNat (n % 8 + 240) := by
      intro n
      have := (hfirst (n % 8) (by omega)).2.2
      rwa [Nat.mod_mod] at this
    unfold utf8EncodeChar at hb
    dsimp only at hb
    split_ifs at hb with h1
    · rw [mem_singleton.mp hb]
      exact hone _ h1 hc
    · simp only [mem_cons, not_mem_nil, or_false] at hb
      rcases hb with rfl | rfl
      · exact htwo _
      · exact htail _
    · simp only [mem_cons, not_mem_nil, or_false] at hb
      rcases hb with rfl | rfl | rfl
      · exact hthree _
      · exact htail _
      · exact htail _
    · simp only [mem_cons, not_mem_nil, or_false] at hb
      rcases hb with rfl | rfl | rfl | rfl
      · exact hfour _
      · exact htail _
      · exact htail _
      · exact htail _
  obtain ⟨c, chars, rfl, _, _, hgraph⟩ := hword
  intro b hb
  obtain ⟨d, hd, hin⟩ := mem_flatMap.mp hb
  refine hencode d ?_ b hin
  by_contra hlt
  have := hgraph d hd
  rw [h.isGraph_control _ (Nat.le_of_not_le hlt)] at this
  cases this

end

theorem no_control_joinWords : ∀ {words : List Bytes}, (∀ word ∈ words, ∀ b ∈ word, 32 ≤ b) →
    ∀ b ∈ joinWords words, 32 ≤ b
  | [], _, b, hb => absurd hb not_mem_nil
  | [word], hwords, b, hb => hwords word mem_cons_self b hb
  | word :: second :: rest, hwords, b, hb => by
    rw [joinWords] at hb
    · rcases mem_append.mp hb with hb | hb
      · exact hwords word mem_cons_self b hb
      rcases mem_cons.mp hb with rfl | hb
      · decide
      · exact no_control_joinWords (fun w hw => hwords w (mem_cons_of_mem _ hw)) b hb
    · exact fun hnil => cons_ne_nil _ _ hnil

/-- Tags that are all required are read with the tokens behind them. -/
theorem TagLib.readTags_pairs (entry : TagEntry) : ∀ (pairs : List (Bytes × Bytes)) (required : Bytes → Option Bytes),
    (∀ pair ∈ pairs, entry.ignoredTags.contains pair.1 = false ∧ entry.requiredTags.contains pair.1 = true) →
    (pairs.map Prod.fst).Nodup →
    ∃ after, readTags entry (pairs.flatMap fun pair => [pair.1, pair.2]) required = (true, after) ∧
      (∀ pair ∈ pairs, after pair.1 = some pair.2) ∧ ∀ tag, tag ∉ pairs.map Prod.fst → after tag = required tag
  | [], required, _, _ => ⟨required, rfl, by simp, fun _ _ => rfl⟩
  | pair :: pairs, required, htags, hnodup => by
    obtain ⟨hignored, hrequired⟩ := htags pair mem_cons_self
    rw [map_cons, nodup_cons] at hnodup
    obtain ⟨after, hread, hpairs, hothers⟩ := readTags_pairs entry pairs
      (Function.update required pair.1 (some pair.2)) (fun other hother => htags other (mem_cons_of_mem _ hother))
      hnodup.2
    refine ⟨after, ?_, fun other hother => ?_, fun tag htag => ?_⟩
    · rw [flatMap_cons, cons_append, cons_append, nil_append, readTags, hignored, hrequired]
      exact hread
    · rcases mem_cons.mp hother with rfl | hother
      · rw [hothers _ hnodup.1, Function.update_self]
      · exact hpairs other hother
    · rw [map_cons, mem_cons, not_or] at htag
      rw [hothers tag htag.2, Function.update_of_ne htag.1]

/-- A line of words is read by the registration of its first. -/
theorem TagLib.read_words {lib : TagLib} {tag : Bytes} {tokens : List Bytes} {line : Bytes}
    (hsplit : splitLine glib line = .ok (some (tag :: tokens))) {entry : TagEntry}
    (hfind : (lib.top.find? fun entry => entry.lineTag == tag) = some entry)
    (hvalues : entry.numOfValues ≤ tokens.length) {required : Bytes → Option Bytes}
    (htags : readTags entry (tokens.drop entry.numOfValues) (fun _ => none) = (true, required))
    (hrequired : ∀ tag ∈ entry.requiredTags, (required tag).isSome) (lineType : Int) :
    lib.read glib line lineType = .ok (true, ⟨entry.lineType, tokens.take entry.numOfValues, required⟩) := by
  unfold TagLib.read
  rw [hsplit]
  dsimp only
  rw [hfind]
  dsimp only
  rw [if_neg (Nat.not_lt.mpr hvalues), htags]
  dsimp only
  rw [all_eq_true.mpr hrequired]
  rfl

end Words

/-! ## Reading a text of lines -/

variable {line : Bytes} {lines : List Bytes}

/-- A stream that has read the first of some lines. -/
def readerOf (lines : List Bytes) : LineReader :=
  ⟨lines.tail.flatMap (· ++ [10]), false, false, lines.headD []⟩

/-- A line without control characters ends at its newline. -/
theorem getline_line (hline : ∀ b ∈ line, 32 ≤ b) (rest old : Bytes) :
    (getline ⟨line ++ 10 :: rest, false, false, old⟩) = (true, ⟨rest, false, false, line⟩) := by
  have hstop : ∀ b ∈ line, (b != 10) = true := by
    intro b hb
    rw [bne_iff_ne]
    rintro rfl
    exact absurd (hline 10 hb) (by decide)
  have htake : (line ++ 10 :: rest).takeWhile (· != 10) = line := by
    rw [takeWhile_append_of_pos hstop, takeWhile_cons_of_neg (by decide), append_nil]
  unfold getline
  rw [Bool.or_false, if_neg Bool.false_ne_true, if_neg (by simp)]
  dsimp only
  rw [htake, drop_left]

theorem getline_readerOf {next : Bytes} (hnext : ∀ b ∈ next, 32 ≤ b) :
    (readerOf (line :: next :: lines)).getline = (true, readerOf (next :: lines)) := by
  unfold readerOf
  rw [tail_cons, flatMap_cons, append_assoc]
  exact getline_line hnext _ _

theorem getline_fromBytes (hline : ∀ b ∈ line, 32 ≤ b) :
    (fromBytes ((line :: lines).flatMap (· ++ [10]))).getline = (true, readerOf (line :: lines)) := by
  unfold fromBytes
  rw [flatMap_cons, append_assoc]
  exact getline_line hline _ _

/-- The next line of a text that has one. -/
theorem getline_rest (hne : lines ≠ []) (hlines : ∀ next ∈ lines, ∀ b ∈ next, 32 ≤ b) :
    (readerOf (line :: lines)).getline = (true, readerOf lines) := by
  cases lines with
  | nil => exact absurd rfl hne
  | cons next rest => exact getline_readerOf (hlines next mem_cons_self)

theorem cStr_readerOf (hline : ∀ b ∈ line, 32 ≤ b) : (readerOf (line :: lines)).cStr = line := by
  unfold cStr readerOf
  refine takeWhile_eq_self_iff.mpr fun b hb => ?_
  rw [bne_iff_ne]
  rintro rfl
  exact absurd (hline 0 hb) (by decide)

end Oxpinyin.Tool
