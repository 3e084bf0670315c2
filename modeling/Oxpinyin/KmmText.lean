import Oxpinyin.KmmBalance
import Oxpinyin.TagLib

/-!
# The text of a k mixture model

An export writes a container as tagged lines : the magic header, the headers of the grams, and
their items. An import reads such lines into a container. It keeps the gram it is adding to and
stores it when the next predecessor comes. A container whose tokens have texts of graph
characters comes back from its own text (`importText_exportText`).
-/

namespace Oxpinyin.Kmm

open FiniteMap Tool

/-! ## Writing -/

/-- The line of the magic header. -/
def dataHeader (wc n totalFreq : Int) : Bytes :=
  ascii "\\data model \"k mixture model\" count " ++ decimal wc ++ ascii " N " ++ decimal n ++
    ascii " total_freq " ++ decimal totalFreq ++ [10]

def gram1 : Bytes := ascii "\\1-gram" ++ [10]

def gram2 : Bytes := ascii "\\2-gram" ++ [10]

def endLine : Bytes := ascii "\\end" ++ [10]

/-- The line of a gram's header. -/
def unigramItem (token : Int) (phrase : Bytes) (wc freq : Int) : Bytes :=
  ascii "\\item " ++ decimal token ++ ascii " " ++ phrase ++ ascii " count " ++ decimal wc ++
    ascii " freq " ++ decimal freq ++ [10]

/-- The line of an item. -/
def bigramItem (token1 : Int) (word1 : Bytes) (token2 : Int) (word2 : Bytes) (wc nn0 n1 mr : Int) : Bytes :=
  ascii "\\item " ++ decimal token1 ++ ascii " " ++ word1 ++ ascii " " ++ decimal token2 ++ ascii " " ++
    word2 ++ ascii " count " ++ decimal wc ++ ascii " T " ++ decimal wc ++ ascii " N_n_0 " ++ decimal nn0 ++
    ascii " n_1 " ++ decimal n1 ++ ascii " Mr " ++ decimal mr ++ [10]

section Export

variable (phrases : PhraseIndex) (container : Container)

def printMagicHeader : Except Halt Bytes :=
  match container.getMagicHeader with
  | none => .error (.exit enodata)
  | some header => .ok (dataHeader header.wc.toInt header.n.toInt header.totalFreq.toInt)

/-- A token without a text is left out. -/
def printArrayHeader (token : BitVec 32) : Except Halt Bytes :=
  match container.getArrayHeader token with
  | none => .error .abort
  | some header =>
    match phrases.tokenToString token with
    | none => .ok []
    | some phrase => .ok (unigramItem token.toInt (cText phrase) header.wc.toInt header.freq.toInt)

def printArrayHeaders (order : Walk) : Except Halt Bytes :=
  (container.getAllItems order).foldlM
    (fun output token => (printArrayHeader phrases container token).map (output ++ ·)) gram1

/-- The line of an item, if both tokens have texts. -/
def printArrayItem (token : BitVec 32) (entry : BitVec 32 × ArrayItem) : Bytes :=
  match phrases.tokenToString token, phrases.tokenToString entry.1 with
  | some word1, some word2 =>
    bigramItem token.toInt (cText word1) entry.1.toInt (cText word2) entry.2.wc.toInt entry.2.nn0.toInt
      entry.2.n1.toInt entry.2.mr.toInt
  | _, _ => []

def printSingleGram (token : BitVec 32) : Except Halt Bytes :=
  match container.load token with
  | none => .error .abort
  | some gram => .ok (gram.items.flatMap (printArrayItem phrases token))

def printArrayItems (order : Walk) : Except Halt Bytes :=
  (container.getAllItems order).foldlM
    (fun output token => (printSingleGram phrases container token).map (output ++ ·)) gram2

/-- The text of a container. -/
def exportText (order : Walk) : Except Halt Bytes := do
  let magic ← printMagicHeader container
  let headers ← printArrayHeaders phrases container order
  let items ← printArrayItems phrases container order
  .ok (magic ++ headers ++ items ++ endLine)

end Export

/-! ## Reading -/

def beginLine : Int := 1

def endLineType : Int := 2

def gram1Line : Int := 3

def gram2Line : Int := 4

def gram1ItemLine : Int := 5

def gram2ItemLine : Int := 6

/-- The variables of an import. -/
structure Converter where
  bigram : Container
  input : LineReader
  taglib : TagLib
  line : TagLine

namespace Converter

variable (glib : Glib) (phrases : PhraseIndex)

section

variable (converter : Converter)

def myGetline : Bool × Converter :=
  (converter.input.getline.1, { converter with input := converter.input.getline.2 })

/-- Reads the line. It aborts where the reading is undefined. -/
def read : Except Halt (Bool × Converter) :=
  match converter.taglib.read glib converter.input.cStr converter.line.lineType with
  | .error _ => .error .abort
  | .ok (answer, line) => .ok (answer, { converter with line := line })

/-- Reads the line. It aborts where the line is refused. -/
def checkRead : Except Halt Converter :=
  match converter.read glib with
  | .error halt => .error halt
  | .ok (answer, converter) => if answer then .ok converter else .error .abort

def value (index : Nat) : Bytes := converter.line.values.getD index []

def tagValue (name : Bytes) : Bytes := (converter.line.required name).getD []

def token (index : Nat) : BitVec 32 := atoi (converter.value index)

/-- A tag's number. -/
def number (name : String) : BitVec 64 := atol (converter.tagValue (ascii name))

def parseHeadline : Except Halt (Bool × Converter) :=
  let taglib := converter.taglib.addTag beginLine (ascii "\\data") 0 (ascii "model:count:N:total_freq") []
  let converter := { converter with taglib := taglib }
  match converter.read glib with
  | .error halt => .error halt
  | .ok (answer, converter) =>
    if !answer || converter.tagValue (ascii "model") != ascii "k mixture model" then .ok (false, converter)
    else
      let header : MagicHeader := ⟨(converter.number "count").setWidth 32,
        (converter.number "N").setWidth 32, (converter.number "total_freq").setWidth 32⟩
      .ok (true, { converter with bigram := converter.bigram.setMagicHeader header })

end

/-- Whether a line ends a section. -/
def isSectionLine (lineType : Int) : Bool :=
  lineType == endLineType || lineType == gram1Line || lineType == gram2Line

/-- Writes the header of a line. -/
def readHeader (converter : Converter) : Except Halt Converter :=
  if !phrases.validateTokenWithString (converter.token 0) (converter.value 1) then .error .abort
  else
    let header : ArrayHeader :=
      ⟨(converter.number "count").setWidth 32, (converter.number "freq").setWidth 32⟩
    .ok { converter with bigram := converter.bigram.setArrayHeader (converter.token 0) header }

/-- The lines of the headers. -/
def unigramLoop : Nat → Converter → Except Halt Converter
  | 0, _ => .error .abort
  | fuel + 1, converter => do
    let converter ← converter.checkRead glib
    if converter.line.lineType = gram1ItemLine then
      let converter ← converter.readHeader phrases
      if converter.myGetline.1 then unigramLoop fuel converter.myGetline.2 else .ok converter.myGetline.2
    else if isSectionLine converter.line.lineType then .ok converter
    else .error .abort

def parseUnigram (fuel : Nat) (converter : Converter) : Except Halt Converter := do
  let taglib := converter.taglib.pushState.addTag gram1ItemLine (ascii "\\item") 2 (ascii "count:freq") []
  let converter ← unigramLoop glib phrases fuel { converter with taglib := taglib }
  .ok { converter with taglib := converter.taglib.popState }

/-- The gram that is added to, with its token. -/
structure Pending where
  lastToken : BitVec 32
  lastSingleGram : Option KmmGram

/-- Stores the pending gram. -/
def flush (bigram : Container) (pending : Pending) : Container :=
  if pending.lastToken ≠ nullToken then
    match pending.lastSingleGram with
    | some gram => bigram.store pending.lastToken gram
    | none => bigram
  else bigram

/-- Adds an item to the gram of its predecessor. Another predecessor's gram is stored first. -/
def addItem (state : Container × Pending) (token1 token2 : BitVec 32) (item : ArrayItem) :
    Except Halt (Container × Pending) :=
  let state := if state.2.lastToken ≠ token1 then
    (flush state.1 state.2,
      { lastToken := token1
        lastSingleGram := some (((flush state.1 state.2).load token1).getD newGram) : Pending })
    else state
  match state.2.lastSingleGram with
  | none => .error .abort
  | some gram =>
    match gram.insertArrayItem token2 item with
    | none => .error .abort
    | some gram => .ok (state.1, ⟨state.2.lastToken, some gram⟩)

/-- Adds the item of a line. -/
def readItem (converter : Converter) (pending : Pending) : Except Halt (Converter × Pending) :=
  if !phrases.validateTokenWithString (converter.token 0) (converter.value 1) then .error .abort
  else if !phrases.validateTokenWithString (converter.token 2) (converter.value 3) then .error .abort
  else if converter.number "count" ≠ converter.number "T" then .error .abort
  else
    (addItem (converter.bigram, pending) (converter.token 0) (converter.token 2)
      ⟨(converter.number "count").setWidth 32, (converter.number "N_n_0").setWidth 32,
        (converter.number "n_1").setWidth 32, (converter.number "Mr").setWidth 32⟩).map
      fun state => ({ converter with bigram := state.1 }, state.2)

/-- The lines of the items. -/
def bigramLoop : Nat → Converter → Pending → Except Halt (Converter × Pending)
  | 0, _, _ => .error .abort
  | fuel + 1, converter, pending => do
    let converter ← converter.checkRead glib
    if converter.line.lineType = gram2ItemLine then
      let (converter, pending) ← converter.readItem phrases pending
      if converter.myGetline.1 then bigramLoop fuel converter.myGetline.2 pending
      else .ok (converter.myGetline.2, pending)
    else if isSectionLine converter.line.lineType then .ok (converter, pending)
    else .error .abort

def parseBigram (fuel : Nat) (converter : Converter) : Except Halt Converter := do
  let taglib := converter.taglib.pushState.addTag gram2ItemLine (ascii "\\item") 4
    (ascii "count:T:N_n_0:n_1:Mr") []
  let (converter, pending) ← bigramLoop glib phrases fuel { converter with taglib := taglib } ⟨nullToken, none⟩
  .ok { converter with
    bigram := flush converter.bigram pending
    taglib := converter.taglib.popState }

/-- The sections. -/
def bodyLoop (lines : Nat) : Nat → Converter → Except Halt Converter
  | 0, _ => .error .abort
  | fuel + 1, converter => do
    let converter ← converter.checkRead glib
    if converter.line.lineType = endLineType then .ok converter
    else if converter.line.lineType = gram1Line then
      bodyLoop lines fuel (← parseUnigram glib phrases lines converter.myGetline.2)
    else if converter.line.lineType = gram2Line then
      bodyLoop lines fuel (← parseBigram glib phrases lines converter.myGetline.2)
    else .error .abort

def parseBody (lines : Nat) (converter : Converter) : Except Halt Converter := do
  let taglib := ((converter.taglib.pushState.addTag endLineType (ascii "\\end") 0 [] []).addTag
    gram1Line (ascii "\\1-gram") 0 [] []).addTag gram2Line (ascii "\\2-gram") 0 [] []
  let converter ← bodyLoop glib phrases lines lines { converter with taglib := taglib }
  .ok { converter with taglib := converter.taglib.popState }

end Converter

/-- Reads a text into a container. A round takes a line, so there are no more of them than bytes, and one :
but a section's line at the end of the text, with no newline, is read for ever, where this one aborts. -/
def importText (glib : Glib) (phrases : PhraseIndex) (container : Container) (text : Bytes) :
    Except Halt Container :=
  let converter : Converter := ⟨container, LineReader.fromBytes text, TagLib.init, ⟨0, [], fun _ => none⟩⟩
  if !converter.myGetline.1 then .error (.exit enodata)
  else
    match converter.myGetline.2.parseHeadline glib with
    | .error halt => .error halt
    | .ok (false, _) => .error (.exit enodata)
    | .ok (true, converter) =>
      if converter.myGetline.1 then
        (converter.myGetline.2.parseBody glib phrases (text.length + 1)).map (·.bigram)
      else .ok converter.bigram

end Oxpinyin.Kmm
