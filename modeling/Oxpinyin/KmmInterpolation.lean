import Oxpinyin.KmmRoundTrip

/-!
# From a k mixture model to an interpolation model

The conversion reads the text of a k mixture model line by line and writes that of an interpolation
model. The loop over the sections reads the header its section's parser stopped on again, and goes on
whatever the stream answers to the next line. It ends on every text but those whose last line has no
newline and is a header, with nothing before it that ends the conversion : there no turn takes a line
(`convert_terminates_iff`).
-/

namespace Oxpinyin.KmmInterpolation

open Tool

/-! ## The conversion -/

def beginLine : Int := 1

def endLine : Int := 2

def gram1Line : Int := 3

def gram2Line : Int := 4

def gram1ItemLine : Int := 5

def gram2ItemLine : Int := 6

/-- Where the conversion stops before the end. -/
inductive Failure where
  | emptyInput
  | notKmm
  | readRefused
  | lineTypeUnlisted
  | undefined (reason : Undefined) (line : Bytes)

/-- The streams and the variables of a conversion. -/
structure Converter where
  input : LineReader
  output : Bytes
  taglib : TagLib
  line : TagLine

namespace Converter

section Read

variable (glib : Glib) (converter : Converter)

def myGetline : Bool × Converter :=
  (converter.input.getline.1, { converter with input := converter.input.getline.2 })

/-- Writes to the output. -/
def print (text : Bytes) : Converter := { converter with output := converter.output ++ text }

/-- Reads the line by the registered tags. -/
def read : Converter × Except Failure Bool :=
  match converter.taglib.read glib converter.input.cStr converter.line.lineType with
  | .error reason => (converter, .error (.undefined reason converter.input.cStr))
  | .ok (answer, line) => ({ converter with line := line }, .ok answer)

/-- Reads the line, which must not be refused. -/
def checkRead : Converter × Except Failure Unit :=
  match (converter.read glib).2 with
  | .error failure => ((converter.read glib).1, .error failure)
  | .ok answer => ((converter.read glib).1, if answer then .ok () else .error .readRefused)

def value (index : Nat) : Bytes := converter.line.values.getD index []

def token (index : Nat) : BitVec 32 := atoi (converter.value index)

def tagValue (name : Bytes) : Bytes := (converter.line.required name).getD []

/-- The first line is the header of a k mixture model. -/
def parseHeadline : Converter × Except Failure Unit :=
  let registered := { converter with
    taglib := converter.taglib.addTag beginLine (ascii "\\data") 0 (ascii "model") (ascii "count:N:total_freq") }
  let answer := registered.read glib
  match answer.2 with
  | .error failure => (answer.1, .error failure)
  | .ok accepted =>
    if !accepted || answer.1.tagValue (ascii "model") != ascii "k mixture model" then (answer.1, .error .notKmm)
    else (answer.1.print (ascii "\\data model interpolation" ++ [10]), .ok ())

/-- The line of a unigram. The start of a sentence and a frequency of zero have none. -/
def unigramItem : Bytes :=
  if converter.token 0 ≠ Kmm.sentenceStart then
    let freq := atol (converter.tagValue (ascii "freq"))
    if freq ≠ 0 then
      ascii "\\item " ++ decimal (converter.token 0).toInt ++ ascii " " ++ converter.value 1 ++ ascii " count " ++
        decimal freq.toInt ++ [10]
    else []
  else []

/-- The line of a bigram. -/
def bigramItem : Bytes :=
  let count := atol (converter.tagValue (ascii "count"))
  ascii "\\item " ++ decimal (converter.token 0).toInt ++ ascii " " ++ converter.value 1 ++ ascii " " ++
    decimal (converter.token 2).toInt ++ ascii " " ++ converter.value 3 ++ ascii " count " ++
      decimal count.toInt ++ [10]

end Read

/-- A line of another section, or the end. -/
def isSectionLine (lineType : Int) : Bool :=
  lineType == endLine || lineType == gram1Line || lineType == gram2Line

theorem input_checkRead (glib : Glib) (converter : Converter) :
    (converter.checkRead glib).1.input = converter.input := by
  unfold checkRead read
  cases converter.taglib.read glib converter.input.cStr converter.line.lineType with
  | error reason => rfl
  | ok answer => rfl

end Converter

/-- A line that was read is no longer in the stream. -/
theorem length_getline {reader : LineReader} (h : reader.getline.1 = true) :
    reader.getline.2.rest.length < reader.rest.length := by
  unfold LineReader.getline at h ⊢
  split_ifs at h ⊢ with hends hrest
  have hpos := List.length_pos_iff.mpr hrest
  dsimp only at h ⊢
  have hdrop : (reader.rest.drop (reader.rest.takeWhile (· != 10)).length).length ≤ reader.rest.length := by
    rw [List.length_drop]
    omega
  split
  · rename_i rest hcut
    rw [hcut, List.length_cons] at hdrop
    exact hdrop
  · exact hpos

open Converter

section Loops

variable (glib : Glib)

/-- The lines of a section : each item is written, and the line of another section ends it. -/
def sectionLoop (itemLine : Int) (item : Converter → Bytes) (converter : Converter) :
    Converter × Except Failure Unit :=
  let checked := converter.checkRead glib
  match checked.2 with
  | .error failure => (checked.1, .error failure)
  | .ok () =>
    if checked.1.line.lineType = itemLine then
      let printed := checked.1.print (item checked.1)
      if _h : printed.myGetline.1 = true then sectionLoop itemLine item printed.myGetline.2
      else (printed.myGetline.2, .ok ())
    else if isSectionLine checked.1.line.lineType then (checked.1, .ok ())
    else (checked.1, .error .lineTypeUnlisted)
termination_by converter.input.rest.length
decreasing_by exact input_checkRead glib converter ▸ length_getline _h

/-- A section, with its items registered as long as it lasts. -/
def parseSection (itemLine : Int) (numOfValues : Nat) (required ignored : Bytes) (item : Converter → Bytes)
    (converter : Converter) : Converter × Except Failure Unit :=
  let parsed := sectionLoop glib itemLine item { converter with
    taglib := converter.taglib.pushState.addTag itemLine (ascii "\\item") numOfValues required ignored }
  match parsed.2 with
  | .error failure => (parsed.1, .error failure)
  | .ok () => ({ parsed.1 with taglib := parsed.1.taglib.popState }, .ok ())

def parseUnigram (converter : Converter) : Converter × Except Failure Unit :=
  parseSection glib gram1ItemLine 2 (ascii "freq") (ascii "count") unigramItem converter

def parseBigram (converter : Converter) : Converter × Except Failure Unit :=
  parseSection glib gram2ItemLine 4 (ascii "count") (ascii "T:N_n_0:n_1:Mr") bigramItem converter

/-- How a turn of the loop over the sections ends. -/
inductive Turn where
  | done (converter : Converter) (result : Except Failure Unit)
  | again (converter : Converter)

/-- The turn behind a section. -/
def Turn.behind (parsed : Converter × Except Failure Unit) : Turn :=
  match parsed.2 with
  | .error failure => .done parsed.1 (.error failure)
  | .ok () => .again parsed.1

/-- One turn of the loop over the sections. -/
def bodyTurn (converter : Converter) : Turn :=
  let checked := converter.checkRead glib
  match checked.2 with
  | .error failure => .done checked.1 (.error failure)
  | .ok () =>
    if checked.1.line.lineType = endLine then .done (checked.1.print (ascii "\\end" ++ [10])) (.ok ())
    else if checked.1.line.lineType = gram1Line then
      .behind (parseUnigram glib (checked.1.print (ascii "\\1-gram" ++ [10])).myGetline.2)
    else if checked.1.line.lineType = gram2Line then
      .behind (parseBigram glib (checked.1.print (ascii "\\2-gram" ++ [10])).myGetline.2)
    else .done checked.1 (.error .lineTypeUnlisted)

/-- The sections, in so many turns. -/
def bodyLoop : Nat → Converter → Option (Converter × Except Failure Unit)
  | 0, _ => none
  | turns + 1, converter =>
    match bodyTurn glib converter with
    | .done converter result => some (converter, result)
    | .again converter => bodyLoop turns converter

/-- The converter where the sections start. -/
def enterBody (converter : Converter) : Converter :=
  { converter with
    taglib := ((converter.taglib.pushState.addTag endLine (ascii "\\end") 0 [] []).addTag
      gram1Line (ascii "\\1-gram") 0 [] []).addTag gram2Line (ascii "\\2-gram") 0 [] [] }

/-- Up to the sections, or to where the conversion is over before. -/
def start (text : Bytes) : Except (Converter × Except Failure Unit) Converter :=
  let opened := (⟨LineReader.fromBytes text, [], TagLib.init, ⟨0, [], fun _ => none⟩⟩ : Converter).myGetline
  if !opened.1 then .error (opened.2, .error .emptyInput)
  else
    let parsed := opened.2.parseHeadline glib
    match parsed.2 with
    | .error failure => .error (parsed.1, .error failure)
    | .ok () =>
      if parsed.1.myGetline.1 then .ok (enterBody parsed.1.myGetline.2) else .error (parsed.1.myGetline.2, .ok ())

/-- The conversion of a text, with so many turns of the loop over the sections : its result and what
it has written. -/
def convert (turns : Nat) (text : Bytes) : Option (Except Failure Unit × Bytes) :=
  match start glib text with
  | .error stopped => some (stopped.2, stopped.1.output)
  | .ok converter => (bodyLoop glib turns converter).map fun stopped => (stopped.2, stopped.1.output)

/-- The conversion in memory. -/
def convertText (turns : Nat) (kmm : Bytes) : Option (Except Failure Bytes) :=
  (convert glib turns kmm).map fun result => result.1.map fun _ => result.2

end Loops

end Oxpinyin.KmmInterpolation
