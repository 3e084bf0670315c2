import Oxpinyin.KmmInterpolation

/-!
# When the conversion is over

A section stops on the line of another one, which the loop over the sections reads again before it
takes the next line. At the end of the input there is no next line, and the line last read stays. A
header that is the last line and has no newline is so read again and again, and nothing else is
(`convert_terminates_iff`).
-/

namespace Oxpinyin.KmmInterpolation

open List Tool Converter TagLib
open Kmm hiding itemLine
open Option hiding or_assoc

/-! ## Lines -/

/-- The lines of a text that end with a newline, and what is behind them. -/
def cutLines : Bytes → List Bytes × Bytes
  | [] => ([], [])
  | b :: rest =>
    if b = 10 then ([] :: (cutLines rest).1, (cutLines rest).2)
    else
      match (cutLines rest).1 with
      | [] => ([], b :: (cutLines rest).2)
      | line :: lines => ((b :: line) :: lines, (cutLines rest).2)

/-- How many lines are left in a text. -/
def lineCount (text : Bytes) : Nat := (cutLines text).1.length + if (cutLines text).2 = [] then 0 else 1

/-- The first line, and the lines behind it. -/
theorem cutLines_eq (text : Bytes) : cutLines text =
    match text.drop (text.takeWhile (· != 10)).length with
    | _ :: rest => (text.takeWhile (· != 10) :: (cutLines rest).1, (cutLines rest).2)
    | [] => ([], text.takeWhile (· != 10)) := by
  induction text with
  | nil => rfl
  | cons b rest ih =>
    by_cases hb : b = 10
    · subst hb
      rfl
    · rw [cutLines, if_neg hb, takeWhile_cons_of_pos (by simpa using hb), length_cons, drop_succ_cons, ih]
      cases rest.drop (rest.takeWhile (· != 10)).length with
      | nil => rfl
      | cons newline behind => rfl

/-- A line before its newline. -/
theorem cutLines_append {line : Bytes} (hline : ∀ b ∈ line, 32 ≤ b) (rest : Bytes) :
    cutLines (line ++ 10 :: rest) = (line :: (cutLines rest).1, (cutLines rest).2) := by
  induction line with
  | nil => rfl
  | cons b line ih =>
    have hb : b ≠ 10 := by
      rintro rfl
      exact absurd (hline 10 mem_cons_self) (by decide)
    rw [cons_append, cutLines, if_neg hb, ih fun c hc => hline c (mem_cons_of_mem _ hc)]

section Getline

variable {reader : LineReader}

/-- A stream at its end keeps its line. -/
theorem getline_over (h : reader.eof = true ∨ reader.fail = true) :
    reader.getline = (false, { reader with fail := true }) := by
  unfold LineReader.getline
  rw [if_pos (by simpa using h)]

/-- A stream whose lines are all read has an empty one then. -/
theorem getline_nil (heof : reader.eof = false) (hfail : reader.fail = false) (hrest : reader.rest = []) :
    reader.getline = (false, ⟨[], true, true, []⟩) := by
  unfold LineReader.getline
  rw [heof, hfail, Bool.or_false, if_neg Bool.false_ne_true, if_pos hrest]

/-- A line with its newline. -/
theorem getline_cons {line last : Bytes} {lines : List Bytes} (heof : reader.eof = false)
    (hfail : reader.fail = false)
    (hcut : cutLines reader.rest = (line :: lines, last)) :
    ∃ rest, reader.getline = (true, ⟨rest, false, false, line⟩) ∧ cutLines rest = (lines, last) := by
  have hne : reader.rest ≠ [] := by
    intro hnil
    rw [hnil] at hcut
    cases hcut
  rw [cutLines_eq] at hcut
  unfold LineReader.getline
  rw [heof, hfail, Bool.or_false, if_neg Bool.false_ne_true, if_neg hne]
  dsimp only
  cases hdrop : reader.rest.drop (reader.rest.takeWhile (· != 10)).length with
  | nil =>
    rw [hdrop] at hcut
    cases hcut
  | cons newline rest =>
    rw [hdrop] at hcut
    obtain ⟨hlines, hlast⟩ := Prod.mk.inj hcut
    obtain ⟨hline, hlines⟩ := cons.inj hlines
    exact ⟨rest, by rw [hline], Prod.ext hlines hlast⟩

/-- The last line without one. -/
theorem getline_last {last : Bytes} (heof : reader.eof = false) (hfail : reader.fail = false)
    (hcut : cutLines reader.rest = ([], last)) (hlast : last ≠ []) :
    reader.getline = (true, ⟨[], true, false, last⟩) := by
  have hne : reader.rest ≠ [] := by
    intro hnil
    rw [hnil] at hcut
    cases hcut
    exact hlast rfl
  rw [cutLines_eq] at hcut
  unfold LineReader.getline
  rw [heof, hfail, Bool.or_false, if_neg Bool.false_ne_true, if_neg hne]
  dsimp only
  cases hdrop : reader.rest.drop (reader.rest.takeWhile (· != 10)).length with
  | nil =>
    rw [hdrop] at hcut
    rw [(Prod.mk.inj hcut).2]
  | cons newline rest =>
    rw [hdrop] at hcut
    cases hcut

theorem rest_eq_nil_of_cutLines {text : Bytes} (hcut : cutLines text = ([], [])) : text = [] := by
  cases text with
  | nil => rfl
  | cons b rest =>
    rw [cutLines] at hcut
    split_ifs at hcut
    · cases hcut
    · cases hlines : (cutLines rest).1 with
      | nil =>
        rw [hlines] at hcut
        cases hcut
      | cons line lines =>
        rw [hlines] at hcut
        cases hcut

/-- What the next line can be : a line is taken, the stream is at its end, or its lines are all read. -/
theorem getline_cases (reader : LineReader) :
    (reader.getline.1 = true ∧ ¬(reader.eof = true ∨ reader.fail = true) ∧
      lineCount reader.getline.2.rest + 1 = lineCount reader.rest) ∨
    ((reader.eof = true ∨ reader.fail = true) ∧ reader.getline = (false, { reader with fail := true })) ∨
    (¬(reader.eof = true ∨ reader.fail = true) ∧ reader.getline = (false, ⟨[], true, true, []⟩)) := by
  by_cases hover : reader.eof = true ∨ reader.fail = true
  · exact .inr (.inl ⟨hover, getline_over hover⟩)
  · obtain ⟨heof, hfail⟩ : reader.eof = false ∧ reader.fail = false := by simpa using hover
    cases hcut : cutLines reader.rest with
    | mk lines last =>
      cases lines with
      | cons line lines =>
        obtain ⟨rest, hgetline, hrest⟩ := getline_cons heof hfail hcut
        refine .inl ⟨by rw [hgetline], hover, ?_⟩
        rw [hgetline, lineCount, lineCount, hcut, hrest]
        dsimp only
        rw [length_cons]
        omega
      | nil =>
        by_cases hlast : last = []
        · exact .inr (.inr ⟨hover, getline_nil heof hfail (rest_eq_nil_of_cutLines (hlast ▸ hcut))⟩)
        · refine .inl ⟨by rw [getline_last heof hfail hcut hlast], hover, ?_⟩
          rw [getline_last heof hfail hcut hlast, lineCount, lineCount, hcut]
          simp [cutLines, hlast]

end Getline

/-! ## The kinds of the lines -/

/-- Where a line is read. -/
inductive Section where
  | body
  | unigram
  | bigram
  deriving DecidableEq

/-- What a line that is read does. -/
inductive Kind where
  | header (opens : Section)
  | item
  deriving DecidableEq

/-- The registrations of a headline. -/
def headTags : TagLib :=
  TagLib.init.addTag beginLine (ascii "\\data") 0 (ascii "model") (ascii "count:N:total_freq")

/-- The registrations of the sections. -/
def bodyTags : TagLib :=
  ((headTags.pushState.addTag endLine (ascii "\\end") 0 [] []).addTag
    gram1Line (ascii "\\1-gram") 0 [] []).addTag gram2Line (ascii "\\2-gram") 0 [] []

namespace Section

/-- The registrations of a section. -/
def tags : Section → TagLib
  | .body => bodyTags
  | .unigram => bodyTags.pushState.addTag gram1ItemLine (ascii "\\item") 2 (ascii "freq") (ascii "count")
  | .bigram => bodyTags.pushState.addTag gram2ItemLine (ascii "\\item") 4 (ascii "count") (ascii "T:N_n_0:n_1:Mr")

/-- The item of a section. -/
def itemLine : Section → Option Int
  | .body => none
  | .unigram => some gram1ItemLine
  | .bigram => some gram2ItemLine

/-- The kind of a line type. The end of the text and the headline have none. -/
def kindOf (within : Section) (lineType : Int) : Option Kind :=
  if within.itemLine = some lineType then some .item
  else if lineType = gram1Line then some (.header .unigram)
  else if lineType = gram2Line then some (.header .bigram)
  else none

end Section

open Section

/-- The section behind a line. -/
def Kind.behind (within : Section) : Kind → Section
  | .header opens => opens
  | .item => within

section Kinds

variable (glib : Glib)

/-- The kind of a line in a section, if it is read there and the conversion goes on behind it. -/
def kind (within : Section) (line : Bytes) : Option Kind :=
  match within.tags.read glib line 0 with
  | .ok (true, answer) => within.kindOf answer.lineType
  | _ => none

/-- The section behind some lines. -/
def sectionBehind (within : Section) (lines : List Bytes) : Option Section :=
  lines.foldlM (fun within line => (kind glib within (Kmm.cText line)).map (·.behind within)) within

/-- The first line of a k mixture model. -/
def isHeadline (line : Bytes) : Bool :=
  match headTags.read glib line 0 with
  | .ok (true, answer) => (answer.required (ascii "model")).getD [] == ascii "k mixture model"
  | _ => false

/-- A text that ends with a header and has no newline behind it : every line before is read, and none of
them ends the conversion. -/
def endsOnHeader (text : Bytes) : Bool :=
  match cutLines text with
  | ([], _) => false
  | (headline :: lines, last) =>
    last != [] && isHeadline glib (Kmm.cText headline) &&
      (sectionBehind glib .body lines).any fun within =>
        match kind glib within (Kmm.cText last) with
        | some (.header _) => true
        | _ => false

end Kinds

section Read

variable {glib : Glib} {line : Bytes}

variable {lib : TagLib} {answer : TagLine} {lineType : Int}

section

variable (h : lib.read glib line lineType = .ok (true, answer))
include h

/-- A line that is read has a registered tag, and what is read does not depend on the line before. -/
theorem read_accepted :
    (∃ lineTag tokens, splitLine glib line = .ok (some (lineTag :: tokens))) ∧
      (∃ entry ∈ lib.top, entry.lineType = answer.lineType) ∧
      ∀ other, lib.read glib line other = .ok (true, answer) := by
  unfold TagLib.read at h ⊢
  cases hsplit : splitLine glib line with
  | error reason => rw [hsplit] at h; cases h
  | ok found =>
    rw [hsplit] at h
    cases found with
    | none => cases h
    | some tokens =>
      cases tokens with
      | nil =>
        dsimp only at h
        split_ifs at h
        cases h
      | cons lineTag tokens =>
        dsimp only at h ⊢
        cases hfind : lib.top.find? fun entry => entry.lineTag == lineTag with
        | none => rw [hfind] at h; cases h
        | some entry =>
          rw [hfind] at h
          refine ⟨⟨lineTag, tokens, rfl⟩, ⟨entry, mem_of_find?_eq_some hfind, ?_⟩, fun _ => h⟩
          dsimp only at h
          split_ifs at h
          · cases h
          · exact congrArg TagLine.lineType (Prod.mk.inj (Except.ok.inj h)).2

theorem read_lineType (other : Int) : lib.read glib line other = .ok (true, answer) :=
  (read_accepted h).2.2 other

theorem ne_nil_of_read : line ≠ [] := by
  obtain ⟨⟨lineTag, tokens, hsplit⟩, _⟩ := read_accepted h
  rintro rfl
  rw [splitLine, nil_append, splitFrom, if_pos rfl] at hsplit
  cases hsplit

end

/-- A registration behind others is for the lines that none of them is for. -/
theorem read_concat {lib : TagLib} (hne : lib.top ≠ []) (entry : TagEntry) (lineType : Int) :
    read ⟨(lib.top ++ [entry]) :: lib.stack⟩ glib line lineType = lib.read glib line lineType ∨
    (∃ answer, lib.read glib line lineType = .ok (false, answer)) ∧
      ∀ answer, read ⟨(lib.top ++ [entry]) :: lib.stack⟩ glib line lineType = .ok (true, answer) →
        answer.lineType = entry.lineType := by
  have htop : top ⟨(lib.top ++ [entry]) :: lib.stack⟩ = lib.top ++ [entry] := rfl
  unfold TagLib.read
  cases splitLine glib line with
  | error reason => exact .inl rfl
  | ok found =>
    cases found with
    | none => exact .inl rfl
    | some tokens =>
      dsimp only
      rw [htop]
      cases tokens with
      | nil =>
        dsimp only
        rw [if_neg hne, if_neg (by simp)]
        exact .inl rfl
      | cons lineTag tokens =>
        dsimp only
        rw [find?_append]
        cases lib.top.find? fun entry => entry.lineTag == lineTag with
        | some found => exact .inl rfl
        | none =>
          refine .inr ⟨⟨_, rfl⟩, fun answer hread => ?_⟩
          rw [none_or, find?_singleton] at hread
          split_ifs at hread
          · dsimp only at hread
            split_ifs at hread
            · cases hread
            · exact (congrArg TagLine.lineType (Prod.mk.inj (Except.ok.inj hread)).2).symm
          · cases hread

/-- The registrations of a section : one more than the sections have. -/
theorem tags_eq {within : Section} (hbody : within ≠ .body) :
    ∃ entry, within.itemLine = some entry.lineType ∧ within.tags = ⟨(bodyTags.top ++ [entry]) :: bodyTags.stack⟩ := by
  cases within with
  | body => exact absurd rfl hbody
  | unigram => exact ⟨⟨gram1ItemLine, ascii "\\item", 2, [ascii "freq"], [ascii "count"]⟩, rfl, rfl⟩
  | bigram => exact ⟨⟨gram2ItemLine, ascii "\\item", 4, [ascii "count"],
      [ascii "T", ascii "N_n_0", ascii "n_1", ascii "Mr"]⟩, rfl, rfl⟩

/-- A line read in a section has the kind of its type. -/
theorem kind_of_read {within : Section} {answer : TagLine} {lineType : Int}
    (h : within.tags.read glib line lineType = .ok (true, answer)) :
    kind glib within line = within.kindOf answer.lineType := by
  rw [kind, read_lineType h]

theorem kind_of_not_read {within : Section} (lineType : Int)
    (h : ∀ answer, within.tags.read glib line lineType ≠ .ok (true, answer)) : kind glib within line = none := by
  unfold kind
  split
  · rename_i answer hread
    exact absurd (read_lineType hread lineType) (h answer)
  · rfl

theorem kind_nil (within : Section) : kind glib within [] = none :=
  kind_of_not_read 0 fun _ hread => ne_nil_of_read hread rfl

/-- No item is registered between the sections. -/
theorem itemLine_ne (within : Section) : ∀ entry ∈ bodyTags.top, within.itemLine ≠ some entry.lineType := by
  cases within with
  | body => exact fun _ _ => nofun
  | unigram => decide
  | bigram => decide

theorem kindOf_body {within : Section} (h : within.itemLine ≠ some lineType) :
    body.kindOf lineType = (within.kindOf lineType).filter (· ≠ .item) := by
  unfold kindOf
  rw [if_neg h, if_neg (by simp [itemLine])]
  split_ifs
  · rfl
  · rfl
  · rfl

/-- Between the sections a line is a header where it is one in any of them. -/
theorem kind_body (within : Section) (line : Bytes) :
    kind glib .body line = (kind glib within line).filter (· ≠ .item) := by
  have hsame : ∀ {within : Section}, within.tags.read glib line 0 = bodyTags.read glib line 0 →
      kind glib .body line = (kind glib within line).filter (· ≠ .item) := by
    intro within hread
    unfold kind
    rw [hread, tags]
    split
    · rename_i answer haccepted
      obtain ⟨entry, hentry, htype⟩ := (read_accepted haccepted).2.1
      exact kindOf_body (htype ▸ itemLine_ne within entry hentry)
    · rfl
  by_cases hbody : within = .body
  · subst hbody
    exact hsame rfl
  · obtain ⟨entry, hitem, htags⟩ := tags_eq hbody
    rcases @read_concat glib line bodyTags (by decide) entry 0 with hread | ⟨⟨answer, hrefused⟩, hread⟩
    · exact hsame (htags ▸ hread)
    · have hnone : kind glib .body line = none := by
        rw [kind, tags, hrefused]
      rw [hnone]
      unfold kind
      rw [htags]
      split
      · rename_i answer haccepted
        rw [hread answer haccepted, kindOf, if_pos hitem]
        rfl
      · rfl

end Read

/-! ## Headers that are read again -/

section Stuck

variable (glib : Glib)

/-- The conversion reads the line last read again and again, or comes to one it does so with. -/
inductive Stuck : Section → LineReader → Prop
  | last {within opens : Section} {reader : LineReader} (header : kind glib within reader.cStr = some (.header opens))
      (ended : reader.eof = true ∨ reader.fail = true) : Stuck within reader
  | next {within : Section} {found : Kind} {reader : LineReader} (known : kind glib within reader.cStr = some found)
      (more : reader.getline.1 = true) (stuck : Stuck (found.behind within) reader.getline.2) : Stuck within reader

variable {glib} {within : Section} {reader : LineReader}

theorem not_stuck_of_kind (h : kind glib within reader.cStr = none) : ¬ Stuck glib within reader := by
  intro hstuck
  cases hstuck with
  | last header ended => rw [h] at header; cases header
  | next known more stuck => rw [h] at known; cases known

/-- A stream with a next line is stuck where it is stuck behind that. -/
theorem stuck_iff_of_getline {found : Kind} (hkind : kind glib within reader.cStr = some found)
    (hmore : reader.getline.1 = true) : Stuck glib within reader ↔
    Stuck glib (found.behind within) reader.getline.2 := by
  refine ⟨fun hstuck => ?_, .next hkind hmore⟩
  cases hstuck with
  | last header ended =>
    rw [getline_over ended] at hmore
    cases hmore
  | next known more stuck =>
    rw [hkind] at known
    cases known
    exact stuck

/-- A stream that has no next line and is not at its end is not stuck. -/
theorem not_stuck_of_getline (hover : ¬(reader.eof = true ∨ reader.fail = true)) (hmore : reader.getline.1 = false) :
    ¬ Stuck glib within reader := by
  intro hstuck
  cases hstuck with
  | last header ended => exact hover ended
  | next known more stuck => rw [hmore] at more; cases more

/-- Nor is one at its end with an item. -/
theorem not_stuck_of_item (hkind : kind glib within reader.cStr = some .item) (hmore : reader.getline.1 = false) :
    ¬ Stuck glib within reader := by
  intro hstuck
  cases hstuck with
  | last header ended => rw [hkind] at header; cases header
  | next known more stuck => rw [hmore] at more; cases more

/-- A line that is no item leads from a section as it leads from between the sections. -/
theorem stuck_body_iff (hitem : kind glib within reader.cStr ≠ some .item) :
    Stuck glib .body reader ↔ Stuck glib within reader := by
  have hkind : kind glib .body reader.cStr = kind glib within reader.cStr := by
    rw [kind_body within]
    cases hfound : kind glib within reader.cStr with
    | none => rfl
    | some found =>
      refine filter_some_pos ?_
      rw [decide_eq_true_eq]
      rintro rfl
      exact hitem hfound
  have hlead : ∀ {a b : Section}, kind glib a reader.cStr = kind glib b reader.cStr →
      kind glib a reader.cStr ≠ some .item → Stuck glib a reader → Stuck glib b reader := by
    intro a b hkind hitem hstuck
    cases hstuck with
    | last header ended => exact .last (hkind ▸ header) ended
    | @next _ found _ known more stuck =>
      cases found with
      | header opens => exact @Stuck.next glib b (.header opens) reader (hkind ▸ known) more stuck
      | item => exact absurd known hitem
  exact ⟨hlead hkind (hkind ▸ hitem), hlead hkind.symm hitem⟩

end Stuck

/-! ## A section and a turn -/

section Turns

variable (glib : Glib)

/-- What a section leaves of a stream. -/
inductive Parsed (lib : TagLib) (within : Section) (before : LineReader) : Converter × Except Failure Unit → Prop
  | stopped {converter : Converter} {failure : Failure} (free : ¬ Stuck glib within before) :
      Parsed lib within before (converter, .error failure)
  | behind {converter : Converter} (line : before.cStr ≠ []) (taglib : converter.taglib = lib)
      (lines : lineCount converter.input.rest ≤ lineCount before.rest)
      (stuck : Stuck glib .body converter.input ↔ Stuck glib within before) :
      Parsed lib within before (converter, .ok ())

/-- What a turn leaves of a stream. -/
inductive Turned (before : LineReader) : Turn → Prop
  | done {converter : Converter} {result : Except Failure Unit} (free : ¬ Stuck glib .body before) :
      Turned before (.done converter result)
  | again {converter : Converter} (taglib : converter.taglib = bodyTags)
      (stuck : Stuck glib .body converter.input ↔ Stuck glib .body before)
      (lines : ¬ Stuck glib .body before → lineCount converter.input.rest < lineCount before.rest) :
      Turned before (.again converter)

variable {glib} {within : Section} {converter : Converter}

/-- A line that is checked : it is refused, or read as of its kind. -/
theorem checkRead_cases (h : converter.taglib = within.tags) :
    (∃ stopped failure, converter.checkRead glib = (stopped, .error failure) ∧
      kind glib within converter.input.cStr = none) ∨
    ∃ answer, converter.checkRead glib = ({ converter with line := answer }, .ok ()) ∧
      converter.input.cStr ≠ [] ∧ kind glib within converter.input.cStr = within.kindOf answer.lineType := by
  unfold Converter.checkRead Converter.read
  rw [h]
  cases hread : within.tags.read glib converter.input.cStr converter.line.lineType with
  | error reason =>
    refine .inl ⟨_, _, rfl, kind_of_not_read converter.line.lineType fun answer haccepted => ?_⟩
    rw [hread] at haccepted
    cases haccepted
  | ok found =>
    obtain ⟨accepted, answer⟩ := found
    cases accepted with
    | false =>
      refine .inl ⟨_, _, rfl, kind_of_not_read converter.line.lineType fun answer haccepted => ?_⟩
      rw [hread] at haccepted
      cases haccepted
    | true => exact .inr ⟨answer, rfl, ne_nil_of_read hread, kind_of_read hread⟩

theorem lineCount_getline_le (reader : LineReader) : lineCount reader.getline.2.rest ≤ lineCount reader.rest := by
  rcases getline_cases reader with ⟨_, _, hlines⟩ | ⟨_, hgetline⟩ | ⟨_, hgetline⟩
  · omega
  · rw [hgetline]
  · rw [hgetline]
    exact Nat.zero_le _

/-- Between the sections a stream is not stuck behind an item that has no next line. -/
theorem not_stuck_behind_item {reader : LineReader} (hkind : kind glib within reader.cStr = some .item)
    (hmore : reader.getline.1 = false) : ¬ Stuck glib .body reader.getline.2 := by
  have hbody : kind glib .body reader.cStr = none := by
    rw [kind_body within, hkind]
    rfl
  refine not_stuck_of_kind ?_
  rcases getline_cases reader with ⟨hnext, _⟩ | ⟨_, hgetline⟩ | ⟨_, hgetline⟩
  · rw [hmore] at hnext
    cases hnext
  · rw [hgetline]
    exact hbody
  · rw [hgetline]
    exact kind_nil .body

theorem isSectionLine_iff {lineType : Int} : isSectionLine lineType = true ↔
    lineType = endLine ∨ lineType = gram1Line ∨ lineType = gram2Line := by
  simp [isSectionLine, or_assoc]

variable {before : LineReader}

variable {parsed : Converter × Except Failure Unit}

/-- What a section leaves is counted from any line that leads to it. -/
theorem Parsed.of_line {lib : TagLib} {after : LineReader}
    (h : Parsed glib lib within after parsed) (hline : before.cStr ≠ [])
    (hlines : lineCount after.rest ≤ lineCount before.rest)
    (hstuck : Stuck glib within before ↔ Stuck glib within after) : Parsed glib lib within before parsed := by
  cases h with
  | stopped free => exact .stopped (hstuck.not.mpr free)
  | behind line taglib lines stuck => exact .behind hline taglib (Nat.le_trans lines hlines) (stuck.trans hstuck.symm)

/-- The lines of a section. -/
theorem sectionLoop_spec {itemLine : Int} (item : Converter → Bytes) (hwithin : within.itemLine = some itemLine)
    (htags : converter.taglib = within.tags) :
    Parsed glib within.tags within converter.input (sectionLoop glib itemLine item converter) := by
  induction hlength : converter.input.rest.length using Nat.strongRecOn generalizing converter with
  | ind n ih =>
    rw [sectionLoop]
    rcases @checkRead_cases glib within converter htags with
      ⟨stopped, failure, hcheck, hkind⟩ | ⟨answer, hcheck, hline, hkind⟩
    · rw [hcheck]
      exact .stopped (not_stuck_of_kind hkind)
    rw [hcheck]
    dsimp only
    rw [kindOf] at hkind
    split_ifs with hitem hmore hsection
    · -- the item is written, and the rest of the section is one line shorter
      rw [if_pos (hwithin.trans (congrArg some hitem.symm))] at hkind
      have hmore : converter.input.getline.1 = true := hmore
      refine Parsed.of_line (ih _ ?_ ?_ rfl) hline ?_ ?_
      · exact hlength ▸ length_getline hmore
      · exact htags
      · exact lineCount_getline_le _
      · exact stuck_iff_of_getline hkind hmore
    · rw [if_pos (hwithin.trans (congrArg some hitem.symm))] at hkind
      have hmore : converter.input.getline.1 = false := Bool.eq_false_iff.mpr hmore
      refine .behind hline htags (lineCount_getline_le _) ?_
      exact iff_of_false (not_stuck_behind_item hkind hmore) (not_stuck_of_item hkind hmore)
    · rw [if_neg fun h => hitem (some.inj (h.symm.trans hwithin))] at hkind
      refine .behind hline htags (Nat.le_refl _) (stuck_body_iff ?_)
      rw [hkind]
      split_ifs
      · nofun
      · nofun
      · nofun
    · rw [isSectionLine_iff, not_or, not_or] at hsection
      rw [if_neg fun h => hitem (some.inj (h.symm.trans hwithin)), if_neg hsection.2.1,
        if_neg hsection.2.2] at hkind
      exact .stopped (not_stuck_of_kind hkind)

/-- A section, with its items registered for as long. -/
theorem parseSection_spec {itemLine : Int} {numOfValues : Nat} {required ignored : Bytes} (item : Converter → Bytes)
    (hwithin : within.itemLine = some itemLine)
    (hpush : bodyTags.pushState.addTag itemLine (ascii "\\item") numOfValues required ignored = within.tags)
    (hpop : within.tags.popState = bodyTags) (htags : converter.taglib = bodyTags)
    (hinput : converter.input = before) :
    Parsed glib bodyTags within before
      (parseSection glib itemLine numOfValues required ignored item converter) := by
  subst hinput
  have hloop := @sectionLoop_spec glib within { converter with
    taglib := converter.taglib.pushState.addTag itemLine (ascii "\\item") numOfValues required ignored } itemLine item
    hwithin (by rw [htags]; exact hpush)
  dsimp only at hloop
  unfold parseSection
  dsimp only
  generalize sectionLoop glib itemLine item _ = parsed at hloop ⊢
  cases hloop with
  | stopped free => exact .stopped free
  | behind line taglib lines stuck => exact .behind line (taglib ▸ hpop) lines stuck

theorem parseUnigram_spec (htags : converter.taglib = bodyTags) (hinput : converter.input = before) :
    Parsed glib bodyTags .unigram before (parseUnigram glib converter) :=
  parseSection_spec _ rfl rfl rfl htags hinput

theorem parseBigram_spec (htags : converter.taglib = bodyTags) (hinput : converter.input = before) :
    Parsed glib bodyTags .bigram before (parseBigram glib converter) :=
  parseSection_spec _ rfl rfl rfl htags hinput

variable {opens : Section}

/-- A header is one in the section it opens. -/
theorem kind_of_header {line : Bytes} (h : kind glib .body line = some (.header opens)) :
    kind glib within line = some (.header opens) := by
  rw [kind_body within] at h
  exact (filter_eq_some_iff.mp h).1

/-- A turn on a header is what its section leaves of the stream behind it. -/
theorem turned_header
    (hkind : kind glib .body before.cStr = some (.header opens))
    (h : Parsed glib bodyTags opens before.getline.2 parsed) : Turned glib before (.behind parsed) := by
  rcases getline_cases before with ⟨hmore, _, hcount⟩ | ⟨hover, hgetline⟩ | ⟨hover, hgetline⟩
  · have hstep := stuck_iff_of_getline hkind hmore
    cases h with
    | stopped free => exact .done (hstep.not.mpr free)
    | behind line taglib lines stuck =>
      exact .again taglib (stuck.trans hstep.symm) fun _ => Nat.lt_of_le_of_lt lines (hcount ▸ Nat.lt_succ_self _)
  · -- the section reads the header itself and stops on it
    have hbefore : Stuck glib .body before := .last hkind hover
    have hafter : Stuck glib opens before.getline.2 := by
      rw [hgetline]
      exact @Stuck.last glib opens opens { before with fail := true } (kind_of_header hkind) (.inr rfl)
    cases h with
    | stopped free => exact absurd hafter free
    | behind line taglib lines stuck =>
      exact .again taglib (iff_of_true (stuck.mpr hafter) hbefore) fun hfree => absurd hbefore hfree
  · have hbefore : ¬ Stuck glib .body before := not_stuck_of_getline hover (by rw [hgetline])
    cases h with
    | stopped free => exact .done hbefore
    | behind line taglib lines stuck =>
      rw [hgetline] at line
      exact absurd rfl line

/-- One turn of the loop. -/
theorem bodyTurn_spec (htags : converter.taglib = bodyTags) :
    Turned glib converter.input (bodyTurn glib converter) := by
  unfold bodyTurn
  rcases @checkRead_cases glib .body converter htags with
    ⟨stopped, failure, hcheck, hkind⟩ | ⟨answer, hcheck, _, hkind⟩
  · rw [hcheck]
    exact .done (not_stuck_of_kind hkind)
  rw [hcheck]
  dsimp only
  rw [kindOf, if_neg (by simp [itemLine])] at hkind
  split_ifs with hend hunigram hbigram
  · rw [hend, if_neg (by decide), if_neg (by decide)] at hkind
    exact .done (not_stuck_of_kind hkind)
  · rw [if_pos hunigram] at hkind
    refine turned_header hkind (parseUnigram_spec ?_ rfl)
    exact htags
  · rw [if_neg hunigram, if_pos hbigram] at hkind
    refine turned_header hkind (parseBigram_spec ?_ rfl)
    exact htags
  · rw [if_neg hunigram, if_neg hbigram] at hkind
    exact .done (not_stuck_of_kind hkind)

/-! ## The loop over the sections -/

/-- A stream that is stuck is so behind every turn. -/
theorem bodyLoop_eq_none (htags : converter.taglib = bodyTags) (hstuck : Stuck glib .body converter.input)
    (turns : Nat) :
    bodyLoop glib turns converter = none := by
  induction turns generalizing converter with
  | zero => rfl
  | succ turns ih =>
    have hturn := @bodyTurn_spec glib converter htags
    rw [bodyLoop]
    cases hcase : bodyTurn glib converter with
    | done stopped result =>
      rw [hcase] at hturn
      cases hturn with
      | done free => exact absurd hstuck free
    | again next =>
      rw [hcase] at hturn
      cases hturn with
      | again taglib stuck lines => exact ih taglib (stuck.mpr hstuck)

/-- Any other is over, every turn of it one line shorter at least. -/
theorem exists_bodyLoop (htags : converter.taglib = bodyTags) (hfree : ¬ Stuck glib .body converter.input) :
    ∃ turns, (bodyLoop glib turns converter).isSome := by
  induction hcount : lineCount converter.input.rest using Nat.strongRecOn generalizing converter with
  | ind count ih =>
    have hturn := @bodyTurn_spec glib converter htags
    cases hcase : bodyTurn glib converter with
    | done stopped result =>
      refine ⟨1, ?_⟩
      rw [bodyLoop, hcase]
      rfl
    | again next =>
      rw [hcase] at hturn
      cases hturn with
      | again taglib stuck lines =>
        obtain ⟨turns, hturns⟩ := ih _ (hcount ▸ lines hfree) taglib (stuck.not.mpr hfree) rfl
        refine ⟨turns + 1, ?_⟩
        rw [bodyLoop, hcase]
        exact hturns

end Turns

/-! ## The whole text -/

section Text

variable {glib : Glib}

/-- A stream with lines left is stuck behind the next one where all lines are read and the last, which has
no newline, is a header. -/
theorem stuck_getline_iff {lines : List Bytes} {last : Bytes} {within : Section} {reader : LineReader}
    (heof : reader.eof = false) (hfail : reader.fail = false) (hcut : cutLines reader.rest = (lines, last)) :
    (reader.getline.1 = true ∧ Stuck glib within reader.getline.2) ↔
      last ≠ [] ∧ ∃ behind opens, sectionBehind glib within lines = some behind ∧
        kind glib behind (cText last) = some (.header opens) := by
  induction lines generalizing within reader with
  | nil =>
    by_cases hlast : last = []
    · rw [getline_nil heof hfail (rest_eq_nil_of_cutLines (hlast ▸ hcut))]
      simp [hlast]
    · rw [getline_last heof hfail hcut hlast]
      refine ⟨fun ⟨_, hstuck⟩ => ⟨hlast, within, ?_⟩, fun ⟨_, behind, opens, hbehind, hheader⟩ => ⟨rfl, ?_⟩⟩
      · cases hstuck with
        | @last _ opens _ header ended => exact ⟨opens, rfl, header⟩
        | next known more stuck => cases more
      · obtain rfl : within = behind := some.inj hbehind
        exact @Stuck.last glib within opens ⟨[], true, false, last⟩ hheader (.inl rfl)
  | cons line lines ih =>
    obtain ⟨rest, hgetline, hrest⟩ := getline_cons heof hfail hcut
    rw [hgetline, sectionBehind, foldlM_cons]
    cases hkind : kind glib within (cText line) with
    | none =>
      refine iff_of_false (fun ⟨_, hstuck⟩ => not_stuck_of_kind ?_ hstuck) (fun ⟨_, behind, opens, hbehind, _⟩ => ?_)
      · exact hkind
      · cases hbehind
    | some found =>
      have hline := @ih (found.behind within) ⟨rest, false, false, line⟩ rfl rfl hrest
      refine Iff.trans ⟨fun ⟨_, hstuck⟩ => ?_, fun ⟨hmore, hstuck⟩ => ⟨rfl, .next ?_ hmore hstuck⟩⟩ hline
      · cases hstuck with
        | last header ended => simp at ended
        | @next _ other _ known more stuck =>
          obtain rfl : found = other := Option.some.inj (hkind.symm.trans known)
          exact ⟨more, stuck⟩
      · exact hkind

theorem endsOnHeader_iff {text headline last : Bytes} {lines : List Bytes}
    (hcut : cutLines text = (headline :: lines, last)) :
    endsOnHeader glib text = true ↔ isHeadline glib (cText headline) = true ∧ last ≠ [] ∧
      ∃ behind opens, sectionBehind glib .body lines = some behind ∧
        kind glib behind (cText last) = some (.header opens) := by
  unfold endsOnHeader
  rw [hcut]
  dsimp only
  rw [Bool.and_eq_true, Bool.and_eq_true, bne_iff_ne, Option.any_eq_true, and_assoc, and_left_comm]
  refine and_congr Iff.rfl (and_congr Iff.rfl (exists_congr fun behind => ?_))
  cases hkind : kind glib behind (cText last) with
  | none => simp
  | some found =>
    cases found with
    | header opens => simp
    | item => simp

theorem isHeadline_of_read {line : Bytes} {answer : TagLine} {lineType : Int}
    (h : headTags.read glib line lineType = .ok (true, answer)) :
    isHeadline glib line = ((answer.required (ascii "model")).getD [] == ascii "k mixture model") := by
  rw [isHeadline, read_lineType h]

theorem isHeadline_of_not_read {line : Bytes} (lineType : Int)
    (h : ∀ answer, headTags.read glib line lineType ≠ .ok (true, answer)) : isHeadline glib line = false := by
  unfold isHeadline
  split
  · rename_i answer hread
    exact absurd (read_lineType hread lineType) (h answer)
  · rfl

/-- The first line is that of a k mixture model, or the conversion is over. -/
theorem parseHeadline_cases {converter : Converter} (htags : converter.taglib = init) :
    (isHeadline glib converter.input.cStr = false ∧
      ∃ stopped failure, converter.parseHeadline glib = (stopped, .error failure)) ∨
    isHeadline glib converter.input.cStr = true ∧ ∃ next, converter.parseHeadline glib = (next, .ok ()) ∧
      next.input = converter.input ∧ next.taglib = headTags := by
  unfold Converter.parseHeadline Converter.read
  rw [htags]
  dsimp only
  rw [← headTags]
  cases hread : headTags.read glib converter.input.cStr converter.line.lineType with
  | error reason =>
    refine .inl ⟨isHeadline_of_not_read converter.line.lineType fun answer haccepted => ?_, _, _, rfl⟩
    rw [hread] at haccepted
    cases haccepted
  | ok found =>
    obtain ⟨accepted, answer⟩ := found
    cases accepted with
    | false =>
      refine .inl ⟨isHeadline_of_not_read converter.line.lineType fun answer haccepted => ?_, _, _, rfl⟩
      rw [hread] at haccepted
      cases haccepted
    | true =>
      rw [isHeadline_of_read hread]
      by_cases hmodel : (answer.required (ascii "model")).getD [] = ascii "k mixture model"
      · refine .inr ⟨beq_iff_eq.mpr hmodel, ?_⟩
        simp [tagValue, print, hmodel]
      · refine .inl ⟨beq_eq_false_iff_ne.mpr hmodel, ?_⟩
        simp [tagValue, hmodel]

/-- Where the sections start, or the conversion is over before. -/
theorem start_cases (text : Bytes) :
    (∃ stopped, start glib text = .error stopped ∧ endsOnHeader glib text = false) ∨
    ∃ converter, start glib text = .ok converter ∧ converter.taglib = bodyTags ∧
      (Stuck glib .body converter.input ↔ endsOnHeader glib text = true) := by
  unfold start myGetline
  dsimp only
  cases hcut : cutLines text with
  | mk lines last =>
    cases lines with
    | nil =>
      have hends : endsOnHeader glib text = false := by
        unfold endsOnHeader
        rw [hcut]
      by_cases hlast : last = []
      · rw [getline_nil rfl rfl (rest_eq_nil_of_cutLines (hlast ▸ hcut))]
        exact .inl ⟨_, rfl, hends⟩
      · rw [getline_last rfl rfl hcut hlast, if_neg (by simp)]
        rcases @parseHeadline_cases glib ⟨⟨[], true, false, last⟩, [], init, ⟨0, [], fun _ => none⟩⟩ rfl with
          ⟨_, stopped, failure, hparse⟩ | ⟨_, next, hparse, hinput, _⟩
        · rw [hparse]
          exact .inl ⟨_, rfl, hends⟩
        · rw [hparse]
          dsimp only
          rw [hinput]
          exact .inl ⟨_, rfl, hends⟩
    | cons headline lines =>
      obtain ⟨rest, hgetline, hrest⟩ := @getline_cons (LineReader.fromBytes text) headline last lines rfl rfl hcut
      have hiff := @endsOnHeader_iff glib text headline last lines hcut
      have hstuck := @stuck_getline_iff glib lines last .body ⟨rest, false, false, headline⟩ rfl rfl hrest
      rw [hgetline, if_neg (by simp)]
      rcases @parseHeadline_cases glib ⟨⟨rest, false, false, headline⟩, [], init, ⟨0, [], fun _ => none⟩⟩ rfl with
        ⟨hheadline, stopped, failure, hparse⟩ | ⟨hheadline, next, hparse, hinput, htags⟩
      · rw [hparse]
        refine .inl ⟨_, rfl, Bool.eq_false_iff.mpr fun hends => ?_⟩
        have htrue := (hiff.mp hends).1
        rw [show isHeadline glib (cText headline) = false from hheadline] at htrue
        cases htrue
      · have hends := hiff.trans ((and_iff_right hheadline).trans hstuck.symm)
        rw [hparse]
        dsimp only
        rw [hinput]
        split_ifs with hmore
        · refine .inr ⟨_, rfl, ?_, ?_⟩
          · unfold enterBody
            rw [htags]
            rfl
          · exact (hends.trans (and_iff_right hmore)).symm
        · exact .inl ⟨_, rfl, Bool.eq_false_iff.mpr fun htrue => hmore (hends.mp htrue).1⟩

/-- The converters that come to a turn of the loop over the sections. -/
inductive Reached (glib : Glib) (text : Bytes) : Converter → Prop
  | first {converter : Converter} : start glib text = .ok converter → Reached glib text converter
  | turn {converter next : Converter} : Reached glib text converter → bodyTurn glib converter = .again next →
      Reached glib text next

variable {text : Bytes}

/-- Every turn keeps what the text says of the end. -/
theorem Reached.stuck_iff {converter : Converter} (h : Reached glib text converter) :
    converter.taglib = bodyTags ∧ (Stuck glib .body converter.input ↔ endsOnHeader glib text = true) := by
  induction h with
  | first hstart =>
    rcases @start_cases glib text with ⟨stopped, hstopped, _⟩ | ⟨started, hstarted, htags, hstuck⟩
    · rw [hstart] at hstopped
      cases hstopped
    · obtain rfl := Except.ok.inj (hstart.symm.trans hstarted)
      exact ⟨htags, hstuck⟩
  | @turn converter next _ hagain ih =>
    have hturn := @bodyTurn_spec glib converter ih.1
    rw [hagain] at hturn
    cases hturn with
    | again taglib stuck lines => exact ⟨taglib, stuck.trans ih.2⟩

/-- A text that ends on a header is converted without end. -/
theorem convert_eq_none (hends : endsOnHeader glib text = true) (turns : Nat) :
    convert glib turns text = none := by
  rcases @start_cases glib text with ⟨_, _, hfalse⟩ | ⟨converter, hstart, htags, hstuck⟩
  · rw [hends] at hfalse
    cases hfalse
  · rw [convert, hstart]
    dsimp only
    rw [bodyLoop_eq_none htags (hstuck.mpr hends)]
    rfl

/-- The headline an export writes is the first line of a k mixture model. -/
theorem isHeadline_headline (h : glib.Documented) (header : Kmm.MagicHeader) :
    isHeadline glib (headline header) = true := by
  have hread := @TagLib.read_words glib headTags (ascii "\\data") _ _ (splitLine_headline h header)
    ⟨beginLine, ascii "\\data", 0, [ascii "model"], [ascii "count", ascii "N", ascii "total_freq"]⟩ rfl
      (Nat.zero_le _)
    (Function.update (fun _ => none) (ascii "model") (some (ascii "k mixture model"))) rfl (by simp) 0
  rw [isHeadline_of_read hread]
  dsimp only
  rw [Function.update_self]
  exact beq_self_eq_true _

/-- Between the sections the line of the words is a header. -/
theorem kind_gram1 (h : glib.Documented) : kind glib .body (ascii "\\1-gram") = some (.header .unigram) := by
  have hread := @TagLib.read_words glib bodyTags (ascii "\\1-gram") [] _
    (splitFrom_last h (word_tag h "\\1-gram" (by decide))) ⟨gram1Line, ascii "\\1-gram", 0, [], []⟩ rfl
    (Nat.zero_le _) _ rfl (by simp) 0
  rw [@kind_of_read glib _ .body _ _ hread]
  rfl

/-- The conversion of a text ends, and every turn that goes on takes a line, if and only if the text does not end
on a header without a newline that the conversion comes to. -/
theorem convert_terminates_iff (glib : Glib) (text : Bytes) :
    ((∃ turns, (convert glib turns text).isSome) ∧
      ∀ converter next, Reached glib text converter → bodyTurn glib converter = .again next →
        lineCount next.input.rest < lineCount converter.input.rest) ↔
    endsOnHeader glib text = false := by
  constructor
  · rintro ⟨⟨turns, hturns⟩, _⟩
    rw [Bool.eq_false_iff]
    intro hends
    rw [convert_eq_none hends] at hturns
    cases hturns
  · intro hends
    have hfree : ∀ {converter}, Reached glib text converter → ¬ Stuck glib .body converter.input := by
      intro converter hreached
      rw [hreached.stuck_iff.2, hends]
      exact Bool.false_ne_true
    refine ⟨?_, fun converter next hreached hagain => ?_⟩
    · rcases @start_cases glib text with ⟨stopped, hstart, _⟩ | ⟨converter, hstart, htags, _⟩
      · exact ⟨0, by rw [convert, hstart]; rfl⟩
      · obtain ⟨turns, hturns⟩ := exists_bodyLoop htags (hfree (.first hstart))
        refine ⟨turns, ?_⟩
        rw [convert, hstart]
        dsimp only
        rwa [Option.isSome_map]
    · have hturn := @bodyTurn_spec glib converter hreached.stuck_iff.1
      rw [hagain] at hturn
      cases hturn with
      | again taglib stuck lines => exact lines (hfree hreached)

/-- A headline and the header of the words behind it are converted without end. -/
theorem convert_header_forever : ¬ ∃ turns, (convert Kmm.utf8Glib turns
    (ascii "\\data model \"k mixture model\" count 1 N 1 total_freq 1\n\\1-gram")).isSome := by
  have htext : ascii "\\data model \"k mixture model\" count 1 N 1 total_freq 1\n\\1-gram" =
      Kmm.headline ⟨1, 1, 1⟩ ++ 10 :: ascii "\\1-gram" := by
    have hone : decimal (1 : BitVec 32).toInt = ascii "1" := by
      change decimalNat 1 = ascii "1"
      rw [decimalNat]
      rfl
    unfold Kmm.headline Kmm.magicWords
    rw [hone]
    rfl
  have hlow := Kmm.no_control_headline Kmm.utf8Glib_documented ⟨1, 1, 1⟩
  have hcut : cutLines (Kmm.headline ⟨1, 1, 1⟩ ++ 10 :: ascii "\\1-gram") =
      ([Kmm.headline ⟨1, 1, 1⟩], ascii "\\1-gram") := by
    rw [cutLines_append hlow]
    rfl
  have hstr : Kmm.cText (Kmm.headline ⟨1, 1, 1⟩) = Kmm.headline ⟨1, 1, 1⟩ := by
    refine List.takeWhile_eq_self_iff.mpr fun b hb => ?_
    rw [bne_iff_ne]
    rintro rfl
    exact absurd (hlow 0 hb) (by decide)
  have hends : endsOnHeader Kmm.utf8Glib (Kmm.headline ⟨1, 1, 1⟩ ++ 10 :: ascii "\\1-gram") = true := by
    refine (endsOnHeader_iff hcut).mpr ⟨?_, by decide, .body, .unigram, rfl, kind_gram1 Kmm.utf8Glib_documented⟩
    rw [hstr]
    exact isHeadline_headline Kmm.utf8Glib_documented _
  rintro ⟨turns, hturns⟩
  rw [htext, convert_eq_none hends] at hturns
  cases hturns

end Text

end Oxpinyin.KmmInterpolation
