import Mathlib.Data.List.DropRight
import Oxpinyin.InterpGrammar
import Oxpinyin.Lib.Decimal

/-!
# The unigram counts of a model export

The reader takes a model export line by line. The section it is in says how many values an item has
and what becomes of it : the counts of the unigram section are kept, those of the bigram section are
dropped, and an item before any section is refused. It stops at `\end`, or at the bigram section behind
the counts. The records are sorted through an array of indices and a repeated token is refused.

What is read depends on what was read before. `Accepted` says of every line what the lines in front of
it ask of it, and the reader succeeds exactly on such lines (`parseInterpolation2_spec`).
-/

namespace Oxpinyin.InterpGrammar

open List FiniteMap Search Line

abbrev Text := List Char

/-! ## Lines -/

variable {text : Text}

/-- `read_line` : a line with its end, and the text behind it. -/
def readLine (text : Text) : Text × Text :=
  text.splitAt ((text.takeWhile fun c => c ≠ '\n').length + 1)

theorem length_readLine (h : text ≠ []) : (readLine text).2.length < text.length := by
  rw [readLine, splitAt_eq, length_drop]
  have := length_pos_iff.mpr h
  omega

/-- The lines of a reader over a text, each without its end. -/
def textLines (text : Text) : List Text :=
  if _h : text = [] then []
  else (readLine text).1.rdropWhile (fun c => c = '\r' ∨ c = '\n') :: textLines (readLine text).2
termination_by text.length
decreasing_by exact length_readLine _h

/-! ## Records -/

/-- What is wrong with a line, or with the whole. -/
inductive Detail where
  | grammar (error : GrammarError)
  | repeatedData
  | model (found : Text)
  | itemBeforeSection
  | token (text : Text)
  | count (text : Text)
  | zeroCount
  | duplicate (token : BitVec 32)

inductive InterpolationError where
  | parse (line : Nat) (detail : Detail)
  | missingOneGram

/-- The counts by token, and their sum. -/
structure UnigramTable where
  records : List (BitVec 32 × BitVec 64)
  total : Nat

/-- The count of a token, by a binary search. -/
def UnigramTable.count (table : UnigramTable) (token : BitVec 32) : Option (BitVec 64) :=
  match binarySearchBy (fun record => compareOfLessAndEq record.1 token) table.records with
  | .ok index => (table.records[index]?).map Prod.snd
  | .error _ => none

/-- An unstable sort of indices by a key : a rearrangement that ascends. -/
structure IndexSort where
  sort : (Nat → BitVec 32) → List Nat → List Nat
  perm : ∀ key indices, (sort key indices).Perm indices
  ascending : ∀ key indices, (sort key indices).Pairwise fun i j => key i ≤ key j

/-- Sorts the records by token, as many as a word counts. -/
def sortRecords (order : IndexSort) (records : List (BitVec 32 × BitVec 64)) : List (BitVec 32 × BitVec 64) :=
  let count := min records.length (2 ^ 32 - 1)
  let source := fun index => records.getD index (0, 0)
  (order.sort (fun index => (source index).1) (List.range count)).map source ++ records.drop count

/-- `u64::saturating_add`. -/
def saturatingAdd (sum count : Nat) : Nat := min (sum + count) (2 ^ 64 - 1)

/-! ## Sections -/

def unigramValues : Nat := 2

def bigramValues : Nat := 4

/-- Which section the reader is in. -/
inductive Section where
  | header
  | unigram
  | bigram
  deriving DecidableEq

/-- Reads a line with the values an item of the section has. -/
def Section.read (inside : Section) (line : Text) : Except GrammarError Line × List Text :=
  InterpGrammar.read line (List.replicate (if inside = .bigram then bigramValues else unigramValues) [])

structure ReaderState where
  inside : Section
  sawData : Bool
  sawUnigram : Bool
  records : List (BitVec 32 × BitVec 64)

/-- The token and the count of an item of the unigram section. -/
def parseItem (values : List Text) (count : Text) : Except Detail (BitVec 32 × BitVec 64) :=
  let token := values.headD []
  match Decimal.parseUnsigned (2 ^ 32) token, Decimal.parseUnsigned (2 ^ 64) count with
  | none, _ => .error (.token token)
  | _, none => .error (.count count)
  | some token, some count =>
    if count = 0 then .error .zeroCount else .ok (BitVec.ofNat 32 token, BitVec.ofNat 64 count)

namespace ReaderState

/-- Before the first line. -/
def start : ReaderState := ⟨.header, false, false, []⟩

/-- Takes a line that was read, and says whether it is the last. -/
def take (state : ReaderState) (values : List Text) : Line → Except Detail (ReaderState × Bool)
  | .twoGram => if state.sawUnigram then .ok (state, true) else .ok ({ state with inside := .bigram }, false)
  | .stop => .ok (state, true)
  | .oneGram => .ok ({ state with inside := .unigram, sawUnigram := true }, false)
  | .data model =>
    if state.sawData ∨ state.inside ≠ .header then .error .repeatedData
    else if model ≠ "interpolation".toList then .error (.model model)
    else .ok ({ state with sawData := true }, false)
  | .item count =>
    match state.inside with
    | .bigram => .ok (state, false)
    | .header => .error .itemBeforeSection
    | .unigram => (parseItem values count).map fun record =>
      ({ state with records := state.records ++ [record] }, false)

def readOne (state : ReaderState) (line : Text) : Except Detail (ReaderState × Bool) :=
  let found := state.inside.read line
  match found.1 with
  | .error error => .error (.grammar error)
  | .ok parsed => state.take found.2 parsed

/-- The loop over the lines. The number of the line it ends at comes back. -/
def readLines (state : ReaderState) (lineNumber : Nat) : List Text → Except InterpolationError (ReaderState × Nat)
  | [] => .ok (state, lineNumber)
  | line :: rest =>
    match state.readOne line with
    | .error detail => .error (.parse (lineNumber + 1) detail)
    | .ok (state, true) => .ok (state, lineNumber + 1)
    | .ok (state, false) => state.readLines (lineNumber + 1) rest

end ReaderState

open ReaderState

/-- Reads the unigram counts of a model export. -/
def parseInterpolation2 (order : IndexSort) (text : Text) : Except InterpolationError UnigramTable :=
  match ReaderState.start.readLines 0 (textLines text) with
  | .error error => .error error
  | .ok (state, lineNumber) =>
    if state.sawUnigram then
      let records := sortRecords order state.records
      match (records.zip records.tail).find? fun pair => pair.1.1 = pair.2.1 with
      | some pair => .error (.parse lineNumber (.duplicate pair.1.1))
      | none => .ok ⟨records, records.foldl (fun sum record => saturatingAdd sum record.2.toNat) 0⟩
    else .error .missingOneGram

/-! ## What a file must be -/

/-- The tag a line starts with. -/
def tagOf (line : Text) : Option Tag :=
  match next line with
  | some (.ok token, _) =>
    [Tag.data, .oneGram, .twoGram, .stop, .item].find? fun candidate => candidate.literal == token
  | _ => none

/-- The section behind a line. -/
def Section.after (inside : Section) (line : Text) : Section :=
  match tagOf line with
  | some .oneGram => .unigram
  | some .twoGram => .bigram
  | _ => inside

/-- The section of the last section tag. -/
def sectionBehind (front : List Text) : Section := front.foldl Section.after .header

/-- A line opens a section. -/
def Opens (line : Text) : Prop := tagOf line = some .oneGram ∨ tagOf line = some .twoGram

/-- Nothing is read behind a line : the first `\end`, or the bigram section behind the unigram one. -/
def ends (front : List Text) (line : Text) : Bool :=
  tagOf line = some .stop ∨ tagOf line = some .twoGram ∧ ∃ earlier ∈ front, tagOf earlier = some .oneGram

/-- The lines that are read, behind those in front. -/
def linesRead (front : List Text) : List Text → List Text
  | [] => []
  | line :: rest => if ends front line then [line] else line :: linesRead (front ++ [line]) rest

/-- A line as it is read behind those in front. -/
def readBehind (front : List Text) (line : Text) : Except GrammarError Line × List Text :=
  (sectionBehind front).read line

/-- The record of an item of the unigram section. -/
def itemBehind (front : List Text) (line : Text) : Option (BitVec 32 × BitVec 64) :=
  match sectionBehind front, readBehind front line with
  | .unigram, (.ok (.item count), values) => (parseItem values count).toOption
  | _, _ => none

/-- The items of the unigram sections, behind the lines in front. -/
def unigramItems (front : List Text) : List Text → List (BitVec 32 × BitVec 64)
  | [] => []
  | line :: rest => (itemBehind front line).toList ++ unigramItems (front ++ [line]) rest

/-- What the lines in front ask of a line. -/
structure Admitted (front : List Text) (line : Text) : Prop where
  grammar : ∃ parsed, (readBehind front line).1 = .ok parsed
  data : ∀ model, (readBehind front line).1 = .ok (.data model) →
    model = "interpolation".toList ∧ ∀ earlier ∈ front, tagOf earlier ≠ some .data ∧ ¬Opens earlier
  item : ∀ count, (readBehind front line).1 = .ok (.item count) → ∃ earlier ∈ front, Opens earlier
  counted : sectionBehind front = .unigram → ∀ count, (readBehind front line).1 = .ok (.item count) →
    (itemBehind front line).isSome

/-- Lines with the counts of a model. -/
structure Accepted (lines : List Text) : Prop where
  admitted : ∀ front line rest, lines = front ++ line :: rest → Admitted front line
  oneGram : ∃ line ∈ lines, tagOf line = some .oneGram
  distinct : ((unigramItems [] lines).map Prod.fst).Nodup

/-! ## The state behind the lines in front -/

section Behind

variable {front : List Text} {line : Text}

variable {parsed : Line}

theorem readTagged_tag {tag : Tag} {rest : Text} {values : List Text}
    (h : (readTagged tag rest values).1 = .ok parsed) : parsed.tag = tag := by
  rw [readTagged] at h
  split at h
  · cases h
  · split at h
    · cases h
    · rename_i found _
      cases tag with
      | data | item =>
        cases found with
        | none => cases h
        | some value =>
          cases h
          rfl
      | oneGram | twoGram | stop =>
        cases h
        rfl

/-- A line that is read has the tag it starts with. -/
theorem tagOf_of_read {values : List Text} (h : (read line values).1 = .ok parsed) :
    tagOf line = some parsed.tag := by
  rw [read] at h
  rw [tagOf]
  rcases hnext : next line with _ | ⟨error | token, rest⟩
  · rw [hnext] at h
    cases h
  · rw [hnext] at h
    cases h
  · rw [hnext] at h
    dsimp only at h ⊢
    cases hfind : [Tag.data, .oneGram, .twoGram, .stop, .item].find? fun candidate => candidate.literal == token with
    | none =>
      rw [hfind] at h
      cases h
    | some tag =>
      rw [hfind] at h
      rw [readTagged_tag h]

theorem tagOf_of_readBehind (h : (readBehind front line).1 = .ok parsed) : tagOf line = some parsed.tag :=
  tagOf_of_read h

theorem sectionBehind_snoc (front : List Text) (line : Text) :
    sectionBehind (front ++ [line]) = (sectionBehind front).after line := by
  rw [sectionBehind, foldl_append]
  rfl

theorem unigramItems_snoc (front lines : List Text) (line : Text) :
    unigramItems front (lines ++ [line]) = unigramItems front lines ++ (itemBehind (front ++ lines) line).toList := by
  induction lines generalizing front with
  | nil =>
    rw [nil_append, unigramItems, unigramItems, unigramItems, append_nil, append_nil, nil_append]
  | cons head lines ih =>
    rw [cons_append, unigramItems, unigramItems, ih, append_assoc, append_assoc, singleton_append]

/-- No section was opened where the reader is in front of all. -/
theorem sectionBehind_eq_header : ∀ {front : List Text},
    sectionBehind front = .header ↔ ∀ earlier ∈ front, ¬Opens earlier := by
  intro front
  induction front using List.reverseRecOn with
  | nil => exact ⟨fun _ => by simp, fun _ => rfl⟩
  | append_singleton front line ih =>
    rw [sectionBehind_snoc, Section.after, forall_mem_append, forall_mem_singleton, ← ih, Opens]
    split
    · rename_i htag
      exact ⟨nofun, fun h => absurd (Or.inl htag) h.2⟩
    · rename_i htag
      exact ⟨nofun, fun h => absurd (Or.inr htag) h.2⟩
    · rename_i hone htwo
      exact ⟨fun h => ⟨h, not_or.mpr ⟨hone, htwo⟩⟩, And.left⟩

/-- The state of a reader that took the lines in front. -/
def behind (front : List Text) : ReaderState where
  inside := sectionBehind front
  sawData := decide (∃ earlier ∈ front, tagOf earlier = some .data)
  sawUnigram := decide (∃ earlier ∈ front, tagOf earlier = some .oneGram)
  records := unigramItems [] front

theorem behind_snoc (front : List Text) (line : Text) : behind (front ++ [line]) =
    { inside := (sectionBehind front).after line
      sawData := (behind front).sawData || decide (tagOf line = some .data)
      sawUnigram := (behind front).sawUnigram || decide (tagOf line = some .oneGram)
      records := (behind front).records ++ (itemBehind front line).toList } := by
  have hany : ∀ tag : Tag, (decide (∃ earlier ∈ front ++ [line], tagOf earlier = some tag)) =
      (decide (∃ earlier ∈ front, tagOf earlier = some tag) || decide (tagOf line = some tag)) := by
    intro tag
    rw [← Bool.decide_or]
    refine decide_eq_decide.mpr ?_
    simp [or_and_right, exists_or]
  rw [behind, sectionBehind_snoc, unigramItems_snoc, hany, hany, nil_append]
  rfl

/-- An item is the only line with a record. -/
theorem itemBehind_eq_none (h : (readBehind front line).1 = .ok parsed) (hitem : parsed.tag ≠ .item) :
    itemBehind front line = none := by
  rw [itemBehind]
  split
  · rename_i count values _ hread
    rw [hread] at h
    cases h
    exact absurd rfl hitem
  · rfl

theorem itemBehind_unigram (hsection : sectionBehind front = .unigram) {count : Text}
    (h : (readBehind front line).1 = .ok (.item count)) :
    itemBehind front line = (parseItem (readBehind front line).2 count).toOption := by
  have hread : readBehind front line = (.ok (.item count), (readBehind front line).2) := Prod.ext h rfl
  rw [itemBehind, hsection, hread]

theorem itemBehind_bigram (hsection : sectionBehind front = .bigram) : itemBehind front line = none := by
  rw [itemBehind, hsection]

/-- A line that the lines in front admit is taken, and ends the reading or moves the state on. -/
theorem readOne_of_admitted (h : Admitted front line) :
    (behind front).readOne line =
      .ok (if ends front line then (behind front, true) else (behind (front ++ [line]), false)) := by
  obtain ⟨parsed, hparsed⟩ := h.grammar
  have htag := tagOf_of_readBehind hparsed
  have hread : (behind front).readOne line = (behind front).take (readBehind front line).2 parsed := by
    rw [readOne]
    change (match (readBehind front line).1 with
      | .error error => Except.error (Detail.grammar error)
      | .ok parsed => (behind front).take (readBehind front line).2 parsed) = _
    rw [hparsed]
  rw [hread, ends, behind_snoc, Section.after, htag]
  cases parsed with
  | data model =>
    obtain ⟨hmodel, hfirst⟩ := h.data model hparsed
    have hdata : (behind front).sawData = false := decide_eq_false fun ⟨earlier, hin, hearlier⟩ =>
      (hfirst earlier hin).1 hearlier
    have hheader : (behind front).inside = .header :=
      sectionBehind_eq_header.mpr fun earlier hin => (hfirst earlier hin).2
    rw [ReaderState.take, if_neg (by simp [hdata, hheader]), if_neg (not_not.mpr hmodel),
      itemBehind_eq_none hparsed nofun]
    simp [tag, behind]
  | oneGram =>
    rw [ReaderState.take, itemBehind_eq_none hparsed nofun]
    simp [tag]
  | twoGram =>
    rw [ReaderState.take, itemBehind_eq_none hparsed nofun]
    by_cases hsaw : ∃ earlier ∈ front, tagOf earlier = some .oneGram
    · simp [tag, behind, hsaw]
    · simp [tag, behind, hsaw]
  | stop =>
    rw [ReaderState.take]
    simp [tag]
  | item count =>
    obtain ⟨earlier, hin, hopens⟩ := h.item count hparsed
    cases hsection : sectionBehind front with
    | header => exact absurd hopens (sectionBehind_eq_header.mp hsection earlier hin)
    | bigram =>
      have hinside : (behind front).inside = .bigram := hsection
      rw [ReaderState.take, hinside, itemBehind_bigram hsection]
      simp [tag, behind, hsection]
    | unigram =>
      have hinside : (behind front).inside = .unigram := hsection
      have hsome := h.counted hsection count hparsed
      rw [itemBehind_unigram hsection hparsed] at hsome ⊢
      cases hitem : parseItem (readBehind front line).2 count with
      | error detail =>
        rw [hitem] at hsome
        cases hsome
      | ok record =>
        rw [ReaderState.take, hinside, hitem]
        simp [tag, behind, hsection, Except.map, Except.toOption]

/-- A line that is taken is admitted. -/
theorem admitted_of_readOne {after : ReaderState × Bool} (h : (behind front).readOne line = .ok after) :
    Admitted front line := by
  have hread : (match (readBehind front line).1 with
      | .error error => Except.error (Detail.grammar error)
      | .ok parsed => (behind front).take (readBehind front line).2 parsed) = .ok after := h
  cases hparsed : (readBehind front line).1 with
  | error error =>
    rw [hparsed] at hread
    cases hread
  | ok parsed =>
    rw [hparsed] at hread
    dsimp only at hread
    refine ⟨⟨parsed, hparsed⟩, fun model hmodel => ?_, fun count hcount => ?_, fun hsection count hcount => ?_⟩
    · rw [hparsed] at hmodel
      cases hmodel
      rw [ReaderState.take] at hread
      split_ifs at hread with hrepeated hmodel
      obtain ⟨hdata, hheader⟩ := not_or.mp hrepeated
      refine ⟨not_not.mp hmodel, fun earlier hin => ⟨fun hearlier => ?_, ?_⟩⟩
      · exact hdata (decide_eq_true ⟨earlier, hin, hearlier⟩)
      · exact sectionBehind_eq_header.mp (not_not.mp hheader) earlier hin
    · rw [hparsed] at hcount
      cases hcount
      by_contra hnone
      have hheader : (behind front).inside = .header :=
        sectionBehind_eq_header.mpr fun earlier hin hopens => hnone ⟨earlier, hin, hopens⟩
      rw [ReaderState.take, hheader] at hread
      cases hread
    · have hinside : (behind front).inside = .unigram := hsection
      rw [itemBehind_unigram hsection hcount]
      rw [hparsed] at hcount
      cases hcount
      rw [ReaderState.take, hinside] at hread
      obtain ⟨record, hrecord, _⟩ := Run.map_eq_ok hread
      rw [hrecord]
      rfl

end Behind

/-! ## The loop -/

/-- Every line is admitted by those in front of it. -/
def AdmittedFrom (front part : List Text) : Prop :=
  ∀ before line after, part = before ++ line :: after → Admitted (front ++ before) line

theorem admittedFrom_nil (front : List Text) : AdmittedFrom front [] := fun before line after h => by
  cases before <;> cases h

theorem admittedFrom_cons {front part : List Text} {line : Text} :
    AdmittedFrom front (line :: part) ↔ Admitted front line ∧ AdmittedFrom (front ++ [line]) part := by
  constructor
  · refine fun h => ⟨?_, fun before next after heq => ?_⟩
    · rw [← append_nil front]
      exact h [] line part rfl
    · rw [append_assoc, singleton_append]
      exact h (line :: before) next after (by rw [heq, cons_append])
  · rintro ⟨hline, hpart⟩ before next after heq
    cases before with
    | nil =>
      obtain ⟨rfl, _⟩ := List.cons.inj heq
      rwa [append_nil]
    | cons head before =>
      obtain ⟨rfl, hrest⟩ := List.cons.inj heq
      have hnext := hpart before next after hrest
      rwa [append_assoc, singleton_append] at hnext

/-- A line that ends the reading holds no record and opens no unigram section. -/
theorem behind_of_ends {front : List Text} {line : Text} (h : Admitted front line) (hends : ends front line = true) :
    (behind (front ++ [line])).sawUnigram = (behind front).sawUnigram ∧
      (behind (front ++ [line])).records = (behind front).records := by
  obtain ⟨parsed, hparsed⟩ := h.grammar
  have htag := tagOf_of_readBehind hparsed
  have hkind : tagOf line ≠ some .oneGram ∧ parsed.tag ≠ .item := by
    rcases of_decide_eq_true hends with hstop | ⟨htwo, _⟩
    · rw [hstop] at htag
      exact ⟨by rw [hstop]; exact nofun, by rw [← Option.some.inj htag]; exact nofun⟩
    · rw [htwo] at htag
      exact ⟨by rw [htwo]; exact nofun, by rw [← Option.some.inj htag]; exact nofun⟩
  rw [behind_snoc, itemBehind_eq_none hparsed hkind.2, decide_eq_false hkind.1]
  exact ⟨Bool.or_false _, append_nil _⟩

/-- The loop ends behind the lines that are read, if each is admitted. -/
theorem readLines_of_admitted : ∀ {lines front : List Text} {lineNumber : Nat},
    AdmittedFrom front (linesRead front lines) → ∃ state stop,
      (behind front).readLines lineNumber lines = .ok (state, stop) ∧
        state.sawUnigram = (behind (front ++ linesRead front lines)).sawUnigram ∧
        state.records = (behind (front ++ linesRead front lines)).records
  | [], front, lineNumber, _ => ⟨behind front, lineNumber, rfl, by rw [linesRead, append_nil],
      by rw [linesRead, append_nil]⟩
  | line :: rest, front, lineNumber, h => by
    rw [linesRead] at h ⊢
    by_cases hends : ends front line = true
    · rw [if_pos hends] at h ⊢
      obtain ⟨hline, _⟩ := admittedFrom_cons.mp h
      obtain ⟨hsaw, hrecords⟩ := behind_of_ends hline hends
      refine ⟨behind front, lineNumber + 1, ?_, hsaw.symm, hrecords.symm⟩
      rw [readLines, readOne_of_admitted hline, if_pos hends]
    · rw [if_neg hends] at h ⊢
      obtain ⟨hline, hrest⟩ := admittedFrom_cons.mp h
      obtain ⟨state, stop, hrun, hsaw, hrecords⟩ := @readLines_of_admitted rest (front ++ [line])
        (lineNumber + 1) hrest
      refine ⟨state, stop, ?_, ?_, ?_⟩
      · rw [readLines, readOne_of_admitted hline, if_neg hends]
        exact hrun
      · rw [hsaw, append_assoc, singleton_append]
      · rw [hrecords, append_assoc, singleton_append]

/-- A loop that ends admitted every line that was read. -/
theorem admitted_of_readLines : ∀ {lines front : List Text} {lineNumber : Nat} {result : ReaderState × Nat},
    (behind front).readLines lineNumber lines = .ok result → AdmittedFrom front (linesRead front lines)
  | [], front, _, _, _ => admittedFrom_nil front
  | line :: rest, front, lineNumber, result, h => by
    rw [readLines] at h
    have hline : Admitted front line := by
      cases hone : (behind front).readOne line with
      | error detail =>
        rw [hone] at h
        cases h
      | ok after => exact admitted_of_readOne hone
    rw [readOne_of_admitted hline] at h
    rw [linesRead]
    by_cases hends : ends front line = true
    · rw [if_pos hends]
      exact admittedFrom_cons.mpr ⟨hline, admittedFrom_nil _⟩
    · rw [if_neg hends] at h ⊢
      exact admittedFrom_cons.mpr ⟨hline, admitted_of_readLines h⟩

theorem length_linesRead : ∀ lines front : List Text, (linesRead front lines).length ≤ lines.length
  | [], _ => Nat.le_refl 0
  | line :: rest, front => by
    rw [linesRead]
    split_ifs
    · exact Nat.succ_le_succ (Nat.zero_le _)
    · exact Nat.succ_le_succ (length_linesRead rest _)

theorem length_unigramItems : ∀ lines front : List Text, (unigramItems front lines).length ≤ lines.length
  | [], _ => Nat.le_refl 0
  | line :: rest, front => by
    have hitem : (itemBehind front line).toList.length ≤ 1 := by
      cases itemBehind front line <;> simp
    have hrest := length_unigramItems rest (front ++ [line])
    rw [unigramItems, length_append, length_cons]
    omega

/-! ## Sorted records -/

section Records

variable {records : List (BitVec 32 × BitVec 64)}

theorem map_getD_range (records : List (BitVec 32 × BitVec 64)) :
    ((List.range records.length).map fun index => records.getD index (0, 0)) = records := by
  refine ext_getElem (by simp) fun i hi hi' => ?_
  rw [getElem_map, getElem_range, getD_eq_getElem?_getD, getElem?_eq_getElem hi', Option.getD_some]

/-- The records sorted through their indices, where a word counts them. -/
theorem sortRecords_spec (order : IndexSort) (h : records.length < 2 ^ 32) :
    (sortRecords order records).Perm records ∧ (sortRecords order records).Pairwise fun a b => a.1 ≤ b.1 := by
  have hcount : min records.length (2 ^ 32 - 1) = records.length := by omega
  have hsorted : sortRecords order records =
      (order.sort (fun index => (records.getD index (0, 0)).1) (List.range records.length)).map fun index =>
        records.getD index (0, 0) := by
    rw [sortRecords, hcount, drop_length, append_nil]
  rw [hsorted]
  refine ⟨?_, pairwise_map.mpr (order.ascending _ _)⟩
  have hperm := (order.perm (fun index => (records.getD index (0, 0)).1) (List.range records.length)).map
    fun index => records.getD index (0, 0)
  rwa [map_getD_range] at hperm

/-- Sorted records have no neighbours of one token exactly when the tokens are distinct. -/
theorem find?_neighbours (h : records.Pairwise fun a b => a.1 ≤ b.1) :
    ((records.zip records.tail).find? fun pair => pair.1.1 = pair.2.1) = none ↔
      records.Pairwise fun a b => a.1 < b.1 := by
  have hlt := @all_zip_tail_iff _ (fun a b : BitVec 32 × BitVec 64 => a.1 < b.1) _
    (fun a b c => BitVec.lt_trans) records
  rw [← hlt, find?_eq_none, all_eq_true]
  refine forall₂_congr fun pair hpair => ?_
  have hle : pair.1.1 ≤ pair.2.1 := by
    have hall := (@all_zip_tail_iff _ (fun a b : BitVec 32 × BitVec 64 => a.1 ≤ b.1) _
      (fun a b c => BitVec.le_trans) records).mpr h
    exact of_decide_eq_true (all_eq_true.mp hall pair hpair)
  rw [decide_eq_true_eq, decide_eq_true_eq]
  exact ⟨fun hne => BitVec.lt_of_le_ne hle hne, fun hlt => ne_of_lt hlt⟩

theorem pairwise_lt_iff (h : records.Pairwise fun a b => a.1 ≤ b.1) :
    (records.Pairwise fun a b => a.1 < b.1) ↔ (records.map Prod.fst).Nodup := by
  rw [List.Nodup, pairwise_map]
  refine ⟨fun hlt => hlt.imp fun hab => FiniteMap.ne_of_lt hab, fun hne => (h.and hne).imp fun {a b} hab => ?_⟩
  exact BitVec.lt_of_le_ne hab.1 hab.2

/-- A search answers as the map its records list. -/
theorem UnigramTable.count_eq {table : UnigramTable} {m : BitVec 32 → Option (BitVec 64)}
    (h : Lists table.records m) (token : BitVec 32) : table.count token = m token := by
  obtain ⟨front, back, hrecords, hfront, hback⟩ := h.split token
  have hsearch := @binarySearchBy_spec _ (fun record : BitVec 32 × BitVec 64 =>
    compareOfLessAndEq record.1 token) front
    ((m token).map (Prod.mk token)) back (fun record hin => if_pos (hfront record hin))
    (fun record hin => by
      obtain ⟨count, _, rfl⟩ := Option.map_eq_some_iff.mp hin
      simp [compareOfLessAndEq])
    (fun record hin => by
      have hge : ¬record.1 < token := lt_asymm (hback record hin)
      simp [compareOfLessAndEq, hge, (ne_of_lt (hback record hin)).symm])
  rw [← hrecords] at hsearch
  rw [UnigramTable.count, hsearch]
  cases hm : m token with
  | none => rfl
  | some count =>
    have hget : table.records[front.length]? = some (token, count) := by
      rw [hrecords, hm]
      simp
    simp [hget]

theorem foldl_saturatingAdd : ∀ (records : List (BitVec 32 × BitVec 64)) {sum : Nat}, sum ≤ 2 ^ 64 - 1 →
    records.foldl (fun sum record => saturatingAdd sum record.2.toNat) sum =
      min (sum + (records.map fun record => record.2.toNat).sum) (2 ^ 64 - 1)
  | [], sum, h => by
    rw [foldl_nil, map_nil, sum_nil, Nat.add_zero, Nat.min_eq_left h]
  | record :: rest, sum, h => by
    have hnext : saturatingAdd sum record.2.toNat ≤ 2 ^ 64 - 1 := Nat.min_le_right _ _
    rw [foldl_cons, foldl_saturatingAdd rest hnext, map_cons, sum_cons, saturatingAdd]
    omega

end Records

/-! ## The whole text -/

theorem behind_nil : behind [] = start := by
  simp [behind, start, sectionBehind, unigramItems]

/-- Where every line is admitted, the text is read if a unigram section was opened and no token repeated. -/
theorem parse_of_admitted (order : IndexSort) (h : AdmittedFrom [] (linesRead [] (textLines text))) :
    ∃ lineNumber, parseInterpolation2 order text =
      if (behind (linesRead [] (textLines text))).sawUnigram then
        let records := sortRecords order (unigramItems [] (linesRead [] (textLines text)))
        match (records.zip records.tail).find? fun pair => pair.1.1 = pair.2.1 with
        | some pair => .error (.parse lineNumber (.duplicate pair.1.1))
        | none => .ok ⟨records, records.foldl (fun sum record => saturatingAdd sum record.2.toNat) 0⟩
      else .error .missingOneGram := by
  obtain ⟨state, stop, hrun, hsaw, hrecords⟩ := @readLines_of_admitted (textLines text) [] 0 h
  rw [behind_nil] at hrun
  rw [nil_append] at hsaw hrecords
  refine ⟨stop, ?_⟩
  rw [parseInterpolation2, hrun]
  dsimp only
  rw [hsaw, hrecords]
  rfl

theorem admitted_of_parse {order : IndexSort} {table : UnigramTable}
    (h : parseInterpolation2 order text = .ok table) : AdmittedFrom [] (linesRead [] (textLines text)) := by
  rw [parseInterpolation2, ← behind_nil] at h
  cases hrun : (behind []).readLines 0 (textLines text) with
  | error error =>
    rw [hrun] at h
    cases h
  | ok result => exact admitted_of_readLines hrun

/-- A text is read exactly when every line up to the end of the counts is what the lines in front ask of
it, a unigram section was opened and its tokens are distinct. The table then holds exactly its items. -/
theorem parseInterpolation2_spec (order : IndexSort) {text : Text} (hlines : (textLines text).length < 2 ^ 32) :
    ((∃ table, parseInterpolation2 order text = .ok table) ↔ Accepted (linesRead [] (textLines text))) ∧
      ∀ table, parseInterpolation2 order text = .ok table →
        let items := unigramItems [] (linesRead [] (textLines text))
        table.records.Perm items ∧ table.records.Pairwise (fun a b => a.1 < b.1) ∧
          (∀ token count, table.count token = some count ↔ (token, count) ∈ items) ∧
          table.total = min (items.map fun item => item.2.toNat).sum (2 ^ 64 - 1) := by
  set part := linesRead [] (textLines text) with hpart
  have hlength : (unigramItems [] part).length < 2 ^ 32 := by
    have hitems := length_unigramItems part []
    have hread : part.length ≤ (textLines text).length := length_linesRead (textLines text) []
    omega
  obtain ⟨hperm, hsorted⟩ := sortRecords_spec order hlength
  have hnodup : ((sortRecords order (unigramItems [] part)).map Prod.fst).Nodup ↔
      ((unigramItems [] part).map Prod.fst).Nodup := (hperm.map Prod.fst).nodup_iff
  have hneighbours := (find?_neighbours hsorted).trans ((pairwise_lt_iff hsorted).trans hnodup)
  have hread : ∀ table, parseInterpolation2 order text = .ok table → Accepted part ∧
      table.records = sortRecords order (unigramItems [] part) ∧
      table.total = table.records.foldl (fun sum record => saturatingAdd sum record.2.toNat) 0 := by
    intro table h
    have hadmitted := admitted_of_parse h
    obtain ⟨lineNumber, heq⟩ := parse_of_admitted order hadmitted
    rw [h, ← hpart] at heq
    split_ifs at heq with hsaw
    dsimp only at heq
    cases hfind : (((sortRecords order (unigramItems [] part)).zip
        (sortRecords order (unigramItems [] part)).tail).find? fun pair => pair.1.1 = pair.2.1) with
    | some pair =>
      rw [hfind] at heq
      cases heq
    | none =>
      rw [hfind] at heq
      cases heq
      exact ⟨⟨hadmitted, of_decide_eq_true hsaw, hneighbours.mp hfind⟩, rfl, rfl⟩
  refine ⟨⟨fun ⟨table, h⟩ => (hread table h).1, fun h => ?_⟩, fun table h => ?_⟩
  · obtain ⟨lineNumber, heq⟩ := parse_of_admitted order h.admitted
    rw [← hpart, if_pos (show (behind part).sawUnigram = true from decide_eq_true h.oneGram)] at heq
    dsimp only at heq
    rw [hneighbours.mpr h.distinct] at heq
    exact ⟨_, heq⟩
  · obtain ⟨haccepted, hrecords, htotal⟩ := hread table h
    have hlt : table.records.Pairwise fun a b => a.1 < b.1 :=
      hrecords ▸ (pairwise_lt_iff hsorted).mpr (hnodup.mpr haccepted.distinct)
    have hitems : table.records.Perm (unigramItems [] part) := hrecords ▸ hperm
    obtain ⟨m, hm⟩ := exists_lists hlt
    refine ⟨hitems, hlt, fun token count => ?_, ?_⟩
    · rw [UnigramTable.count_eq hm, ← hm.mem, hitems.mem_iff]
    · rw [htotal, foldl_saturatingAdd _ (Nat.zero_le _), Nat.zero_add]
      congr 1
      exact (hitems.map fun item => item.2.toNat).sum_eq

/-- A stable sort is one. -/
def stableOrder : IndexSort where
  sort key indices := indices.mergeSort fun i j => key i ≤ key j
  perm key indices := List.mergeSort_perm indices _
  ascending key indices := by
    refine (List.pairwise_mergeSort (fun a b c hab hbc => ?_) (fun a b => ?_) indices).imp of_decide_eq_true
    · exact decide_eq_true (BitVec.le_trans (of_decide_eq_true hab) (of_decide_eq_true hbc))
    · rw [← Bool.decide_or]
      exact decide_eq_true (Nat.le_total (key a).toNat (key b).toNat)

/-- A model's name, and a section whose items descend. -/
def twoItems : Text := "\\data model interpolation\n\\1-gram\n\\item 12 乙 count 7\n\\item 10 甲 count 5\n".toList

theorem length_twoItems : (textLines twoItems).length = 4 := by with_unfolding_all rfl

/-- The reader takes the items as they come. -/
theorem readLines_twoItems : start.readLines 0 (textLines twoItems) =
    .ok (⟨.unigram, true, true, [(12, 7), (10, 5)]⟩, 4) := by
  with_unfolding_all rfl

theorem parseInterpolation2_spec_twoItems : ∃ table : UnigramTable,
    parseInterpolation2 stableOrder twoItems = .ok table ∧ table.count 10 = some 5 ∧
      table.records = [(10, 5), (12, 7)] ∧
      Accepted (linesRead [] (textLines twoItems)) := by
  have hsort : sortRecords stableOrder [(12, 7), (10, 5)] = [(10, 5), (12, 7)] := by
    simp [sortRecords, stableOrder, range_succ, mergeSort, MergeSort.Internal.splitInTwo]
  have hrun : parseInterpolation2 stableOrder twoItems = .ok ⟨[(10, 5), (12, 7)], 12⟩ := by
    rw [parseInterpolation2, readLines_twoItems]
    dsimp only
    rw [if_pos rfl, hsort]
    rfl
  obtain ⟨hiff, hspec⟩ := parseInterpolation2_spec stableOrder (show (textLines twoItems).length < 2 ^ 32 by
    rw [length_twoItems]
    decide)
  obtain ⟨hitems, _, hcount, _⟩ := hspec _ hrun
  exact ⟨_, hrun, (hcount 10 5).mpr (hitems.mem_iff.mp (by simp)), rfl, hiff.mp ⟨_, hrun⟩⟩

end Oxpinyin.InterpGrammar
