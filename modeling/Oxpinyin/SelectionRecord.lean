import Oxpinyin.ConstraintRuns
import Oxpinyin.PhraseTexts
import Mathlib.Data.List.Forall2

/-!
# The selection record

The record holds the text chosen so far twice, as one text and as the parts it joins. Beside it runs
the list of the pieces of the buffer that the parts stand for : a chosen phrase at its span, a gap
with the buffer it is read from. `faithful_iff` : along a run the parts join to the text and are the
texts of ascending disjoint pieces exactly when every step is guarded. The guard of a rebuild asks
that the ends of each gap are in the buffer, on character boundaries. A gap that is not is dropped.
-/

namespace Oxpinyin

open List Option PhraseText Run PhraseTextConcat List.Forall₂

/-! ## Positions in a buffer -/

/-- The characters of a buffer below a byte position and those above, none inside a character or past
the end. -/
def splitBytes : List Char → Nat → Option (List Char × List Char)
  | text, 0 => some ([], text)
  | [], _ + 1 => none
  | c :: text, n + 1 =>
    if c.utf8Size ≤ n + 1 then (splitBytes text (n + 1 - c.utf8Size)).map fun split => (c :: split.1, split.2)
    else none

/-- `str::is_char_boundary`. -/
def isBoundary (text : List Char) (position : Nat) : Bool := (splitBytes text position).isSome

/-- `str::get` of a range. -/
def getRange (text : List Char) (start stop : Nat) : Option (List Char) :=
  if start ≤ stop then
    (splitBytes text start).bind fun split => (splitBytes split.2 (stop - start)).map (·.1)
  else none

/-- The characters of a buffer over a span. -/
def TextAt (raw : List Char) (start stop : Nat) (text : List Char) : Prop :=
  ∃ before after, raw = before ++ text ++ after ∧ (strBytes before).length = start ∧
    start + (strBytes text).length = stop

theorem strBytes_cons (c : Char) (text : List Char) :
    (strBytes (c :: text)).length = c.utf8Size + (strBytes text).length := by
  simp [strBytes]

/-- A split at a byte falls between characters. -/
theorem splitBytes_eq_some : ∀ {text : List Char} {n : Nat} {front back : List Char},
    splitBytes text n = some (front, back) ↔ text = front ++ back ∧ (strBytes front).length = n
  | text, 0, front, back => by
    cases front with
    | nil => simp [splitBytes, strBytes]
    | cons c front =>
      have hpos := Char.utf8Size_pos c
      rw [strBytes_cons]
      simp [splitBytes]
      omega
  | [], n + 1, front, back => by
    cases front with
    | nil => simp [splitBytes, strBytes]
    | cons c front => simp [splitBytes]
  | c :: text, n + 1, front, back => by
    have hpos := Char.utf8Size_pos c
    rw [splitBytes]
    cases front with
    | nil => simp [strBytes]
    | cons first front =>
      rw [strBytes_cons]
      split_ifs with hle
      · simp only [map_eq_some_iff, Prod.exists, Prod.mk.injEq, List.cons.injEq, cons_append]
        constructor
        · rintro ⟨front, back, hsplit, ⟨rfl, rfl⟩, rfl⟩
          obtain ⟨rfl, hlength⟩ := splitBytes_eq_some.mp hsplit
          exact ⟨⟨rfl, rfl⟩, by omega⟩
        · rintro ⟨⟨rfl, rfl⟩, hlength⟩
          exact ⟨front, back, splitBytes_eq_some.mpr ⟨rfl, by omega⟩, ⟨rfl, rfl⟩, rfl⟩
      · constructor
        · intro h
          cases h
        · rintro ⟨hcons, hlength⟩
          cases hcons
          omega

/-- A range that is found is the text at its span. -/
theorem getRange_eq_some {raw : List Char} {start stop : Nat} {text : List Char} :
    getRange raw start stop = some text ↔ TextAt raw start stop text := by
  unfold getRange TextAt
  split_ifs with hle
  · simp only [bind_eq_some_iff, map_eq_some_iff, Prod.exists]
    constructor
    · rintro ⟨before, rest, hsplit, front, after, hsplit', rfl⟩
      obtain ⟨rfl, hbefore⟩ := splitBytes_eq_some.mp hsplit
      obtain ⟨rfl, hfront⟩ := splitBytes_eq_some.mp hsplit'
      exact ⟨before, after, by simp, hbefore, by omega⟩
    · rintro ⟨before, after, rfl, hbefore, hstop⟩
      exact ⟨before, text ++ after, splitBytes_eq_some.mpr ⟨by simp, hbefore⟩, text, after,
        splitBytes_eq_some.mpr ⟨rfl, by omega⟩, rfl⟩
  · constructor
    · intro h
      cases h
    · rintro ⟨_, _, _, _, hstop⟩
      omega

/-- A range is found between boundaries. -/
theorem isSome_getRange {raw : List Char} {start stop : Nat} (hle : start ≤ stop) :
    (getRange raw start stop).isSome ↔ isBoundary raw start = true ∧ isBoundary raw stop = true := by
  unfold isBoundary
  simp only [isSome_iff_exists, Prod.exists, splitBytes_eq_some, getRange_eq_some]
  constructor
  · rintro ⟨text, before, after, rfl, hbefore, hstop⟩
    refine ⟨⟨before, text ++ after, by simp, hbefore⟩, before ++ text, after, by simp, ?_⟩
    rw [← hstop, ← hbefore]
    simp [strBytes]
  · rintro ⟨⟨before, rest, hraw, hbefore⟩, front, after, hraw', hfront⟩
    have happend := hraw.symm.trans hraw'
    rcases append_eq_append_iff.mp happend with ⟨text, rfl, rfl⟩ | ⟨text, rfl, rfl⟩
    · refine ⟨text, before, after, by rw [hraw', append_assoc], hbefore, ?_⟩
      rw [← hfront, ← hbefore]
      simp [strBytes]
    · refine ⟨[], front ++ text, rest, by simp [hraw], hbefore, ?_⟩
      have hempty : (strBytes (front ++ text)).length = (strBytes front).length + (strBytes text).length := by
        simp [strBytes]
      simp only [strBytes, flatMap_nil, length_nil]
      omega

/-! ## The record -/

/-- The selections of a composition. -/
structure SelectionRecord where
  selected : PhraseText
  parts : List PhraseText
  consumed : Nat
  history : List PhraseToken
  committed : Bool

/-- A rebuild under way. -/
structure Rebuild where
  selected : PhraseTextConcat
  cursor : Nat
  history : List PhraseToken
  parts : List PhraseText

section Record

variable (wordMax : Nat)

/-- The text that parts join to. -/
def joined (parts : List PhraseText) : PhraseText := (parts.foldl (PhraseTextConcat.push wordMax) .new).finish

namespace SelectionRecord

def new : SelectionRecord := ⟨.scalar [], [], 0, [], false⟩

def clear (_ : SelectionRecord) : SelectionRecord := new

/-- The last boundary at or below a position. -/
def floorBoundary (raw : List Char) : Nat → Nat
  | 0 => 0
  | n + 1 => if isBoundary raw (n + 1) then n + 1 else floorBoundary raw n

section

variable (record : SelectionRecord)

def clampConsumed (raw : List Char) : SelectionRecord :=
  { record with consumed := floorBoundary raw (min record.consumed (strBytes raw).length) }

def appendSelected (gap : List Char) (text : PhraseText) : SelectionRecord :=
  { record with
    selected := joined wordMax [record.selected, fromStr gap, text]
    parts := record.parts ++ (if gap = [] then [] else [fromStr gap]) ++ [text] }

def setSelected (text : PhraseText) (parts : List PhraseText) : SelectionRecord :=
  { record with selected := text, parts := parts }

def pushToken (token : PhraseToken) : SelectionRecord :=
  { record with history := record.history ++ [token] }

def resetHistoryExtend (base extra : List PhraseToken) : SelectionRecord :=
  { record with history := base ++ extra }

def setConsumed (consumed : Nat) : SelectionRecord :=
  { record with consumed := consumed }

def setCommitted (committed : Bool) : SelectionRecord :=
  { record with committed := committed }

end

/-- One forced run : the gap before it, when the buffer has it, and its text. -/
def rebuildRun (raw : List Char) (rebuild : Rebuild) (run : Nat × Nat × PhraseToken × PhraseText) : Rebuild :=
  let gapped :=
    if rebuild.cursor < run.1 then
      match getRange raw rebuild.cursor run.1 with
      | some gap => { rebuild with
          selected := rebuild.selected.push wordMax (fromStr gap)
          parts := rebuild.parts ++ [fromStr gap] }
      | none => rebuild
    else rebuild
  { selected := gapped.selected.push wordMax run.2.2.2
    cursor := run.2.1
    history := gapped.history ++ [run.2.2.1]
    parts := gapped.parts ++ [run.2.2.2] }

def rebuildFromConstraints (record : SelectionRecord) (raw : List Char)
    (runs : List (Nat × Nat × PhraseToken × PhraseText)) : SelectionRecord :=
  if runs = [] then record.clear
  else
    let rebuild := runs.foldl (rebuildRun wordMax raw) ⟨.new, 0, [], []⟩
    { selected := rebuild.selected.finish
      parts := rebuild.parts
      consumed := min rebuild.cursor (strBytes raw).length
      history := rebuild.history
      committed := false }

end SelectionRecord

/-! ## Pieces -/

/-- A piece of the buffer : a gap of the buffer at hand, or a chosen phrase. -/
inductive Piece where
  | gap (raw : List Char) (start stop : Nat)
  | phrase (start stop : Nat) (text : PhraseText)

namespace Piece

def start : Piece → Nat
  | gap _ start _ => start
  | phrase start _ _ => start

def stop : Piece → Nat
  | gap _ _ stop => stop
  | phrase _ stop _ => stop

/-- A part is the text of its piece. -/
def Covers : Piece → PhraseText → Prop
  | gap raw start stop, part => ∃ text, TextAt raw start stop text ∧ part = fromStr text
  | phrase _ _ text, part => part = text

/-- The gap before a position, if there is one. -/
def before (raw : List Char) (cursor start : Nat) : List Piece :=
  if cursor < start then [gap raw cursor start] else []

/-- The piece of a forced run. -/
def ofRun (run : Nat × Nat × PhraseToken × PhraseText) : Piece := phrase run.1 run.2.1 run.2.2.2

/-- The pieces of a rebuild, from a position on. -/
def ofRuns (raw : List Char) : Nat → List (Nat × Nat × PhraseToken × PhraseText) → List Piece
  | _, [] => []
  | cursor, run :: runs => before raw cursor run.1 ++ ofRun run :: ofRuns raw run.2.1 runs

/-- Pieces stand one behind the other. -/
def InOrder (pieces : List Piece) : Prop :=
  (∀ piece ∈ pieces, piece.start ≤ piece.stop) ∧ pieces.Pairwise fun piece later => piece.stop ≤ later.start

end Piece

open Piece

/-- A record beside the pieces its parts stand for. -/
structure Tracked where
  record : SelectionRecord
  pieces : List Piece

/-- The operations, with the span of what they append. -/
inductive RecordOp where
  | append (raw : List Char) (start stop : Nat) (text : PhraseText) (nulFree : text.NulFree)
  | set (text : PhraseText) (row : List (Nat × Nat × PhraseText)) (nulFree : ∀ phrase ∈ row, phrase.2.2.NulFree)
  | rebuild (raw : List Char) (cells : ConstraintStore) (nulFree : ∀ run ∈ cells.runs, run.2.2.2.NulFree)
  | clampConsumed (raw : List Char)
  | setConsumed (consumed : Nat)
  | setCommitted (committed : Bool)
  | pushToken (token : PhraseToken)
  | resetHistoryExtend (base extra : List PhraseToken)
  | clear

/-- The bytes between the composition offset and the span of a selection. -/
def selectionGap (raw : List Char) (consumed start : Nat) : List Char :=
  if consumed < start then (getRange raw consumed start).getD [] else []

namespace Tracked

def new : Tracked := ⟨.new, []⟩

def step (t : Tracked) : RecordOp → Tracked
  | .append raw start stop text _ =>
    ⟨t.record.appendSelected wordMax (selectionGap raw t.record.consumed start) text,
      t.pieces ++ (Piece.before raw t.record.consumed start ++ [.phrase start stop text])⟩
  | .set text row _ =>
    ⟨t.record.setSelected text (row.map (·.2.2)), row.map fun phrase => .phrase phrase.1 phrase.2.1 phrase.2.2⟩
  | .rebuild raw cells _ =>
    ⟨t.record.rebuildFromConstraints wordMax raw cells.runs, Piece.ofRuns raw 0 cells.runs⟩
  | .clampConsumed raw => ⟨t.record.clampConsumed raw, t.pieces⟩
  | .setConsumed consumed => ⟨t.record.setConsumed consumed, t.pieces⟩
  | .setCommitted committed => ⟨t.record.setCommitted committed, t.pieces⟩
  | .pushToken token => ⟨t.record.pushToken token, t.pieces⟩
  | .resetHistoryExtend base extra => ⟨t.record.resetHistoryExtend base extra, t.pieces⟩
  | .clear => ⟨t.record.clear, []⟩

/-- The parts join to the text, and they are the texts of pieces one behind the other. -/
structure Faithful (t : Tracked) : Prop where
  joins : eq (joined wordMax t.record.parts) t.record.selected = true
  covers : List.Forall₂ Piece.Covers t.pieces t.record.parts
  inOrder : Piece.InOrder t.pieces

/-- The ends of a gap are in the buffer, on character boundaries. -/
def GapInside (raw : List Char) (cursor start : Nat) : Prop :=
  cursor < start → isBoundary raw cursor = true ∧ isBoundary raw start = true

/-- The ends of the gaps before runs are. -/
def GapsInside (raw : List Char) : Nat → List (Nat × Nat × PhraseToken × PhraseText) → Prop
  | _, [] => True
  | cursor, run :: runs => GapInside raw cursor run.1 ∧ GapsInside raw run.2.1 runs

/-- What an operation asks for. -/
def Guard (t : Tracked) : RecordOp → Prop
  | .append raw start stop _ _ => start ≤ stop ∧ GapInside raw t.record.consumed start ∧
      ∀ piece ∈ t.pieces, piece.stop ≤ min t.record.consumed start
  | .set text row _ => text.outwardWords = row.flatMap (·.2.2.outwardWords) ∧
      Piece.InOrder (row.map fun phrase => .phrase phrase.1 phrase.2.1 phrase.2.2)
  | .rebuild raw cells _ => GapsInside raw 0 cells.runs ∧ Piece.InOrder (cells.runs.map Piece.ofRun)
  | _ => True

end Tracked

variable {wordMax}

/-! ## Joining -/

/-- The outward words gathered so far. -/
def PhraseTextConcat.outward (concat : PhraseTextConcat) : List Nat :=
  concat.words.getD (concat.scalar.map Char.toNat)

theorem PhraseTextConcat.outward_push (concat : PhraseTextConcat) (part : PhraseText) :
    (concat.push wordMax part).outward = concat.outward ++ part.outwardWords := by
  cases part <;> cases hwords : concat.words <;>
    simp [push, outward, switchToWords, hwords, outwardWords]

theorem PhraseTextConcat.outwardWords_finish {concat : PhraseTextConcat} (h : 0 ∉ concat.outward) :
    concat.finish.outwardWords = concat.outward := by
  unfold finish outward at *
  cases hwords : concat.words with
  | none => rfl
  | some words =>
    rw [hwords, getD_some] at h
    simp only [fromStoredParts, outwardWords, drop_succ_cons, drop_zero, getD_some]
    refine takeWhile_eq_self_iff.mpr fun word hword => ?_
    rw [bne_iff_ne]
    rintro rfl
    exact h hword

/-- Parts join to the outward words of each. -/
theorem outwardWords_joined {parts : List PhraseText} (h : ∀ part ∈ parts, 0 ∉ part.outwardWords) :
    (joined wordMax parts).outwardWords = parts.flatMap outwardWords := by
  have hgathered : ∀ (parts : List PhraseText) (concat : PhraseTextConcat),
      (parts.foldl (push wordMax) concat).outward = concat.outward ++ parts.flatMap outwardWords := by
    intro parts
    induction parts with
    | nil => simp
    | cons part parts ih => simp [ih, outward_push]
  have houtward := hgathered parts .new
  rw [joined, outwardWords_finish]
  · rw [houtward]
    rfl
  · rw [houtward]
    simpa [outward, new] using h

/-! ## Rebuilding -/

/-- The part of the gap before a position, if the buffer has it. -/
def gapParts (raw : List Char) (cursor start : Nat) : List PhraseText :=
  if cursor < start then ((getRange raw cursor start).map fromStr).toList else []

/-- The parts of a rebuild, from a position on. -/
def rebuildParts (raw : List Char) : Nat → List (Nat × Nat × PhraseToken × PhraseText) → List PhraseText
  | _, [] => []
  | cursor, run :: runs =>
    gapParts raw cursor run.1 ++ run.2.2.2 :: rebuildParts raw run.2.1 runs

/-- A rebuild gathers its parts, by induction on the runs. -/
theorem foldl_rebuildRun (raw : List Char) : ∀ (runs : List (Nat × Nat × PhraseToken × PhraseText))
    (rebuild : Rebuild),
    (runs.foldl (SelectionRecord.rebuildRun wordMax raw) rebuild).parts =
      rebuild.parts ++ rebuildParts raw rebuild.cursor runs ∧
    (runs.foldl (SelectionRecord.rebuildRun wordMax raw) rebuild).selected =
      (rebuildParts raw rebuild.cursor runs).foldl (push wordMax) rebuild.selected
  | [], rebuild => by simp [rebuildParts]
  | run :: runs, rebuild => by
    obtain ⟨hparts, hselected⟩ := foldl_rebuildRun raw runs (SelectionRecord.rebuildRun wordMax raw rebuild run)
    rw [foldl_cons, hparts, hselected, rebuildParts, SelectionRecord.rebuildRun, gapParts]
    split_ifs with hgap
    · cases getRange raw rebuild.cursor run.1 <;> simp
    · simp

/-- A rebuilt record has the parts of the runs, and their text. -/
theorem rebuildFromConstraints_eq (record : SelectionRecord) (raw : List Char)
    (runs : List (Nat × Nat × PhraseToken × PhraseText)) :
    (record.rebuildFromConstraints wordMax raw runs).parts = rebuildParts raw 0 runs ∧
      (record.rebuildFromConstraints wordMax raw runs).selected = joined wordMax (rebuildParts raw 0 runs) := by
  obtain ⟨hparts, hselected⟩ := @foldl_rebuildRun wordMax raw runs ⟨.new, 0, [], []⟩
  unfold SelectionRecord.rebuildFromConstraints
  split_ifs with hnone
  · rw [hnone]
    exact ⟨rfl, rfl⟩
  · dsimp only
    rw [hparts, hselected]
    exact ⟨nil_append _, rfl⟩

/-- A gap whose ends are inside is a part. -/
theorem covers_before {raw : List Char} {cursor start : Nat} (h : Tracked.GapInside raw cursor start) :
    List.Forall₂ Piece.Covers (before raw cursor start) (gapParts raw cursor start) := by
  unfold before gapParts
  split_ifs with hlt
  · obtain ⟨text, htext⟩ := isSome_iff_exists.mp ((isSome_getRange (Nat.le_of_lt hlt)).mpr (h hlt))
    rw [htext]
    exact cons ⟨text, getRange_eq_some.mp htext, rfl⟩ nil
  · exact nil

/-- A gap whose ends are not inside is missed. -/
theorem length_before (raw : List Char) (cursor start : Nat) :
    (gapParts raw cursor start).length ≤ (before raw cursor start).length ∧
      ((before raw cursor start).length = (gapParts raw cursor start).length →
        Tracked.GapInside raw cursor start) := by
  unfold before gapParts Tracked.GapInside
  split_ifs with hlt
  · rw [← isSome_getRange (Nat.le_of_lt hlt)]
    cases getRange raw cursor start <;> simp
  · simp [hlt]

/-- The parts of a rebuild are those of its pieces exactly when each gap is inside. -/
theorem covers_ofRuns {raw : List Char} : ∀ {runs : List (Nat × Nat × PhraseToken × PhraseText)} {cursor : Nat},
    Tracked.GapsInside raw cursor runs →
      List.Forall₂ Piece.Covers (ofRuns raw cursor runs) (rebuildParts raw cursor runs)
  | [], _, _ => nil
  | _ :: _, _, h => rel_append (covers_before h.1) (cons rfl (covers_ofRuns h.2))

theorem length_ofRuns (raw : List Char) : ∀ (runs : List (Nat × Nat × PhraseToken × PhraseText)) (cursor : Nat),
    (rebuildParts raw cursor runs).length ≤ (ofRuns raw cursor runs).length ∧
      ((ofRuns raw cursor runs).length = (rebuildParts raw cursor runs).length →
        Tracked.GapsInside raw cursor runs)
  | [], _ => ⟨Nat.le_refl _, fun _ => trivial⟩
  | run :: runs, cursor => by
    obtain ⟨hle, hinside⟩ := length_before raw cursor run.1
    obtain ⟨hle', hinside'⟩ := length_ofRuns raw runs run.2.1
    simp only [ofRuns, rebuildParts, length_append, length_cons]
    exact ⟨by omega, fun hlength => ⟨hinside (by omega), hinside' (by omega)⟩⟩

/-- The pieces of a rebuild stand one behind the other when its runs do. -/
theorem inOrder_ofRuns {raw : List Char} : ∀ {runs : List (Nat × Nat × PhraseToken × PhraseText)} {cursor : Nat},
    Piece.InOrder (runs.map ofRun) → (∀ run ∈ runs, cursor ≤ run.1) →
      Piece.InOrder (ofRuns raw cursor runs) ∧ ∀ piece ∈ ofRuns raw cursor runs, cursor ≤ piece.start
  | [], _, _, _ => ⟨⟨by simp [ofRuns], by simp [ofRuns]⟩, by simp [ofRuns]⟩
  | run :: runs, cursor, ⟨hforward, hordered⟩, hcursor => by
    rw [map_cons, pairwise_cons] at hordered
    have hrun : run.1 ≤ run.2.1 := hforward _ mem_cons_self
    have hstart : cursor ≤ run.1 := hcursor run mem_cons_self
    obtain ⟨⟨hforward', hordered'⟩, hbehind⟩ := @inOrder_ofRuns raw runs run.2.1
      ⟨fun piece hpiece => hforward piece (mem_cons_of_mem _ hpiece), hordered.2⟩
      fun later hlater => hordered.1 _ (List.mem_map_of_mem hlater)
    have hgap : ∀ piece ∈ before raw cursor run.1, piece = .gap raw cursor run.1 := by
      unfold before
      split_ifs <;> simp
    refine ⟨⟨fun piece hpiece => ?_, ?_⟩, fun piece hpiece => ?_⟩
    · rcases mem_append.mp hpiece with hpiece | hpiece
      · rw [hgap piece hpiece]
        exact hstart
      · rcases mem_cons.mp hpiece with rfl | hpiece
        · exact hrun
        · exact hforward' piece hpiece
    · refine pairwise_append.mpr ⟨?_, pairwise_cons.mpr ⟨hbehind, hordered'⟩, fun piece hpiece later hlater => ?_⟩
      · unfold before
        split_ifs <;> simp
      · rw [hgap piece hpiece]
        rcases mem_cons.mp hlater with rfl | hlater
        · exact Nat.le_refl _
        · exact Nat.le_trans hrun (hbehind later hlater)
    · rcases mem_append.mp hpiece with hpiece | hpiece
      · rw [hgap piece hpiece]
        exact Nat.le_refl _
      · rcases mem_cons.mp hpiece with rfl | hpiece
        · exact hstart
        · exact Nat.le_trans (Nat.le_trans hstart hrun) (hbehind piece hpiece)

theorem sublist_ofRuns (raw : List Char) : ∀ (runs : List (Nat × Nat × PhraseToken × PhraseText)) (cursor : Nat),
    (runs.map ofRun).Sublist (ofRuns raw cursor runs)
  | [], _ => List.Sublist.refl _
  | run :: runs, _ => ((sublist_ofRuns raw runs run.2.1).cons_cons _).trans (sublist_append_right _ _)

theorem Piece.InOrder.sublist {pieces pieces' : List Piece} (h : Piece.InOrder pieces)
    (hsub : pieces'.Sublist pieces) : Piece.InOrder pieces' :=
  ⟨fun piece hpiece => h.1 piece (hsub.subset hpiece), h.2.sublist hsub⟩

/-- The part of the gap that a selection brings. -/
theorem selectionGap_parts (raw : List Char) (consumed start : Nat) :
    (if selectionGap raw consumed start = [] then [] else [fromStr (selectionGap raw consumed start)]) =
      gapParts raw consumed start := by
  unfold selectionGap gapParts
  split_ifs with hlt hnone hnone
  · cases hgap : getRange raw consumed start with
    | none => rfl
    | some text =>
      obtain ⟨_, _, _, _, hstop⟩ := getRange_eq_some.mp hgap
      rw [hgap, getD_some] at hnone
      rw [hnone, strBytes, flatMap_nil, length_nil] at hstop
      omega
  · cases hgap : getRange raw consumed start with
    | none => simp [hgap] at hnone
    | some text => rfl
  · rfl
  · exact absurd rfl hnone

/-! ## Runs -/

namespace Tracked

variable (wordMax) in
/-- What guarded operations keep. -/
structure Kept (t : Tracked) : Prop extends Faithful wordMax t where
  nulFree : ∀ part ∈ t.record.parts, part.NulFree

theorem outward_joined {parts : List PhraseText} (h : ∀ part ∈ parts, part.NulFree) :
    (joined wordMax parts).outwardWords = parts.flatMap outwardWords :=
  outwardWords_joined fun part hpart => zero_notMem_outwardWords (h part hpart)

/-- The text of a record that is kept has the words of its parts. -/
theorem Kept.selected {t : Tracked} (h : Kept wordMax t) :
    t.record.selected.outwardWords = t.record.parts.flatMap outwardWords := by
  rw [← outward_joined h.nulFree]
  exact ((eq_iff _ _).mp h.joins).symm

theorem nulFree_gapParts {raw : List Char} {cursor start : Nat} :
    ∀ part ∈ gapParts raw cursor start, part.NulFree := by
  unfold gapParts
  intro part hpart
  split_ifs at hpart
  · obtain ⟨text, _, rfl⟩ := map_eq_some_iff.mp (mem_toList.mp hpart)
    exact nulFree_fromStr text
  · cases hpart

theorem nulFree_rebuildParts {raw : List Char} : ∀ {runs : List (Nat × Nat × PhraseToken × PhraseText)}
    {cursor : Nat},
    (∀ run ∈ runs, run.2.2.2.NulFree) → ∀ part ∈ rebuildParts raw cursor runs, part.NulFree
  | [], _, _, _, hpart => by cases hpart
  | run :: runs, cursor, h, part, hpart => by
    rcases mem_append.mp hpart with hpart | hpart
    · exact nulFree_gapParts part hpart
    · rcases mem_cons.mp hpart with rfl | hpart
      · exact h run mem_cons_self
      · exact nulFree_rebuildParts (fun later hlater => h later (mem_cons_of_mem _ hlater)) part hpart

theorem appendSelected_parts (record : SelectionRecord) (raw : List Char) (start : Nat) (text : PhraseText) :
    (record.appendSelected wordMax (selectionGap raw record.consumed start) text).parts =
      record.parts ++ (gapParts raw record.consumed start ++ [text]) := by
  rw [SelectionRecord.appendSelected, selectionGap_parts, append_assoc]

/-- What is appended stands behind the pieces when they end before it and before the gap. -/
theorem inOrder_append {pieces : List Piece} {raw : List Char} {consumed start stop : Nat} {text : PhraseText} :
    Piece.InOrder (pieces ++ (Piece.before raw consumed start ++ [.phrase start stop text])) ↔
      Piece.InOrder pieces ∧ start ≤ stop ∧ ∀ piece ∈ pieces, piece.stop ≤ min consumed start := by
  unfold Piece.InOrder Piece.before
  split_ifs with hlt
  · rw [Nat.min_eq_left (Nat.le_of_lt hlt)]
    simp only [mem_append, pairwise_append, mem_singleton, pairwise_singleton, or_imp,
      forall_and, forall_eq, Piece.start, Piece.stop]
    grind
  · rw [Nat.min_eq_right (Nat.le_of_not_lt hlt)]
    simp only [nil_append, mem_append, pairwise_append, mem_singleton, pairwise_singleton,
      or_imp, forall_and, forall_eq, Piece.start, Piece.stop]
    grind

/-- Appending keeps the pieces in order and the parts joined. -/
theorem Kept.append {t : Tracked} (h : Kept wordMax t) {raw : List Char} {start stop : Nat} {text : PhraseText}
    {nulFree : text.NulFree} (hguard : Guard t (.append raw start stop text nulFree)) :
    Kept wordMax (t.step wordMax (.append raw start stop text nulFree)) := by
  obtain ⟨hspan, hgap, hbehind⟩ := hguard
  have hparts := @appendSelected_parts wordMax t.record raw start text
  have hfree : ∀ part ∈ t.record.parts ++ (gapParts raw t.record.consumed start ++ [text]), part.NulFree := by
    intro part hpart
    rcases mem_append.mp hpart with hpart | hpart
    · exact h.nulFree part hpart
    · rcases mem_append.mp hpart with hpart | hpart
      · exact nulFree_gapParts part hpart
      · rw [mem_singleton.mp hpart]
        exact nulFree
  refine ⟨⟨(eq_iff _ _).mpr ?_, ?_, inOrder_append.mpr ⟨h.inOrder, hspan, hbehind⟩⟩, ?_⟩
  · have hgapWords : (fromStr (selectionGap raw t.record.consumed start)).outwardWords =
        (gapParts raw t.record.consumed start).flatMap outwardWords := by
      rw [← selectionGap_parts]
      split_ifs with hnone
      · rw [hnone]
        rfl
      · simp
    have hselected : 0 ∉ t.record.selected.outwardWords := by
      rw [h.selected, mem_flatMap]
      rintro ⟨part, hpart, hzero⟩
      exact zero_notMem_outwardWords (h.nulFree part hpart) hzero
    have hthree : ∀ part ∈ [t.record.selected, fromStr (selectionGap raw t.record.consumed start), text],
        0 ∉ part.outwardWords := by
      simp only [forall_mem_cons]
      exact ⟨hselected, zero_notMem_outwardWords (nulFree_fromStr _), zero_notMem_outwardWords nulFree, by simp⟩
    calc (joined wordMax (t.step wordMax (.append raw start stop text nulFree)).record.parts).outwardWords
        = (t.record.parts ++ (gapParts raw t.record.consumed start ++ [text])).flatMap outwardWords := by
          rw [step, hparts, outward_joined hfree]
      _ = t.record.selected.outwardWords ++
            ((fromStr (selectionGap raw t.record.consumed start)).outwardWords ++ text.outwardWords) := by
          rw [flatMap_append, flatMap_append, h.selected, hgapWords, flatMap_singleton]
      _ = (joined wordMax [t.record.selected, fromStr (selectionGap raw t.record.consumed start),
        text]).outwardWords := by
          rw [outwardWords_joined hthree]
          simp
  · rw [step, hparts]
    exact rel_append h.covers (rel_append (covers_before hgap) (cons rfl nil))
  · rw [step, hparts]
    exact hfree

/-- A row keeps its phrases, joined to its text. -/
theorem Kept.set (t : Tracked) {text : PhraseText} {row : List (Nat × Nat × PhraseText)}
    {nulFree : ∀ phrase ∈ row, phrase.2.2.NulFree} (hguard : Guard t (.set text row nulFree)) :
    Kept wordMax (t.step wordMax (.set text row nulFree)) := by
  have hfree : ∀ part ∈ row.map (·.2.2), part.NulFree := by
    intro part hpart
    obtain ⟨phrase, hphrase, rfl⟩ := List.mem_map.mp hpart
    exact nulFree phrase hphrase
  refine ⟨⟨(eq_iff _ _).mpr ?_, ?_, hguard.2⟩, hfree⟩
  · rw [step, SelectionRecord.setSelected, outward_joined hfree, flatMap_map, hguard.1]
  · rw [step, SelectionRecord.setSelected, forall₂_map_left_iff, forall₂_map_right_iff]
    exact forall₂_same.mpr fun _ _ => rfl

/-- A rebuild whose gaps are inside has its pieces. -/
theorem Kept.rebuild (t : Tracked) {raw : List Char} {cells : ConstraintStore}
    {nulFree : ∀ run ∈ cells.runs, run.2.2.2.NulFree} (hguard : Guard t (.rebuild raw cells nulFree)) :
    Kept wordMax (t.step wordMax (.rebuild raw cells nulFree)) := by
  obtain ⟨hparts, hselected⟩ := @rebuildFromConstraints_eq wordMax t.record raw cells.runs
  refine ⟨⟨(eq_iff _ _).mpr ?_, ?_, (inOrder_ofRuns hguard.2 fun _ _ => Nat.zero_le _).1⟩, ?_⟩
  · rw [step, hparts, hselected]
  · rw [step, hparts]
    exact covers_ofRuns hguard.1
  · rw [step, hparts]
    exact nulFree_rebuildParts nulFree

theorem kept_new : Kept wordMax Tracked.new :=
  ⟨⟨rfl, nil, by simp [Tracked.new], by simp [Tracked.new]⟩, by simp [Tracked.new, SelectionRecord.new]⟩

theorem kept_step (t : Tracked) (op : RecordOp) (h : Kept wordMax t) (hguard : Guard t op) :
    Kept wordMax (t.step wordMax op) := by
  cases op with
  | append raw start stop text nulFree => exact h.append hguard
  | set text row nulFree => exact Kept.set t hguard
  | rebuild raw cells nulFree => exact Kept.rebuild t hguard
  | clampConsumed raw => exact ⟨⟨h.joins, h.covers, h.inOrder⟩, h.nulFree⟩
  | setConsumed consumed => exact ⟨⟨h.joins, h.covers, h.inOrder⟩, h.nulFree⟩
  | setCommitted committed => exact ⟨⟨h.joins, h.covers, h.inOrder⟩, h.nulFree⟩
  | pushToken token => exact ⟨⟨h.joins, h.covers, h.inOrder⟩, h.nulFree⟩
  | resetHistoryExtend base extra => exact ⟨⟨h.joins, h.covers, h.inOrder⟩, h.nulFree⟩
  | clear => exact kept_new

/-- A step that leaves the record faithful was guarded. -/
theorem guard_of_faithful (t : Tracked) (op : RecordOp) (h : Kept wordMax t)
    (hfaithful : Faithful wordMax (t.step wordMax op)) : Guard t op := by
  cases op with
  | append raw start stop text nulFree =>
    obtain ⟨_, hspan, hbehind⟩ := inOrder_append.mp hfaithful.inOrder
    have hlength := hfaithful.covers.length_eq
    have hold := h.covers.length_eq
    rw [step, appendSelected_parts] at hlength
    simp only [length_append, length_singleton] at hlength
    exact ⟨hspan, (length_before raw t.record.consumed start).2 (by omega), hbehind⟩
  | set text row nulFree =>
    have hfree : ∀ part ∈ row.map (·.2.2), part.NulFree := by
      intro part hpart
      obtain ⟨phrase, hphrase, rfl⟩ := List.mem_map.mp hpart
      exact nulFree phrase hphrase
    have hjoins := (eq_iff _ _).mp hfaithful.joins
    rw [step, SelectionRecord.setSelected, outward_joined hfree, flatMap_map] at hjoins
    exact ⟨hjoins.symm, hfaithful.inOrder⟩
  | rebuild raw cells nulFree =>
    have hlength := hfaithful.covers.length_eq
    rw [step, (@rebuildFromConstraints_eq wordMax t.record raw cells.runs).1] at hlength
    exact ⟨(length_ofRuns raw cells.runs 0).2 hlength, hfaithful.inOrder.sublist (sublist_ofRuns raw cells.runs 0)⟩
  | clampConsumed raw => trivial
  | setConsumed consumed => trivial
  | setCommitted committed => trivial
  | pushToken token => trivial
  | resetHistoryExtend base extra => trivial
  | clear => trivial

/-- The parts join to the text and stand for ascending disjoint pieces in every state of a run exactly
when its steps are guarded. -/
theorem faithful_iff (wordMax : Nat) (ops : List RecordOp) :
    (∀ t ∈ states (step wordMax) new ops, Faithful wordMax t) ↔ Along (step wordMax) Guard new ops :=
  forall_states_iff (fun _ h => h.toFaithful) (fun t op h hguard => kept_step t op h hguard)
    (fun t op h hfaithful => guard_of_faithful t op h hfaithful) kept_new

/-- A forced run past the end of the buffer drops the buffer before it. -/
theorem faithful_fails : ¬ ∀ t ∈ states (step (2 ^ 64 - 1)) new
    [.rebuild ['n'] [.free, .free, .oneStep 7 5 (.scalar ['好']), .noSearch 2, .noSearch 2, .free]
      (by simp [ConstraintStore.runs, NulFree])], Faithful (2 ^ 64 - 1) t := by
  intro hall
  have hlength := (hall _ (mem_cons_of_mem _ (mem_states_self _ _))).covers.length_eq
  revert hlength
  decide

end Tracked

end Record

end Oxpinyin
