import Oxpinyin.Lib.Run
import Mathlib.Algebra.Group.Nat.Defs
import Mathlib.Data.List.Basic
import Mathlib.Tactic.SplitIfs

/-!
# The constraint store

One cell a byte position. A `oneStep` cell at `start` forces a token over `[start, stop)`
and the cells between carry `noSearch` pointers back at it. The operations are those of the
source : `resize`, `add`, `clearByOffset`, `validate` with its early return when a probe
fails, `diffResult` and `clear`. `runs` reads the forcings back.
-/

namespace Oxpinyin

open List

/-- A phrase token, a `u32` of the backend. -/
abbrev PhraseToken := BitVec 32

/-- The text of a phrase : plain characters, or the stored words with the declared count in
front. -/
inductive PhraseText where
  | scalar (text : List Char)
  | stored (buffer : List Nat)
  deriving DecidableEq

/-- The declared count of a stored text, or the number of characters. -/
def PhraseText.phraseLength : PhraseText → Nat
  | .scalar text => text.length
  | .stored buffer =>
    match buffer.head?.getD 0 with
    | 0 => buffer.length - 1
    | length => length

/-- The code points before the first zero. -/
def PhraseText.outwardWords : PhraseText → List Nat
  | .scalar text => text.map Char.toNat
  | .stored buffer => (buffer.drop 1).takeWhile (· != 0)

/-- Whether the outward text is empty. -/
def PhraseText.isEmpty (text : PhraseText) : Bool :=
  text.outwardWords.isEmpty

/-- Appends one text : plain characters stay plain until a stored text comes. -/
def PhraseText.append (front back : PhraseText) : PhraseText :=
  match front, back with
  | .scalar a, .scalar b => .scalar (a ++ b)
  | _, _ => .stored (min (front.phraseLength + back.phraseLength) (2 ^ 32 - 1) ::
      (front.outwardWords ++ back.outwardWords))

/-- One constraint cell. -/
inductive Cell where
  /-- A free step. -/
  | free
  /-- A token is forced from the cell to `stop`. -/
  | oneStep (token : PhraseToken) (stop : Nat) (text : PhraseText)
  /-- Interior of a forced run that begins at `start`. -/
  | noSearch (start : Nat)
  deriving DecidableEq

/-- One phrase of a decoded sentence at its position. -/
structure PhraseSpan where
  start : Nat
  token : PhraseToken
  text : PhraseText

/-- A forced run as the spelling probe sees it. -/
structure Forcing where
  start : Nat
  token : PhraseToken
  stop : Nat
  /-- The stored length of the forced phrase. -/
  length : Nat
  deriving DecidableEq

/-- The constraint array. -/
abbrev ConstraintStore := List Cell

namespace ConstraintStore

section

variable (cells : ConstraintStore)

/-- Writes one cell over `[start, stop)`. -/
def fill (start stop : Nat) (cell : Cell) : ConstraintStore :=
  cells.mapIdx fun i old => if start ≤ i ∧ i < stop then cell else old

/-- Grows with free cells, shrinks by truncation. -/
def resize (len : Nat) : ConstraintStore :=
  cells.take len ++ List.replicate (len - cells.length) .free

/-- Frees the run that covers `index`, and tells whether there was one. -/
def clearByOffset (index : Nat) : ConstraintStore × Bool :=
  let runStart : Option Nat :=
    match cells[index]? with
    | some (.noSearch start) => some start
    | some (.oneStep _ _ _) => some index
    | _ => none
  match runStart with
  | none => (cells, false)
  | some start =>
    match cells[start]? with
    | some (.oneStep _ stop _) => (cells.fill start (min stop cells.length) .free, true)
    | _ => (cells, false)

/-- Forces `token` over `[start, stop)` after freeing every run the span overlaps. A span
that overruns the array is refused with length `0`. -/
def add (start stop : Nat) (token : PhraseToken) (text : PhraseText) : ConstraintStore × Nat :=
  if cells.length < stop ∨ stop ≤ start then (cells, 0)
  else
    let cleared := (List.range' start (stop - start)).foldl
      (fun cells index => (clearByOffset cells index).1) cells
    let marked : ConstraintStore := cleared.set start (.oneStep token stop text)
    (marked.fill (start + 1) stop (.noSearch start), stop - start)

/-- The forced runs, left to right. -/
def forcings : List Forcing :=
  cells.zipIdx.filterMap fun entry =>
    match entry.1 with
    | .oneStep token stop text => some ⟨entry.2, token, stop, text.phraseLength⟩
    | _ => none

end

section Validate

variable {ε : Type}

/-- The loop of `validate` over the forcings. The probe may answer by what it was asked
before, so it also takes the number of earlier calls. It is asked before the overrun is
tested, and its failure counts only for a run that does not overrun. -/
def validateLoop (probe : Nat → Forcing → Except ε Bool) :
    List Forcing → Nat → ConstraintStore → Bool → ConstraintStore × Except ε Bool
  | [], _, cells, dropped => (cells, .ok dropped)
  | forcing :: rest, calls, cells, dropped =>
    let cleared := cells.fill forcing.start (min forcing.stop cells.length) .free
    if cells.length ≤ forcing.stop then validateLoop probe rest (calls + 1) cleared true
    else
      match probe calls forcing with
      | .error e => (cells, .error e)
      | .ok true => validateLoop probe rest (calls + 1) cells dropped
      | .ok false => validateLoop probe rest (calls + 1) cleared true

/-- Resizes, then frees every run that overruns or no longer spells. -/
def validate (cells : ConstraintStore) (len : Nat) (probe : Nat → Forcing → Except ε Bool) :
    ConstraintStore × Except ε Bool :=
  validateLoop probe (cells.resize len).forcings 0 (cells.resize len) false

end Validate

/-- Forces each phrase of `other` that differs from `best`, up to the next phrase. -/
def diffLoop (best : List PhraseSpan) (tail : Nat) :
    List PhraseSpan → ConstraintStore → Bool → ConstraintStore × Bool
  | [], cells, changed => (cells, changed)
  | span :: rest, cells, changed =>
    let bestToken := (best.find? (·.start == span.start)).map (·.token)
    if bestToken = some span.token then diffLoop best tail rest cells changed
    else
      let next := match rest with
        | following :: _ => following.start
        | [] => tail
      let added := cells.add span.start next span.token span.text
      diffLoop best tail rest added.1 (decide (0 < added.2) || changed)

/-- Constrains every phrase where the chosen row differs from the best one. -/
def diffResult (cells : ConstraintStore) (best other : List PhraseSpan) (tail : Nat) :
    ConstraintStore × Bool :=
  diffLoop best tail other cells false

/-- Drops every cell. -/
def clear (_ : ConstraintStore) : ConstraintStore := []

/-- The surviving forcings with their texts, left to right. -/
def runs (cells : ConstraintStore) : List (Nat × Nat × PhraseToken × PhraseText) :=
  cells.zipIdx.filterMap fun entry =>
    match entry.1 with
    | .oneStep token stop text => some (entry.2, stop, token, text)
    | _ => none

/-! ## Reading cells -/

section Cells

variable {cells : ConstraintStore} {start stop i len : Nat} {cell : Cell}

@[simp] theorem length_fill (cells : ConstraintStore) (start stop : Nat) (cell : Cell) :
    (cells.fill start stop cell).length = cells.length := by
  simp [fill]

theorem getElem?_fill (cells : ConstraintStore) (start stop i : Nat) (cell : Cell) :
    (cells.fill start stop cell)[i]? =
      if start ≤ i ∧ i < stop ∧ i < cells.length then some cell else cells[i]? := by
  unfold fill
  rw [getElem?_mapIdx]
  by_cases hi : i < cells.length
  · rw [getElem?_eq_getElem hi]
    by_cases hr : start ≤ i ∧ i < stop <;> simp [hi, hr]
  · rw [getElem?_eq_none (Nat.le_of_not_lt hi)]
    simp [hi]

@[simp] theorem length_resize (cells : ConstraintStore) (len : Nat) : (cells.resize len).length = len := by
  simp [resize]
  omega

theorem getElem?_resize (cells : ConstraintStore) (len i : Nat) :
    (cells.resize len)[i]? =
      if i < len then (if i < cells.length then cells[i]? else some .free) else none := by
  unfold resize
  by_cases hi : i < len
  · by_cases hc : i < cells.length
    · rw [getElem?_append_left (by simp; omega), getElem?_take_of_lt hi]
      simp [hi, hc]
    · rw [getElem?_append_right (by simp; omega), length_take, getElem?_replicate_of_lt (by omega)]
      simp [hi, hc]
  · rw [getElem?_eq_none (by simp; omega), if_neg hi]

theorem mem_forcings {f : Forcing} : f ∈ cells.forcings ↔
    ∃ text, cells[f.start]? = some (.oneStep f.token f.stop text) ∧
      f.length = text.phraseLength := by
  unfold forcings
  rw [mem_filterMap]
  constructor
  · rintro ⟨⟨cell, i⟩, hmem, hsome⟩
    have hget := mem_zipIdx_iff_getElem?.mp hmem
    cases cell with
    | oneStep token stop text =>
      obtain rfl := Option.some.inj hsome
      exact ⟨text, hget, rfl⟩
    | free => cases hsome
    | noSearch _ => cases hsome
  · rintro ⟨text, hget, hlen⟩
    refine ⟨(.oneStep f.token f.stop text, f.start), mem_zipIdx_iff_getElem?.mpr hget, ?_⟩
    simp [← hlen]

theorem pairwise_forcings (cells : ConstraintStore) : cells.forcings.Pairwise fun f g => f.start < g.start := by
  unfold forcings
  have hsorted : cells.zipIdx.Pairwise fun a b => a.2 < b.2 := by
    rw [← @List.pairwise_map _ _ (fun x : Cell × Nat => x.2) (· < ·), zipIdx_map_snd]
    exact pairwise_lt_range'
  refine hsorted.filterMap _ ?_
  rintro ⟨cell, i⟩ ⟨cell', j⟩ hlt f hf g hg
  cases cell with
  | oneStep token stop text =>
    cases cell' with
    | oneStep token' stop' text' =>
      rw [← Option.some.inj hf, ← Option.some.inj hg]
      exact hlt
    | free => cases hg
    | noSearch _ => cases hg
  | free => cases hf
  | noSearch _ => cases hf

end Cells

end ConstraintStore

end Oxpinyin
