import Oxpinyin.CursorColumns

/-!
# Cursor moves

A cursor is normalised to an offset of the columns, and moved by a syllable left or right. Each move
steps over the separators with a walk of its own. `moves_chain` : normalising is idempotent and never
moves right, and over a chain of keys the left move takes back a right move.
-/

set_option linter.unusedSectionVars false

namespace Oxpinyin.Cursor

open List Oxpinyin.Cursor.Columns
open Option hiding filter_map any_map
open Column hiding zeroEnd

/-- What a move refuses. -/
inductive OffsetError where
  /-- The position before the offset is a lone zero key. -/
  | zeroKeyOffsetCheck (offset : Nat)
  | lookupOffsetOutOfRange (offset len : Nat)
  deriving DecidableEq

namespace Columns

variable (columns : Columns)

/-- The position before an offset is not a lone zero key. -/
def check (offset : Nat) : Except OffsetError Unit :=
  if 0 < offset ∧ ((columns.get (offset - 1)).any Column.loneZero) then .error (.zeroKeyOffsetCheck offset)
    else .ok ()

/-- Walks back over lone zero keys from an index, stopping before column 0. -/
def zeroStartLoop : Nat → Nat → Nat
  | 0, offset => offset
  | index + 1, offset => if (columns.at_ (index + 1)).loneZero then zeroStartLoop index (index + 1) else offset

def zeroStartWalk (offset : Nat) : Nat := columns.zeroStartLoop (offset - 1) offset

/-- The nearest column at or below an offset that is not empty, or column 0. -/
def lastNonEmpty : Nat → Nat
  | 0 => 0
  | offset + 1 => if (columns.at_ (offset + 1)).isEmpty then lastNonEmpty offset else offset + 1

/-- The nearest column at or below a position with a key that ends at an offset, or column 0. -/
def endingAt (offset : Nat) : Nat → Nat
  | 0 => 0
  | left + 1 => if (columns.at_ (left + 1)).endsWith columns.spans offset then left + 1 else endingAt offset left

/-- Steps over lone zero keys, at most so many. -/
def skipZeros : Nat → Nat → Nat
  | 0, index => index
  | left + 1, index =>
    if (columns.at_ index).size ≠ 1 then index
    else if (columns.at_ index).loneZero then skipZeros left (index + 1)
    else index

end Columns

def rangeCheck (len offset : Nat) : Except OffsetError Unit :=
  if len < offset then .error (.lookupOffsetOutOfRange offset len) else .ok ()

section Moves

variable (input : Bytes) (parsedLen : Nat) (spans : List (Nat × Nat)) (separators : Bool)

def lookupOffsetOverSpans (cursor : Nat) : Except OffsetError Nat := do
  let columns := Columns.new input parsedLen spans separators
  let offset := columns.zeroStartWalk (columns.lastNonEmpty (min cursor (min parsedLen input.length)))
  columns.check offset
  return offset

def leftWordOffsetOverSpans (offset : Nat) : Except OffsetError Nat := do
  let columns := Columns.new input parsedLen spans separators
  rangeCheck input.length offset
  columns.check offset
  let left := columns.zeroStartWalk (columns.endingAt offset (offset - 1))
  columns.check left
  return left

def rightWordOffsetOverSpans (offset : Nat) : Except OffsetError (Option Nat) := do
  let columns := Columns.new input parsedLen spans separators
  rangeCheck input.length offset
  columns.check offset
  match (columns.at_ (columns.skipZeros (input.length - offset) offset)).firstEnd spans with
  | none => return none
  | some stop =>
    columns.check stop
    return some stop

end Moves

/-! ## The walks -/

namespace Columns

variable {columns : Columns}

variable {offset : Nat}

theorem check_eq_ok : columns.check offset = .ok () ↔
    ∀ before, offset = before + 1 → (columns.get before).any loneZero = false := by
  unfold check
  cases offset with
  | zero => simp
  | succ before =>
    cases h : (columns.get before).any loneZero <;> simp [h]

theorem loneZero_at (position : Nat) : (columns.at_ position).loneZero = (columns.get position).any loneZero := by
  unfold at_
  cases columns.get position <;> rfl

/-- The walk ends at its start, or at a lone zero key below it. -/
theorem zeroStartLoop_cases : ∀ (index offset : Nat), index ≤ offset →
    columns.zeroStartLoop index offset ≤ offset ∧
      (columns.zeroStartLoop index offset = offset ∨ (columns.at_
        (columns.zeroStartLoop index offset)).loneZero = true)
  | 0, offset, _ => ⟨Nat.le_refl _, Or.inl rfl⟩
  | index + 1, offset, hindex => by
    rw [zeroStartLoop]
    split_ifs with hlone
    · obtain ⟨hle, hcases⟩ := zeroStartLoop_cases index (index + 1) (Nat.le_succ index)
      refine ⟨by omega, Or.inr ?_⟩
      rcases hcases with heq | hlone'
      · rw [heq]
        exact hlone
      · exact hlone'
    · exact ⟨Nat.le_refl _, Or.inl rfl⟩

/-- Behind a position that is no lone zero key the walk stays. -/
theorem zeroStartWalk_of_check (h : columns.check offset = .ok ()) :
    columns.zeroStartWalk offset = offset := by
  unfold zeroStartWalk
  cases offset with
  | zero => rfl
  | succ before =>
    have hlone := check_eq_ok.mp h before rfl
    rw [Nat.add_sub_cancel]
    cases before with
    | zero => rfl
    | succ index => rw [zeroStartLoop, loneZero_at, hlone, if_neg Bool.false_ne_true]

/-- The walk back over a run of lone zero keys. -/
theorem zeroStartLoop_run {start : Nat} (hstart : 0 < start) (hcheck : columns.check start = .ok ()) :
    ∀ (count : Nat), (∀ i, start ≤ i → i < start + count → (columns.at_ i).loneZero = true) →
      columns.zeroStartWalk (start + count) = start
  | 0, _ => zeroStartWalk_of_check hcheck
  | count + 1, hrun => by
    have hlast := hrun (start + count) (Nat.le_add_right _ _) (by omega)
    have hpos : ∃ index, start + count = index + 1 := ⟨start + count - 1, by omega⟩
    obtain ⟨index, hindex⟩ := hpos
    have hrest := zeroStartLoop_run hstart hcheck count fun i hi hlt => hrun i hi (by omega)
    unfold zeroStartWalk at hrest ⊢
    rw [← Nat.add_assoc, Nat.add_sub_cancel, hindex, zeroStartLoop, ← hindex, if_pos hlast]
    rw [hindex, Nat.add_sub_cancel] at hrest
    rw [hindex]
    exact hrest

theorem lastNonEmpty_cases : ∀ (offset : Nat), columns.lastNonEmpty offset ≤ offset ∧
    (columns.lastNonEmpty offset = 0 ∨ (columns.at_ (columns.lastNonEmpty offset)).isEmpty = false)
  | 0 => ⟨Nat.le_refl _, Or.inl rfl⟩
  | offset + 1 => by
    rw [lastNonEmpty]
    split_ifs with hempty
    · obtain ⟨hle, hcases⟩ := lastNonEmpty_cases offset
      exact ⟨by omega, hcases⟩
    · exact ⟨Nat.le_refl _, Or.inr (Bool.eq_false_iff.mpr hempty)⟩

theorem lastNonEmpty_eq (h : offset = 0 ∨ (columns.at_ offset).isEmpty = false) :
    columns.lastNonEmpty offset = offset := by
  cases offset with
  | zero => rfl
  | succ offset => rw [lastNonEmpty, h.resolve_left (Nat.succ_ne_zero _), if_neg Bool.false_ne_true]

/-- The steps over lone zero keys end behind them. -/
theorem skipZeros_cases : ∀ (left index : Nat), index ≤ columns.skipZeros left index ∧
    columns.skipZeros left index ≤ index + left ∧
    (∀ i, index ≤ i → i < columns.skipZeros left index → (columns.at_ i).loneZero = true) ∧
    (columns.skipZeros left index = index + left ∨ (columns.at_ (columns.skipZeros left index)).loneZero = false)
  | 0, index => ⟨Nat.le_refl _, Nat.le_refl _, fun i hi hlt => by rw [skipZeros] at hlt; omega, Or.inl rfl⟩
  | left + 1, index => by
    rw [skipZeros]
    split_ifs with hsize hlone
    · refine ⟨Nat.le_refl _, by omega, fun i hi hlt => by omega, Or.inr ?_⟩
      rw [Bool.eq_false_iff]
      intro hlone
      refine hsize ?_
      rw [loneZero, Bool.and_eq_true, realIsEmpty, decide_eq_true_eq] at hlone
      rw [size, hlone.2, if_pos rfl, Nat.sub_eq_zero_of_le hlone.1]
    · obtain ⟨hlow, hhigh, hrun, hend⟩ := skipZeros_cases left (index + 1)
      refine ⟨by omega, by omega, fun i hi hlt => ?_, ?_⟩
      · rcases Nat.eq_or_lt_of_le hi with rfl | hi
        · exact hlone
        · exact hrun i hi hlt
      · rcases hend with heq | hend
        · exact Or.inl (by omega)
        · exact Or.inr hend
    · exact ⟨Nat.le_refl _, by omega, fun i hi hlt => by omega, Or.inr (Bool.eq_false_iff.mpr hlone)⟩

theorem endingAt_eq {offset start : Nat} (hends : start = 0 ∨
    (columns.at_ start).endsWith columns.spans offset = true) :
    ∀ (count : Nat), (∀ i, start < i → i ≤ start + count → (columns.at_ i).endsWith columns.spans offset = false) →
      columns.endingAt offset (start + count) = start
  | 0, _ => by
    cases start with
    | zero => rfl
    | succ start => rw [Nat.add_zero, endingAt, if_pos (hends.resolve_left (Nat.succ_ne_zero _))]
  | count + 1, hnone => by
    rw [← Nat.add_assoc, endingAt, Nat.add_assoc, hnone (start + (count + 1)) (by omega) (by omega),
      if_neg Bool.false_ne_true]
    exact endingAt_eq hends count fun i hi hle => hnone i hi (by omega)

end Columns

/-! ## Normalising -/

section Lookup

variable {input : Bytes} {parsedLen : Nat} {spans : List (Nat × Nat)} {separators : Bool}

theorem bind_check_eq_ok {α : Type} {x : Except OffsetError Unit} {f : Except OffsetError α} {a : α} :
    (x >>= fun _ => f) = .ok a ↔ x = .ok () ∧ f = .ok a := by
  cases x with
  | error e =>
    constructor
    · intro h
      cases h
    · rintro ⟨h, -⟩
      cases h
  | ok u => exact ⟨fun h => ⟨rfl, h⟩, fun h => h.2⟩

/-- A normalised offset is at most the cursor and the parsed length, and normal. -/
theorem lookupOffset_idem {cursor offset : Nat}
    (h : lookupOffsetOverSpans input parsedLen spans separators cursor = .ok offset) :
    offset ≤ min cursor parsedLen ∧ lookupOffsetOverSpans input parsedLen spans separators offset = .ok offset := by
  unfold lookupOffsetOverSpans at h ⊢
  dsimp only at h ⊢
  rw [bind_check_eq_ok] at h
  obtain ⟨hcheck, hoffset⟩ := h
  have hoffset : _ = offset := Except.ok.inj hoffset
  generalize new input parsedLen spans separators = columns at *
  obtain ⟨hlast, hnonEmpty⟩ := @Columns.lastNonEmpty_cases columns (min cursor (min parsedLen input.length))
  generalize columns.lastNonEmpty (min cursor (min parsedLen input.length)) = last at *
  obtain ⟨hle, hzero⟩ := @Columns.zeroStartLoop_cases columns (last - 1) last (by omega)
  change columns.zeroStartWalk last ≤ last at hle
  change columns.zeroStartWalk last = last ∨ (columns.at_ (columns.zeroStartWalk last)).loneZero = true at hzero
  rw [hoffset] at hle hzero hcheck
  have hfilled : offset = 0 ∨ (columns.at_ offset).isEmpty = false := by
    rcases hzero with rfl | hlone
    · exact hnonEmpty
    · refine Or.inr ?_
      rw [loneZero, Bool.and_eq_true] at hlone
      rw [Column.isEmpty, hlone.1, Bool.true_and, isNone_eq_false_iff]
      exact hlone.2
  refine ⟨by omega, ?_⟩
  rw [Nat.min_eq_left (show offset ≤ min parsedLen input.length by omega), lastNonEmpty_eq hfilled,
    zeroStartWalk_of_check hcheck, hcheck]
  rfl

end Lookup

/-! ## Over a chain -/

/-- Keys one after another, none empty, within the parsed part. -/
structure SingleChain (spans : List (Nat × Nat)) (limit : Nat) : Prop where
  apart : spans.Pairwise fun span later => span.2 ≤ later.1
  filled : ∀ span ∈ spans, span.1 < span.2
  within : ∀ span ∈ spans, span.2 ≤ limit

section Chain

variable {input : Bytes} {parsedLen : Nat} {spans : List (Nat × Nat)} {separators : Bool}

/-- The keys of some spans, all of one syllable. -/
def keysAt (spans : List (Nat × Nat)) : List MatrixKey := spans.map fun span => ⟨⟨0, 0, 0, 0⟩, span.1, span.2⟩

theorem keySpans_keysAt : keySpans (keysAt spans) = spans := by
  simp [keySpans, keysAt, Function.comp_def]

theorem filter_keysAt (position : Nat) : (keysAt spans).filter (fun key => key.syllableStart == position) =
    keysAt (spans.filter fun span => span.1 == position) := by
  simp [keysAt, filter_map, Function.comp_def]

/-- In front of keys the first position holds no zero key. -/
theorem zeroEnd_zero (hspans : spans ≠ []) (hparsed : 0 < min parsedLen input.length) :
    (new input parsedLen spans separators).zeroEnd 0 = none := by
  cases input with
  | nil => rfl
  | cons byte input =>
    have hhead : byte = apostrophe → ¬ (byte :: input).takeWhile (· == apostrophe) = [] := fun heq => by simp [heq]
    simp only [zeroEnd, new, CharOffset.leadingRun, length_eq_zero_iff, hspans, or_false,
      Nat.le_zero, getElem?_cons_zero, some.injEq, reduceCtorEq, if_false]
    rw [if_neg (Nat.ne_of_gt hparsed)]
    refine if_neg ?_
    rintro ⟨hsep, heq, hrun⟩
    rw [if_pos hsep, length_eq_zero_iff] at hrun
    exact hhead heq hrun

namespace SingleChain

variable {limit : Nat} (h : SingleChain spans limit)

include h

theorem inStartOrder : InStartOrder (keysAt spans) := by
  rw [InStartOrder, keysAt, pairwise_map]
  refine h.apart.imp_of_mem fun {span later} hspan _ hle => ?_
  have hfilled := h.filled span hspan
  dsimp only
  omega

variable {span : Nat × Nat}

/-- Two keys are apart or the same. -/
theorem eq_or_apart {other : Nat × Nat} (hspan : span ∈ spans) (hother : other ∈ spans) :
    span = other ∨ span.2 ≤ other.1 ∨ other.2 ≤ span.1 := by
  by_cases heq : span = other
  · exact Or.inl heq
  · have : Std.Symm fun span other : Nat × Nat => span.2 ≤ other.1 ∨ other.2 ≤ span.1 := ⟨fun _ _ => Or.symm⟩
    have hapart : spans.Pairwise fun span other => span.2 ≤ other.1 ∨ other.2 ≤ span.1 := h.apart.imp Or.inl
    exact Or.inr (hapart.forall hspan hother heq)

/-- What a column of a chain answers. -/
theorem at_spec {position : Nat} (hposition : position ≤ input.length) :
    let columns := new input parsedLen spans separators
    ((columns.at_ position).realIsEmpty = (spans.filter fun span => span.1 == position).isEmpty) ∧
    (columns.at_ position).zeroEnd = columns.zeroEnd position ∧
    ((columns.at_ position).firstEnd spans =
      ((spans.filter fun span => span.1 == position).head?.map (·.2)).or (columns.zeroEnd position)) ∧
    ∀ stop, (columns.at_ position).endsWith spans stop =
      ((spans.filter fun span => span.1 == position).any (fun span => span.2 == stop) ||
        columns.zeroEnd position == some stop) := by
  intro columns
  have horder := h.inStartOrder
  have hat : columns.at_ position =
      ⟨(firstAtOrAfter spans position, firstAtOrAfter spans (position + 1)), columns.zeroEnd position⟩ := by
    rw [Columns.at_, Columns.get, if_neg (show ¬ columns.input.length < position from Nat.not_lt.mpr hposition)]
    rfl
  have hle := firstAtOrAfter_le horder (position + 1)
  have hkeys := horder.keysOf position
  rw [keySpans_keysAt] at hle hkeys
  rw [filter_keysAt] at hkeys
  rw [hat]
  generalize firstAtOrAfter spans position = low at *
  generalize firstAtOrAfter spans (position + 1) = high at *
  refine ⟨?_, rfl, ?_, fun stop => ?_⟩
  · rw [@Column.realIsEmpty_eq (keysAt spans) ⟨(low, high), columns.zeroEnd position⟩ hle, hkeys, keysAt,
      isEmpty_map]
  · have hfirst := @Column.firstEnd_eq (keysAt spans) ⟨(low, high), columns.zeroEnd position⟩ hle
    rw [keySpans_keysAt, hkeys, keysAt, head?_map, Option.map_map] at hfirst
    exact hfirst
  · have hends := @Column.endsWith_eq (keysAt spans) ⟨(low, high), columns.zeroEnd position⟩ hle stop
    rw [keySpans_keysAt, hkeys, keysAt, any_map] at hends
    exact hends

/-- Where the zero keys are skipped to from a normal offset, the zero keys are walked back. -/
theorem zeroStartWalk_skipped (hlimit : limit = min parsedLen input.length) (hspans : spans ≠ []) {offset start : Nat}
    (hle : offset ≤ start) (hstart : start ≤ input.length)
    (hcheck : (new input parsedLen spans separators).check offset = .ok ())
    (hrun : ∀ i, offset ≤ i → i < start → ((new input parsedLen spans separators).at_ i).loneZero = true) :
    (new input parsedLen spans separators).zeroStartWalk start = offset := by
  rcases Nat.eq_zero_or_pos offset with rfl | hpos
  · rcases Nat.eq_zero_or_pos start with rfl | hstartPos
    · rfl
    · -- the first column holds no zero key in front of keys
      have hlone := hrun 0 (Nat.le_refl _) hstartPos
      rw [loneZero, Bool.and_eq_true, (h.at_spec (Nat.zero_le _)).2.1] at hlone
      obtain ⟨span, hspan⟩ := exists_mem_of_ne_nil spans hspans
      have hfilled := h.filled span hspan
      have hwithin := h.within span hspan
      rw [zeroEnd_zero hspans (by omega)] at hlone
      cases hlone.2
  · obtain ⟨count, rfl⟩ := Nat.exists_eq_add_of_le hle
    exact zeroStartLoop_run hpos hcheck count hrun

/-- From the end of a key the left move finds its start. -/
theorem endingAt_start (hlimit : limit = min parsedLen input.length) (hspan : span ∈ spans)
    (hcheck : (new input parsedLen spans separators).check span.2 = .ok ()) :
    (new input parsedLen spans separators).endingAt span.2 (span.2 - 1) = span.1 := by
  have hfilled := h.filled span hspan
  have hwithin := h.within span hspan
  obtain ⟨count, hcount⟩ := Nat.exists_eq_add_of_le (show span.1 ≤ span.2 - 1 by omega)
  rw [hcount]
  refine endingAt_eq (Or.inr ?_) count fun i hlow hhigh => ?_
  · change ((new input parsedLen spans separators).at_ span.1).endsWith spans span.2 = true
    rw [(h.at_spec (by omega)).2.2.2, Bool.or_eq_true]
    exact Or.inl (any_eq_true.mpr ⟨span, mem_filter.mpr ⟨hspan, beq_self_eq_true _⟩, beq_self_eq_true _⟩)
  · have hnone : spans.filter (fun other => other.1 == i) = [] := by
      refine filter_eq_nil_iff.mpr fun other hother hat => ?_
      have hat := beq_iff_eq.mp hat
      have hfilled' := h.filled other hother
      rcases h.eq_or_apart hspan hother with rfl | happart | happart <;> omega
    change ((new input parsedLen spans separators).at_ i).endsWith spans span.2 = false
    rw [(h.at_spec (by omega)).2.2.2, hnone, any_nil, Bool.false_or, beq_eq_false_iff_ne]
    intro hzero
    have hi : span.2 = i + 1 := by
      unfold zeroEnd at hzero
      split_ifs at hzero <;> simpa using hzero.symm
    -- then the position before the end is a lone zero key
    have hlone := check_eq_ok.mp hcheck i hi
    obtain ⟨hempty, hzeroEnd, -, -⟩ := @h.at_spec input parsedLen spans separators _ i (by omega)
    rw [← loneZero_at, loneZero, hempty, hzeroEnd, hnone, hzero] at hlone
    cases hlone

end SingleChain

/-- The left move takes back a right move. -/
theorem left_right (h : SingleChain spans (min parsedLen input.length)) {offset right : Nat}
    (hright : rightWordOffsetOverSpans input parsedLen spans separators offset = .ok (some right)) :
    leftWordOffsetOverSpans input parsedLen spans separators right = .ok offset := by
  unfold rightWordOffsetOverSpans at hright
  dsimp only at hright
  rw [bind_check_eq_ok, bind_check_eq_ok] at hright
  obtain ⟨hrange, hcheck, hright⟩ := hright
  have hle : offset ≤ input.length := by
    unfold rangeCheck at hrange
    split_ifs at hrange with hlt
    omega
  obtain ⟨hlow, hhigh, hrun, hstop⟩ := @Columns.skipZeros_cases (new input parsedLen spans separators)
    (input.length - offset) offset
  generalize (new input parsedLen spans separators).skipZeros (input.length - offset) offset = start at *
  have hstart : start ≤ input.length := by omega
  obtain ⟨hempty, hzeroEnd, hfirstEnd, -⟩ := @h.at_spec input parsedLen spans separators _ start hstart
  -- the move goes to the end of a key at the start
  have hkey : (start, right) ∈ spans ∧
      (new input parsedLen spans separators).check right = .ok () := by
    rw [hfirstEnd] at hright
    cases hfilter : spans.filter fun span => span.1 == start with
    | nil =>
      -- else the steps ended at the buffer end, and the move's own check refuses
      rw [hfilter, head?_nil, map_none, none_or] at hright
      cases hzero : (new input parsedLen spans separators).zeroEnd start with
      | none =>
        rw [hzero] at hright
        cases hright
      | some stop =>
        rw [hzero] at hright
        dsimp only at hright
        rw [bind_check_eq_ok] at hright
        obtain ⟨hstopCheck, -⟩ := hright
        have hstopEq : stop = start + 1 := by
          unfold zeroEnd at hzero
          split_ifs at hzero <;> simpa using hzero.symm
        have hlone := check_eq_ok.mp hstopCheck start hstopEq
        rw [← loneZero_at, loneZero, hempty, hzeroEnd, hfilter, hzero] at hlone
        cases hlone
    | cons span rest =>
      rw [hfilter, head?_cons, map_some, some_or] at hright
      dsimp only at hright
      rw [bind_check_eq_ok] at hright
      obtain ⟨hstopCheck, hright⟩ := hright
      have hright : span.2 = right := some.inj (Except.ok.inj hright)
      obtain ⟨hspan, hat⟩ := mem_filter.mp (hfilter ▸ mem_cons_self : span ∈ spans.filter fun span => span.1 == start)
      have hat : span.1 = start := beq_iff_eq.mp hat
      subst hright hat
      exact ⟨hspan, hstopCheck⟩
  obtain ⟨hkey, hstopCheck⟩ := hkey
  have hwithin := h.within _ hkey
  have hending := h.endingAt_start rfl hkey hstopCheck
  have hwalk := h.zeroStartWalk_skipped rfl (ne_nil_of_mem hkey) hlow hstart hcheck hrun
  dsimp only at hwithin hending
  unfold leftWordOffsetOverSpans
  dsimp only
  rw [bind_check_eq_ok, bind_check_eq_ok, hending, hwalk, bind_check_eq_ok]
  exact ⟨if_neg (by omega), hstopCheck, hcheck, rfl⟩

/-- Normalising is idempotent and never moves right, past the parsed part neither. The left move
takes back the right move, from the normal offsets as from the others. -/
theorem moves_chain (input : Bytes) (parsedLen : Nat) (spans : List (Nat × Nat)) (separators : Bool)
    (h : SingleChain spans (min parsedLen input.length)) :
    (∀ cursor offset, lookupOffsetOverSpans input parsedLen spans separators cursor = .ok offset →
      offset ≤ min cursor parsedLen ∧ lookupOffsetOverSpans input parsedLen spans separators offset = .ok offset) ∧
    ∀ offset right, rightWordOffsetOverSpans input parsedLen spans separators offset = .ok (some right) →
      leftWordOffsetOverSpans input parsedLen spans separators right = .ok offset :=
  ⟨fun _ _ => lookupOffset_idem, fun _ _ => left_right h⟩

/-- The moves over a run of separators between two keys. -/
theorem moves_chain_separators :
    SingleChain [(0, 1), (3, 4)] (min 4 (ascii "a''b").length) ∧
    lookupOffsetOverSpans (ascii "a''b") 4 [(0, 1), (3, 4)] true 3 = .ok 1 ∧
    rightWordOffsetOverSpans (ascii "a''b") 4 [(0, 1), (3, 4)] true 1 = .ok (some 4) ∧
    leftWordOffsetOverSpans (ascii "a''b") 4 [(0, 1), (3, 4)] true 4 = .ok 1 := by
  have h : SingleChain [(0, 1), (3, 4)] (min 4 (ascii "a''b").length) := by
    refine ⟨?_, ?_, ?_⟩ <;> simp [ascii]
  obtain ⟨-, hmoves⟩ := moves_chain (ascii "a''b") 4 [(0, 1), (3, 4)] true h
  have hfirst : ∀ position, firstAtOrAfter [(0, 1), (3, 4)] position =
      ((keysAt [(0, 1), (3, 4)]).filter fun key => decide (key.syllableStart < position)).length :=
    h.inStartOrder.firstAtOrAfter
  have hright : rightWordOffsetOverSpans (ascii "a''b") 4 [(0, 1), (3, 4)] true 1 = .ok (some 4) := by
    simp [rightWordOffsetOverSpans, rangeCheck, Columns.check, Columns.skipZeros, Columns.at_, Columns.get,
      Columns.zeroEnd, Columns.new, Column.size, Column.loneZero, Column.realIsEmpty, Column.firstEnd,
      CharOffset.leadingRun, keysAt, hfirst, ascii, apostrophe]
    rfl
  refine ⟨h, ?_, hright, hmoves 1 4 hright⟩
  simp [lookupOffsetOverSpans, Columns.check, Columns.lastNonEmpty, Columns.zeroStartWalk, Columns.zeroStartLoop,
    Columns.at_, Columns.get, Columns.zeroEnd, Columns.new, Column.isEmpty, Column.loneZero, Column.realIsEmpty,
    CharOffset.leadingRun, keysAt, hfirst, ascii, apostrophe]

end Chain

end Oxpinyin.Cursor
