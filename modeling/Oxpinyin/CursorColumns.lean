import Oxpinyin.Lib.Search
import Oxpinyin.RetainedParse

/-!
# The columns of a parse

The keys of a parse stand in columns by their starts, with zero keys at the separators and behind the
parsed length. The character walks build the columns, and the cursor laws search them in the ordered
keys. `get_columns` : each column is the same either way. `get_abiColumns` : the columns of the C
surface have the first item of the same column up to the parsed length.
-/

namespace Oxpinyin

open List Option

/-! ## Built columns -/

namespace CharOffset

/-- The keys at a position, and the end of the zero key there. -/
structure Column where
  real : List MatrixKey
  zeroEnd : Option Nat

namespace Column

def empty : Column := ⟨[], none⟩

/-- The only entry is the zero key. -/
def loneZero (column : Column) : Bool := column.real.isEmpty && column.zeroEnd.isSome

end Column

/-- The apostrophes in front. -/
def leadingRun (input : Bytes) : Nat := (input.takeWhile (· == apostrophe)).length

/-- Puts each key at its start, those past the buffer nowhere. -/
def placeKeys (keys : List MatrixKey) (columns : List Column) : List Column :=
  keys.foldl (fun columns key =>
    columns.modify key.syllableStart fun column => { column with real := column.real ++ [key] }) columns

/-- Puts a zero key at the separators of the parsed part. -/
def placeSeparators (input : Bytes) (parsed : Nat) (keys : List MatrixKey) (columns : List Column) : List Column :=
  (List.range parsed).foldl (fun columns position =>
    if input[position]? = some apostrophe ∧ (leadingRun input ≤ position ∨ keys = []) then
      columns.modify position fun column => { column with zeroEnd := some (position + 1) }
    else columns) columns

def buildColumns (input : Bytes) (parsedLen : Nat) (keys : List MatrixKey) (separators : Bool) : List Column :=
  let bound := input.length
  let columns := placeKeys keys (List.replicate (bound + 1) .empty)
  let parsed := min parsedLen bound
  let columns := if separators then placeSeparators input parsed keys columns else columns
  columns.mapIdx fun position column =>
    if parsed ≤ position then { column with zeroEnd := some (position + 1) } else column

end CharOffset

open CharOffset

/-! ## Searched columns -/

/-- The starts and ends of keys. -/
def keySpans (keys : List MatrixKey) : List (Nat × Nat) := keys.map fun key => (key.syllableStart, key.stop)

/-- The first span that does not start below a position. -/
def firstAtOrAfter (spans : List (Nat × Nat)) (position : Nat) : Nat :=
  Search.bisect (fun i => (spans[i]?).any fun span => decide (span.1 < position)) 0 spans.length

namespace Cursor

/-- The indexes of the keys at a position, and the end of the zero key there. -/
structure Column where
  real : Nat × Nat
  zeroEnd : Option Nat

namespace Column

variable (spans : List (Nat × Nat)) (column : Column)

def realIsEmpty : Bool := decide (column.real.2 ≤ column.real.1)

def size : Nat := column.real.2 - column.real.1 + if column.zeroEnd.isSome then 1 else 0

def isEmpty : Bool := column.realIsEmpty && column.zeroEnd.isNone

def loneZero : Bool := column.realIsEmpty && column.zeroEnd.isSome

def firstEnd : Option Nat :=
  if column.realIsEmpty then column.zeroEnd else (spans[column.real.1]?).map (·.2)

def endsWith (stop : Nat) : Bool :=
  (List.range' column.real.1 (column.real.2 - column.real.1)).any (fun i => (spans[i]?).any fun span =>
    span.2 == stop) ||
    column.zeroEnd == some stop

end Column

/-- The columns of a buffer and its parse. -/
structure Columns where
  input : Bytes
  parsed : Nat
  spans : List (Nat × Nat)
  separators : Bool
  leadingRun : Nat

namespace Columns

def new (input : Bytes) (parsedLen : Nat) (spans : List (Nat × Nat)) (separators : Bool) : Columns where
  input := input
  parsed := min parsedLen input.length
  spans := spans
  separators := separators
  leadingRun := if separators then CharOffset.leadingRun input else 0

variable (columns : Columns)

/-- The end of the zero key at a position. -/
def zeroEnd (position : Nat) : Option Nat :=
  if columns.input = [] then none
  else if columns.parsed ≤ position then some (position + 1)
  else if columns.separators ∧ columns.input[position]? = some apostrophe ∧
      (columns.leadingRun ≤ position ∨ columns.spans.length = 0) then some (position + 1)
  else none

/-- The column at a position, none past the end of the buffer. -/
def get (position : Nat) : Option Column :=
  if columns.input.length < position then none
  else some ⟨(firstAtOrAfter columns.spans position, firstAtOrAfter columns.spans (position + 1)),
    columns.zeroEnd position⟩

/-- The column at a position, past the end of the buffer an empty one. -/
def at_ (position : Nat) : Column := (columns.get position).getD ⟨(0, 0), none⟩

end Columns

end Cursor

/-! ## The columns of the C surface -/

/-- The columns as the C surface reads them. -/
structure AbiColumns where
  keys : List MatrixKey
  input : Bytes
  separators : Bool
  parsedLen : Nat

namespace AbiColumns

variable (columns : AbiColumns)

/-- The number of columns. -/
def len : Nat := columns.parsedLen + 1

/-- The first item of a column : the packed key, its begin and its end. -/
def get (position : Nat) : Option (BitVec 16 × Nat × Nat) :=
  if columns.parsedLen < position then none
  else
    match (columns.keys[firstAtOrAfter (keySpans columns.keys) position]?).filter (·.syllableStart == position) with
    | some key => some (key.key.toPacked, key.syllableStart, key.stop)
    | none =>
      match columns.keys with
      | [] => none
      | first :: _ =>
        if position = columns.parsedLen ∨ (columns.separators ∧ columns.input[position]? = some apostrophe ∧
            first.syllableStart ≤ position) then some (0, position, position + 1)
        else none

def packsZero (position : Nat) : Bool := (columns.get position).any fun item => item.1 == 0

end AbiColumns

/-! ## The ordered keys -/

/-- The starts never decrease. -/
def InStartOrder (keys : List MatrixKey) : Prop :=
  keys.Pairwise fun key later => key.syllableStart ≤ later.syllableStart

section Ordered

variable {keys : List MatrixKey}

/-- Ordered keys are those below a position and those from it on. -/
theorem InStartOrder.cut (h : InStartOrder keys) (position : Nat) :
    keys = keys.filter (fun key => decide (key.syllableStart < position)) ++
      keys.filter fun key => !decide (key.syllableStart < position) := by
  have hcut : keys.Pairwise fun key later =>
      decide (later.syllableStart < position) = true → decide (key.syllableStart < position) = true := by
    refine h.imp fun hle hlt => ?_
    rw [decide_eq_true_eq] at hlt ⊢
    omega
  rw [← Search.takeWhile_eq_filter hcut]
  exact (Search.partitionPoint_cut hcut).2

/-- The search ends behind the keys below the position. -/
theorem InStartOrder.firstAtOrAfter (h : InStartOrder keys) (position : Nat) :
    firstAtOrAfter (keySpans keys) position =
      (keys.filter fun key => decide (key.syllableStart < position)).length := by
  have hcut := h.cut position
  generalize hfront : keys.filter (fun key => decide (key.syllableStart < position)) = front at *
  generalize hback : keys.filter (fun key => !decide (key.syllableStart < position)) = back at *
  have hbelow : ∀ key ∈ front, key.syllableStart < position := fun key hkey => by
    rw [← hfront] at hkey
    exact of_decide_eq_true (mem_filter.mp hkey).2
  have habove : ∀ key ∈ back, ¬ key.syllableStart < position := fun key hkey => by
    rw [← hback] at hkey
    simpa using (mem_filter.mp hkey).2
  refine Search.bisect_eq (fun i hi => ?_) (fun i hi => ?_) _ _ _ rfl (Nat.zero_le _) ?_
  · rw [keySpans, getElem?_map, hcut, getElem?_append_left hi, getElem?_eq_getElem hi]
    simpa using hbelow _ (getElem_mem hi)
  · rw [keySpans, getElem?_map, hcut, getElem?_append_right hi]
    cases hget : back[i - front.length]? with
    | none => rfl
    | some key => simpa using habove key (mem_of_getElem? hget)
  · rw [keySpans, length_map, hcut, length_append]
    exact Nat.le_add_right _ _

/-- The keys of an index range. -/
def keysOf (keys : List MatrixKey) (real : Nat × Nat) : List MatrixKey := (keys.drop real.1).take (real.2 - real.1)

/-- The keys between the two searches are those at the position. -/
theorem InStartOrder.keysOf (h : InStartOrder keys) (position : Nat) :
    keysOf keys (Oxpinyin.firstAtOrAfter (keySpans keys) position,
      Oxpinyin.firstAtOrAfter (keySpans keys) (position + 1)) =
        keys.filter fun key => key.syllableStart == position := by
  have hfront : InStartOrder (keys.filter fun key => decide (key.syllableStart < position + 1)) := h.filter _
  have hsplit := hfront.cut position
  rw [List.filter_filter, List.filter_filter] at hsplit
  have hbelow : (fun key : MatrixKey => decide (key.syllableStart < position) &&
      decide (key.syllableStart < position + 1)) = fun key => decide (key.syllableStart < position) := by
    funext key
    grind
  have hat : (fun key : MatrixKey => !decide (key.syllableStart < position) &&
      decide (key.syllableStart < position + 1)) = fun key => key.syllableStart == position := by
    funext key
    grind
  rw [hbelow, hat] at hsplit
  have htake : keys.take (keys.filter fun key => decide (key.syllableStart < position + 1)).length =
      keys.filter fun key => decide (key.syllableStart < position + 1) := by
    conv_lhs =>
      rw [h.cut (position + 1)]
    rw [take_left']
    simp [List.filter_filter]
  rw [Oxpinyin.keysOf, ← drop_take, h.firstAtOrAfter, h.firstAtOrAfter, htake, hsplit, drop_left]

end Ordered

/-! ## What is built -/

namespace CharOffset

theorem getElem?_placeKeys : ∀ (keys : List MatrixKey) (columns : List Column) (position : Nat),
    (placeKeys keys columns)[position]? = (columns[position]?).map fun column =>
      { column with real := column.real ++ keys.filter fun key => key.syllableStart == position }
  | [], columns, position => by simp [placeKeys]
  | key :: keys, columns, position => by
    rw [placeKeys, foldl_cons]
    rw [← placeKeys, getElem?_placeKeys keys, getElem?_modify, filter_cons]
    cases columns[position]? with
    | none => rfl
    | some column =>
      by_cases heq : key.syllableStart = position
      · simp [heq]
      · simp [heq]

/-- The zero keys of some positions. -/
theorem getElem?_separators {input : Bytes} {keys : List MatrixKey} : ∀ (positions : List Nat) (columns : List Column)
    (position : Nat), (positions.foldl (fun columns position =>
      if input[position]? = some apostrophe ∧ (leadingRun input ≤ position ∨ keys = []) then
        columns.modify position fun column => { column with zeroEnd := some (position + 1) }
      else columns) columns)[position]? = (columns[position]?).map fun column =>
        if position ∈ positions ∧ input[position]? = some apostrophe ∧ (leadingRun input ≤ position ∨ keys = []) then
          { column with zeroEnd := some (position + 1) }
        else column
  | [], columns, position => by simp
  | first :: positions, columns, position => by
    rw [foldl_cons, getElem?_separators positions]
    by_cases hfirst : input[first]? = some apostrophe ∧ (leadingRun input ≤ first ∨ keys = [])
    · rw [if_pos hfirst, getElem?_modify]
      cases columns[position]? with
      | none => rfl
      | some column =>
        by_cases heq : first = position
        · subst heq
          simp [hfirst]
        · simp [heq, Ne.symm heq]
    · rw [if_neg hfirst]
      cases columns[position]? with
      | none => rfl
      | some column =>
        by_cases heq : first = position
        · subst heq
          simp [hfirst]
        · simp [Ne.symm heq]

/-- A built column has the keys at its position, and the zero key the search finds there. -/
theorem getElem?_buildColumns {input : Bytes} (hinput : input ≠ []) (parsedLen : Nat) (keys : List MatrixKey)
    (separators : Bool) (position : Nat) : (buildColumns input parsedLen keys separators)[position]? =
      if input.length < position then none
      else some ⟨keys.filter fun key => key.syllableStart == position,
        (Cursor.Columns.new input parsedLen (keySpans keys) separators).zeroEnd position⟩ := by
  have hkeys : (placeKeys keys (replicate (input.length + 1) .empty))[position]? =
      if input.length < position then none
      else some ⟨keys.filter fun key => key.syllableStart == position, none⟩ := by
    rw [getElem?_placeKeys, getElem?_replicate]
    by_cases hpast : input.length < position
    · rw [if_neg (by omega), if_pos hpast]
      rfl
    · rw [if_pos (by omega), if_neg hpast]
      rfl
  have hplaced : (if separators then placeSeparators input (min parsedLen input.length) keys
      (placeKeys keys (replicate (input.length + 1) .empty))
        else placeKeys keys (replicate (input.length + 1) .empty))[position]? =
      if input.length < position then none
      else some ⟨keys.filter fun key => key.syllableStart == position,
        if position < min parsedLen input.length ∧ separators ∧ input[position]? = some apostrophe ∧
          (leadingRun input ≤ position ∨ keys = []) then some (position + 1) else none⟩ := by
    cases separators with
    | false => simp [hkeys]
    | true =>
      rw [if_pos rfl, placeSeparators, getElem?_separators, hkeys]
      by_cases hpast : input.length < position
      · rw [if_pos hpast, if_pos hpast]
        rfl
      · rw [if_neg hpast, if_neg hpast, map_some]
        simp only [mem_range, true_and]
        split_ifs <;> rfl
  have hcount : (keySpans keys).length = 0 ↔ keys = [] := by
    rw [keySpans, length_map, length_eq_zero_iff]
  unfold buildColumns
  dsimp only
  rw [getElem?_mapIdx, hplaced]
  by_cases hpast : input.length < position
  · rw [if_pos hpast, if_pos hpast]
    rfl
  · rw [if_neg hpast, if_neg hpast, map_some, Cursor.Columns.zeroEnd]
    simp only [Cursor.Columns.new, hcount]
    rw [if_neg hinput]
    by_cases hparsed : min parsedLen input.length ≤ position
    · rw [if_pos hparsed, if_pos hparsed]
    · rw [if_neg hparsed, if_neg hparsed]
      cases separators with
      | false => simp
      | true => simp only [Nat.lt_of_not_le hparsed, true_and, if_true]

end CharOffset

/-! ## The two agree -/

section Ranges

variable {keys : List MatrixKey} {real : Nat × Nat}

theorem length_keysOf (h : real.2 ≤ keys.length) : (keysOf keys real).length = real.2 - real.1 := by
  rw [keysOf, length_take, length_drop]
  omega

theorem getElem?_keysOf (i : Nat) (hi : i < real.2 - real.1) : (keysOf keys real)[i]? = keys[real.1 + i]? := by
  rw [keysOf, getElem?_take_of_lt hi, getElem?_drop]

/-- A key of an index range, by its index. -/
theorem mem_keysOf (h : real.2 ≤ keys.length) {key : MatrixKey} :
    key ∈ keysOf keys real ↔ ∃ i ∈ range' real.1 (real.2 - real.1), keys[i]? = some key := by
  rw [mem_iff_getElem?]
  constructor
  · rintro ⟨i, hi⟩
    have hlt := (List.getElem?_eq_some_iff.mp hi).1
    rw [length_keysOf h] at hlt
    refine ⟨real.1 + i, mem_range'_1.mpr ⟨by omega, by omega⟩, ?_⟩
    rw [← getElem?_keysOf i hlt, hi]
  · rintro ⟨i, hi, hget⟩
    obtain ⟨hlow, hhigh⟩ := mem_range'_1.mp hi
    refine ⟨i - real.1, ?_⟩
    rw [getElem?_keysOf (i - real.1) (by omega), Nat.add_sub_cancel' hlow, hget]

end Ranges

namespace Cursor.Column

variable {keys : List MatrixKey} {column : Column}

theorem realIsEmpty_eq (h : column.real.2 ≤ keys.length) :
    column.realIsEmpty = (keysOf keys column.real).isEmpty := by
  rw [realIsEmpty, Bool.eq_iff_iff, decide_eq_true_eq, isEmpty_iff_length_eq_zero, length_keysOf h]
  exact Nat.sub_eq_zero_iff_le.symm

theorem firstEnd_eq (h : column.real.2 ≤ keys.length) : column.firstEnd (keySpans keys) =
    (((keysOf keys column.real).head?).map (·.stop)).or column.zeroEnd := by
  rw [firstEnd, realIsEmpty_eq h]
  cases hkeys : keysOf keys column.real with
  | nil => rfl
  | cons key rest =>
    have hlength := length_keysOf h
    rw [hkeys, length_cons] at hlength
    have hfirst : (keysOf keys column.real)[0]? = keys[column.real.1 + 0]? := getElem?_keysOf 0 (by omega)
    rw [hkeys, getElem?_cons_zero, Nat.add_zero] at hfirst
    rw [isEmpty_cons, if_neg Bool.false_ne_true, keySpans, getElem?_map, ← hfirst]
    rfl

theorem endsWith_eq (h : column.real.2 ≤ keys.length) (stop : Nat) : column.endsWith (keySpans keys) stop =
    ((keysOf keys column.real).any (fun key => key.stop == stop) || column.zeroEnd == some stop) := by
  rw [endsWith]
  congr 1
  rw [Bool.eq_iff_iff, List.any_eq_true, List.any_eq_true]
  simp only [keySpans, getElem?_map, Option.any_map, Option.any_eq_true, mem_keysOf h]
  constructor
  · rintro ⟨i, hi, key, hkey, hstop⟩
    exact ⟨key, ⟨i, hi, hkey⟩, hstop⟩
  · rintro ⟨key, ⟨i, hi, hkey⟩, hstop⟩
    exact ⟨i, hi, key, hkey, hstop⟩

end Cursor.Column

/-- The first item of a built column. -/
def CharOffset.Column.firstItem (column : CharOffset.Column) (position : Nat) : Option (BitVec 16 × Nat × Nat) :=
  (column.real.head?.map fun key => (key.key.toPacked, key.syllableStart, key.stop)).or
    (column.zeroEnd.map fun stop => (0, position, stop))

section Agree

variable {input : Bytes} {keys : List MatrixKey}

theorem firstAtOrAfter_le (h : InStartOrder keys) (position : Nat) :
    firstAtOrAfter (keySpans keys) position ≤ keys.length := by
  rw [h.firstAtOrAfter]
  exact length_filter_le _ _

variable {position : Nat}

/-- A searched column is the built one. -/
theorem get_columns (hinput : input ≠ []) (h : InStartOrder keys) (parsedLen : Nat) (separators : Bool)
    {column : Cursor.Column}
    (hget : (Cursor.Columns.new input parsedLen (keySpans keys) separators).get position = some column) :
    (buildColumns input parsedLen keys separators)[position]? =
      some ⟨keysOf keys column.real, column.zeroEnd⟩ ∧ column.real.2 ≤ keys.length := by
  rw [Cursor.Columns.get] at hget
  split_ifs at hget with hpast
  cases hget
  refine ⟨?_, firstAtOrAfter_le h _⟩
  replace hpast : ¬ input.length < position := hpast
  rw [getElem?_buildColumns hinput, if_neg hpast, ← h.keysOf]
  rfl

/-- The first key at a position. -/
theorem getElem?_firstAtOrAfter (h : InStartOrder keys) (position : Nat) :
    (keys[firstAtOrAfter (keySpans keys) position]?).filter (·.syllableStart == position) =
      (keys.filter fun key => key.syllableStart == position).head? := by
  have hle := firstAtOrAfter_le h (position + 1)
  rw [← h.keysOf]
  cases hkeys : keysOf keys (firstAtOrAfter (keySpans keys) position,
    firstAtOrAfter (keySpans keys) (position + 1)) with
  | nil =>
    rw [head?_nil, filter_eq_none_iff]
    intro key hkey hstart
    have hmem : key ∈ keys.filter fun key => key.syllableStart == position :=
      mem_filter.mpr ⟨mem_of_getElem? hkey, hstart⟩
    rw [← h.keysOf, hkeys] at hmem
    cases hmem
  | cons key rest =>
    have hlength := @length_keysOf keys (firstAtOrAfter (keySpans keys) position,
      firstAtOrAfter (keySpans keys) (position + 1)) hle
    rw [hkeys, length_cons] at hlength
    have hfirst := @getElem?_keysOf keys (firstAtOrAfter (keySpans keys) position,
      firstAtOrAfter (keySpans keys) (position + 1)) 0 (by omega)
    rw [hkeys, getElem?_cons_zero, Nat.add_zero] at hfirst
    have hmem : key ∈ keys.filter fun key => key.syllableStart == position := by
      rw [← h.keysOf, hkeys]
      exact mem_cons_self
    rw [← hfirst, head?_cons, filter_some, if_pos (mem_filter.mp hmem).2]

/-- A column of the C surface is the first item of the built one, where the first key stands behind the
leading apostrophes. -/
theorem get_abiColumns (hinput : input ≠ []) (h : InStartOrder keys) {parsedLen : Nat}
    (hparsed : parsedLen ≤ input.length)
    {separators : Bool} (hfirst : keys.head?.map (·.syllableStart) = some (leadingRun input))
    (hposition : position ≤ parsedLen) :
    (AbiColumns.mk keys input separators parsedLen).get position =
      ((buildColumns input parsedLen keys separators)[position]?).bind fun column =>
        column.firstItem position := by
  obtain ⟨first, rest, rfl⟩ : ∃ first rest, keys = first :: rest := by
    cases keys with
    | nil => cases hfirst
    | cons first rest => exact ⟨first, rest, rfl⟩
  replace hfirst : first.syllableStart = leadingRun input := some.inj hfirst
  rw [AbiColumns.get, getElem?_buildColumns hinput, if_neg (Nat.not_lt.mpr hposition),
    if_neg (Nat.not_lt.mpr (Nat.le_trans hposition hparsed)), bind_some, CharOffset.Column.firstItem]
  dsimp only
  rw [getElem?_firstAtOrAfter h]
  cases ((first :: rest).filter fun key => key.syllableStart == position).head? with
  | some key => rfl
  | none =>
    dsimp only [map_none, none_or]
    rw [Cursor.Columns.zeroEnd]
    simp only [Cursor.Columns.new, if_neg hinput, Nat.min_eq_left hparsed, hfirst]
    by_cases hend : position = parsedLen
    · simp [hend]
    · rw [if_neg (show ¬ parsedLen ≤ position by omega)]
      cases separators with
      | false => simp [hend]
      | true =>
        simp only [hend, false_or, true_and, if_true, keySpans, length_map, length_cons,
          Nat.add_one_ne_zero, or_false]
        split_ifs <;> rfl

/-- The searched columns answer as the built ones, and those of the C surface with their first items up
to the parsed length. -/
theorem columns_agree (hinput : input ≠ []) (h : InStartOrder keys) (parsedLen : Nat) (separators : Bool) :
    (∀ position, (Cursor.Columns.new input parsedLen (keySpans keys) separators).get position = none ↔
      (CharOffset.buildColumns input parsedLen keys separators)[position]? = none) ∧
    (∀ position column, (Cursor.Columns.new input parsedLen (keySpans keys) separators).get position = some column →
      ∃ built, (CharOffset.buildColumns input parsedLen keys separators)[position]? = some built ∧
        built.real = keysOf keys column.real ∧ built.zeroEnd = column.zeroEnd ∧
        column.size = built.real.length + (if built.zeroEnd.isSome then 1 else 0) ∧
        column.isEmpty = (built.real.isEmpty && built.zeroEnd.isNone) ∧
        column.loneZero = built.loneZero ∧
        column.firstEnd (keySpans keys) = (built.real.head?.map (·.stop)).or built.zeroEnd ∧
        ∀ stop, column.endsWith (keySpans keys) stop =
          (built.real.any (fun key => key.stop == stop) || built.zeroEnd == some stop)) ∧
    (keys.head?.map (·.syllableStart) = some (CharOffset.leadingRun input) →
      (∀ key ∈ keys, key.key.toPacked ≠ 0) → parsedLen ≤ input.length → ∀ position ≤ parsedLen,
        (AbiColumns.mk keys input separators parsedLen).get position =
          ((CharOffset.buildColumns input parsedLen keys separators)[position]?).bind (fun column =>
            column.firstItem position) ∧
        (AbiColumns.mk keys input separators parsedLen).packsZero position =
          ((CharOffset.buildColumns input parsedLen keys separators)[position]?).any CharOffset.Column.loneZero) := by
  refine ⟨fun position => ?_, fun position column hget => ?_, fun hfirst hpacked hparsed position hposition => ?_⟩
  · rw [Cursor.Columns.get, CharOffset.getElem?_buildColumns hinput]
    by_cases hpast : input.length < position
    · simp [Cursor.Columns.new, hpast]
    · simp [Cursor.Columns.new, hpast]
  · obtain ⟨hbuilt, hle⟩ := get_columns hinput h parsedLen separators hget
    refine ⟨_, hbuilt, rfl, rfl, ?_, ?_, ?_, column.firstEnd_eq hle, column.endsWith_eq hle⟩
    · rw [Cursor.Column.size, length_keysOf hle]
    · rw [Cursor.Column.isEmpty, column.realIsEmpty_eq hle]
    · rw [Cursor.Column.loneZero, column.realIsEmpty_eq hle, CharOffset.Column.loneZero]
  · refine ⟨get_abiColumns hinput h hparsed hfirst hposition, ?_⟩
    rw [AbiColumns.packsZero, get_abiColumns hinput h hparsed hfirst hposition]
    rw [CharOffset.getElem?_buildColumns hinput, if_neg (Nat.not_lt.mpr (Nat.le_trans hposition hparsed))]
    rw [bind_some, any_some, CharOffset.Column.firstItem, CharOffset.Column.loneZero]
    cases hreal : keys.filter fun key => key.syllableStart == position with
    | nil =>
      dsimp only
      cases (Cursor.Columns.new input parsedLen (keySpans keys) separators).zeroEnd position <;> rfl
    | cons key rest =>
      have hkey : key ∈ keys := (mem_filter.mp (hreal ▸ mem_cons_self)).1
      simpa using hpacked key hkey

/-- A separator between two keys holds a lone zero key. -/
theorem columns_agree_separator :
    (AbiColumns.mk [⟨⟨1, 0, 1, 0⟩, 0, 1⟩, ⟨⟨1, 0, 1, 0⟩, 2, 3⟩] (ascii "a'a") true 3).get 1 = some (0, 1, 2) := by
  obtain ⟨_, _, habi⟩ := @columns_agree (ascii "a'a") [⟨⟨1, 0, 1, 0⟩, 0, 1⟩, ⟨⟨1, 0, 1, 0⟩, 2, 3⟩] (by simp [ascii])
    (by simp [InStartOrder]) 3 true
  refine (habi rfl ?_ (by simp [ascii]) 1 (by omega)).1.trans ?_
  · simp only [forall_mem_cons]
    exact ⟨by decide, by decide, by simp⟩
  · rfl

/-- One key over the first byte. -/
def oneKey : List MatrixKey := [⟨⟨1, 0, 1, 0⟩, 0, 1⟩]

/-- A parsed length past the input : the C surface has the zero key of its end, and no column is built. -/
theorem columns_past : InStartOrder oneKey ∧ oneKey.head?.map (·.syllableStart) =
    some (CharOffset.leadingRun (ascii "a")) ∧
    (∀ key ∈ oneKey, key.key.toPacked ≠ 0) ∧ (AbiColumns.mk oneKey (ascii "a") false 2).get 2 = some (0, 2, 3) ∧
      (CharOffset.buildColumns (ascii "a") 2 oneKey false)[2]? = none := by
  refine ⟨by simp [oneKey, InStartOrder], rfl, ?_, ?_, rfl⟩
  · rw [oneKey, forall_mem_singleton]
    decide
  · with_unfolding_all rfl

end Agree

end Oxpinyin
