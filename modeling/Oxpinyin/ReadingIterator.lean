import Oxpinyin.TrainingReadings

/-!
# The iterator of the training readings

A call of the iterator resumes the walk where the last reading was found, and it walks on to the
next. What is left to yield is a list (`left`), and a call takes the first of it (`next_spec`). The
calls from a position on give the readings the plain recursion lists, in its order and as often
(`collect_readingsFrom`).
-/

namespace Oxpinyin

open List

section Iterator

variable (matrix : Columns) (input : Bytes) (stop length : Nat)

/-! ## The recursion -/

/-- The readings from a position, behind the keys that lead to it. -/
def readingsFrom (position : Nat) (keys : List ChewingKey) : List (List ChewingKey) :=
  if position = stop ∧ keys.length = length then [keys]
  else if position < stop ∧ input[position]? = some apostrophe ∧
      (matrix[position]?).any List.isEmpty then readingsFrom (position + 1) keys
  else if position < stop ∧ keys.length < length then
    ((matrix[position]?).getD []).flatMap fun edge =>
      if position < edge.to_ then readingsFrom edge.to_ (keys ++ [edge.reading]) else []
  else []
termination_by stop - position

/-! ## The iterator -/

/-- The frames, the innermost first, each a position and the next key of its column. -/
structure TrainingReadings where
  frames : List (Nat × Nat)
  keys : List ChewingKey
  yielded : Bool

namespace TrainingReadings

/-- The iterator from a position on. -/
def new (start : Nat) : TrainingReadings := ⟨[(start, 0)], [], false⟩

def backtrack (readings : TrainingReadings) : TrainingReadings :=
  { readings with
    frames := readings.frames.tail
    keys := if readings.frames.tail = [] then readings.keys else readings.keys.dropLast }

/-- The turns of the loop. There is no answer where the fuel runs out. -/
def walk : Nat → TrainingReadings → Option (Option (List ChewingKey) × TrainingReadings)
  | _, ⟨[], keys, yielded⟩ => some (none, ⟨[], keys, yielded⟩)
  | 0, ⟨_ :: _, _, _⟩ => none
  | fuel + 1, ⟨(position, index) :: frames, keys, yielded⟩ =>
    if position = stop ∧ keys.length = length then
      some (some keys, ⟨(position, index) :: frames, keys, true⟩)
    else if position < stop ∧ input[position]? = some apostrophe ∧
        (matrix[position]?).any List.isEmpty then
      walk fuel ⟨(position + 1, index) :: frames, keys, yielded⟩
    else if stop ≤ position ∨ length ≤ keys.length then
      walk fuel (backtrack ⟨(position, index) :: frames, keys, yielded⟩)
    else
      match (matrix[position]?).bind fun column => column[index]? with
      | none => walk fuel (backtrack ⟨(position, index) :: frames, keys, yielded⟩)
      | some edge =>
        if edge.to_ ≤ position then walk fuel ⟨(position, index + 1) :: frames, keys, yielded⟩
        else walk fuel ⟨(edge.to_, 0) :: (position, index + 1) :: frames, keys ++ [edge.reading], yielded⟩

/-- One call. A reading that was yielded is left first. -/
def next (fuel : Nat) (readings : TrainingReadings) : Option (Option (List ChewingKey) × TrainingReadings) :=
  walk matrix input stop length fuel
    (if readings.yielded then backtrack { readings with yielded := false } else readings)

/-- The readings of the calls up to the first that finds none. -/
def collect (fuel : Nat) : Nat → TrainingReadings → Option (List (List ChewingKey))
  | 0, _ => none
  | calls + 1, readings =>
    match next matrix input stop length fuel readings with
    | none => none
    | some (none, _) => some []
    | some (some keys, readings) => (collect fuel calls readings).map (keys :: ·)

end TrainingReadings

/-! ## What is left -/

/-- The readings of a frame. -/
def frameReadings (frame : Nat × Nat) (keys : List ChewingKey) : List (List ChewingKey) :=
  if frame.1 = stop ∧ keys.length = length then [keys]
  else if frame.1 < stop ∧ input[frame.1]? = some apostrophe ∧ (matrix[frame.1]?).any List.isEmpty then
    readingsFrom matrix input stop length (frame.1 + 1) keys
  else if frame.1 < stop ∧ keys.length < length then
    (((matrix[frame.1]?).getD []).drop frame.2).flatMap fun edge =>
      if frame.1 < edge.to_ then readingsFrom matrix input stop length edge.to_ (keys ++ [edge.reading]) else []
  else []

/-- The readings of the frames, one behind the other. -/
def stackReadings : List (Nat × Nat) → List ChewingKey → List (List ChewingKey)
  | [], _ => []
  | frame :: frames, keys =>
    frameReadings matrix input stop length frame keys ++ stackReadings frames keys.dropLast

/-- What the iterator has not yielded. -/
def TrainingReadings.left (readings : TrainingReadings) : List (List ChewingKey) :=
  if readings.yielded then stackReadings matrix input stop length readings.frames.tail readings.keys.dropLast
  else stackReadings matrix input stop length readings.frames readings.keys

variable {matrix input stop length}

variable (matrix input) in
/-- A frame at a byte that is stepped over has taken no key. -/
def Fresh (frame : Nat × Nat) : Prop := frame.2 = 0 ∨ ¬ HopAt matrix input frame.1

theorem readingsFrom_eq (position : Nat) (keys : List ChewingKey) :
    readingsFrom matrix input stop length position keys = frameReadings matrix input stop length (position,
      0) keys := by
  rw [readingsFrom]
  rfl

theorem hop_iff {position : Nat} : (position < stop ∧ input[position]? = some apostrophe ∧
    (matrix[position]?).any List.isEmpty) ↔ position < stop ∧ HopAt matrix input position := by
  unfold HopAt
  cases matrix[position]? with
  | none => simp
  | some column => simp

/-- A frame that steps over a byte has the readings behind it. -/
theorem frameReadings_hop {position : Nat} (h : position < stop) (hhop : HopAt matrix input position)
    (keys : List ChewingKey) : frameReadings matrix input stop length (position, 0) keys =
      frameReadings matrix input stop length (position + 1, 0) keys := by
  rw [← readingsFrom_eq (position + 1), frameReadings, if_neg fun hdone => Nat.ne_of_lt h hdone.1,
    if_pos (hop_iff.mpr ⟨h, hhop⟩)]

/-- A frame at a column, with room for another key. -/
theorem frameReadings_column {position index : Nat} {keys : List ChewingKey} (h : position < stop)
    (hhop : ¬ HopAt matrix input position) (hroom : keys.length < length) :
    frameReadings matrix input stop length (position, index) keys =
      (((matrix[position]?).getD []).drop index).flatMap fun edge =>
        if position < edge.to_ then readingsFrom matrix input stop length edge.to_ (keys ++
          [edge.reading]) else [] := by
  rw [frameReadings, if_neg fun hdone => Nat.ne_of_lt h hdone.1, if_neg fun hop => hhop (hop_iff.mp hop).2,
    if_pos ⟨h, hroom⟩]

theorem drop_column {position index : Nat} {edge : ScanKey}
    (h : ((matrix[position]?).bind fun column => column[index]?) = some edge) :
    ((matrix[position]?).getD []).drop index = edge :: ((matrix[position]?).getD []).drop (index + 1) := by
  obtain ⟨column, hcolumn, hedge⟩ := Option.bind_eq_some_iff.mp h
  obtain ⟨hlt, hget⟩ := List.getElem?_eq_some_iff.mp hedge
  rw [hcolumn, Option.getD_some, drop_eq_getElem_cons hlt, hget]

namespace TrainingReadings

variable (matrix input stop length) in
/-- What the turns at a frame come to : the frame is left with nothing, or its first reading is
yielded and the others are left. -/
def Settles (frame : Nat × Nat) (frames : List (Nat × Nat)) (keys : List ChewingKey) : Prop :=
  (frameReadings matrix input stop length frame keys = [] ∧ ∃ n, ∀ m,
    walk matrix input stop length (n + m) ⟨frame :: frames, keys, false⟩ =
      walk matrix input stop length m (backtrack ⟨frame :: frames, keys, false⟩)) ∨
  ∃ reading readings n after, frameReadings matrix input stop length frame keys = reading :: readings ∧
    (∀ m, walk matrix input stop length (n + m) ⟨frame :: frames, keys, false⟩ = some (some reading, after)) ∧
    after.left matrix input stop length = readings ++ stackReadings matrix input stop length frames keys.dropLast ∧
    ∀ frame ∈ after.frames, Fresh matrix input frame

variable {position index : Nat} {frames : List (Nat × Nat)} {keys : List ChewingKey}

/-- A frame another one stands for settles as it does. -/
theorem Settles.step {frame next : Nat × Nat} (h : Settles matrix input stop length next frames keys)
    (hreadings : frameReadings matrix input stop length frame keys =
      frameReadings matrix input stop length next keys)
    (hwalk : ∀ m, walk matrix input stop length (m + 1) ⟨frame :: frames, keys, false⟩ =
      walk matrix input stop length m ⟨next :: frames, keys, false⟩) :
    Settles matrix input stop length frame frames keys := by
  rcases h with ⟨hnil, n, hturns⟩ | ⟨reading, readings, n, after, hcons, hturns, hleft, hfresh⟩
  · refine Or.inl ⟨hreadings.trans hnil, n + 1, fun m => ?_⟩
    rw [Nat.add_right_comm, hwalk, hturns]
    rfl
  · refine Or.inr ⟨reading, readings, n + 1, after, hreadings.trans hcons, fun m => ?_, hleft, hfresh⟩
    rw [Nat.add_right_comm, hwalk, hturns]

/-- A frame with a child yields the child's readings, then those behind it. -/
theorem Settles.enter {frame resume child : Nat × Nat} {key : ChewingKey}
    (hchild : Settles matrix input stop length child (resume :: frames) (keys ++ [key]))
    (hresume : Settles matrix input stop length resume frames keys)
    (hreadings : frameReadings matrix input stop length frame keys =
      frameReadings matrix input stop length child (keys ++ [key]) ++
        frameReadings matrix input stop length resume keys)
    (hwalk : ∀ m, walk matrix input stop length (m + 1) ⟨frame :: frames, keys, false⟩ =
      walk matrix input stop length m ⟨child :: resume :: frames, keys ++ [key], false⟩) :
    Settles matrix input stop length frame frames keys := by
  rcases hchild with ⟨hnil, n, hturns⟩ | ⟨reading, readings, n, after, hcons, hturns, hleft, hfresh⟩
  · have hback : backtrack ⟨child :: resume :: frames, keys ++ [key], false⟩ = ⟨resume :: frames, keys, false⟩ := by
      simp [backtrack]
    rw [hnil, nil_append] at hreadings
    rw [hback] at hturns
    rcases hresume with ⟨hnil', n', hturns'⟩ | ⟨reading, readings, n', after, hcons, hturns', hleft, hfresh⟩
    · refine Or.inl ⟨hreadings.trans hnil', n + n' + 1, fun m => ?_⟩
      rw [Nat.add_right_comm, hwalk, Nat.add_assoc, hturns, hturns']
      rfl
    · refine Or.inr ⟨reading, readings, n + n' + 1, after, hreadings.trans hcons, fun m => ?_, hleft, hfresh⟩
      rw [Nat.add_right_comm, hwalk, Nat.add_assoc, hturns, hturns']
  · refine Or.inr ⟨reading, readings ++ frameReadings matrix input stop length resume keys, n + 1, after, ?_,
      fun m => ?_, ?_, hfresh⟩
    · rw [hreadings, hcons, cons_append]
    · rw [Nat.add_right_comm, hwalk, hturns]
    · rw [hleft, stackReadings, dropLast_concat, append_assoc]

/-- The turns at a frame, by induction on what is left of the columns. -/
theorem settles : ∀ (rank : Nat) (frame : Nat × Nat), readingRank matrix stop frame = rank →
    ∀ (frames : List (Nat × Nat)) (keys : List ChewingKey), Fresh matrix input frame →
      (∀ frame ∈ frames, Fresh matrix input frame) → Settles matrix input stop length frame frames keys := by
  intro rank
  induction rank using Nat.strongRecOn with
  | ind rank ih =>
    rintro ⟨position, index⟩ rfl frames keys hfresh hframes
    by_cases hdone : position = stop ∧ keys.length = length
    · refine Or.inr ⟨keys, [], 1, ⟨(position, index) :: frames, keys, true⟩, ?_, fun m => ?_, ?_, ?_⟩
      · rw [frameReadings, if_pos hdone]
      · rw [Nat.add_comm, walk, if_pos hdone]
      · rw [left, if_pos rfl]
        rfl
      · exact fun frame hframe => (mem_cons.mp hframe).elim (fun heq => heq ▸ hfresh) (hframes frame)
    by_cases hhop : position < stop ∧ HopAt matrix input position
    · have hindex : index = 0 := hfresh.resolve_right fun hno => hno hhop.2
      subst hindex
      refine (ih _ (rank_position_lt 0 0 hhop.1 (Nat.lt_succ_self position)) (position + 1, 0) rfl frames keys
        (Or.inl rfl) hframes).step (frameReadings_hop hhop.1 hhop.2 keys) fun m => ?_
      rw [walk, if_neg hdone, if_pos (hop_iff.mpr hhop)]
    by_cases hfull : stop ≤ position ∨ length ≤ keys.length
    · refine Or.inl ⟨?_, 1, fun m => ?_⟩
      · rw [frameReadings, if_neg hdone, if_neg fun hop => hhop (hop_iff.mp hop), if_neg fun hroom => by omega]
      · rw [Nat.add_comm, walk, if_neg hdone, if_neg fun hop => hhop (hop_iff.mp hop), if_pos hfull]
    rw [not_or, Nat.not_le, Nat.not_le] at hfull
    obtain ⟨hlt, hroom⟩ := hfull
    have hno : ¬ HopAt matrix input position := fun hat => hhop ⟨hlt, hat⟩
    have hpast : ¬ (stop ≤ position ∨ length ≤ keys.length) := by omega
    have hcolumn := @frameReadings_column matrix input stop length position index keys hlt hno hroom
    cases hedge : (matrix[position]?).bind fun column => column[index]? with
    | none =>
      refine Or.inl ⟨?_, 1, fun m => ?_⟩
      · have hspent : ((matrix[position]?).getD []).drop index = [] := by
          cases hmatrix : matrix[position]? with
          | none => simp
          | some column =>
            rw [hmatrix, Option.bind_some, List.getElem?_eq_none_iff] at hedge
            rw [Option.getD_some, drop_eq_nil_iff]
            exact hedge
        rw [hcolumn, hspent]
        rfl
      · rw [Nat.add_comm, walk, if_neg hdone, if_neg fun hop => hhop (hop_iff.mp hop), if_neg hpast, hedge]
    | some edge =>
      have hnext := ih _ (rank_index_lt hedge) (position, index + 1) rfl frames keys (Or.inr hno) hframes
      have hrest := @frameReadings_column matrix input stop length position (index + 1) keys hlt hno hroom
      rw [drop_column hedge, flatMap_cons, ← hrest] at hcolumn
      by_cases hto : edge.to_ ≤ position
      · rw [if_neg (Nat.not_lt.mpr hto), nil_append] at hcolumn
        refine hnext.step hcolumn fun m => ?_
        rw [walk, if_neg hdone, if_neg fun hop => hhop (hop_iff.mp hop), if_neg hpast, hedge]
        exact if_pos hto
      · rw [if_pos (Nat.lt_of_not_le hto), readingsFrom_eq] at hcolumn
        have hchild := ih _ (rank_position_lt index 0 hlt (Nat.lt_of_not_le hto)) (edge.to_, 0) rfl
          ((position, index + 1) :: frames) (keys ++ [edge.reading]) (Or.inl rfl) (fun frame hframe =>
            (mem_cons.mp hframe).elim (fun heq => heq ▸ Or.inr hno) (hframes frame))
        refine hchild.enter hnext hcolumn fun m => ?_
        rw [walk, if_neg hdone, if_neg fun hop => hhop (hop_iff.mp hop), if_neg hpast, hedge]
        exact if_neg hto

/-! ## Calls -/

/-- A call takes the first of what is left. -/
theorem next_spec {readings : TrainingReadings} (hfresh : ∀ frame ∈ readings.frames, Fresh matrix input frame) :
    ∃ n after, (∀ fuel, n ≤ fuel → next matrix input stop length fuel readings =
        some ((readings.left matrix input stop length).head?, after)) ∧
      after.left matrix input stop length = (readings.left matrix input stop length).tail ∧
      ∀ frame ∈ after.frames, Fresh matrix input frame := by
  obtain ⟨frames, keys, hleft, hnext, hframes⟩ : ∃ frames keys,
      readings.left matrix input stop length = stackReadings matrix input stop length frames keys ∧
      (∀ fuel, next matrix input stop length fuel readings = walk matrix input stop length fuel ⟨frames, keys,
        false⟩) ∧
      ∀ frame ∈ frames, Fresh matrix input frame := by
    obtain ⟨frames, keys, yielded⟩ := readings
    cases yielded with
    | false => exact ⟨frames, keys, rfl, fun _ => rfl, hfresh⟩
    | true =>
      refine ⟨frames.tail, if frames.tail = [] then keys else keys.dropLast, ?_, fun _ => rfl, fun frame hframe =>
        hfresh frame (mem_of_mem_tail hframe)⟩
      rw [left, if_pos rfl]
      cases hframes : frames.tail with
      | nil => rfl
      | cons frame rest => rw [if_neg (cons_ne_nil frame rest)]
  clear hfresh
  rw [hleft]
  simp only [hnext]
  clear hleft hnext
  induction frames generalizing keys with
  | nil => exact ⟨0, ⟨[], keys, false⟩, fun fuel _ => by cases fuel <;> rfl, rfl, fun _ hframe =>
      absurd hframe not_mem_nil⟩
  | cons frame frames ih =>
    have hrest : ∀ frame ∈ frames, Fresh matrix input frame := fun other hother =>
      hframes other (mem_cons_of_mem _ hother)
    rcases @settles matrix input stop length _ frame rfl frames keys (hframes frame mem_cons_self) hrest with
      ⟨hnil, n, hturns⟩ | ⟨reading, rest, n, after, hcons, hturns, hleft, hafter⟩
    · obtain ⟨n', after, hcall, hleft, hafter⟩ := ih (if frames = [] then keys else keys.dropLast) hrest
      have hstack : stackReadings matrix input stop length frames (if frames = [] then keys else keys.dropLast) =
          stackReadings matrix input stop length (frame :: frames) keys := by
        rw [stackReadings, hnil, nil_append]
        split_ifs with hframes
        · rw [hframes]
          rfl
        · rfl
      rw [hstack] at hcall hleft
      refine ⟨n + n', after, fun fuel hfuel => ?_, hleft, hafter⟩
      have hsplit : fuel = n + (fuel - n) := by omega
      rw [hsplit, hturns]
      exact hcall (fuel - n) (by omega)
    · rw [stackReadings, hcons, cons_append]
      refine ⟨n, after, fun fuel hfuel => ?_, hleft, hafter⟩
      have hsplit : fuel = n + (fuel - n) := by omega
      rw [hsplit, hturns]
      rfl

/-- Calls until one finds none give what is left. -/
theorem collect_left : ∀ (found : List (List ChewingKey)) {readings : TrainingReadings},
    readings.left matrix input stop length = found → (∀ frame ∈ readings.frames, Fresh matrix input frame) →
    ∃ n, ∀ fuel calls, n ≤ fuel → found.length < calls →
      collect matrix input stop length fuel calls readings = some found
  | [], readings, hleft, hfresh => by
    obtain ⟨n, after, hcall, _, _⟩ := @next_spec matrix input stop length readings hfresh
    refine ⟨n, fun fuel calls hfuel hcalls => ?_⟩
    obtain ⟨more, rfl⟩ := Nat.exists_eq_add_of_lt hcalls
    rw [collect, hcall fuel hfuel, hleft]
    rfl
  | reading :: found, readings, hleft, hfresh => by
    obtain ⟨n, after, hcall, hafter, hfresh'⟩ := @next_spec matrix input stop length readings hfresh
    rw [hleft, tail_cons] at hafter
    obtain ⟨n', hrest⟩ := collect_left found hafter hfresh'
    refine ⟨max n n', fun fuel calls hfuel hcalls => ?_⟩
    obtain ⟨more, rfl⟩ := Nat.exists_eq_add_of_lt hcalls
    have hsplit : (reading :: found).length + more + 1 = (found.length + more + 1) + 1 := by
      rw [length_cons]
      omega
    rw [hsplit, collect, hcall fuel (Nat.le_trans (Nat.le_max_left _ _) hfuel), hleft]
    dsimp only [head?_cons]
    rw [hrest fuel (found.length + more + 1) (Nat.le_trans (Nat.le_max_right _ _) hfuel) (by omega)]
    rfl

/-- The calls of an iterator end, and they give the readings of the recursion. -/
theorem collect_readingsFrom (matrix : Columns) (input : Bytes) (start stop length : Nat) :
    ∃ n, ∀ fuel calls, n ≤ fuel → (readingsFrom matrix input stop length start []).length < calls →
      collect matrix input stop length fuel calls (new start) =
        some (readingsFrom matrix input stop length start []) := by
  refine collect_left _ ?_ fun frame hframe => Or.inl ?_
  · rw [left, new, if_neg Bool.false_ne_true, stackReadings, readingsFrom_eq]
    exact append_nil _
  · rw [mem_singleton.mp hframe]

end TrainingReadings

end Iterator

end Oxpinyin
