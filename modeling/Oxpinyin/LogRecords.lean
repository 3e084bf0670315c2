import Oxpinyin.Inventory
import Oxpinyin.Lib.LittleEndian
import Oxpinyin.Lib.Run

/-!
# The record log of a phrase index

The log of `user_files.rs` : records of four kinds, one behind the other, with no framing
but the lengths they carry. `LogReader.next` takes one record at a time. A field past the
end reads as its default, an unknown type ends the walk and a payload past the end is a
fault.
-/

namespace Oxpinyin

open List Option LittleEndian Run Except

/-- One record of the log. -/
inductive LogRecord where
  | add (token : BitVec 32) (newItem : Bytes)
  | remove (token : BitVec 32) (oldItem : Bytes)
  | modify (token : BitVec 32) (oldItem newItem : Bytes)
  | modifyHeader (oldTotal newTotal : BitVec 32)
  deriving DecidableEq

open LogRecord

/-- The payloads a record carries. -/
def LogRecord.payloads : LogRecord → List Bytes
  | .add _ newItem => [newItem]
  | .remove _ oldItem => [oldItem]
  | .modify _ oldItem newItem => [oldItem, newItem]
  | .modifyHeader _ _ => []

/-- Why the walk ends at a record. -/
inductive LogFault where
  /-- A header record with a token. -/
  | headerToken (token : BitVec 32)
  /-- A payload past the end. -/
  | overRead
  deriving DecidableEq

/-- How a walk ended. -/
inductive LogEnd where
  | complete
  | unknownType
  | overRead
  deriving DecidableEq

/-- The walk over a log. -/
structure LogReader where
  bytes : Bytes
  offset : Nat
  done : Bool
  end_ : Option LogEnd
  deriving DecidableEq

/-- The walk of a log's records, at its start. -/
def logRecords (bytes : Bytes) : LogReader := ⟨bytes, 0, false, none⟩

namespace LogReader

/-- The payload at an offset. -/
def takePayload (bytes : Bytes) (at_ : Nat) (len : BitVec 16) : Except LogFault Bytes :=
  if len = 0 then .ok []
  else
    match range? bytes at_ (at_ + len.toNat) with
    | some payload => .ok payload
    | none => .error .overRead

/-- The length at an offset, zero past the end. -/
def lenAt (bytes : Bytes) (at_ : Nat) : BitVec 16 := (word16At bytes at_).getD 0

/-- The total a header run starts with, zero for a shorter run. -/
def runTotal (run : Bytes) : BitVec 32 := (word32At run 0).getD 0

/-- A record with one payload and the offset behind it. -/
def stepOne (bytes : Bytes) (offset : Nat) (record : Bytes → LogRecord) :
    Except LogFault (LogRecord × Nat) := do
  let len := lenAt bytes offset
  let payload ← takePayload bytes (offset + 2) len
  return (record payload, offset + 2 + len.toNat)

/-- A record with an old and a new payload and the offset behind it. -/
def stepModify (bytes : Bytes) (offset : Nat) (token : BitVec 32) :
    Except LogFault (LogRecord × Nat) := do
  let oldLen := lenAt bytes offset
  let newLen := lenAt bytes (offset + 2)
  let oldItem ← takePayload bytes (offset + 4) oldLen
  let newItem ← takePayload bytes (offset + 4 + oldLen.toNat) newLen
  return (.modify token oldItem newItem, offset + 4 + oldLen.toNat + newLen.toNat)

/-- A header record and the offset behind it. -/
def stepHeader (bytes : Bytes) (offset : Nat) (token : BitVec 32) :
    Except LogFault (LogRecord × Nat) :=
  if token ≠ 0 then .error (.headerToken token)
  else do
    let len := lenAt bytes offset
    let oldRun ← takePayload bytes (offset + 2) len
    let newRun ← takePayload bytes (offset + 2 + len.toNat) len
    return (.modifyHeader (runTotal oldRun) (runTotal newRun), offset + 2 + len.toNat + len.toNat)

/-- One record and the offset behind it, a fault, or nothing for an unknown type. -/
def step (bytes : Bytes) (offset : Nat) : Option (Except LogFault (LogRecord × Nat)) := do
  let logType ← word32At bytes offset
  let token := (word32At bytes (offset + 4)).getD 0
  if logType = 1 then some (stepOne bytes (offset + 8) (.add token))
  else if logType = 2 then some (stepOne bytes (offset + 8) (.remove token))
  else if logType = 3 then some (stepModify bytes (offset + 8) token)
  else if logType = 4 then some (stepHeader bytes (offset + 8) token)
  else none

/-- The next record, and the walk behind it. -/
def next (reader : LogReader) : LogReader × Option (Except LogFault LogRecord) :=
  if reader.done then (reader, none)
  else if reader.bytes.length ≤ reader.offset then
    ({ reader with done := true, end_ := some .complete }, none)
  else
    match step reader.bytes reader.offset with
    | some (.ok (record, offset)) => ({ reader with offset := offset }, some (.ok record))
    | some (.error fault) =>
      ({ reader with
          done := true
          end_ := if fault = .overRead then some .overRead else reader.end_ },
        some (.error fault))
    | none => ({ reader with done := true, end_ := some .unknownType }, none)

/-- The walk after a number of calls. -/
def after (reader : LogReader) : Nat → LogReader
  | 0 => reader
  | n + 1 => (reader.after n).next.1

/-- What a number of calls yield, up to the end of the walk. -/
def taken : Nat → LogReader → List (Except LogFault LogRecord)
  | 0, _ => []
  | n + 1, reader =>
    match reader.next with
    | (after, some item) => item :: taken n after
    | (_, none) => []

/-- What the `n`-th call yields, from zero. -/
def yielded (reader : LogReader) (n : Nat) : Option (Except LogFault LogRecord) :=
  (reader.after n).next.2

end LogReader

/-- The whole walk of a log. -/
def logItems (bytes : Bytes) : List (Except LogFault LogRecord) :=
  (logRecords bytes).taken (bytes.length + 2)

/-! ## Encoding -/

/-- A payload that its length field cannot hold, by the name of the field. -/
structure LogEncodeError where
  what : String
  deriving DecidableEq

/-- The length field of a payload. -/
def u16Len (payload : Bytes) (what : String) : Except LogEncodeError (BitVec 16) :=
  if payload.length < 2 ^ 16 then .ok (BitVec.ofNat 16 payload.length) else .error ⟨what⟩

/-- The type and the token of a record. -/
def pushHead (logType token : BitVec 32) : Bytes := le32 logType ++ le32 token

/-- The bytes of one record. -/
def encodeLogRecord : LogRecord → Except LogEncodeError Bytes
  | .add token newItem => do
    let len ← u16Len newItem "ADD payload"
    return pushHead 1 token ++ le16 len ++ newItem
  | .remove token oldItem => do
    let len ← u16Len oldItem "REMOVE payload"
    return pushHead 2 token ++ le16 len ++ oldItem
  | .modify token oldItem newItem => do
    let oldLen ← u16Len oldItem "MODIFY old payload"
    let newLen ← u16Len newItem "MODIFY new payload"
    return pushHead 3 token ++ le16 oldLen ++ le16 newLen ++ oldItem ++ newItem
  | .modifyHeader oldTotal newTotal =>
    return pushHead 4 0 ++ le16 4 ++ le32 oldTotal ++ le32 newTotal

/-- The bytes of a log. -/
def encodeLogRecords (records : List LogRecord) : Except LogEncodeError Bytes :=
  records.foldlM (fun out record => (encodeLogRecord record).map (out ++ ·)) []

/-! ## Any log -/

namespace LogReader

variable {bytes payload : Bytes} {len : BitVec 16}

/-- A payload is a range of the log. -/
theorem takePayload_slice {at_ : Nat} (h : takePayload bytes at_ len = .ok payload) :
    ∃ start stop, range? bytes start stop = some payload := by
  unfold takePayload at h
  split_ifs at h with hlen
  · obtain rfl := ok.inj h
    exact ⟨0, 0, by simp [range?]⟩
  · cases hrange : range? bytes at_ (at_ + len.toNat) with
    | none =>
      rw [hrange] at h
      cases h
    | some part =>
      rw [hrange] at h
      obtain rfl := ok.inj h
      exact ⟨_, _, hrange⟩

theorem takePayload_length {at_ : Nat} (h : takePayload bytes at_ len = .ok payload) : payload.length < 2 ^ 16 := by
  unfold takePayload at h
  split_ifs at h with hlen
  · obtain rfl := ok.inj h
    exact Nat.two_pow_pos 16
  · cases hrange : range? bytes at_ (at_ + len.toNat) with
    | none =>
      rw [hrange] at h
      cases h
    | some part =>
      rw [hrange] at h
      obtain rfl := ok.inj h
      obtain ⟨_, _, _, _, hstop⟩ := range?_eq_some_iff.mp hrange
      omega

/-- A record read lies behind its start, and its payloads were taken from the log. -/
def Takes (bytes : Bytes) (offset : Nat) (record : LogRecord) (stop : Nat) : Prop :=
  offset < stop ∧ ∀ payload ∈ record.payloads, ∃ at_ len, takePayload bytes at_ len = .ok payload

variable {offset stop : Nat} {record : LogRecord}

theorem stepOne_takes {make : Bytes → LogRecord} (hmake : ∀ payload, (make payload).payloads = [payload])
    (h : stepOne bytes offset make = .ok (record, stop)) : Takes bytes offset record stop := by
  obtain ⟨payload, hpayload, hrecord⟩ := bind_eq_ok h
  obtain ⟨rfl, rfl⟩ := Prod.mk.inj (ok.inj hrecord)
  refine ⟨by omega, fun part hpart => ?_⟩
  rw [hmake, mem_singleton] at hpart
  exact ⟨_, _, hpart ▸ hpayload⟩

variable {token : BitVec 32}

theorem stepModify_takes (h : stepModify bytes offset token = .ok (record, stop)) :
    Takes bytes offset record stop := by
  obtain ⟨oldItem, hold, h⟩ := bind_eq_ok h
  obtain ⟨newItem, hnew, hrecord⟩ := bind_eq_ok h
  obtain ⟨rfl, rfl⟩ := Prod.mk.inj (ok.inj hrecord)
  refine ⟨by omega, fun part hpart => ?_⟩
  rcases mem_cons.mp hpart with rfl | hpart
  · exact ⟨_, _, hold⟩
  · rw [mem_singleton.mp hpart]
    exact ⟨_, _, hnew⟩

theorem stepHeader_takes (h : stepHeader bytes offset token = .ok (record, stop)) :
    Takes bytes offset record stop := by
  unfold stepHeader at h
  split_ifs at h with htoken
  obtain ⟨oldRun, _, h⟩ := bind_eq_ok h
  obtain ⟨newRun, _, hrecord⟩ := bind_eq_ok h
  obtain ⟨rfl, rfl⟩ := Prod.mk.inj (ok.inj hrecord)
  exact ⟨by omega, by simp [payloads]⟩

theorem step_takes (h : step bytes offset = some (.ok (record, stop))) : Takes bytes offset record stop := by
  obtain ⟨logType, _, h⟩ := bind_eq_some_iff.mp h
  dsimp only at h
  have hgo : Takes bytes (offset + 8) record stop := by
    split_ifs at h
    · exact stepOne_takes (fun _ => rfl) (some.inj h)
    · exact stepOne_takes (fun _ => rfl) (some.inj h)
    · exact stepModify_takes (some.inj h)
    · exact stepHeader_takes (some.inj h)
  exact ⟨Nat.lt_of_le_of_lt (Nat.le_add_right _ _) hgo.1, hgo.2⟩

/-- What is left of a walk. -/
def remaining (reader : LogReader) : Nat :=
  if reader.done then 0 else reader.bytes.length - reader.offset + 1

/-- Everything one call can do. -/
theorem next_cases (reader : LogReader) :
    (reader.next.2 = none ∧ reader.next.1.done = true) ∨
    (∃ fault, reader.next.2 = some (.error fault) ∧ reader.next.1.done = true ∧
      reader.next.1.remaining < reader.remaining) ∨
    ∃ record, reader.next.2 = some (.ok record) ∧ reader.next.1.remaining < reader.remaining ∧
      ∀ payload ∈ record.payloads, ∃ start stop, range? reader.bytes start stop = some payload := by
  unfold next
  split_ifs with hdone hend
  · exact Or.inl ⟨rfl, hdone⟩
  · exact Or.inl ⟨rfl, rfl⟩
  · have hleft : reader.remaining = reader.bytes.length - reader.offset + 1 := if_neg hdone
    cases hstep : step reader.bytes reader.offset with
    | none => exact Or.inl ⟨rfl, rfl⟩
    | some result =>
      cases result with
      | error fault =>
        refine Or.inr (Or.inl ⟨fault, rfl, rfl, ?_⟩)
        rw [hleft]
        exact Nat.succ_pos _
      | ok answer =>
        obtain ⟨record, stop⟩ := answer
        obtain ⟨hlt, htaken⟩ := step_takes hstep
        refine Or.inr (Or.inr ⟨record, rfl, ?_, fun payload hpayload => ?_⟩)
        · have hnext : LogReader.remaining { reader with offset := stop } =
              reader.bytes.length - stop + 1 := if_neg hdone
          rw [hleft, hnext]
          omega
        · obtain ⟨_, _, hpart⟩ := htaken payload hpayload
          exact takePayload_slice hpart

theorem next_bytes (reader : LogReader) : reader.next.1.bytes = reader.bytes := by
  unfold next
  split_ifs
  · rfl
  · rfl
  · rcases step reader.bytes reader.offset with _ | _ | _ <;> rfl

theorem after_bytes (reader : LogReader) (n : Nat) : (reader.after n).bytes = reader.bytes := by
  induction n with
  | zero => rfl
  | succ n ih => rw [after, next_bytes, ih]

theorem next_of_done {reader : LogReader} (h : reader.done = true) : reader.next = (reader, none) :=
  if_pos h

theorem after_succ (reader : LogReader) (n : Nat) : reader.after (n + 1) = reader.next.1.after n := by
  induction n with
  | zero => rfl
  | succ n ih => rw [after, ih, after]

theorem yielded_succ (reader : LogReader) (n : Nat) : reader.yielded (n + 1) = reader.next.1.yielded n := by
  rw [yielded, after_succ, yielded]

theorem after_of_done {reader : LogReader} (h : reader.done = true) : ∀ n, reader.after n = reader
  | 0 => rfl
  | n + 1 => by rw [after_succ, next_of_done h, after_of_done h n]

/-- Behind a call that leaves the walk done nothing is yielded. -/
theorem yielded_of_done : ∀ {n m : Nat} {reader : LogReader}, (reader.after (n + 1)).done = true →
    n < m → reader.yielded m = none
  | _, 0, _, _, hm => by omega
  | 0, m + 1, reader, hdone, _ => by
    have hnext : reader.next.1.done = true := hdone
    rw [yielded_succ, yielded, after_of_done hnext, next_of_done hnext]
  | n + 1, m + 1, reader, hdone, hm => by
    rw [after_succ] at hdone
    rw [yielded_succ]
    exact yielded_of_done hdone (Nat.lt_of_succ_lt_succ hm)

/-- A walk that says how it ended is done. -/
theorem done_of_end {bytes : Bytes} : ∀ n, ((logRecords bytes).after n).end_.isSome = true →
    ((logRecords bytes).after n).done = true
  | 0, h => by cases h
  | n + 1, h => by
    have ih := @done_of_end bytes n
    rw [after] at h ⊢
    unfold next at h ⊢
    split_ifs at h ⊢ with hdone hend
    · exact hdone
    · rfl
    · revert h
      rcases step ((logRecords bytes).after n).bytes ((logRecords bytes).after n).offset with
        _ | _ | _
      · exact fun _ => rfl
      · exact fun _ => rfl
      · exact ih

/-- Each record yielded brings the end nearer. -/
theorem exists_yielded_none (reader : LogReader) : ∃ n ≤ reader.remaining, reader.yielded n = none := by
  induction hleft : reader.remaining using Nat.strongRecOn generalizing reader with
  | _ left ih =>
    have hgo : reader.next.1.remaining < reader.remaining → ∃ n ≤ left, reader.yielded n = none := by
      intro hless
      obtain ⟨n, hn, hnone⟩ := ih _ (hleft ▸ hless) reader.next.1 rfl
      exact ⟨n + 1, by omega, by rw [yielded_succ, hnone]⟩
    rcases next_cases reader with ⟨hnone, _⟩ | ⟨fault, _, _, hless⟩ | ⟨record, _, hless, _⟩
    · exact ⟨0, Nat.zero_le _, hnone⟩
    · exact hgo hless
    · exact hgo hless

/-- Enough calls yield the whole walk. -/
theorem getElem?_taken : ∀ {n : Nat} {reader : LogReader}, reader.remaining < n → ∀ i : Nat,
    (taken n reader)[i]? = reader.yielded i
  | 0, _, h, _ => absurd h (Nat.not_lt_zero _)
  | n + 1, reader, h, i => by
    have hmore : ∀ item, reader.next.2 = some item → reader.next.1.remaining < reader.remaining →
        (taken (n + 1) reader)[i]? = reader.yielded i := by
      intro item hitem hless
      have hnext : reader.next = (reader.next.1, some item) := Prod.ext rfl hitem
      rw [taken, hnext]
      dsimp only
      cases i with
      | zero => rw [getElem?_cons_zero, yielded, after, hitem]
      | succ i => rw [getElem?_cons_succ, getElem?_taken (by omega), yielded_succ]
    rcases next_cases reader with ⟨hnone, hdone⟩ | ⟨fault, hfault, _, hless⟩ | ⟨record, hrecord, hless, _⟩
    · have hnext : reader.next = (reader.next.1, none) := Prod.ext rfl hnone
      rw [taken, hnext]
      dsimp only
      cases i with
      | zero => rw [getElem?_nil, yielded, after, hnone]
      | succ i => rw [getElem?_nil, yielded_of_done (show (reader.after 1).done = true from hdone) (Nat.succ_pos i)]
    · exact hmore _ hfault hless
    · exact hmore _ hrecord hless

/-- A record's payloads are no longer than their length fields say. -/
theorem step_length (h : step bytes offset = some (.ok (record, stop))) :
    ∀ payload ∈ record.payloads, payload.length < 2 ^ 16 := by
  intro payload hpayload
  obtain ⟨_, _, hpart⟩ := (step_takes h).2 payload hpayload
  exact takePayload_length hpart

/-- A payload that was read is short. -/
theorem length_of_mem_taken : ∀ {n : Nat} {reader : LogReader} {record : LogRecord},
    .ok record ∈ taken n reader → ∀ payload ∈ record.payloads, payload.length < 2 ^ 16
  | 0, _, _, h => by cases h
  | n + 1, reader, record, h => by
    rw [taken] at h
    cases hnext : reader.next with
    | mk after item =>
      rw [hnext] at h
      cases item with
      | none => cases h
      | some item =>
        rcases mem_cons.mp h with rfl | h
        · unfold next at hnext
          split_ifs at hnext
          · cases hnext
          · cases hnext
          · cases hstep : step reader.bytes reader.offset with
            | none =>
              rw [hstep] at hnext
              cases hnext
            | some result =>
              rw [hstep] at hnext
              cases result with
              | error fault => cases hnext
              | ok answer =>
                obtain ⟨found, stop⟩ := answer
                obtain rfl := ok.inj (some.inj (Prod.mk.inj hnext).2)
                exact step_length hstep
        · exact length_of_mem_taken h

/-! ## An encoded log -/

variable {front back : Bytes}

theorem lenAt_eq {bytes front back : Bytes} {len : BitVec 16} {at_ : Nat}
    (h : bytes = front ++ le16 len ++ back) (hat : at_ = front.length) : lenAt bytes at_ = len := by
  rw [lenAt, word16At_eq h hat, getD_some]

/-- A payload behind the length it fits in. -/
theorem takePayload_eq {bytes front payload back : Bytes} {len : BitVec 16} {at_ : Nat}
    (h : bytes = front ++ payload ++ back) (hat : at_ = front.length) (hlen : len.toNat = payload.length) :
    takePayload bytes at_ len = .ok payload := by
  unfold takePayload
  split_ifs with hzero
  · rw [hzero] at hlen
    rw [length_eq_zero_iff.mp hlen.symm]
  · rw [hlen, h, range?_append front payload back hat (by rw [hat])]

theorem u16Len_eq_ok {what : String} (h : u16Len payload what = .ok len) : len.toNat = payload.length := by
  unfold u16Len at h
  split_ifs at h with hfits
  obtain rfl := ok.inj h
  rw [BitVec.toNat_ofNat, Nat.mod_eq_of_lt hfits]

theorem stepOne_eq (make : Bytes → LogRecord)
    (h : bytes = front ++ (le16 len ++ payload ++ back)) (hlen : len.toNat = payload.length) :
    stepOne bytes front.length make = .ok (make payload, front.length + 2 + payload.length) := by
  have hread := @lenAt_eq bytes front (payload ++ back) len front.length (by simp [h]) rfl
  have hpayload := @takePayload_eq bytes (front ++ le16 len) payload back len (front.length + 2)
    (by simp [h]) (by simp) hlen
  rw [stepOne, hread, hpayload, hlen]
  rfl

theorem stepModify_eq {oldItem newItem : Bytes} {oldLen newLen : BitVec 16} (token : BitVec 32)
    (h : bytes = front ++ (le16 oldLen ++ le16 newLen ++ oldItem ++ newItem ++ back))
    (hold : oldLen.toNat = oldItem.length) (hnew : newLen.toNat = newItem.length) :
    stepModify bytes front.length token =
      .ok (.modify token oldItem newItem, front.length + 4 + oldItem.length + newItem.length) := by
  have hread := @lenAt_eq bytes front (le16 newLen ++ oldItem ++ newItem ++ back) oldLen front.length
    (by simp [h]) rfl
  have hread' := @lenAt_eq bytes (front ++ le16 oldLen) (oldItem ++ newItem ++ back) newLen
    (front.length + 2) (by simp [h]) (by simp)
  have hpayload := @takePayload_eq bytes (front ++ le16 oldLen ++ le16 newLen) oldItem
    (newItem ++ back) oldLen (front.length + 4) (by simp [h]) (by simp) hold
  have hpayload' := @takePayload_eq bytes (front ++ le16 oldLen ++ le16 newLen ++ oldItem) newItem
    back newLen (front.length + 4 + oldItem.length) (by simp [h]) (by simp; omega) hnew
  simp only [stepModify, hread, hread', hpayload, hold, bind, bind, hpayload', hnew]
  rfl

theorem runTotal_le32 (total : BitVec 32) : runTotal (le32 total) = total := by
  rw [runTotal, @word32At_eq _ [] [] total 0 (by simp) rfl, getD_some]

theorem stepHeader_eq (oldTotal newTotal : BitVec 32)
    (h : bytes = front ++ (le16 4 ++ le32 oldTotal ++ le32 newTotal ++ back)) :
    stepHeader bytes front.length 0 = .ok (.modifyHeader oldTotal newTotal, front.length + 10) := by
  have hread := @lenAt_eq bytes front (le32 oldTotal ++ le32 newTotal ++ back) 4 front.length (by simp [h]) rfl
  have hrun := @takePayload_eq bytes (front ++ le16 4) (le32 oldTotal) (le32 newTotal ++ back) 4
    (front.length + 2) (by simp [h]) (by simp) (by simp)
  have hrun' := @takePayload_eq bytes (front ++ le16 4 ++ le32 oldTotal) (le32 newTotal) back 4
    (front.length + 2 + 4) (by simp [h]) (by simp) (by simp)
  have hfour : (4 : BitVec 16).toNat = 4 := rfl
  simp only [stepHeader, ne_eq, not_true_eq_false, if_false, hread, hrun, hfour, bind, Except.bind,
    hrun', runTotal_le32]
  rfl

/-- The type and the token of a record, at its start. -/
theorem word32At_pushHead {bytes front body : Bytes} (logType token : BitVec 32)
    (h : bytes = front ++ (pushHead logType token ++ body)) :
    word32At bytes front.length = some logType ∧
      (word32At bytes (front.length + 4)).getD 0 = token ∧
      bytes = (front ++ pushHead logType token) ++ body ∧
      front.length + 8 = (front ++ pushHead logType token).length := by
  have htype := @word32At_eq bytes front (le32 token ++ body) logType front.length (by simp [h, pushHead]) rfl
  have htoken := @word32At_eq bytes (front ++ le32 logType) body token (front.length + 4)
    (by simp [h, pushHead]) (by simp)
  refine ⟨htype, by rw [htoken, getD_some], by simp [h], by simp [pushHead]⟩

/-- One step at a record whose type and token are there. -/
theorem step_eq {logType : BitVec 32} (htype : word32At bytes offset = some logType)
    (htoken : (word32At bytes (offset + 4)).getD 0 = token) :
    step bytes offset =
      if logType = 1 then some (stepOne bytes (offset + 8) (.add token))
      else if logType = 2 then some (stepOne bytes (offset + 8) (.remove token))
      else if logType = 3 then some (stepModify bytes (offset + 8) token)
      else if logType = 4 then some (stepHeader bytes (offset + 8) token)
      else none := by
  simp only [step, htype, htoken, bind_eq_bind, bind_some]

/-- A record is read back from its bytes, whatever is around them. -/
theorem step_encodeLogRecord {encoded : Bytes} (h : encodeLogRecord record = .ok encoded) (front back : Bytes) :
    step (front ++ encoded ++ back) front.length = some (.ok (record, (front ++ encoded).length)) := by
  cases record with
  | add token newItem =>
    obtain ⟨len, hlen, h⟩ := bind_eq_ok h
    obtain rfl := ok.inj h
    obtain ⟨htype, htoken, hbytes, hat⟩ := @word32At_pushHead _ front _ 1 token
      (show front ++ (pushHead 1 token ++ le16 len ++ newItem) ++ back =
        front ++ (pushHead 1 token ++ (le16 len ++ newItem ++ back)) by simp)
    rw [step_eq htype htoken, if_pos rfl, hat, stepOne_eq _ hbytes (u16Len_eq_ok hlen), ← hat]
    simp [pushHead]
    omega
  | remove token oldItem =>
    obtain ⟨len, hlen, h⟩ := bind_eq_ok h
    obtain rfl := ok.inj h
    obtain ⟨htype, htoken, hbytes, hat⟩ := @word32At_pushHead _ front _ 2 token
      (show front ++ (pushHead 2 token ++ le16 len ++ oldItem) ++ back =
        front ++ (pushHead 2 token ++ (le16 len ++ oldItem ++ back)) by simp)
    rw [step_eq htype htoken, if_neg (by decide), if_pos rfl, hat, stepOne_eq _ hbytes (u16Len_eq_ok hlen), ← hat]
    simp [pushHead]
    omega
  | modify token oldItem newItem =>
    obtain ⟨oldLen, hold, h⟩ := bind_eq_ok h
    obtain ⟨newLen, hnew, h⟩ := bind_eq_ok h
    obtain rfl := ok.inj h
    obtain ⟨htype, htoken, hbytes, hat⟩ := @word32At_pushHead _ front _ 3 token
      (show front ++ (pushHead 3 token ++ le16 oldLen ++ le16 newLen ++ oldItem ++ newItem) ++ back =
        front ++ (pushHead 3 token ++ (le16 oldLen ++ le16 newLen ++ oldItem ++ newItem ++ back)) by
        simp)
    rw [step_eq htype htoken, if_neg (by decide), if_neg (by decide), if_pos rfl, hat,
      stepModify_eq _ hbytes (u16Len_eq_ok hold) (u16Len_eq_ok hnew), ← hat]
    simp [pushHead]
    omega
  | modifyHeader oldTotal newTotal =>
    obtain rfl := ok.inj h
    obtain ⟨htype, htoken, hbytes, hat⟩ := @word32At_pushHead _ front _ 4 0
      (show front ++ (pushHead 4 0 ++ le16 4 ++ le32 oldTotal ++ le32 newTotal) ++ back =
        front ++ (pushHead 4 0 ++ (le16 4 ++ le32 oldTotal ++ le32 newTotal ++ back)) by simp)
    rw [step_eq htype htoken, if_neg (by decide), if_neg (by decide), if_neg (by decide), if_pos rfl,
      hat, stepHeader_eq _ _ hbytes, ← hat]
    simp [pushHead]

theorem encodeLogRecord_length {encoded : Bytes} (h : encodeLogRecord record = .ok encoded) : 0 < encoded.length :=
  (step_takes (step_encodeLogRecord h [] [])).1

/-- The walk from the start of encoded records yields them, and ends there. -/
theorem walk_encoded : ∀ {records : List LogRecord} {front bytes : Bytes},
    records.foldlM (fun out record => (encodeLogRecord record).map (out ++ ·)) front = .ok bytes →
    (∃ back, bytes = front ++ back) ∧
      (∀ i : Nat, yielded ⟨bytes, front.length, false, none⟩ i = (records[i]?).map .ok) ∧
      (after ⟨bytes, front.length, false, none⟩ (records.length + 1)).end_ = some .complete
  | [], front, bytes, h => by
    obtain rfl := ok.inj h
    have hnext : next ⟨front, front.length, false, none⟩ =
        (⟨front, front.length, true, some .complete⟩, none) := by
      simp [next]
    refine ⟨⟨[], by simp⟩, fun i => ?_, ?_⟩
    · cases i with
      | zero => rw [yielded, after, hnext]; rfl
      | succ i => rw [yielded_succ, hnext, yielded, after_of_done rfl, next_of_done rfl]; rfl
    · rw [length_nil, after_succ, hnext]
      rfl
  | record :: rest, front, bytes, h => by
    rw [foldlM_cons] at h
    obtain ⟨out, hout, hrest⟩ := bind_eq_ok h
    obtain ⟨encoded, hencoded, rfl⟩ := map_eq_ok hout
    obtain ⟨⟨back, rfl⟩, hyields, hend⟩ := walk_encoded hrest
    have hnext : next ⟨front ++ encoded ++ back, front.length, false, none⟩ =
        (⟨front ++ encoded ++ back, (front ++ encoded).length, false, none⟩, some (.ok record)) := by
      have hpos := encodeLogRecord_length hencoded
      have hmore : ¬(front ++ encoded ++ back).length ≤ front.length := by
        rw [length_append, length_append]
        omega
      rw [next, if_neg (by simp), if_neg hmore, step_encodeLogRecord hencoded front back]
    refine ⟨⟨encoded ++ back, by simp⟩, fun i => ?_, ?_⟩
    · cases i with
      | zero => rw [yielded, after, hnext]; rfl
      | succ i => rw [yielded_succ, hnext, hyields, getElem?_cons_succ]
    · rw [length_cons, after_succ, hnext, hend]

end LogReader

theorem u16Len_isOk_iff (payload : Bytes) (what : String) :
    (∃ len, u16Len payload what = .ok len) ↔ payload.length ≤ 65535 := by
  unfold u16Len
  split_ifs with hfits
  · simp
    omega
  · simp
    omega

/-- The records that encode. -/
theorem encodeLogRecord_isOk_iff (record : LogRecord) :
    (∃ encoded, encodeLogRecord record = .ok encoded) ↔
      ∀ payload ∈ record.payloads, payload.length ≤ 65535 := by
  cases record with
  | add token newItem =>
    rw [payloads, forall_mem_singleton, ← u16Len_isOk_iff newItem "ADD payload"]
    exact ⟨fun ⟨_, h⟩ => (bind_eq_ok h).imp fun _ h => h.1,
      fun ⟨len, hlen⟩ => ⟨_, by rw [encodeLogRecord, hlen]; rfl⟩⟩
  | remove token oldItem =>
    rw [payloads, forall_mem_singleton, ← u16Len_isOk_iff oldItem "REMOVE payload"]
    exact ⟨fun ⟨_, h⟩ => (bind_eq_ok h).imp fun _ h => h.1,
      fun ⟨len, hlen⟩ => ⟨_, by rw [encodeLogRecord, hlen]; rfl⟩⟩
  | modify token oldItem newItem =>
    rw [payloads, forall_mem_cons, forall_mem_singleton,
      ← u16Len_isOk_iff oldItem "MODIFY old payload", ← u16Len_isOk_iff newItem "MODIFY new payload"]
    refine ⟨fun ⟨_, h⟩ => ?_, fun ⟨⟨oldLen, hold⟩, newLen, hnew⟩ => ?_⟩
    · obtain ⟨oldLen, hold, h⟩ := bind_eq_ok h
      obtain ⟨newLen, hnew, _⟩ := bind_eq_ok h
      exact ⟨⟨oldLen, hold⟩, newLen, hnew⟩
    · exact ⟨_, by rw [encodeLogRecord, hold, hnew]; rfl⟩
  | modifyHeader oldTotal newTotal =>
    exact ⟨fun _ => by simp [payloads], fun _ => ⟨_, rfl⟩⟩

/-- A log can be encoded when every payload fits its length field. -/
theorem encodeLogRecords_isOk_iff (records : List LogRecord) :
    (∃ bytes, encodeLogRecords records = .ok bytes) ↔
      ∀ record ∈ records, ∀ payload ∈ record.payloads, payload.length ≤ 65535 := by
  constructor
  · rintro ⟨bytes, h⟩ record hrecord
    obtain ⟨before, out, hout, _⟩ := (@foldlM_visits _ _ _ _ (fun _ _ => True) (fun _ => trivial)
      (fun _ _ _ _ _ => trivial) _ _ _ (fun _ _ _ _ _ => trivial) h).2 record hrecord
    obtain ⟨encoded, hencoded, _⟩ := map_eq_ok hout
    exact (encodeLogRecord_isOk_iff record).mp ⟨encoded, hencoded⟩
  · intro hfits
    refine foldlM_ok fun out record hrecord => ?_
    obtain ⟨encoded, hencoded⟩ := (encodeLogRecord_isOk_iff record).mpr (hfits record hrecord)
    exact ⟨out ++ encoded, by rw [hencoded]; rfl⟩

/-- Every walk ends, its payloads are ranges of the log and nothing follows a fault or an
unknown type. Records whose payloads fit are encoded, and their walk yields them in order and
is complete. -/
theorem logRecords_walk :
    (∀ bytes, (∃ n ≤ bytes.length + 1, (logRecords bytes).yielded n = none) ∧
      (∀ n record, (logRecords bytes).yielded n = some (.ok record) → ∀ payload ∈ record.payloads,
        ∃ start stop, range? bytes start stop = some payload) ∧
      ∀ n, ((∃ fault, (logRecords bytes).yielded n = some (.error fault)) ∨
          ((logRecords bytes).after (n + 1)).end_ = some .unknownType) →
        ∀ m, n < m → (logRecords bytes).yielded m = none) ∧
    ∀ records, ((∃ bytes, encodeLogRecords records = .ok bytes) ↔
        ∀ record ∈ records, ∀ payload ∈ record.payloads, payload.length ≤ 65535) ∧
      ∀ bytes, encodeLogRecords records = .ok bytes →
        (∀ i : Nat, (logRecords bytes).yielded i = (records[i]?).map .ok) ∧
        ((logRecords bytes).after (records.length + 1)).end_ = some .complete := by
  refine ⟨fun bytes => ⟨(logRecords bytes).exists_yielded_none, fun n record hrecord => ?_,
    fun n hstop m hm => ?_⟩, fun records => ⟨encodeLogRecords_isOk_iff records, fun bytes h =>
    (LogReader.walk_encoded h).2⟩⟩
  · rcases ((logRecords bytes).after n).next_cases with ⟨hnone, _⟩ | ⟨fault, hfault, _⟩ |
      ⟨found, hfound, _, hslices⟩
    · rw [LogReader.yielded, hnone] at hrecord
      cases hrecord
    · rw [LogReader.yielded, hfault] at hrecord
      cases hrecord
    · rw [LogReader.yielded, hfound] at hrecord
      obtain rfl := Except.ok.inj (some.inj hrecord)
      rwa [LogReader.after_bytes] at hslices
  · refine LogReader.yielded_of_done ?_ hm
    rcases hstop with ⟨fault, hfault⟩ | hend
    · rcases ((logRecords bytes).after n).next_cases with ⟨_, hdone⟩ | ⟨_, _, hdone, _⟩ |
        ⟨record, hrecord, _⟩
      · exact hdone
      · exact hdone
      · rw [LogReader.yielded, hrecord] at hfault
        cases hfault
    · exact LogReader.done_of_end (n + 1) (by rw [hend]; rfl)

end Oxpinyin
