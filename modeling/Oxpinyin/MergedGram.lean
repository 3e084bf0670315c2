import Oxpinyin.GramMap

/-!
# Merged gram rows

A system row and the user's row over it, read as one. `MergedGram.merge` builds the merged
bytes. `MergedGram.mergeShared` keeps two whole, strictly ordered rows side by side and
reads each answer off both. Every read of the two agrees (`mergeShared_reads`).
-/

namespace Oxpinyin

open List LittleEndian Search FiniteMap

namespace SingleGram

/-! ## Two rows as one -/

/-- The record of an index, zeros past the end. -/
def itemOrZero (gram : Bytes) (index : Nat) : BitVec 32 × BitVec 32 :=
  ((itemToken gram index).getD 0, (itemFreq gram index).getD 0)

/-- The loop over both rows, while both have records left. -/
def mergeLoop (system user merged : Bytes) (left right : Nat) : Bytes × Nat × Nat :=
  if left < getLength system ∧ right < getLength user then
    let systemItem := itemOrZero system left
    let userItem := itemOrZero user right
    if systemItem.1 < userItem.1 then
      mergeLoop system user (merged ++ encodeItem systemItem) (left + 1) right
    else if userItem.1 < systemItem.1 then
      mergeLoop system user (merged ++ encodeItem userItem) left (right + 1)
    else
      mergeLoop system user (merged ++ encodeItem (systemItem.1, systemItem.2 + userItem.2))
        (left + 1) (right + 1)
  else (merged, left, right)
termination_by (getLength system - left) + (getLength user - right)

/-- Appends the records of a row from an index on. -/
def appendFrom (gram merged : Bytes) (start : Nat) : Bytes :=
  (List.range' start (getLength gram - start)).foldl
    (fun merged index => merged ++ encodeItem (itemOrZero gram index)) merged

/-- What either row has left once the other is done. -/
def mergeRest (system user : Bytes) (looped : Bytes × Nat × Nat) : Bytes :=
  appendFrom user (appendFrom system looped.1 looped.2.1) looped.2.2

/-- Merges two rows into `merged`. The flag says that one was present. -/
def mergeSingleGram (merged : Bytes) : Option Bytes → Option Bytes → Bytes × Bool
  | none, none => (merged, false)
  | none, some only => (only, true)
  | some only, none => (only, true)
  | some system, some user =>
    let total := (getTotalFreq system).getD 0 + (getTotalFreq user).getD 0
    (mergeRest system user (mergeLoop system user (le32 total) 0 0), true)

/-- Whether the tokens of the whole records strictly increase. -/
def isStrictlyOrdered (gram : Bytes) : Bool :=
  match records gram with
  | none => true
  | some (records, _) =>
    (records.zip records.tail).all fun pair => decide (recordToken pair.1 < recordToken pair.2)

/-- The frequency of a token in the merge of two rows. -/
def getFreqMerged (system user : Bytes) (token : BitVec 32) : Option (BitVec 32) :=
  match getFreq system token, getFreq user token with
  | some system, some user => some (system + user)
  | freq, none => freq
  | none, freq => freq

/-- Pushes the next record of two sides until one at or past the end. -/
def searchMergedLoop (stop : BitVec 32) :
    List (BitVec 32 × BitVec 32) → List (BitVec 32 × BitVec 32) → List (BitVec 32 × BitVec 32) →
      List (BitVec 32 × BitVec 32)
  | [], [], out => out
  | item :: system, [], out =>
    if stop ≤ item.1 then out else searchMergedLoop stop system [] (out ++ [item])
  | [], item :: user, out =>
    if stop ≤ item.1 then out else searchMergedLoop stop [] user (out ++ [item])
  | left :: system, right :: user, out =>
    if left.1 < right.1 then
      if stop ≤ left.1 then out else searchMergedLoop stop system (right :: user) (out ++ [left])
    else if right.1 < left.1 then
      if stop ≤ right.1 then out else searchMergedLoop stop (left :: system) user (out ++ [right])
    else if stop ≤ left.1 then out
    else searchMergedLoop stop system user (out ++ [(left.1, left.2 + right.2)])
termination_by system user => system.length + user.length

/-- The records of one side from the lower bound on. -/
def searchSide (start : BitVec 32) (gram : Bytes) : List (BitVec 32 × BitVec 32) :=
  let records := ((records gram).map Prod.fst).getD []
  (records.drop (lowerBoundRecords records start)).map fun record =>
    (recordToken record, recordFreq record)

/-- The records of a token range in the merge of two rows, pushed on `out`. -/
def searchMerged (system user : Bytes) (start stop : BitVec 32)
    (out : List (BitVec 32 × BitVec 32)) : List (BitVec 32 × BitVec 32) :=
  searchMergedLoop stop (searchSide start system) (searchSide start user) out

/-! ## The merged list -/

section Layout

variable {total : BitVec 32} {items : List (BitVec 32 × BitVec 32)} {tail : Bytes}

theorem itemOrZero_gramBytes (htail : tail.length < 8) (index : Nat) :
    itemOrZero (gramBytes total items tail) index = (items[index]?).getD (0, 0) := by
  rw [itemOrZero, (item_gramBytes htail index).1, (item_gramBytes htail index).2]
  cases items[index]? <;> rfl

theorem appendFrom_gramBytes (htail : tail.length < 8) :
    ∀ (rest passed : List (BitVec 32 × BitVec 32)) (merged : Bytes), items = passed ++ rest →
      appendFrom (gramBytes total items tail) merged passed.length =
        merged ++ rest.flatMap encodeItem
  | [], passed, merged, hitems => by
    rw [appendFrom, getLength_gramBytes htail, hitems]
    simp
  | e :: rest, passed, merged, hitems => by
    have hnext := appendFrom_gramBytes htail rest (passed ++ [e]) (merged ++ encodeItem e)
      (by rw [hitems, append_assoc]; rfl)
    have hitem : itemOrZero (gramBytes total items tail) passed.length = e := by
      rw [itemOrZero_gramBytes htail, hitems]
      simp
    have hcount : getLength (gramBytes total items tail) - passed.length =
        getLength (gramBytes total items tail) - (passed.length + 1) + 1 := by
      rw [getLength_gramBytes htail, hitems, length_append, length_cons]
      omega
    rw [length_append, length_singleton, appendFrom] at hnext
    rw [appendFrom, hcount, range'_succ, foldl_cons, hitem, hnext, flatMap_cons, append_assoc]

section Merge

variable {total' : BitVec 32} {items' : List (BitVec 32 × BitVec 32)} {tail' : Bytes}
  {passed passed' : List (BitVec 32 × BitVec 32)}

variable (htail : tail.length < 8) (htail' : tail'.length < 8)
include htail htail'

variable {xs ys : List (BitVec 32 × BitVec 32)}

/-- Once one row is done, what the other has left is appended. -/
theorem mergeLoop_done (hitems : items = passed ++ xs)
    (hitems' : items' = passed' ++ ys) (hdone : xs = [] ∨ ys = []) (merged : Bytes) :
    mergeRest (gramBytes total items tail) (gramBytes total' items' tail')
        (mergeLoop (gramBytes total items tail) (gramBytes total' items' tail') merged
          passed.length passed'.length) =
      merged ++ xs.flatMap encodeItem ++ ys.flatMap encodeItem := by
  have hstop : ¬ (passed.length < getLength (gramBytes total items tail) ∧
      passed'.length < getLength (gramBytes total' items' tail')) := by
    rw [getLength_gramBytes htail, getLength_gramBytes htail', hitems, hitems']
    rcases hdone with rfl | rfl
    · simp
    · simp
  rw [mergeLoop, if_neg hstop, mergeRest, appendFrom_gramBytes htail xs passed merged hitems,
    appendFrom_gramBytes htail' ys passed' _ hitems']

/-- One turn of the loop, over the records the rows have next. -/
theorem mergeLoop_step {x y : BitVec 32 × BitVec 32}
    (hitems : items = passed ++ x :: xs) (hitems' : items' = passed' ++ y :: ys) (merged : Bytes) :
    mergeLoop (gramBytes total items tail) (gramBytes total' items' tail') merged
        passed.length passed'.length =
      if x.1 < y.1 then
        mergeLoop (gramBytes total items tail) (gramBytes total' items' tail')
          (merged ++ encodeItem x) (passed ++ [x]).length passed'.length
      else if y.1 < x.1 then
        mergeLoop (gramBytes total items tail) (gramBytes total' items' tail')
          (merged ++ encodeItem y) passed.length (passed' ++ [y]).length
      else
        mergeLoop (gramBytes total items tail) (gramBytes total' items' tail')
          (merged ++ encodeItem (x.1, x.2 + y.2)) (passed ++ [x]).length (passed' ++ [y]).length := by
  have hleft : itemOrZero (gramBytes total items tail) passed.length = x := by
    rw [itemOrZero_gramBytes htail, hitems]
    simp
  have hright : itemOrZero (gramBytes total' items' tail') passed'.length = y := by
    rw [itemOrZero_gramBytes htail', hitems']
    simp
  have hgo : passed.length < getLength (gramBytes total items tail) ∧
      passed'.length < getLength (gramBytes total' items' tail') := by
    rw [getLength_gramBytes htail, getLength_gramBytes htail', hitems, hitems']
    simp
  rw [mergeLoop, if_pos hgo, hleft, hright]
  simp only [length_append, length_singleton]

/-- The loop and what it leaves over append the merge of the records it had left. -/
theorem mergeLoop_gramBytes (xs ys : List (BitVec 32 × BitVec 32)) (hitems : items = passed ++ xs)
    (hitems' : items' = passed' ++ ys) (merged : Bytes) :
    mergeRest (gramBytes total items tail) (gramBytes total' items' tail')
        (mergeLoop (gramBytes total items tail) (gramBytes total' items' tail') merged
          passed.length passed'.length) =
      merged ++ (mergeWith (· + ·) xs ys).flatMap encodeItem := by
  induction xs, ys using mergeWith.induct generalizing passed passed' merged with
  | case1 ys =>
    rw [mergeLoop_done htail htail' hitems hitems' (Or.inl rfl)]
    simp [mergeWith]
  | case2 xs _ =>
    rw [mergeLoop_done htail htail' hitems hitems' (Or.inr rfl)]
    simp
  | case3 x xs y ys hlt ih =>
    rw [mergeLoop_step htail htail' hitems hitems', if_pos hlt, ih (by simp [hitems]) hitems',
      mergeWith, if_pos hlt, flatMap_cons, append_assoc]
  | case4 x xs y ys hge hlt ih =>
    rw [mergeLoop_step htail htail' hitems hitems', if_neg hge, if_pos hlt,
      ih hitems (by simp [hitems']), mergeWith, if_neg hge, if_pos hlt, flatMap_cons,
      append_assoc]
  | case5 x xs y ys hge hle ih =>
    rw [mergeLoop_step htail htail' hitems hitems', if_neg hge, if_neg hle,
      ih (by simp [hitems]) (by simp [hitems']), mergeWith, if_neg hge, if_neg hle,
      flatMap_cons, append_assoc]

end Merge

theorem isStrictlyOrdered_gramBytes (htail : tail.length < 8) :
    isStrictlyOrdered (gramBytes total items tail) = true ↔ items.Pairwise fun a b => a.1 < b.1 := by
  rw [isStrictlyOrdered, records_gramBytes htail]
  dsimp only
  have hneighbours := @all_zip_tail_iff _ (fun a b => recordToken a < recordToken b) _
    (fun a b c hab hbc => BitVec.lt_trans hab hbc) (items.map encodeItem)
  rw [hneighbours, pairwise_map]
  simp

/-- On a whole row the checked lookup is the lookup. -/
theorem checkedGetFreqWalk_eq {gram : Bytes} (hwhole : hasPartialTail gram = false)
    (token : BitVec 32) : ∀ indices : List Nat, (∀ i ∈ indices, i < getLength gram) →
      checkedGetFreqWalk gram token indices = .ok ((findWalk gram token indices).bind (itemFreq gram))
  | [], _ => by
    rw [checkedGetFreqWalk, hwhole]
    rfl
  | index :: rest, hin => by
    have hlt := hin index mem_cons_self
    have hrest := checkedGetFreqWalk_eq hwhole token rest fun i hi => hin i (mem_cons_of_mem _ hi)
    have htoken : itemToken gram index = some (word gram (itemOffset index)) := if_pos hlt
    have hfreq : itemFreq gram index = some (word gram (itemOffset index + 4)) := if_pos hlt
    rw [checkedGetFreqWalk, findWalk, htoken, hfreq]
    dsimp only
    split_ifs with habove hequal
    · rfl
    · rw [Option.bind_some, hfreq]
    · exact hrest

variable {freq : BitVec 32 → Option (BitVec 32)}

/-- A frequency of a written row. -/
theorem checkedGetFreq_gramBytes (h : Lists items freq)
    (token : BitVec 32) : checkedGetFreq (gramBytes total items []) token = .ok (freq token) := by
  have hwhole : hasPartialTail (gramBytes total items []) = false := by
    rw [hasPartialTail, length_gramBytes, totalLen, itemLen]
    simp
  have hlength : ¬ (gramBytes total items []).length < totalLen := by
    rw [length_gramBytes, totalLen]
    omega
  have hin : ∀ i ∈ walkIndices (gramBytes total items []) token,
      i < getLength (gramBytes total items []) := by
    intro i hi
    obtain ⟨hge, hlt⟩ := mem_range'_1.mp hi
    omega
  obtain ⟨front, back, hsplit, hfront, hback⟩ := h.split token
  have hget := @getFreq_around total token front back [] (by simp) hfront hback (freq token)
  rw [around, ← hsplit] at hget
  rw [checkedGetFreq, if_neg hlength, checkedGetFreqWalk_eq hwhole token _ hin, ← hget]
  rfl

theorem getFreq_gramBytes (h : Lists items freq)
    (token : BitVec 32) : getFreq (gramBytes total items []) token = freq token := by
  obtain ⟨front, back, rfl, hfront, hback⟩ := h.split token
  exact getFreq_around (by simp) hfront hback (freq token)

/-- The records from the lower bound on. -/
theorem drop_lowerBound (hascending : items.Pairwise fun a b => a.1 < b.1) (start : BitVec 32) :
    (items.map encodeItem).drop (lowerBoundRecords (items.map encodeItem) start) =
      (items.filter fun e => decide (start ≤ e.1)).map encodeItem := by
  obtain ⟨hpoint, hparts⟩ := partitionPoint_cut (below_pairwise hascending start)
  have hlower : lowerBoundRecords (items.map encodeItem) start =
      (items.takeWhile fun e => decide (e.1 < start)).length := by
    rw [lowerBoundRecords, partitionPoint_map, ← hpoint]
    simp [Function.comp_def]
  have hdrop : items.drop (items.takeWhile fun e => decide (e.1 < start)).length =
      items.filter fun e => !decide (e.1 < start) := by
    calc items.drop (items.takeWhile fun e => decide (e.1 < start)).length
        = (items.takeWhile (fun e => decide (e.1 < start)) ++
            items.filter fun e => !decide (e.1 < start)).drop
              (items.takeWhile fun e => decide (e.1 < start)).length := by rw [← hparts]
      _ = items.filter fun e => !decide (e.1 < start) := drop_left
  rw [hlower, ← map_drop, hdrop]
  refine congrArg (List.map encodeItem) (filter_congr fun e _ => ?_)
  rw [Bool.eq_iff_iff]
  simp

theorem searchSide_gramBytes (hascending : items.Pairwise fun a b => a.1 < b.1) (start : BitVec 32) :
    searchSide start (gramBytes total items []) = items.filter fun e => decide (start ≤ e.1) := by
  rw [searchSide, records_gramBytes (by simp), Option.map_some, Option.getD_some, drop_lowerBound hascending, map_map]
  simp [Function.comp_def]

/-- A record is pushed and the walk goes on, or it stops there. -/
theorem push_takeWhile (stop : BitVec 32) (e : BitVec 32 × BitVec 32) (rest out : List (BitVec 32 × BitVec 32)) :
    (if stop ≤ e.1 then out
      else out ++ [e] ++ rest.takeWhile fun e => decide (e.1 < stop)) =
      out ++ (e :: rest).takeWhile fun e => decide (e.1 < stop) := by
  split_ifs with hstop
  · rw [takeWhile_cons_of_neg (by simpa using hstop), append_nil]
  · rw [takeWhile_cons_of_pos (by simpa using hstop), append_assoc]
    rfl

theorem searchWalk_encodeItem (stop : BitVec 32) : ∀ rest out : List (BitVec 32 × BitVec 32),
    (searchWalk stop (rest.map encodeItem) out).1 =
      out ++ rest.takeWhile fun e => decide (e.1 < stop)
  | [], out => by simp [searchWalk]
  | e :: rest, out => by
    rw [map_cons, searchWalk, recordToken_encodeItem, recordFreq_encodeItem, ← push_takeWhile,
      ← searchWalk_encodeItem stop rest, apply_ite Prod.fst]

theorem checkedSearch_gramBytes (hascending : items.Pairwise fun a b => a.1 < b.1)
    (start stop : BitVec 32) (out : List (BitVec 32 × BitVec 32)) :
    checkedSearch (gramBytes total items []) start stop out =
      (out ++ (items.filter fun e => decide (start ≤ e.1)).takeWhile fun e => decide (e.1 < stop),
        .ok ()) := by
  rw [checkedSearch, records_gramBytes (by simp)]
  dsimp only
  rw [drop_lowerBound hascending, searchWalk_encodeItem]
  simp

end Layout

/-- The merged search is a prefix of the merge. -/
theorem searchMergedLoop_eq (stop : BitVec 32) (xs ys out : List (BitVec 32 × BitVec 32)) :
    searchMergedLoop stop xs ys out =
      out ++ (mergeWith (· + ·) xs ys).takeWhile fun e => decide (e.1 < stop) := by
  have hright : ∀ ys out : List (BitVec 32 × BitVec 32), searchMergedLoop stop [] ys out =
      out ++ ys.takeWhile fun e => decide (e.1 < stop) := by
    intro ys
    induction ys with
    | nil => simp [searchMergedLoop]
    | cons y ys ih =>
      intro out
      rw [searchMergedLoop, ih, push_takeWhile]
  have hleft : ∀ xs out : List (BitVec 32 × BitVec 32), searchMergedLoop stop xs [] out =
      out ++ xs.takeWhile fun e => decide (e.1 < stop) := by
    intro xs
    induction xs with
    | nil => simp [searchMergedLoop]
    | cons x xs ih =>
      intro out
      rw [searchMergedLoop, ih, push_takeWhile]
  induction xs, ys using mergeWith.induct generalizing out with
  | case1 ys => rw [hright, mergeWith]
  | case2 xs _ => rw [hleft, mergeWith_nil]
  | case3 x xs y ys hlt ih =>
    rw [searchMergedLoop, mergeWith, if_pos hlt, if_pos hlt, ih, push_takeWhile]
  | case4 x xs y ys hge hlt ih =>
    rw [searchMergedLoop, mergeWith, if_neg hge, if_neg hge, if_pos hlt, if_pos hlt, ih, push_takeWhile]
  | case5 x xs y ys hge hle ih =>
    rw [searchMergedLoop, mergeWith, if_neg hge, if_neg hge, if_neg hle, if_neg hle, ih]
    exact push_takeWhile stop (x.1, x.2 + y.2) _ out

/-! ## The merged row -/

/-- Where the records of a merged gram live. -/
inductive GramRow where
  /-- One buffer : the merged chunk, or the bytes of the only side. -/
  | chunk (bytes : Bytes)
  /-- The shared system row alone. -/
  | shared (system : Bytes)
  /-- Both rows, whole and strictly ordered. -/
  | layered (system user : Bytes)
  deriving DecidableEq

/-- One row with the user's already merged in. -/
structure MergedGram where
  row : GramRow
  fault : Option GramFault
  deriving DecidableEq

/-- What the merge of two present rows meets before its loop. -/
def mergeFault (system user : Bytes) : Option GramFault :=
  if (getTotalFreq system).isNone || (getTotalFreq user).isNone then some .short
  else if hasPartialTail system || hasPartialTail user then some .overRead
  else none

/-- The bytes the merge of two present rows builds. -/
def mergedChunk (system user : Bytes) : Bytes :=
  (mergeSingleGram [] (some system) (some user)).1

namespace MergedGram

def ofChunk (bytes : Bytes) : MergedGram := ⟨.chunk bytes, none⟩

/-- The merge of two rows. -/
def merge : Option Bytes → Option Bytes → Option MergedGram
  | none, none => none
  | some chunk, none => some (ofChunk chunk)
  | none, some chunk => some (ofChunk chunk)
  | some system, some user =>
    some (match mergeFault system user with
      | some fault => ⟨.chunk [], some fault⟩
      | none => ofChunk (mergedChunk system user))

/-- The merge of a present, shared system row and the user's. -/
def mergeShared (system : Bytes) : Option Bytes → MergedGram
  | none => ⟨.shared system, none⟩
  | some user =>
    match mergeFault system user with
    | some fault => ⟨.chunk [], some fault⟩
    | none =>
      if isStrictlyOrdered user && isStrictlyOrdered system then ⟨.layered system user, none⟩
      else ofChunk (mergedChunk system user)

/-! ## Reads -/

variable {system user : Bytes}

def readTotal (gram : Bytes) : Except GramFault (BitVec 32) :=
  match getTotalFreq gram with
  | some total => .ok total
  | none => .error .short

/-- The total of the row. -/
def total (gram : MergedGram) : Except GramFault (BitVec 32) :=
  match gram.fault with
  | some fault => .error fault
  | none =>
    match gram.row with
    | .chunk bytes => readTotal bytes
    | .shared system => readTotal system
    | .layered system user => do
      let left ← readTotal system
      let right ← readTotal user
      return left + right

/-- The frequency of a token. -/
def getFreq (gram : MergedGram) (token : BitVec 32) : Except GramFault (Option (BitVec 32)) :=
  match gram.fault with
  | some fault => .error fault
  | none =>
    match gram.row with
    | .chunk bytes => checkedGetFreq bytes token
    | .shared system => checkedGetFreq system token
    | .layered system user => .ok (getFreqMerged system user token)

/-- The records of the tokens from `first` to `last`, pushed on `out`. The end past the last
token wraps. -/
def searchInto (gram : MergedGram) (first last : BitVec 32) (out : List (BitVec 32 × BitVec 32)) :
    List (BitVec 32 × BitVec 32) × Except GramFault Unit :=
  match gram.fault with
  | some fault => (out, .error fault)
  | none =>
    match gram.row with
    | .chunk bytes => checkedSearch bytes first (last + 1) out
    | .shared system => checkedSearch system first (last + 1) out
    | .layered system user => (searchMerged system user first (last + 1) out, .ok ())

/-- The bytes of the row. -/
def toBytes (gram : MergedGram) : Bytes :=
  match gram.row with
  | .chunk bytes => bytes
  | .shared system => system
  | .layered system user => mergedChunk system user

theorem mergedChunk_gramBytes {total total' : BitVec 32} {items items' : List (BitVec 32 × BitVec 32)}
    {tail tail' : Bytes} (htail : tail.length < 8) (htail' : tail'.length < 8) :
    mergedChunk (gramBytes total items tail) (gramBytes total' items' tail') =
      gramBytes (total + total') (mergeWith (· + ·) items items') [] := by
  have hloop := @mergeLoop_gramBytes total items tail total' items' tail' [] [] htail htail' items
    items' rfl rfl (le32 (total + total'))
  rw [length_nil] at hloop
  rw [mergedChunk, mergeSingleGram, getTotalFreq_gramBytes, getTotalFreq_gramBytes, Option.getD_some,
    Option.getD_some, hloop, gramBytes, append_nil]

theorem whole_of_readable {gram : Bytes} (htotal : (getTotalFreq gram).isNone = false)
    (htail : hasPartialTail gram = false) : ∃ total items, gram = gramBytes total items [] := by
  have hlength : totalLen ≤ gram.length := by
    by_contra hshort
    rw [getTotalFreq, if_neg hshort] at htotal
    cases htotal
  obtain ⟨total, items, tail, hlt, rfl⟩ := exists_gramBytes hlength
  have hnil : tail = [] := by
    rw [hasPartialTail, decide_eq_true hlength, Bool.true_and, bne_eq_false_iff_eq, length_gramBytes,
      totalLen, itemLen] at htail
    exact length_eq_zero_iff.mp (by omega)
  exact ⟨total, items, by rw [hnil]⟩

/-- Rows whose merge meets no fault are whole. -/
theorem whole_of_mergeFault (h : mergeFault system user = none) :
    (∃ total items, system = gramBytes total items []) ∧
      ∃ total items, user = gramBytes total items [] := by
  unfold mergeFault at h
  split_ifs at h with hshort htail
  rw [Bool.not_eq_true, Bool.or_eq_false_iff] at hshort htail
  exact ⟨whole_of_readable hshort.1 htail.1, whole_of_readable hshort.2 htail.2⟩

/-- The lookup on both sides is the lookup in the combined map. -/
theorem getFreqMerged_eq (system user : Bytes) (token : BitVec 32) :
    getFreqMerged system user token =
      Option.merge (· + ·) (SingleGram.getFreq system token) (SingleGram.getFreq user token) := by
  unfold getFreqMerged
  cases SingleGram.getFreq system token <;> cases SingleGram.getFreq user token <;> rfl

/-- Two whole, strictly ordered rows read side by side are read as their merge. -/
theorem layered_reads (hfault : mergeFault system user = none)
    (hsystem : isStrictlyOrdered system = true) (huser : isStrictlyOrdered user = true) :
    let layered : MergedGram := ⟨.layered system user, none⟩
    let merged := ofChunk (mergedChunk system user)
    layered.fault = merged.fault ∧ layered.total = merged.total ∧
      (∀ token, layered.getFreq token = merged.getFreq token) ∧
      (∀ first last out, layered.searchInto first last out = merged.searchInto first last out) ∧
      layered.toBytes = merged.toBytes := by
  obtain ⟨⟨total, xs, rfl⟩, total', ys, rfl⟩ := whole_of_mergeFault hfault
  have htail : ([] : Bytes).length < 8 := by simp
  have hxs := (isStrictlyOrdered_gramBytes htail).mp hsystem
  have hys := (isStrictlyOrdered_gramBytes htail).mp huser
  obtain ⟨m, hm⟩ := exists_lists hxs
  obtain ⟨n, hn⟩ := exists_lists hys
  have hmerge := hm.mergeWith (· + ·) hn
  have hchunk := @mergedChunk_gramBytes total total' xs ys [] [] htail htail
  refine ⟨rfl, ?_, fun token => ?_, fun first last out => ?_, rfl⟩
  · simp only [MergedGram.total, ofChunk, readTotal, hchunk, getTotalFreq_gramBytes]
    rfl
  · simp only [getFreq, ofChunk]
    rw [hchunk, checkedGetFreq_gramBytes hmerge, getFreqMerged_eq, getFreq_gramBytes hm, getFreq_gramBytes hn]
  · simp only [searchInto, ofChunk]
    rw [hchunk, checkedSearch_gramBytes hmerge.ascending, searchMerged, searchMergedLoop_eq,
      searchSide_gramBytes hxs, searchSide_gramBytes hys,
      hm.mergeWith_filter (· + ·) hn fun k => decide (first ≤ k)]

/-- Every read of the shared merge is that of the merge. -/
theorem mergeShared_reads (system : Bytes) (user : Option Bytes) :
    ∃ merged, merge (some system) user = some merged ∧
      (mergeShared system user).fault = merged.fault ∧
      (mergeShared system user).total = merged.total ∧
      (∀ token, (mergeShared system user).getFreq token = merged.getFreq token) ∧
      (∀ first last out, (mergeShared system user).searchInto first last out =
        merged.searchInto first last out) ∧
      (mergeShared system user).toBytes = merged.toBytes := by
  cases user with
  | none => exact ⟨ofChunk system, rfl, rfl, rfl, fun _ => rfl, fun _ _ _ => rfl, rfl⟩
  | some user =>
    refine ⟨_, rfl, ?_⟩
    rw [mergeShared]
    cases hfault : mergeFault system user with
    | some fault => exact ⟨rfl, rfl, fun _ => rfl, fun _ _ _ => rfl, rfl⟩
    | none =>
      dsimp only
      split_ifs with hordered
      · rw [Bool.and_eq_true] at hordered
        exact layered_reads hfault hordered.2 hordered.1
      · exact ⟨rfl, rfl, fun _ => rfl, fun _ _ _ => rfl, rfl⟩

end MergedGram

end SingleGram

end Oxpinyin
