import Oxpinyin.Inventory
import Oxpinyin.Lib.LittleEndian
import Oxpinyin.Lib.Search

/-!
# Raw gram rows

A gram is the value stored under a predecessor : a total of four bytes, then packed records
of eight, a token and its frequency. The functions are those of `single_gram.rs`, over the
bytes. Nothing checks that the records are sorted or that the last one is whole.

A row of at least four bytes is `gramBytes total items tail` for exactly one total, list of
records and partial tail (`exists_gramBytes`), and each function is one over that list.
-/

namespace Oxpinyin

open List LittleEndian Search

/-- Where the walk of a malformed row leaves it. -/
inductive GramFault where
  | short
  | overRead
  deriving DecidableEq

namespace SingleGram

/-- Bytes of the total. -/
def totalLen : Nat := 4

/-- Bytes of one record. -/
def itemLen : Nat := 8

/-! ## Reading -/

/-- The number of whole records behind the total. -/
def getLength (gram : Bytes) : Nat :=
  (gram.length - totalLen) / itemLen

/-- The word at an offset, zero past the end. -/
def word (gram : Bytes) (offset : Nat) : BitVec 32 :=
  ((range? gram offset (offset + 4)).map word32).getD 0

/-- Writes the word at an offset, unless it is past the end. -/
def putWord (gram : Bytes) (offset : Nat) (value : BitVec 32) : Bytes :=
  if offset + 4 ≤ gram.length then overwrite gram offset (le32 value) else gram

/-- The offset of a record. -/
def itemOffset (index : Nat) : Nat :=
  index * itemLen + totalLen

/-- The token of a record. -/
def itemToken (gram : Bytes) (index : Nat) : Option (BitVec 32) :=
  if index < getLength gram then some (word gram (itemOffset index)) else none

/-- The frequency of a record. -/
def itemFreq (gram : Bytes) (index : Nat) : Option (BitVec 32) :=
  if index < getLength gram then some (word gram (itemOffset index + 4)) else none

/-- The whole records and the partial tail, none for a row shorter than its total. -/
def records (gram : Bytes) : Option (List Bytes × Bytes) :=
  if totalLen ≤ gram.length then
    let rest := gram.drop totalLen
    some (chunks itemLen rest, rest.drop (rest.length / itemLen * itemLen))
  else none

def recordToken (record : Bytes) : BitVec 32 := word32 (record.take 4)

def recordFreq (record : Bytes) : BitVec 32 := word32 (record.drop 4)

/-- The total, none for a row shorter than it. -/
def getTotalFreq (gram : Bytes) : Option (BitVec 32) :=
  if totalLen ≤ gram.length then some (word gram 0) else none

/-- Sets the total. A shorter row grows to hold it. -/
def setTotalFreq (gram : Bytes) (total : BitVec 32) : Bytes :=
  putWord (if gram.length < totalLen then gram ++ List.replicate (totalLen - gram.length) 0
    else gram) 0 total

def lowerBoundRecords (records : List Bytes) (token : BitVec 32) : Nat :=
  partitionPoint (fun record => decide (recordToken record < token)) records

section

variable (gram : Bytes) (token : BitVec 32)

/-- The index of the first record not below the token, where the records are partitioned. -/
def lowerBound : Nat :=
  match records gram with
  | none => 0
  | some (records, _) => lowerBoundRecords records token

/-- The indices a walk from the lower bound visits. -/
def walkIndices : List Nat :=
  List.range' (lowerBound gram token) (getLength gram - lowerBound gram token)

/-- The first equal record before one above. -/
def findWalk : List Nat → Option Nat
  | [] => none
  | index :: rest =>
    match itemToken gram index with
    | none => none
    | some item =>
      if token < item then none
      else if item = token then some index
      else findWalk rest

def find : Option Nat :=
  findWalk gram token (walkIndices gram token)

/-- The frequency of a token. -/
def getFreq : Option (BitVec 32) :=
  (find gram token).bind (itemFreq gram)

end

/-- Whether a row with a whole total ends in a partial record. -/
def hasPartialTail (gram : Bytes) : Bool :=
  decide (totalLen ≤ gram.length) && (gram.length - totalLen) % itemLen != 0

def checkedGetFreqWalk (gram : Bytes) (token : BitVec 32) :
    List Nat → Except GramFault (Option (BitVec 32))
  | [] => if hasPartialTail gram then .error .overRead else .ok none
  | index :: rest =>
    match itemToken gram index, itemFreq gram index with
    | some item, some freq =>
      if token < item then .ok none
      else if item = token then .ok (some freq)
      else checkedGetFreqWalk gram token rest
    | _, _ => .error .overRead

/-- The frequency of a token, a fault where the walk leaves the row. -/
def checkedGetFreq (gram : Bytes) (token : BitVec 32) : Except GramFault (Option (BitVec 32)) :=
  if gram.length < totalLen then .error .overRead
  else checkedGetFreqWalk gram token (walkIndices gram token)

/-- Pushes the records up to the first at or past the end. The flag says that one was met. -/
def searchWalk (stop : BitVec 32) : List Bytes → List (BitVec 32 × BitVec 32) →
    List (BitVec 32 × BitVec 32) × Bool
  | [], out => (out, false)
  | record :: rest, out =>
    if stop ≤ recordToken record then (out, true)
    else searchWalk stop rest (out ++ [(recordToken record, recordFreq record)])

/-- The records of a token range, pushed on `out`. -/
def checkedSearch (gram : Bytes) (start stop : BitVec 32) (out : List (BitVec 32 × BitVec 32)) :
    List (BitVec 32 × BitVec 32) × Except GramFault Unit :=
  match records gram with
  | none => (out, .error .short)
  | some (records, tail) =>
    let walked := searchWalk stop (records.drop (lowerBoundRecords records start)) out
    if walked.2 then (walked.1, .ok ())
    else if tail ≠ [] then (walked.1, .error .overRead)
    else (walked.1, .ok ())

/-- The record of an index. -/
def item (gram : Bytes) (index : Nat) : Option (BitVec 32 × BitVec 32) :=
  (itemToken gram index).bind fun token => (itemFreq gram index).map (Prod.mk token)

/-- Every whole record in stored order. -/
def retrieveAll (gram : Bytes) : List (BitVec 32 × BitVec 32) :=
  ((List.range (getLength gram)).map (item gram)).takeWhile Option.isSome |>.reduceOption

/-- The records of a token range. -/
def search (gram : Bytes) (start stop : BitVec 32) : List (BitVec 32 × BitVec 32) :=
  (((walkIndices gram start).map (item gram)).takeWhile Option.isSome |>.reduceOption).takeWhile
    fun item => decide (item.1 < stop)

/-! ## Editing -/

/-- Sets the frequency of a token that is there. -/
def setFreq (gram : Bytes) (token freq : BitVec 32) : Bytes × Bool :=
  match find gram token with
  | none => (gram, false)
  | some index => (putWord gram (itemOffset index + 4) freq, true)

/-- The bytes of a record. -/
def encodeItem (item : BitVec 32 × BitVec 32) : Bytes :=
  le32 item.1 ++ le32 item.2

def insertWalk (gram : Bytes) (token freq : BitVec 32) : List Nat → Bytes × Bool
  | [] => (gram ++ encodeItem (token, freq), true)
  | index :: rest =>
    match itemToken gram index with
    | none => (gram, false)
    | some item =>
      if token < item then (insertAt gram (itemOffset index) (encodeItem (token, freq)), true)
      else if item = token then (gram, false)
      else insertWalk gram token freq rest

/-- Inserts a token before the first record above it, unless it is there. -/
def insertFreq (gram : Bytes) (token freq : BitVec 32) : Bytes × Bool :=
  insertWalk gram token freq (walkIndices gram token)

/-- Removes a token and answers its frequency. -/
def removeFreq (gram : Bytes) (token : BitVec 32) : Bytes × Option (BitVec 32) :=
  match find gram token with
  | none => (gram, none)
  | some index =>
    match itemFreq gram index with
    | none => (gram, none)
    | some freq => (removeRange gram (itemOffset index) (itemOffset index + itemLen), some freq)

/-- The loop of `maskOut` : the row, its total and the number removed. An index passed or a
record removed brings the end nearer, so the number of records bounds it. -/
def maskLoop (mask value : BitVec 32) : Nat → Bytes → BitVec 32 → BitVec 32 → Nat →
    Bytes × BitVec 32 × BitVec 32
  | 0, gram, total, removed, _ => (gram, total, removed)
  | fuel + 1, gram, total, removed, index =>
    if index < getLength gram then
      match itemToken gram index, itemFreq gram index with
      | some item, some freq =>
        if item &&& mask ≠ value then maskLoop mask value fuel gram total removed (index + 1)
        else
          maskLoop mask value fuel
            (removeRange gram (itemOffset index) (itemOffset index + itemLen)) (total - freq)
            (removed + 1) index
      | _, _ => (gram, total, removed)
    else (gram, total, removed)

/-- Removes every token the mask matches and takes their frequencies off the total. -/
def maskOut (gram : Bytes) (mask value : BitVec 32) : Bytes × BitVec 32 :=
  match getTotalFreq gram with
  | none => (gram, 0)
  | some total =>
    let done := maskLoop mask value (getLength gram) gram total 0 0
    (setTotalFreq done.1 done.2.1, done.2.2)

/-- A fresh row. -/
def newGram : Bytes := List.replicate totalLen 0

/-! ## The layout -/

/-- A row by its parts. -/
def gramBytes (total : BitVec 32) (items : List (BitVec 32 × BitVec 32)) (tail : Bytes) : Bytes :=
  le32 total ++ items.flatMap encodeItem ++ tail

section

variable (item : BitVec 32 × BitVec 32)

@[simp] theorem length_encodeItem : (encodeItem item).length = 8 := by
  simp [encodeItem]

@[simp] theorem recordToken_encodeItem : recordToken (encodeItem item) = item.1 := by
  rw [recordToken, encodeItem, take_left' (length_le32 _), word32_le32]

@[simp] theorem recordFreq_encodeItem : recordFreq (encodeItem item) = item.2 := by
  rw [recordFreq, encodeItem, drop_left' (length_le32 _), word32_le32]

end

theorem length_of_mem_encoded {items : List (BitVec 32 × BitVec 32)} :
    ∀ block ∈ items.map encodeItem, block.length = 8 := by
  intro block hblock
  obtain ⟨item, _, rfl⟩ := mem_map.mp hblock
  exact length_encodeItem item

theorem length_flatMap_encodeItem (items : List (BitVec 32 × BitVec 32)) :
    (items.flatMap encodeItem).length = items.length * 8 := by
  rw [flatMap_def, length_flatten_const length_of_mem_encoded, length_map]

theorem length_gramBytes (total : BitVec 32) (items : List (BitVec 32 × BitVec 32)) (tail : Bytes) :
    (gramBytes total items tail).length = 4 + items.length * 8 + tail.length := by
  rw [gramBytes, length_append, length_append, length_le32, length_flatMap_encodeItem]

/-- Every row with a whole total has a layout. -/
theorem exists_gramBytes {gram : Bytes} (h : totalLen ≤ gram.length) :
    ∃ total items tail, tail.length < 8 ∧ gram = gramBytes total items tail := by
  obtain ⟨tail, htail, hrest⟩ := @flatten_chunks _ 8 (by omega) (gram.drop 4)
  have htake : (gram.take 4).length = 4 := by
    rw [length_take]
    exact Nat.min_eq_left h
  refine ⟨word32 (gram.take 4), (chunks 8 (gram.drop 4)).map fun record =>
    (recordToken record, recordFreq record), tail, htail, ?_⟩
  have hitems : ((chunks 8 (gram.drop 4)).map fun record =>
      (recordToken record, recordFreq record)).flatMap encodeItem = (chunks 8 (gram.drop 4)).flatten := by
    rw [flatMap_map, flatten_eq_flatMap]
    refine flatMap_congr fun record hrecord => ?_
    have hlength := length_of_mem_chunks hrecord
    rw [encodeItem, recordToken, recordFreq, le32_word32 (by rw [length_take]; omega),
      le32_word32 (by rw [length_drop]; omega), take_append_drop]
    rfl
  rw [gramBytes, hitems, le32_word32 htake, append_assoc, ← hrest, take_append_drop]

section Layout

variable {total : BitVec 32} {items : List (BitVec 32 × BitVec 32)} {tail : Bytes}

theorem getLength_gramBytes (htail : tail.length < 8) : getLength (gramBytes total items tail) = items.length := by
  rw [getLength, length_gramBytes, totalLen, itemLen]
  omega

theorem records_gramBytes (htail : tail.length < 8) :
    records (gramBytes total items tail) = some (items.map encodeItem, tail) := by
  have hdrop : (gramBytes total items tail).drop totalLen = (items.map encodeItem).flatten ++ tail := by
    rw [gramBytes, append_assoc, totalLen, drop_left' (length_le32 total), flatMap_def]
  have hlength : ((items.map encodeItem).flatten ++ tail).length / itemLen * itemLen =
      (items.map encodeItem).flatten.length := by
    rw [length_append, length_flatten_const length_of_mem_encoded, length_map, itemLen]
    omega
  rw [records, if_pos (by rw [length_gramBytes, totalLen]; omega)]
  dsimp only
  rw [hdrop, hlength, drop_left, itemLen, chunks_flatten (by omega) length_of_mem_encoded htail]

theorem getTotalFreq_gramBytes : getTotalFreq (gramBytes total items tail) = some total := by
  have hread : range? (gramBytes total items tail) 0 (0 + 4) = some (le32 total) := by
    rw [gramBytes, append_assoc]
    exact range?_append [] (le32 total) _ rfl (by simp)
  rw [getTotalFreq, if_pos (by rw [length_gramBytes, totalLen]; omega), word, hread,
    Option.map_some, word32_le32, Option.getD_some]

theorem setTotalFreq_gramBytes (value : BitVec 32) :
    setTotalFreq (gramBytes total items tail) value = gramBytes value items tail := by
  have hlength := length_gramBytes total items tail
  rw [setTotalFreq, if_neg (by rw [hlength, totalLen]; omega), putWord, if_pos (by omega), gramBytes, append_assoc]
  exact overwrite_append [] (le32 total) _ (le32 value) (by simp)

/-- The offset of a record, where the records before it end. -/
theorem itemOffset_eq (total : BitVec 32) (front : List (BitVec 32 × BitVec 32)) :
    itemOffset front.length = (le32 total ++ front.flatMap encodeItem).length := by
  rw [length_append, length_le32, length_flatMap_encodeItem, itemOffset, itemLen, totalLen]
  omega

/-- A row around one of its records. -/
theorem gramBytes_middle (front back : List (BitVec 32 × BitVec 32)) (token freq : BitVec 32) :
    gramBytes total (front ++ (token, freq) :: back) tail =
      (le32 total ++ front.flatMap encodeItem) ++ le32 token ++
        (le32 freq ++ (back.flatMap encodeItem ++ tail)) := by
  simp [gramBytes, encodeItem]

/-- The items of a written row. -/
theorem item_gramBytes (htail : tail.length < 8) (index : Nat) :
    itemToken (gramBytes total items tail) index = (items[index]?).map Prod.fst ∧
    itemFreq (gramBytes total items tail) index = (items[index]?).map Prod.snd := by
  unfold itemToken itemFreq
  rw [getLength_gramBytes htail]
  rcases Nat.lt_or_ge index items.length with hlt | hge
  · have hcut : items = items.take index ++ items[index] :: items.drop (index + 1) := by
      rw [getElem_cons_drop, take_append_drop]
    have hoffset := itemOffset_eq total (items.take index)
    rw [length_take, Nat.min_eq_left (Nat.le_of_lt hlt)] at hoffset
    rw [if_pos hlt, if_pos hlt, getElem?_eq_getElem hlt]
    have hbytes := @gramBytes_middle total tail (items.take index) (items.drop (index + 1))
      items[index].1 items[index].2
    rw [← hcut] at hbytes
    rw [hbytes]
    constructor
    · rw [word, range?_append _ _ _ hoffset (by rw [hoffset, length_le32])]
      simp
    · rw [word, ← append_assoc, range?_append _ _ _ (by rw [length_append, hoffset,
        length_le32]) (by rw [length_append, hoffset, length_le32, length_le32])]
      simp
  · rw [if_neg (by omega), if_neg (by omega), getElem?_eq_none hge]
    exact ⟨rfl, rfl⟩

theorem lowerBound_gramBytes (htail : tail.length < 8) (token : BitVec 32) :
    lowerBound (gramBytes total items tail) token =
      partitionPoint (fun item => decide (item.1 < token)) items := by
  rw [lowerBound, records_gramBytes htail]
  dsimp only
  rw [lowerBoundRecords, partitionPoint_map]
  simp [Function.comp_def]

end Layout

end SingleGram

end Oxpinyin
