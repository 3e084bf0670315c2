import Oxpinyin.Inventory
import Oxpinyin.KmmContainer
import Oxpinyin.Lib.LittleEndian
import Oxpinyin.Lib.Run

/-!
# Flexible grams and their bytes

A single gram is a header and the items of its successors, over any two fixed records. It is filed as
the bytes of the header and then, for each item, those of its token and its own (`encodeValue`).
`FlexibleBigram` keeps these values in a raw keyspace, a finite map here, and writes a header over the
first bytes of a value without decoding the rest.

A gram is for a header and a finite map from tokens to items (`Filing`) : edits from `SingleGram.new`
keep it so (`edits_files`), with the answers of the map, and the bytes give both back. Words are written
lowest byte first, as on the reference host.
-/

set_option linter.unusedSectionVars false

namespace Oxpinyin.Kmm

open List Option FiniteMap LittleEndian Run Search

/-! ## Fixed records -/

/-- A record of a fixed layout, exactly as long as its type says and read back as it was. -/
class FixedRecord (ρ : Type) where
  len : Nat
  zeroed : ρ
  encode : ρ → Bytes
  decode : Bytes → Except String ρ
  length_encode : ∀ record, (encode record).length = len
  decode_encode : ∀ record, decode (encode record) = .ok record

open FixedRecord (encode decode)

/-- The length of a record's type. -/
abbrev recordLen (ρ : Type) [FixedRecord ρ] : Nat := FixedRecord.len ρ

def recordError (what : String) (bytes expected : Nat) : String :=
  s!"{what} is {bytes} bytes, not the pin's {expected}"

/-- The word of an index, in a run of words. -/
def wordOf (bytes : Bytes) (index : Nat) : BitVec 32 := word32 ((bytes.drop (index * 4)).take 4)

theorem wordOf_flatMap {words : List (BitVec 32)} : ∀ {index : Nat} {word : BitVec 32},
    words[index]? = some word → wordOf (words.flatMap le32) index = word := by
  induction words with
  | nil => simp
  | cons head rest ih =>
    intro index word h
    cases index with
    | zero =>
      rw [getElem?_cons_zero, Option.some.injEq] at h
      rw [wordOf, Nat.zero_mul, drop_zero, flatMap_cons, take_left' (length_le32 head), word32_le32, h]
    | succ index =>
      rw [getElem?_cons_succ] at h
      rw [← ih h, wordOf, wordOf, Nat.succ_mul, Nat.add_comm, ← drop_drop, flatMap_cons,
        drop_left' (length_le32 head)]

/-- A record read from words. -/
def decodeWords {ρ : Type} (what : String) (len : Nat) (build : (Nat → BitVec 32) → ρ) (bytes : Bytes) :
    Except String ρ :=
  if bytes.length = len then .ok (build (wordOf bytes)) else .error (recordError what bytes.length len)

theorem decodeWords_flatMap {ρ : Type} {what : String} {len : Nat} {build : (Nat → BitVec 32) → ρ} {record : ρ}
    {words : List (BitVec 32)} (hlen : words.length * 4 = len)
    (hbuild : build (wordOf (words.flatMap le32)) = record) :
    decodeWords what len build (words.flatMap le32) = .ok record := by
  rw [decodeWords, if_pos ((length_flatMap_le32 words).trans hlen), hbuild]

instance : FixedRecord MagicHeader where
  len := 12
  zeroed := .zeroed
  encode header := [header.wc, header.n, header.totalFreq].flatMap le32
  decode := decodeWords "k mixture magic header" 12 fun word => ⟨word 0, word 1, word 2⟩
  length_encode _ := length_flatMap_le32 _
  decode_encode header := by
    refine decodeWords_flatMap rfl ?_
    rw [@wordOf_flatMap _ _ header.wc rfl, @wordOf_flatMap _ _ header.n rfl,
      @wordOf_flatMap _ _ header.totalFreq rfl]

instance : FixedRecord ArrayHeader where
  len := 8
  zeroed := .zeroed
  encode header := [header.wc, header.freq].flatMap le32
  decode := decodeWords "k mixture array header" 8 fun word => ⟨word 0, word 1⟩
  length_encode _ := length_flatMap_le32 _
  decode_encode header := by
    refine decodeWords_flatMap rfl ?_
    rw [@wordOf_flatMap _ _ header.wc rfl, @wordOf_flatMap _ _ header.freq rfl]

instance : FixedRecord ArrayItem where
  len := 16
  zeroed := ⟨0, 0, 0, 0⟩
  encode item := [item.wc, item.nn0, item.n1, item.mr].flatMap le32
  decode := decodeWords "k mixture array item" 16 fun word => ⟨word 0, word 1, word 2, word 3⟩
  length_encode _ := length_flatMap_le32 _
  decode_encode item := by
    refine decodeWords_flatMap rfl ?_
    rw [@wordOf_flatMap _ _ item.wc rfl, @wordOf_flatMap _ _ item.nn0 rfl,
      @wordOf_flatMap _ _ item.n1 rfl, @wordOf_flatMap _ _ item.mr rfl]

section Records

variable {η ι : Type} [FixedRecord η] [FixedRecord ι]

/-! ## One value -/

variable {value : Bytes}

/-- Bytes of a token. -/
def tokenLen : Nat := 4

/-- The bytes of a token and its item. -/
def encodeItem (entry : BitVec 32 × ι) : Bytes := le32 entry.1 ++ encode entry.2

def decodeItem (record : Bytes) : Except String (BitVec 32 × ι) := do
  let item ← decode (record.drop tokenLen)
  return (word32 (record.take tokenLen), item)

def encodeValue (header : η) (items : List (BitVec 32 × ι)) : Bytes := encode header ++ items.flatMap encodeItem

def lengthError (bytes headerLen itemLen : Nat) : String :=
  s!"flexible bigram value is {bytes} bytes: a {headerLen}-byte header plus whole {itemLen}-byte item records expected"

def decodeValue (value : Bytes) : Except String (η × List (BitVec 32 × ι)) :=
  let headerLen := recordLen η
  let itemLen := tokenLen + recordLen ι
  if value.length < headerLen ∨ (value.length - headerLen) % itemLen ≠ 0 then
    .error (lengthError value.length headerLen itemLen)
  else do
    let header ← decode (value.take headerLen)
    let items ← (chunks itemLen (value.drop headerLen)).mapM decodeItem
    return (header, items)

theorem length_encodeItem (entry : BitVec 32 × ι) : (encodeItem entry).length = tokenLen + recordLen ι := by
  rw [encodeItem, length_append, length_le32, FixedRecord.length_encode]
  rfl

theorem decodeItem_encodeItem (entry : BitVec 32 × ι) : decodeItem (encodeItem entry) = .ok entry := by
  have htoken : (le32 entry.1).length = tokenLen := length_le32 entry.1
  rw [decodeItem, encodeItem, drop_left' htoken, take_left' htoken, FixedRecord.decode_encode, word32_le32]
  rfl

theorem mapM_decodeItem (items : List (BitVec 32 × ι)) :
    (items.map encodeItem).mapM decodeItem = (.ok items : Except String (List (BitVec 32 × ι))) := by
  induction items with
  | nil => rfl
  | cons entry rest ih =>
    rw [map_cons, mapM_cons, decodeItem_encodeItem, ih]
    rfl

/-- A value of a header's bytes and what follows them. -/
theorem decodeValue_append {front rest : Bytes} (hfront : front.length = recordLen η) :
    (decodeValue (front ++ rest) : Except String (η × List (BitVec 32 × ι))) =
      if rest.length % (tokenLen + recordLen ι) ≠ 0 then
        .error (lengthError (front ++ rest).length (recordLen η) (tokenLen + recordLen ι))
      else do
        let header ← decode front
        let items ← (chunks (tokenLen + recordLen ι) rest).mapM decodeItem
        return (header, items) := by
  have hrest : (front ++ rest).length - recordLen η = rest.length := by
    rw [length_append]
    omega
  have hwhole : ¬ (front ++ rest).length < recordLen η := by
    rw [length_append]
    omega
  rw [decodeValue]
  simp only [hrest, hwhole, false_or, take_left' hfront, drop_left' hfront]

/-- The bytes of a gram give it back. -/
theorem decodeValue_encodeValue (header : η) (items : List (BitVec 32 × ι)) :
    decodeValue (encodeValue header items) = .ok (header, items) := by
  have hblocks : ∀ block ∈ items.map encodeItem, block.length = tokenLen + recordLen ι := by
    intro block hblock
    obtain ⟨entry, _, rfl⟩ := List.mem_map.mp hblock
    exact length_encodeItem entry
  have hpos : 0 < tokenLen + recordLen ι := Nat.lt_of_lt_of_le (by decide) (Nat.le_add_right tokenLen _)
  have hwhole : (items.flatMap encodeItem).length % (tokenLen + recordLen ι) = 0 := by
    rw [flatMap_def, length_flatten_const hblocks, Nat.mul_mod_left]
  have hcut : chunks (tokenLen + recordLen ι) (items.flatMap encodeItem) = items.map encodeItem := by
    have hflat := @chunks_flatten _ _ hpos _ [] hblocks hpos
    rwa [append_nil, ← flatMap_def] at hflat
  rw [encodeValue, decodeValue_append (FixedRecord.length_encode header), if_neg (not_not.mpr hwhole), hcut,
    mapM_decodeItem, FixedRecord.decode_encode]
  rfl

/-- A value that decodes is not short of its header. -/
theorem le_length_of_decode {found : η × List (BitVec 32 × ι)} (h : decodeValue value = .ok found) :
    recordLen η ≤ value.length := by
  by_contra hshort
  rw [decodeValue, if_pos (Or.inl (Nat.lt_of_not_le hshort))] at h
  cases h

/-- A header written over the first bytes of a value changes the header it decodes to, and nothing else. -/
theorem decodeValue_overwrite {old : η} {items : List (BitVec 32 × ι)}
    (h : decodeValue value = .ok (old, items)) (header : η) :
    decodeValue (overwrite value 0 (encode header)) = .ok (header, items) := by
  have hlen := le_length_of_decode h
  have htake : (value.take (recordLen η)).length = recordLen η := by
    rw [length_take, Nat.min_eq_left hlen]
  have hover : overwrite value 0 (encode header) = encode header ++ value.drop (recordLen η) := by
    rw [overwrite, FixedRecord.length_encode, take_zero, nil_append, Nat.zero_add]
  rw [← take_append_drop (recordLen η) value, decodeValue_append htake] at h
  split_ifs at h with hwhole
  obtain ⟨_, _, hrest⟩ := bind_eq_ok h
  obtain ⟨found, hfound, hpure⟩ := bind_eq_ok hrest
  obtain ⟨_, rfl⟩ := Prod.mk.inj (Except.ok.inj hpure)
  rw [hover, decodeValue_append (FixedRecord.length_encode header), if_neg hwhole, hfound, FixedRecord.decode_encode]
  rfl

/-! ## Edits -/

/-- A gram with a header of zeros and no items. -/
def SingleGram.new : SingleGram η ι := ⟨FixedRecord.zeroed, []⟩

/-- The walk of a search, up to the end of the range. -/
def SingleGram.searchFrom (rangeEnd : BitVec 32) (array : List (BitVec 32 × ι)) :
    List (BitVec 32 × ι) → List (BitVec 32 × ι)
  | [] => array
  | entry :: rest => if rangeEnd ≤ entry.1 then array else searchFrom rangeEnd (array ++ [entry]) rest

/-- Appends the items of a range. It always succeeds. -/
def SingleGram.search (gram : SingleGram η ι) (rangeBegin rangeEnd : BitVec 32) (array : List (BitVec 32 × ι)) :
    Bool × List (BitVec 32 × ι) :=
  (true, searchFrom rangeEnd array (gram.items.drop (lowerBound gram.items rangeBegin)))

def SingleGram.encode (gram : SingleGram η ι) : Bytes := encodeValue gram.header gram.items

inductive GramEdit (η ι : Type) where
  | insertArrayItem (token : BitVec 32) (item : ι)
  | setArrayItem (token : BitVec 32) (item : ι)
  | removeArrayItem (token : BitVec 32)
  | setHeader (header : η)

inductive GramAnswer (ι : Type) where
  | done (changed : Bool)
  | removed (item : Option ι)
  | none
  deriving DecidableEq

/-- An edit and its answer. One that is refused leaves the gram. -/
def SingleGram.edit (gram : SingleGram η ι) : GramEdit η ι → GramAnswer ι × SingleGram η ι
  | .insertArrayItem token item =>
    let after := gram.insertArrayItem token item
    (.done after.isSome, after.getD gram)
  | .setArrayItem token item =>
    let after := gram.setArrayItem token item
    (.done after.isSome, after.getD gram)
  | .removeArrayItem token =>
    let found := gram.removeArrayItem token
    (.removed (found.map Prod.fst), (found.map Prod.snd).getD gram)
  | .setHeader header => (.none, { gram with header := header })

/-- What a gram is for : a header and a map from tokens to items. -/
structure Filing (η ι : Type) where
  header : η
  item : BitVec 32 → Option ι

namespace Filing

/-- The filing of a new gram. -/
def new : Filing η ι := ⟨FixedRecord.zeroed, fun _ => .none⟩

def put (filing : Filing η ι) (token : BitVec 32) (item : Option ι) : Filing η ι :=
  { filing with item := Function.update filing.item token item }

/-- An insertion is for a token with no item, a replacement for one with an item. -/
def edit (filing : Filing η ι) : GramEdit η ι → GramAnswer ι × Filing η ι
  | .insertArrayItem token item =>
    if (filing.item token).isSome then (.done false, filing) else (.done true, filing.put token (some item))
  | .setArrayItem token item =>
    if (filing.item token).isSome then (.done true, filing.put token (some item)) else (.done false, filing)
  | .removeArrayItem token => (.removed (filing.item token), filing.put token .none)
  | .setHeader header => (.none, { filing with header := header })

end Filing

/-- A gram files a header and a map. -/
structure SingleGram.Files (gram : SingleGram η ι) (filing : Filing η ι) : Prop where
  header : gram.header = filing.header
  items : Lists gram.items filing.item

namespace SingleGram

theorem files_new : (new : SingleGram η ι).Files Filing.new := ⟨rfl, lists_nil⟩

theorem searchFrom_eq (rangeEnd : BitVec 32) : ∀ (items array : List (BitVec 32 × ι)),
    searchFrom rangeEnd array items = array ++ items.takeWhile fun entry => entry.1 < rangeEnd
  | [], array => (append_nil array).symm
  | entry :: rest, array => by
    rw [searchFrom]
    split_ifs with hend
    · rw [takeWhile_cons_of_neg (by simpa using hend), append_nil]
    · rw [searchFrom_eq rangeEnd rest, takeWhile_cons_of_pos (by simpa using hend), append_assoc, singleton_append]

/-- A search over ascending items appends those of its range, in their order. -/
theorem search_eq {gram : SingleGram η ι} (h : gram.items.Pairwise fun a b => a.1 < b.1)
    (rangeBegin rangeEnd : BitVec 32) (array : List (BitVec 32 × ι)) :
    gram.search rangeBegin rangeEnd array =
      (true, array ++ gram.items.filter fun entry => rangeBegin ≤ entry.1 ∧ entry.1 < rangeEnd) := by
  have hbelow : ∀ bound : BitVec 32, gram.items.Pairwise fun a b =>
      decide (b.1 < bound) = true → decide (a.1 < bound) = true := by
    refine fun bound => h.imp fun hab hb => ?_
    exact decide_eq_true (BitVec.lt_trans hab (of_decide_eq_true hb))
  obtain ⟨hpoint, hcut⟩ := partitionPoint_cut (hbelow rangeBegin)
  have hdrop : gram.items.drop (lowerBound gram.items rangeBegin) =
      gram.items.filter fun entry => !decide (entry.1 < rangeBegin) := by
    have hstart := @List.drop_left _ (gram.items.takeWhile fun entry => entry.1 < rangeBegin)
      (gram.items.filter fun entry => !decide (entry.1 < rangeBegin))
    rwa [← hcut, ← hpoint] at hstart
  have hend := (hbelow rangeEnd).filter fun entry => !decide (entry.1 < rangeBegin)
  rw [search, hdrop, searchFrom_eq, takeWhile_eq_filter hend, List.filter_filter]
  congr 3
  funext entry
  rw [Bool.decide_and, Bool.and_comm, ← decide_not, decide_eq_decide.mpr BitVec.not_lt]

variable {gram : SingleGram η ι} {filing : Filing η ι}

/-- One edit answers as the map, and files what the map becomes. -/
theorem edit_files (h : gram.Files filing) (op : GramEdit η ι) :
    (gram.edit op).1 = (filing.edit op).1 ∧ (gram.edit op).2.Files (filing.edit op).2 := by
  obtain ⟨hheader, hitems⟩ := h
  cases op with
  | insertArrayItem token item =>
    cases hold : filing.item token with
    | none =>
      obtain ⟨after, hafter, hsame, hlists⟩ := insertArrayItem_some hitems hold item
      simp only [edit, Filing.edit, hafter, hold, isSome_none, isSome_some, getD_some]
      exact ⟨rfl, hsame.trans hheader, hlists⟩
    | some old =>
      simp only [edit, Filing.edit, insertArrayItem_none hitems hold item, hold, isSome_none,
        isSome_some, getD_none, if_true]
      exact ⟨trivial, hheader, hitems⟩
  | setArrayItem token item =>
    cases hold : filing.item token with
    | none =>
      simp only [edit, Filing.edit, setArrayItem_none hitems hold item, hold, isSome_none, getD_none]
      exact ⟨rfl, hheader, hitems⟩
    | some old =>
      obtain ⟨after, hafter, hsame, hlists⟩ := setArrayItem_some hitems hold item
      simp only [edit, Filing.edit, hafter, hold, isSome_some, getD_some, if_true]
      exact ⟨trivial, hsame.trans hheader, hlists⟩
  | removeArrayItem token =>
    cases hold : filing.item token with
    | none =>
      have hsame : filing.put token none = filing := by
        rw [Filing.put, ← hold, Function.update_eq_self]
      simp only [edit, Filing.edit, removeArrayItem_none hitems hold, hold, hsame, map_none, getD_none]
      exact ⟨trivial, hheader, hitems⟩
    | some old =>
      obtain ⟨after, hafter, hsame, hlists⟩ := removeArrayItem_some hitems hold
      simp only [edit, Filing.edit, hafter, hold, map_some, getD_some]
      exact ⟨trivial, hsame.trans hheader, hlists⟩
  | setHeader header => exact ⟨rfl, rfl, hitems⟩

/-- Edits from a new gram answer as those of an empty map, and file what it becomes. -/
theorem edits_files (ops : List (GramEdit η ι)) :
    (answers edit (new : SingleGram η ι) ops).1 = (answers Filing.edit Filing.new ops).1 ∧
      (answers edit (new : SingleGram η ι) ops).2.Files (answers Filing.edit Filing.new ops).2 :=
  answers_simulate (fun _ _ op h => edit_files h op) ops files_new

end SingleGram

/-! ## The keyspace -/

/-- Grams by token in a raw keyspace. It is closed where there is none. -/
structure FlexibleBigram (η ι : Type) where
  db : Option (SortedMap Bytes Bytes)
  readOnly : Bool

namespace FlexibleBigram

variable (bigram : FlexibleBigram η ι) (token : BitVec 32)

def readValue (key : Bytes) : Option Bytes := bigram.db.bind fun db => db.get? key

/-- Writes nothing where the handle is closed or read-only. -/
def writeValue (key value : Bytes) : Bool × FlexibleBigram η ι :=
  match bigram.db with
  | none => (false, bigram)
  | some db => if bigram.readOnly then (false, bigram) else (true, { bigram with db := some (db.insert key value) })

def load : Except String (Option (SingleGram η ι)) :=
  match bigram.readValue (le32 token) with
  | none => .ok none
  | some value => do
    let (header, items) ← decodeValue value
    return some ⟨header, items⟩

def store (gram : SingleGram η ι) : Bool × FlexibleBigram η ι := bigram.writeValue (le32 token) gram.encode

/-- Writes a header over the first bytes of a value, which is filled up to it with zeros. -/
def setArrayHeader (header : η) : Bool × FlexibleBigram η ι :=
  if bigram.db.isNone || bigram.readOnly then (false, bigram)
  else
    let key := le32 token
    let stored := (bigram.readValue key).getD []
    let value := if stored.length < recordLen η then resize stored (recordLen η) 0 else stored
    bigram.writeValue key (overwrite value 0 (encode header))

variable {rows : SortedMap Bytes Bytes} {bigram token}

/-- The load of a value that was written. -/
theorem load_insert {value : Bytes} {gram : SingleGram η ι} {readOnly : Bool}
    (h : decodeValue value = .ok (gram.header, gram.items)) :
    load ⟨some (rows.insert (le32 token) value), readOnly⟩ token = .ok (some gram) := by
  rw [load, readValue, bind_some, SortedMap.get?_insert, Function.update_self]
  dsimp only
  rw [h]
  rfl

theorem load_store (gram : SingleGram η ι) : (store ⟨some rows, false⟩ token gram).2.load token = .ok (some gram) :=
  load_insert (decodeValue_encodeValue gram.header gram.items)

variable {old : Option (SingleGram η ι)}

/-- What a load finds is a value that decodes. -/
theorem load_eq_ok {readOnly : Bool}
    (h : load ⟨some rows, readOnly⟩ token = .ok old) :
    (rows.get? (le32 token) = none ∧ old = none) ∨
      ∃ value gram, rows.get? (le32 token) = some value ∧ old = some gram ∧
        decodeValue value = .ok (gram.header, gram.items) := by
  rw [load, readValue, bind_some] at h
  cases hvalue : rows.get? (le32 token) with
  | none =>
    rw [hvalue] at h
    exact Or.inl ⟨rfl, (Except.ok.inj h).symm⟩
  | some value =>
    rw [hvalue] at h
    obtain ⟨⟨header, items⟩, hdecode, hpure⟩ := bind_eq_ok h
    exact Or.inr ⟨value, ⟨header, items⟩, rfl, (Except.ok.inj hpure).symm, hdecode⟩

/-- A header set behind the decoder's back is the header that is loaded. The items are those there were, and
nothing else of the keyspace changes. -/
theorem setArrayHeader_load (h : load ⟨some rows, false⟩ token = .ok old)
    (header : η) : ∃ after : SortedMap Bytes Bytes,
      setArrayHeader (⟨some rows, false⟩ : FlexibleBigram η ι) token header = (true, ⟨some after, false⟩) ∧
        load ⟨some after, false⟩ token = .ok (some (⟨header, (old.map (·.items)).getD []⟩ : SingleGram η ι)) ∧
        ∀ key, key ≠ le32 token → after.get? key = rows.get? key := by
  have hother : ∀ (value : Bytes) (key : Bytes), key ≠ le32 token →
      (rows.insert (le32 token) value).get? key = rows.get? key := by
    intro value key hkey
    rw [SortedMap.get?_insert, Function.update_of_ne hkey]
  rcases load_eq_ok h with ⟨hnone, rfl⟩ | ⟨value, gram, hvalue, rfl, hdecode⟩
  · -- a missing value is filled up to a header of zeros
    have hfresh : decodeValue (overwrite (resize [] (recordLen η) 0) 0 (encode header)) =
        .ok (header, ([] : List (BitVec 32 × ι))) := by
      rw [overwrite, FixedRecord.length_encode, take_zero, nil_append, Nat.zero_add,
        drop_of_length_le (by rw [length_resize])]
      exact decodeValue_encodeValue header []
    refine ⟨rows.insert (le32 token) (overwrite (resize [] (recordLen η) 0) 0 (encode header)), ?_,
      @load_insert η ι _ _ token rows _ ⟨header, []⟩ false hfresh, hother _⟩
    have hvalue : (if ([] : Bytes).length < recordLen η then resize [] (recordLen η) 0 else []) =
        resize ([] : Bytes) (recordLen η) 0 := by
      split_ifs with hlen
      · rfl
      · rw [resize, take_nil, nil_append, length_nil, Nat.sub_zero, Nat.le_zero.mp (Nat.not_lt.mp hlen)]
        rfl
    simp only [setArrayHeader, readValue, isNone_some, Bool.or_false, bind_some, hnone, getD_none, hvalue]
    rfl
  · refine ⟨rows.insert (le32 token) (overwrite value 0 (encode header)), ?_,
      @load_insert η ι _ _ token rows _ ⟨header, gram.items⟩ false (decodeValue_overwrite hdecode header), hother _⟩
    simp only [setArrayHeader, readValue, isNone_some, Bool.or_false, bind_some, hvalue, getD_some,
      if_neg (Nat.not_lt.mpr (le_length_of_decode hdecode))]
    rfl

end FlexibleBigram

/-- Edits from a new gram keep its items those of a finite map, ascending, with the map's answers. Searches
and bytes are of these items, and a header set in the keyspace changes none of them. -/
theorem flexibleGram_runs (ops : List (GramEdit η ι)) :
    let run := answers SingleGram.edit (SingleGram.new : SingleGram η ι) ops
    let filed := answers Filing.edit (Filing.new : Filing η ι) ops
    let gram := run.2
    run.1 = filed.1 ∧ gram.header = filed.2.header ∧
      gram.items.Pairwise (fun a b => a.1 < b.1) ∧
      (∀ token item, (token, item) ∈ gram.items ↔ filed.2.item token = some item) ∧
      (∀ token, gram.getArrayItem token = filed.2.item token) ∧
      (∀ rangeBegin rangeEnd array, gram.search rangeBegin rangeEnd array =
        (true, array ++ gram.items.filter fun entry => rangeBegin ≤ entry.1 ∧ entry.1 < rangeEnd)) ∧
      decodeValue gram.encode = .ok (gram.header, gram.items) ∧
      ∀ (rows : SortedMap Bytes Bytes) (token : BitVec 32),
        (FlexibleBigram.store ⟨some rows, false⟩ token gram).2.load token = .ok (some gram) ∧
        ∀ (old : Option (SingleGram η ι)), FlexibleBigram.load ⟨some rows, false⟩ token = .ok old → ∀ header : η,
          ∃ after : SortedMap Bytes Bytes,
            FlexibleBigram.setArrayHeader (⟨some rows, false⟩ : FlexibleBigram η ι) token header =
                (true, ⟨some after, false⟩) ∧
              FlexibleBigram.load ⟨some after, false⟩ token =
                .ok (some (⟨header, (old.map (·.items)).getD []⟩ : SingleGram η ι)) ∧
              ∀ key, key ≠ le32 token → after.get? key = rows.get? key := by
  intro run filed gram
  obtain ⟨hanswers, hheader, hlists⟩ := SingleGram.edits_files ops
  refine ⟨hanswers, hheader, hlists.ascending, hlists.mem, ?_, ?_, ?_, ?_⟩
  · exact SingleGram.getArrayItem_eq hlists
  · exact SingleGram.search_eq hlists.ascending
  · exact decodeValue_encodeValue gram.header gram.items
  · intro rows token
    exact ⟨FlexibleBigram.load_store gram, fun old hload header => FlexibleBigram.setArrayHeader_load hload header⟩

end Records

/-- A keyspace with one gram, and two edits of another. -/
def storedRows : SortedMap Bytes Bytes :=
  SortedMap.empty.insert (le32 7) (encodeValue (⟨1, 1⟩ : ArrayHeader) [(5, (⟨1, 0, 1, 1⟩ : ArrayItem))])

def twoEdits : List (GramEdit ArrayHeader ArrayItem) :=
  [.insertArrayItem 5 ⟨1, 0, 1, 1⟩, .insertArrayItem 3 ⟨2, 0, 0, 2⟩]

theorem flexibleGram_runs_stored : ∃ after : SortedMap Bytes Bytes,
    FlexibleBigram.setArrayHeader (⟨some storedRows, false⟩ : FlexibleBigram ArrayHeader ArrayItem) 7 ⟨9, 9⟩ =
      (true, ⟨some after, false⟩) ∧
    FlexibleBigram.load ⟨some after, false⟩ 7 = .ok (some (⟨⟨9, 9⟩, [(5, ⟨1, 0, 1, 1⟩)]⟩ : KmmGram)) ∧
    ∀ key, key ≠ le32 7 → after.get? key = storedRows.get? key :=
  ((flexibleGram_runs twoEdits).2.2.2.2.2.2.2 storedRows 7).2 (some ⟨⟨1, 1⟩, [(5, ⟨1, 0, 1, 1⟩)]⟩)
    (FlexibleBigram.load_insert (decodeValue_encodeValue _ _)) ⟨9, 9⟩

end Oxpinyin.Kmm
