import Oxpinyin.Lib.Search
import Oxpinyin.Lib.SortedMap

/-!
# The k-mixture-model container

One gram for each predecessor token : a header and the items of its successors, ascending by
token. A lookup starts at the lower bound and walks on. The container has a magic header, from
its first training on, and the grams by token. The library behind it is a finite map that lists
its keys in an order of its own (`Walk`).
-/

namespace Oxpinyin.Kmm

open Function List Option Search FiniteMap

/-! ## Records -/

structure MagicHeader where
  wc : BitVec 32
  n : BitVec 32
  totalFreq : BitVec 32
  deriving DecidableEq, Inhabited

structure ArrayHeader where
  wc : BitVec 32
  freq : BitVec 32
  deriving DecidableEq, Inhabited

structure ArrayItem where
  wc : BitVec 32
  nn0 : BitVec 32
  n1 : BitVec 32
  mr : BitVec 32
  deriving DecidableEq, Inhabited

def MagicHeader.zeroed : MagicHeader := ⟨0, 0, 0⟩

def ArrayHeader.zeroed : ArrayHeader := ⟨0, 0⟩

/-! ## One gram -/

/-- A header and the items of the successors. -/
structure SingleGram (η ι : Type) where
  header : η
  items : List (BitVec 32 × ι)
  deriving DecidableEq

namespace SingleGram

variable {η ι : Type}

/-- Where the items below a token end. -/
def lowerBound (items : List (BitVec 32 × ι)) (token : BitVec 32) : Nat :=
  partitionPoint (fun entry => entry.1 < token) items

/-- The walk of a lookup. -/
def getFrom (token : BitVec 32) : List (BitVec 32 × ι) → Option ι
  | [] => none
  | entry :: rest =>
    if token < entry.1 then none else if entry.1 = token then some entry.2 else getFrom token rest

/-- The walk of an insertion. There is no answer where the token has an item. -/
def insertFrom (token : BitVec 32) (item : ι) : List (BitVec 32 × ι) → Option (List (BitVec 32 × ι))
  | [] => some [(token, item)]
  | entry :: rest =>
    if token < entry.1 then some ((token, item) :: entry :: rest)
    else if entry.1 = token then none
    else (insertFrom token item rest).map (entry :: ·)

/-- The walk of a removal. -/
def removeFrom (token : BitVec 32) : List (BitVec 32 × ι) → Option (ι × List (BitVec 32 × ι))
  | [] => none
  | entry :: rest =>
    if token < entry.1 then none
    else if entry.1 = token then some (entry.2, rest)
    else (removeFrom token rest).map fun found => (found.1, entry :: found.2)

/-- The walk of a replacement. -/
def setFrom (token : BitVec 32) (item : ι) : List (BitVec 32 × ι) → Option (List (BitVec 32 × ι))
  | [] => none
  | entry :: rest =>
    if token < entry.1 then none
    else if entry.1 = token then some ((token, item) :: rest)
    else (setFrom token item rest).map (entry :: ·)

def getArrayItem (gram : SingleGram η ι) (token : BitVec 32) : Option ι :=
  getFrom token (gram.items.drop (lowerBound gram.items token))

def insertArrayItem (gram : SingleGram η ι) (token : BitVec 32) (item : ι) : Option (SingleGram η ι) :=
  let bound := lowerBound gram.items token
  (insertFrom token item (gram.items.drop bound)).map fun rest =>
    { gram with items := gram.items.take bound ++ rest }

def removeArrayItem (gram : SingleGram η ι) (token : BitVec 32) : Option (ι × SingleGram η ι) :=
  let bound := lowerBound gram.items token
  (removeFrom token (gram.items.drop bound)).map fun found =>
    (found.1, { gram with items := gram.items.take bound ++ found.2 })

def setArrayItem (gram : SingleGram η ι) (token : BitVec 32) (item : ι) : Option (SingleGram η ι) :=
  let bound := lowerBound gram.items token
  (setFrom token item (gram.items.drop bound)).map fun rest =>
    { gram with items := gram.items.take bound ++ rest }

/-! ### On ascending items -/

section Ascending

variable {gram : SingleGram η ι} {m : BitVec 32 → Option ι} {token : BitVec 32}

/-- A walk starts at the token's own place. -/
theorem cut (h : Lists gram.items m) (token : BitVec 32) :
    ∃ front back, gram.items = front ++ ((m token).map (Prod.mk token)).toList ++ back ∧
      (∀ entry ∈ front, entry.1 < token) ∧ (∀ entry ∈ back, token < entry.1) ∧
      gram.items.take (lowerBound gram.items token) = front ∧
      gram.items.drop (lowerBound gram.items token) = ((m token).map (Prod.mk token)).toList ++ back := by
  obtain ⟨front, back, hitems, hfront, hback⟩ := h.split token
  have hbound : lowerBound gram.items token = front.length := by
    rw [hitems, append_assoc, lowerBound]
    refine partitionPoint_append (fun entry hentry => decide_eq_true (hfront entry hentry)) fun entry hentry => ?_
    rcases mem_append.mp hentry with hown | habove
    · cases hm : m token with
      | none => simp [hm] at hown
      | some item =>
        have hentry : entry = (token, item) := by simpa [hm] using hown
        rw [hentry]
        exact decide_eq_false (BitVec.lt_irrefl token)
    · exact decide_eq_false fun hlt => lt_asymm hlt (hback entry habove)
  refine ⟨front, back, hitems, hfront, hback, ?_, ?_⟩
  · rw [hbound, hitems, append_assoc, take_left]
  · rw [hbound, hitems, append_assoc, drop_left]

theorem getFrom_own (item : ι) (back : List (BitVec 32 × ι)) : getFrom token ((token, item) :: back) = some item := by
  rw [getFrom, if_neg (BitVec.lt_irrefl token), if_pos rfl]

variable {back : List (BitVec 32 × ι)}

/-- A walk past the token's place finds nothing. -/
theorem getFrom_above (h : ∀ entry ∈ back, token < entry.1) :
    getFrom token back = none := by
  cases back with
  | nil => rfl
  | cons entry rest => rw [getFrom, if_pos (h entry mem_cons_self)]

theorem insertFrom_above (h : ∀ entry ∈ back, token < entry.1) (item : ι) :
    insertFrom token item back = some ((token, item) :: back) := by
  cases back with
  | nil => rfl
  | cons entry rest => rw [insertFrom, if_pos (h entry mem_cons_self)]

variable (h : Lists gram.items m)
include h

/-- A lookup answers as the map. -/
theorem getArrayItem_eq (token : BitVec 32) : gram.getArrayItem token = m token := by
  obtain ⟨front, back, _, _, hback, _, hdrop⟩ := cut h token
  rw [getArrayItem, hdrop]
  cases m token with
  | none => exact getFrom_above hback
  | some item =>
    rw [map_some, toList_some, singleton_append]
    exact getFrom_own item back

variable {old : ι}

/-- An insertion is refused for a token that has an item. -/
theorem insertArrayItem_none (hold : m token = some old) (item : ι) :
    gram.insertArrayItem token item = none := by
  obtain ⟨front, back, _, _, _, _, hdrop⟩ := cut h token
  rw [insertArrayItem, hdrop, hold, map_some, toList_some, singleton_append, insertFrom,
    if_neg (BitVec.lt_irrefl token), if_pos rfl]
  rfl

/-- Else it is the update of the map. -/
theorem insertArrayItem_some (hnone : m token = none) (item : ι) :
    ∃ after, gram.insertArrayItem token item = some after ∧ after.header = gram.header ∧
      Lists after.items (update m token (some item)) := by
  obtain ⟨front, back, hitems, hfront, hback, htake, hdrop⟩ := cut h token
  rw [hnone, map_none, toList_none, nil_append] at hdrop
  refine ⟨{ gram with items := front ++ (token, item) :: back }, ?_, rfl, ?_⟩
  · rw [insertArrayItem, hdrop, htake]
    rw [insertFrom_above hback item]
    rfl
  · rw [hitems] at h
    have hput := h.at_place hfront hback (some item)
    rwa [map_some, toList_some, append_assoc, singleton_append] at hput

theorem setArrayItem_some (hold : m token = some old) (item : ι) :
    ∃ after, gram.setArrayItem token item = some after ∧ after.header = gram.header ∧
      Lists after.items (update m token (some item)) := by
  obtain ⟨front, back, hitems, hfront, hback, htake, hdrop⟩ := cut h token
  rw [hold, map_some, toList_some, singleton_append] at hdrop
  refine ⟨{ gram with items := front ++ (token, item) :: back }, ?_, rfl, ?_⟩
  · rw [setArrayItem, hdrop, htake]
    rw [setFrom, if_neg (BitVec.lt_irrefl token), if_pos rfl]
    rfl
  · rw [hitems] at h
    have hput := h.at_place hfront hback (some item)
    rwa [map_some, toList_some, append_assoc, singleton_append] at hput

/-- A replacement or a removal is refused for a token with no item. -/
theorem setArrayItem_none (hnone : m token = none) (item : ι) : gram.setArrayItem token item = none := by
  obtain ⟨front, back, _, _, hback, _, hdrop⟩ := cut h token
  rw [hnone, map_none, toList_none, nil_append] at hdrop
  rw [setArrayItem, hdrop]
  cases back with
  | nil => rfl
  | cons entry rest => rw [setFrom, if_pos (hback entry mem_cons_self)]; rfl

theorem removeArrayItem_none (hnone : m token = none) : gram.removeArrayItem token = none := by
  obtain ⟨front, back, _, _, hback, _, hdrop⟩ := cut h token
  rw [hnone, map_none, toList_none, nil_append] at hdrop
  rw [removeArrayItem, hdrop]
  cases back with
  | nil => rfl
  | cons entry rest => rw [removeFrom, if_pos (hback entry mem_cons_self)]; rfl

theorem removeArrayItem_some (hold : m token = some old) :
    ∃ after, gram.removeArrayItem token = some (old, after) ∧ after.header = gram.header ∧
      Lists after.items (update m token none) := by
  obtain ⟨front, back, hitems, hfront, hback, htake, hdrop⟩ := cut h token
  rw [hold, map_some, toList_some, singleton_append] at hdrop
  refine ⟨{ gram with items := front ++ back }, ?_, rfl, ?_⟩
  · rw [removeArrayItem, hdrop, htake]
    rw [removeFrom, if_neg (BitVec.lt_irrefl token), if_pos rfl]
    rfl
  · rw [hitems] at h
    have hput := h.at_place hfront hback none
    rwa [map_none, toList_none, append_nil] at hput

end Ascending

end SingleGram

abbrev KmmGram := SingleGram ArrayHeader ArrayItem

/-- A gram with no items and a header of zeros. -/
def newGram : KmmGram := ⟨.zeroed, []⟩

/-! ## The container -/

/-- The order a table lists its keys in. -/
structure Walk where
  keys : List (BitVec 32) → List (BitVec 32)
  perm : ∀ listed, (keys listed).Perm listed

namespace Walk

variable (order : Walk) {ν : Type} (map : SortedMap (BitVec 32) ν) {token : BitVec 32}

theorem mem_keys : token ∈ order.keys (map.entries.map Prod.fst) ↔ (map.get? token).isSome :=
  (order.perm _).mem_iff.trans (map.lists.mem_keys token)

theorem nodup_keys : (order.keys (map.entries.map Prod.fst)).Nodup := (order.perm _).symm.nodup map.lists.nodup_keys

theorem get?_eq_none (h : token ∉ order.keys (map.entries.map Prod.fst)) : map.get? token = none :=
  map.lists.get_of_not_mem (mt (order.perm _).mem_iff.mpr h)

end Walk

/-- The grams by token, and the magic header once it was set. -/
structure Container where
  magic : Option MagicHeader
  rows : SortedMap (BitVec 32) KmmGram

namespace Container

/-- A container as it is created. -/
def empty : Container := ⟨none, .empty⟩

section

variable (container : Container)

def getMagicHeader : Option MagicHeader := container.magic

def setMagicHeader (header : MagicHeader) : Container :=
  { container with magic := some header }

def getAllItems (order : Walk) : List (BitVec 32) :=
  order.keys (container.rows.entries.map Prod.fst)

def load (token : BitVec 32) : Option KmmGram := container.rows.get? token

def store (token : BitVec 32) (gram : KmmGram) : Container :=
  { container with rows := container.rows.insert token gram }

def getArrayHeader (token : BitVec 32) : Option ArrayHeader :=
  (container.load token).map (·.header)

/-- The header of a gram, its items as they are. A missing gram is made. -/
def setArrayHeader (token : BitVec 32) (header : ArrayHeader) : Container :=
  container.store token ⟨header, ((container.load token).map (·.items)).getD []⟩

/-- Without a token's gram. There is no answer where it has none. -/
def remove (token : BitVec 32) : Option Container :=
  (container.load token).map fun _ => { container with rows := container.rows.erase token }

end

variable (container : Container) (token : BitVec 32)

theorem load_store (gram : KmmGram) :
    (container.store token gram).load = update container.load token (some gram) :=
  container.rows.get?_insert token gram

theorem load_erase : Container.load { container with rows := container.rows.erase token } =
    update container.load token none :=
  container.rows.get?_erase token

theorem mem_getAllItems (order : Walk) : token ∈ container.getAllItems order ↔ (container.load token).isSome :=
  order.mem_keys container.rows

theorem nodup_getAllItems (order : Walk) : (container.getAllItems order).Nodup := order.nodup_keys container.rows

end Container

end Oxpinyin.Kmm
