import Oxpinyin.Lib.Patch
import Oxpinyin.Rollback

/-!
# The items of a buffer as a map

`Holds content room m` : the buffer has the items of the map `m`, each at its slot's offset with
so much room, and the rooms are apart. Appending an item under a slot, writing a shorter one
over it and clearing the slot are the updates of the map, and a record that finds what it takes
away makes the edit it stands for (`Merge.Holds.step`).
-/

namespace Oxpinyin.Replay

open List Function LittleEndian ChunkFile Patch Content
open BitVec hiding getElem?_eq_none getElem?_eq_getElem

/-- A byte string that is as long as its header says. -/
def Exact (bytes : Bytes) : Prop := declaredLen bytes = some bytes.length

theorem Exact.header {bytes : Bytes} (h : Exact bytes) :
    phraseItemHeader ≤ bytes.length ∧ ∃ length prons, bytes[0]? = some length ∧ bytes[1]? = some prons ∧
      headerLen length prons = bytes.length := by
  unfold Exact declaredLen at h
  split at h
  · rename_i length prons hlength hprons
    refine ⟨?_, length, prons, hlength, hprons, Option.some.inj h⟩
    rw [← Option.some.inj h]
    exact le_headerLen length prons
  · cases h

/-- The buffer has the items of a map, in rooms that are apart. -/
structure Holds (content : Content) (room : BitVec 32 → Nat) (m : BitVec 32 → Option Bytes) : Prop where
  shaped : content.Shaped
  empty : ∀ slot, m slot = none → content.word slot = 0
  named : ∀ slot bytes, m slot = some bytes → content.word slot ≠ 0
  exact : ∀ slot bytes, m slot = some bytes → Exact bytes
  fits : ∀ slot bytes, m slot = some bytes → bytes.length ≤ room slot
  inside : ∀ slot bytes, m slot = some bytes → (content.word slot).toNat + room slot ≤ content.dataLen
  span : ∀ slot bytes, m slot = some bytes →
    ∀ i : Nat, i < bytes.length → bytes[i]? = some (content.read ((content.word slot).toNat + i))
  apart : ∀ i j a b, i ≠ j → m i = some a → m j = some b →
    (content.word i).toNat + room i ≤ (content.word j).toNat ∨
      (content.word j).toNat + room j ≤ (content.word i).toNat

/-- `size` bytes under `slot` of `after` are apart from the other items, which stay as they are. -/
def KeepsOthers (content after : Content) (room : BitVec 32 → Nat) (m : BitVec 32 → Option Bytes) (slot : BitVec 32)
    (size : Nat) : Prop :=
  ∀ other item, other ≠ slot → m other = some item →
    ((after.word slot).toNat + size ≤ (content.word other).toNat ∨
      (content.word other).toNat + room other ≤ (after.word slot).toNat) ∧
    ∀ i : Nat, i < item.length →
      after.read ((content.word other).toNat + i) = content.read ((content.word other).toNat + i)

namespace Holds

variable {content : Content} {room : BitVec 32 → Nat} {m : BitVec 32 → Option Bytes} {slot : BitVec 32}

section

variable (h : Holds content room m)
include h

/-- The item a slot shows. -/
theorem visible {bytes : Bytes} (hslot : m slot = some bytes) :
    content.visible slot = .item (content.word slot).toNat bytes.length ∧
      content.item (content.word slot).toNat bytes.length = some bytes := by
  obtain ⟨hroom, length, prons, hlength, hprons, hheader⟩ := (h.exact slot bytes hslot).header
  have hfits := h.fits slot bytes hslot
  have hinside := h.inside slot bytes hslot
  have hspan := h.span slot bytes hslot
  rw [phraseItemHeader] at hroom
  have hcapacity := Nat.le_trans h.shaped.items.dataEnd_le h.shaped.items.length_le
  rw [dataLen] at hinside
  have hfirst : content.read (content.word slot).toNat = length := by
    have hread := hspan 0 (by omega)
    rw [hlength] at hread
    exact (Option.some.inj hread).symm
  have hsecond : content.read ((content.word slot).toNat + 1) = prons := by
    have hread := hspan 1 (by omega)
    rw [hprons] at hread
    exact (Option.some.inj hread).symm
  refine ⟨h.shaped.visible_eq_item.mpr ⟨h.named slot bytes hslot, rfl, ?_, ?_, ?_⟩, ?_⟩
  · rw [dataLen]
    omega
  · rw [hfirst, hsecond, hheader]
  · omega
  · rw [h.shaped.item_eq (by omega), Option.some.injEq]
    refine ext_getElem? fun i => ?_
    rcases Nat.lt_or_ge i bytes.length with hlt | hge
    · rw [getElem?_span content hlt, hspan i hlt]
    · rw [getElem?_eq_none (by rw [length_span]; exact hge), getElem?_eq_none hge]

/-- The buffer answers as the map. -/
theorem itemBytes (slot : BitVec 32) : content.itemBytes slot = m slot := by
  cases hslot : m slot with
  | none =>
    rw [Content.itemBytes, Content.visible_eq, if_pos (h.empty slot hslot)]
  | some bytes =>
    obtain ⟨hvisible, hitem⟩ := h.visible hslot
    rw [Content.itemBytes, hvisible]
    exact hitem

theorem withTotal (total : BitVec 32) : Holds { content with total := total } room m :=
  ⟨⟨h.shaped.items, h.shaped.slots, h.shaped.whole, h.shaped.aligned⟩, h.empty, h.named, h.exact, h.fits,
    h.inside, h.span, h.apart⟩

/-- Clearing a slot takes its item out. -/
theorem clear (slot : BitVec 32) : Holds (content.setSlotOffset slot 0) room (update m slot none) := by
  obtain ⟨hshaped, hword, _⟩ := h.shaped.setSlotOffset slot 0
  obtain ⟨hread, hlen, _⟩ := content.setSlotOffset_frame slot 0
  have hother : ∀ {other : BitVec 32} {bytes : Bytes}, update m slot none other = some bytes →
      m other = some bytes ∧ (content.setSlotOffset slot 0).word other = content.word other := by
    intro other bytes hbytes
    have hne : other ≠ slot := by
      rintro rfl
      rw [update_self] at hbytes
      cases hbytes
    rw [update_of_ne hne] at hbytes
    exact ⟨hbytes, by rw [hword, update_of_ne hne]⟩
  refine ⟨hshaped, fun other hnone => ?_, fun other bytes hbytes => ?_, fun other bytes hbytes => ?_,
    fun other bytes hbytes => ?_, fun other bytes hbytes => ?_, fun other bytes hbytes => ?_,
    fun i j a b hne ha hb => ?_⟩
  · by_cases hsame : other = slot
    · rw [hsame, hword, update_self]
    · rw [update_of_ne hsame] at hnone
      rw [hword, update_of_ne hsame]
      exact h.empty other hnone
  · rw [(hother hbytes).2]
    exact h.named other bytes (hother hbytes).1
  · exact h.exact other bytes (hother hbytes).1
  · exact h.fits other bytes (hother hbytes).1
  · rw [(hother hbytes).2, hlen]
    exact h.inside other bytes (hother hbytes).1
  · rw [(hother hbytes).2, hread]
    exact h.span other bytes (hother hbytes).1
  · rw [(hother ha).2, (hother hb).2]
    exact h.apart i j a b hne (hother ha).1 (hother hb).1

/-- An item comes under a slot, in a room apart from the others and with their bytes as they
were. -/
theorem put {after : Content} (hshaped : after.Shaped) {bytes : Bytes} {size : Nat}
    (hword : ∀ other, other ≠ slot → after.word other = content.word other) (hnamed : after.word slot ≠ 0)
    (hexact : Exact bytes) (hfits : bytes.length ≤ size) (hinside : (after.word slot).toNat + size ≤ after.dataLen)
    (hlen : content.dataLen ≤ after.dataLen)
    (hspan : ∀ i : Nat, i < bytes.length → bytes[i]? = some (after.read ((after.word slot).toNat + i)))
    (hothers : KeepsOthers content after room m slot size) :
    Holds after (update room slot size) (update m slot (some bytes)) := by
  have hold : ∀ {other : BitVec 32}, other ≠ slot → update m slot (some bytes) other = m other :=
    fun hne => update_of_ne hne _ _
  have hself : ∀ {item : Bytes}, update m slot (some bytes) slot = some item → item = bytes := by
    intro item hitem
    rw [update_self] at hitem
    exact (Option.some.inj hitem).symm
  refine ⟨hshaped, fun other hnone => ?_, fun other item hitem => ?_, fun other item hitem => ?_,
    fun other item hitem => ?_, fun other item hitem => ?_, fun other item hitem => ?_,
    fun i j a b hne ha hb => ?_⟩
  · by_cases hsame : other = slot
    · rw [hsame, update_self] at hnone
      cases hnone
    · rw [hold hsame] at hnone
      rw [hword other hsame]
      exact h.empty other hnone
  · by_cases hsame : other = slot
    · rw [hsame]
      exact hnamed
    · rw [hold hsame] at hitem
      rw [hword other hsame]
      exact h.named other item hitem
  · by_cases hsame : other = slot
    · rw [hsame] at hitem
      rw [hself hitem]
      exact hexact
    · rw [hold hsame] at hitem
      exact h.exact other item hitem
  · by_cases hsame : other = slot
    · rw [hsame] at hitem ⊢
      rw [hself hitem, update_self]
      exact hfits
    · rw [hold hsame] at hitem
      rw [update_of_ne hsame]
      exact h.fits other item hitem
  · by_cases hsame : other = slot
    · rw [hsame, update_self]
      exact hinside
    · rw [hold hsame] at hitem
      rw [update_of_ne hsame, hword other hsame]
      exact Nat.le_trans (h.inside other item hitem) hlen
  · by_cases hsame : other = slot
    · rw [hsame] at hitem ⊢
      rw [hself hitem]
      exact hspan
    · rw [hold hsame] at hitem
      intro i hi
      rw [hword other hsame, (hothers other item hsame hitem).2 i hi]
      exact h.span other item hitem i hi
  · by_cases hi : i = slot
    · have hj : j ≠ slot := fun heq => hne (hi.trans heq.symm)
      rw [hold hj] at hb
      rw [hi, update_self, update_of_ne hj, hword j hj]
      exact (hothers j b hj hb).1
    · rw [hold hi] at ha
      by_cases hj : j = slot
      · rw [hj, update_self, update_of_ne hi, hword i hi]
        exact (hothers i a hi ha).1.symm
      · rw [hold hj] at hb
        rw [update_of_ne hi, update_of_ne hj, hword i hi, hword j hj]
        exact h.apart i j a b hne ha hb

/-- A shorter item over a slot's item. -/
theorem overwrite {oldItem newItem : Bytes} (hold : m slot = some oldItem) (hexact : Exact newItem)
    (hle : newItem.length ≤ oldItem.length) {after : Content}
    (hwrite : content.write (content.word slot).toNat newItem = some after) :
    Holds after room (update m slot (some newItem)) := by
  obtain ⟨hshaped, hread, hword, hlen, _⟩ := h.shaped.write hwrite
  have hfits := h.fits slot oldItem hold
  have hput := @h.put _ _ _ slot after hshaped newItem (room slot) (fun other _ => by rw [hword])
    (by rw [hword]; exact h.named slot oldItem hold) hexact (Nat.le_trans hle hfits)
    (by rw [hword, hlen]; exact h.inside slot oldItem hold) hlen.ge
    (fun i hi => by rw [hword, hread, splice_at hi, getElem?_eq_getElem hi, Option.getD_some])
    (fun other item hne hitem => by
      have hroom := h.fits other item hitem
      have hapart := h.apart slot other oldItem item hne.symm hold hitem
      rw [hword]
      refine ⟨hapart, fun i hi => ?_⟩
      rw [hread]
      rcases hapart with hbefore | hbehind
      · exact splice_of_le (by omega)
      · exact splice_of_lt (by omega))
  rwa [update_eq_self] at hput

end

theorem le_appendOffset {len : Nat} (h : len < 2 ^ 32) : len ≤ (appendOffset len).toNat ∧ appendOffset len ≠ 0 := by
  unfold appendOffset
  split_ifs with hzero
  · have hnat := congrArg BitVec.toNat hzero
    rw [toNat_ofNat, Nat.mod_eq_of_lt h] at hnat
    rw [hnat]
    exact ⟨Nat.zero_le _, by decide⟩
  · rw [toNat_ofNat, Nat.mod_eq_of_lt h]
    exact ⟨Nat.le_refl _, hzero⟩

/-- An item behind the others. -/
theorem append (h : Holds content room m) {newItem : Bytes} (hexact : Exact newItem)
    (hlen : content.dataLen < 2 ^ 32) :
    Holds ((content.append newItem).1.setSlotOffset slot (content.append newItem).2.offset)
      (update room slot newItem.length) (update m slot (some newItem)) := by
  obtain ⟨hbehind, hne⟩ := le_appendOffset hlen
  obtain ⟨hshaped, hread, hword, hdata, _⟩ := h.shaped.append newItem
  obtain ⟨hset, hupdate, _⟩ := hshaped.setSlotOffset slot (content.append newItem).2.offset
  obtain ⟨hframe, hsize, _⟩ := (content.append newItem).1.setSlotOffset_frame slot (content.append newItem).2.offset
  have hoffset : (content.append newItem).2.offset = appendOffset content.dataLen := rfl
  rw [hoffset] at hset hupdate hframe hsize ⊢
  have hslot : ((content.append newItem).1.setSlotOffset slot (appendOffset content.dataLen)).word slot =
      appendOffset content.dataLen := by rw [hupdate, update_self]
  refine h.put hset (fun other hother => ?_) ?_ hexact (Nat.le_refl _) ?_ ?_ (fun i hi => ?_)
    fun other item hother hitem => ?_
  · rw [hupdate, update_of_ne hother, hword]
  · rw [hslot]
    exact hne
  · rw [hslot, hsize, hdata]
    exact Nat.le_max_right _ _
  · rw [hsize, hdata]
    exact Nat.le_max_left _ _
  · rw [hslot, hframe, hread, splice_at hi, getElem?_eq_getElem hi, Option.getD_some]
  · have hinside := h.inside other item hitem
    have hfits := h.fits other item hitem
    rw [hslot]
    refine ⟨Or.inr (Nat.le_trans hinside hbehind), fun i hi => ?_⟩
    rw [hframe, hread]
    exact splice_of_lt (by omega)

end Holds

/-! ## The records of edits -/

/-- The record of an edit. -/
def recordOf : Edit (BitVec 32) Bytes → LogRecord
  | .add slot new => .add slot new
  | .remove slot old => .remove slot old
  | .modify slot old new => .modify slot old new

/-- The bytes an edit appends. -/
def appendedLen : Edit (BitVec 32) Bytes → Nat
  | .add _ new => new.length
  | .remove _ _ => 0
  | .modify _ old new => if old.length < new.length then new.length else 0

/-- What an edit does to the total. -/
def totalDelta : Edit (BitVec 32) Bytes → BitVec 32
  | .add _ new => rawUnigram new
  | .remove _ old => -rawUnigram old
  | .modify _ old new => if old.length < new.length then rawUnigram new - rawUnigram old else 0

/-- A record that finds what it takes away makes its edit. -/
structure Makes (merge after : Merge) (m : BitVec 32 → Option Bytes) (edit : Edit (BitVec 32) Bytes) : Prop where
  holds : ∃ room, Holds after.content room (edit.apply m)
  total : after.content.total = merge.content.total + totalDelta edit
  size : after.content.dataLen = if appendedLen edit = 0 then merge.content.dataLen
    else (appendOffset merge.content.dataLen).toNat + appendedLen edit

namespace Merge

variable {merge : Merge} {room : BitVec 32 → Nat} {m : BitVec 32 → Option Bytes} {slot : BitVec 32}
  {prior : List (BitVec 32)}

/-- A payload that is appended and named by a slot. -/
theorem holds_store (h : Holds merge.content room m) {payload : Bytes} (hexact : Exact payload)
    (hlen : merge.content.dataLen < 2 ^ 32) {stored : Merge}
    (hstored : stored = (merge.appendLogged payload).1.setOffset slot (merge.appendLogged payload).2) :
    Holds stored.content (update room slot payload.length) (update m slot (some payload)) ∧
      stored.content.total = merge.content.total ∧
      stored.content.dataLen = (appendOffset merge.content.dataLen).toNat + payload.length := by
  rw [hstored]
  obtain ⟨_, _, _, hdata, _⟩ := h.shaped.append payload
  have hbehind := (Holds.le_appendOffset hlen).1
  refine ⟨h.append hexact hlen, rfl, ?_⟩
  have hsize : ((merge.appendLogged payload).1.setOffset slot (merge.appendLogged payload).2).content.dataLen =
      (merge.content.append payload).1.dataLen := rfl
  rw [hsize, hdata]
  omega

/-- An ADD makes its edit. -/
theorem makes_add (h : Holds merge.content room m) (hmasked : slot &&& phraseMask = slot) {new : Bytes}
    (hexact : Exact new) (hlen : merge.content.dataLen < 2 ^ 32) :
    ∃ after, merge.applyBackfilling (.add slot new) prior = (after, none) ∧
      Makes merge after m (.add slot new) := by
  have hroom := hexact.header.1
  have hnoted : ∃ noted : Merge, noted.content = merge.content ∧
      merge.applyBackfilling (.add slot new) prior =
        (((noted.appendLogged new).1.setOffset slot (noted.appendLogged new).2).addTotal (rawUnigram new),
          none) := by
    simp only [applyBackfilling, add, hmasked]
    rw [if_neg (Nat.not_lt.mpr hroom)]
    refine ⟨_, ?_, rfl⟩
    split
    · exact (notes_beginExceptional merge prior).content
    · exact ((notes_beginExceptional merge prior).trans (notes_noteAbsent _ _)).content
  obtain ⟨noted, hcontent, happly⟩ := hnoted
  rw [← hcontent] at h hlen
  obtain ⟨hholds, htotal, hsize⟩ := holds_store h hexact hlen rfl
  rw [hcontent] at htotal hsize
  refine ⟨_, happly, ⟨_, hholds.withTotal _⟩, congrArg (· + rawUnigram new) htotal, ?_⟩
  rw [appendedLen, if_neg (by rw [phraseItemHeader] at hroom; omega)]
  exact hsize

theorem makes_remove (h : Holds merge.content room m) (hmasked : slot &&& phraseMask = slot) {old : Bytes}
    (hold : m slot = some old) :
    ∃ after, merge.applyBackfilling (.remove slot old) prior = (after, none) ∧
      Makes merge after m (.remove slot old) := by
  obtain ⟨hvisible, hitem⟩ := h.visible hold
  have hcontent : ((merge.beginExceptional prior).notePresent slot).content = merge.content :=
    ((notes_beginExceptional merge prior).trans (notes_notePresent _ slot)).content
  refine ⟨(((merge.beginExceptional prior).notePresent slot).setOffset slot 0).subtractTotal (rawUnigram old),
    ?_, ⟨room, ?_⟩, ?_, ?_⟩
  · simp only [applyBackfilling, remove, hmasked, hvisible, hitem]
    rfl
  · rw [← hcontent] at h
    exact (h.clear slot).withTotal _
  · have htotal := congrArg total hcontent
    rw [totalDelta, ← sub_eq_add_neg]
    exact congrArg (· - rawUnigram old) htotal
  · have hsize := congrArg dataLen hcontent
    rw [appendedLen, if_pos rfl]
    exact hsize

theorem content_recordModify (merge : Merge) (slot : BitVec 32) :
    (merge.recordModify slot).content = merge.content := by
  unfold recordModify
  dsimp only
  split_ifs
  · exact (notes_notePresent merge slot).content
  · rfl
  · rfl

/-- A MODIFY in place leaves the content its write does. -/
theorem modifyInPlace_ok {token : BitVec 32} {offset len : Nat} {bytes oldItem newItem : Bytes} {after : Content}
    (hwrite : merge.content.write offset newItem = some after) :
    ∃ written, merge.modifyInPlace token offset len bytes oldItem newItem prior = (written, none) ∧
      written.content = after := by
  obtain ⟨begun, undo, hbegun, heq⟩ := merge.modifyInPlace_eq token offset len bytes oldItem newItem prior
  have hcontent : begun.content = merge.content := by
    rw [hbegun]
    split_ifs
    · rfl
    · exact (notes_beginExceptional merge prior).content
  rw [heq, hcontent, hwrite]
  exact ⟨_, rfl, content_recordModify _ _⟩

/-- A MODIFY of what is there makes its edit. -/
theorem makes_modify (h : Holds merge.content room m) {token : BitVec 32}
    (hmasked : token &&& phraseMask = slot) {old new : Bytes}
    (hold : m slot = some old) (hexact : Exact new) (hlen : merge.content.dataLen < 2 ^ 32) :
    ∃ after, merge.applyBackfilling (.modify token old new) prior = (after, none) ∧
      Makes merge after m (.modify slot old new) := by
  obtain ⟨hvisible, hitem⟩ := h.visible hold
  have hread : (merge.readInto slot (merge.content.word slot).toNat old.length).content = merge.content := rfl
  have happly : merge.applyBackfilling (.modify token old new) prior =
      if old.length < new.length then
        ((merge.readInto slot (merge.content.word slot).toNat old.length).modifyMove slot old new prior, none)
      else (merge.readInto slot (merge.content.word slot).toNat old.length).modifyInPlace token
        (merge.content.word slot).toNat old.length old old new prior := by
    simp only [applyBackfilling, modify, hmasked, hvisible, modifyItem, hread, hitem]
    rw [if_neg (not_not.mpr rfl)]
  rw [happly]
  generalize merge.readInto slot (merge.content.word slot).toNat old.length = read at hread ⊢
  split_ifs with hlonger
  · have hroom := hexact.header.1
    rw [phraseItemHeader] at hroom
    set noted := (read.beginExceptional prior).notePresent slot with hnoted
    have hcontent : noted.content = merge.content :=
      ((notes_beginExceptional read prior).trans (notes_notePresent _ slot)).content.trans hread
    rw [← hcontent] at h hlen
    obtain ⟨hholds, htotal, hsize⟩ := @holds_store ((noted.subtractTotal (rawUnigram old)).addTotal (rawUnigram new))
      room m slot (h.withTotal _) new hexact hlen _ rfl
    refine ⟨_, rfl, ⟨_, hholds⟩, ?_, ?_⟩
    · have hmoved : noted.content.total - rawUnigram old + rawUnigram new =
          noted.content.total + (rawUnigram new - rawUnigram old) := by
        rw [sub_eq_add_neg, sub_eq_add_neg, add_assoc, add_comm (-rawUnigram old)]
      rw [totalDelta, if_pos hlonger, ← hcontent, ← hmoved]
      exact htotal
    · rw [appendedLen, if_pos hlonger, if_neg (by omega), ← hcontent]
      exact hsize
  · have hfits := h.fits slot old hold
    have hinside := h.inside slot old hold
    have hcapacity := Nat.le_trans h.shaped.items.dataEnd_le h.shaped.items.length_le
    rw [dataLen] at hinside
    obtain ⟨after, hwrite⟩ := @Content.Shaped.exists_write _ h.shaped (merge.content.word slot).toNat new (by omega)
    obtain ⟨_, _, _, hdata, _, _, htotal⟩ := h.shaped.write hwrite
    have hholds := h.overwrite hold hexact (Nat.not_lt.mp hlonger) hwrite
    rw [← hread] at hwrite ⊢
    obtain ⟨written, hmodify, hwritten⟩ := @modifyInPlace_ok read prior token _ old.length old old new after hwrite
    refine ⟨written, hmodify, ⟨room, hwritten ▸ hholds⟩, ?_, ?_⟩
    · rw [totalDelta, if_neg hlonger, hwritten, htotal]
      exact (add_zero _).symm
    · rw [appendedLen, if_neg hlonger, if_pos rfl, hwritten, hdata]

/-- Every record that finds what it takes away makes its edit. -/
theorem makes_recordOf (h : Holds merge.content room m) {edit : Edit (BitVec 32) Bytes}
    (hmasked : edit.key &&& phraseMask = edit.key) (hold : m edit.key = edit.old)
    (hexact : ∀ new, edit.new = some new → Exact new) (hlen : merge.content.dataLen < 2 ^ 32)
    (prior : List (BitVec 32)) :
    ∃ after, merge.applyBackfilling (recordOf edit) prior = (after, none) ∧ Makes merge after m edit := by
  cases edit with
  | add slot new => exact makes_add h hmasked (hexact new rfl) hlen
  | remove slot old => exact makes_remove h hmasked hold
  | modify slot old new => exact makes_modify h hmasked hold (hexact new rfl) hlen

end Merge

/-! ## A list of edits -/

/-- The records of edits that run, one after the other. They meet no mismatch. -/
theorem mergeFrom_recordOf (index : BitVec 8) :
    ∀ {edits : List (Edit (BitVec 32) Bytes)} {applied : List (Except LogFault LogRecord)} {merge : Merge}
      {room : BitVec 32 → Nat} {m : BitVec 32 → Option Bytes},
      Holds merge.content room m → Runs m edits →
      (∀ edit ∈ edits, edit.key &&& phraseMask = edit.key) →
      (∀ edit ∈ edits, ∀ new, edit.new = some new → Exact new) →
      merge.content.dataLen < 2 ^ 32 →
      (appendOffset merge.content.dataLen).toNat + (edits.map appendedLen).sum < 2 ^ 32 →
      ∃ after room', mergeFrom index applied (edits.map (.ok ∘ recordOf)) merge = (after, [], .ok .applied) ∧
        Holds after.content room' (edits.foldl Edit.apply m) ∧
        after.content.total = merge.content.total + (edits.map totalDelta).sum
  | [], _, merge, room, _, h, _, _, _, _, _ =>
    ⟨merge, room, rfl, h, (add_zero _).symm⟩
  | edit :: rest, applied, merge, room, m, h, hruns, hmasked, hexact, hlen, hsize => by
    obtain ⟨after, happly, ⟨room', hholds⟩, htotal, hdata⟩ := Merge.makes_recordOf h
      (hmasked edit mem_cons_self) hruns.1 (hexact edit mem_cons_self) hlen (modifyTokens applied)
    rw [map_cons, sum_cons] at hsize
    have hbehind := (Holds.le_appendOffset hlen).1
    have hnext : after.content.dataLen < 2 ^ 32 ∧
        (appendOffset after.content.dataLen).toNat + (rest.map appendedLen).sum < 2 ^ 32 := by
      rw [hdata]
      split_ifs with hzero
      · exact ⟨hlen, by omega⟩
      · refine ⟨by omega, ?_⟩
        have hoffset : (appendOffset ((appendOffset merge.content.dataLen).toNat + appendedLen edit)).toNat =
            (appendOffset merge.content.dataLen).toNat + appendedLen edit := by
          rw [appendOffset, if_neg, toNat_ofNat, Nat.mod_eq_of_lt (by omega)]
          intro heq
          have hnat := congrArg BitVec.toNat heq
          rw [toNat_ofNat, Nat.mod_eq_of_lt (by omega)] at hnat
          have hnone : (0 : BitVec 32).toNat = 0 := rfl
          omega
        omega
    obtain ⟨last, room'', hrest, hlast, hsum⟩ := @mergeFrom_recordOf index rest (applied ++ [.ok (recordOf edit)])
      after room' _ hholds hruns.2 (fun other hother => hmasked other (mem_cons_of_mem _ hother))
      (fun other hother => hexact other (mem_cons_of_mem _ hother)) hnext.1 hnext.2
    refine ⟨last, room'', ?_, hlast, ?_⟩
    · rw [map_cons, Function.comp, mergeFrom, happly]
      exact hrest
    · rw [hsum, htotal, map_cons, sum_cons, add_assoc]

end Oxpinyin.Replay
