import Oxpinyin.ReplayProvenance

/-!
# The summary flags of a retained buffer

`finishLiveOwner` reads the slots a replay touched. Every other slot still has the word it was
loaded with, and its item is readable as long as no write went through an item that claims
bytes of its neighbour. A replay that may have done so sets `overreach`, and the buffer then
counts as one with removed items.

`Kept` is what a replay without an overreach keeps : the header of a loaded item never claims
more than the item had, and what a MODIFY writes over lies inside a loaded item or behind them
all.
-/

namespace Oxpinyin.Replay

open List LittleEndian ChunkFile Run Merge Content
open Bool hiding not_or not_not

variable {library : PhraseLibrary}

/-- A range that starts a loaded item, or lies behind the loaded bytes. -/
def Backing.Encloses (base : Backing) (offset len : Nat) : Prop :=
  base.content.length ≤ offset ∨ ∃ slot size, base.visible slot = .item offset size ∧ len ≤ size

/-- The range of a stale item in the buffer. -/
def Stale.Names (stale : Stale) (offset len : Nat) : Prop :=
  stale = .shipped offset len ∨ ∃ appends, stale = .owned offset len appends

/-- What a replay keeps of the loaded items while nothing overreaches. -/
structure Kept (base : Backing) (content : Content) (stale : Stale) : Prop where
  grown : base.content.length ≤ content.dataLen
  word : ∀ slot, content.word slot = 0 ∨ base.content.length ≤ (content.word slot).toNat ∨
    content.word slot = base.word slot
  header : ∀ slot offset size, base.visible slot = .item offset size →
    headerLen (content.read offset) (content.read (offset + 1)) ≤ size
  stale : ∀ offset len, stale.Names offset len → phraseItemHeader ≤ len ∧ base.Encloses offset len

/-! ## The loaded items -/

theorem Sound.visible_iff (h : Sound library) {slot : BitVec 32} {offset size : Nat} :
    (mappedBacking library).visible slot = .item offset size ↔
      (mappedBacking library).word slot ≠ 0 ∧ offset = ((mappedBacking library).word slot).toNat ∧
        offset + 2 ≤ (mappedBacking library).content.length ∧
        size = headerLen ((new (mappedBacking library) 0).read offset)
          ((new (mappedBacking library) 0).read (offset + 1)) ∧
        offset + size ≤ (mappedBacking library).content.length :=
  (h.shaped 0).visible_eq_item

namespace Kept

variable {content : Content} {stale : Stale} {slot : BitVec 32}

theorem new (hsound : Sound library) (total : BitVec 32) (bytes : Bytes) :
    Kept (mappedBacking library) (.new (mappedBacking library) total) (.default bytes) where
  grown := Nat.le_refl _
  word := fun _ => Or.inr (Or.inr rfl)
  header := fun slot offset size hvisible => by
    obtain ⟨_, _, _, hsize, _⟩ := hsound.visible_iff.mp hvisible
    rw [hsize]
    exact Nat.le_refl _
  stale := fun _ _ hnames => by rcases hnames with h | ⟨_, h⟩ <;> cases h

/-- An item a slot shows lies inside a loaded one, or behind them all. -/
theorem encloses (hsound : Sound library) (h : Kept (mappedBacking library) content stale)
    (hshaped : content.Shaped) {offset len : Nat} (hvisible : content.visible slot = .item offset len) :
    (mappedBacking library).Encloses offset len := by
  obtain ⟨hne, hoffset, _, hlen, _⟩ := hshaped.visible_eq_item.mp hvisible
  rcases h.word slot with hzero | hbehind | hword
  · exact absurd hzero hne
  · exact Or.inl (hoffset ▸ hbehind)
  · obtain ⟨at_, size, hitem⟩ := (hsound.held_iff slot).mp (hsound.readable slot (hword ▸ hne))
    obtain ⟨_, hat, _⟩ := hsound.visible_iff.mp hitem
    have hsame : at_ = offset := by rw [hat, hoffset, hword]
    rw [hsame] at hitem
    refine Or.inr ⟨slot, size, hitem, ?_⟩
    rw [hlen]
    exact h.header slot offset size hitem

/-- An untouched item of the loaded chunk is readable. -/
theorem readable (hsound : Sound library) (h : Kept (mappedBacking library) content stale)
    (hshaped : content.Shaped) (hword : content.word slot = (mappedBacking library).word slot)
    (hheld : (mappedBacking library).held slot = true) : (content.itemBytes slot).isSome := by
  obtain ⟨offset, size, hitem⟩ := (hsound.held_iff slot).mp hheld
  have hheader := h.header slot offset size hitem
  obtain ⟨hne, hoffset, hin, _, hend⟩ := hsound.visible_iff.mp hitem
  have hgrown := h.grown
  have hdata := hshaped.items.dataEnd_le
  have hcapacity := hshaped.items.length_le
  rw [dataLen] at hgrown
  rw [Option.isSome_iff_exists]
  refine ⟨_, hshaped.itemBytes_eq_some.mpr ⟨offset, _, hshaped.visible_eq_item.mpr
    ⟨hword ▸ hne, by rw [hoffset, hword], ?_, rfl, ?_⟩, rfl⟩⟩
  · rw [dataLen]
    omega
  · omega

theorem withTotal {base : Backing} (h : Kept base content stale) (total : BitVec 32) :
    Kept base { content with total := total } stale :=
  ⟨h.grown, h.word, h.header, h.stale⟩

/-- A slot is set to nothing, or to a place behind the loaded bytes. -/
theorem setSlotOffset {base : Backing} (h : Kept base content stale) (hshaped : content.Shaped)
    {offset : BitVec 32} (hoffset : offset = 0 ∨ base.content.length ≤ offset.toNat) :
    Kept base (content.setSlotOffset slot offset) stale := by
  obtain ⟨_, hword, _⟩ := hshaped.setSlotOffset slot offset
  obtain ⟨hread, hlen, _⟩ := content.setSlotOffset_frame slot offset
  refine ⟨hlen ▸ h.grown, fun other => ?_, hread ▸ h.header, h.stale⟩
  rw [hword]
  by_cases hsame : other = slot
  · rw [hsame, Function.update_self]
    exact hoffset.imp_right Or.inl
  · rw [Function.update_of_ne hsame]
    exact h.word other

/-- A write behind the loaded bytes, or into one item that leaves its header inside it. -/
theorem ofSplice (hsound : Sound library) (h : Kept (mappedBacking library) content stale)
    {after : Content} {offset : Nat} {bytes : Bytes} (hread : after.read = splice content.read offset bytes)
    (hword : after.word = content.word) (hlen : content.dataLen ≤ after.dataLen)
    (hplace : (mappedBacking library).content.length ≤ offset ∨ ∃ slot size,
      (mappedBacking library).visible slot = .item offset size ∧ bytes.length ≤ size ∧
        headerLen (after.read offset) (after.read (offset + 1)) ≤ size) :
          Kept (mappedBacking library) after stale := by
  refine ⟨Nat.le_trans h.grown hlen, hword ▸ h.word, fun other at_ size hitem => ?_, h.stale⟩
  have hheader := h.header other at_ size hitem
  obtain ⟨_, _, hin, hsize, _⟩ := hsound.visible_iff.mp hitem
  have hroom := le_headerLen ((Content.new (mappedBacking library) 0).read at_)
    ((Content.new (mappedBacking library) 0).read (at_ + 1))
  rcases hplace with hbehind | ⟨slot, size', hitem', hbytes, hown⟩
  · rw [hread, splice_of_lt (by omega), splice_of_lt (by omega)]
    exact hheader
  · by_cases hsame : other = slot
    · rw [hsame, hitem'] at hitem
      obtain ⟨rfl, rfl⟩ := Found.item.inj hitem
      exact hown
    · rcases hsound.apart _ _ _ _ _ _ hsame hitem hitem' with hbefore | hafter
      · rw [hread, splice_of_lt (by omega), splice_of_lt (by omega)]
        exact hheader
      · rw [hread, splice_of_le (by omega), splice_of_le (by omega)]
        exact hheader

/-- An append that is not in place lands behind the data. -/
theorem append (hsound : Sound library) (h : Kept (mappedBacking library) content stale)
    (hshaped : content.Shaped) {payload : Bytes} (hfits : payload.length < 2 ^ 16)
    (happended : (content.append payload).2.inPlace = false) :
    Kept (mappedBacking library) (content.append payload).1 stale ∧
      (mappedBacking library).content.length ≤ (content.append payload).2.offset.toNat := by
  obtain ⟨_, hread, hword, hlen, _⟩ := hshaped.append payload
  have hbehind : content.dataLen ≤ (appendOffset content.dataLen).toNat := by
    have hout : ¬(appendOffset content.dataLen).toNat + payload.length ≤ content.dataLen :=
      of_decide_eq_false happended
    unfold appendOffset at hout ⊢
    split_ifs at hout ⊢ with hzero
    · have hmod : content.dataLen % 2 ^ 32 = 0 := by
        have hnat := congrArg BitVec.toNat hzero
        rwa [BitVec.toNat_ofNat] at hnat
      have height : (8 : BitVec 32).toNat = 8 := rfl
      rw [height] at hout ⊢
      omega
    · rw [BitVec.toNat_ofNat] at hout ⊢
      omega
  have hplace := Nat.le_trans h.grown hbehind
  exact ⟨h.ofSplice hsound hread hword (by rw [hlen]; exact Nat.le_max_left _ _) (Or.inl hplace), hplace⟩

end Kept

/-! ## The header behind a MODIFY -/

/-- A payload of one byte leaves a header that claims no more than the item had. -/
def headerFits (newItem oldItem : Bytes) : Bool :=
  match newItem, oldItem with
  | [length], _ :: prons :: _ => decide (headerLen length prons ≤ oldItem.length)
  | _, _ => true

/-- A span starts with its header. -/
theorem span_eq (content : Content) {offset len : Nat} (h : 2 ≤ len) :
    ∃ rest, content.span offset len = content.read offset :: content.read (offset + 1) :: rest := by
  obtain ⟨len, rfl⟩ := Nat.exists_eq_add_of_le' h
  exact ⟨_, rfl⟩

/-- A write that does not overreach leaves a header that claims what it did or what it may. -/
theorem headerLen_written {content : Content} {offset len size : Nat} {newItem : Bytes} (hroom : 2 ≤ len)
    (hle : len ≤ size) (hheader : headerLen (content.read offset) (content.read (offset + 1)) ≤ size)
    (hreach : (!sameHeader newItem (content.span offset len) && claimsMore newItem len) = false)
    (hone : headerFits newItem (content.span offset len) = true) :
    headerLen (splice content.read offset newItem offset) (splice content.read offset newItem (offset + 1)) ≤
      size := by
  obtain ⟨rest, hspan⟩ := @span_eq content offset len hroom
  match newItem with
  | [] =>
    rw [splice_of_le (by simp), splice_of_le (by simp)]
    exact hheader
  | [length] =>
    have hfits : headerLen length (content.read (offset + 1)) ≤ (content.span offset len).length := by
      rw [hspan] at hone ⊢
      exact of_decide_eq_true hone
    rw [length_span] at hfits
    have hfirst := @splice_at content.read offset 0 [length] Nat.one_pos
    rw [Nat.add_zero] at hfirst
    rw [hfirst, splice_of_le (by simp)]
    exact Nat.le_trans hfits hle
  | length :: prons :: more =>
    have hfirst := @splice_at content.read offset 0 (length :: prons :: more) (by simp)
    have hsecond := @splice_at content.read offset 1 (length :: prons :: more) (by simp)
    rw [Nat.add_zero] at hfirst
    rw [hfirst, hsecond]
    rw [and_eq_false_iff, not_eq_false'] at hreach
    rcases hreach with hsame | hclaims
    · rw [hspan] at hsame
      have hpair : range? (length :: prons :: more) 0 2 =
          range? (content.read offset :: content.read (offset + 1) :: rest) 0 2 := of_decide_eq_true hsame
      have htwo : ∀ (a b : UInt8) (l : Bytes), range? (a :: b :: l) 0 2 = some [a, b] := fun a b l => by
        simp [range?]
      rw [htwo, htwo] at hpair
      obtain ⟨hlength, hprons⟩ := cons.inj (Option.some.inj hpair)
      rw [hlength, (cons.inj hprons).1]
      exact hheader
    · have hmost : ¬len < headerLen length prons := of_decide_eq_false hclaims
      exact Nat.le_trans (Nat.not_lt.mp hmost) hle

/-! ## The records of a log -/

namespace Merge

/-- What an overreach would end. -/
structure Sheltered (base : Backing) (merge : Merge) : Prop where
  kept : Kept base merge.content merge.stale
  shaped : merge.content.Shaped

/-- The bytes of the buffer a MODIFY of a slot writes over. -/
def modifiedAt (merge : Merge) (slot : BitVec 32) : Option (Nat × Nat) :=
  match merge.content.visible slot with
  | .item offset len => some (offset, len)
  | .past => none
  | .failed =>
    match merge.stalePlace with
    | some (.owned offset len) => some (offset, len)
    | some (.shipped offset len) => if merge.content.items.owned.isNone then some (offset, len) else none
    | _ => none

/-- A MODIFY with one byte that fits what it writes over leaves the header of a loaded item
inside it. -/
def KeepsHeader (base : Backing) (merge : Merge) : LogRecord → Prop
  | .modify token oldItem newItem =>
    ∀ place ∈ merge.modifiedAt (token &&& phraseMask), place.1 < base.content.length →
      merge.content.item place.1 place.2 = some oldItem → headerFits newItem oldItem = true
  | _ => True

instance (base : Backing) (merge : Merge) (record : LogRecord) : Decidable (merge.KeepsHeader base record) :=
  match record with
  | .modify token _ _ => inferInstanceAs (Decidable (∀ place ∈ merge.modifiedAt (token &&& phraseMask), _ → _ → _))
  | .add _ _ => isTrue trivial
  | .remove _ _ => isTrue trivial
  | .modifyHeader _ _ => isTrue trivial

/-- A write of the stale item over a loaded one leaves the header inside it. -/
def KeepsStale (base : Backing) (merge : Merge) (place : Place) (oldItem newItem : Bytes) : Prop :=
  ∀ offset len, (place = .owned offset len ∨ place = .shipped offset len ∧ merge.content.items.owned = none) →
    offset < base.content.length → merge.content.item offset len = some oldItem → headerFits newItem oldItem = true

theorem Notes.overreach {before after : Merge} (h : Notes before after) : after.overreach = before.overreach := by
  obtain ⟨_, _, _, rfl⟩ := h
  rfl

theorem overreach_recordModify (merge : Merge) (slot : BitVec 32) :
    (merge.recordModify slot).overreach = merge.overreach := by
  unfold recordModify
  dsimp only
  split_ifs
  · exact (notes_notePresent merge slot).overreach
  · rfl
  · rfl

/-- A stale item in the mapping. -/
theorem stalePlace_shipped {merge : Merge} {offset len : Nat} (h : merge.stalePlace = some (.shipped offset len)) :
    merge.stale.Names offset len ∧ merge.staleSize = len := by
  unfold stalePlace at h
  unfold staleSize
  cases hstale : merge.stale with
  | default bytes =>
    rw [hstale] at h
    cases h
  | shipped at_ size =>
    rw [hstale] at h
    obtain ⟨rfl, rfl⟩ := Place.shipped.inj (Option.some.inj h)
    exact ⟨Or.inl rfl, rfl⟩
  | owned at_ size appends =>
    rw [hstale] at h
    dsimp only at h
    split_ifs at h
    cases h

/-- A stale item in a grown copy. -/
theorem stalePlace_owned {merge : Merge} {offset len : Nat} (h : merge.stalePlace = some (.owned offset len)) :
    merge.stale.Names offset len ∧ merge.staleSize = len := by
  unfold stalePlace at h
  unfold staleSize
  cases hstale : merge.stale with
  | default bytes =>
    rw [hstale] at h
    cases h
  | shipped at_ size =>
    rw [hstale] at h
    cases h
  | owned at_ size appends =>
    rw [hstale] at h
    dsimp only at h
    split_ifs at h
    obtain ⟨rfl, rfl⟩ := Place.owned.inj (Option.some.inj h)
    exact ⟨Or.inr ⟨appends, rfl⟩, rfl⟩

namespace Sheltered

variable {merge : Merge} {prior : List (BitVec 32)} {token slot : BitVec 32} {base : Backing}

section

variable (h : Sheltered base merge)
include h

theorem ofNotes {after : Merge} (hnotes : Notes merge after) : Sheltered base after := by
  obtain ⟨_, _, _, rfl⟩ := hnotes
  exact ⟨h.kept, h.shaped⟩

theorem setTotal (total : BitVec 32) : Sheltered base (merge.setTotal total) :=
  ⟨h.kept.withTotal total, ⟨h.shaped.items, h.shaped.slots, h.shaped.whole, h.shaped.aligned⟩⟩

theorem setOffset {offset : BitVec 32}
    (hoffset : offset = 0 ∨ base.content.length ≤ offset.toNat) : Sheltered base (merge.setOffset slot offset) :=
  ⟨h.kept.setSlotOffset h.shaped hoffset, (h.shaped.setSlotOffset slot offset).1⟩

theorem recordModify (slot : BitVec 32) : Sheltered base (merge.recordModify slot) := by
  have hnoted := h.ofNotes (merge.notes_notePresent slot)
  unfold Merge.recordModify
  dsimp only
  split_ifs
  · exact ⟨hnoted.kept, hnoted.shaped⟩
  · exact ⟨h.kept, h.shaped⟩
  · exact ⟨h.kept, h.shaped⟩

end

/-- A payload that is appended and named by a slot. -/
theorem store (hsound : Sound library) (h : Sheltered (mappedBacking library) merge) {payload : Bytes}
    (hfits : payload.length < 2 ^ 16) (hreach : (merge.appendLogged payload).1.overreach = false) :
    Sheltered (mappedBacking library)
      ((merge.appendLogged payload).1.setOffset slot (merge.appendLogged payload).2) := by
  have hplace : (merge.content.append payload).2.inPlace = false := (or_eq_false_iff.mp hreach).2
  obtain ⟨hkept, hbehind⟩ := h.kept.append hsound h.shaped hfits hplace
  have happended : Sheltered (mappedBacking library) (merge.appendLogged payload).1 :=
    ⟨hkept, (h.shaped.append payload).1⟩
  exact happended.setOffset (Or.inr hbehind)

theorem add (hsound : Sound library) (h : Sheltered (mappedBacking library) merge) {payload : Bytes}
    (hfits : payload.length < 2 ^ 16) (hreach : (merge.add token payload prior).1.overreach = false) :
    Sheltered (mappedBacking library) (merge.add token payload prior).1 := by
  unfold Merge.add at hreach ⊢
  dsimp only at hreach ⊢
  split_ifs at hreach ⊢
  · exact h
  · refine setTotal (store hsound ?_ hfits hreach) _
    split
    · exact h.ofNotes (notes_beginExceptional merge prior)
    · exact h.ofNotes ((notes_beginExceptional merge prior).trans (notes_noteAbsent _ _))

theorem remove (h : Sheltered base merge) (oldItem : Bytes) :
    Sheltered base (merge.remove token oldItem prior).1 := by
  have hbegun := h.ofNotes (notes_beginExceptional merge prior)
  unfold Merge.remove
  dsimp only
  split
  · exact h
  · split_ifs
    · exact h
    · exact (hbegun.ofNotes (notes_noteAbsent _ _)).setOffset (Or.inl rfl)
  · split
    · exact h
    · exact ((hbegun.ofNotes (notes_notePresent _ _)).setOffset (Or.inl rfl)).setTotal _

variable {offset len : Nat} {newItem : Bytes}

/-- A write over an item, of no more bytes than it has. -/
theorem written (hsound : Sound library) (h : Sheltered (mappedBacking library) merge) {after : Content}
    (hencloses : phraseItemHeader ≤ len ∧ (mappedBacking library).Encloses offset len) (hfits : newItem.length ≤ len)
    (hreach : (!sameHeader newItem (merge.content.span offset len) && claimsMore newItem len) = false)
    (hone : offset < (mappedBacking library).content.length →
      headerFits newItem (merge.content.span offset len) = true)
    (hshaped : after.Shaped) (hread : after.read = splice merge.content.read offset newItem)
    (hword : after.word = merge.content.word) (hlen : after.dataLen = merge.content.dataLen) :
    Sheltered (mappedBacking library) { merge with content := after } := by
  refine ⟨h.kept.ofSplice hsound hread hword hlen.ge ?_, hshaped⟩
  obtain ⟨hroom, hplace⟩ := hencloses
  rw [phraseItemHeader] at hroom
  rcases hplace with hbehind | ⟨slot, size, hitem, hsize⟩
  · exact Or.inl hbehind
  · obtain ⟨_, _, hin, _⟩ := hsound.visible_iff.mp hitem
    refine Or.inr ⟨slot, size, hitem, Nat.le_trans hfits hsize, ?_⟩
    rw [hread]
    exact headerLen_written (by omega) hsize (h.kept.header slot offset size hitem) hreach (hone (by omega))

variable {oldItem : Bytes}

variable (hsound : Sound library) (h : Sheltered (mappedBacking library) merge)
include hsound h

/-- A MODIFY over the item it names. -/
theorem modifyInPlace (hencloses : phraseItemHeader ≤ len ∧ (mappedBacking library).Encloses offset len)
    (hitem : merge.content.item offset len = some oldItem) (hfits : newItem.length ≤ len)
    (hone : offset < (mappedBacking library).content.length → headerFits newItem oldItem = true)
    (hreach : (merge.modifyInPlace token offset len oldItem oldItem newItem prior).1.overreach = false) :
    Sheltered (mappedBacking library) (merge.modifyInPlace token offset len oldItem oldItem newItem prior).1 := by
  obtain ⟨_, hspan⟩ := h.shaped.item_eq_some hitem
  obtain ⟨begun, undo, hbegun, heq⟩ := merge.modifyInPlace_eq token offset len oldItem oldItem newItem prior
  have hready : Sheltered (mappedBacking library) begun ∧ begun.content = merge.content := by
    rw [hbegun]
    split_ifs
    · exact ⟨h, rfl⟩
    · exact ⟨h.ofNotes (notes_beginExceptional merge prior), (notes_beginExceptional merge prior).content⟩
  rw [heq] at hreach ⊢
  cases hwrite : begun.content.write offset newItem with
  | none => exact ⟨hready.1.kept, hready.1.shaped⟩
  | some after =>
    rw [hwrite] at hreach
    dsimp only at hreach ⊢
    rw [overreach_recordModify] at hreach
    obtain ⟨hshaped, hread, hword, hlen, _⟩ := hready.1.shaped.write hwrite
    refine recordModify ?_ _
    rw [← hready.2] at hspan
    have hwritten := hready.1.written hsound hencloses hfits (hspan ▸ (or_eq_false_iff.mp hreach).2)
      (hspan ▸ hone) hshaped hread hword hlen
    exact ⟨hwritten.kept, hwritten.shaped⟩

/-- A MODIFY reads an item the loaded ones enclose. -/
theorem readInto (hvisible : merge.content.visible slot = .item offset len) :
    Sheltered (mappedBacking library) (merge.readInto slot offset len) ∧
      phraseItemHeader ≤ len ∧ (mappedBacking library).Encloses offset len := by
  have hencloses := h.kept.encloses hsound h.shaped hvisible
  obtain ⟨_, _, _, hlen, _⟩ := h.shaped.visible_eq_item.mp hvisible
  have hroom : phraseItemHeader ≤ len := hlen ▸ le_headerLen _ _
  refine ⟨⟨⟨h.kept.grown, h.kept.word, h.kept.header, fun at_ size hnames => ?_⟩, h.shaped⟩, hroom, hencloses⟩
  unfold Merge.readInto at hnames
  dsimp only at hnames
  split_ifs at hnames
  · rcases hnames with hstale | ⟨_, hstale⟩
    · cases hstale
    · obtain ⟨rfl, rfl, _⟩ := Stale.owned.inj hstale
      exact ⟨hroom, hencloses⟩
  · rcases hnames with hstale | ⟨_, hstale⟩
    · obtain ⟨rfl, rfl⟩ := Stale.shipped.inj hstale
      exact ⟨hroom, hencloses⟩
    · cases hstale

/-- A MODIFY of a readable item. -/
theorem modifyItem (hvisible : merge.content.visible (token &&& phraseMask) = .item offset len)
    (hfits : newItem.length < 2 ^ 16)
    (hkeeps : KeepsHeader (mappedBacking library) merge (.modify token oldItem newItem))
    (hreach : (merge.modifyItem token offset len oldItem newItem prior).1.overreach = false) :
    Sheltered (mappedBacking library) (merge.modifyItem token offset len oldItem newItem prior).1 := by
  obtain ⟨hread, hencloses⟩ := h.readInto hsound hvisible
  have hplace : merge.modifiedAt (token &&& phraseMask) = some (offset, len) := by
    rw [modifiedAt, hvisible]
  unfold Merge.modifyItem at hreach ⊢
  dsimp only at hreach ⊢
  cases hitem : (merge.readInto (token &&& phraseMask) offset len).content.item offset len with
  | none => exact hread
  | some bytes =>
    rw [hitem] at hreach
    dsimp only at hreach ⊢
    by_cases hold : bytes = oldItem
    · rw [if_neg (not_not.mpr hold)] at hreach ⊢
      rw [hold] at hitem hreach ⊢
      by_cases hlonger : len < newItem.length
      · rw [if_pos hlonger] at hreach ⊢
        have hnoted := hread.ofNotes ((notes_beginExceptional _ prior).trans
          (notes_notePresent _ (token &&& phraseMask)))
        exact ((hnoted.setTotal _).setTotal _).store hsound hfits hreach
      · rw [if_neg hlonger] at hreach ⊢
        exact hread.modifyInPlace hsound hencloses hitem (Nat.not_lt.mp hlonger)
          (fun hlt => hkeeps _ hplace hlt hitem) hreach
    · rw [if_pos hold]
      exact hread

/-- A write over the stale item, where what it writes over is enclosed. -/
theorem staleWrite {place : Place} (hplace : merge.stalePlace = some place)
    (hold : merge.staleRead place = some oldItem) (hfits : newItem.length ≤ merge.staleSize)
    (hkeeps : KeepsStale (mappedBacking library) merge place oldItem newItem)
    (hreach : (merge.staleWrite place newItem oldItem).2 = true →
      (!sameHeader newItem oldItem && claimsMore newItem merge.staleSize) = false) :
    Sheltered (mappedBacking library) (merge.staleWrite place newItem oldItem).1 := by
  have hnoted := h.ofNotes merge.notes_noteStale
  have hcontent := merge.notes_noteStale.content
  unfold Merge.staleWrite at hreach ⊢
  cases place with
  | default =>
    dsimp only
    split
    · refine ⟨⟨h.kept.grown, h.kept.word, h.kept.header, fun _ _ hnames => ?_⟩, h.shaped⟩
      rcases hnames with hcase | ⟨_, hcase⟩ <;> cases hcase
    · exact h
  | shipped offset len =>
    obtain ⟨hnames, hsize⟩ := stalePlace_shipped hplace
    have hencloses := h.kept.stale offset len hnames
    rw [hsize] at hfits hreach
    dsimp only at hreach ⊢
    set logged := if merge.noteStale.content.shippedHas offset newItem.length &&
        decide (newItem.length ≤ oldItem.length)
      then { merge.noteStale with undo := .content offset (oldItem.take newItem.length) :: merge.noteStale.undo }
      else merge.noteStale with hlogged
    have hlog : Sheltered (mappedBacking library) logged ∧ logged.content = merge.content := by
      rw [hlogged]
      split_ifs
      · exact ⟨⟨hnoted.kept, hnoted.shaped⟩, hcontent⟩
      · exact ⟨hnoted, hcontent⟩
    cases hwrite : logged.content.writeShipped offset newItem with
    | none => exact hlog.1
    | some after =>
      rw [hwrite] at hreach
      obtain ⟨hshaped, hread, hword, hlen, _⟩ := hlog.1.shaped.writeShipped hwrite
      rcases hread with ⟨_, hread⟩ | ⟨howned, hread⟩
      · exact ⟨⟨hlen ▸ hlog.1.kept.grown, hword ▸ hlog.1.kept.word, hread ▸ hlog.1.kept.header,
          hlog.1.kept.stale⟩, hshaped⟩
      · rw [hlog.2] at howned
        have hitem := h.shaped.item_of_shipped howned hold
        obtain ⟨_, hspan⟩ := h.shaped.item_eq_some hitem
        have hone := fun hlt => hkeeps offset len (Or.inr ⟨rfl, howned⟩) hlt hitem
        rw [← hlog.2] at hspan
        exact hlog.1.written hsound hencloses hfits (hspan ▸ hreach rfl) (hspan ▸ hone) hshaped hread hword hlen
  | owned offset len =>
    obtain ⟨hnames, hsize⟩ := stalePlace_owned hplace
    have hencloses := h.kept.stale offset len hnames
    rw [hsize] at hfits hreach
    dsimp only at hreach ⊢
    cases hwrite : merge.noteStale.content.write offset newItem with
    | none => exact hnoted
    | some after =>
      rw [hwrite] at hreach
      obtain ⟨hshaped, hread, hword, hlen, _⟩ := hnoted.shaped.write hwrite
      obtain ⟨_, hspan⟩ := h.shaped.item_eq_some hold
      have hone := fun hlt => hkeeps offset len (Or.inl rfl) hlt hold
      rw [← hcontent] at hspan
      exact hnoted.written hsound hencloses hfits (hspan ▸ hreach rfl) (hspan ▸ hone) hshaped hread hword hlen

/-- A MODIFY of the stale item. -/
theorem modifyStale (hvisible : merge.content.visible (token &&& phraseMask) = .failed)
    (hkeeps : KeepsHeader (mappedBacking library) merge (.modify token oldItem newItem))
    (hreach : (merge.modifyStale token oldItem newItem prior).1.overreach = false) :
    Sheltered (mappedBacking library) (merge.modifyStale token oldItem newItem prior).1 := by
  unfold Merge.modifyStale at hreach ⊢
  dsimp only at hreach ⊢
  cases hplace : merge.stalePlace with
  | none => exact h
  | some place =>
    rw [hplace] at hreach
    dsimp only at hreach ⊢
    cases hread : merge.staleRead place with
    | none => exact h
    | some bytes =>
      rw [hread] at hreach
      dsimp only at hreach ⊢
      by_cases hdiffer : bytes ≠ oldItem ∨ merge.staleSize < newItem.length
      · rw [if_pos hdiffer]
        exact h
      rw [if_neg hdiffer] at hreach ⊢
      rw [not_or, not_not, Nat.not_lt] at hdiffer
      rw [hdiffer.1] at hread hreach
      have hnotes := merge.notes_beginExceptional prior
      have hready := h.ofNotes hnotes
      obtain ⟨_, _, _, hbegun⟩ := hnotes
      have hwritten : ∀ hdone : ((merge.beginExceptional prior).staleWrite place newItem oldItem).2 = true →
          (!sameHeader newItem oldItem && claimsMore newItem merge.staleSize) = false,
          Sheltered (mappedBacking library) ((merge.beginExceptional prior).staleWrite place newItem oldItem).1 := by
        intro hdone
        rw [hbegun] at hready hdone ⊢
        refine hready.staleWrite hsound hplace hread hdiffer.2 (fun offset len hin hlt hitem => ?_) hdone
        refine hkeeps (offset, len) ?_ hlt hitem
        rw [modifiedAt, hvisible, hplace]
        rcases hin with rfl | ⟨rfl, howned⟩
        · rfl
        · dsimp only at howned ⊢
          rw [howned]
          rfl
      by_cases hdone : ((merge.beginExceptional prior).staleWrite place newItem oldItem).2 = true
      · rw [if_pos hdone] at hreach ⊢
        have hsheltered := hwritten fun _ => (or_eq_false_iff.mp hreach).2
        exact ⟨hsheltered.kept, hsheltered.shaped⟩
      · rw [if_neg hdone]
        exact hwritten fun hyes => absurd hyes hdone

/-- Every record that does not overreach keeps the loaded items sheltered. -/
theorem applyBackfilling {record : LogRecord} (hfits : ∀ payload ∈ record.payloads, payload.length < 2 ^ 16)
    (hkeeps : KeepsHeader (mappedBacking library) merge record)
    (hreach : (merge.applyBackfilling record prior).1.overreach = false) :
    Sheltered (mappedBacking library) (merge.applyBackfilling record prior).1 := by
  cases record with
  | add token newItem => exact h.add hsound (hfits newItem (by simp [LogRecord.payloads])) hreach
  | remove token oldItem => exact h.remove oldItem
  | modify token oldItem newItem =>
    have hnew := hfits newItem (by simp [LogRecord.payloads])
    simp only [Merge.applyBackfilling, Merge.modify] at hreach ⊢
    cases hvisible : merge.content.visible (token &&& phraseMask) with
    | past => exact h
    | failed =>
      simp only [hvisible] at hreach ⊢
      exact h.modifyStale hsound hvisible hkeeps hreach
    | item offset len =>
      simp only [hvisible] at hreach ⊢
      exact h.modifyItem hsound hvisible hnew hkeeps hreach
  | modifyHeader oldTotal newTotal =>
    unfold Merge.applyBackfilling
    dsimp only
    split_ifs
    · exact h
    · exact h.setTotal newTotal

end Sheltered

/-! ## What a record never takes back -/

/-- An overreach stays, and whether the replay tracks its slots. -/
structure Follows (before after : Merge) : Prop where
  tracks : after.tracksOriginal = before.tracksOriginal
  overreach : after.overreach = false → before.overreach = false

namespace Follows

variable {merge : Merge}

theorem refl (merge : Merge) : Follows merge merge := ⟨rfl, id⟩

theorem trans {a b c : Merge} (hab : Follows a b) (hbc : Follows b c) : Follows a c :=
  ⟨hbc.tracks.trans hab.tracks, fun h => hab.overreach (hbc.overreach h)⟩

theorem ofNotes {after : Merge} (hnotes : Notes merge after) : Follows merge after := by
  obtain ⟨_, _, _, rfl⟩ := hnotes
  exact ⟨rfl, id⟩

section

variable (merge : Merge)

theorem recordModify (slot : BitVec 32) : Follows merge (merge.recordModify slot) := by
  have hnoted := ofNotes (merge.notes_notePresent slot)
  unfold Merge.recordModify
  dsimp only
  split_ifs
  · exact ⟨hnoted.tracks, hnoted.overreach⟩
  · exact ⟨rfl, id⟩
  · exact ⟨rfl, id⟩

/-- A payload that is appended and named by a slot. -/
theorem store (payload : Bytes) (slot : BitVec 32) :
    Follows merge ((merge.appendLogged payload).1.setOffset slot (merge.appendLogged payload).2) :=
  ⟨rfl, fun h => (or_eq_false_iff.mp h).1⟩

theorem staleWrite (place : Place) (bytes old : Bytes) :
    Follows merge (merge.staleWrite place bytes old).1 := by
  obtain ⟨_, _, _, heq⟩ := merge.notes_noteStale
  unfold Merge.staleWrite
  cases place with
  | default =>
    dsimp only
    split <;> exact ⟨rfl, id⟩
  | shipped offset len =>
    simp only [heq]
    split_ifs <;> split <;> exact ⟨rfl, id⟩
  | owned offset len =>
    simp only [heq]
    split <;> exact ⟨rfl, id⟩

theorem add (token : BitVec 32) (payload : Bytes) (prior : List (BitVec 32)) :
    Follows merge (merge.add token payload prior).1 := by
  have hbegun := notes_beginExceptional merge prior
  unfold Merge.add
  dsimp only
  split_ifs
  · exact refl merge
  · have hnoted : ∀ noted : Merge, Follows merge noted →
        Follows merge (((noted.appendLogged payload).1.setOffset (token &&& phraseMask)
          (noted.appendLogged payload).2).addTotal (rawUnigram payload)) := by
      intro noted h
      have hstored := h.trans (store noted payload (token &&& phraseMask))
      exact ⟨hstored.tracks, hstored.overreach⟩
    refine hnoted _ ?_
    split
    · exact ofNotes hbegun
    · exact ofNotes (hbegun.trans (notes_noteAbsent _ _))

theorem remove (token : BitVec 32) (oldItem : Bytes) (prior : List (BitVec 32)) :
    Follows merge (merge.remove token oldItem prior).1 := by
  have hbegun := notes_beginExceptional merge prior
  unfold Merge.remove
  dsimp only
  split
  · exact refl merge
  · split_ifs
    · exact refl merge
    · have hnoted := ofNotes (hbegun.trans (notes_noteAbsent _ (token &&& phraseMask)))
      exact ⟨hnoted.tracks, hnoted.overreach⟩
  · split
    · exact refl merge
    · have hnoted := ofNotes (hbegun.trans (notes_notePresent _ (token &&& phraseMask)))
      exact ⟨hnoted.tracks, hnoted.overreach⟩

theorem modifyStale (token : BitVec 32) (oldItem newItem : Bytes) (prior : List (BitVec 32)) :
    Follows merge (merge.modifyStale token oldItem newItem prior).1 := by
  unfold Merge.modifyStale
  dsimp only
  split
  · exact refl merge
  · rename_i place _
    have hwritten := (ofNotes (notes_beginExceptional merge prior)).trans (staleWrite _ place newItem oldItem)
    split
    · exact refl merge
    · split_ifs
      · exact refl merge
      · exact ⟨hwritten.tracks, fun h => hwritten.overreach (or_eq_false_iff.mp h).1⟩
      · exact hwritten

theorem modifyInPlace (token : BitVec 32) (offset len : Nat) (bytes oldItem newItem : Bytes)
    (prior : List (BitVec 32)) :
    Follows merge (merge.modifyInPlace token offset len bytes oldItem newItem prior).1 := by
  obtain ⟨begun, undo, hbegun, heq⟩ := merge.modifyInPlace_eq token offset len bytes oldItem newItem prior
  have hready : Follows merge begun := by
    rw [hbegun]
    split_ifs
    · exact refl merge
    · exact ofNotes (notes_beginExceptional merge prior)
  rw [heq]
  split
  · exact ⟨hready.tracks, hready.overreach⟩
  · refine trans ?_ (recordModify _ _)
    exact ⟨hready.tracks, fun h => hready.overreach (or_eq_false_iff.mp h).1⟩

theorem modifyItem (token : BitVec 32) (offset len : Nat) (oldItem newItem : Bytes)
    (prior : List (BitVec 32)) : Follows merge (merge.modifyItem token offset len oldItem newItem prior).1 := by
  have hread : Follows merge (merge.readInto (token &&& phraseMask) offset len) := ⟨rfl, id⟩
  unfold Merge.modifyItem
  dsimp only
  generalize merge.readInto (token &&& phraseMask) offset len = read at hread ⊢
  refine hread.trans ?_
  split
  · exact refl read
  · split_ifs
    · exact refl read
    · have hnoted := ofNotes ((notes_beginExceptional read prior).trans (notes_notePresent _ (token &&& phraseMask)))
      exact ⟨hnoted.tracks, fun h => hnoted.overreach (or_eq_false_iff.mp h).1⟩
    · exact modifyInPlace read token offset len _ oldItem newItem prior

end

/-- Every record follows. -/
theorem applyBackfilling (merge : Merge) (record : LogRecord) (prior : List (BitVec 32)) :
    Follows merge (merge.applyBackfilling record prior).1 := by
  cases record with
  | add token newItem => exact add merge token newItem prior
  | remove token oldItem => exact remove merge token oldItem prior
  | modify token oldItem newItem =>
    simp only [Merge.applyBackfilling, Merge.modify]
    split
    · exact refl merge
    · exact modifyStale merge token oldItem newItem prior
    · exact modifyItem merge token _ _ oldItem newItem prior
  | modifyHeader oldTotal newTotal =>
    unfold Merge.applyBackfilling
    dsimp only
    split_ifs
    · exact refl merge
    · exact ⟨rfl, id⟩

end Follows

end Merge

/-! ## A whole log -/

/-- The states a replay goes through. -/
theorem Merge.Follows.mergeFrom (index : BitVec 8) :
    ∀ (records applied : List (Except LogFault LogRecord)) (merge : Merge),
      Follows merge (mergeFrom index applied records merge).1 ∧
      ∀ step ∈ mergeSteps applied records merge, Follows step.1 (mergeFrom index applied records merge).1
  | [], _, merge => ⟨refl merge, fun _ hstep => by cases hstep⟩
  | .error (.headerToken _) :: _, _, merge => ⟨refl merge, fun _ hstep => by cases hstep⟩
  | .error .overRead :: _, _, merge => ⟨refl merge, fun _ hstep => by cases hstep⟩
  | .ok record :: rest, applied, merge => by
    have hnext := applyBackfilling merge record (modifyTokens applied)
    unfold Replay.mergeFrom mergeSteps
    generalize merge.applyBackfilling record (modifyTokens applied) = outcome at hnext ⊢
    rcases outcome with ⟨after, _ | (⟨kind, token⟩ | token)⟩
    · obtain ⟨hafter, hrest⟩ := mergeFrom index rest (applied ++ [.ok record]) after
      refine ⟨hnext.trans hafter, fun step hstep => ?_⟩
      rcases mem_cons.mp hstep with rfl | hstep
      · exact hnext.trans hafter
      · exact hrest step hstep
    · refine ⟨hnext, fun step hstep => ?_⟩
      rw [mem_singleton.mp hstep]
      exact hnext
    · refine ⟨hnext, fun step hstep => ?_⟩
      rw [mem_singleton.mp hstep]
      exact hnext

/-- A replay without an overreach. -/
theorem Merge.Sheltered.mergeFrom (hsound : Sound library) (index : BitVec 8) :
    ∀ {records applied : List (Except LogFault LogRecord)} {merge : Merge},
      merge.Sheltered (mappedBacking library) →
      (∀ record, .ok record ∈ records → ∀ payload ∈ record.payloads, payload.length < 2 ^ 16) →
      (∀ step ∈ mergeSteps applied records merge, step.1.KeepsHeader (mappedBacking library) step.2) →
      (mergeFrom index applied records merge).1.overreach = false →
      (mergeFrom index applied records merge).1.Sheltered (mappedBacking library)
  | [], _, _, h, _, _, _ => h
  | .error (.headerToken _) :: _, _, _, h, _, _, _ => h
  | .error .overRead :: _, _, _, h, _, _, _ => h
  | .ok record :: rest, applied, merge, h, hfits, hkeeps, hreach => by
    have hnext := @applyBackfilling library merge (modifyTokens applied) hsound h record
      (hfits record mem_cons_self) (hkeeps _ (by rw [mergeSteps]; exact mem_cons_self))
    unfold Replay.mergeFrom at hreach ⊢
    unfold mergeSteps at hkeeps
    generalize merge.applyBackfilling record (modifyTokens applied) = outcome at hreach hkeeps hnext ⊢
    rcases outcome with ⟨after, _ | (⟨kind, token⟩ | token)⟩
    · exact (hnext ((Follows.mergeFrom index rest _ after).1.overreach hreach)).mergeFrom hsound index
        (fun other hother => hfits other (mem_cons_of_mem _ hother))
        (fun step hstep => hkeeps step (mem_cons_of_mem _ hstep)) hreach
    · exact hnext hreach
    · exact hnext hreach

/-! ## The flags -/

namespace Merge

variable (merge : Merge)

/-- A touched slot shows that items were added. -/
def showsAdded (slot : BitVec 32) : Bool :=
  match merge.content.visible slot with
  | .item _ _ => !merge.isOriginal slot
  | _ => false

/-- A touched slot shows that items were removed. -/
def showsRemoved (slot : BitVec 32) : Bool :=
  match merge.content.visible slot with
  | .item _ _ => false
  | _ => merge.isOriginal slot

theorem classify_flags (live : ReplayedLibrary) (slot : BitVec 32) :
    (merge.classify live slot).hasAddedItems = (live.hasAddedItems || merge.showsAdded slot) ∧
      (merge.classify live slot).removed = (live.removed || merge.showsRemoved slot) := by
  unfold classify showsAdded showsRemoved visible
  dsimp only
  split_ifs with hzero
  · exact ⟨(Bool.or_false _).symm, rfl⟩
  · cases merge.content.header ((merge.content.slotOffset slot).getD 0).toNat with
    | failed => exact ⟨(Bool.or_false _).symm, rfl⟩
    | past => exact ⟨(Bool.or_false _).symm, rfl⟩
    | item offset len => exact ⟨rfl, (Bool.or_false _).symm⟩

theorem foldl_classify_flags (slots : List (BitVec 32)) (live : ReplayedLibrary) :
    (slots.foldl merge.classify live).hasAddedItems = (live.hasAddedItems || slots.any merge.showsAdded) ∧
      (slots.foldl merge.classify live).removed = (live.removed || slots.any merge.showsRemoved) := by
  induction slots generalizing live with
  | nil => exact ⟨(Bool.or_false _).symm, (Bool.or_false _).symm⟩
  | cons slot rest ih =>
    obtain ⟨hadded, hremoved⟩ := merge.classify_flags live slot
    rw [foldl_cons, (ih _).1, (ih _).2, hadded, hremoved, any_cons, any_cons, Bool.or_assoc,
      Bool.or_assoc]
    exact ⟨rfl, rfl⟩

theorem mem_sortedTouched {slot : BitVec 32} : slot ∈ merge.sortedTouched ↔ slot ∈ merge.touched := by
  rw [sortedTouched, mem_dedup, mem_mergeSort]

variable {merge}

/-- A touched slot whose item the loaded chunk lacked. -/
theorem hasAdded_finish {slot : BitVec 32} (htouched : slot ∈ merge.touched) {offset len : Nat}
    (hvisible : merge.content.visible slot = .item offset len) (horiginal : merge.isOriginal slot = false) :
    merge.finishLiveOwner.2.hasAdded = true := by
  rw [ReplayedLibrary.hasAdded, finishLiveOwner, (merge.foldl_classify_flags _ _).1, Bool.false_or, any_eq_true]
  refine ⟨slot, merge.mem_sortedTouched.mpr htouched, ?_⟩
  rw [showsAdded, hvisible, horiginal]
  rfl

/-- A touched slot without the item the loaded chunk held, or an overreach. -/
theorem hasRemoved_finish {slot : BitVec 32} (h : merge.overreach = true ∨ slot ∈ merge.touched ∧
      (∀ offset len, merge.content.visible slot ≠ .item offset len) ∧ merge.isOriginal slot = true) :
    merge.finishLiveOwner.2.hasRemoved = true := by
  rw [ReplayedLibrary.hasRemoved, finishLiveOwner, (merge.foldl_classify_flags _ _).2, Bool.or_eq_true]
  refine h.imp_right fun hgone => ?_
  obtain ⟨htouched, hnone, horiginal⟩ := hgone
  refine any_eq_true.mpr ⟨slot, merge.mem_sortedTouched.mpr htouched, ?_⟩
  unfold showsRemoved
  split
  · exact absurd ‹_› (hnone _ _)
  · exact horiginal

end Merge

/-- A slot of the array that the replay did not note as empty held an item. -/
theorem Merge.isOriginal_eq {exact : Prop} {merge : Merge} (h : merge.Known exact (mappedBacking library))
    (htracks : merge.tracksOriginal = true) (slot : BitVec 32) :
    merge.isOriginal slot = true ↔
      slot.toNat < (mappedBacking library).slotCount ∧ slot ∉ merge.provenance.absent := by
  rw [isOriginal, htracks, h.inferred.loaded, Bool.true_and, Bool.and_eq_true, decide_eq_true_eq,
    Provenance.isAbsent, Bool.not_eq_true', ← Bool.not_eq_true, contains_iff_mem]

/-- A loaded item that is gone is among the touched ones, or something overreached. -/
theorem Merge.hasRemoved_of_held (hsound : Sound library) {merge : Merge}
    (h : merge.Known (merge.overreach = false) (mappedBacking library))
    (hsheltered : merge.overreach = false → merge.Sheltered (mappedBacking library))
    (htracks : merge.tracksOriginal = true) {slot : BitVec 32}
    (hheld : (mappedBacking library).held slot = true) (hnone : merge.content.itemBytes slot = none) :
    merge.finishLiveOwner.2.hasRemoved = true := by
  refine @hasRemoved_finish merge slot ?_
  cases hreach : merge.overreach with
  | true => exact Or.inl rfl
  | false =>
    refine Or.inr ⟨?_, fun offset len hvisible => ?_, ?_⟩
    · by_contra htouched
      have hreadable := (hsheltered hreach).kept.readable hsound h.inferred.shaped (h.untouched slot htouched) hheld
      rw [hnone] at hreadable
      cases hreadable
    · have hitem := h.inferred.shaped.itemBytes_eq_some.mpr ⟨offset, len, hvisible, rfl⟩
      rw [hnone] at hitem
      cases hitem
    · refine (isOriginal_eq h htracks slot).mpr ⟨lt_slotCount ((hsound.held_eq slot).mp hheld), fun habsent => ?_⟩
      rw [h.inferred.absent hreach slot habsent] at hheld
      cases hheld

/-- An item the loaded chunk lacked is at a touched slot that was noted as empty. -/
theorem Merge.hasAdded_of_lacked (hsound : Sound library) {exact : Prop} {merge : Merge}
    (h : merge.Known exact (mappedBacking library)) (htracks : merge.tracksOriginal = true) {slot : BitVec 32}
    (hlacked : (mappedBacking library).held slot = false) (hitem : (merge.content.itemBytes slot).isSome) :
    merge.finishLiveOwner.2.hasAdded = true := by
  obtain ⟨bytes, hbytes⟩ := Option.isSome_iff_exists.mp hitem
  obtain ⟨offset, len, hvisible, _⟩ := h.inferred.shaped.itemBytes_eq_some.mp hbytes
  have hword := (h.inferred.shaped.visible_eq_item.mp hvisible).1
  have hbase : (mappedBacking library).word slot = 0 := by
    by_contra hne
    rw [hsound.readable slot hne] at hlacked
    cases hlacked
  refine hasAdded_finish ?_ hvisible ?_
  · by_contra htouched
    exact hword ((h.untouched slot htouched).trans hbase)
  · refine eq_false_iff.mpr fun horiginal => ?_
    obtain ⟨hlt, habsent⟩ := (isOriginal_eq h htracks slot).mp horiginal
    rw [h.inferred.accounted hsound hword hlt habsent] at hlacked
    cases hlacked

/-- The flags of a buffer behind a log are never missing, as long as up to the first overreach
every MODIFY of one byte leaves its header inside the item and every ADD of a loaded item
finds it readable or its slot recorded. -/
theorem summaryFlags_replayLog (hsound : Sound library) (system : SystemLibrary)
    (hmapped : system.mapped = some library) (total : BitVec 32) (index : BitVec 8) (log : Bytes)
    (live : ReplayedLibrary) (hlog : ∀ step ∈ mergeSteps [] (logItems log)
        (.fromLive (some system) (.fromMapping (mappedBacking library) total)),
      step.1.overreach = true ∨ step.1.FindsItem (mappedBacking library) step.2 ∧
        step.1.KeepsHeader (mappedBacking library) step.2)
    (hlive : replayLog (some system) (.fromMapping (mappedBacking library) total) index (logItems log) =
      .ok live) :
    (∀ slot, (mappedBacking library).held slot = true → live.itemBytes slot = none → live.hasRemoved = true) ∧
      ∀ slot, (mappedBacking library).held slot = false → (live.itemBytes slot).isSome →
        live.hasAdded = true := by
  obtain ⟨end_, _, rfl⟩ := map_eq_ok hlive
  set start := Merge.fromLive (some system) (.fromMapping (mappedBacking library) total) with hstart
  cases end_ with
  | overRead =>
    have hback := ((Merge.tracked_fromLive (some system) (mappedBacking library) total).mergeFrom index
      (logItems log) []).rollback
    dsimp only
    rw [mergeLog, hback]
    refine ⟨fun slot hheld hnone => ?_, fun slot hlacked hitem => ?_⟩
    · exact absurd hnone (Option.isSome_iff_ne_none.mp hheld)
    · exact absurd hitem (Bool.eq_false_iff.mp hlacked)
  | applied =>
    obtain ⟨hfollows, hsteps⟩ := Merge.Follows.mergeFrom index (logItems log) [] start
    have htracks : start.tracksOriginal = true := by
      rw [hstart]
      exact congrArg Option.isSome hmapped
    have hknown := (@Merge.known_fromLive library ((mergeLog start (logItems log) index).1.overreach = false)
      hsound (some system) total).mergeFrom hsound index (fun _ _ h => by cases h) fun step hstep hexact =>
        ((hlog step hstep).resolve_left (Bool.eq_false_iff.mp ((hsteps step hstep).overreach hexact))).1
    have hsheltered : (mergeLog start (logItems log) index).1.overreach = false →
        (mergeLog start (logItems log) index).1.Sheltered (mappedBacking library) := by
      intro hreach
      have hfirst : start.Sheltered (mappedBacking library) := ⟨.new hsound total _, hsound.shaped total⟩
      refine hfirst.mergeFrom hsound index (fun record hrecord => LogReader.length_of_mem_taken hrecord)
        (fun step hstep => ?_) hreach
      exact ((hlog step hstep).resolve_left (Bool.eq_false_iff.mp ((hsteps step hstep).overreach hreach))).2
    have hmerge := hfollows.tracks.trans htracks
    obtain ⟨hcontent, _⟩ := Merge.content_finishLiveOwner (mergeLog start (logItems log) index).1
    dsimp only
    simp only [ReplayedLibrary.itemBytes, hcontent]
    exact ⟨fun slot hheld hnone => Merge.hasRemoved_of_held hsound hknown hsheltered hmerge hheld hnone,
      fun slot hlacked hitem => Merge.hasAdded_of_lacked hsound hknown hmerge hlacked hitem⟩

set_option maxRecDepth 8000 in
theorem summaryFlags_replacedLog :
    (∀ slot, (mappedBacking pairLibrary).held slot = true →
        (pairReplay replacedLog).1.finishLiveOwner.2.itemBytes slot = none →
        (pairReplay replacedLog).1.finishLiveOwner.2.hasRemoved = true) ∧
      ∀ slot, (mappedBacking pairLibrary).held slot = false →
        ((pairReplay replacedLog).1.finishLiveOwner.2.itemBytes slot).isSome →
        (pairReplay replacedLog).1.finishLiveOwner.2.hasAdded = true :=
  summaryFlags_replayLog sound_pairLibrary pairSystem rfl 11 1 replacedLog _ (by decide)
    (replayLog_pairLibrary (by decide))

/-- A MODIFY of one byte that makes slot one's item longer, and one through it. -/
def lengthenedLog : Bytes :=
  [3, 0, 0, 0, 1, 0, 0, 0, 10, 0, 1, 0, 1, 0, 5, 0, 0, 0, 1, 0, 0, 0, 2,
    3, 0, 0, 0, 1, 0, 0, 0, 14, 0, 14, 0, 2, 0, 5, 0, 0, 0, 1, 0, 0, 0, 1, 0, 6, 0,
    2, 0, 5, 0, 0, 0, 1, 0, 0, 0, 255, 255, 6, 0]

set_option maxRecDepth 8000 in
/-- No byte of the first record says that the header grew. -/
theorem summaryFlags_lengthenedLog :
    Sound pairLibrary ∧ ∃ live,
      replayLog (some pairSystem) (.fromMapping (mappedBacking pairLibrary) 11) 1 (logItems lengthenedLog) =
        .ok live ∧
        (mappedBacking pairLibrary).held 2 = true ∧ live.itemBytes 2 = none ∧ live.hasRemoved = false := by
  refine ⟨sound_pairLibrary, _, replayLog_pairLibrary (by decide), by decide, ?_⟩
  rw [Merge.finishLiveOwner, Merge.sortedTouched_eq (by decide)]
  decide

end Oxpinyin.Replay
