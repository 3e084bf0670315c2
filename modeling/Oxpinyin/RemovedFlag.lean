import Oxpinyin.SystemItems

/-!
# The flag of removed items

A lookup asks for removed items only behind `has_removed`. `train` raises the flag at every item
it finds, and `add_item` where it stores over earlier bytes, for the header of another item may lie
there. `add_unigram` writes four bytes in place and raises nothing. `hasRemoved_run_iff` : along a
run of edits the flag is up wherever a loaded item is lost, exactly when every write made while
it is down spares the headers of the loaded items (`Spares`). `hasRemoved_aliased` is a chunk
whose second item starts in the unigram of its first, and the increment that loses it.
-/

namespace Oxpinyin.Replay

open Option List LittleEndian ChunkFile Run Content

/-! ## Readable items -/

variable {read : Nat → UInt8} {offset : Nat} {bytes : Bytes}

/-- A header in the data names bytes within the capacity. -/
def Fits (read : Nat → UInt8) (dataLen capacity offset : Nat) : Prop :=
  offset + 2 ≤ dataLen ∧ offset + headerLen (read offset) (read (offset + 1)) ≤ capacity

theorem Content.Shaped.isSome_itemBytes {content : Content} (h : content.Shaped) (slot : BitVec 32) :
    (content.itemBytes slot).isSome ↔ content.word slot ≠ 0 ∧
      Fits content.read content.dataLen content.items.capacity (content.word slot).toNat := by
  rw [isSome_iff_exists]
  constructor
  · rintro ⟨bytes, hbytes⟩
    obtain ⟨offset, len, hvisible, _⟩ := h.itemBytes_eq_some.mp hbytes
    obtain ⟨hword, rfl, hend, rfl, hcapacity⟩ := h.visible_eq_item.mp hvisible
    exact ⟨hword, hend, hcapacity⟩
  · rintro ⟨hword, hend, hcapacity⟩
    exact ⟨_, h.itemBytes_eq_some.mpr ⟨_, _, h.visible_eq_item.mpr ⟨hword, rfl, hend, rfl, hcapacity⟩, rfl⟩⟩

/-- A header apart from a write reads as before. -/
theorem headerLen_splice {at_ : Nat}
    (h : offset + 1 < at_ ∨ at_ + bytes.length ≤ offset) :
    headerLen (splice read at_ bytes offset) (splice read at_ bytes (offset + 1)) =
      headerLen (read offset) (read (offset + 1)) := by
  rcases h with hbefore | hbehind
  · rw [splice_of_lt (by omega), splice_of_lt hbefore]
  · rw [splice_of_le hbehind, splice_of_le (by omega)]

/-- A readable item stays so over a write, unless its header shares a byte with it and then names
bytes past the capacity. -/
theorem fits_splice_iff {dataLen dataLen' capacity capacity' : Nat}
    (h : Fits read dataLen capacity offset) (hlen : dataLen ≤ dataLen') (hcapacity : capacity ≤ capacity') (at_ : Nat)
    (bytes : Bytes) : Fits (splice read at_ bytes) dataLen' capacity' offset ↔
      (at_ ≤ offset + 1 → offset < at_ + bytes.length →
        offset + headerLen (splice read at_ bytes offset) (splice read at_ bytes (offset + 1)) ≤ capacity') := by
  obtain ⟨hend, hfits⟩ := h
  refine ⟨fun hafter _ _ => hafter.2, fun hshared => ⟨Nat.le_trans hend hlen, ?_⟩⟩
  by_cases hfrom : at_ ≤ offset + 1
  · by_cases hto : offset < at_ + bytes.length
    · exact hshared hfrom hto
    · rw [headerLen_splice (.inr (Nat.not_lt.mp hto))]
      exact Nat.le_trans hfits hcapacity
  · rw [headerLen_splice (.inl (Nat.not_le.mp hfrom))]
    exact Nat.le_trans hfits hcapacity

/-! ## The edits -/

/-- An edit of a session. A merged reading takes its item out and stores it again. -/
inductive SessionEdit where
  | addUnigram (slot delta : BitVec 32)
  | train (slot : BitVec 32) (readings : List (List ChewingKey)) (delta : BitVec 32)
  | addItem (slot : BitVec 32) (payload : Bytes)
  | replaceItem (slot : BitVec 32) (payload : Bytes)

/-- The edits of the buffer. -/
def SessionEdit.edits : SessionEdit → List LiveOp
  | addUnigram slot delta => [.addUnigram slot delta]
  | train slot readings delta => [.train slot readings delta]
  | addItem slot payload => [.addItem slot payload]
  | replaceItem slot payload => [.removeItem slot, .addItem slot payload]

/-- The capacity behind a write that ends past the data. -/
def Chunk.grown (chunk : Chunk) (end_ : Nat) : Nat :=
  if chunk.owned.isSome then if chunk.capacity < end_ then max (chunk.capacity * 2) end_ else chunk.capacity
  else end_

theorem Chunk.capacity_setContent {chunk : Chunk}
    (h : chunk.dataEnd < offset + bytes.length) (shipped : Bytes) :
    (chunk.setContent shipped offset bytes).1.capacity = chunk.grown (offset + bytes.length) := by
  unfold Chunk.setContent Chunk.grown
  dsimp only
  cases chunk.owned with
  | some owned => simp only [h, true_and, isSome_some, if_true]
  | none => rw [if_neg (Nat.not_le.mpr h), isSome_none, if_neg Bool.false_ne_true]

namespace ReplayedLibrary

variable {base : Backing} {live : ReplayedLibrary} {slot delta : BitVec 32} {payload : Bytes}

/-- The edits of the buffer, one after the other. -/
def edit (live : ReplayedLibrary) (op : SessionEdit) : ReplayedLibrary := op.edits.foldl step live

/-- Where an item is stored. -/
def storeAt (live : ReplayedLibrary) : Nat := (appendOffset live.content.dataLen).toNat

/-- The field an increment raises. -/
def unigramAt (live : ReplayedLibrary) (slot : BitVec 32) : Nat := (live.content.word slot).toNat + 2

/-- The slot names a field in the data, and the total takes the increment. -/
def Raises (live : ReplayedLibrary) (slot delta : BitVec 32) : Prop :=
  live.content.word slot ≠ 0 ∧ live.unigramAt slot + 4 ≤ live.content.dataLen ∧
    live.content.total.toNat + delta.toNat < 2 ^ 32

/-- The bytes of the raised field. -/
def raised (live : ReplayedLibrary) (slot delta : BitVec 32) : Bytes :=
  le32 (wordOf live.content.read (live.unigramAt slot) + delta)

/-- Every loaded header that shares a byte with a write still names bytes within a capacity. -/
def SparesHeaders (base : Backing) (live : ReplayedLibrary) (slots : BitVec 32 → Prop) (at_ : Nat) (bytes : Bytes)
    (capacity : Nat) : Prop :=
  ∀ slot, slots slot → base.held slot = true →
    at_ ≤ (live.content.word slot).toNat + 1 → (live.content.word slot).toNat < at_ + bytes.length →
      (live.content.word slot).toNat + headerLen (splice live.content.read at_ bytes (live.content.word slot).toNat)
        (splice live.content.read at_ bytes ((live.content.word slot).toNat + 1)) ≤ capacity

/-- An item stored past the data spares the loaded ones : for a loaded slot it is as long as its
header says, as far as the buffer goes, and so is every loaded item whose header it goes over. -/
def SparesStored (base : Backing) (live : ReplayedLibrary) (slot : BitVec 32) (payload : Bytes) : Prop :=
  live.content.dataLen < live.storeAt + payload.length →
    (base.held slot = true → ∃ len, declaredLen payload = some len ∧
      live.storeAt + len ≤ live.content.items.grown (live.storeAt + payload.length)) ∧
    live.SparesHeaders base (· ≠ slot) live.storeAt payload (live.content.items.grown (live.storeAt + payload.length))

/-- An edit made with the flag down spares the headers of the loaded items. -/
def Spares (base : Backing) (live : ReplayedLibrary) (op : SessionEdit) : Prop :=
  live.removed = false →
    match op with
    | .addUnigram slot delta => live.Raises slot delta →
        live.SparesHeaders base (fun _ => True) (live.unigramAt slot) (live.raised slot delta)
          live.content.items.capacity
    | .train _ _ _ => True
    | .addItem slot payload | .replaceItem slot payload => live.SparesStored base slot payload

/-! ## What an edit does -/

/-- What a store or a raise leaves of a buffer. -/
structure Written (before after : ReplayedLibrary) (at_ : Nat) (bytes : Bytes) : Prop where
  shaped : after.content.Shaped
  read : after.content.read = splice before.content.read at_ bytes

theorem noteAbsent_frame (live : ReplayedLibrary) (slot : BitVec 32) :
    (live.noteAbsent slot).content = live.content ∧ (live.noteAbsent slot).removed = live.removed := by
  unfold noteAbsent
  split_ifs
  · exact ⟨rfl, rfl⟩
  · exact ⟨rfl, rfl⟩

theorem notePresent_frame (live : ReplayedLibrary) (slot : BitVec 32) :
    (live.notePresent slot).content = live.content ∧ (live.notePresent slot).removed = live.removed := by
  unfold notePresent
  split_ifs
  · exact ⟨rfl, rfl⟩
  · exact ⟨rfl, rfl⟩

/-- A raise writes one field where the slot names one, and else nothing. -/
theorem addUnigram_spec (h : live.content.Shaped) (slot delta : BitVec 32) :
    (¬live.Raises slot delta ∧ (live.addUnigram slot delta).1 = live) ∨ (live.Raises slot delta ∧
      live.Written (live.addUnigram slot delta).1 (live.unigramAt slot) (live.raised slot delta) ∧
      (live.addUnigram slot delta).1.content.word = live.content.word ∧
      (live.addUnigram slot delta).1.content.dataLen = live.content.dataLen ∧
      (live.addUnigram slot delta).1.content.items.capacity = live.content.items.capacity ∧
      (live.addUnigram slot delta).1.removed = live.removed) := by
  have hbytes : live.content.dataLen ≤ live.content.items.capacity :=
    Nat.le_trans h.items.dataEnd_le h.items.length_le
  unfold addUnigram
  cases hoffset : (live.content.slotOffset slot).filter (· ≠ 0) with
  | none =>
    refine .inl ⟨fun hraises => ?_, rfl⟩
    rw [filter_eq_none_iff] at hoffset
    cases hslot : live.content.slotOffset slot with
    | none => exact hraises.1 (by rw [word, hslot, getD_none])
    | some offset =>
      have hzero := hoffset offset hslot
      exact hraises.1 (by rw [word, hslot, getD_some]; simpa using hzero)
  | some offset =>
    obtain ⟨hslot, hne⟩ := filter_eq_some_iff.mp hoffset
    have hword : live.content.word slot = offset := by rw [word, hslot, getD_some]
    have hat : live.unigramAt slot = offset.toNat + 2 := by rw [unigramAt, hword]
    dsimp only
    by_cases hend : live.content.dataLen < offset.toNat + 2 + 4
    · rw [if_pos hend]
      exact .inl ⟨fun hraises => absurd hraises.2.1 (by rw [hat]; omega), rfl⟩
    rw [if_neg hend]
    have hbyte : ∀ i, i < 4 → live.content.byte (offset.toNat + 2 + i) =
        some (live.content.read (offset.toNat + 2 + i)) := fun i hi => by
      rw [byte, h.items.byte_eq, if_pos (by omega)]
      rfl
    have hfirst := hbyte 0 (by omega)
    rw [Nat.add_zero] at hfirst
    rw [hfirst, hbyte 1 (by omega), hbyte 2 (by omega), hbyte 3 (by omega)]
    dsimp only
    by_cases htotal : 2 ^ 32 ≤ live.content.total.toNat + delta.toNat
    · rw [if_pos htotal]
      exact .inl ⟨fun hraises => absurd hraises.2.2 (Nat.not_lt.mpr htotal), rfl⟩
    rw [if_neg htotal]
    have hraises : live.Raises slot delta :=
      ⟨by rw [hword]; simpa using hne, by rw [hat]; omega, Nat.not_le.mp htotal⟩
    refine .inr ⟨hraises, ?_⟩
    rw [raised, hat]
    obtain ⟨after, hwrite⟩ := @Content.Shaped.exists_write _ h (offset.toNat + 2)
      (le32 (wordOf live.content.read (offset.toNat + 2) + delta)) (by rw [length_le32]; omega)
    obtain ⟨hshaped, hread, hwords, hlen, hcapacity, _⟩ := h.write hwrite
    have htotal : Content.Shaped { after with total := live.content.total + delta } :=
      ⟨hshaped.items, hshaped.slots, hshaped.whole, hshaped.aligned⟩
    have hfield : word32 [live.content.read (offset.toNat + 2), live.content.read (offset.toNat + 2 + 1),
        live.content.read (offset.toNat + 2 + 2), live.content.read (offset.toNat + 2 + 3)] =
      wordOf live.content.read (offset.toNat + 2) := rfl
    rw [hfield]
    -- what is noted is not of the content
    split
    · rw [hwrite, getD_some]
      exact ⟨⟨htotal, hread⟩, hwords, hlen, hcapacity, rfl⟩
    · rw [(noteAbsent_frame live slot).1, hwrite, getD_some]
      exact ⟨⟨htotal, hread⟩, hwords, hlen, hcapacity, (noteAbsent_frame live slot).2⟩

theorem removeItem_spec (h : live.content.Shaped) (slot : BitVec 32) :
    (live.removeItem slot).1.content.Shaped ∧
      (live.removeItem slot).1.content.read = live.content.read ∧
      (∀ other, other ≠ slot → (live.removeItem slot).1.content.word other = live.content.word other) ∧
      (live.removeItem slot).1.content.items = live.content.items ∧
      (live.removeItem slot).1.removed = live.removed := by
  unfold removeItem
  cases live.itemBytes slot with
  | none => exact ⟨h, rfl, fun _ _ => rfl, rfl, rfl⟩
  | some bytes =>
    obtain ⟨hcontent, hremoved⟩ := notePresent_frame live slot
    obtain ⟨hshaped, hword, _⟩ := h.setSlotOffset slot 0
    dsimp only
    rw [hcontent]
    refine ⟨⟨hshaped.items, hshaped.slots, hshaped.whole, hshaped.aligned⟩, rfl, fun other hother => ?_, rfl,
      hremoved⟩
    exact (congrFun hword other).trans (Function.update_of_ne hother ..)

/-- An added item is stored behind the data, and its slot names it. -/
theorem addItem_spec (h : live.content.Shaped) (slot : BitVec 32) (payload : Bytes) :
    live.Written (live.addItem slot payload).1 live.storeAt payload ∧
      (live.addItem slot payload).1.content.word =
        Function.update live.content.word slot (appendOffset live.content.dataLen) ∧
      (live.addItem slot payload).1.content.dataLen = max live.content.dataLen (live.storeAt + payload.length) ∧
      (live.content.dataLen < live.storeAt + payload.length →
        (live.addItem slot payload).1.content.items.capacity =
          live.content.items.grown (live.storeAt + payload.length) ∧
        (live.addItem slot payload).1.removed = live.removed) ∧
      (live.storeAt + payload.length ≤ live.content.dataLen → (live.addItem slot payload).1.removed = true) := by
  have hnoted : (if (live.itemBytes slot).isNone then live.noteAbsent slot else live).content = live.content ∧
      (if (live.itemBytes slot).isNone then live.noteAbsent slot else live).removed = live.removed := by
    split_ifs
    · exact noteAbsent_frame live slot
    · exact ⟨rfl, rfl⟩
  obtain ⟨hshaped, hread, hword, hlen, _⟩ := h.append payload
  obtain ⟨hset, hupdate, _⟩ := hshaped.setSlotOffset slot (appendOffset live.content.dataLen)
  have htotal : ∀ total, Content.Shaped { (live.content.append payload).1.setSlotOffset slot
      (appendOffset live.content.dataLen) with total := total } := fun _ =>
    ⟨hset.items, hset.slots, hset.whole, hset.aligned⟩
  unfold addItem
  dsimp only
  rw [hnoted.1, hnoted.2]
  refine ⟨⟨htotal _, hread⟩, ?_, hlen, fun hpast => ⟨?_, ?_⟩, fun hin => ?_⟩
  · exact hupdate.trans (by rw [hword])
  · exact Chunk.capacity_setContent hpast live.content.backing.content
  · have hout : decide (live.storeAt + payload.length ≤ live.content.dataLen) = false :=
      decide_eq_false (Nat.not_le.mpr hpast)
    exact (congrArg (live.removed || ·) hout).trans (Bool.or_false _)
  · have hover : decide (live.storeAt + payload.length ≤ live.content.dataLen) = true := decide_eq_true hin
    exact (congrArg (live.removed || ·) hover).trans (Bool.or_true _)

theorem trainEntries_shaped (reading : List ChewingKey) (delta : BitVec 32) (first length : Nat) :
    ∀ (left place : Nat) (total : BitVec 32) {content : Content}, content.Shaped →
      (trainEntries reading delta first length left place total content).Shaped
  | 0, _, _, _, h => h
  | left + 1, place, total, content, h => by
    unfold trainEntries
    dsimp only
    split_ifs
    · exact h
    · exact trainEntries_shaped reading delta first length left _ _ h
    · exact h
    · refine trainEntries_shaped reading delta first length left _ _ ?_
      cases hwrite : content.write (first + place * (2 * length + 4) + 2 * length) _ with
      | none => exact h
      | some after => exact (h.write hwrite).1

/-- Training an item raises the flag. -/
theorem train_spec (h : live.content.Shaped) (slot : BitVec 32) (readings : List (List ChewingKey))
    (delta : BitVec 32) :
    (live.train slot readings delta).1 = live ∨
      (live.train slot readings delta).1.content.Shaped ∧ (live.train slot readings delta).1.removed = true := by
  unfold train
  split
  · split
    · refine .inr ⟨?_, rfl⟩
      exact foldlRecOn readings _ h fun content hcontent reading _ => trainEntries_shaped _ _ _ _ _ _ _ hcontent
    · exact .inl rfl
  · exact .inl rfl

theorem shaped_step (h : live.content.Shaped) (op : LiveOp) : (live.step op).content.Shaped := by
  cases op with
  | addItem slot payload => exact (addItem_spec h slot payload).1.shaped
  | removeItem slot => exact (removeItem_spec h slot).1
  | addUnigram slot delta =>
    obtain ⟨_, hsame⟩ | ⟨_, hwritten, _⟩ := addUnigram_spec h slot delta
    · exact (congrArg (fun after : ReplayedLibrary => after.content.Shaped) hsame).mpr h
    · exact hwritten.shaped
  | train slot readings delta =>
    rcases train_spec h slot readings delta with hsame | ⟨hafter, _⟩
    · exact (congrArg (fun after : ReplayedLibrary => after.content.Shaped) hsame).mpr h
    · exact hafter

theorem shaped_edit (h : live.content.Shaped) (op : SessionEdit) : (live.edit op).content.Shaped :=
  foldlRecOn (motive := fun live : ReplayedLibrary => live.content.Shaped) op.edits _ h
    fun _ hbefore op _ => shaped_step hbefore op

/-! ## What is lost -/

/-- The loaded items at some slots are readable. -/
def Readable (base : Backing) (slots : BitVec 32 → Prop) (live : ReplayedLibrary) : Prop :=
  ∀ slot, slots slot → base.held slot = true → (live.itemBytes slot).isSome

/-- An increment leaves the loaded items readable exactly when it spares their headers. -/
theorem readable_addUnigram_iff (h : live.content.Shaped) (hreadable : live.Readable base fun _ => True)
    (hraises : live.Raises slot delta) :
    (live.addUnigram slot delta).1.Readable base (fun _ => True) ↔
      live.SparesHeaders base (fun _ => True) (live.unigramAt slot) (live.raised slot delta)
        live.content.items.capacity := by
  obtain ⟨hnot, _⟩ | ⟨_, ⟨hshaped, hread⟩, hword, hlen, hcapacity, _⟩ := addUnigram_spec h slot delta
  · exact absurd hraises hnot
  refine forall_congr' fun other => forall_congr' fun hany => forall_congr' fun hheld => ?_
  obtain ⟨hnamed, hfits⟩ := (h.isSome_itemBytes other).mp (hreadable other hany hheld)
  refine (hshaped.isSome_itemBytes other).trans ?_
  rw [hread, hword, hlen, hcapacity]
  exact (and_iff_right hnamed).trans (fits_splice_iff hfits (Nat.le_refl _) (Nat.le_refl _) _ _)

/-- An item stored past the data leaves the loaded ones readable exactly when it spares them. -/
theorem readable_addItem_iff (h : live.content.Shaped) (hreadable : live.Readable base (· ≠ slot))
    (hpast : live.content.dataLen < live.storeAt + payload.length) :
    (live.addItem slot payload).1.Readable base (fun _ => True) ↔ live.SparesStored base slot payload := by
  obtain ⟨⟨hshaped, hread⟩, hword, hlen, hgrown, _⟩ := addItem_spec h slot payload
  obtain ⟨hcapacity, _⟩ := hgrown hpast
  rw [Nat.max_eq_right (Nat.le_of_lt hpast)] at hlen
  have hbytes : live.content.items.capacity ≤ live.content.items.grown (live.storeAt + payload.length) := by
    rw [← Chunk.capacity_setContent hpast live.content.backing.content]
    exact (h.items.setContent _ _).2
  have hnonzero : appendOffset live.content.dataLen ≠ 0 := appendOffset_ne_zero _
  -- the stored item, whose header is that of the payload if that has one
  have hstored : ((live.addItem slot payload).1.itemBytes slot).isSome ↔ ∃ len, declaredLen payload = some len ∧
      live.storeAt + len ≤ live.content.items.grown (live.storeAt + payload.length) := by
    refine (hshaped.isSome_itemBytes slot).trans ?_
    rw [hread, hword, hlen, hcapacity, Function.update_self, and_iff_right hnonzero]
    change Fits _ _ _ live.storeAt ↔ _
    rw [Fits, Nat.add_le_add_iff_left]
    constructor
    · rintro ⟨hlong, hfits⟩
      have hfirst := @splice_at live.content.read live.storeAt 0 payload (by omega)
      rw [Nat.add_zero] at hfirst
      rw [hfirst, splice_at (by omega)] at hfits
      refine ⟨_, ?_, hfits⟩
      rw [declaredLen, getElem?_eq_getElem (by omega), getElem?_eq_getElem (by omega)]
      rfl
    · rintro ⟨len, hdeclared, hfits⟩
      have hlong : 2 ≤ payload.length := by
        by_contra hshort
        rw [declaredLen, getElem?_eq_none (by omega : payload.length ≤ 1)] at hdeclared
        split at hdeclared
        · rename_i hone
          cases hone
        · cases hdeclared
      have hfirst := @splice_at live.content.read live.storeAt 0 payload (by omega)
      rw [Nat.add_zero] at hfirst
      refine ⟨hlong, ?_⟩
      rw [hfirst, splice_at (by omega)]
      rw [declaredLen, getElem?_eq_getElem (by omega), getElem?_eq_getElem (by omega)] at hdeclared
      rw [← some.inj hdeclared] at hfits
      rw [getElem?_eq_getElem (by omega), getElem?_eq_getElem (by omega)]
      exact hfits
  have hother : ∀ other, other ≠ slot → base.held other = true →
      (((live.addItem slot payload).1.itemBytes other).isSome ↔
        (live.storeAt ≤ (live.content.word other).toNat + 1 →
          (live.content.word other).toNat < live.storeAt + payload.length →
          (live.content.word other).toNat + headerLen
            (splice live.content.read live.storeAt payload (live.content.word other).toNat)
            (splice live.content.read live.storeAt payload ((live.content.word other).toNat + 1)) ≤
              live.content.items.grown (live.storeAt + payload.length))) := by
    intro other hne hheld
    obtain ⟨hnamed, hfits⟩ := (h.isSome_itemBytes other).mp (hreadable other hne hheld)
    refine (hshaped.isSome_itemBytes other).trans ?_
    rw [hread, hword, hlen, hcapacity, Function.update_of_ne hne]
    exact (and_iff_right hnamed).trans (fits_splice_iff hfits (Nat.le_of_lt hpast) hbytes _ _)
  constructor
  · intro hafter _
    exact ⟨fun hheld => hstored.mp (hafter slot trivial hheld),
      fun other hne hheld => (hother other hne hheld).mp (hafter other trivial hheld)⟩
  · intro hspares other _ hheld
    obtain ⟨hslot, hothers⟩ := hspares hpast
    by_cases hsame : other = slot
    · rw [hsame] at hheld ⊢
      exact hstored.mpr (hslot hheld)
    · exact (hother other hsame hheld).mpr (hothers other hsame hheld)

/-- A buffer that tells of every loaded item it lost. -/
def Tells (base : Backing) (live : ReplayedLibrary) : Prop :=
  ∀ slot, base.held slot = true → live.itemBytes slot = none → live.hasRemoved = true

/-- A shaped buffer that has every loaded item while its flag is down. -/
def Watched (base : Backing) (live : ReplayedLibrary) : Prop :=
  live.content.Shaped ∧ (live.removed = false → live.Readable base fun _ => True)

theorem Watched.tells (h : live.Watched base) : live.Tells base := by
  intro slot hheld hnone
  by_contra hdown
  have hitem := h.2 (eq_false_of_ne_true hdown) slot trivial hheld
  rw [hnone] at hitem
  cases hitem

/-- A buffer that tells has every loaded item while its flag is down. -/
theorem Tells.readable (h : live.Tells base) (hdown : live.removed = false) : live.Readable base fun _ => True := by
  intro slot _ hheld
  by_contra hnone
  rw [Bool.not_eq_true, isSome_eq_false_iff, isNone_iff_eq_none] at hnone
  have hup := h slot hheld hnone
  rw [hasRemoved, hdown] at hup
  cases hup

/-- What is stored for a slot, with the other loaded items readable. -/
theorem watched_addItem_iff (h : live.content.Shaped)
    (hreadable : live.removed = false → live.Readable base (· ≠ slot)) :
    ((live.addItem slot payload).1.Watched base ↔ (live.removed = false → live.SparesStored base slot payload)) := by
  obtain ⟨⟨hshaped, _⟩, _, _, hpast, hin⟩ := addItem_spec h slot payload
  refine (and_iff_right hshaped).trans ?_
  rcases Nat.lt_or_ge live.content.dataLen (live.storeAt + payload.length) with hend | hend
  · rw [(hpast hend).2]
    exact forall_congr' fun hdown => readable_addItem_iff h (hreadable hdown) hend
  · rw [hin hend]
    exact ⟨fun _ _ hlt => absurd hlt (Nat.not_lt.mpr hend), nofun⟩

/-- An edit keeps the watch exactly when it spares the loaded headers. -/
theorem watched_edit_iff (h : live.Watched base) (op : SessionEdit) :
    (live.edit op).Watched base ↔ live.Spares base op := by
  obtain ⟨hshaped, hreadable⟩ := h
  cases op with
  | addUnigram slot delta =>
    change (live.addUnigram slot delta).1.Watched base ↔ _
    obtain ⟨hnot, hsame⟩ | ⟨hraises, ⟨hafter, _⟩, _, _, _, hremoved⟩ := addUnigram_spec hshaped slot delta
    · rw [hsame]
      exact iff_of_true ⟨hshaped, hreadable⟩ fun _ hraises => absurd hraises hnot
    · refine (and_iff_right hafter).trans ?_
      rw [hremoved]
      refine forall_congr' fun hdown => ?_
      have hkept := readable_addUnigram_iff hshaped (hreadable hdown) hraises
      exact ⟨fun hafter _ => hkept.mp hafter, fun hspares => hkept.mpr (hspares hraises)⟩
  | train slot readings delta =>
    change (live.train slot readings delta).1.Watched base ↔ _
    refine iff_of_true ?_ fun _ => trivial
    rcases train_spec hshaped slot readings delta with hsame | ⟨hafter, hup⟩
    · rw [hsame]
      exact ⟨hshaped, hreadable⟩
    · exact ⟨hafter, fun hdown => by rw [hup] at hdown; cases hdown⟩
  | addItem slot payload =>
    exact watched_addItem_iff hshaped fun hdown other _ hheld => hreadable hdown other trivial hheld
  | replaceItem slot payload =>
    change ((live.removeItem slot).1.addItem slot payload).1.Watched base ↔ _
    obtain ⟨htaken, hread, hword, hitems, hremoved⟩ := removeItem_spec hshaped slot
    have hlen : (live.removeItem slot).1.content.dataLen = live.content.dataLen := congrArg Chunk.dataEnd hitems
    have hothers : live.removed = false → (live.removeItem slot).1.Readable base (· ≠ slot) := by
      intro hdown other hne hheld
      refine (htaken.isSome_itemBytes other).mpr ?_
      rw [hread, hword other hne, hitems, hlen]
      exact (hshaped.isSome_itemBytes other).mp (hreadable hdown other trivial hheld)
    refine (watched_addItem_iff htaken fun hdown => hothers (hremoved ▸ hdown)).trans ?_
    rw [hremoved]
    refine forall_congr' fun _ => ?_
    -- what an item is stored over is what it was before the removal
    unfold SparesStored storeAt
    rw [hlen, hitems]
    refine forall_congr' fun _ => and_congr_right fun _ => ?_
    refine forall_congr' fun other => forall_congr' fun hne => ?_
    rw [hread, hword other hne]

end ReplayedLibrary

/-! ## A session -/

/-- The buffer of a mapped library is its chunk. -/
theorem watched_pristine {payload : Bytes} {library : PhraseLibrary}
    (hload : PhraseLibrary.fromPayload payload = .ok library) {baseline : Baseline}
    (hmapped : baseline.mapping = some library) : baseline.pristine.Watched (mappedBacking library) := by
  have hbacking :
      originBacking (some { baseline.library with mapped := baseline.mapping }) = mappedBacking library := by
    rw [hmapped]
    rfl
  rw [Baseline.pristine, hbacking]
  exact ⟨shaped_new (offsetArray_aligned hload) _, fun _ _ _ hheld => hheld⟩

/-- From the buffer of a loaded chunk on, the flag of removed items is up in every state that lost
a loaded item, exactly when every edit made while it is down spares the loaded headers. -/
theorem hasRemoved_run_iff (payload : Bytes) (library : PhraseLibrary)
    (hload : PhraseLibrary.fromPayload payload = .ok library) (baseline : Baseline)
    (hmapped : baseline.mapping = some library) (ops : List SessionEdit) :
    (∀ live ∈ states ReplayedLibrary.edit baseline.pristine ops, ∀ slot, (mappedBacking library).held slot = true →
      live.itemBytes slot = none → live.hasRemoved = true) ↔
    Along ReplayedLibrary.edit (ReplayedLibrary.Spares (mappedBacking library)) baseline.pristine ops := by
  refine @forall_states_iff _ _ _ (ReplayedLibrary.Watched (mappedBacking library))
    (ReplayedLibrary.Tells (mappedBacking library)) _ (fun _ h => h.tells)
    (fun live op h hspares => (ReplayedLibrary.watched_edit_iff h op).mpr hspares) (fun live op h htells => ?_) _ _
    (watched_pristine hload hmapped)
  refine (ReplayedLibrary.watched_edit_iff h op).mp ⟨?_, fun hdown => htells.readable hdown⟩
  exact ReplayedLibrary.shaped_edit h.1 op

/-! ## Two items that share bytes -/

def aliasedOffsets : Bytes := le32 0 ++ le32 8 ++ le32 10

/-- The unigram of the first item is the header of the second. -/
def aliasedArea : Bytes := List.replicate firstItemOffset 0 ++ [1, 0, 1, 0, 0, 0, 0, 0, 0, 0, 0, 0]

def aliasedLibrary : PhraseLibrary := writtenLibrary 1 aliasedOffsets aliasedArea

def aliasedBaseline : Baseline := ⟨⟨1, 3, [], some aliasedLibrary⟩, false⟩

theorem fromPayload_aliased :
    PhraseLibrary.fromPayload (indexBytes 1 aliasedOffsets aliasedArea) = .ok aliasedLibrary :=
  fromPayload_indexBytes (by decide) (by decide)

def aliasedTrained : ReplayedLibrary := (aliasedBaseline.pristine.edit (.train 1 [] 5)).edit (.addUnigram 1 200)

/-- Once the first item is trained, the increment that loses the second is told. -/
theorem hasRemoved_run_iff_trained : aliasedTrained.itemBytes 2 = none ∧ aliasedTrained.hasRemoved = true := by
  have hrun := (hasRemoved_run_iff _ _ fromPayload_aliased aliasedBaseline rfl [.train 1 [] 5, .addUnigram 1 200]).mpr
    ⟨fun _ => trivial, fun hdown => absurd hdown (by decide +kernel), trivial⟩
  have hlost : aliasedTrained.itemBytes 2 = none := by decide +kernel
  exact ⟨hlost, hrun aliasedTrained (by simp [states, aliasedTrained]) 2 (by decide +kernel) hlost⟩

/-- The same increment alone loses the second item, and the flag stays down. -/
theorem hasRemoved_aliased :
    PhraseLibrary.fromPayload (indexBytes 1 aliasedOffsets aliasedArea) = .ok aliasedLibrary ∧
    aliasedBaseline.mapping = some aliasedLibrary ∧
    ¬∀ live ∈ states ReplayedLibrary.edit aliasedBaseline.pristine [.addUnigram 1 200], ∀ slot,
      (mappedBacking aliasedLibrary).held slot = true → live.itemBytes slot = none → live.hasRemoved = true := by
  refine ⟨fromPayload_aliased, rfl, fun htells => ?_⟩
  have hup := htells (aliasedBaseline.pristine.edit (.addUnigram 1 200)) (by simp [states]) 2 (by decide +kernel)
    (by decide +kernel)
  exact absurd hup (by decide +kernel)

end Oxpinyin.Replay
