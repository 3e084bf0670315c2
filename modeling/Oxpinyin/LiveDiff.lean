import Oxpinyin.ItemMap
import Oxpinyin.ReplayProvenance

/-!
# The diff of a save

`diffLiveRecords` has the records from the chunk on disk to a live buffer : the header, and for
each slot of either range the ADD, REMOVE or MODIFY between the two items. Replayed on the chunk
they leave the items of the buffer (`mergeLog_diffLiveRecords`).
-/

set_option linter.unusedSectionVars false

namespace Oxpinyin.Replay

open List Option LittleEndian ChunkFile Patch Run Content PhraseItemView
open SystemLibrary hiding rangeEnd
open PhraseLibrary hiding item trimEnd
open ReplayedLibrary hiding itemBytes
open BitVec hiding append_assoc

/-! ## The records -/

namespace SystemLibrary

/-- A chunk on disk, its items read in place. -/
def fromLibrary (library : PhraseLibrary) : SystemLibrary :=
  ⟨library.totalFreq, library.tokenRange.2, [], some library⟩

/-- The bytes of a slot's item. An inline item is serialised. -/
def visibleBytes (library : SystemLibrary) (slot : BitVec 32) : Option Bytes :=
  match library.items.lookup slot with
  | some item => some (journalItemBytes item)
  | none => library.mapped.bind fun mapped => (mapped.item slot).map PhraseItemView.bytes

end SystemLibrary

/-- The live side of a diff. -/
inductive LiveSubIndex where
  | buffer (library : ReplayedLibrary)
  | chunk (library : SystemLibrary)

namespace LiveSubIndex

def end_ : LiveSubIndex → Nat
  | .buffer library => library.rangeEnd
  | .chunk library => library.rangeEnd

def item : LiveSubIndex → BitVec 32 → Option Bytes
  | .buffer library => library.itemBytes
  | .chunk library => library.visibleBytes

end LiveSubIndex

/-- The record of one slot. -/
def slotRecord (slot : BitVec 32) : Option Bytes → Option Bytes → Option LogRecord
  | some old, some new => if old ≠ new then some (.modify slot old new) else none
  | some old, none => some (.remove slot old)
  | none, some new => some (.add slot new)
  | none, none => none

/-- The slots of either range. -/
def diffSlots (live : LiveSubIndex) (disk : SystemLibrary) : List (BitVec 32) :=
  (List.range' 1 (max live.end_ disk.rangeEnd - 1)).map (BitVec.ofNat 32)

/-- The records from a chunk to the live side. -/
def diffLiveRecords (live : LiveSubIndex) (disk : SystemLibrary) (newTotal : BitVec 32) : List LogRecord :=
  .modifyHeader disk.total newTotal ::
    (diffSlots live disk).filterMap fun slot => slotRecord slot (disk.visibleBytes slot) (live.item slot)

theorem slotRecord_eq (slot : BitVec 32) (old new : Option Bytes) :
    slotRecord slot old new = (edit? slot old new).map recordOf := by
  cases old with
  | none => cases new <;> rfl
  | some old =>
    cases new with
    | none => rfl
    | some new =>
      unfold slotRecord edit?
      dsimp only
      split_ifs <;> rfl

/-- The records are those of the edits between the two maps. -/
theorem diffLiveRecords_eq (live : LiveSubIndex) (disk : SystemLibrary) (newTotal : BitVec 32) :
    diffLiveRecords live disk newTotal = .modifyHeader disk.total newTotal ::
      (diff disk.visibleBytes live.item (diffSlots live disk)).map recordOf := by
  unfold diffLiveRecords diff
  rw [map_filterMap]
  congr 2
  exact funext fun slot => slotRecord_eq slot _ _

/-! ## The chunk on disk -/

variable {slot : BitVec 32} {content : Content}

variable {library : PhraseLibrary}

/-- The ranges of a loaded payload lie inside it. -/
theorem loaded_bounds {payload : Bytes} (h : fromPayload payload = .ok library) :
    (library.offsets.1 ≤ library.offsets.2 ∧ library.offsets.2 ≤ library.payload.length) ∧
      library.content.1 ≤ library.content.2 ∧ library.content.2 ≤ library.payload.length ∧
      library.content.2 < 2 ^ 32 ∧ library.offsets.2 < 2 ^ 32 := by
  have hempty : ∀ bytes : Bytes,
      (0 ≤ 0 ∧ 0 ≤ bytes.length) ∧ 0 ≤ 0 ∧ 0 ≤ bytes.length ∧ 0 < 2 ^ 32 ∧ 0 < 2 ^ 32 :=
    fun bytes => ⟨⟨Nat.le_refl _, Nat.zero_le _⟩, Nat.le_refl _, Nat.zero_le _, by decide, by decide⟩
  unfold fromPayload at h
  dsimp only at h
  split_ifs at h
  · obtain rfl := Except.ok.inj h
    exact hempty payload
  · split at h
    · rename_i one two three _ _ _
      split_ifs at h
      · obtain rfl := Except.ok.inj h
        exact hempty payload
      · obtain rfl := Except.ok.inj h
        exact hempty payload
      · obtain rfl := Except.ok.inj h
        dsimp only
        omega
    · cases h

/-- The sections of a loaded library are there. -/
theorem Sound.sections (h : Sound library) :
    range? library.payload library.offsets.1 library.offsets.2 = some (mappedBacking library).offsets ∧
      range? library.payload library.content.1 library.content.2 = some (mappedBacking library).content := by
  obtain ⟨payload, hload⟩ := h.loaded
  have hbounds := loaded_bounds hload
  have hsome : ∀ {start stop : Nat}, start ≤ stop ∧ stop ≤ library.payload.length →
      range? library.payload start stop = some ((range? library.payload start stop).getD []) := by
    intro start stop hrange
    rw [range?, if_pos hrange, getD_some]
  exact ⟨hsome hbounds.1, hsome ⟨hbounds.2.1, hbounds.2.2.1⟩⟩

/-- The items of a loaded library are below 2^32 bytes. -/
theorem Sound.length_content (h : Sound library) : (mappedBacking library).content.length < 2 ^ 32 := by
  obtain ⟨payload, hload⟩ := h.loaded
  have hbounds := loaded_bounds hload
  obtain ⟨_, hcontent⟩ := h.sections
  obtain ⟨front, back, _, _, hstop⟩ := range?_eq_some_iff.mp hcontent
  omega

/-- A word of a section. -/
theorem word32At_range {bytes part : Bytes} {start stop pos : Nat} (h : range? bytes start stop = some part)
    (hpos : pos + 4 ≤ part.length) : word32At part pos = word32At bytes (start + pos) := by
  obtain ⟨front, back, rfl, rfl, _⟩ := range?_eq_some_iff.mp h
  rw [word32At_eq_wordOf hpos, word32At_eq_wordOf (by simp only [length_append]; omega)]
  rw [Option.some.injEq]
  have hbyte : ∀ i, i < part.length →
      ((front ++ part ++ back)[front.length + i]?).getD 0 = (part[i]?).getD 0 := by
    intro i hi
    rw [append_assoc, getElem?_append_right (by omega), Nat.add_sub_cancel_left, getElem?_append_left hi]
  simp only [wordOf, Nat.add_assoc]
  rw [hbyte pos (by omega), hbyte (pos + 1) (by omega), hbyte (pos + 2) (by omega), hbyte (pos + 3) (by omega)]

/-- A loaded library has the words of its array. -/
theorem Sound.slotOffset_eq (h : Sound library) (slot : BitVec 32) (total : BitVec 32) :
    library.slotOffset slot.toNat = (new (mappedBacking library) total).slotOffset slot := by
  obtain ⟨hoffsets, _⟩ := h.sections
  obtain ⟨hle, _⟩ := range?_bounds hoffsets
  have hlength : (mappedBacking library).offsets.length = library.offsets.2 - library.offsets.1 := by
    obtain ⟨front, back, _, _, hstop⟩ := range?_eq_some_iff.mp hoffsets
    omega
  have hcontent : (new (mappedBacking library) total).slotOffset slot =
      if (mappedBacking library).offsets.length < slot.toNat * 4 + 4 then none
      else word32At (mappedBacking library).offsets (slot.toNat * 4) := rfl
  rw [PhraseLibrary.slotOffset, hcontent]
  by_cases hend : library.offsets.2 < slot.toNat * 4 + library.offsets.1 + 4
  · rw [if_pos hend, if_pos (by omega)]
  · rw [if_neg hend, if_neg (by omega), word32At_range hoffsets (by omega), Nat.add_comm]

/-- The length a view claims is that of its header. -/
theorem totalSize_eq (bytes : Bytes) :
    totalSize ⟨bytes⟩ = headerLen ((bytes[0]?).getD 0) ((bytes[1]?).getD 0) := by
  rw [totalSize, headerLen, Nat.mul_comm (chewingKeySize * _ + 4)]
  rfl

/-- A loaded library has the items of its buffer. -/
theorem Sound.itemAtSlot_eq (h : Sound library) (slot : BitVec 32) (total : BitVec 32) :
    (library.itemAtSlot slot.toNat).map bytes =
      (new (mappedBacking library) total).itemBytes slot := by
  obtain ⟨_, hcontent⟩ := h.sections
  have hshaped := h.shaped total
  rw [itemAtSlot, h.slotOffset_eq slot total, itemBytes, visible_eq, word]
  cases hword : (new (mappedBacking library) total).slotOffset slot with
  | none => rfl
  | some word =>
    rw [bind_some, getD_some]
    dsimp only
    by_cases hzero : word = 0
    · rw [if_pos (by rw [hzero]; rfl), if_pos hzero]
      rfl
    · have hne : word.toNat ≠ 0 := fun hnat => hzero (eq_of_toNat_eq hnat)
      rw [if_neg hne, if_neg hzero, hcontent, bind_some]
      have hsize : totalSize ⟨(mappedBacking library).content.drop word.toNat⟩ =
          headerLen ((new (mappedBacking library) total).read word.toNat)
            ((new (mappedBacking library) total).read (word.toNat + 1)) := by
        rw [totalSize_eq, getElem?_drop, getElem?_drop, Nat.add_zero]
        rfl
      have hroom := le_headerLen ((new (mappedBacking library) total).read word.toNat)
        ((new (mappedBacking library) total).read (word.toNat + 1))
      have hlen : (new (mappedBacking library) total).dataLen = (mappedBacking library).content.length := rfl
      have hcapacity : (new (mappedBacking library) total).items.capacity =
          (mappedBacking library).content.length := rfl
      rw [hsize, hshaped.header_eq, hlen, hcapacity]
      generalize headerLen ((new (mappedBacking library) total).read word.toNat)
        ((new (mappedBacking library) total).read (word.toNat + 1)) = len at hroom ⊢
      have hout : (mappedBacking library).content.length < word.toNat + len →
          range? (mappedBacking library).content word.toNat (word.toNat + len) = none := fun hlt =>
        if_neg fun hrange => Nat.not_le.mpr hlt hrange.2
      by_cases hheader : (mappedBacking library).content.length < word.toNat + 2
      · rw [if_pos hheader, hout (by omega)]
        split_ifs <;> rfl
      · rw [if_neg hheader, if_neg (by omega)]
        by_cases hend : word.toNat + len ≤ (mappedBacking library).content.length
        · rw [if_pos hend]
          dsimp only
          rw [item, if_neg (by rw [hcapacity]; omega), Option.map_map]
          exact map_id_apply
        · rw [if_neg hend, hout (Nat.not_le.mp hend)]
          rfl

/-- The item the chunk has at a slot. -/
def Backing.item (base : Backing) (slot : BitVec 32) : Option Bytes := (Content.new base 0).itemBytes slot

theorem toNat_masked (h : slot.toNat < 2 ^ 24) : slot &&& phraseMask = slot := by
  apply eq_of_toNat_eq
  rw [toNat_and]
  have hmask : phraseMask.toNat = 2 ^ 24 - 1 := rfl
  rw [hmask, Nat.and_two_pow_sub_one_eq_mod, Nat.mod_eq_of_lt h]

/-- The diff reads the chunk at the slot a token masks to. -/
theorem Sound.visibleBytes_eq (h : Sound library) (slot : BitVec 32) :
    (fromLibrary library).visibleBytes slot = (mappedBacking library).item (slot &&& phraseMask) :=
  h.itemAtSlot_eq (slot &&& phraseMask) 0

/-- No slot behind the range of a library has a word. -/
theorem Sound.word_of_range (h : Sound library) (hslot : library.tokenRange.2 ≤ slot.toNat) :
    (mappedBacking library).word slot = 0 := by
  have htrim : ∀ n i : Nat, library.trimEnd n ≤ i → i < n → 1 ≤ i →
      ∀ word, word32At library.payload (library.offsets.1 + 4 * i) = some word → word = 0 := by
    intro n
    induction n with
    | zero => exact fun i _ hlt => absurd hlt (Nat.not_lt_zero i)
    | succ n ih =>
      intro i hle hlt hone word hword
      have hmore : 1 < n + 1 := by omega
      rw [PhraseLibrary.trimEnd, if_pos hmore] at hle
      split at hle
      · rename_i offset hoffset
        split_ifs at hle with hzero
        · omega
        · rcases Nat.lt_or_ge i n with hin | hge
          · exact ih i hle hin hone word hword
          · have hsame : i = n := by omega
            rw [hsame, hoffset] at hword
            rw [← some.inj hword]
            exact not_not.mp hzero
      · rename_i hnone
        rcases Nat.lt_or_ge i n with hin | hge
        · exact ih i hle hin hone word hword
        · have hsame : i = n := by omega
          rw [hsame, hnone] at hword
          cases hword
  have hrange : library.trimEnd library.slots ≤ slot.toNat ∧ 1 ≤ slot.toNat := by
    rw [tokenRange] at hslot
    dsimp only at hslot
    omega
  by_contra hword
  have hlt := lt_slotCount hword
  obtain ⟨hoffsets, _⟩ := h.sections
  obtain ⟨front, back, _, _, hstop⟩ := range?_eq_some_iff.mp hoffsets
  have hoffset := h.slotOffset_eq slot 0
  have hin : slot.toNat < library.slots := by
    rw [Backing.slotCount] at hlt
    rw [PhraseLibrary.slots]
    omega
  rw [Backing.word, word, ← hoffset, PhraseLibrary.slotOffset] at hword
  split_ifs at hword with hend
  · exact hword rfl
  · rw [Nat.add_comm, Nat.mul_comm] at hword
    cases hread : word32At library.payload (library.offsets.1 + 4 * slot.toNat) with
    | none =>
      rw [hread] at hword
      exact hword rfl
    | some word =>
      rw [hread] at hword
      exact hword (htrim _ _ hrange.1 hin hrange.2 word hread)

/-- The loop over the words stops behind the last one that is not zero. -/
theorem trimEnd_spec (content : Content) :
    ∀ n : Nat, trimEnd content n ≤ n ∧
      (∀ slot : BitVec 32, trimEnd content n ≤ slot.toNat → slot.toNat < n → content.word slot = 0) ∧
      (trimEnd content n = 0 ∨
        content.word (BitVec.ofNat 32 (trimEnd content n - 1)) ≠ 0) := by
  intro n
  induction n with
  | zero => exact ⟨Nat.le_refl _, fun slot _ hlt => absurd hlt (Nat.not_lt_zero _), .inl rfl⟩
  | succ n ih =>
    obtain ⟨hend, hzero, hlast⟩ := ih
    have hword : (content.slotOffset (BitVec.ofNat 32 n)).all (· = 0) = true ↔
      content.word (BitVec.ofNat 32 n) = 0 := by
      rw [word]
      cases content.slotOffset (BitVec.ofNat 32 n) with
      | none => exact ⟨fun _ => rfl, fun _ => rfl⟩
      | some word => exact decide_eq_true_iff
    rw [trimEnd]
    split_ifs with hall
    · refine ⟨by omega, fun slot hfrom hlt => ?_, hlast⟩
      rcases Nat.lt_or_ge slot.toNat n with hin | hge
      · exact hzero slot hfrom hin
      · have hslot : slot = BitVec.ofNat 32 n := by
          rw [show n = slot.toNat by omega, ofNat_toNat, setWidth_eq]
        rw [hslot]
        exact hword.mp hall
    · refine ⟨Nat.le_refl _, fun slot hfrom hlt => absurd hlt (Nat.not_lt.mpr hfrom), .inr ?_⟩
      rw [Nat.add_sub_cancel]
      exact fun hzero => hall (hword.mpr hzero)

/-- A slot that is not in the array has no word. -/
theorem word_of_dataEnd (h : content.slots.dataEnd / 4 ≤ slot.toNat) : content.word slot = 0 := by
  rw [word, slotOffset_eq, if_pos (by omega), getD_none]

/-- No slot behind the range of a buffer has a word. -/
theorem word_of_rangeEnd {live : ReplayedLibrary} (hshort : live.rangeEnd < 2 ^ 32 - 1)
    (hslot : live.rangeEnd ≤ slot.toNat) : live.content.word slot = 0 := by
  rw [rangeEnd] at hshort hslot
  rcases Nat.lt_or_ge slot.toNat (live.content.slots.dataEnd / 4) with hin | hout
  · exact (trimEnd_spec live.content _).2.1 slot (by omega) hin
  · exact word_of_dataEnd hout

/-! ## The replay -/

/-- An item a buffer shows is as long as its header says. -/
theorem exact_of_itemBytes (hshaped : content.Shaped) {bytes : Bytes}
    (h : content.itemBytes slot = some bytes) : Exact bytes := by
  obtain ⟨offset, len, hvisible, rfl⟩ := hshaped.itemBytes_eq_some.mp h
  obtain ⟨_, _, _, hlen, _⟩ := hshaped.visible_eq_item.mp hvisible
  have hroom := le_headerLen (content.read offset) (content.read (offset + 1))
  rw [Exact, declaredLen, content.getElem?_span (by omega), content.getElem?_span (by omega),
    length_span, hlen]
  rfl

theorem itemBytes_of_word (h : content.word slot = 0) : content.itemBytes slot = none := by
  rw [itemBytes, visible_eq, if_pos h]

/-- A loaded chunk holds its items. -/
theorem Sound.holds (h : Sound library) (total : BitVec 32) :
    Holds (.new (mappedBacking library) total) (fun slot => ((mappedBacking library).item slot).elim 0 length)
      (mappedBacking library).item := by
  have hshaped := h.shaped total
  have hitem : ∀ {slot : BitVec 32} {bytes : Bytes}, (mappedBacking library).item slot = some bytes →
      ∃ offset, (mappedBacking library).visible slot = .item offset bytes.length ∧
        bytes = (new (mappedBacking library) total).span offset bytes.length ∧
        (mappedBacking library).word slot ≠ 0 ∧ offset = ((mappedBacking library).word slot).toNat ∧
        offset + bytes.length ≤ (mappedBacking library).content.length := by
    intro slot bytes hbytes
    obtain ⟨offset, len, hvisible, hspan⟩ := hshaped.itemBytes_eq_some.mp hbytes
    obtain ⟨hne, hoffset, _, _, hend⟩ := hshaped.visible_eq_item.mp hvisible
    have hlen : bytes.length = len := by rw [hspan, length_span]
    rw [hlen]
    exact ⟨offset, hvisible, hspan, hne, hoffset, hend⟩
  refine ⟨hshaped, fun slot hnone => ?_, fun slot bytes hbytes => ?_, fun slot bytes hbytes => ?_,
    fun slot bytes hbytes => ?_, fun slot bytes hbytes => ?_, fun slot bytes hbytes i hi => ?_,
    fun i j a b hne ha hb => ?_⟩
  · by_contra hword
    have hheld := h.readable slot hword
    rw [Backing.held] at hheld
    rw [Backing.item] at hnone
    rw [hnone] at hheld
    cases hheld
  · obtain ⟨_, _, _, hne, _⟩ := hitem hbytes
    exact hne
  · exact exact_of_itemBytes hshaped hbytes
  · rw [hbytes]
    exact Nat.le_refl _
  · obtain ⟨offset, _, _, _, hoffset, hend⟩ := hitem hbytes
    rw [hbytes]
    exact hoffset ▸ hend
  · obtain ⟨offset, _, hspan, _, hoffset, _⟩ := hitem hbytes
    have hword : (new (mappedBacking library) total).word slot = (mappedBacking library).word slot := rfl
    rw [hword, ← hoffset, ← getElem?_span _ hi, ← hspan]
  · obtain ⟨at_, hvisible, _, _, hat, _⟩ := hitem ha
    obtain ⟨at_', hvisible', _, _, hat', _⟩ := hitem hb
    have hapart := h.apart i j _ _ _ _ hne hvisible hvisible'
    rw [ha, hb]
    rw [hat, hat'] at hapart
    exact hapart

/-- What the total gains between two items of a slot. -/
def slotDelta : Option Bytes → Option Bytes → BitVec 32
  | some old, some new => if old.length < new.length then rawUnigram new - rawUnigram old else 0
  | some old, none => -rawUnigram old
  | none, some new => rawUnigram new
  | none, none => 0

/-- What is appended between two items of a slot. -/
def slotAppended : Option Bytes → Option Bytes → Nat
  | some old, some new => if old.length < new.length then new.length else 0
  | none, some new => new.length
  | _, none => 0

/-- What a diff adds to the total and to the data. -/
theorem sum_diff {old new : BitVec 32 → Option Bytes} (slots : List (BitVec 32)) :
    ((diff old new slots).map totalDelta).sum = (slots.map fun slot => slotDelta (old slot) (new slot)).sum ∧
      ((diff old new slots).map appendedLen).sum =
        (slots.map fun slot => slotAppended (old slot) (new slot)).sum := by
  induction slots with
  | nil => exact ⟨rfl, rfl⟩
  | cons slot rest ih =>
    unfold diff at ih ⊢
    rw [filterMap_cons, map_cons, map_cons, sum_cons, sum_cons, ← ih.1, ← ih.2]
    cases hold : old slot with
    | none =>
      cases hnew : new slot with
      | none => exact ⟨(BitVec.zero_add _).symm, (Nat.zero_add _).symm⟩
      | some b => exact ⟨rfl, rfl⟩
    | some a =>
      cases hnew : new slot with
      | none => exact ⟨rfl, rfl⟩
      | some b =>
        by_cases hsame : a = b
        · rw [hsame, edit?, if_neg (not_not.mpr rfl), slotDelta, slotAppended, if_neg (Nat.lt_irrefl _),
            if_neg (Nat.lt_irrefl _)]
          exact ⟨(BitVec.zero_add _).symm, (Nat.zero_add _).symm⟩
        · rw [edit?, if_pos hsame]
          exact ⟨rfl, rfl⟩

/-- The slots below an end differ. -/
theorem nodup_slotsBelow {end_ : Nat} (h : end_ ≤ 2 ^ 32) :
    ((List.range' 1 (end_ - 1)).map (BitVec.ofNat 32)).Nodup := by
  refine Nodup.map_on (fun i hi j hj heq => ?_) nodup_range'
  have hin := mem_range'_1.mp hi
  have hjn := mem_range'_1.mp hj
  have hnat := congrArg BitVec.toNat heq
  rwa [BitVec.toNat_ofNat, BitVec.toNat_ofNat, Nat.mod_eq_of_lt (by omega), Nat.mod_eq_of_lt (by omega)] at hnat

theorem mem_diffSlots {live : LiveSubIndex} {disk : SystemLibrary} (h : max live.end_ disk.rangeEnd ≤ 2 ^ 32)
    {slot : BitVec 32} : slot ∈ diffSlots live disk ↔ 1 ≤ slot.toNat ∧ slot.toNat < max live.end_ disk.rangeEnd := by
  rw [diffSlots, List.mem_map]
  constructor
  · rintro ⟨i, hi, rfl⟩
    have hin := mem_range'_1.mp hi
    rw [BitVec.toNat_ofNat, Nat.mod_eq_of_lt (by omega)]
    omega
  · rintro ⟨hone, hlt⟩
    exact ⟨slot.toNat, mem_range'_1.mpr (by omega), by rw [ofNat_toNat, setWidth_eq]⟩

/-- The records between a chunk and other items of some slots, on the chunk. -/
theorem mergeLog_diff (hsound : Sound library) {new : BitVec 32 → Option Bytes}
    (hexact : ∀ slot bytes, new slot = some bytes → Exact bytes) {slots : List (BitVec 32)}
    (hnodup : slots.Nodup) (hmasked : ∀ slot ∈ slots, slot.toNat < 2 ^ 24)
    (hsize : (appendOffset (mappedBacking library).content.length).toNat +
      (slots.map fun slot => slotAppended ((mappedBacking library).item slot) (new slot)).sum < 2 ^ 32)
    {merge : Merge} {total : BitVec 32} (hmerge : merge.content = .new (mappedBacking library) total)
    (newTotal : BitVec 32) (index : BitVec 8) :
    ∃ after, mergeLog merge ((.modifyHeader total newTotal ::
        (diff (mappedBacking library).item new slots).map recordOf).map .ok) index = (after, [], .ok .applied) ∧
      (∀ slot, after.content.itemBytes slot =
        if slot ∈ slots then new slot else (mappedBacking library).item slot) ∧
      after.content.total =
        newTotal + (slots.map fun slot => slotDelta ((mappedBacking library).item slot) (new slot)).sum := by
  obtain ⟨hruns, hvalues⟩ := @runs_diff _ _ _ _ (mappedBacking library).item new (mappedBacking library).item slots
    hnodup fun _ _ => rfl
  have hheader : merge.applyBackfilling (.modifyHeader total newTotal) [] = (merge.setTotal newTotal, none) := by
    simp only [Merge.applyBackfilling, hmerge, Content.new]
    exact if_neg (not_not.mpr rfl)
  have hholds := hsound.holds newTotal
  have hcontent : (merge.setTotal newTotal).content = .new (mappedBacking library) newTotal := by
    rw [Merge.setTotal, hmerge]
    rfl
  rw [← hcontent] at hholds
  have hlen : (merge.setTotal newTotal).content.dataLen = (mappedBacking library).content.length := by
    rw [hcontent]
    rfl
  obtain ⟨after, room, hrun, hlast, htotal⟩ := @mergeFrom_recordOf index
    (diff (mappedBacking library).item new slots) [.ok (.modifyHeader total newTotal)] _ _ _ hholds hruns
    (fun edit hedit => toNat_masked (hmasked _ (mem_diff.mp hedit).1))
    (fun edit hedit bytes hbytes => by
      obtain ⟨_, _, hnew, _⟩ := edit?_eq_some (mem_diff.mp hedit).2
      exact hexact edit.key bytes (hnew ▸ hbytes))
    (hlen ▸ hsound.length_content) (by rw [hlen, (sum_diff slots).2]; exact hsize)
  refine ⟨after, ?_, fun slot => ?_, ?_⟩
  · rw [mergeLog, map_cons, mergeFrom, modifyTokens, filterMap_nil, hheader, List.map_map]
    exact hrun
  · rw [hlast.itemBytes, hvalues]
  · rw [htotal, (sum_diff slots).1]
    rfl

section Ranges

variable {live : ReplayedLibrary} (hdisk : library.tokenRange.2 ≤ 2 ^ 24) (hrange : live.rangeEnd ≤ 2 ^ 24)
include hdisk hrange

/-- The slots of two ranges below the mask. -/
theorem diffSlots_bounds :
    (diffSlots (.buffer live) (.fromLibrary library)).Nodup ∧
      (∀ slot, slot ∈ diffSlots (.buffer live) (.fromLibrary library) ↔
        1 ≤ slot.toNat ∧ slot.toNat < max live.rangeEnd library.tokenRange.2) ∧
      ∀ slot ∈ diffSlots (.buffer live) (.fromLibrary library), slot.toNat < 2 ^ 24 := by
  have hend : max (LiveSubIndex.buffer live).end_ (fromLibrary library).rangeEnd ≤ 2 ^ 24 :=
    Nat.max_le.mpr ⟨hrange, hdisk⟩
  have hmem := @mem_diffSlots (.buffer live) (.fromLibrary library) (Nat.le_trans hend (by decide))
  exact ⟨nodup_slotsBelow (Nat.le_trans hend (by decide)), fun slot => hmem, fun slot hslot =>
    Nat.lt_of_lt_of_le (hmem.mp hslot).2 hend⟩

/-- The records below the mask are the edits between the two item maps. -/
theorem Sound.diffLiveRecords_eq (hsound : Sound library) (newTotal : BitVec 32) :
    diffLiveRecords (.buffer live) (.fromLibrary library) newTotal =
      .modifyHeader library.totalFreq newTotal ::
        (diff (mappedBacking library).item live.itemBytes
          (diffSlots (.buffer live) (.fromLibrary library))).map recordOf := by
  obtain ⟨_, _, hmasked⟩ := diffSlots_bounds hdisk hrange
  rw [Replay.diffLiveRecords_eq]
  congr 2
  refine filterMap_congr fun slot hslot => ?_
  rw [hsound.visibleBytes_eq, toNat_masked (hmasked slot hslot)]
  rfl

/-- Neither side has an item behind both ranges. -/
theorem Sound.items_behind (hsound : Sound library) {slot : BitVec 32} (hslot : slot ≠ 0)
    (hout : slot ∉ diffSlots (.buffer live) (.fromLibrary library)) :
    live.itemBytes slot = (mappedBacking library).item slot := by
  obtain ⟨_, hmem, _⟩ := diffSlots_bounds hdisk hrange
  have hne : slot.toNat ≠ 0 := fun hnat => hslot (eq_of_toNat_eq hnat)
  have hbehind : max live.rangeEnd library.tokenRange.2 ≤ slot.toNat := by
    by_contra hlt
    exact hout ((hmem slot).mpr ⟨by omega, Nat.not_le.mp hlt⟩)
  have hword := hsound.word_of_range (Nat.le_trans (Nat.le_max_right _ _) hbehind)
  have hword' := word_of_rangeEnd (by omega) (Nat.le_trans (Nat.le_max_left _ _) hbehind)
  exact (itemBytes_of_word hword').trans (itemBytes_of_word hword).symm

end Ranges

/-- The records from a chunk to a live buffer, replayed on the chunk, leave the items of the
buffer. -/
theorem mergeLog_diffLiveRecords (hsound : Sound library) (hdisk : library.tokenRange.2 ≤ 2 ^ 24)
    (live : ReplayedLibrary) (hlive : live.content.Shaped) (hrange : live.rangeEnd ≤ 2 ^ 24)
    (hsize : (appendOffset (mappedBacking library).content.length).toNat +
      ((diffSlots (.buffer live) (.fromLibrary library)).map fun slot =>
        slotAppended ((mappedBacking library).item slot) (live.itemBytes slot)).sum < 2 ^ 32)
    (merge : Merge) (hmerge : merge.content = .new (mappedBacking library) library.totalFreq)
    (newTotal : BitVec 32) (index : BitVec 8) :
    ∃ after, mergeLog merge ((diffLiveRecords (.buffer live) (.fromLibrary library) newTotal).map .ok) index =
        (after, [], .ok .applied) ∧
      (∀ slot, slot ≠ 0 → after.content.itemBytes slot = live.itemBytes slot) ∧
      after.content.total = newTotal + ((diffSlots (.buffer live) (.fromLibrary library)).map fun slot =>
          slotDelta ((mappedBacking library).item slot) (live.itemBytes slot)).sum := by
  obtain ⟨hnodup, _, hmasked⟩ := diffSlots_bounds hdisk hrange
  obtain ⟨after, hrun, hitems, htotal⟩ := @mergeLog_diff library hsound live.itemBytes
    (fun slot bytes hbytes => exact_of_itemBytes hlive hbytes) _ hnodup hmasked hsize merge _ hmerge newTotal index
  rw [← hsound.diffLiveRecords_eq hdisk hrange] at hrun
  refine ⟨after, hrun, fun slot hslot => ?_, htotal⟩
  rw [hitems slot]
  split_ifs with hin
  · rfl
  · exact (hsound.items_behind hdisk hrange hslot hin).symm

/-- The pair with its first item removed, its second one longer and a third one. -/
def pairEdits : List LiveOp :=
  [.removeItem 1, .removeItem 2, .addItem 2 [2, 0, 9, 0, 0, 0, 2, 0, 0, 0, 3, 0, 0, 0],
    .addItem 3 [1, 0, 4, 0, 0, 0, 7, 0, 0, 0]]

def editedPair : ReplayedLibrary :=
  pairEdits.foldl ReplayedLibrary.step (.fromMapping (mappedBacking pairLibrary) 11)

theorem opened_pairLibrary : replayLog (some pairSystem)
    (.fromMapping (mappedBacking pairLibrary) 11) 1 (logItems []) =
    .ok (.fromMapping (mappedBacking pairLibrary) 11) := by
  rw [replayLog_pairLibrary rfl, Merge.finishLiveOwner, Merge.sortedTouched_eq List.Pairwise.nil]
  rfl

theorem editedPair_mem : editedPair ∈ states step (.fromMapping (mappedBacking pairLibrary) 11) pairEdits := by
  simp only [pairEdits, editedPair, states, foldl_cons, foldl_nil, mem_cons, true_or, or_true]

theorem shaped_editedPair : editedPair.content.Shaped :=
  shaped_run sound_pairLibrary opened_pairLibrary pairEdits editedPair editedPair_mem

set_option maxRecDepth 8000 in
theorem mergeLog_editedPair :
    ∃ after, mergeLog (.new (some (.fromLibrary pairLibrary)))
        ((diffLiveRecords (.buffer editedPair) (.fromLibrary pairLibrary) 20).map .ok) 1 =
          (after, [], .ok .applied) ∧
      (∀ slot, slot ≠ 0 → after.content.itemBytes slot = editedPair.itemBytes slot) ∧
      after.content.total = 20 + ((diffSlots (.buffer editedPair) (.fromLibrary pairLibrary)).map fun slot =>
          slotDelta ((mappedBacking pairLibrary).item slot) (editedPair.itemBytes slot)).sum :=
  mergeLog_diffLiveRecords sound_pairLibrary (by decide) editedPair shaped_editedPair (by decide) (by decide)
    (.new (some (.fromLibrary pairLibrary))) rfl 20 1

/-! ## A range past the mask -/

variable {gap : Nat}

/-- Offsets of slot one and of one behind a gap. -/
def spreadOffsets (gap : Nat) : Bytes := le32 0 ++ le32 8 ++ List.replicate (4 * gap) 0 ++ le32 18

theorem length_spreadOffsets (gap : Nat) : (spreadOffsets gap).length = 4 * (gap + 3) := by
  simp only [spreadOffsets, length_append, length_le32, length_replicate]
  omega

def spreadBacking (gap : Nat) : Backing := ⟨spreadOffsets gap, pairArea⟩

/-- The words of the two items, and of no other slot. -/
theorem word_spread {gap : Nat} (slot : BitVec 32) :
    (spreadBacking gap).word slot =
      if slot.toNat = 1 then 8 else if slot.toNat = gap + 2 then 18 else 0 := by
  have hlength := length_spreadOffsets gap
  have hword : (spreadBacking gap).word slot =
      (if (spreadOffsets gap).length < slot.toNat * 4 + 4 then none
        else word32At (spreadOffsets gap) (slot.toNat * 4)).getD 0 := rfl
  rw [hword, hlength]
  rcases Nat.lt_or_ge (gap + 2) slot.toNat with hout | hin
  · rw [if_pos (by omega), if_neg (by omega), if_neg (by omega), getD_none]
  rw [if_neg (by omega)]
  by_cases hzero : slot.toNat = 0
  · rw [hzero, if_neg (by omega), if_neg (by omega)]
    have hfirst := @word32At_eq (spreadOffsets gap) [] (le32 8 ++ List.replicate (4 * gap) 0 ++ le32 18) 0 (0 * 4)
      (by simp [spreadOffsets]) rfl
    rw [hfirst, getD_some]
  by_cases hone : slot.toNat = 1
  · rw [hone, if_pos rfl]
    have hsecond := @word32At_eq (spreadOffsets gap) (le32 0) (List.replicate (4 * gap) 0 ++ le32 18) 8 (1 * 4)
      (by simp [spreadOffsets]) (by simp)
    rw [hsecond, getD_some]
  rw [if_neg hone]
  by_cases hlast : slot.toNat = gap + 2
  · rw [hlast, if_pos rfl]
    have hend := @word32At_eq (spreadOffsets gap) (le32 0 ++ le32 8 ++ List.replicate (4 * gap) 0) [] 18
      ((gap + 2) * 4) (by simp [spreadOffsets]) (by simp; omega)
    rw [hend, getD_some]
  · rw [if_neg hlast]
    have hsplit : List.replicate (4 * gap) (0 : UInt8) = List.replicate (4 * (slot.toNat - 2)) 0 ++ le32 0 ++
        List.replicate (4 * (gap - (slot.toNat - 2) - 1)) 0 := by
      have hle : le32 0 = List.replicate 4 (0 : UInt8) := by decide
      rw [hle, replicate_append_replicate, replicate_append_replicate]
      congr 1
      omega
    have hmid := @word32At_eq (spreadOffsets gap) (le32 0 ++ le32 8 ++ List.replicate (4 * (slot.toNat - 2)) 0)
      (List.replicate (4 * (gap - (slot.toNat - 2) - 1)) 0 ++ le32 18) 0 (slot.toNat * 4)
      (by rw [spreadOffsets, hsplit]; simp) (by simp; omega)
    rw [hmid, getD_some]

/-- The items of the two slots, and of no other one. -/
theorem item_spread {gap : Nat} (slot : BitVec 32) :
    (spreadBacking gap).item slot =
      if slot.toNat = 1 then some [1, 0, 5, 0, 0, 0, 1, 0, 0, 0]
      else if slot.toNat = gap + 2 then some [1, 0, 6, 0, 0, 0, 2, 0, 0, 0] else none := by
  have hshaped := @Content.shaped_new (spreadBacking gap)
    (by rw [spreadBacking, length_spreadOffsets]; exact ⟨_, rfl⟩) 0
  have hitem : ∀ word : BitVec 32, (spreadBacking gap).word slot = word → word ≠ 0 →
      ∀ len, (new (spreadBacking gap) 0).header word.toNat = .item word.toNat len →
      (spreadBacking gap).item slot = range? pairArea word.toNat (word.toNat + len) := by
    intro word hword hne len hheader
    have hvisible : (new (spreadBacking gap) 0).visible slot = .item word.toNat len := by
      have hcontent : (new (spreadBacking gap) 0).word slot = word := hword
      rw [visible_eq, hcontent, if_neg hne, hheader]
    obtain ⟨_, _, _, _, hend⟩ := hshaped.visible_eq_item.mp hvisible
    rw [Backing.item, itemBytes, hvisible]
    dsimp only
    rw [item, if_neg (Nat.not_lt.mpr hend)]
    rfl
  have hword := @word_spread gap slot
  split_ifs at hword ⊢ with hone hlast
  · rw [hitem 8 hword (by decide) 10 rfl]
    rfl
  · rw [hitem 18 hword (by decide) 10 rfl]
    rfl
  · exact itemBytes_of_word hword

/-- The library of the two items. -/
def spreadLibrary (gap : Nat) : PhraseLibrary := writtenLibrary 11 (spreadOffsets gap) pairArea

/-- The library of the counterexample is sound. -/
theorem sound_spreadLibrary (hgap : gap < 2 ^ 25) : Sound (spreadLibrary gap) := by
  have hlength := length_spreadOffsets gap
  have haligned : 4 ∣ (spreadOffsets gap).length := by rw [hlength]; exact ⟨_, rfl⟩
  have hshaped := @Content.shaped_new (spreadBacking gap) haligned 0
  have hcount : (spreadOffsets gap).length / 4 = gap + 3 := by rw [hlength]; omega
  have hfound : ∀ slot offset len, (spreadBacking gap).visible slot = .item offset len →
      (slot.toNat = 1 ∧ offset = 8 ∨ slot.toNat = gap + 2 ∧ offset = 18) ∧ len = 10 := by
    intro slot offset len hvisible
    obtain ⟨hne, hoffset, _, hlen, _⟩ := hshaped.visible_eq_item.mp hvisible
    have hword := @word_spread gap slot
    have hcontent : (new (spreadBacking gap) 0).word slot = (spreadBacking gap).word slot := rfl
    rw [hcontent] at hne hoffset
    split_ifs at hword with hone hlast
    · rw [hword] at hoffset
      refine ⟨Or.inl ⟨hone, hoffset⟩, ?_⟩
      rw [hlen, hoffset]
      rfl
    · rw [hword] at hoffset
      refine ⟨Or.inr ⟨hlast, hoffset⟩, ?_⟩
      rw [hlen, hoffset]
      rfl
    · exact absurd hword hne
  refine sound_written haligned ?_ (fun i hi hword => ?_) fun i hi j hj hne => ?_
  · rw [length_indexBytes, hlength]
    have harea : pairArea.length = 28 := rfl
    have hindex : indexOne = 17 := rfl
    omega
  · have hitem := @item_spread gap (BitVec.ofNat 32 i)
    rw [← spreadBacking] at hword ⊢
    rw [word_spread] at hword
    have hheld : (spreadBacking gap).held (BitVec.ofNat 32 i) =
      ((spreadBacking gap).item (BitVec.ofNat 32 i)).isSome := rfl
    rw [hheld, hitem]
    split_ifs at hword ⊢
    · rfl
    · rfl
    · exact absurd rfl hword
  · unfold Found.apart
    split
    · rename_i a len b len' ha hb
      obtain ⟨hi', rfl⟩ := hfound _ _ _ ha
      obtain ⟨hj', rfl⟩ := hfound _ _ _ hb
      rw [toNat_ofNat, Nat.mod_eq_of_lt (by omega)] at hi' hj'
      rw [decide_eq_true_eq]
      omega
    · rfl

theorem mappedBacking_spread (hgap : gap < 2 ^ 25) : mappedBacking (spreadLibrary gap) = (spreadBacking gap) := by
  have hlength := length_spreadOffsets gap
  have harea : pairArea.length = 28 := rfl
  have hindex : indexOne = 17 := rfl
  obtain ⟨hoffsets, hitems⟩ := @sections_written 11 (spreadOffsets gap) pairArea (by
    rw [length_indexBytes, hlength]
    omega)
  rw [mappedBacking, spreadLibrary, hoffsets, hitems, spreadBacking]

/-- The buffer of the library as it is. -/
def spreadLive (gap : Nat) : ReplayedLibrary := .fromMapping (mappedBacking (spreadLibrary gap)) 11

theorem spreadLive_eq (hgap : gap < 2 ^ 25) : spreadLive gap = .fromMapping (spreadBacking gap) 11 := by
  rw [spreadLive, mappedBacking_spread hgap]

/-- A range trimmed at its end is no longer. -/
theorem trimEnd_le (library : PhraseLibrary) (n : Nat) : library.trimEnd n ≤ n := by
  induction n with
  | zero => exact Nat.le_refl 0
  | succ n ih =>
    rw [PhraseLibrary.trimEnd]
    split_ifs
    · split
      · split_ifs
        · exact Nat.le_refl _
        · omega
      · omega
    · exact Nat.le_refl _

/-- The ranges of the chunk and of its buffer end behind the second item. -/
theorem diffSlots_spread (hgap : gap < 2 ^ 25) :
    diffSlots (.buffer (spreadLive gap)) (.fromLibrary (spreadLibrary gap)) =
      (range' 1 (gap + 1)).map (BitVec.ofNat 32) ++ [BitVec.ofNat 32 (gap + 2)] := by
  have hlength := length_spreadOffsets gap
  have hslot : (BitVec.ofNat 32 (gap + 2)).toNat = gap + 2 := by
    rw [toNat_ofNat, Nat.mod_eq_of_lt (by omega)]
  have hlive : (spreadLive gap).rangeEnd = gap + 3 := by
    rw [spreadLive_eq hgap]
    have hend : (fromMapping (spreadBacking gap) 11).content.slots.dataEnd / 4 = gap + 2 + 1 := by
      show (spreadOffsets gap).length / 4 = _
      omega
    rw [rangeEnd, hend, trimEnd, if_neg]
    · omega
    · intro hall
      have hword := @word_spread gap (BitVec.ofNat 32 (gap + 2))
      rw [hslot, if_neg (by omega), if_pos rfl] at hword
      have hcontent : (spreadBacking gap).word (BitVec.ofNat 32 (gap + 2)) =
        ((fromMapping (spreadBacking gap) 11).content.slotOffset
          (BitVec.ofNat 32 (gap + 2))).getD 0 := rfl
      rw [hcontent] at hword
      cases hoffset : (fromMapping (spreadBacking gap) 11).content.slotOffset
          (BitVec.ofNat 32 (gap + 2)) with
      | none =>
        rw [hoffset] at hword
        exact absurd hword (by decide)
      | some word =>
        rw [hoffset] at hword hall
        have hzero : word = 0 := of_decide_eq_true hall
        rw [hzero] at hword
        exact absurd hword (by decide)
  have hdisk : (fromLibrary (spreadLibrary gap)).rangeEnd ≤ gap + 3 := by
    have hle := trimEnd_le (spreadLibrary gap) (spreadLibrary gap).slots
    have hslots : (spreadLibrary gap).slots = gap + 3 := by
      show (indexOne + (spreadOffsets gap).length - indexOne) / 4 = gap + 3
      omega
    show max ((spreadLibrary gap).trimEnd (spreadLibrary gap).slots) 1 ≤ gap + 3
    omega
  have hmax : max (LiveSubIndex.buffer (spreadLive gap)).end_
      (fromLibrary (spreadLibrary gap)).rangeEnd - 1 = gap + 1 + 1 := by
    rw [LiveSubIndex.end_, hlive]
    omega
  have hlast : 1 + 1 * (gap + 1) = gap + 2 := by omega
  rw [diffSlots, hmax, range'_concat, map_append, map_cons, map_nil, hlast]

/-- The diff of a chunk and its own buffer, where the second slot masks to the first. -/
theorem diffLiveRecords_spread (hgap : gap + 1 = 2 ^ 24) :
    diffLiveRecords (.buffer (spreadLive gap)) (.fromLibrary (spreadLibrary gap)) 11 =
      [.modifyHeader 11 11, .modify (BitVec.ofNat 32 (gap + 2)) [1, 0, 5, 0, 0, 0, 1, 0, 0, 0]
        [1, 0, 6, 0, 0, 0, 2, 0, 0, 0]] := by
  have hlt : gap < 2 ^ 25 := by omega
  have hsound := sound_spreadLibrary hlt
  have hmask : phraseMask.toNat = 2 ^ 24 - 1 := rfl
  have hlive : ∀ slot, (spreadLive gap).itemBytes slot =
      (spreadBacking gap).item slot := by
    intro slot
    rw [spreadLive_eq hlt]
    rfl
  rw [diffLiveRecords, diffSlots_spread hlt, filterMap_append]
  have hnone : ∀ slot ∈ (range' 1 (gap + 1)).map (BitVec.ofNat 32),
      slotRecord slot ((fromLibrary (spreadLibrary gap)).visibleBytes slot)
        ((LiveSubIndex.buffer (spreadLive gap)).item slot) = none := by
    intro slot hslot
    obtain ⟨i, hi, rfl⟩ := mem_map.mp hslot
    have hin := mem_range'_1.mp hi
    have hnat : (BitVec.ofNat 32 i).toNat = i := by rw [toNat_ofNat, Nat.mod_eq_of_lt (by omega)]
    have hsame : (spreadBacking gap).item (BitVec.ofNat 32 i &&& phraseMask) =
        (spreadBacking gap).item (BitVec.ofNat 32 i) := by
      rw [item_spread, item_spread, toNat_and, hnat, hmask, Nat.and_two_pow_sub_one_eq_mod]
      rcases Nat.lt_or_ge i (2 ^ 24) with hsmall | hbig
      · rw [Nat.mod_eq_of_lt hsmall]
      · have hi : i = 2 ^ 24 := by omega
        rw [hi, Nat.mod_self]
        split_ifs <;> first | rfl | omega
    rw [hsound.visibleBytes_eq, mappedBacking_spread hlt, LiveSubIndex.item, ← mappedBacking_spread hlt, hlive,
      mappedBacking_spread hlt, hsame]
    cases (spreadBacking gap).item (BitVec.ofNat 32 i) with
    | none => rfl
    | some bytes => exact if_neg (not_not.mpr rfl)
  have hlast : (BitVec.ofNat 32 (gap + 2)).toNat = gap + 2 := by
    rw [toNat_ofNat, Nat.mod_eq_of_lt (by omega)]
  have hwrapped : (BitVec.ofNat 32 (gap + 2) &&& phraseMask).toNat = 1 := by
    rw [toNat_and, hlast, hmask, Nat.and_two_pow_sub_one_eq_mod]
    omega
  have hold : (fromLibrary (spreadLibrary gap)).visibleBytes (BitVec.ofNat 32 (gap + 2)) =
      some [1, 0, 5, 0, 0, 0, 1, 0, 0, 0] := by
    rw [hsound.visibleBytes_eq, mappedBacking_spread hlt, item_spread, hwrapped, if_pos rfl]
  have hnew : (LiveSubIndex.buffer (spreadLive gap)).item
      (BitVec.ofNat 32 (gap + 2)) = some [1, 0, 6, 0, 0, 0, 2, 0, 0, 0] := by
    rw [LiveSubIndex.item, hlive, item_spread, hlast, if_neg (by omega), if_pos rfl]
  rw [filterMap_eq_nil_iff.mpr hnone, filterMap_cons, hold, hnew]
  rfl

/-- The record of the second slot, replayed on the chunk, changes the first one. -/
theorem mergeLog_spread (hgap : gap + 1 = 2 ^ 24) (newTotal : BitVec 32) :
    ∃ after, mergeLog (.fromLive (some (.fromLibrary (spreadLibrary gap))) (spreadLive gap))
        (([.modifyHeader 11 newTotal, .modify (BitVec.ofNat 32 (gap + 2)) [1, 0, 5, 0, 0, 0, 1, 0, 0, 0]
          [1, 0, 6, 0, 0, 0, 2, 0, 0, 0]] : List LogRecord).map .ok) 1 = (after, [], .ok .applied) ∧
      after.content.itemBytes 1 ≠ (spreadLive gap).itemBytes 1 := by
  have hlt : gap < 2 ^ 25 := by omega
  have hsound := sound_spreadLibrary hlt
  have hmask : phraseMask.toNat = 2 ^ 24 - 1 := rfl
  have hitem : (mappedBacking (spreadLibrary gap)).item 1 = some [1, 0, 5, 0, 0, 0, 1, 0, 0, 0] := by
    rw [mappedBacking_spread hlt, item_spread]
    exact if_pos rfl
  have hwrapped : BitVec.ofNat 32 (gap + 2) &&& phraseMask = 1 := by
    apply eq_of_toNat_eq
    rw [toNat_and, toNat_ofNat, Nat.mod_eq_of_lt (by omega), hmask, Nat.and_two_pow_sub_one_eq_mod]
    show (gap + 2) % 2 ^ 24 = 1
    omega
  set start := Merge.fromLive (some (.fromLibrary (spreadLibrary gap))) (spreadLive gap) with hstart
  have hcontent : (start.setTotal newTotal).content = .new (mappedBacking (spreadLibrary gap)) newTotal := rfl
  have hholds := hsound.holds newTotal
  rw [← hcontent] at hholds
  obtain ⟨after, happly, hmakes⟩ := @Merge.makes_modify (start.setTotal newTotal) _ _ 1 [] hholds _ hwrapped _
    [1, 0, 6, 0, 0, 0, 2, 0, 0, 0] hitem rfl hsound.length_content
  refine ⟨after, ?_, ?_⟩
  · have hheader : start.applyBackfilling (.modifyHeader 11 newTotal) [] = (start.setTotal newTotal, none) := rfl
    rw [mergeLog, map_cons, map_cons, map_nil, mergeFrom, modifyTokens, filterMap_nil, hheader]
    dsimp only
    rw [mergeFrom, modifyTokens, nil_append, filterMap_cons, filterMap_nil]
    dsimp only
    rw [happly]
    rfl
  · obtain ⟨room, hlast⟩ := hmakes.holds
    have hlive : (spreadLive gap).itemBytes 1 = (mappedBacking (spreadLibrary gap)).item 1 := rfl
    rw [hlast.itemBytes, hlive, hitem, Edit.apply, Edit.key, Edit.new, Function.update_self]
    decide

/-- Two slots that are one to the mask : the chunk's own buffer differs from the chunk, and the
replay writes the item of the one over the other. -/
theorem diffLiveRecords_pastMask :
    Sound (spreadLibrary (2 ^ 24 - 1)) ∧ ∃ after,
      mergeLog (.fromLive (some (.fromLibrary (spreadLibrary (2 ^ 24 - 1))))
        (.fromMapping (mappedBacking (spreadLibrary (2 ^ 24 - 1))) 11))
        ((diffLiveRecords (.buffer (.fromMapping (mappedBacking (spreadLibrary (2 ^ 24 - 1))) 11))
          (.fromLibrary (spreadLibrary (2 ^ 24 - 1))) 11).map .ok) 1 = (after, [], .ok .applied) ∧
      after.content.itemBytes 1 ≠
        (ReplayedLibrary.fromMapping (mappedBacking (spreadLibrary (2 ^ 24 - 1))) 11).itemBytes 1 :=
  ⟨sound_spreadLibrary (by omega), by
    rw [← spreadLive, diffLiveRecords_spread (by omega)]
    exact mergeLog_spread (by omega) 11⟩

end Oxpinyin.Replay
