import Oxpinyin.SessionStore

/-!
# A reading added in place and to a copy

`addReading` writes a frequency over the item's own bytes, or appends a rewritten body and moves
the slot to it. `mergedReading` edits a copy of the bytes. The item read back is the copy
(`readBack_addReading`); only the check of the slot is missing from the second.
-/

namespace Oxpinyin

open List LittleEndian FiniteMap ChunkFile

/-- A slot names the offset it was last set to. -/
theorem Slots.offset_set_self (slots : Slots) (slot : BitVec 32) {offset : BitVec 32} (h : offset ≠ 0) :
    (slots.set slot offset).offset slot = some offset := by
  rw [Slots.set]
  generalize (if offset ≠ 0 ∧ slots.Far slot then slots.toSparse else slots) = table
  cases table with
  | dense offsets =>
    rw [Slots.write, if_pos h, Slots.offset, getElem?_set_self (by rw [length_resize]; omega), live_of_ne h]
  | sparse offsets =>
    rw [Slots.write, if_neg h, Slots.offset, SortedMap.get?_insert, Function.update_self, live_of_ne h]

namespace UserLibrary

variable {library : UserLibrary} {slot : BitVec 32} {item : ChunkItem}

/-- Where bytes are written they lie. -/
theorem setContent_split (content : Bytes) (start : Nat) (bytes : Bytes) :
    ∃ front back, setContent content start bytes = front ++ bytes ++ back ∧ front.length = start := by
  rw [setContent]
  set sized := if content.length < start + bytes.length then resize content (start + bytes.length) 0
    else content with hsized
  have hlength : start + bytes.length ≤ sized.length := by
    rw [hsized]
    split_ifs with hgrow
    · rw [length_resize]
    · exact Nat.le_of_not_lt hgrow
  refine ⟨sized.take start, sized.drop (start + bytes.length), rfl, ?_⟩
  rw [length_take]
  omega

/-- A readable item is in the content where its slot says. -/
theorem split_of_item {view : PhraseItemView} (h : library.item slot = some view) :
    library.headersOnly = false ∧ ∃ item : ChunkItem, item.Fits ∧ view = ⟨bodyBytes item⟩ ∧
      ∃ offset front back, library.slots.offset slot = some offset ∧
        library.content = front ++ bodyBytes item ++ back ∧ front.length = offset.toNat := by
  rw [UserLibrary.item] at h
  split_ifs at h with hwhole
  obtain ⟨offset, hoffset, h⟩ := Option.bind_eq_some_iff.mp h
  obtain ⟨bytes, hbytes, hview⟩ := Option.bind_eq_some_iff.mp h
  obtain ⟨item, hfits, rfl, back, rfl⟩ := fromBytes_eq_some.mp hview
  obtain ⟨front, rest, hcontent, hfront, hstop⟩ := range?_eq_some_iff.mp hbytes
  refine ⟨Bool.eq_false_iff.mpr hwhole, item, hfits, rfl, offset, front, back ++ rest, hoffset, ?_, hfront⟩
  rw [hcontent, append_assoc, append_assoc, append_assoc]

/-- An item in the content at the offset of its slot is the slot's. -/
theorem item_of_split {offset : BitVec 32} {front back : Bytes} (hwhole : library.headersOnly = false)
    (hoffset : library.slots.offset slot = some offset)
    (hcontent : library.content = front ++ bodyBytes item ++ back) (hfront : front.length = offset.toNat)
    (hfits : item.Fits) : library.item slot = some ⟨bodyBytes item⟩ := by
  have hrange : range? library.content offset.toNat library.content.length = some (bodyBytes item ++ back) := by
    have hin : offset.toNat ≤ library.content.length := by
      rw [hcontent, ← hfront, append_assoc, length_append]
      omega
    rw [range?_drop hin, hcontent, ← hfront, append_assoc, drop_left]
  rw [UserLibrary.item, hwhole, if_neg Bool.false_ne_true, hoffset, Option.bind_some, hrange, Option.bind_some,
    fromBytes_bodyBytes hfits]

/-- A slot reads back the body it was given. -/
theorem item_replace (hwhole : library.headersOnly = false) (hslot : slot ≤ phraseMask) (hfits : item.Fits) :
    ∃ edited, library.replace slot (bodyBytes item) = .ok edited ∧ edited.item slot = some ⟨bodyBytes item⟩ := by
  have hview : PhraseItemView.fromBytes (bodyBytes item) = some ⟨bodyBytes item⟩ := by
    have hbody := fromBytes_bodyBytes hfits []
    rwa [append_nil] at hbody
  rw [replace, replacement, if_neg (BitVec.not_lt.mpr hslot), hview]
  refine ⟨_, rfl, ?_⟩
  obtain ⟨front, back, hcontent, hfront⟩ := setContent_split
    (reserved ((library.removeBody slot).1).content) (appendOffset library.content.length).toNat (bodyBytes item)
  have hkept : ((library.removeBody slot).1).headersOnly = false := by
    rw [removeBody]
    split
    · exact hwhole
    · exact hwhole
  change (library.applyReplacement (library.placement slot ⟨bodyBytes item⟩) (bodyBytes item)).item slot = _
  rw [placement, hwhole, if_neg Bool.false_ne_true, applyReplacement, hwhole, if_neg Bool.false_ne_true]
  dsimp only
  rw [if_pos rfl, take_length]
  exact item_of_split hkept (Slots.offset_set_self _ _ (appendOffset_ne_zero _)) hcontent hfront hfits

/-- A slot past the mask takes no body. -/
theorem replace_pastMask (hslot : phraseMask < slot) (bytes : Bytes) :
    library.replace slot bytes = .error "user phrase slot exceeds PHRASE_MASK" := by
  rw [replace, replacement, if_pos hslot]
  rfl

/-- The item's bytes once a reading was added at its slot. -/
def readBack (slot : BitVec 32) (edited : Except String UserLibrary) : Except String (Option Bytes) :=
  edited.map fun library => (library.item slot).map PhraseItemView.bytes

/-- No stored reading has the keys, so that one is appended. -/
def AppendsReading (view : PhraseItemView) (keys : List (BitVec 16)) (delta : BitVec 32) : Prop :=
  view.phraseLength = keys.length ∧ findReading keys delta view.pronunciations 0 0 = none

instance (view : PhraseItemView) (keys : List (BitVec 16)) (delta : BitVec 32) :
    Decidable (AppendsReading view keys delta) := by
  unfold AppendsReading
  infer_instance

/-- The item read back after a reading was added is the merged copy. A slot past the mask is
refused a reading that must be appended. -/
theorem readBack_addReading (library : UserLibrary) (slot : BitVec 32) (keys : List (BitVec 16))
    (delta : BitVec 32) {view : PhraseItemView} (h : library.item slot = some view) :
    readBack slot (library.addReading slot keys delta) =
      if phraseMask < slot ∧ AppendsReading view keys delta then .error "user phrase slot exceeds PHRASE_MASK"
      else (mergedReading view keys delta).map some := by
  obtain ⟨hwhole, item, hfits, rfl, offset, front, back, hoffset, hcontent, hfront⟩ := split_of_item h
  have hshows := shows_bodyBytes hfits
  have happends : AppendsReading ⟨bodyBytes item⟩ keys delta ↔ item.phrase.length = keys.length ∧
      findReading keys delta (item.prons.map fun pron => ⟨pron.1.flatMap le16, pron.2⟩) 0 0 = none := by
    rw [AppendsReading, hshows.phraseLength, hshows.pronunciations]
  rw [addReading, h, mergedReading]
  dsimp only
  rw [hshows.phraseLength, hshows.pronunciations]
  by_cases hkeys : item.phrase.length = keys.length
  · rw [if_neg (not_not.mpr hkeys), if_neg (not_not.mpr hkeys)]
    rcases findReading_eq keys delta item.prons 0 0 with
      ⟨hfind, _⟩ | ⟨before, pron, behind, accepted, hprons, hfind, hadd⟩
    · rw [hfind]
      dsimp only
      rw [pushReading_bodyBytes hfits delta hkeys]
      by_cases hslot : slot ≤ phraseMask
      · obtain ⟨edited, hedited, hitem⟩ := item_replace hwhole hslot (fits_pushReading hfits delta hkeys)
        rw [if_neg fun hpast => absurd hpast.1 (BitVec.not_lt.mpr hslot), hedited, readBack, Except.map, hitem]
        rfl
      · have hpast := BitVec.not_le.mp hslot
        rw [if_pos ⟨hpast, happends.mpr ⟨hkeys, hfind⟩⟩, replace_pastMask hpast]
        rfl
    · have hfound : ¬(phraseMask < slot ∧ AppendsReading ⟨bodyBytes item⟩ keys delta) := by
        intro hpast
        rw [(happends.mp hpast.2).2] at hfind
        cases hfind
      rw [hfind, if_neg hfound]
      dsimp only
      cases accepted with
      | false =>
        rw [if_neg Bool.false_ne_true, if_neg Bool.false_ne_true, readBack, Except.map, h]
        rfl
      | true =>
        have hnew := fits_of_keys hfits (addToReading_keys keys delta hadd)
        rw [if_pos rfl] at hnew
        have hcopy := overwrite_freq hfits hprons [] [] (pron.2 + delta) rfl
        rw [List.length_nil, List.nil_append, List.nil_append, List.append_nil, List.append_nil,
          Nat.zero_add] at hcopy
        have hplace := overwrite_freq hfits hprons front back (pron.2 + delta) rfl
        rw [if_pos rfl, if_pos rfl, hoffset]
        dsimp only
        rw [Nat.zero_add, ← hkeys, hcopy, ← hfront, hcontent, hplace, readBack, Except.map]
        obtain ⟨hnewFits, _⟩ := hnew
        generalize { item with prons := before ++ (pron.1, pron.2 + delta) :: behind } = new at hnewFits ⊢
        have hitem : UserLibrary.item { library with content := front ++ bodyBytes new ++ back } slot =
            some ⟨bodyBytes new⟩ := item_of_split hwhole hoffset rfl hfront hnewFits
        rw [hitem]
        rfl
  · rw [if_pos hkeys, if_pos hkeys, if_neg fun hpast => absurd (happends.mp hpast.2).1 hkeys]
    rfl

/-- One item, its reading read once. -/
def oneReading : UserLibrary :=
  ⟨7, .dense [0, 8], List.replicate 8 0 ++ bodyBytes ⟨[0x4F60], 7, [([0x1234], 1)]⟩, false⟩

theorem readBack_addReading_oneReading :
    oneReading.item 1 = some ⟨bodyBytes ⟨[0x4F60], 7, [([0x1234], 1)]⟩⟩ ∧
      readBack 1 (oneReading.addReading 1 [0x9234] 2) =
        if phraseMask < 1 ∧ AppendsReading ⟨bodyBytes ⟨[0x4F60], 7, [([0x1234], 1)]⟩⟩ [0x9234] 2 then
          .error "user phrase slot exceeds PHRASE_MASK"
        else (mergedReading ⟨bodyBytes ⟨[0x4F60], 7, [([0x1234], 1)]⟩⟩ [0x9234] 2).map some :=
  ⟨by decide +kernel, readBack_addReading oneReading 1 [0x9234] 2 (by decide +kernel)⟩

/-- The items of a chunk with one slot past the mask. -/
def pastMaskItems : List (BitVec 32 × ChunkItem) := [(0x01000000, ⟨[0x4F60], 7, []⟩)]

/-- A chunk with a slot past the mask loads. Its item takes no new reading where the copy does. -/
theorem not_addReading_of_merged :
    ∃ library view bytes, loadPayload (layoutBytes pastMaskItems) = .ok library ∧
      library.item 0x01000000 = some view ∧ mergedReading view [0x1234] 1 = .ok bytes ∧
      library.addReading 0x01000000 [0x1234] 1 = .error "user phrase slot exceeds PHRASE_MASK" := by
  have hascending : pastMaskItems.Pairwise fun a b => a.1 < b.1 := List.pairwise_singleton _ _
  obtain ⟨m, hm⟩ := exists_lists hascending
  have hfits : ∀ entry ∈ pastMaskItems, entry.2.Fits := by
    intro entry hentry
    obtain rfl := List.mem_singleton.mp hentry
    exact ⟨by decide, by decide, by simp⟩
  have hlength : (layoutBytes pastMaskItems).length < 2 ^ 32 := by
    have hcount : slotCount pastMaskItems = 0x01000001 := rfl
    have harea : (entryArea pastMaskItems).length = 18 := rfl
    rw [layoutBytes, length_indexBytes, length_flatMap_le32, length_offsetArray, hcount, harea, indexOne]
    omega
  obtain ⟨library, hload, hreads, _⟩ := loadPayload_layout hm hfits hlength
  have hitem := hreads.item 0x01000000
  rw [(hm.mem 0x01000000 ⟨[0x4F60], 7, []⟩).mp List.mem_cons_self] at hitem
  refine ⟨library, _, _, hload, hitem, rfl, ?_⟩
  rw [addReading, hitem]
  exact replace_pastMask (by decide) _

end UserLibrary

end Oxpinyin
