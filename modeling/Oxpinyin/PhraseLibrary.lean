import Oxpinyin.ChunkLayout
import Oxpinyin.PhraseItem

/-!
# Phrase libraries

The lazy reader of a chunk's payload. `PhraseLibrary.fromPayload` checks the layout and keeps
the ranges of the sections, and `item` reads a token's item where its slot's offset says.

A file `buildChunk` writes is read back by both readers (`buildChunk_readBack`). On any
other payload the two accept the same layouts unless the separators and the order of the
sections hold and exactly one of their own checks fails (`sameSections_iff`).
-/

namespace Oxpinyin

open Option List LittleEndian Run FiniteMap ChunkFile

namespace ChunkFile

/-! ## The library -/

/-- Why a payload is refused. -/
structure LibraryError where
  message : String
  deriving DecidableEq

/-- A payload and the ranges of its sections. -/
structure PhraseLibrary where
  payload : Bytes
  totalFreq : BitVec 32
  offsets : Nat × Nat
  content : Nat × Nat
  layoutFailed : Bool
  deriving DecidableEq

namespace PhraseLibrary

/-- The library of a payload. A separator that is not there leaves an empty one. -/
def fromPayload (payload : Bytes) : Except LibraryError PhraseLibrary :=
  let totalFreq := (word32At payload 0).getD 0
  let failed : PhraseLibrary := ⟨payload, totalFreq, (0, 0), (0, 0), true⟩
  if payload.length < indexOne ∨ payload[indexOne - 1]? ≠ some separator then .ok failed
  else
    match word32At payload 4, word32At payload 8, word32At payload 12 with
    | some one, some two, some three =>
      let indexOne := one.toNat
      let indexTwo := two.toNat
      let indexThree := three.toNat
      if indexTwo = 0 ∨ payload.length ≤ indexTwo - 1 then
        .error ⟨"sub-index offset-array separator out of bounds"⟩
      else if payload[indexTwo - 1]? ≠ some separator then .ok failed
      else if indexThree = 0 ∨ payload.length ≤ indexThree - 1 then
        .error ⟨"sub-index entry-area separator out of bounds"⟩
      else if payload[indexThree - 1]? ≠ some separator then .ok failed
      else if indexTwo ≤ indexOne ∨ indexThree ≤ indexTwo then
        .error ⟨"sub-index sections out of order"⟩
      else if (indexTwo - indexOne - 1) % 4 ≠ 0 then .error ⟨"offset array is not u32-sized"⟩
      else
        .ok ⟨payload, totalFreq, (indexOne, indexTwo - 1), (indexTwo, indexThree - 1), false⟩
    | _, _, _ => .error ⟨"payload too short"⟩

variable (library : PhraseLibrary)

/-- The slots the offset array has. -/
def slots : Nat := (library.offsets.2 - library.offsets.1) / 4

/-- The loop of `tokenRange` : trims the empty slots at the end. -/
def trimEnd : Nat → Nat
  | 0 => 0
  | end_ + 1 =>
    if 1 < end_ + 1 then
      match word32At library.payload (library.offsets.1 + 4 * end_) with
      | some offset => if offset ≠ 0 then end_ + 1 else trimEnd end_
      | none => trimEnd end_
    else end_ + 1

/-- The tokens of the library, from the first to behind the last. -/
def tokenRange : Nat × Nat :=
  (1, max (library.trimEnd library.slots) 1)

/-- The offset of a slot, none outside the array. -/
def slotOffset (slot : Nat) : Option (BitVec 32) :=
  let start := slot * 4 + library.offsets.1
  if library.offsets.2 < start + 4 then none else word32At library.payload start

/-- The item of a slot. -/
def itemAtSlot (slot : Nat) : Option PhraseItemView :=
  (library.slotOffset slot).bind fun word =>
    let offset := word.toNat
    if offset = 0 then none
    else
      (range? library.payload library.content.1 library.content.2).bind fun content =>
        if content.length < offset then none
        else
          let total := PhraseItemView.totalSize ⟨content.drop offset⟩
          (range? content offset (offset + total)).map PhraseItemView.mk

/-- The item of a token. -/
def item (token : BitVec 32) : Option PhraseItemView :=
  library.itemAtSlot (token &&& phraseMask).toNat

/-- The items by slot. -/
def items : List (BitVec 32 × PhraseItemView) :=
  (List.range library.slots).filterMap fun slot =>
    (library.itemAtSlot slot).map (Prod.mk (BitVec.ofNat 32 slot))

/-- The offset array. -/
def offsetArray : Bytes :=
  (range? library.payload library.offsets.1 library.offsets.2).getD []

/-- The entry area. -/
def itemArea : Bytes :=
  (range? library.payload library.content.1 library.content.2).getD []

end PhraseLibrary

open PhraseLibrary

/-! ## The two readers of a payload -/

variable {total : BitVec 32} {offsets area : Bytes}

variable {payload : Bytes} {one two three : BitVec 32}

/-- The layout both readers look for : three header words, a separator before each section's
end and the sections in order. -/
structure Separated (payload : Bytes) (one two three : BitVec 32) : Prop where
  oneWord : word32At payload 4 = some one
  twoWord : word32At payload 8 = some two
  threeWord : word32At payload 12 = some three
  lead : payload[indexOne - 1]? = some separator
  middle : payload[two.toNat - 1]? = some separator
  last : payload[three.toNat - 1]? = some separator
  first_lt : one.toNat < two.toNat
  second_lt : two.toNat < three.toNat

theorem lt_length_of_getElem? {l : Bytes} {i : Nat} {x : UInt8} (h : l[i]? = some x) : i < l.length :=
  (List.getElem?_eq_some_iff.mp h).1

/-- What the eager reader accepts. -/
theorem subPhraseIndexSections_eq_ok :
    subPhraseIndexSections payload = .ok (total, offsets, area) ↔
      ∃ one two three, Separated payload one two three ∧ one.toNat = indexOne ∧
        word32At payload 0 = some total ∧
        range? payload one.toNat (two.toNat - 1) = some offsets ∧
        range? payload two.toNat (three.toNat - 1) = some area := by
  constructor
  · intro h
    unfold subPhraseIndexSections at h
    split at h
    · rename_i hzero hone htwo hthree
      dsimp only at h
      split_ifs at h with hlead hindex hmiddle hlast hpast
      rw [not_or, not_not] at hmiddle hlast
      split at h
      · cases h
      · cases h
      · rename_i offsets' area' hoffsets harea
        obtain ⟨rfl, hparts⟩ := Prod.mk.inj (Except.ok.inj h)
        obtain ⟨rfl, rfl⟩ := Prod.mk.inj hparts
        have hfirst := (range?_bounds hoffsets).1
        have hsecond := (range?_bounds harea).1
        exact ⟨_, _, _, ⟨hone, htwo, hthree, not_not.mp hlead, hmiddle.2, hlast.2, by omega, by omega⟩,
          not_not.mp hindex, hzero, hoffsets, harea⟩
    · cases h
  · rintro ⟨one, two, three, hsep, hindex, hzero, hoffsets, harea⟩
    have hthree := lt_length_of_getElem? hsep.last
    have hfirst := hsep.first_lt
    have hsecond := hsep.second_lt
    rw [subPhraseIndexSections, hzero, hsep.oneWord, hsep.twoWord, hsep.threeWord]
    dsimp only
    rw [if_neg (not_not.mpr hsep.lead), if_neg (not_not.mpr hindex),
      if_neg (not_or.mpr ⟨by omega, not_not.mpr hsep.middle⟩),
      if_neg (not_or.mpr ⟨by omega, not_not.mpr hsep.last⟩), if_neg (by omega), hoffsets, harea]

/-- What the lazy reader accepts. -/
theorem fromPayload_eq_ok {library : PhraseLibrary} :
    (fromPayload payload = .ok library ∧ library.layoutFailed = false) ↔
      ∃ one two three, Separated payload one two three ∧ 4 ∣ two.toNat - one.toNat - 1 ∧
        library = ⟨payload, (word32At payload 0).getD 0, (one.toNat, two.toNat - 1),
          (two.toNat, three.toNat - 1), false⟩ := by
  constructor
  · rintro ⟨h, hok⟩
    unfold fromPayload at h
    dsimp only at h
    split_ifs at h with hlead
    · obtain rfl := Except.ok.inj h
      cases hok
    · rw [not_or, not_not] at hlead
      split at h
      · rename_i hone htwo hthree
        split_ifs at h with htwoIn hmiddle hthreeIn hlast horder hsize
        · obtain rfl := Except.ok.inj h
          cases hok
        · obtain rfl := Except.ok.inj h
          cases hok
        · obtain rfl := Except.ok.inj h
          exact ⟨_, _, _, ⟨hone, htwo, hthree, hlead.2, not_not.mp hmiddle, not_not.mp hlast,
            by omega, by omega⟩, Nat.dvd_of_mod_eq_zero (not_not.mp hsize), rfl⟩
      · cases h
  · rintro ⟨one, two, three, hsep, hsize, rfl⟩
    have hlead := lt_length_of_getElem? hsep.lead
    have htwo := lt_length_of_getElem? hsep.middle
    have hthree := lt_length_of_getElem? hsep.last
    have hfirst := hsep.first_lt
    have hsecond := hsep.second_lt
    have hindex : indexOne = 17 := rfl
    refine ⟨?_, rfl⟩
    unfold fromPayload
    dsimp only
    rw [if_neg (not_or.mpr ⟨by omega, not_not.mpr hsep.lead⟩), hsep.oneWord, hsep.twoWord, hsep.threeWord]
    dsimp only
    rw [if_neg (by omega), if_neg (not_not.mpr hsep.middle), if_neg (by omega),
      if_neg (not_not.mpr hsep.last), if_neg (by omega),
      if_neg (not_not.mpr (Nat.mod_eq_zero_of_dvd hsize))]

section

variable (h : Separated payload one two three)
include h

theorem Separated.unique {one' two' three' : BitVec 32} (h' : Separated payload one' two' three') :
    one = one' ∧ two = two' ∧ three = three' :=
  ⟨some.inj (h.oneWord.symm.trans h'.oneWord), some.inj (h.twoWord.symm.trans h'.twoWord),
    some.inj (h.threeWord.symm.trans h'.threeWord)⟩

/-- On such a layout the eager reader checks the first index only. -/
theorem eager_accepts :
    (∃ sections, subPhraseIndexSections payload = .ok sections) ↔ one.toNat = indexOne := by
  constructor
  · rintro ⟨⟨total, offsets, area⟩, hsections⟩
    obtain ⟨_, _, _, hsep, hindex, _⟩ := subPhraseIndexSections_eq_ok.mp hsections
    rwa [(h.unique hsep).1]
  · intro hindex
    have hlead := lt_length_of_getElem? h.lead
    have hthree := lt_length_of_getElem? h.last
    have hfirst := h.first_lt
    have hsecond := h.second_lt
    have hzero : (word32At payload 0).isSome = true := by
      rw [word32At, range?, if_pos (by rw [indexOne] at hlead; omega)]
      rfl
    obtain ⟨total, htotal⟩ := isSome_iff_exists.mp hzero
    exact ⟨(total, _, _), subPhraseIndexSections_eq_ok.mpr ⟨one, two, three, h, hindex, htotal,
      if_pos (by omega), if_pos (by omega)⟩⟩

/-- On such a layout the lazy reader checks the size of the offset array only. -/
theorem lazy_accepts :
    (∃ library, fromPayload payload = .ok library ∧ library.layoutFailed = false) ↔
      4 ∣ two.toNat - one.toNat - 1 := by
  constructor
  · rintro ⟨library, hlibrary⟩
    obtain ⟨_, _, _, hsep, hsize, _⟩ := fromPayload_eq_ok.mp hlibrary
    obtain ⟨rfl, rfl, rfl⟩ := h.unique hsep
    exact hsize
  · intro hsize
    exact ⟨_, fromPayload_eq_ok.mpr ⟨one, two, three, h, hsize, rfl⟩⟩

end

/-- Both readers accept a payload or neither does, and what they expose is the same. -/
def SameSections (payload : Bytes) : Prop :=
  ((∃ sections, subPhraseIndexSections payload = .ok sections) ↔
    ∃ library, PhraseLibrary.fromPayload payload = .ok library ∧ library.layoutFailed = false) ∧
  ∀ sections library, subPhraseIndexSections payload = .ok sections →
    PhraseLibrary.fromPayload payload = .ok library → library.layoutFailed = false →
    (library.totalFreq, library.offsetArray, library.itemArea) = sections

/-- The two readers agree exactly where the checks of their own agree. -/
theorem sameSections_iff (payload : Bytes) :
    SameSections payload ↔ ∀ one two three, Separated payload one two three →
      (one.toNat = indexOne ↔ 4 ∣ two.toNat - one.toNat - 1) := by
  constructor
  · intro hsame one two three hsep
    rw [← eager_accepts hsep, ← lazy_accepts hsep]
    exact hsame.1
  · intro hchecks
    refine ⟨⟨?_, ?_⟩, ?_⟩
    · rintro ⟨⟨total, offsets, area⟩, hsections⟩
      obtain ⟨one, two, three, hsep, hindex, _⟩ := subPhraseIndexSections_eq_ok.mp hsections
      exact (lazy_accepts hsep).mpr ((hchecks one two three hsep).mp hindex)
    · rintro ⟨library, hlibrary⟩
      obtain ⟨one, two, three, hsep, hsize, _⟩ := fromPayload_eq_ok.mp hlibrary
      exact (eager_accepts hsep).mpr ((hchecks one two three hsep).mpr hsize)
    · rintro ⟨total, offsets, area⟩ library hsections hlibrary hok
      obtain ⟨one, two, three, hsep, _, hzero, hoffsets, harea⟩ :=
        subPhraseIndexSections_eq_ok.mp hsections
      obtain ⟨one', two', three', hsep', _, rfl⟩ := fromPayload_eq_ok.mp ⟨hlibrary, hok⟩
      obtain ⟨rfl, rfl, rfl⟩ := hsep.unique hsep'
      simp [PhraseLibrary.offsetArray, PhraseLibrary.itemArea, hzero, hoffsets, harea]

/-- An offset array of one byte : the eager reader takes it, the lazy one refuses it. -/
theorem not_sameSections : ¬ SameSections [0, 0, 0, 0, 17, 0, 0, 0, 19, 0, 0, 0, 20, 0, 0, 0, 35, 0, 35, 35] := by
  intro h
  obtain ⟨library, hlibrary, _⟩ := h.1.mp ⟨(0, [0], []), rfl⟩
  have hrefused : PhraseLibrary.fromPayload
      [0, 0, 0, 0, 17, 0, 0, 0, 19, 0, 0, 0, 20, 0, 0, 0, 35, 0, 35, 35] =
        .error ⟨"offset array is not u32-sized"⟩ := rfl
  rw [hrefused] at hlibrary
  cases hlibrary

/-! ## The library of a written list -/

/-- The library of written sections. -/
def writtenLibrary (total : BitVec 32) (offsets area : Bytes) : PhraseLibrary :=
  ⟨indexBytes total offsets area, total, (indexOne, indexOne + offsets.length),
    (indexOne + offsets.length + 1, indexOne + offsets.length + 1 + area.length), false⟩

/-- A written payload loads. -/
theorem fromPayload_indexBytes (haligned : 4 ∣ offsets.length)
    (hlength : (indexBytes total offsets area).length < 2 ^ 32) :
    fromPayload (indexBytes total offsets area) = .ok (writtenLibrary total offsets area) := by
  obtain ⟨htotal, hone, ⟨two, htwo, htwoNat⟩, ⟨three, hthree, hthreeNat⟩, hlead, hmiddle, hlast,
    _, _, _⟩ := sections_indexBytes hlength
  have honeNat : (BitVec.ofNat 32 indexOne).toNat = indexOne := by decide
  refine (fromPayload_eq_ok.mpr ⟨_, two, three, ⟨hone, htwo, hthree, hlead, ?_, ?_, ?_, ?_⟩, ?_, ?_⟩).1
  · rw [htwoNat]
    exact hmiddle
  · rw [hthreeNat]
    exact hlast
  · omega
  · omega
  · rw [honeNat, htwoNat]
    omega
  · rw [writtenLibrary, honeNat, htwoNat, hthreeNat, htotal]
    rfl

/-- A written library has the sections it was written with. -/
theorem sections_written {total : BitVec 32} {offsets area : Bytes}
    (hlength : (indexBytes total offsets area).length < 2 ^ 32) :
    (writtenLibrary total offsets area).offsetArray = offsets ∧
      (writtenLibrary total offsets area).itemArea = area := by
  have hsections := sections_indexBytes hlength
  constructor
  · rw [PhraseLibrary.offsetArray]
    exact getD_eq_iff.mpr (Or.inl hsections.offsetRange)
  · rw [itemArea]
    exact getD_eq_iff.mpr (Or.inl hsections.areaRange)

/-- The library of a list's layout. -/
def libraryOf (items : List (BitVec 32 × ChunkItem)) : PhraseLibrary :=
  let offsets := (ChunkFile.offsetArray items).flatMap le32
  ⟨layoutBytes items, unigramSum items, (indexOne, indexOne + offsets.length),
    (indexOne + offsets.length + 1, indexOne + offsets.length + 1 + (entryArea items).length), false⟩

section Layout

variable {items : List (BitVec 32 × ChunkItem)}

theorem fromPayload_layout (hlength : (layoutBytes items).length < 2 ^ 32) :
    fromPayload (layoutBytes items) = .ok (libraryOf items) :=
  fromPayload_indexBytes (by rw [length_flatMap_le32]; exact Nat.dvd_mul_left _ _) hlength

theorem slotOffset_layout (slot : Nat) : (libraryOf items).slotOffset slot = (offsetArray items)[slot]? := by
  have hbytes : layoutBytes items = (le32 (unigramSum items) ++ le32 (BitVec.ofNat 32 indexOne) ++
      le32 (BitVec.ofNat 32 (indexOne + ((offsetArray items).flatMap le32).length + 1)) ++
      le32 (BitVec.ofNat 32 (indexOne + ((offsetArray items).flatMap le32).length + 1 +
        (entryArea items).length + 1)) ++ [separator]) ++ (offsetArray items).flatMap le32 ++
      ([separator] ++ entryArea items ++ [separator]) := by
    simp [layoutBytes, indexBytes]
  have hlength := length_flatMap_le32 (offsetArray items)
  rw [slotOffset, libraryOf]
  dsimp only
  rcases Nat.lt_or_ge slot (offsetArray items).length with hlt | hge
  · rw [if_neg (by omega), getElem?_eq_getElem hlt]
    have hword := word32At_flatMap hbytes (getElem?_eq_getElem hlt)
    rw [← hword]
    congr 1
    simp [indexOne]
    omega
  · rw [if_pos (by omega), getElem?_eq_none hge]

theorem area_lt (hlength : (layoutBytes items).length < 2 ^ 32) : (entryArea items).length < 2 ^ 32 := by
  rw [layoutBytes, length_indexBytes] at hlength
  omega

/-- The items of a written library. -/
theorem itemAtSlot_layout (h : Listed items) (hlength : (layoutBytes items).length < 2 ^ 32) (slot : Nat) :
    (libraryOf items).itemAtSlot slot =
      (itemAt (offsetArray items) (entryArea items) slot).map fun item => ⟨bodyBytes item⟩ := by
  have harea := area_lt hlength
  have hcontent : range? (libraryOf items).payload (libraryOf items).content.1
      (libraryOf items).content.2 = some (entryArea items) :=
    (@sections_indexBytes (unigramSum items) _ _ hlength).areaRange
  rw [itemAtSlot, slotOffset_layout, itemAt]
  cases hoffset : (offsetArray items)[slot]? with
  | none => rfl
  | some offset =>
    rw [bind_some, bind_some]
    by_cases hzero : offset = 0
    · rw [if_pos hzero, if_pos (by rw [hzero]; rfl)]
      rfl
    · have hnat : offset.toNat ≠ 0 := fun hnat => hzero (BitVec.eq_of_toNat_eq hnat)
      obtain ⟨hin, item, hdecode⟩ := readable_layout h harea slot offset hoffset hzero
      obtain ⟨hfits, back, hdrop⟩ := decodePhraseItem_eq_ok.mp hdecode
      have hcut : entryArea items = (entryArea items).take offset.toNat ++ bodyBytes item ++ back := by
        rw [append_assoc, ← hdrop, take_append_drop]
      have hrange : range? (entryArea items) offset.toNat (offset.toNat + (bodyBytes item).length) =
          some (bodyBytes item) := by
        have hat : ((entryArea items).take offset.toNat).length = offset.toNat := by
          rw [length_take]
          omega
        conv_lhs => rw [hcut]
        exact range?_append _ _ _ hat.symm (by rw [hat])
      rw [if_neg hnat, if_neg hzero, hcontent, bind_some, if_neg (by omega), hdecode, hdrop,
        totalSize_bodyBytes hfits]
      dsimp only
      rw [hrange]
      rfl

theorem slots_layout : (libraryOf items).slots = slotCount items := by
  have hlength := length_flatMap_le32 (offsetArray items)
  rw [slots, libraryOf]
  dsimp only
  rw [← length_offsetArray]
  omega

theorem items_layout (h : Listed items) (hlength : (layoutBytes items).length < 2 ^ 32) :
    (libraryOf items).items = items.map fun entry => (entry.1, ⟨bodyBytes entry.2⟩) := by
  have harea := area_lt hlength
  have hslots : (fun slot => ((libraryOf items).itemAtSlot slot).map (Prod.mk (BitVec.ofNat 32 slot))) =
      fun slot => ((itemAt (offsetArray items) (entryArea items) slot).map
        (Prod.mk (BitVec.ofNat 32 slot))).map fun entry => (entry.1, ⟨bodyBytes entry.2⟩) := by
    ext1 slot
    rw [itemAtSlot_layout h hlength, Option.map_map, Option.map_map]
    rfl
  rw [PhraseLibrary.items, slots_layout, ← length_offsetArray, hslots, ← map_filterMap,
    ← slotItems, slotItems_layout h harea]

/-- A library answers a token with the item listed for its slot. -/
theorem item_layout {m : BitVec 32 → Option ChunkItem} (h : Listed items) (hm : Lists items m)
    (hlength : (layoutBytes items).length < 2 ^ 32) (token : BitVec 32) :
    (libraryOf items).item token = (m (token &&& phraseMask)).map fun item => ⟨bodyBytes item⟩ := by
  have harea := area_lt hlength
  rw [item, itemAtSlot_layout h hlength, itemAt_layout h hm harea]

theorem tokenRange_layout (h : Listed items) (hlength : (layoutBytes items).length < 2 ^ 32) :
    (libraryOf items).tokenRange = (1, max (slotCount items) 1) := by
  have harea := area_lt hlength
  have htrim : (libraryOf items).trimEnd (slotCount items) = slotCount items := by
    rcases eq_nil_or_concat items with rfl | ⟨init, last, hitems⟩
    · rfl
    · rw [concat_eq_append] at hitems
      have hcount : slotCount items = last.1.toNat + 1 := by rw [hitems, slotCount_concat]
      obtain ⟨m, hm⟩ := exists_lists h.ascending
      have hget : m last.1 = some last.2 := (hm.mem _ _).mp (by rw [hitems]; simp)
      have hslot := offset_layout h hm harea last.1
      rw [hget] at hslot
      obtain ⟨offset, hoffset, hne, _⟩ := hslot
      rw [← slotOffset_layout, slotOffset] at hoffset
      split_ifs at hoffset with hout
      rw [hcount, trimEnd]
      split_ifs with hone
      · rw [Nat.mul_comm 4, Nat.add_comm _ (last.1.toNat * 4), hoffset]
        exact if_pos hne
      · rfl
  rw [tokenRange, slots_layout, htrim]

end Layout

/-- What both readers answer for a file of a list. -/
structure ReadBack (items : List (BitVec 32 × ChunkItem)) (file : Bytes) : Prop where
  eager : ∃ payload total, readChunkPayload file = .ok payload ∧
    decodeSubPhraseIndex payload = .ok (total, items) ∧
    total.toNat = (items.map fun entry => entry.2.unigram.toNat).sum
  lazy : ∃ payload library, readChunkPayload file = .ok payload ∧
    PhraseLibrary.fromPayload payload = .ok library ∧
    (∀ entry ∈ items, ∀ token, token &&& phraseMask = entry.1 →
      ∃ view, library.item token = some view ∧ view.Shows entry.2) ∧
    (∀ token, (∀ entry ∈ items, entry.1 ≠ token &&& phraseMask) → library.item token = none) ∧
    List.Forall₂ (fun shown entry => shown.1 = entry.1 ∧ shown.2.Shows entry.2) library.items items ∧
    library.tokenRange = (1, (items.getLast?.map fun entry => max (entry.1.toNat + 1) 1).getD 1)

/-- A file of a list is read back by both readers. -/
theorem buildChunk_readBack {items : List (BitVec 32 × ChunkItem)} {file : Bytes}
    (h : buildChunk items = .ok file) : ReadBack items file := by
  obtain ⟨hlisted, hchecked, htotal, hlength, hframe⟩ := buildChunk_layout h
  have hpayload := readChunkPayload_buildMemoryChunk hframe
  obtain ⟨m, hm⟩ := exists_lists hlisted.ascending
  refine ⟨⟨_, _, hpayload, decodeSubPhraseIndex_layout hlisted hlength, htotal⟩,
    ⟨_, libraryOf items, hpayload, fromPayload_layout hlength, ?_, ?_, ?_, ?_⟩⟩
  · rintro ⟨slot, item⟩ hentry token rfl
    refine ⟨⟨bodyBytes item⟩, ?_, shows_bodyBytes (hlisted.fits _ hentry)⟩
    rw [item_layout hlisted hm hlength, (hm.mem _ _).mp hentry, Option.map_some]
  · intro token hnot
    have hnone : m (token &&& phraseMask) = none := by
      cases hget : m (token &&& phraseMask) with
      | none => rfl
      | some item => exact absurd rfl (hnot _ ((hm.mem _ _).mpr hget))
    rw [item_layout hlisted hm hlength, hnone, Option.map_none]
  · rw [items_layout hlisted hlength, List.forall₂_map_left_iff, List.forall₂_same]
    exact fun entry hentry => ⟨rfl, shows_bodyBytes (hlisted.fits _ hentry)⟩
  · rw [tokenRange_layout hlisted hlength, slotCount]
    cases items.getLast? <;> rfl

/-- Two items, a gap between them, and a reading each. -/
theorem buildChunk_readBack_gap : ∃ file,
    buildChunk [(1, ⟨[0x4f60], 3, [([0x1234], 7)]⟩), (3, ⟨[0x597d, 0], 5, []⟩)] = .ok file ∧
      ReadBack [(1, ⟨[0x4f60], 3, [([0x1234], 7)]⟩), (3, ⟨[0x597d, 0], 5, []⟩)] file :=
  ⟨_, rfl, buildChunk_readBack rfl⟩

end ChunkFile

end Oxpinyin
