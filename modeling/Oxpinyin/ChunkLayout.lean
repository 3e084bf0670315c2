import Oxpinyin.ChunkFile
import Oxpinyin.Lib.FiniteMap
import Mathlib.Algebra.BigOperators.Group.List.Basic
import Mathlib.Data.BitVec

/-!
# The layout of a list of items

`layoutBytes` is the payload of a list of items, ascending by slot : the wrapped sum of the
frequencies, an offset for each slot up to the last one and the items, one behind the other.
It is what `buildChunk` writes (`buildChunk_layout`), and `decodeSubPhraseIndex` reads the
list back from it.
-/

namespace Oxpinyin

open List Option LittleEndian Run FiniteMap Except
open BitVec hiding cons_append getElem?_eq_none append_assoc

namespace ChunkFile

/-- The items of a list, one behind the other, with the first eight bytes reserved. -/
def entryArea (items : List (BitVec 32 × ChunkItem)) : Bytes :=
  if items = [] then []
  else List.replicate firstItemOffset 0 ++ items.flatMap fun entry => bodyBytes entry.2

/-- Where a slot's item lies, for items from an offset on. -/
def offsetOf (slot : BitVec 32) : List (BitVec 32 × ChunkItem) → Nat → Option Nat
  | [], _ => none
  | entry :: rest, at_ =>
    if entry.1 = slot then some at_ else offsetOf slot rest (at_ + (bodyBytes entry.2).length)

section

variable (items : List (BitVec 32 × ChunkItem))

/-- The slots up to the last one listed. -/
def slotCount : Nat :=
  (items.getLast?.map fun entry => entry.1.toNat + 1).getD 0

/-- The offset of every slot up to the last one, zero where it has no item. -/
def offsetArray : List (BitVec 32) :=
  (List.range (slotCount items)).map fun i =>
    BitVec.ofNat 32 ((offsetOf (BitVec.ofNat 32 i) items firstItemOffset).getD 0)

/-- The wrapped sum of the frequencies. -/
def unigramSum : BitVec 32 :=
  (items.map fun entry => entry.2.unigram).sum

/-- The payload of a list of items. -/
def layoutBytes : Bytes :=
  indexBytes (unigramSum items) ((offsetArray items).flatMap le32) (entryArea items)

end

/-- A list a payload can hold : ascending slots and items with bytes. -/
structure Listed (items : List (BitVec 32 × ChunkItem)) : Prop where
  ascending : items.Pairwise fun a b => a.1 < b.1
  fits : ∀ entry ∈ items, entry.2.Fits

theorem offsetOf_append (slot : BitVec 32) (item : ChunkItem) (back : List (BitVec 32 × ChunkItem)) :
    ∀ (front : List (BitVec 32 × ChunkItem)) (at_ : Nat), (∀ entry ∈ front, entry.1 ≠ slot) →
      offsetOf slot (front ++ (slot, item) :: back) at_ =
        some (at_ + (front.flatMap fun entry => bodyBytes entry.2).length)
  | [], at_, _ => by simp [offsetOf]
  | entry :: front, at_, hfront => by
    rw [cons_append, offsetOf, if_neg (hfront entry mem_cons_self),
      offsetOf_append slot item back front _ fun e he => hfront e (mem_cons_of_mem _ he),
      flatMap_cons, length_append, Nat.add_assoc]

theorem offsetOf_none (slot : BitVec 32) :
    ∀ (items : List (BitVec 32 × ChunkItem)) (at_ : Nat), (∀ entry ∈ items, entry.1 ≠ slot) →
      offsetOf slot items at_ = none
  | [], _, _ => rfl
  | entry :: rest, at_, hne => by
    rw [offsetOf, if_neg (hne entry mem_cons_self)]
    exact offsetOf_none slot rest _ fun e he => hne e (mem_cons_of_mem _ he)

/-! ## Reading -/

variable {entry : BitVec 32 × ChunkItem} {item : ChunkItem} {m : BitVec 32 → Option ChunkItem}

variable {items : List (BitVec 32 × ChunkItem)} {slot : BitVec 32}

/-- The sections of a payload are its parts. -/
theorem subPhraseIndexSections_indexBytes {total : BitVec 32} {offsets area : Bytes}
    (h : (indexBytes total offsets area).length < 2 ^ 32) :
    subPhraseIndexSections (indexBytes total offsets area) = .ok (total, offsets, area) := by
  obtain ⟨htotal, hone, ⟨two, htwo, htwoNat⟩, ⟨three, hthree, hthreeNat⟩, hlead, hmiddle, hlast,
    hlength, hoffsets, harea⟩ := sections_indexBytes h
  have honeNat : (BitVec.ofNat 32 indexOne).toNat = indexOne := by decide
  rw [subPhraseIndexSections, htotal, hone, htwo, hthree]
  simp only [honeNat, htwoNat, hthreeNat, hlead, hmiddle, hlast, hoffsets, harea, hlength,
    Nat.add_sub_cancel, ne_eq, not_true_eq_false, if_false, or_false, Nat.add_eq_zero_iff,
    Nat.one_ne_zero, and_false, lt_irrefl]

theorem length_offsetArray (items : List (BitVec 32 × ChunkItem)) : (offsetArray items).length = slotCount items := by
  rw [offsetArray, length_map, length_range]

/-- The listed slots are those below the count. -/
theorem Listed.lt_slotCount (h : Listed items) (hentry : entry ∈ items) : entry.1.toNat < slotCount items := by
  rcases eq_nil_or_concat items with rfl | ⟨init, last, rfl⟩
  · cases hentry
  · rw [slotCount, concat_eq_append, getLast?_concat, map_some, getD_some, Nat.lt_succ_iff]
    rw [concat_eq_append] at hentry
    rcases mem_append.mp hentry with hin | hin
    · have hlt := (pairwise_append.mp (concat_eq_append ▸ h.ascending)).2.2 entry hin last (mem_singleton_self _)
      exact Nat.le_of_lt hlt
    · rw [mem_singleton.mp hin]

/-- The item a slot's offset names, over an offset array and the entry area. -/
def itemAt (offsets : List (BitVec 32)) (area : Bytes) (slot : Nat) : Option ChunkItem :=
  (offsets[slot]?).bind fun offset =>
    if offset = 0 then none else (decodePhraseItem (area.drop offset.toNat)).toOption

/-- The area of a list from the place of one of its items on. -/
theorem entryArea_split {front back : List (BitVec 32 × ChunkItem)} (h : Listed items)
    (hitems : items = front ++ (slot, item) :: back) :
    ∃ at_, offsetOf slot items firstItemOffset = some at_ ∧ firstItemOffset ≤ at_ ∧
      at_ + (bodyBytes item).length ≤ (entryArea items).length ∧
      (entryArea items).drop at_ = bodyBytes item ++ back.flatMap fun entry => bodyBytes entry.2 := by
  subst hitems
  have hfront : ∀ entry ∈ front, entry.1 ≠ slot := fun entry hentry =>
    ne_of_lt ((pairwise_append.mp h.ascending).2.2 entry hentry _ mem_cons_self)
  refine ⟨_, offsetOf_append slot item back front firstItemOffset hfront, by omega, ?_, ?_⟩
  · rw [entryArea, if_neg (by simp)]
    simp only [length_append, length_replicate, flatMap_append, flatMap_cons]
    omega
  · have harea : entryArea (front ++ (slot, item) :: back) =
        (List.replicate firstItemOffset 0 ++ front.flatMap fun entry => bodyBytes entry.2) ++
          (bodyBytes item ++ back.flatMap fun entry => bodyBytes entry.2) := by
      rw [entryArea, if_neg (by simp)]
      simp
    rw [harea, drop_left' (by simp)]

/-- Every offset that is not zero names an item. -/
def Readable (offsets : List (BitVec 32)) (area : Bytes) : Prop :=
  ∀ (slot : Nat) (offset : BitVec 32), offsets[slot]? = some offset → offset ≠ 0 →
    offset.toNat ≤ area.length ∧ ∃ item, decodePhraseItem (area.drop offset.toNat) = .ok item

/-- What a slot of a layout holds. -/
theorem offset_layout
    (h : Listed items) (hm : Lists items m) (hlength : (entryArea items).length < 2 ^ 32) (slot : BitVec 32) :
    match m slot with
    | some item => ∃ offset, (offsetArray items)[slot.toNat]? = some offset ∧ offset ≠ 0 ∧
        offset.toNat ≤ (entryArea items).length ∧
        decodePhraseItem ((entryArea items).drop offset.toNat) = .ok item
    | none => ∀ offset, (offsetArray items)[slot.toNat]? = some offset → offset = 0 := by
  cases hget : m slot with
  | some item =>
    have hmem := (hm.mem slot item).mpr hget
    obtain ⟨front, back, hitems⟩ := append_of_mem hmem
    obtain ⟨at_, hoffset, hlow, hhigh, hdrop⟩ := entryArea_split h hitems
    have hword : (BitVec.ofNat 32 at_).toNat = at_ := by
      rw [toNat_ofNat, Nat.mod_eq_of_lt (by omega)]
    have hne : BitVec.ofNat 32 at_ ≠ 0 := by
      intro hzero
      rw [hzero] at hword
      rw [← hword, firstItemOffset] at hlow
      simp at hlow
    have hslot : (offsetArray items)[slot.toNat]? = some (BitVec.ofNat 32 at_) := by
      rw [offsetArray, getElem?_map, getElem?_range (h.lt_slotCount hmem), map_some,
        ofNat_toNat, setWidth_eq, hoffset, getD_some]
    refine ⟨_, hslot, hne, by omega, ?_⟩
    rw [hword, hdrop, decodePhraseItem_bodyBytes (h.fits _ hmem)]
  | none =>
    have hnot : ∀ entry ∈ items, entry.1 ≠ slot := by
      rintro ⟨slot', item⟩ hentry rfl
      rw [(hm.mem _ _).mp hentry] at hget
      cases hget
    intro offset hoffset
    rw [offsetArray, getElem?_map] at hoffset
    obtain ⟨i, hi, rfl⟩ := map_eq_some_iff.mp hoffset
    obtain ⟨hlt, hindex⟩ := List.getElem?_eq_some_iff.mp hi
    rw [getElem_range] at hindex
    rw [← hindex, ofNat_toNat, setWidth_eq, offsetOf_none slot items _ hnot]
    rfl

/-- The layout of a list answers each slot with its item. -/
theorem itemAt_layout
    (h : Listed items) (hm : Lists items m) (hlength : (entryArea items).length < 2 ^ 32)
    (slot : BitVec 32) : itemAt (offsetArray items) (entryArea items) slot.toNat = m slot := by
  have hslot := offset_layout h hm hlength slot
  cases hget : m slot with
  | some item =>
    rw [hget] at hslot
    obtain ⟨offset, hoffset, hne, _, hdecode⟩ := hslot
    rw [itemAt, hoffset, bind_some, if_neg hne, hdecode]
    rfl
  | none =>
    rw [hget] at hslot
    cases hoffset : (offsetArray items)[slot.toNat]? with
    | none => rw [itemAt, hoffset, bind_none]
    | some offset => rw [itemAt, hoffset, bind_some, if_pos (hslot offset hoffset)]

/-- The items of an offset array, by slot. -/
def slotItems (offsets : List (BitVec 32)) (area : Bytes) : List (BitVec 32 × ChunkItem) :=
  (List.range offsets.length).filterMap fun slot =>
    (itemAt offsets area slot).map (Prod.mk (BitVec.ofNat 32 slot))

theorem slotCount_le (items : List (BitVec 32 × ChunkItem)) : slotCount items ≤ 2 ^ 32 := by
  rw [slotCount]
  cases items.getLast? with
  | none => simp
  | some entry =>
    rw [map_some, getD_some]
    exact entry.1.isLt

/-- The items of a layout are the list. -/
theorem slotItems_layout (h : Listed items) (hlength : (entryArea items).length < 2 ^ 32) :
    slotItems (offsetArray items) (entryArea items) = items := by
  obtain ⟨m, hm⟩ := exists_lists h.ascending
  have hslots := @lists_slots _ 32 (offsetArray items).length
    (by rw [length_offsetArray]; exact slotCount_le items) (itemAt (offsetArray items) (entryArea items))
  have hmap : (fun slot : BitVec 32 => if slot.toNat < (offsetArray items).length then
      itemAt (offsetArray items) (entryArea items) slot.toNat else none) = m := by
    ext1 slot
    rw [itemAt_layout h hm hlength]
    split_ifs with hlt
    · rfl
    · rw [← itemAt_layout h hm hlength, itemAt, getElem?_eq_none (Nat.le_of_not_lt hlt), bind_none]
  rw [hmap] at hslots
  exact hslots.unique hm

/-- Where every offset names an item, the eager decoder collects them. -/
theorem decodeSlots_eq {offsets : List (BitVec 32)} {area : Bytes} (h : Readable offsets area) :
    ((offsets.map le32).zipIdx.foldlM (fun items window =>
      (decodeSlot area window.2 window.1).map fun found => items ++ found.toList) []) =
        .ok (slotItems offsets area) := by
  have hslot : ∀ (slot : Nat) (offset : BitVec 32), offsets[slot]? = some offset →
      decodeSlot area slot (le32 offset) =
        .ok ((itemAt offsets area slot).map (Prod.mk (BitVec.ofNat 32 slot))) := by
    intro slot offset hoffset
    by_cases hzero : offset = 0
    · simp [decodeSlot, itemAt, hoffset, hzero]
    · obtain ⟨hin, item, hdecode⟩ := h slot offset hoffset hzero
      have hnat : offset.toNat ≠ 0 := by
        intro hnat
        exact hzero (eq_of_toNat_eq hnat)
      rw [decodeSlot, word32_le32, if_neg hnat, if_neg (by omega), hdecode, itemAt, hoffset,
        bind_some, if_neg hzero, hdecode]
      rfl
  have hcollect := @foldlM_zipIdx_collect _ _ _ (fun window slot => decodeSlot area slot window)
    (fun slot => (itemAt offsets area slot).map (Prod.mk (BitVec.ofNat 32 slot)))
    (offsets.map le32) 0 [] (by
      intro slot window hwindow
      rw [getElem?_map] at hwindow
      obtain ⟨offset, hoffset, rfl⟩ := map_eq_some_iff.mp hwindow
      rw [Nat.zero_add]
      exact hslot slot offset hoffset)
  rw [hcollect, nil_append, length_map, ← range_eq_range', slotItems]

/-- A layout is readable. -/
theorem readable_layout (h : Listed items) (hlength : (entryArea items).length < 2 ^ 32) :
    Readable (offsetArray items) (entryArea items) := by
  obtain ⟨m, hm⟩ := exists_lists h.ascending
  intro slot offset hoffset hne
  have hlt : slot < 2 ^ 32 := by
    obtain ⟨hin, _⟩ := List.getElem?_eq_some_iff.mp hoffset
    rw [length_offsetArray] at hin
    exact Nat.lt_of_lt_of_le hin (slotCount_le items)
  have hword : (BitVec.ofNat 32 slot).toNat = slot := by
    rw [toNat_ofNat, Nat.mod_eq_of_lt hlt]
  have hslot := offset_layout h hm hlength (BitVec.ofNat 32 slot)
  rw [hword, hoffset] at hslot
  cases hget : m (BitVec.ofNat 32 slot) with
  | some item =>
    rw [hget] at hslot
    obtain ⟨_, heq, _, hin, hdecode⟩ := hslot
    obtain rfl := some.inj heq
    exact ⟨hin, item, hdecode⟩
  | none =>
    rw [hget] at hslot
    exact absurd (hslot offset rfl) hne

/-- The eager decoder reads a list back from its layout. -/
theorem decodeSubPhraseIndex_layout (h : Listed items) (hlength : (layoutBytes items).length < 2 ^ 32) :
    decodeSubPhraseIndex (layoutBytes items) = .ok (unigramSum items, items) := by
  have harea : (entryArea items).length < 2 ^ 32 := by
    rw [layoutBytes, length_indexBytes] at hlength
    omega
  have hchunks : chunks 4 ((offsetArray items).flatMap le32) = (offsetArray items).map le32 := by
    have hcut := @chunks_flatten _ 4 (by omega) ((offsetArray items).map le32) [] (by simp) (by simp)
    rwa [append_nil, ← flatMap_def] at hcut
  have hsections := @subPhraseIndexSections_indexBytes (unigramSum items) _ _ hlength
  rw [decodeSubPhraseIndex, layoutBytes, hsections]
  simp only [bind, Except.bind, pure, Except.pure]
  rw [hchunks, decodeSlots_eq (readable_layout h harea), slotItems_layout h harea]

/-! ## Writing -/

/-- What the writer has after a list of items. -/
structure Builds (items : List (BitVec 32 × ChunkItem)) (build : ChunkBuild) : Prop where
  listed : Listed items
  masked : ∀ entry ∈ items, entry.1 ≤ phraseMask
  phrases : ∀ entry ∈ items, entry.2.phrase ≠ []
  content : build.content = entryArea items
  offsets : build.offsets = offsetArray items
  total : build.total = (items.map fun entry => entry.2.unigram.toNat).sum
  lastSlot : build.lastSlot = items.getLast?.map Prod.fst

theorem builds_nil : Builds [] ⟨[], [], 0, none⟩ :=
  ⟨⟨List.Pairwise.nil, by simp⟩, by simp, by simp, rfl, rfl, rfl, rfl⟩

/-- Each reading pushed has a key for each character. -/
theorem pushProns_eq {slot : BitVec 32} {phraseLength : Nat} :
    ∀ {prons : List (List (BitVec 16) × BitVec 32)} {content pushed : Bytes},
      pushProns slot phraseLength content prons = .ok pushed →
      (∀ pron ∈ prons, pron.1.length = phraseLength) ∧ pushed = content ++ prons.flatMap pronBytes
  | [], content, pushed, h => by
    obtain rfl := ok.inj h
    simp
  | pron :: prons, content, pushed, h => by
    rw [pushProns, foldlM_cons] at h
    obtain ⟨next, hnext, hrest⟩ := bind_eq_ok h
    split_ifs at hnext with hkeys
    obtain rfl := ok.inj hnext
    obtain ⟨hall, rfl⟩ := pushProns_eq hrest
    refine ⟨fun p hp => ?_, by simp [pronBytes]⟩
    rcases mem_cons.mp hp with rfl | hp
    · exact not_not.mp hkeys
    · exact hall p hp

theorem slotCount_concat (items : List (BitVec 32 × ChunkItem)) (entry : BitVec 32 × ChunkItem) :
    slotCount (items ++ [entry]) = entry.1.toNat + 1 := by
  rw [slotCount, getLast?_concat, map_some, getD_some]

theorem offsetOf_concat_ne {slot other : BitVec 32} (item : ChunkItem) (hne : other ≠ slot) :
    ∀ (items : List (BitVec 32 × ChunkItem)) (at_ : Nat),
      offsetOf slot (items ++ [(other, item)]) at_ = offsetOf slot items at_
  | [], at_ => offsetOf_none slot [(other, item)] at_ (by simpa using hne)
  | entry :: rest, at_ => by
    rw [cons_append, offsetOf, offsetOf, offsetOf_concat_ne item hne rest]

/-- The offset of any slot, zero past the last one. -/
theorem offsetArray_getD (h : Listed items) {i : Nat} (hi : i < 2 ^ 32) : ((offsetArray items)[i]?).getD 0 =
      BitVec.ofNat 32 ((offsetOf (BitVec.ofNat 32 i) items firstItemOffset).getD 0) := by
  rcases Nat.lt_or_ge i (slotCount items) with hlt | hge
  · rw [offsetArray, getElem?_map, getElem?_range hlt]
    rfl
  · have hnot : ∀ entry ∈ items, entry.1 ≠ BitVec.ofNat 32 i := by
      intro entry hentry heq
      have hlt := h.lt_slotCount hentry
      rw [heq, toNat_ofNat, Nat.mod_eq_of_lt hi] at hlt
      omega
    rw [getElem?_eq_none (by rw [length_offsetArray]; exact hge), offsetOf_none _ items _ hnot]
    rfl

/-- The offsets of a list one entry longer. -/
theorem offsetArray_concat (h : Listed items) (hbelow : ∀ entry ∈ items, entry.1 < slot) :
    offsetArray (items ++ [(slot, item)]) =
      (resize (offsetArray items) (slot.toNat + 1) 0).set slot.toNat
        (BitVec.ofNat 32 (firstItemOffset + (items.flatMap fun entry => bodyBytes entry.2).length)) := by
  have hnew := offsetOf_append slot item [] items firstItemOffset fun e he => ne_of_lt (hbelow e he)
  have hbound := slot.isLt
  refine ext_getElem? fun i => ?_
  rw [getElem?_set, length_resize, offsetArray, slotCount_concat, getElem?_map]
  split_ifs with heq hin
  · subst heq
    rw [getElem?_range hin, map_some, ofNat_toNat, setWidth_eq, hnew, getD_some]
  · omega
  · rcases Nat.lt_or_ge i (slot.toNat + 1) with hlt | hge
    · have hne : slot ≠ BitVec.ofNat 32 i := by
        rintro rfl
        rw [toNat_ofNat] at heq
        omega
      rw [getElem?_range hlt, map_some, offsetOf_concat_ne item hne,
        getElem?_resize _ _ hlt, offsetArray_getD h (by omega)]
    · rw [getElem?_eq_none (by simpa using hge), getElem?_eq_none (by simpa using hge)]
      rfl

/-- The area of a list, its first bytes reserved already. -/
theorem reserve_entryArea (items : List (BitVec 32 × ChunkItem)) :
    reserve (entryArea items) =
      List.replicate firstItemOffset 0 ++ items.flatMap fun entry => bodyBytes entry.2 := by
  by_cases hnil : items = []
  · simp [hnil, entryArea, reserve]
  · rw [entryArea, if_neg hnil, reserve, if_neg (by simp [firstItemOffset])]

theorem below_of_requireAscending {u : Unit}
    (h : Listed items) (hlast : requireAscending (items.getLast?.map Prod.fst) slot = .ok u) :
    ∀ entry ∈ items, entry.1 < slot := by
  rcases eq_nil_or_concat items with rfl | ⟨init, last, rfl⟩
  · simp
  · rw [concat_eq_append] at h hlast ⊢
    rw [getLast?_concat, map_some] at hlast
    have hlt : last.1 < slot := by
      by_contra hge
      rw [requireAscending, filter_some, if_pos (by simpa using hge)] at hlast
      cases hlast
    intro entry hentry
    rcases mem_append.mp hentry with hin | hin
    · exact BitVec.lt_trans ((pairwise_append.mp h.ascending).2.2 entry hin last (mem_singleton_self _)) hlt
    · rw [mem_singleton.mp hin]
      exact hlt

/-- One entry more. -/
theorem Builds.push {build next : ChunkBuild} (h : Builds items build) (hpush : pushItem build entry = .ok next) :
    Builds (items ++ [entry]) next := by
  obtain ⟨slot, item⟩ := entry
  obtain ⟨_, hmask, hpush⟩ := bind_eq_ok hpush
  obtain ⟨_, hlast, hpush⟩ := bind_eq_ok hpush
  obtain ⟨_, hphrase, hpush⟩ := bind_eq_ok hpush
  obtain ⟨_, hprons, hpush⟩ := bind_eq_ok hpush
  obtain ⟨_, hlarge, hpush⟩ := bind_eq_ok hpush
  obtain ⟨pushed, hpushed, hnext⟩ := bind_eq_ok hpush
  obtain rfl := ok.inj hnext
  obtain ⟨hkeys, rfl⟩ := pushProns_eq hpushed
  rw [h.lastSlot] at hlast
  have hbelow := below_of_requireAscending h.listed hlast
  have hphrase' := require_eq_ok hphrase
  have hfits : item.Fits := ⟨hphrase'.2, require_eq_ok hprons, hkeys⟩
  have hall : ∀ {P : BitVec 32 × ChunkItem → Prop}, (∀ e ∈ items, P e) → P (slot, item) →
      ∀ e ∈ items ++ [(slot, item)], P e := by
    intro P hitems hitem e he
    rcases mem_append.mp he with he | he
    · exact hitems e he
    · rw [mem_singleton.mp he]
      exact hitem
  refine ⟨⟨?_, hall h.listed.fits hfits⟩, hall h.masked (require_eq_ok hmask), hall h.phrases ?_, ?_, ?_, ?_, ?_⟩
  · refine pairwise_append.mpr ⟨h.listed.ascending, pairwise_singleton _ _, ?_⟩
    intro e he e' he'
    rw [mem_singleton.mp he']
    exact hbelow e he
  · exact fun hnil => hphrase'.1 (by rw [hnil]; rfl)
  · dsimp only
    rw [h.content, reserve_entryArea, entryArea, if_neg (by simp)]
    simp [bodyBytes]
  · dsimp only
    rw [h.offsets, h.content, reserve_entryArea, offsetArray_concat h.listed hbelow]
    simp
  · dsimp only
    rw [h.total]
    simp
  · simp

theorem Builds.run : ∀ {items done : List (BitVec 32 × ChunkItem)} {build last : ChunkBuild},
    Builds done build → items.foldlM pushItem build = .ok last → Builds (done ++ items) last
  | [], done, build, last, h, hrun => by
    obtain rfl := ok.inj hrun
    rwa [append_nil]
  | entry :: items, done, build, last, h, hrun => by
    rw [foldlM_cons] at hrun
    obtain ⟨next, hnext, hrest⟩ := bind_eq_ok hrun
    have hall := (h.push hnext).run hrest
    rwa [append_assoc] at hall

theorem unigramSum_eq (items : List (BitVec 32 × ChunkItem)) :
    unigramSum items = BitVec.ofNat 32 (items.map fun entry => entry.2.unigram.toNat).sum := by
  induction items with
  | nil => rfl
  | cons entry rest ih =>
    rw [unigramSum, map_cons, sum_cons, ← unigramSum, ih, map_cons, sum_cons,
      ofNat_add, ofNat_toNat, setWidth_eq]

/-- The writer accepts a list only as its layout, framed. -/
theorem buildChunk_layout {file : Bytes} (h : buildChunk items = .ok file) :
    Listed items ∧ (∀ entry ∈ items, entry.1 ≤ phraseMask ∧ entry.2.phrase ≠ []) ∧
      (unigramSum items).toNat = (items.map fun entry => entry.2.unigram.toNat).sum ∧
      (layoutBytes items).length < 2 ^ 32 ∧ buildMemoryChunk (layoutBytes items) = .ok file := by
  obtain ⟨build, hbuild, h⟩ := bind_eq_ok h
  have hbuilds := builds_nil.run hbuild
  rw [nil_append] at hbuilds
  split_ifs at h with htotal
  dsimp only at h
  set payload := le32 (BitVec.ofNat 32 build.total) ++ le32 (BitVec.ofNat 32 indexOne) ++
    le32 (BitVec.ofNat 32 indexOne + u32OrMax (build.offsets.length * 4) + 1) ++
    le32 (BitVec.ofNat 32 indexOne + u32OrMax (build.offsets.length * 4) + 1 +
      u32OrMax build.content.length + 1) ++ [separator] ++ build.offsets.flatMap le32 ++
    [separator] ++ build.content ++ [separator] with hpayload
  cases hframe : buildMemoryChunk payload with
  | error error =>
    rw [hframe] at h
    cases h
  | ok framed =>
    rw [hframe] at h
    obtain rfl := ok.inj h
    have hlength : payload.length < 2 ^ 32 := by
      unfold buildMemoryChunk at hframe
      split_ifs at hframe with hlength
      exact hlength
    have hparts : payload.length = 16 + 1 + build.offsets.length * 4 + 1 + build.content.length + 1 := by
      rw [hpayload]
      simp only [length_append, length_le32, length_singleton, length_flatMap_le32]
    have htwo : BitVec.ofNat 32 indexOne + u32OrMax (build.offsets.length * 4) + 1 =
        BitVec.ofNat 32 (indexOne + (build.offsets.flatMap le32).length + 1) := by
      rw [u32OrMax, if_pos (by omega), length_flatMap_le32, ofNat_add, ofNat_add]
      rfl
    have hthree : BitVec.ofNat 32 indexOne + u32OrMax (build.offsets.length * 4) + 1 +
        u32OrMax build.content.length + 1 =
        BitVec.ofNat 32 (indexOne + (build.offsets.flatMap le32).length + 1 + build.content.length + 1) := by
      have hlast : ∀ a b : Nat, BitVec.ofNat 32 a + BitVec.ofNat 32 b + 1 = BitVec.ofNat 32 (a + b + 1) := by
        intro a b
        rw [ofNat_add (a + b), ofNat_add]
        rfl
      rw [htwo, u32OrMax, if_pos (by omega), hlast]
    have hsame : payload = layoutBytes items := by
      rw [hpayload, hthree, htwo, layoutBytes, indexBytes, unigramSum_eq, ← hbuilds.total,
        ← hbuilds.offsets, ← hbuilds.content]
    refine ⟨hbuilds.listed, fun entry hentry => ⟨hbuilds.masked entry hentry,
      hbuilds.phrases entry hentry⟩, ?_, hsame ▸ hlength, hsame ▸ hframe⟩
    rw [unigramSum_eq, toNat_ofNat, ← hbuilds.total, Nat.mod_eq_of_lt (by omega)]

end ChunkFile

end Oxpinyin
