import Mathlib.Data.List.ReduceOption
import Oxpinyin.GramReads
import Oxpinyin.TextLookup

/-!
# Masking a session

A mask takes the tokens with a value under it out of the index, the phrase table, the libraries
and the grams, one after the other. `check_mask_out` walks what `mask_out` refuses before its
first write. `maskOut_spec` : the two answer alike, a mask that fails leaves the session, and one
that succeeds leaves what `Masked` says. A gram counts its removed records in 32 bits, so the
mask takes one with a multiple of 2^32 of them for untouched (`maskOut_wraps`).
-/

namespace Oxpinyin

open List Option Function LittleEndian FiniteMap ChunkFile SingleGram SortedMap
open RecordTable Container PhraseTableEntry SessionState UserPhraseTable
open BitVec hiding append_assoc

/-! ## The check -/

/-- Fails as a mask would, without changing the session. -/
def UserStore.checkMaskOut {σ φ : Type} (side : PhraseSide σ φ) (store : UserStore σ) (mask value : BitVec 32) :
    Except (UserStoreError φ) Unit :=
  match side.checkMask store.phrases with
  | some fault => .error (.phrases fault)
  | none =>
    match store.container.gramMaskFaultOver store.container.keys mask value with
    | some error => .error error
    | none => .ok ()

/-! ## The libraries -/

namespace Slots

/-- A cleared slot has no offset, in whichever representation. -/
theorem offset_set_zero (slots : Slots) (slot : BitVec 32) :
    (slots.set slot 0).offset = update slots.offset slot none := by
  rw [Slots.set, if_neg (fun h => h.1 rfl)]
  cases slots with
  | sparse offsets =>
    rw [Slots.write, if_pos rfl]
    ext1 other
    rw [Slots.offset, get?_erase, update_apply, update_apply]
    split_ifs
    · rfl
    · rfl
  | dense offsets =>
    rw [Slots.write, if_neg (fun h => h rfl)]
    ext1 other
    rw [Slots.offset, update_apply]
    by_cases hother : other = slot
    · rw [if_pos hother, hother, getElem?_set, if_pos rfl]
      split_ifs
      · rfl
      · rfl
    · rw [if_neg hother, getElem?_set_ne fun heq => hother (eq_of_toNat_eq heq.symm), Slots.offset]

/-- A slot with an offset is among the entries, sorted or not. -/
theorem mem_entries {slots : Slots} {slot offset : BitVec 32} (h : slots.offset slot = some offset) :
    ∃ entry ∈ slots.entries, entry.1 = slot := by
  cases slots with
  | sparse offsets =>
    exact ⟨(slot, offset), (offsets.lists.mem slot offset).mpr (live_eq_some.mp h).1, rfl⟩
  | dense offsets =>
    obtain ⟨hoffset, hzero⟩ := live_eq_some.mp h
    refine ⟨(BitVec.ofNat 32 slot.toNat, offset), mem_filterMap.mpr ⟨(offset, slot.toNat), ?_, if_pos hzero⟩, ?_⟩
    · exact mk_mem_zipIdx_iff_getElem?.mpr hoffset
    · exact eq_of_toNat_eq (by simp)

end Slots

namespace UserLibrary

/-- A removed body leaves the items of the other slots. -/
theorem item_removeBody (library : UserLibrary) (slot : BitVec 32) :
    (library.removeBody slot).1.item = update library.item slot none := by
  rw [removeBody]
  cases hitem : library.item slot with
  | none => exact (update_eq_self_iff.mpr hitem.symm).symm
  | some item =>
    ext1 other
    have hwhole : library.headersOnly = false := by
      by_contra hheaders
      rw [UserLibrary.item, if_pos (eq_true_of_ne_false hheaders)] at hitem
      cases hitem
    unfold UserLibrary.item
    simp only [hwhole, Bool.false_eq_true, if_false, Slots.offset_set_zero, update_apply]
    split_ifs
    · rfl
    · rfl

/-- Every selected item goes and every other one stays, whatever the file held. -/
theorem item_removeMatching (library : UserLibrary) (selected : BitVec 32 → Bool) (slot : BitVec 32) :
    (library.removeMatching selected).item slot = if selected slot then none else library.item slot := by
  have hrun : ∀ (slots : List (BitVec 32)) (library : UserLibrary),
      (slots.foldl (fun library slot => (library.removeBody slot).1) library).item slot =
        if slot ∈ slots then none else library.item slot := by
    intro slots
    induction slots with
    | nil =>
      intro library
      rw [foldl_nil, if_neg not_mem_nil]
    | cons first slots ih =>
      intro library
      rw [foldl_cons, ih, item_removeBody]
      by_cases hfirst : slot = first
      · rw [hfirst, update_self, if_pos mem_cons_self, ite_self]
      · simp [hfirst]
  rw [removeMatching, hrun]
  cases hitem : library.item slot with
  | none => rw [ite_self, ite_self]
  | some item =>
    have hmem : slot ∈ library.items.map Prod.fst := by
      have hoffset : ∃ offset, library.slots.offset slot = some offset := by
        unfold UserLibrary.item at hitem
        split_ifs at hitem
        obtain ⟨offset, hoffset, _⟩ := bind_eq_some_iff.mp hitem
        exact ⟨offset, hoffset⟩
      obtain ⟨offset, hoffset⟩ := hoffset
      obtain ⟨entry, hentry, rfl⟩ := Slots.mem_entries hoffset
      refine mem_map.mpr ⟨(entry.1, item), mem_filterMap.mpr ⟨entry, hentry, ?_⟩, rfl⟩
      rw [hitem, map_some]
    simp only [mem_filter, hmem, true_and]

end UserLibrary

namespace SessionState

variable {s : SessionState} {mask value : BitVec 32}

/-- The item a library's arena has at a slot. -/
def slotItem (s : SessionState) (nibble : BitVec 8) (slot : BitVec 32) : Option PhraseItemView :=
  (s.libraries.get? nibble).bind fun library => library.item slot

theorem takeItemsOut_eq (library : BitVec 8) (unigrams : List (BitVec 32)) : ∀ s : SessionState,
    ∃ items, unigrams.foldl (fun s unigram => s.takeItemOut library unigram) s = { s with items := items } := by
  induction unigrams with
  | nil => exact fun s => ⟨s.items, rfl⟩
  | cons unigram unigrams ih =>
    intro s
    obtain ⟨first, hfirst⟩ := s.takeItemOut_eq library unigram
    obtain ⟨items, hitems⟩ := ih { s with items := first }
    refine ⟨items, ?_⟩
    rw [foldl_cons, hfirst, hitems]

/-- A mask of the libraries edits them and the live buffers only. -/
theorem maskArena_eq (s : SessionState) (mask value : BitVec 32) :
    ∃ items, s.maskArena mask value = { s with
      items := items
      libraries := s.libraries.entries.foldl (fun libraries entry =>
        insert libraries entry.1 (entry.2.removeMatching (selects mask value entry.1))) s.libraries } := by
  have hfold : ∀ (entries : List (BitVec 8 × UserLibrary)) (t : SessionState),
      ∃ items, entries.foldl (maskLibrary mask value) t = { t with
        items := items
        libraries := entries.foldl (fun libraries entry =>
          insert libraries entry.1 (entry.2.removeMatching (selects mask value entry.1))) t.libraries } := by
    intro entries
    induction entries with
    | nil => exact fun t => ⟨t.items, rfl⟩
    | cons entry entries ih =>
      intro t
      obtain ⟨taken, htaken⟩ := takeItemsOut_eq entry.1
        ((entry.2.items.filter fun item => selects mask value entry.1 item.1).map fun item => item.2.unigram) t
      obtain ⟨items, hitems⟩ := ih (maskLibrary mask value t entry)
      refine ⟨items, ?_⟩
      rw [foldl_cons, hitems, foldl_cons]
      unfold maskLibrary
      dsimp only
      rw [htaken, putArena]
  exact hfold s.libraries.entries s

/-- The item of a slot, after a mask. -/
theorem slotItem_maskArena (s : SessionState) (mask value : BitVec 32) (nibble : BitVec 8) (slot : BitVec 32) :
    (s.maskArena mask value).slotItem nibble slot =
      if selects mask value nibble slot then none else s.slotItem nibble slot := by
  obtain ⟨items, hmasked⟩ := s.maskArena_eq mask value
  have hget := get?_foldl_insert
    (fun nibble (library : UserLibrary) => library.removeMatching (selects mask value nibble)) s.libraries
  rw [slotItem, hmasked, hget, slotItem]
  dsimp only
  cases s.libraries.get? nibble with
  | none => exact (ite_self _).symm
  | some library => exact library.item_removeMatching _ slot

end SessionState

/-! ## The phrase table -/

namespace PhraseTableEntry

/-- The loop of a mask, over the tokens not yet tested. -/
theorem maskFrom_flatMap (mask value : BitVec 32) : ∀ rest passed : List (BitVec 32),
    maskFrom mask value rest.length (passed.length * 4) ((passed ++ rest).flatMap le32) =
      (passed ++ rest.filter fun token => token &&& mask != value).flatMap le32
  | [], passed => by
    rw [length_nil, maskFrom]
    rfl
  | token :: rest, passed => by
    have hlength : (passed.flatMap le32).length = passed.length * 4 := length_flatMap_le32 passed
    have hbytes : (passed ++ token :: rest).flatMap le32 =
        passed.flatMap le32 ++ le32 token ++ rest.flatMap le32 := by
      simp
    have hword : word32At ((passed ++ token :: rest).flatMap le32) (passed.length * 4) = some token :=
      word32At_eq hbytes hlength.symm
    rw [length_cons, maskFrom, hword, getD_some]
    by_cases hselected : token &&& mask = value
    · have hcut : removeRange ((passed ++ token :: rest).flatMap le32) (passed.length * 4) (passed.length * 4 + 4) =
          (passed ++ rest).flatMap le32 := by
        rw [hbytes, ← hlength, removeRange_append _ _ _ (by rw [length_le32])]
        simp
      rw [if_pos hselected, hcut, maskFrom_flatMap mask value rest passed, filter_cons_of_neg]
      simp [hselected]
    · have hnext : passed.length * 4 + 4 = (passed ++ [token]).length * 4 := by
        rw [length_append, length_singleton]
        omega
      have happend : passed ++ token :: rest = (passed ++ [token]) ++ rest := by simp
      rw [if_neg hselected, hnext, happend, maskFrom_flatMap mask value rest (passed ++ [token]),
        filter_cons_of_pos (by simpa using hselected), append_assoc]
      rfl

/-- A masked entry of whole tokens has the others, in order. -/
theorem maskOut_tokens {entry : PhraseTableEntry} (h : entry.bytes.length % 4 = 0) (mask value : BitVec 32) :
    (entry.maskOut mask value).bytes.length % 4 = 0 ∧
      (entry.maskOut mask value).tokens = entry.tokens.filter fun token => token &&& mask != value := by
  have hwords : entry.bytes = entry.tokens.flatMap le32 :=
    (flatMap_le32_chunks (Nat.div_mul_cancel (Nat.dvd_of_mod_eq_zero h)).symm).symm
  have hcount : entry.bytes.length / 4 = entry.tokens.length := by rw [tokens, length_map, length_chunks]
  have hmasked : (entry.maskOut mask value).bytes =
      (entry.tokens.filter fun token => token &&& mask != value).flatMap le32 := by
    have hloop := maskFrom_flatMap mask value entry.tokens []
    rw [nil_append, nil_append, length_nil, Nat.zero_mul, ← hwords] at hloop
    rw [maskOut, hcount]
    exact hloop
  refine ⟨?_, ?_⟩
  · rw [hmasked, length_flatMap_le32]
    exact Nat.mul_mod_left ..
  · rw [tokens, hmasked, map_word32_chunks]

end PhraseTableEntry

namespace UserPhraseTable

/-- The records a mask writes : whole tokens, none with the value. -/
theorem passRows_maskRecord (reuse : Bool) (mask value : BitVec 32) : ∀ (entries : List (Bytes × Bytes))
    (walk : Walk),
    walk.failed = none → walk.reused.bytes.length % 4 = 0 → (∀ entry ∈ entries, validate entry.2 = .ok ()) →
    ∀ row ∈ passRows (maskRecord reuse mask value) walk entries,
      ∀ token ∈ PhraseTableEntry.tokens ⟨row.2⟩, token &&& mask ≠ value
  | [], _, _, _, _ => fun row hrow => absurd hrow not_mem_nil
  | entry :: entries, walk, hwalk, hreused, hvalid => by
    have hbytes : entry.2.length % 4 = 0 := by
      by_contra hpartial
      have hentry := hvalid entry mem_cons_self
      rw [validate, if_pos hpartial] at hentry
      cases hentry
    -- the entry the record is masked in is one of whole tokens, with a longer one's tail or not
    obtain ⟨content, hcontent, hrecord⟩ : ∃ content : PhraseTableEntry, content.bytes.length % 4 = 0 ∧
        maskRecord reuse mask value walk entry.1 entry.2 =
          (if reuse then { walk with reused := content.maskOut mask value } else walk,
            (content.maskOut mask value).bytes) := by
      have hok := hvalid entry mem_cons_self
      cases reuse with
      | false =>
        refine ⟨⟨entry.2⟩, hbytes, ?_⟩
        rw [maskRecord, hwalk]
        simp only [Bool.false_eq_true, if_false, fromBytes, hok, Except.map]
      | true =>
        refine ⟨⟨overwrite (if walk.reused.bytes.length < entry.2.length then
          resize walk.reused.bytes entry.2.length 0 else walk.reused.bytes) 0 entry.2⟩, ?_, ?_⟩
        · dsimp only
          split_ifs with hshort
          · rw [length_overwrite _ _ _ (by rw [length_resize]; omega), length_resize]
            exact hbytes
          · rw [length_overwrite _ _ _ (by omega)]
            exact hreused
        · rw [maskRecord, hwalk]
          simp only [if_true, PhraseTableEntry.setContent, hok, Except.map]
    obtain ⟨hwhole, htokens⟩ := PhraseTableEntry.maskOut_tokens hcontent mask value
    have hrest := passRows_maskRecord reuse mask value entries (maskRecord reuse mask value walk entry.1 entry.2).1
      (by rw [hrecord]; split_ifs <;> exact hwalk)
      (by rw [hrecord]; split_ifs; exacts [hwhole, hreused])
      fun other hother => hvalid other (mem_cons_of_mem _ hother)
    intro row hrow
    rw [passRows] at hrow
    rcases mem_cons.mp hrow with rfl | hrow
    · intro token htoken
      dsimp only at htoken
      rw [hrecord, htokens] at htoken
      simpa using (mem_filter.mp htoken).2
    · exact hrest row hrow

variable {phrases : UserPhraseTable}

/-- A table no record of which names a selected token : its arena is made of such records, and
no key reads one while the offsets reach them. -/
structure Unselected (mask value : BitVec 32) (before after : UserPhraseTable) : Prop where
  rows : ∃ rows : List (Bytes × Bytes), rows.map Prod.fst = before.table.merged.map Prod.fst ∧
    (after.table.arena = rows.flatMap fun row => recordBytes row.1 row.2) ∧ after.table.overlay = .empty ∧
    ∀ row ∈ rows, ∀ token ∈ PhraseTableEntry.tokens ⟨row.2⟩, token &&& mask ≠ value
  read : after.table.arena.length < 2 ^ 32 → ∀ key tokens, after.tokens key = .ok tokens →
    ∀ token ∈ tokens, token &&& mask ≠ value

/-- A checked table, masked. -/
theorem unselected_mask (h : phrases.checkMask = .ok ()) (reuse : Bool) (mask value : BitVec 32) :
    Unselected mask value phrases (phrases.mask reuse mask value).1 := by
  have hrows := passRows_maskRecord reuse mask value phrases.table.merged ⟨⟨[]⟩, none⟩ rfl rfl (valid_of_check h)
  have htable : (phrases.mask reuse mask value).1.table =
      (phrases.table.rewriteRecords (maskRecord reuse mask value) ⟨⟨[]⟩, none⟩).2 := rfl
  refine ⟨⟨_, keys_passRows _ _ _, ?_, ?_, hrows⟩, ?_⟩
  · rw [htable, rewriteRecords_eq]
    exact arena_foldl_passStep _ _ _
  · rw [htable, rewriteRecords_eq]
  · intro hroom key tokens htokens
    rw [htable] at hroom
    have harena := arenaRows_rewriteRecords _ _ _ hroom
    rw [UserPhraseTable.tokens, htable, record, rewriteRecords_eq,
      get?_empty] at htokens
    rw [← rewriteRecords_eq] at htokens
    dsimp only at htokens
    split at htokens
    · rw [← Except.ok.inj htokens]
      exact fun token htoken => absurd htoken not_mem_nil
    · rename_i bytes hbytes
      obtain ⟨row, hrow, rfl⟩ := mem_of_arenaRecord hbytes
      rw [harena] at hrow
      unfold fromBytes at htokens
      cases hvalid : validate row.2 with
      | error error =>
        rw [hvalid] at htokens
        cases htokens
      | ok checked =>
        rw [hvalid] at htokens
        rw [← Except.ok.inj htokens]
        exact hrows row hrow

end UserPhraseTable

/-! ## The grams -/

namespace Container

variable {mask value : BitVec 32}

/-- What a mask leaves of a gram whose key it does not select. -/
def leftGram (mask value : BitVec 32) (gram : Bytes) : Option Bytes :=
  let masked := maskOut gram mask value
  if masked.2 = 0 then some gram else if getLength masked.1 = 0 then none else some masked.1

/-- What a mask leaves under a predecessor. -/
def leftRow (mask value prev : BitVec 32) (row : Option Bytes) : Option Bytes :=
  if prev &&& mask = value then none else row.bind (leftGram mask value)

theorem get?_maskKey (mask value prev : BitVec 32) (state : Container × Bool) :
    (maskKey mask value state (some prev)).1.get? =
      update state.1.get? (le32 prev) (leftRow mask value prev (state.1.get? (le32 prev))) := by
  unfold maskKey leftRow
  dsimp only
  split_ifs with hselected
  · exact get?_erase _ _
  · cases hgram : get? state.1 (le32 prev) with
    | none => exact (update_eq_self_iff.mpr hgram.symm).symm
    | some gram =>
      rw [bind_some, leftGram]
      dsimp only
      split_ifs
      · exact (update_eq_self_iff.mpr hgram.symm).symm
      · exact get?_erase _ _
      · exact get?_insert _ _ _

theorem le32_injective : Function.Injective (le32 : BitVec 32 → Bytes) := fun a b h => by
  rw [← word32_le32 a, h, word32_le32]

/-- Each key of a walk is masked once, as it was found. -/
theorem get?_foldl_maskKey (mask value : BitVec 32) : ∀ (prevs : List (BitVec 32)), prevs.Nodup →
    ∀ state : Container × Bool,
      (∀ prev ∈ prevs, ((prevs.map some).foldl (maskKey mask value) state).1.get? (le32 prev) =
        leftRow mask value prev (state.1.get? (le32 prev))) ∧
      ∀ key, (∀ prev ∈ prevs, key ≠ le32 prev) →
        ((prevs.map some).foldl (maskKey mask value) state).1.get? key = state.1.get? key
  | [], _, _ => ⟨fun prev hprev => absurd hprev not_mem_nil, fun _ _ => rfl⟩
  | first :: prevs, hnodup, state => by
    obtain ⟨hfirst, hnodup⟩ := nodup_cons.mp hnodup
    obtain ⟨hmasked, hothers⟩ := get?_foldl_maskKey mask value prevs hnodup (maskKey mask value state (some first))
    rw [get?_maskKey] at hmasked hothers
    have hapart : ∀ prev ∈ prevs, le32 first ≠ le32 prev := fun prev hprev heq =>
      hfirst (le32_injective heq ▸ hprev)
    rw [map_cons, foldl_cons]
    refine ⟨fun prev hprev => ?_, fun key hkey => ?_⟩
    · rcases mem_cons.mp hprev with rfl | hprev
      · rw [hothers _ hapart, update_self]
      · rw [hmasked prev hprev, update_of_ne (hapart prev hprev).symm]
    · rw [hothers key fun prev hprev => hkey prev (mem_cons_of_mem _ hprev), update_of_ne (hkey first mem_cons_self)]

variable {container : Container} {φ : Type}

/-- A container without a fault has tokens for keys. -/
theorem exists_prevs
    (h : (container.gramMaskFaultOver container.keys mask value : Option (UserStoreError φ)) = none) :
    ∃ prevs : List (BitVec 32), container.keys = prevs.map some ∧
      container.entries.map Prod.fst = prevs.map le32 ∧ prevs.Nodup ∧ ∀ prev ∈ prevs, prev &&& mask ≠ value →
        ∀ gram, container.get? (le32 prev) = some gram →
          (gramMaskFault gram mask value : Option (UserStoreError φ)) = none := by
  unfold gramMaskFaultOver at h
  split_ifs at h with hnone
  rw [findSome?_eq_none_iff] at h
  have hlength : ∀ entry ∈ container.entries, entry.1.length = 4 := by
    intro entry hentry
    by_contra hlength
    refine hnone (any_eq_true.mpr ⟨none, mem_map.mpr ⟨entry, hentry, if_neg hlength⟩, rfl⟩)
  have hkeys : container.keys = (container.entries.map fun entry => word32 entry.1).map some := by
    rw [keys, List.map_map]
    exact map_congr_left fun entry hentry => if_pos (hlength entry hentry)
  have hbytes : container.entries.map Prod.fst = (container.entries.map fun entry => word32 entry.1).map le32 := by
    rw [List.map_map]
    exact map_congr_left fun entry hentry => (le32_word32 (hlength entry hentry)).symm
  have hnodup : (container.entries.map Prod.fst).Nodup :=
    pairwise_map.mpr (container.ascending.imp fun hab => FiniteMap.ne_of_lt hab)
  rw [hbytes] at hnodup
  refine ⟨_, hkeys, hbytes, hnodup.of_map _, fun prev hprev hselected gram hgram => ?_⟩
  have hfault := h prev (reduceOption_mem_iff.mpr (hkeys ▸ mem_map_of_mem hprev))
  rw [if_neg hselected, hgram] at hfault
  exact hfault

/-- A masked container, key by key. -/
theorem get?_maskGramsOver
    (h : (container.gramMaskFaultOver container.keys mask value : Option (UserStoreError φ)) = none) :
    (∀ prev, (container.maskGramsOver container.keys mask value).1.get? (le32 prev) =
      leftRow mask value prev (container.get? (le32 prev))) ∧
    (∀ key gram, (container.maskGramsOver container.keys mask value).1.get? key = some gram → key.length = 4) ∧
    ∀ prev gram, prev &&& mask ≠ value → container.get? (le32 prev) = some gram →
      (gramMaskFault gram mask value : Option (UserStoreError φ)) = none := by
  obtain ⟨prevs, hkeys, hbytes, hnodup, hfault⟩ := exists_prevs h
  have hmem : ∀ key gram, container.get? key = some gram → key ∈ prevs.map le32 := by
    intro key gram hgram
    rw [← hbytes]
    exact mem_map.mpr ⟨(key, gram), (container.lists.mem key gram).mpr hgram, rfl⟩
  obtain ⟨hmasked, hothers⟩ := get?_foldl_maskKey mask value prevs hnodup (container, false)
  rw [← hkeys] at hmasked hothers
  have hapart : ∀ key, key ∉ prevs.map le32 → ∀ prev ∈ prevs, key ≠ le32 prev :=
    fun key hkey prev hprev heq => hkey (mem_map.mpr ⟨prev, hprev, heq.symm⟩)
  refine ⟨fun prev => ?_, fun key gram hgram => ?_, fun prev gram hselected hgram => ?_⟩
  · by_cases hprev : le32 prev ∈ prevs.map le32
    · exact hmasked prev ((List.mem_map_of_injective le32_injective).mp hprev)
    · have hnone : container.get? (le32 prev) = none := by
        by_contra hsome
        obtain ⟨gram, hgram⟩ := ne_none_iff_exists'.mp hsome
        exact hprev (hmem _ gram hgram)
      have hkept := hothers _ (hapart _ hprev)
      rw [maskGramsOver, hkept, hnone, leftRow]
      split_ifs
      · rfl
      · rfl
  · by_cases hkey : key ∈ prevs.map le32
    · obtain ⟨prev, _, rfl⟩ := mem_map.mp hkey
      exact length_le32 prev
    · have hkept := hothers key (hapart key hkey)
      rw [maskGramsOver, hkept] at hgram
      exact absurd (hmem key gram hgram) hkey
  · exact hfault prev ((List.mem_map_of_injective le32_injective).mp (hmem _ gram hgram)) hselected gram hgram

/-- A gram without a fault has whole records. -/
theorem exists_items {gram : Bytes} (h : (gramMaskFault gram mask value : Option (UserStoreError φ)) = none) :
    ∃ total items, gram = gramBytes total items [] := by
  unfold gramMaskFault at h
  split_ifs at h with hshort hpartial
  all_goals exact Whole.exists_items ⟨Nat.le_of_not_lt hshort, eq_false_of_ne_true hpartial⟩

/-- What a mask leaves of whole records : the gram as it was where the 32-bit count of the removed
ones is zero, nothing where no record is left, and the others with their total elsewhere. -/
theorem leftGram_gramBytes (mask value total : BitVec 32) (items : List (BitVec 32 × BitVec 32)) :
    leftGram mask value (gramBytes total items []) =
      if 2 ^ 32 ∣ (items.filter fun e => e.1 &&& mask == value).length then some (gramBytes total items [])
      else if (items.filter fun e => e.1 &&& mask != value) = [] then none
      else some (gramBytes (total - ((items.filter fun e => e.1 &&& mask == value).map Prod.snd).sum)
        (items.filter fun e => e.1 &&& mask != value) []) := by
  have hzero : ∀ n : Nat, BitVec.ofNat 32 n = 0 ↔ 2 ^ 32 ∣ n := by
    intro n
    rw [← toNat_inj, toNat_ofNat]
    exact (Nat.dvd_iff_mod_eq_zero ..).symm
  rw [leftGram, maskOut_gramBytes, maskOut_count, getLength_gramBytes (by simp)]
  simp only [hzero, length_eq_zero_iff]

end Container

/-! ## The mask -/

/-- What a mask leaves of a session. -/
structure Masked (mask value : BitVec 32) (before after : UserStore SessionState) : Prop where
  /-- The selected items are gone and the others are as they were. -/
  item : ∀ nibble slot, after.phrases.slotItem nibble slot =
    if SessionState.selects mask value nibble slot then none else before.phrases.slotItem nibble slot
  token : UserPhraseTable.Unselected mask value before.phrases.phraseTable after.phrases.phraseTable
  /-- The keys left are tokens the mask does not select. -/
  key : ∀ key gram, after.container.get? key = some gram → ∃ prev, key = le32 prev ∧ prev &&& mask ≠ value
  /-- No gram is made. -/
  absent : ∀ prev, before.container.gram prev = none → after.container.gram prev = none
  /-- A gram under such a key keeps its other records, in order, and its total without the selected
  ones. It is left as it was where their 32-bit count is zero. -/
  gram : ∀ prev gram, prev &&& mask ≠ value → before.container.gram prev = some gram →
    ∃ total items, gram = gramBytes total items [] ∧ after.container.gram prev =
      if 2 ^ 32 ∣ (items.filter fun e => e.1 &&& mask == value).length then some gram
      else if (items.filter fun e => e.1 &&& mask != value) = [] then none
      else some (gramBytes (total - ((items.filter fun e => e.1 &&& mask == value).map Prod.snd).sum)
        (items.filter fun e => e.1 &&& mask != value) [])
  /-- A gram with a selected successor left is one whose selected records wrap their count. -/
  successor : ∀ prev gram, after.container.gram prev = some gram →
    (∀ e ∈ retrieveAll gram, e.1 &&& mask ≠ value) ∨
      before.container.gram prev = some gram ∧
        2 ^ 32 ∣ ((retrieveAll gram).filter fun e => e.1 &&& mask == value).length

namespace SessionState

variable {s : SessionState}

/-- The phrase side of a mask whose checks pass. -/
theorem mask_spec (h : s.checkMask = none) (entryPerLength reuse : Bool) (mask value : BitVec 32) :
    (∀ nibble slot, (s.mask entryPerLength reuse mask value).1.slotItem nibble slot =
      if selects mask value nibble slot then none else s.slotItem nibble slot) ∧
    UserPhraseTable.Unselected mask value s.phraseTable (s.mask entryPerLength reuse mask value).1.phraseTable := by
  obtain ⟨checked, hcheck⟩ := phraseTable_checked h
  obtain ⟨table, hmask⟩ := mask_of_check hcheck reuse mask value
  have htable := unselected_mask hcheck reuse mask value
  unfold SessionState.mask
  simp only [hmask]
  rw [hmask] at htable
  refine ⟨slotItem_maskArena _ mask value, ?_⟩
  obtain ⟨items, hmasked⟩ := maskArena_eq
    { s with index := s.index.mask entryPerLength mask value, phraseTable := table } mask value
  rw [hmasked]
  exact htable

end SessionState

/-- A mask fails exactly as its check does, and leaves the session when it fails. One that
succeeds leaves no selected item, token, key or successor and everything else as it was, but for
a gram whose selected records wrap their count. -/
theorem maskOut_spec (entryPerLength reuse : Bool) (store : UserStore SessionState) (mask value : BitVec 32) :
    (store.maskOut (sessionSide entryPerLength reuse) mask value).2 =
      store.checkMaskOut (sessionSide entryPerLength reuse) mask value ∧
    ((store.maskOut (sessionSide entryPerLength reuse) mask value).2 ≠ .ok () →
      (store.maskOut (sessionSide entryPerLength reuse) mask value).1 = store) ∧
    ((store.maskOut (sessionSide entryPerLength reuse) mask value).2 = .ok () →
      Masked mask value store (store.maskOut (sessionSide entryPerLength reuse) mask value).1) := by
  unfold UserStore.maskOut UserStore.checkMaskOut
  cases hcheck : (sessionSide entryPerLength reuse).checkMask store.phrases with
  | some fault => exact ⟨rfl, fun _ => rfl, nofun⟩
  | none =>
    dsimp only
    cases hgrams : (store.container.gramMaskFaultOver store.container.keys mask value :
      Option (UserStoreError PhraseError)) with
    | some error => exact ⟨rfl, fun _ => rfl, nofun⟩
    | none =>
      have hmask : ((sessionSide entryPerLength reuse).mask store.phrases mask value).2 = none :=
        SessionState.mask_of_checkMask hcheck entryPerLength reuse mask value
      obtain ⟨hitem, htoken⟩ := @SessionState.mask_spec store.phrases hcheck entryPerLength reuse mask value
      obtain ⟨hrow, hkey, hfault⟩ := Container.get?_maskGramsOver hgrams
      simp only [hmask]
      refine ⟨trivial, fun hfails => absurd rfl hfails, fun _ => ⟨hitem, htoken, ?_, ?_, ?_, ?_⟩⟩
      · intro key gram hgram
        refine ⟨word32 key, (le32_word32 (hkey key gram hgram)).symm, fun hselected => ?_⟩
        have hnone := hrow (word32 key)
        rw [le32_word32 (hkey key gram hgram), Container.leftRow, if_pos hselected] at hnone
        rw [hnone] at hgram
        cases hgram
      · intro prev habsent
        unfold Container.gram at habsent ⊢
        rw [hrow, habsent, Container.leftRow]
        exact ite_self _
      · intro prev gram hselected hgram
        unfold Container.gram at hgram ⊢
        obtain ⟨total, items, rfl⟩ := Container.exists_items (hfault prev gram hselected hgram)
        refine ⟨total, items, rfl, ?_⟩
        rw [hrow, hgram, Container.leftRow, if_neg hselected, bind_some, Container.leftGram_gramBytes]
      · intro prev gram hgram
        unfold Container.gram at hgram ⊢
        rw [hrow, Container.leftRow] at hgram
        split_ifs at hgram with hselected
        obtain ⟨old, hold, hleft⟩ := bind_eq_some_iff.mp hgram
        obtain ⟨total, items, rfl⟩ := Container.exists_items (hfault prev old hselected hold)
        rw [Container.leftGram_gramBytes] at hleft
        split_ifs at hleft with hwraps hnone
        · rw [← some.inj hleft, retrieveAll_gramBytes (by simp)]
          exact .inr ⟨hold, hwraps⟩
        · rw [← some.inj hleft, retrieveAll_gramBytes (by simp)]
          refine .inl fun e he => ?_
          simpa using (mem_filter.mp he).2

/-- A gram with one successor so many times. -/
def crowdedGram (n : Nat) : Bytes := gramBytes 0 (List.replicate n (5, 0)) []

/-- A session whose one gram is such. -/
def crowded (n : Nat) : UserStore SessionState :=
  ⟨openSession, SortedMap.insert .empty (le32 1) (crowdedGram n)⟩

/-- A gram whose selected records wrap their count is taken for one without any. -/
theorem maskOut_crowded {n : Nat} (h : 2 ^ 32 ∣ n) :
    ((crowded n).maskOut (sessionSide true true) 0xffffffff 5).2 = .ok () ∧
      ((crowded n).maskOut (sessionSide true true) 0xffffffff 5).1.container.gram 1 = some (crowdedGram n) := by
  have hall :
      ((replicate n ((5 : BitVec 32), (0 : BitVec 32))).filter fun e => e.1 &&& 0xffffffff == 5).length = n := by
    rw [filter_replicate_of_pos (by decide), length_replicate]
  have hkeys : (crowded n).container.keys = [some 1] := rfl
  have hget : get? (crowded n).container (le32 1) = some (crowdedGram n) := by
    rw [crowded, get?_insert, update_self]
  have hzero : (SingleGram.maskOut (crowdedGram n) 0xffffffff 5).2 = 0 := by
    obtain ⟨k, rfl⟩ := h
    rw [crowdedGram, maskOut_count, hall, ← toNat_inj, toNat_ofNat, Nat.mul_mod_right]
    rfl
  have hfault :
      (gramMaskFault (crowdedGram n) 0xffffffff 5 : Option (UserStoreError PhraseError)) = none := by
    obtain ⟨hlong, hwhole⟩ := whole_gramBytes 0 (replicate n (5, 0))
    rw [gramMaskFault, crowdedGram, if_neg (Nat.not_lt.mpr hlong), hwhole, if_neg Bool.false_ne_true]
    dsimp only
    rw [← crowdedGram, hzero, if_neg fun hpositive => absurd hpositive.1 (by decide)]
  have hgrams : ((crowded n).container.gramMaskFaultOver (crowded n).container.keys 0xffffffff 5 :
      Option (UserStoreError PhraseError)) = none := by
    rw [hkeys, gramMaskFaultOver, if_neg (by decide), show [some (1 : BitVec 32)].reduceOption = [1] from rfl,
      findSome?_singleton, if_neg (by decide), hget]
    exact hfault
  have hopen : checkMask openSession = none := by decide +kernel
  have hcheck : (sessionSide true true).checkMask (crowded n).phrases = none := hopen
  have hmask : ((sessionSide true true).mask (crowded n).phrases 0xffffffff 5).2 = none :=
    mask_of_checkMask hopen true true 0xffffffff 5
  unfold UserStore.maskOut
  simp only [hcheck, hgrams, hmask]
  refine ⟨trivial, ?_⟩
  rw [gram, (get?_maskGramsOver hgrams).1, hget, leftRow, if_neg (by decide),
    bind_some, crowdedGram, leftGram_gramBytes, hall, if_pos h]

/-- A successor the mask selects is left, so often that the count of its records wraps to zero. -/
theorem maskOut_wraps :
    ((crowded (2 ^ 32)).maskOut (sessionSide true true) 0xffffffff 5).2 = .ok () ∧
    ((crowded (2 ^ 32)).maskOut (sessionSide true true) 0xffffffff 5).1.container.gram 1 =
      some (crowdedGram (2 ^ 32)) ∧
    (5, 0) ∈ retrieveAll (crowdedGram (2 ^ 32)) ∧ (5 &&& 0xffffffff : BitVec 32) = 5 := by
  obtain ⟨hok, hleft⟩ := maskOut_crowded (Nat.dvd_refl (2 ^ 32))
  refine ⟨hok, hleft, ?_, by decide⟩
  rw [crowdedGram, retrieveAll_gramBytes (by simp)]
  exact mem_replicate.mpr ⟨by norm_num, rfl⟩

end Oxpinyin
