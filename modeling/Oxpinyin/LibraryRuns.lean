import Mathlib.Data.BitVec
import Mathlib.Data.FinEnum
import Oxpinyin.ItemEdits

/-!
# The user library as a finite map

`ItemMap` says what a library is for : an item for some slots. Started from the empty library,
every sequence of edits that keeps the content below `2 ^ 32` bytes leaves the items of the
map the same edits build, in slot order, and the total of their frequencies (`run_items`).

The invariant is `Holds` : the live items lie in the content apart from each other, so an edit
in place or at the end leaves the bytes of all others (`Blocks.Placed`), and the total lies a
fixed base from the sum of their frequencies.
-/

namespace Oxpinyin

open List Option Function LittleEndian FiniteMap ChunkFile Blocks Run UserLibrary Finset ChunkItem

/-- The items by slot. -/
abbrev ItemMap := BitVec 32 → Option ChunkItem

/-! ## Edits of the map -/

/-- One edit of a library. -/
inductive LibraryOp where
  | replace (slot : BitVec 32) (bytes : Bytes)
  | add (slot : BitVec 32) (bytes : Bytes)
  | remove (slot : BitVec 32)
  | removeMatching (selected : BitVec 32 → Bool)
  | incrementUnigram (slot delta : BitVec 32)
  | addReading (slot : BitVec 32) (keys : List (BitVec 16)) (delta : BitVec 32)
  | train (slot : BitVec 32) (readings : List (List ChewingKey)) (delta : BitVec 32)
  | compact

namespace LibraryOp

/-- The library after an edit. A refused edit leaves it as it is. -/
def apply (library : UserLibrary) : LibraryOp → UserLibrary
  | replace slot bytes => (library.replace slot bytes).toOption.getD library
  | add slot bytes =>
    ((library.prepareAdd slot bytes).map fun prepared => prepared.apply library).toOption.getD library
  | remove slot => (library.remove slot).1
  | removeMatching selected => library.removeMatching selected
  | incrementUnigram slot delta => (library.incrementUnigram slot delta).1
  | addReading slot keys delta => (library.addReading slot keys delta).toOption.getD library
  | train slot readings delta => library.train slot readings delta
  | compact => library.compact

/-- The item a body holds, where a slot may have one. -/
def bodyItem (slot : BitVec 32) (bytes : Bytes) : Option ChunkItem :=
  if slot ≤ phraseMask then (decodePhraseItem bytes).toOption else none

/-- The map after an edit. -/
def onMap (m : ItemMap) : LibraryOp → ItemMap
  | replace slot bytes | add slot bytes => Function.update m slot ((bodyItem slot bytes).or (m slot))
  | remove slot => Function.update m slot none
  | removeMatching selected => fun slot => if selected slot then none else m slot
  | incrementUnigram slot delta =>
    Function.update m slot ((m slot).map fun item => { item with unigram := item.unigram + delta })
  | addReading slot keys delta => Function.update m slot ((m slot).map (·.addReading keys delta))
  | train slot readings delta => Function.update m slot ((m slot).map fun item =>
      readings.foldl (ChunkItem.trainOne delta) item)
  | compact => m

/-- An add is made on an empty slot. -/
def OnEmpty (library : UserLibrary) : LibraryOp → Prop
  | add slot _ => library.item slot = none
  | _ => True

end LibraryOp

open LibraryOp

/-- The frequency an item adds to a total. -/
def unigramOf (item : Option ChunkItem) : BitVec 32 := (item.map ChunkItem.unigram).getD 0

theorem sum_update (m : ItemMap) (slot : BitVec 32) (new : Option ChunkItem) :
    ∑ k, unigramOf (update m slot new k) + unigramOf (m slot) =
      ∑ k, unigramOf (m k) + unigramOf new := by
  rw [← sum_erase_add _ _ (mem_univ slot),
    ← sum_erase_add _ (fun k => unigramOf (m k)) (mem_univ slot), update_self,
    sum_congr rfl fun k hk => by rw [update_of_ne (ne_of_mem_erase hk)]]
  exact add_right_comm _ _ _

/-! ## The invariant -/

namespace UserLibrary

/-- Where the items lie in the content. -/
def blocks (library : UserLibrary) (m : ItemMap) (slot : BitVec 32) : Option (Nat × Bytes) :=
  (m slot).bind fun item => (library.slots.offset slot).map fun offset => (offset.toNat, bodyBytes item)

/-- A library holds the items of a map, with a total that much above their frequencies. -/
structure Holds (library : UserLibrary) (base : BitVec 32) (m : ItemMap) : Prop where
  whole : library.headersOnly = false
  ok : library.slots.Ok
  names : ∀ slot, (library.slots.offset slot).isSome = (m slot).isSome
  fits : ∀ slot item, m slot = some item → item.Fits
  placed : Blocks.Placed library.content (library.blocks m)
  total : library.total = base + ∑ slot, unigramOf (m slot)

/-- The items are those a map lists, where the map says what each slot holds. -/
theorem items_eq {library : UserLibrary} {m : ItemMap} {entries : List (BitVec 32 × ChunkItem)}
    (hok : library.slots.Ok) (hitem : ∀ slot, library.item slot = (m slot).map fun item => ⟨bodyBytes item⟩)
    (hm : Lists entries m) : library.items = entries.map fun entry => (entry.1, ⟨bodyBytes entry.2⟩) := by
  have hvalues := hok.lists.values fun slot item (hget : m slot = some item) => by
    have hsome := hitem slot
    rw [hget, map_some, UserLibrary.item] at hsome
    split_ifs at hsome
    obtain ⟨offset, hoffset, _⟩ := bind_eq_some_iff.mp hsome
    rw [hoffset]
    rfl
  rw [← hvalues.unique hm, items, map_filterMap]
  refine filterMap_congr fun entry _ => ?_
  rw [hitem, Option.map_map, Option.map_map]
  rfl

/-- Bytes written at the end. -/
theorem setContent_length (content bytes : Bytes) : setContent content content.length bytes = content ++ bytes := by
  rw [setContent]
  split_ifs with hgrow
  · have hresize : resize content (content.length + bytes.length) 0 =
        content ++ replicate bytes.length 0 ++ [] := by
      rw [resize, take_of_length_le (by omega), Nat.add_sub_cancel_left, append_nil]
    rw [hresize, overwrite_append _ _ _ _ (by rw [length_replicate]), append_nil]
  · have hnil : bytes = [] := eq_nil_of_length_eq_zero (by omega)
    rw [hnil, overwrite]
    simp

namespace Holds

variable {library : UserLibrary} {base : BitVec 32} {m : ItemMap} {slot : BitVec 32} {old item : ChunkItem}

/-- A live item in the content. -/
theorem split (h : library.Holds base m) (hget : m slot = some item) :
    ∃ offset front back, library.slots.offset slot = some offset ∧
      library.content = front ++ bodyBytes item ++ back ∧ front.length = offset.toNat := by
  have hnames := h.names slot
  rw [hget, isSome_some] at hnames
  obtain ⟨offset, hoffset⟩ := isSome_iff_exists.mp hnames
  obtain ⟨front, back, hcontent, hfront⟩ := h.placed.holds slot offset.toNat (bodyBytes item)
    (by rw [blocks, hget, hoffset]; rfl)
  exact ⟨offset, front, back, hoffset, hcontent, hfront⟩

/-- The items are those of the map. -/
theorem item_eq (h : library.Holds base m) (slot : BitVec 32) :
    library.item slot = (m slot).map fun item => ⟨bodyBytes item⟩ := by
  rw [item, h.whole, if_neg Bool.false_ne_true]
  cases hget : m slot with
  | none =>
    have hnames := h.names slot
    rw [hget, isSome_none, isSome_eq_false_iff, isNone_iff_eq_none] at hnames
    rw [hnames]
    rfl
  | some item =>
    obtain ⟨offset, front, back, hoffset, hcontent, hfront⟩ := h.split hget
    have hrange : range? library.content offset.toNat library.content.length =
        some (bodyBytes item ++ back) := by
      have happend := range?_append front (bodyBytes item ++ back) [] hfront.symm rfl
      rwa [append_nil, ← append_assoc, ← length_append, ← append_assoc,
        ← hcontent] at happend
    rw [hoffset, bind_some, hrange, bind_some, fromBytes_bodyBytes (h.fits slot item hget), map_some]

theorem offset_eq_none (h : library.Holds base m) (hget : m slot = none) : library.slots.offset slot = none := by
  have hnames := h.names slot
  rwa [hget, isSome_none, isSome_eq_false_iff, isNone_iff_eq_none] at hnames

/-- An edit of one slot keeps the invariant when its block is placed and the total follows. -/
theorem update {edited : UserLibrary} {new : Option ChunkItem} {offset : Option (BitVec 32)}
    (h : library.Holds base m) (hwhole : edited.headersOnly = false) (hok : edited.slots.Ok)
    (hslots : edited.slots.offset = update library.slots.offset slot offset)
    (hsome : offset.isSome = new.isSome) (hfits : ∀ item, new = some item → item.Fits)
    (hplaced : Blocks.Placed edited.content (update (library.blocks m) slot
      (new.bind fun item => offset.map fun offset => (offset.toNat, bodyBytes item))))
    (htotal : edited.total + unigramOf (m slot) = library.total + unigramOf new) :
    edited.Holds base (update m slot new) := by
  have hblocks : edited.blocks (Function.update m slot new) = Function.update (library.blocks m) slot
      (new.bind fun item => offset.map fun offset => (offset.toNat, bodyBytes item)) := by
    ext1 k
    rw [blocks, hslots]
    by_cases hk : k = slot
    · rw [hk, update_self, update_self, update_self]
    · rw [update_of_ne hk, update_of_ne hk, update_of_ne hk, blocks]
  refine ⟨hwhole, hok, fun k => ?_, fun k item hk => ?_, ?_, ?_⟩
  · rw [hslots]
    by_cases hkslot : k = slot
    · rw [hkslot, update_self, update_self, hsome]
    · rw [update_of_ne hkslot, update_of_ne hkslot, h.names]
  · by_cases hkslot : k = slot
    · rw [hkslot, update_self] at hk
      exact hfits item hk
    · rw [update_of_ne hkslot] at hk
      exact h.fits k item hk
  · rw [hblocks]
    exact hplaced
  · have hsum := sum_update m slot new
    rw [h.total, add_assoc, ← hsum, ← add_assoc] at htotal
    exact add_right_cancel htotal

/-- A slot's item taken out. Its bytes stay in the content. -/
theorem removeBody (h : library.Holds base m) (slot : BitVec 32) :
    (library.removeBody slot).1.Holds base (Function.update m slot none) ∧
      (library.removeBody slot).1.content = library.content := by
  rw [UserLibrary.removeBody, h.item_eq]
  cases hget : m slot with
  | none =>
    have hsame := update_eq_self slot m
    rw [hget] at hsame
    rw [hsame]
    exact ⟨h, rfl⟩
  | some old =>
    rw [map_some]
    dsimp only
    obtain ⟨hok, hoffset⟩ := h.ok.set slot 0
    have hunigram := (shows_bodyBytes (h.fits slot old hget)).unigram
    refine ⟨h.update h.whole hok (hoffset.trans (by rw [if_pos rfl])) rfl
      (fun item hitem => by cases hitem) (h.placed.drop slot) ?_, rfl⟩
    rw [hget, hunigram]
    exact (sub_add_cancel _ _).trans (add_zero _).symm

/-- A slot's item written over in place. -/
theorem rewrite {offset total : BitVec 32} {front back : Bytes} (h : library.Holds base m)
    (hget : m slot = some old) (hoffset : library.slots.offset slot = some offset)
    (hcontent : library.content = front ++ bodyBytes old ++ back) (hfront : front.length = offset.toNat)
    (hfits : item.Fits) (hlength : (bodyBytes item).length = (bodyBytes old).length)
    (htotal : total + old.unigram = library.total + item.unigram) :
    Holds { library with content := front ++ bodyBytes item ++ back, total := total } base
      (Function.update m slot (some item)) := by
  have hblock : library.blocks m slot = some (front.length, bodyBytes old) := by
    rw [blocks, hget, hoffset, hfront]
    rfl
  have hplaced := h.placed
  rw [hcontent] at hplaced
  refine h.update h.whole h.ok (update_eq_self slot _).symm ?_ (fun new hnew => ?_) ?_ ?_
  · rw [hoffset]
    rfl
  · exact some.inj hnew ▸ hfits
  · rw [hoffset, bind_some, map_some, ← hfront]
    exact hplaced.rewrite hblock hlength
  · rw [hget]
    exact htotal

/-- An item goes behind the content, or behind the first eight bytes of an empty one. -/
theorem setContent_appendOffset {content : Bytes} (hroom : content.length < 2 ^ 32) (bytes : Bytes) :
    ∃ gap back, setContent (reserved content) (appendOffset content.length).toNat bytes =
        content ++ gap ++ bytes ++ back ∧
      (appendOffset content.length).toNat = (content ++ gap).length ∧ appendOffset content.length ≠ 0 := by
  have hnat : (BitVec.ofNat 32 content.length).toNat = content.length := by
    rw [BitVec.toNat_ofNat, Nat.mod_eq_of_lt hroom]
  by_cases hnil : content = []
  · subst hnil
    refine ⟨replicate 8 0, [], ?_, rfl, by decide⟩
    rw [append_nil]
    exact setContent_length (replicate 8 0) bytes
  · have hpos := length_pos_of_ne_nil hnil
    have hne : BitVec.ofNat 32 content.length ≠ 0 := by
      intro hzero
      rw [hzero] at hnat
      simp at hnat
      omega
    have hoffset : appendOffset content.length = BitVec.ofNat 32 content.length := if_neg hne
    rw [hoffset, hnat]
    refine ⟨[], (replicate (8 - content.length) 0).drop bytes.length, ?_, by rw [append_nil], hne⟩
    rw [append_nil]
    by_cases hsized : 8 ≤ content.length
    · rw [reserved, if_neg (by omega), setContent_length, Nat.sub_eq_zero_of_le hsized]
      simp
    · have hreserved : reserved content = content ++ replicate (8 - content.length) 0 := by
        rw [reserved, if_pos (by omega), resize, take_of_length_le (by omega)]
      rw [hreserved, setContent]
      split_ifs with hgrow
      · rw [length_append, length_replicate] at hgrow
        have hresize : resize (content ++ replicate (8 - content.length) 0) (content.length + bytes.length) 0 =
            content ++ replicate bytes.length 0 ++ [] := by
          rw [resize, take_of_length_le (by rw [length_append, length_replicate]; omega),
            length_append, length_replicate, append_assoc, ← replicate_add, append_nil]
          congr 2
          omega
        rw [hresize, overwrite_append _ _ _ _ (by rw [length_replicate]),
          drop_eq_nil_of_le (by rw [length_replicate]; omega)]
      · rw [length_append, length_replicate] at hgrow
        have hsplit : replicate (8 - content.length) (0 : UInt8) =
            replicate bytes.length 0 ++ (replicate (8 - content.length) 0).drop bytes.length := by
          rw [drop_replicate, ← replicate_add]
          congr 1
          omega
        have hall := overwrite_append content (replicate bytes.length 0)
          ((replicate (8 - content.length) 0).drop bytes.length) bytes (by rw [length_replicate])
        rw [append_assoc, ← hsplit] at hall
        exact hall

section

variable (h : library.Holds base m)
include h

/-- An item added to an empty slot. -/
theorem write (hget : m slot = none) (hroom : library.content.length < 2 ^ 32) (hfits : item.Fits) :
    Holds { library with
        content := setContent (reserved library.content) (appendOffset library.content.length).toNat
          (bodyBytes item)
        slots := library.slots.set slot (appendOffset library.content.length)
        total := library.total + item.unigram } base (Function.update m slot (some item)) := by
  obtain ⟨gap, back, hcontent, hoffset, hne⟩ := setContent_appendOffset hroom (bodyBytes item)
  obtain ⟨hok, hset⟩ := h.ok.set slot (appendOffset library.content.length)
  rw [if_neg hne] at hset
  refine h.update h.whole hok hset rfl (fun new hnew => some.inj hnew ▸ hfits) ?_ ?_
  · rw [hcontent, bind_some, map_some, hoffset]
    exact ((h.placed.grow gap).append slot (bodyBytes item)).grow back
  · rw [hget]
    exact add_zero _

/-! ## One edit -/

theorem placement (hfits : item.Fits) : library.placement slot ⟨bodyBytes item⟩ =
    ⟨slot, appendOffset library.content.length, (bodyBytes item).length, item.unigram, true⟩ := by
  rw [UserLibrary.placement, h.whole, if_neg Bool.false_ne_true, (shows_bodyBytes hfits).unigram]

/-- An item written to a slot, the one the slot names taken out first or absent. -/
theorem applyReplacement (hroom : library.content.length < 2 ^ 32) (hfits : item.Fits) {removesOld : Bool}
    (hold : removesOld = false → m slot = none) (back : Bytes) :
    (library.applyReplacement ⟨slot, appendOffset library.content.length, (bodyBytes item).length,
      item.unigram, removesOld⟩ (bodyBytes item ++ back)).Holds base (Function.update m slot (some item)) := by
  rw [UserLibrary.applyReplacement, h.whole, if_neg Bool.false_ne_true, take_left]
  cases removesOld with
  | false => exact h.write (hold rfl) hroom hfits
  | true =>
    obtain ⟨hremoved, hcontent⟩ := h.removeBody slot
    have hwrite := @write _ _ _ slot item hremoved (update_self slot none m) (by rwa [hcontent]) hfits
    rw [hcontent, update_idem] at hwrite
    dsimp only
    rw [if_pos rfl, hcontent]
    exact hwrite

/-- A body is refused, or holds an item at its start. -/
theorem replacement (slot : BitVec 32) (bytes : Bytes) :
    (bodyItem slot bytes = none ∧ ∃ error, library.replacement slot bytes = .error error) ∨
      ∃ item back, bodyItem slot bytes = some item ∧ slot ≤ phraseMask ∧ item.Fits ∧
        bytes = bodyBytes item ++ back ∧ library.replacement slot bytes =
          .ok ⟨slot, appendOffset library.content.length, (bodyBytes item).length, item.unigram, true⟩ := by
  rw [bodyItem, UserLibrary.replacement, fromBytes_eq_decode]
  by_cases hslot : slot ≤ phraseMask
  · rw [if_pos hslot, if_neg (BitVec.not_lt.mpr hslot)]
    cases hdecode : decodePhraseItem bytes with
    | error error => exact Or.inl ⟨rfl, _, rfl⟩
    | ok item =>
      obtain ⟨hfits, back, hbytes⟩ := decodePhraseItem_eq_ok.mp hdecode
      exact Or.inr ⟨item, back, rfl, hslot, hfits, hbytes, congrArg Except.ok (h.placement hfits)⟩
  · rw [if_neg hslot, if_pos (BitVec.not_le.mp hslot)]
    exact Or.inl ⟨rfl, _, rfl⟩

theorem replace (hroom : library.content.length < 2 ^ 32) (slot : BitVec 32) (bytes : Bytes) :
    Holds ((library.replace slot bytes).toOption.getD library) base
      (Function.update m slot ((bodyItem slot bytes).or (m slot))) := by
  rw [UserLibrary.replace]
  rcases h.replacement slot bytes with
    ⟨hnone, error, hrefused⟩ | ⟨item, back, hsome, hslot, hfits, rfl, haccepted⟩
  · rw [hnone, hrefused, none_or, update_eq_self]
    exact h
  · rw [hsome, haccepted, some_or]
    exact h.applyReplacement hroom hfits (fun hfalse => by cases hfalse) back

theorem add (hroom : library.content.length < 2 ^ 32) (slot : BitVec 32) (bytes : Bytes)
    (hempty : library.item slot = none) :
    Holds (((library.prepareAdd slot bytes).map fun prepared => prepared.apply library).toOption.getD library) base
      (Function.update m slot ((bodyItem slot bytes).or (m slot))) := by
  rw [h.item_eq, map_eq_none_iff] at hempty
  rw [prepareAdd]
  rcases h.replacement slot bytes with
    ⟨hnone, error, hrefused⟩ | ⟨item, back, hsome, hslot, hfits, rfl, haccepted⟩
  · rw [hnone, hrefused, none_or, update_eq_self]
    exact h
  · rw [hsome, haccepted, some_or]
    exact h.applyReplacement hroom hfits (fun _ => hempty) back

/-- The selected slots are emptied. -/
theorem removeMatching (selected : BitVec 32 → Bool) :
    (library.removeMatching selected).Holds base fun slot => if selected slot then none else m slot := by
  have hrun : ∀ (slots : List (BitVec 32)) {library : UserLibrary} {m : ItemMap}, library.Holds base m →
      (slots.foldl (fun library slot => (library.removeBody slot).1) library).Holds base
        fun slot => if slot ∈ slots then none else m slot := by
    intro slots
    induction slots with
    | nil =>
      intro library m h
      simpa using h
    | cons slot slots ih =>
      intro library m h
      have hrest := ih (h.removeBody slot).1
      have hmap : (fun k => if k ∈ slots then none else Function.update m slot none k) =
          fun k => if k ∈ slot :: slots then none else m k := by
        ext1 k
        by_cases hk : k = slot
        · simp [hk]
        · simp [hk]
      rwa [hmap] at hrest
  have hmap : (fun slot => if slot ∈ (library.items.map Prod.fst).filter selected then none else m slot) =
      fun slot => if selected slot then none else m slot := by
    ext1 slot
    cases hget : m slot with
    | none => simp
    | some item =>
      have hmem : slot ∈ library.items.map Prod.fst := by
        obtain ⟨offset, _, _, hoffset, _⟩ := h.split hget
        refine mem_map.mpr ⟨(slot, ⟨bodyBytes item⟩), mem_filterMap.mpr
          ⟨(slot, offset), (h.ok.lists.mem slot offset).mpr hoffset, ?_⟩, rfl⟩
        rw [h.item_eq, hget]
        rfl
      simp only [mem_filter, hmem, true_and]
  rw [← hmap]
  exact hrun _ h

/-- A frequency is raised, wrapping. -/
theorem incrementUnigram (slot delta : BitVec 32) :
    (library.incrementUnigram slot delta).1.Holds base (Function.update m slot
      ((m slot).map fun item => { item with unigram := item.unigram + delta })) := by
  rw [UserLibrary.incrementUnigram, h.item_eq]
  cases hget : m slot with
  | none =>
    have hsame := update_eq_self slot m
    rw [hget] at hsame
    rw [map_none, map_none, hsame]
    exact h
  | some old =>
    obtain ⟨offset, front, back, hoffset, hcontent, hfront⟩ := h.split hget
    have hold := h.fits slot old hget
    have hfits : ChunkItem.Fits { old with unigram := old.unigram + delta } := ⟨hold.phrase, hold.prons, hold.keys⟩
    have hcut : ∀ unigram, bodyBytes { old with unigram := unigram } =
        [UInt8.ofNat old.phrase.length, UInt8.ofNat old.prons.length] ++ le32 unigram ++
          (old.phrase.flatMap le32 ++ old.prons.flatMap pronBytes) := by
      intro unigram
      simp [bodyBytes]
    have hover : overwrite library.content (offset.toNat + 2) (le32 (old.unigram + delta)) =
        front ++ bodyBytes { old with unigram := old.unigram + delta } ++ back := by
      have hsplit : library.content =
          (front ++ [UInt8.ofNat old.phrase.length, UInt8.ofNat old.prons.length]) ++ le32 old.unigram ++
            (old.phrase.flatMap le32 ++ old.prons.flatMap pronBytes ++ back) := by
        rw [hcontent, hcut old.unigram]
        simp
      have hat : offset.toNat + 2 =
          (front ++ [UInt8.ofNat old.phrase.length, UInt8.ofNat old.prons.length]).length := by
        rw [length_append, hfront]
        rfl
      rw [hsplit, hat, overwrite_append _ _ _ _ (by rw [length_le32, length_le32]), hcut]
      simp
    rw [map_some, map_some, hoffset]
    dsimp only
    rw [(shows_bodyBytes hold).unigram, hover]
    refine h.rewrite hget hoffset hcontent hfront hfits ?_ ?_
    · rw [length_bodyBytes hfits, length_bodyBytes hold]
    · rw [add_assoc, add_comm delta]

/-- A reading added to an item of the map. -/
theorem addReading (hroom : library.content.length < 2 ^ 32) (hslot : (m slot).isSome → slot ≤ phraseMask)
    (keys : List (BitVec 16)) (delta : BitVec 32) :
    Holds ((library.addReading slot keys delta).toOption.getD library) base
      (Function.update m slot ((m slot).map (·.addReading keys delta))) := by
  rw [UserLibrary.addReading, h.item_eq]
  have hsame := update_eq_self slot m
  cases hget : m slot with
  | none =>
    rw [hget] at hsame
    rw [map_none, map_none, hsame]
    exact h
  | some old =>
    rw [hget] at hsame
    obtain ⟨offset, front, back, hoffset, hcontent, hfront⟩ := h.split hget
    have hold := h.fits slot old hget
    have hshows := shows_bodyBytes hold
    rw [map_some, map_some, ChunkItem.addReading]
    dsimp only
    rw [hshows.phraseLength, hshows.pronunciations]
    by_cases hkeys : old.phrase.length = keys.length
    · rw [if_pos hkeys, if_neg (not_not.mpr hkeys)]
      rcases findReading_eq keys delta old.prons 0 0 with
        ⟨hfind, hadd⟩ | ⟨before, pron, behind, accepted, hprons, hfind, hadd⟩
      · have hpush := pushReading_bodyBytes hold delta hkeys
        have hfits := fits_pushReading hold delta hkeys
        have hitem : bodyItem slot (pushReading (bodyBytes old) keys delta) =
            some (old.pushReading keys delta) := by
          rw [bodyItem, if_pos (hslot (by rw [hget]; rfl)), hpush,
            decodePhraseItem_eq_ok.mpr ⟨hfits, [], (append_nil _).symm⟩]
          rfl
        have hreplace := h.replace hroom slot (pushReading (bodyBytes old) keys delta)
        rw [hitem, some_or] at hreplace
        rw [hfind, hadd]
        exact hreplace
      · rw [hfind, hadd]
        dsimp only
        cases accepted with
        | false =>
          have hunchanged : { old with prons := before ++ pron :: behind } = old := by rw [← hprons]
          rw [if_neg Bool.false_ne_true, if_neg Bool.false_ne_true, hunchanged, hsame]
          exact h
        | true =>
          have hedited := fits_of_keys hold (addToReading_keys keys delta hadd)
          rw [if_pos rfl, if_pos rfl, hoffset]
          rw [if_pos rfl] at hedited
          dsimp only
          rw [Nat.zero_add, hcontent, ← hkeys, overwrite_freq hold hprons front back (pron.2 + delta)
            (by rw [hfront])]
          exact h.rewrite hget hoffset hcontent hfront hedited.1 hedited.2 rfl
    · rw [if_neg hkeys, if_pos hkeys, hsame]
      exact h

/-- A training goes through the item's readings. -/
theorem train (slot : BitVec 32) (readings : List (List ChewingKey)) (delta : BitVec 32) :
    (library.train slot readings delta).Holds base
      (Function.update m slot ((m slot).map fun item => readings.foldl (trainOne delta) item)) := by
  rw [UserLibrary.train, h.item_eq]
  cases hget : m slot with
  | none =>
    have hsame := update_eq_self slot m
    rw [hget] at hsame
    rw [map_none, map_none, hsame, h.offset_eq_none hget]
    exact h
  | some old =>
    obtain ⟨offset, front, back, hoffset, hcontent, hfront⟩ := h.split hget
    have hold := h.fits slot old hget
    -- the loop keeps the item's place, its phrase and the keys of its readings
    have hrun : ∀ (readings : List (List ChewingKey)) (item : ChunkItem), item.Fits →
        item.phrase.length = old.phrase.length → item.prons.length = old.prons.length →
        item.unigram = old.unigram → (bodyBytes item).length = (bodyBytes old).length →
        ∃ trained : ChunkItem, trained = readings.foldl (trainOne delta) item ∧ trained.Fits ∧
          trained.unigram = old.unigram ∧ (bodyBytes trained).length = (bodyBytes old).length ∧
          readings.foldl (fun content query => if query.length = old.phrase.length then
              trainLoop query delta (front.length + itemHeaderSize + 4 * old.phrase.length)
                old.phrase.length old.prons.length 0 0 content else content)
            (front ++ bodyBytes item ++ back) = front ++ bodyBytes trained ++ back := by
      intro readings
      induction readings with
      | nil =>
        intro item hfits _ _ hunigram hlength
        exact ⟨item, rfl, hfits, hunigram, hlength, rfl⟩
      | cons query rest ih =>
        intro item hfits hphrase hprons hunigram hlength
        rw [foldl_cons, foldl_cons, trainOne, hphrase]
        split_ifs with hquery
        · obtain ⟨hnext, hnextLength⟩ := fits_of_keys hfits (trainReadings_keys query delta 0 item.prons)
          have hloop := trainLoop_eq query delta front back item.prons [] item 0 hfits rfl
          rw [hphrase, hprons] at hloop
          have hcount : (trainReadings query delta 0 item.prons).length = item.prons.length := by
            simpa using congrArg length (trainReadings_keys query delta 0 item.prons)
          rw [show ([] : List Pron).length = 0 from rfl] at hloop
          rw [hloop]
          exact ih _ hnext hphrase (hcount.trans hprons) hunigram (hnextLength.trans hlength)
        · exact ih item hfits hphrase hprons hunigram hlength
    obtain ⟨trained, htrained, hfits, hunigram, hlength, hbytes⟩ := hrun readings old hold rfl rfl rfl rfl
    rw [map_some, map_some, hoffset]
    dsimp only
    rw [(shows_bodyBytes hold).phraseLength, (shows_bodyBytes hold).nPronunciations, ← hfront, hcontent, hbytes,
      ← htrained]
    exact h.rewrite hget hoffset hcontent hfront hfits hlength (by rw [hunigram])

/-! ## Compaction -/

variable {entries : List (BitVec 32 × ChunkItem)}

/-- The map has a list. -/
theorem exists_lists : ∃ entries, Lists entries m :=
  ⟨_, h.ok.lists.values fun slot item hget => by rw [h.names, hget]; rfl⟩

end

/-- A library with no item holds the empty map. -/
theorem fresh {slots : Slots} (hok : slots.Ok) (hnone : ∀ slot, slots.offset slot = none) :
    Holds { empty with slots := slots } 0 fun _ => none := by
  refine ⟨rfl, hok, fun slot => ?_, fun _ _ hget => (by cases hget), placed_none _, ?_⟩
  · rw [hnone]
    rfl
  · exact ((zero_add _).trans (Finset.sum_eq_zero fun _ _ => rfl)).symm

theorem setContent_grows (content : Bytes) (start : Nat) (bytes : Bytes) :
    content.length ≤ (setContent content start bytes).length := by
  rw [setContent]
  split_ifs with hlt
  · rw [length_overwrite _ _ _ (by rw [length_resize]), length_resize]
    omega
  · rw [length_overwrite _ _ _ (by omega)]

theorem reserved_grows (content : Bytes) : content.length ≤ (reserved content).length := by
  rw [reserved]
  split_ifs with hlt
  · rw [length_resize]
    omega
  · exact Nat.le_refl _

theorem applyReplacement_grows (h : library.headersOnly = false) (change : Replacement) (bytes : Bytes) :
    (library.applyReplacement change bytes).headersOnly = false ∧
      library.content.length ≤ (library.applyReplacement change bytes).content.length := by
  have hremoved : (library.removeBody change.slot).1.content = library.content ∧
      (library.removeBody change.slot).1.headersOnly = false := by
    rw [UserLibrary.removeBody]
    cases library.item change.slot with
    | none => exact ⟨rfl, h⟩
    | some item => exact ⟨rfl, h⟩
  rw [UserLibrary.applyReplacement, h, if_neg Bool.false_ne_true]
  dsimp only
  split_ifs
  · rw [hremoved.1]
    exact ⟨hremoved.2, (reserved_grows _).trans (setContent_grows _ _ _)⟩
  · exact ⟨h, (reserved_grows _).trans (setContent_grows _ _ _)⟩

/-- Copies one item into a library. -/
def copyItem (library : UserLibrary) (entry : BitVec 32 × ChunkItem) : UserLibrary :=
  library.applyReplacement (library.placement entry.1 ⟨bodyBytes entry.2⟩) (bodyBytes entry.2)

theorem copy_grows : ∀ (entries : List (BitVec 32 × ChunkItem)) {library : UserLibrary},
    library.headersOnly = false → library.content.length ≤ (entries.foldl copyItem library).content.length
  | [], _, _ => Nat.le_refl _
  | entry :: entries, library, h => by
    obtain ⟨hwhole, hgrow⟩ := applyReplacement_grows h (library.placement entry.1 ⟨bodyBytes entry.2⟩)
      (bodyBytes entry.2)
    exact hgrow.trans (copy_grows entries hwhole)

/-- One item copied into an empty slot, behind the content. -/
theorem copyItem_holds (h : library.Holds base m) (hsmall : library.content.length < 2 ^ 32)
    (hfits : item.Fits) : (copyItem library (slot, item)).Holds base (Function.update m slot (some item)) := by
  have happly := @applyReplacement _ _ _ slot _ h hsmall hfits true (fun htrue => by cases htrue) []
  rwa [append_nil, ← h.placement hfits] at happly

/-- Where the first eight bytes are there, or nothing is, the copy ends the content. -/
theorem content_copyItem (h : library.Holds base m) (hsmall : library.content.length < 2 ^ 32)
    (hsized : library.content = [] ∨ 8 ≤ library.content.length) (hfits : item.Fits) :
    (copyItem library (slot, item)).content = reserved library.content ++ bodyBytes item := by
  have hoffset : (appendOffset library.content.length).toNat = (reserved library.content).length := by
    rcases hsized with hnil | hsized
    · rw [hnil]
      rfl
    · have hne : BitVec.ofNat 32 library.content.length ≠ 0 := by
        intro hzero
        have hnat := congrArg BitVec.toNat hzero
        have hzero32 : (0 : BitVec 32).toNat = 0 := rfl
        rw [BitVec.toNat_ofNat, Nat.mod_eq_of_lt hsmall, hzero32] at hnat
        omega
      rw [appendOffset, if_neg hne, BitVec.toNat_ofNat, Nat.mod_eq_of_lt hsmall, reserved, if_neg (by omega)]
  rw [copyItem, h.placement hfits, UserLibrary.applyReplacement, h.whole, if_neg Bool.false_ne_true, take_length]
  dsimp only
  rw [if_pos rfl, (h.removeBody slot).2, hoffset, setContent_length]

/-- Items copied into empty slots, one by one. -/
theorem copy : ∀ {entries : List (BitVec 32 × ChunkItem)} {items : ItemMap} {library : UserLibrary}
    {m : ItemMap}, Lists entries items → library.Holds base m →
    (∀ slot item, items slot = some item → m slot = none ∧ item.Fits) →
    (entries.foldl copyItem library).content.length < 2 ^ 32 →
    (entries.foldl copyItem library).Holds base fun slot => (items slot).or (m slot)
  | [], items, library, m, hlists, h, _, _ => by
    have hmap : (fun slot => (items slot).or (m slot)) = m := by
      ext1 slot
      rw [hlists.eq_none, none_or]
    rw [hmap]
    exact h
  | (slot, item) :: entries, items, library, m, hlists, h, hitems, hroom => by
    have hget : items slot = some item := (hlists.mem slot item).mp mem_cons_self
    obtain ⟨_, hfits⟩ := hitems slot item hget
    have hsmall : library.content.length < 2 ^ 32 := (copy_grows _ h.whole).trans_lt hroom
    have hnext := @copyItem_holds _ _ _ slot _ h hsmall hfits
    have hrest : ∀ k u, Function.update items slot none k = some u →
        Function.update m slot (some item) k = none ∧ u.Fits := by
      intro k u hk
      by_cases hkslot : k = slot
      · rw [hkslot, update_self] at hk
        cases hk
      · rw [update_of_ne hkslot] at hk ⊢
        exact hitems k u hk
    have hcopied := copy hlists.tail hnext hrest hroom
    have hmap : (fun k => (Function.update items slot none k).or (Function.update m slot (some item) k)) =
        fun k => (items k).or (m k) := by
      ext1 k
      by_cases hk : k = slot
      · rw [hk, update_self, update_self, hget, none_or, some_or]
      · rw [update_of_ne hk, update_of_ne hk]
    rwa [hmap] at hcopied

theorem le_reserved (content : Bytes) : 8 ≤ (reserved content).length := by
  rw [reserved]
  split_ifs with hlt
  · rw [length_resize]
  · omega

/-- The copies have room where the bodies have. -/
theorem copy_fits : ∀ {entries : List (BitVec 32 × ChunkItem)} {library : UserLibrary} {m : ItemMap},
    library.Holds base m → (library.content = [] ∨ 8 ≤ library.content.length) →
    (∀ entry ∈ entries, entry.2.Fits) →
    (reserved library.content).length + (entries.flatMap fun entry => bodyBytes entry.2).length < 2 ^ 32 →
    (entries.foldl copyItem library).content.length < 2 ^ 32
  | [], library, m, _, _, _, hsize => by
    have hgrow := reserved_grows library.content
    rw [flatMap_nil, length_nil] at hsize
    exact hgrow.trans_lt hsize
  | (slot, item) :: entries, library, m, h, hsized, hentries, hsize => by
    have hfits := hentries (slot, item) mem_cons_self
    have hgrow := reserved_grows library.content
    have hlong := le_reserved library.content
    rw [flatMap_cons, length_append] at hsize
    dsimp only at hsize
    have hcontent := @content_copyItem _ _ _ slot _ h (by omega) hsized hfits
    have hreserved : reserved (reserved library.content ++ bodyBytes item) =
        reserved library.content ++ bodyBytes item :=
      if_neg (by rw [length_append]; omega)
    rw [foldl_cons]
    refine copy_fits (h.copyItem_holds (by omega) hfits) (Or.inr ?_)
      (fun entry hentry => hentries entry (mem_cons_of_mem _ hentry)) ?_
    · rw [hcontent, length_append]
      omega
    · rw [hcontent, hreserved, length_append]
      omega

/-- A fresh library, in the representation a compaction picks. -/
theorem fresh_of (library : UserLibrary) :
    Holds (if library.tokenEnd > library.slots.entries.length * 4 + 256 then
      { empty with slots := .sparse .empty } else empty) 0 fun _ => none := by
  split_ifs
  · exact fresh (fun entry hentry => by cases hentry) fun _ => rfl
  · exact @fresh (.dense []) (Nat.zero_le _) fun _ => rfl

/-- A compaction holds the items it copies. -/
theorem compacted (hm : Lists entries m)
    (hitems : library.items = entries.map fun entry => (entry.1, ⟨bodyBytes entry.2⟩))
    (hfits : ∀ entry ∈ entries, entry.2.Fits)
    (hroom : library.compact.content.length < 2 ^ 32) : library.compact.Holds 0 m := by
  rw [UserLibrary.compact, UserLibrary.compacted, hitems, foldl_map] at hroom ⊢
  have hcopied := copy hm (fresh_of library)
    (fun slot item hget => ⟨rfl, hfits (slot, item) ((hm.mem slot item).mpr hget)⟩) hroom
  have hmap : (fun slot => (m slot).or none) = m := by
    ext1 slot
    rw [or_none]
  rwa [hmap] at hcopied

theorem compact (h : library.Holds base m) (hm : Lists entries m)
    (hroom : library.compact.content.length < 2 ^ 32) : library.compact.Holds 0 m := by
  refine compacted hm (items_eq h.ok h.item_eq hm) (fun entry hentry => ?_) hroom
  exact h.fits entry.1 entry.2 ((hm.mem entry.1 entry.2).mp hentry)

/-! ## Runs -/

/-- The slots of a map are those a token can name. -/
def Masked (m : ItemMap) : Prop := ∀ slot, (m slot).isSome → slot ≤ phraseMask

theorem Masked.update (h : Masked m) {new : Option ChunkItem} (hnew : new.isSome → slot ≤ phraseMask) :
    Masked (Function.update m slot new) := by
  intro k hk
  by_cases hkslot : k = slot
  · rw [hkslot, update_self] at hk
    rw [hkslot]
    exact hnew hk
  · rw [update_of_ne hkslot] at hk
    exact h k hk

/-- No edit names a slot past the mask. -/
theorem masked_onMap (h : Masked m) (op : LibraryOp) : Masked (op.onMap m) := by
  have hbody : ∀ (slot : BitVec 32) (bytes : Bytes),
      Masked (Function.update m slot ((bodyItem slot bytes).or (m slot))) := by
    intro slot bytes
    refine h.update fun hsome => ?_
    rw [bodyItem] at hsome
    split_ifs at hsome with hslot
    · exact hslot
    · exact h slot hsome
  match op with
  | .replace slot bytes => exact hbody slot bytes
  | .add slot bytes => exact hbody slot bytes
  | .remove slot => exact h.update fun hsome => by cases hsome
  | .removeMatching selected =>
    intro slot hsome
    change (if selected slot then none else m slot).isSome at hsome
    split_ifs at hsome
    · cases hsome
    · exact h slot hsome
  | .incrementUnigram slot delta => exact h.update fun hsome => h slot (by rwa [isSome_map] at hsome)
  | .addReading slot keys delta => exact h.update fun hsome => h slot (by rwa [isSome_map] at hsome)
  | .train slot readings delta => exact h.update fun hsome => h slot (by rwa [isSome_map] at hsome)
  | .compact => exact h

/-- One edit keeps the invariant, of the map after the same edit. -/
theorem step (h : library.Holds 0 m) (hmasked : Masked m) {op : LibraryOp} (hempty : op.OnEmpty library)
    (hroom : library.content.length < 2 ^ 32) (hnext : (op.apply library).content.length < 2 ^ 32) :
    (op.apply library).Holds 0 (op.onMap m) := by
  match op with
  | .replace slot bytes => exact h.replace hroom slot bytes
  | .add slot bytes => exact h.add hroom slot bytes hempty
  | .remove slot => exact (h.removeBody slot).1
  | .removeMatching selected => exact h.removeMatching selected
  | .incrementUnigram slot delta => exact h.incrementUnigram slot delta
  | .addReading slot keys delta => exact h.addReading hroom (hmasked slot) keys delta
  | .train slot readings delta => exact h.train slot readings delta
  | .compact =>
    obtain ⟨entries, hm⟩ := h.exists_lists
    exact h.compact hm hnext

theorem run : ∀ {ops : List LibraryOp} {library : UserLibrary} {m : ItemMap}, library.Holds 0 m → Masked m →
    Along apply LibraryOp.OnEmpty library ops →
    (∀ state ∈ states apply library ops, state.content.length < 2 ^ 32) →
    (ops.foldl apply library).Holds 0 (ops.foldl onMap m)
  | [], _, _, h, _, _, _ => h
  | op :: ops, library, m, h, hmasked, hempty, hroom => by
    have hfirst := hroom library mem_cons_self
    have hrest : ∀ state ∈ states apply (op.apply library) ops, state.content.length < 2 ^ 32 :=
      fun state hstate => hroom state (mem_cons_of_mem _ hstate)
    exact (h.step hmasked hempty.1 hfirst (hrest _ (mem_states_self _ _))).run
      (masked_onMap hmasked op) hempty.2 hrest

end Holds

/-- A library answers as a map : its items list the map in slot order, each shown by its view, and
its total is the sum of their frequencies. -/
def Answers (library : UserLibrary) (m : ItemMap) : Prop :=
  ∃ entries : List (BitVec 32 × ChunkItem), Lists entries m ∧
    List.Forall₂ (fun shown entry => shown.1 = entry.1 ∧ shown.2.Shows entry.2) library.items entries ∧
    library.total = (entries.map fun entry => entry.2.unigram).sum

theorem Holds.answers {library : UserLibrary} {m : ItemMap} (h : library.Holds 0 m) : library.Answers m := by
  obtain ⟨entries, hlists⟩ := h.exists_lists
  refine ⟨entries, hlists, ?_, ?_⟩
  · rw [items_eq h.ok h.item_eq hlists, forall₂_map_left_iff, forall₂_same]
    intro entry hentry
    exact ⟨rfl, shows_bodyBytes (h.fits entry.1 entry.2 ((hlists.mem _ _).mp hentry))⟩
  · rw [h.total, zero_add, hlists.sum_eq fun _ item => item.unigram]
    rfl

/-- Every run of edits from the empty library leaves the map the same edits build, whichever way
its slots are held. -/
theorem run_items {ops : List LibraryOp} (hadds : Along LibraryOp.apply LibraryOp.OnEmpty empty ops)
    (hroom : ∀ library ∈ states LibraryOp.apply empty ops, library.content.length < 2 ^ 32) :
    (ops.foldl LibraryOp.apply empty).Answers (ops.foldl LibraryOp.onMap fun _ => none) :=
  ((@Holds.fresh (.dense []) (Nat.zero_le _) fun _ => rfl).run (fun _ hsome => by cases hsome) hadds hroom).answers

/-- A run that adds, goes sparse, edits in place, removes and compacts. -/
def sparseRun : List LibraryOp :=
  let body : Bytes := [1, 1, 5, 0, 0, 0, 0x60, 0x4f, 0, 0, 0x34, 0x12, 2, 0, 0, 0]
  [.add 1 body, .replace 1000 body, .incrementUnigram 1 7, .addReading 1 [0x1234] 3, .addReading 1 [0x35] 3,
    .train 1 [[.fromPacked 0x35]] 4, .remove 1000, .compact]

theorem run_items_sparse :
    (sparseRun.foldl LibraryOp.apply empty).Answers (sparseRun.foldl LibraryOp.onMap fun _ => none) :=
  run_items ⟨rfl, trivial, trivial, trivial, trivial, trivial, trivial, trivial, trivial⟩ (by decide +kernel)

end UserLibrary

end Oxpinyin
