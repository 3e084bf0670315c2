import Oxpinyin.LibraryRuns
import Oxpinyin.PhraseLibrary

/-!
# Storing and loading the user library

`store` writes the readable items of a library as a compaction would leave them, with no
compacted copy made first. `load` checks every item before it takes a file. The file is the
layout of the items (`store_layout`), so a reload, a compaction and the chunk writer all give
the same bytes (`store_load`).
-/

namespace Oxpinyin

open List Option LittleEndian FiniteMap ChunkFile Run Slots

namespace ChunkFile

/-- `build_memory_chunk_owned` : the file of a payload, made in the payload's own buffer. -/
def buildMemoryChunkOwned (payload : Bytes) : Except ChunkFrameError Bytes :=
  if payload.length < 2 ^ 32 then
    let moved := overwrite (resize payload (payload.length + chunkHeaderSize) 0) chunkHeaderSize payload
    .ok (overwrite (overwrite moved 0 (le32 (BitVec.ofNat 32 payload.length))) 4
      (le32 (chunkChecksum payload)))
  else .error ⟨payload.length⟩

/-- The text of a failed read. -/
def ChunkReadError.message : ChunkReadError → String
  | shortHeader => "memory chunk: shorter than the 8-byte header"
  | truncatedPayload => "memory chunk: payload length does not match the file size"
  | checksumMismatch => "memory chunk: checksum mismatch"

end ChunkFile

namespace UserLibrary

/-! ## Loading -/

/-- Checks the item a slot's offset names and counts it. -/
def validateSlot (content : Bytes) (count : Nat) (word : BitVec 32 × Nat) : Except String Nat :=
  if word.1 = 0 then .ok count
  else
    match range? content word.1.toNat content.length with
    | none => .error s!"chunk write error: sub phrase index: slot {word.2} offset out of range"
    | some bytes =>
      match validatePhraseItem bytes with
      | .error error =>
        .error s!"chunk write error: sub phrase index: slot {word.2}: chunk write error: {error.message}"
      | .ok () => .ok (if (PhraseItemView.fromBytes bytes).isSome then count + 1 else count)

/-- The library of a payload, if every item it names is whole. -/
def loadPayload (payload : Bytes) : Except String UserLibrary :=
  match subPhraseIndexSections payload with
  | .error error => .error s!"chunk write error: {error.message}"
  | .ok (total, offsets, content) =>
    let words := (chunks 4 offsets).map word32
    (words.zipIdx.foldlM (validateSlot content) 0).map fun count =>
      let slots := if offsets.length / 4 ≤ count * 4 + 256 then Slots.dense words
        else .sparse (SortedMap.empty.insertAll (Slots.occupied words))
      ⟨total, slots, content, false⟩

/-- The library of a file. -/
def load (file : Bytes) : Except String UserLibrary :=
  match readChunkPayload file with
  | .error error => .error error.message
  | .ok payload => loadPayload payload

/-! ## Storing -/

/-- No slot names an item. -/
def isEmpty (library : UserLibrary) : Bool := library.slots.entries.isEmpty

/-- The size of the content a compaction would leave. -/
def compactedContentLen (library : UserLibrary) : Nat :=
  library.items.foldl (fun len entry => len + entry.2.bytes.length) 8

/-- The slots a file has. -/
def storedSlots (library : UserLibrary) : Nat := if library.isEmpty then 0 else library.tokenEnd

/-- The content bytes a file has. -/
def storedContentLen (library : UserLibrary) : Nat :=
  if library.isEmpty then 0 else library.compactedContentLen

/-- A payload before its items : the header with a total of zero and no offset. -/
def blankPayload (slots indexThree : Nat) : Bytes :=
  let indexTwo := 18 + slots * 4
  let payload := List.replicate indexTwo 0
  let payload := overwrite payload 4 (le32 17)
  let payload := overwrite payload 8 (le32 (BitVec.ofNat 32 indexTwo))
  let payload := overwrite payload 12 (le32 (BitVec.ofNat 32 indexThree))
  let payload := overwrite payload 16 [separator]
  overwrite payload (indexTwo - 1) [separator]

/-- Copies one item behind the payload and its offset into the array. -/
def storeItem (indexTwo : Nat) (state : Bytes × BitVec 32) (entry : BitVec 32 × PhraseItemView) :
    Except String (Bytes × BitVec 32) :=
  let payload := state.1
  if phraseMask < entry.1 then
    .error s!"chunk write error: chunk slot {hex entry.1} exceeds PHRASE_MASK"
  else if 2 ^ 32 ≤ payload.length - indexTwo then
    .error "out of range integral type conversion attempted"
  else
    let offset := BitVec.ofNat 32 (payload.length - indexTwo)
    .ok (overwrite payload (17 + entry.1.toNat * 4) (le32 offset) ++ entry.2.bytes,
      state.2 + entry.2.unigram)

/-- The file of a library. -/
def store (library : UserLibrary) : Except String Bytes :=
  let slots := library.storedSlots
  let contentLen := library.storedContentLen
  let indexTwo := 18 + slots * 4
  let indexThree := indexTwo + contentLen + 1
  if 2 ^ 32 ≤ slots * 4 then .error "out of range integral type conversion attempted"
  else if 2 ^ 32 ≤ indexTwo then .error "offset array too large"
  else if 2 ^ 32 ≤ contentLen then .error "out of range integral type conversion attempted"
  else if 2 ^ 32 ≤ indexThree then .error "arena too large"
  else
    let blank := blankPayload slots indexThree
    let payload := if library.isEmpty then blank else blank ++ List.replicate 8 0
    match library.items.foldlM (storeItem indexTwo) (payload, 0) with
    | .error error => .error error
    | .ok (payload, total) =>
      match buildMemoryChunkOwned (overwrite payload 0 (le32 total) ++ [separator]) with
      | .ok file => .ok file
      | .error error => .error s!"payload of {error.length} bytes exceeds the u32 length field"

end UserLibrary

/-! ## The bytes of a store -/

theorem ChunkFile.buildMemoryChunkOwned_eq (payload : Bytes) :
    buildMemoryChunkOwned payload = buildMemoryChunk payload := by
  rw [buildMemoryChunkOwned, buildMemoryChunk]
  split_ifs with hlength
  · have hresize : resize payload (payload.length + chunkHeaderSize) 0 =
        payload ++ replicate chunkHeaderSize 0 := by
      rw [resize, take_of_length_le (by omega), Nat.add_sub_cancel_left]
    set header := (payload ++ replicate chunkHeaderSize 0).take 8 with hheader
    have hlen : header.length = 8 := by
      rw [hheader, length_take, length_append, length_replicate, chunkHeaderSize]
      omega
    have hmoved : overwrite (payload ++ replicate chunkHeaderSize 0) chunkHeaderSize payload =
        header ++ payload := by
      rw [overwrite, drop_eq_nil_of_le (by rw [length_append, length_replicate]; omega), append_nil]
      rfl
    have hsplit : header ++ payload = [] ++ header.take 4 ++ (header.drop 4 ++ payload) := by
      rw [nil_append, ← append_assoc, take_append_drop]
    have hfirst : overwrite (header ++ payload) 0 (le32 (BitVec.ofNat 32 payload.length)) =
        le32 (BitVec.ofNat 32 payload.length) ++ header.drop 4 ++ payload := by
      rw [hsplit]
      have hover := overwrite_append [] (header.take 4) (header.drop 4 ++ payload)
        (le32 (BitVec.ofNat 32 payload.length)) (by rw [length_le32, length_take, hlen]; rfl)
      rw [length_nil] at hover
      rw [hover, nil_append, append_assoc]
    have hsecond := overwrite_append (le32 (BitVec.ofNat 32 payload.length)) (header.drop 4) payload
      (le32 (chunkChecksum payload)) (by rw [length_le32, length_drop, hlen])
    rw [length_le32] at hsecond
    dsimp only
    rw [hresize, hmoved, hfirst, hsecond]
  · rfl

namespace UserLibrary

/-- The words of the header behind the total, and its separator. -/
def headBytes (total : BitVec 32) (slots indexThree : Nat) : Bytes :=
  le32 total ++ le32 17 ++ le32 (BitVec.ofNat 32 (18 + slots * 4)) ++ le32 (BitVec.ofNat 32 indexThree) ++
    [separator]

@[simp] theorem length_headBytes (total : BitVec 32) (slots indexThree : Nat) :
    (headBytes total slots indexThree).length = 17 := by
  simp [headBytes]

theorem blankPayload_eq (slots indexThree : Nat) : blankPayload slots indexThree =
    headBytes 0 slots indexThree ++ replicate (slots * 4) 0 ++ [separator] := by
  set two := le32 (BitVec.ofNat 32 (18 + slots * 4)) with htwo
  set three := le32 (BitVec.ofNat 32 indexThree) with hthree
  set tail : Bytes := replicate (slots * 4) 0 ++ [0] with htail
  have hblank : replicate (18 + slots * 4) (0 : UInt8) =
      le32 0 ++ (le32 0 ++ (le32 0 ++ (le32 0 ++ ([0] ++ tail)))) := by
    have hsplit : 18 + slots * 4 = 17 + slots * 4 + 1 := by omega
    rw [hsplit, replicate_add, replicate_add, htail]
    rfl
  have hfour : ∀ x : BitVec 32, two.length = (le32 x).length ∧ three.length = (le32 x).length := by
    intro x
    rw [htwo, hthree]
    simp
  have hone := overwrite_append (le32 0) (le32 0) (le32 0 ++ (le32 0 ++ ([0] ++ tail))) (le32 17) rfl
  have hmid := overwrite_append (le32 0 ++ le32 17) (le32 0) (le32 0 ++ ([0] ++ tail)) two (hfour 0).1
  have hend := overwrite_append (le32 0 ++ le32 17 ++ two) (le32 0) ([0] ++ tail) three (hfour 0).2
  have hlead := overwrite_append (le32 0 ++ le32 17 ++ two ++ three) [0] tail [separator] rfl
  have hlast := overwrite_append (le32 0 ++ le32 17 ++ two ++ three ++ [separator] ++
    replicate (slots * 4) 0) [0] [] [separator] rfl
  simp only [append_assoc, length_append, length_replicate, length_singleton,
    (hfour 0).1, (hfour 0).2, length_le32, append_nil, Nat.reduceAdd] at hone hmid hend hlead hlast
  rw [blankPayload, hblank, hone, hmid, hend, hlead, htail, headBytes]
  simp only [append_assoc]
  rw [show 18 + slots * 4 - 1 = 4 + (4 + (4 + (4 + (1 + slots * 4)))) by omega, hlast]

/-- The offsets of the items copied so far. -/
def offsetWords (slots : Nat) (items : List (BitVec 32 × ChunkItem)) : List (BitVec 32) :=
  (List.range slots).map fun i =>
    BitVec.ofNat 32 ((offsetOf (BitVec.ofNat 32 i) items firstItemOffset).getD 0)

theorem offsetWords_nil (slots : Nat) : (offsetWords slots []).flatMap le32 = replicate (slots * 4) 0 := by
  have hzero : ∀ n, (replicate n (0 : BitVec 32)).flatMap le32 = replicate (n * 4) 0 := by
    intro n
    induction n with
    | zero => rfl
    | succ n ih =>
      rw [replicate_succ, flatMap_cons, ih, Nat.succ_mul, Nat.add_comm, replicate_add]
      rfl
  rw [← hzero, offsetWords]
  refine congrArg (flatMap le32) (ext_getElem (by simp) fun i _ _ => ?_)
  simp [offsetOf]

variable {slot : BitVec 32}

/-- One item more in the offsets. -/
theorem offsetWords_concat {items : List (BitVec 32 × ChunkItem)} (item : ChunkItem)
    {slots : Nat} (hslots : slots ≤ 2 ^ 32) (hnew : ∀ entry ∈ items, entry.1 ≠ slot) :
    (offsetWords slots items).set slot.toNat
        (BitVec.ofNat 32 (firstItemOffset + (items.flatMap fun entry => bodyBytes entry.2).length)) =
      offsetWords slots (items ++ [(slot, item)]) := by
  have hplace := offsetOf_append slot item [] items firstItemOffset hnew
  refine ext_getElem (by simp [offsetWords]) fun i hi _ => ?_
  rw [length_set, offsetWords, length_map, length_range] at hi
  rw [getElem_set]
  simp only [offsetWords, getElem_map, getElem_range]
  split_ifs with heq
  · rw [← heq, BitVec.ofNat_toNat, BitVec.setWidth_eq, hplace, getD_some]
  · have hne : slot ≠ BitVec.ofNat 32 i := by
      rintro rfl
      rw [BitVec.toNat_ofNat, Nat.mod_eq_of_lt (by omega)] at heq
      exact heq rfl
    rw [offsetOf_concat_ne item hne]

theorem unigramSum_concat (items : List (BitVec 32 × ChunkItem)) (entry : BitVec 32 × ChunkItem) :
    unigramSum (items ++ [entry]) = unigramSum items + entry.2.unigram := by
  simp [unigramSum]

/-- What a payload has after some of its items. -/
def storedBytes (slots indexThree : Nat) (items : List (BitVec 32 × ChunkItem)) : Bytes :=
  headBytes 0 slots indexThree ++ (offsetWords slots items).flatMap le32 ++ [separator] ++
    List.replicate firstItemOffset 0 ++ items.flatMap fun entry => bodyBytes entry.2

/-- The copy loop : each item goes behind the payload and its offset into the array. -/
theorem storeItems_eq {slots indexThree : Nat} (hslots : slots ≤ 2 ^ 32) :
    ∀ {rest items : List (BitVec 32 × ChunkItem)}, Listed (items ++ rest) →
      (∀ entry ∈ rest, entry.1 ≤ phraseMask ∧ entry.1.toNat < slots) →
      firstItemOffset + ((items ++ rest).flatMap fun entry => bodyBytes entry.2).length < 2 ^ 32 →
      (rest.map fun entry => (entry.1, PhraseItemView.mk (bodyBytes entry.2))).foldlM
          (storeItem (18 + slots * 4)) (storedBytes slots indexThree items, unigramSum items) =
        .ok (storedBytes slots indexThree (items ++ rest), unigramSum (items ++ rest))
  | [], items, _, _, _ => by
    rw [append_nil]
    rfl
  | (slot, item) :: rest, items, hlisted, hrest, hsize => by
    obtain ⟨hmask, hslot⟩ := hrest (slot, item) mem_cons_self
    have hsplit : items ++ (slot, item) :: rest = items ++ [(slot, item)] ++ rest := by simp
    have hnew : ∀ entry ∈ items, entry.1 ≠ slot := fun entry hentry =>
      ne_of_lt ((pairwise_append.mp hlisted.ascending).2.2 entry hentry _ mem_cons_self)
    have hfits : item.Fits := hlisted.fits (slot, item) (by simp)
    have hoffset : (storedBytes slots indexThree items).length - (18 + slots * 4) =
        firstItemOffset + (items.flatMap fun entry => bodyBytes entry.2).length := by
      simp only [storedBytes, length_append, length_headBytes, length_flatMap_le32, offsetWords,
        length_map, length_range, length_replicate, length_singleton]
      omega
    have hsmall : firstItemOffset + (items.flatMap fun entry => bodyBytes entry.2).length < 2 ^ 32 := by
      rw [flatMap_append, length_append] at hsize
      omega
    have hlength : slot.toNat < (offsetWords slots items).length := by
      rw [offsetWords, length_map, length_range]
      exact hslot
    have hover : overwrite (storedBytes slots indexThree items) (17 + slot.toNat * 4)
        (le32 (BitVec.ofNat 32 (firstItemOffset + (items.flatMap fun entry => bodyBytes entry.2).length))) ++
          bodyBytes item = storedBytes slots indexThree (items ++ [(slot, item)]) := by
      have hwrite := overwrite_flatMap_le32 (headBytes 0 slots indexThree)
        ([separator] ++ replicate firstItemOffset 0 ++ items.flatMap fun entry => bodyBytes entry.2) hlength
        (BitVec.ofNat 32 (firstItemOffset + (items.flatMap fun entry => bodyBytes entry.2).length))
      rw [length_headBytes, offsetWords_concat item hslots hnew] at hwrite
      rw [storedBytes, storedBytes]
      simp only [← append_assoc] at hwrite ⊢
      rw [hwrite]
      simp
    have hstep : storeItem (18 + slots * 4) (storedBytes slots indexThree items, unigramSum items)
        (slot, ⟨bodyBytes item⟩) = .ok (storedBytes slots indexThree (items ++ [(slot, item)]),
          unigramSum (items ++ [(slot, item)])) := by
      rw [storeItem, if_neg (BitVec.not_lt.mpr hmask)]
      dsimp only
      rw [hoffset, if_neg (by omega), hover, unigramSum_concat, (shows_bodyBytes hfits).unigram]
    rw [map_cons, foldlM_cons, hstep]
    rw [hsplit] at hlisted hsize ⊢
    exact storeItems_eq hslots hlisted (fun entry hentry => hrest entry (mem_cons_of_mem _ hentry)) hsize

/-! ## The file of a library -/

/-- A library reads as a map. -/
structure Reads (library : UserLibrary) (m : ItemMap) : Prop where
  whole : library.headersOnly = false
  ok : library.slots.Ok
  item : ∀ slot, library.item slot = (m slot).map fun item => ⟨bodyBytes item⟩
  fits : ∀ slot item, m slot = some item → item.Fits
  last : ∀ slot, library.slots.last = some slot → (m slot).isSome

namespace Reads

variable {library : UserLibrary} {m : ItemMap} {entries : List (BitVec 32 × ChunkItem)}

theorem isSome_offset (h : library.Reads m) {slot : BitVec 32} (hsome : (m slot).isSome) :
    (library.slots.offset slot).isSome := by
  have hitem := h.item slot
  rw [UserLibrary.item, h.whole, if_neg Bool.false_ne_true] at hitem
  cases hoffset : library.slots.offset slot with
  | some offset => rfl
  | none =>
    rw [hoffset, bind_none] at hitem
    rw [map_eq_none_iff.mp hitem.symm] at hsome
    cases hsome

/-- The items, in slot order. -/
theorem items (h : library.Reads m) (hm : Lists entries m) :
    library.items = entries.map fun entry => (entry.1, ⟨bodyBytes entry.2⟩) :=
  items_eq h.ok h.item hm

theorem last_eq (slots : Slots) : slots.last = slots.entries.getLast?.map Prod.fst := by
  cases slots with
  | dense offsets => rfl
  | sparse offsets => rfl

section

variable (h : library.Reads m) (hm : Lists entries m)
include h hm

/-- The slots of a file are those up to the last item's. -/
theorem storedSlots_eq (hmask : ∀ entry ∈ entries, entry.1 ≤ phraseMask) :
    library.storedSlots = slotCount entries ∧ library.isEmpty = decide (entries = []) := by
  have hitems := h.items hm
  rcases eq_nil_or_concat library.slots.entries with hnil | ⟨init, ⟨slot, offset⟩, hconcat⟩
  · have hentries : entries = [] := by
      rw [UserLibrary.items, hnil, filterMap_nil] at hitems
      exact map_eq_nil_iff.mp hitems.symm
    rw [storedSlots, isEmpty, hnil, hentries]
    exact ⟨rfl, rfl⟩
  · rw [concat_eq_append] at hconcat
    have hlast : library.slots.last = some slot := by
      rw [last_eq, hconcat, getLast?_concat]
      rfl
    obtain ⟨item, hitem⟩ := isSome_iff_exists.mp (h.last slot hlast)
    have hmem : (slot, item) ∈ entries := (hm.mem slot item).mpr hitem
    have hmost : ∀ entry ∈ entries, entry.1 ≤ slot := by
      intro entry hentry
      obtain ⟨other, hother⟩ := isSome_iff_exists.mp
        (h.isSome_offset (by rw [(hm.mem entry.1 entry.2).mp hentry]; rfl))
      have hin := (h.ok.lists.mem entry.1 other).mpr hother
      have hascending := h.ok.lists.ascending
      rw [hconcat] at hin hascending
      rcases mem_append.mp hin with hin | hin
      · exact BitVec.le_of_lt ((pairwise_append.mp hascending).2.2 _ hin _ (mem_singleton_self _))
      · exact BitVec.le_of_eq (congrArg Prod.fst (mem_singleton.mp hin))
    have hne : entries ≠ [] := ne_nil_of_mem hmem
    have hcount : slotCount entries = slot.toNat + 1 := by
      have hlow := (Listed.mk hm.ascending fun entry hentry =>
        h.fits entry.1 entry.2 ((hm.mem _ _).mp hentry)).lt_slotCount hmem
      obtain ⟨last, hgetLast⟩ : ∃ last, entries.getLast? = some last := ⟨_, getLast?_eq_some_getLast hne⟩
      have hhigh : last.1.toNat ≤ slot.toNat := hmost last (mem_of_getLast? hgetLast)
      rw [slotCount, hgetLast, map_some, getD_some] at hlow ⊢
      dsimp only at hlow
      omega
    have hnonempty : library.isEmpty = false := by
      rw [isEmpty, hconcat]
      simp
    have hslot : slot.toNat ≤ phraseMask.toNat := hmask (slot, item) hmem
    have hbound : phraseMask.toNat < 2 ^ 32 - 1 := by decide
    refine ⟨?_, by rw [hnonempty, decide_eq_false hne]⟩
    rw [storedSlots, hnonempty, if_neg Bool.false_ne_true, tokenEnd, h.whole, if_neg Bool.false_ne_true, hlast,
      map_some, getD_some, hcount]
    omega

theorem compactedContentLen_eq :
    library.compactedContentLen =
      firstItemOffset + (entries.flatMap fun entry => bodyBytes entry.2).length := by
  have hfold : ∀ (entries : List (BitVec 32 × ChunkItem)) (start : Nat),
      (entries.map fun entry => (entry.1, PhraseItemView.mk (bodyBytes entry.2))).foldl
        (fun len entry => len + entry.2.bytes.length) start =
      start + (entries.flatMap fun entry => bodyBytes entry.2).length := by
    intro entries
    induction entries with
    | nil =>
      intro start
      rfl
    | cons entry rest ih =>
      intro start
      rw [map_cons, foldl_cons, ih, flatMap_cons, length_append, Nat.add_assoc]
  rw [compactedContentLen, h.items hm, hfold]
  rfl

theorem storedContentLen_eq (hmask : ∀ entry ∈ entries, entry.1 ≤ phraseMask) :
    library.storedContentLen = (entryArea entries).length := by
  rw [storedContentLen, (h.storedSlots_eq hm hmask).2, entryArea]
  by_cases hnil : entries = []
  · simp [hnil]
  · rw [decide_eq_false hnil, if_neg Bool.false_ne_true, if_neg hnil, h.compactedContentLen_eq hm,
      length_append, length_replicate]

end

/-- The items copied into a payload, then the total and the last separator. -/
theorem overwrite_total {slots indexThree : Nat} (total : BitVec 32) (back : Bytes) :
    overwrite (headBytes 0 slots indexThree ++ back) 0 (le32 total) =
      headBytes total slots indexThree ++ back := by
  have hover := overwrite_append [] (le32 0) (le32 17 ++ le32 (BitVec.ofNat 32 (18 + slots * 4)) ++
    le32 (BitVec.ofNat 32 indexThree) ++ [separator] ++ back) (le32 total) (by simp)
  rw [headBytes, headBytes]
  simpa using hover

/-- The file of a library is the layout of its items. -/
theorem store_layout (h : library.Reads m) (hm : Lists entries m)
    (hmask : ∀ entry ∈ entries, entry.1 ≤ phraseMask) {file : Bytes}
    (hfile : buildMemoryChunk (layoutBytes entries) = .ok file) : library.store = .ok file := by
  have hlisted : Listed entries := ⟨hm.ascending, fun entry hentry =>
    h.fits entry.1 entry.2 ((hm.mem _ _).mp hentry)⟩
  obtain ⟨hslots, hempty⟩ := h.storedSlots_eq hm hmask
  have hcontent := h.storedContentLen_eq hm hmask
  have hlength : (layoutBytes entries).length < 2 ^ 32 := by
    unfold buildMemoryChunk at hfile
    split_ifs at hfile with hlength
    exact hlength
  have hparts : 18 + slotCount entries * 4 + (entryArea entries).length + 1 < 2 ^ 32 := by
    rw [layoutBytes, length_indexBytes, length_flatMap_le32, length_offsetArray, indexOne] at hlength
    omega
  have harea : (entryArea entries).length < 2 ^ 32 := by omega
  set indexThree := 18 + slotCount entries * 4 + (entryArea entries).length + 1 with hthree
  have hcopied : library.items.foldlM (storeItem (18 + slotCount entries * 4))
      (if library.isEmpty then blankPayload (slotCount entries) indexThree
        else blankPayload (slotCount entries) indexThree ++ replicate 8 0, 0) =
      .ok (headBytes 0 (slotCount entries) indexThree ++ ((offsetArray entries).flatMap le32 ++
        [separator] ++ entryArea entries), unigramSum entries) := by
    rw [h.items hm, hempty, blankPayload_eq]
    by_cases hnil : entries = []
    · rw [hnil]
      rfl
    · have hstart : (headBytes 0 (slotCount entries) indexThree ++
          replicate (slotCount entries * 4) 0 ++ [separator]) ++ replicate 8 0 =
          storedBytes (slotCount entries) indexThree [] := by
        rw [storedBytes, offsetWords_nil, flatMap_nil, append_nil]
        rfl
      have hsize : firstItemOffset + (entries.flatMap fun entry => bodyBytes entry.2).length < 2 ^ 32 := by
        rwa [entryArea, if_neg hnil, length_append, length_replicate] at harea
      have hcopy := @storeItems_eq (slotCount entries) indexThree (slotCount_le entries) entries [] hlisted
        (fun entry hentry => ⟨hmask entry hentry, hlisted.lt_slotCount hentry⟩) hsize
      rw [nil_append] at hcopy
      rw [decide_eq_false hnil, if_neg Bool.false_ne_true, hstart, entryArea, if_neg hnil]
      refine hcopy.trans ?_
      rw [storedBytes, show offsetWords (slotCount entries) entries = offsetArray entries from rfl]
      simp only [append_assoc]
  have hlayout : overwrite (headBytes 0 (slotCount entries) indexThree ++
      ((offsetArray entries).flatMap le32 ++ [separator] ++ entryArea entries)) 0
        (le32 (unigramSum entries)) ++ [separator] = layoutBytes entries := by
    rw [overwrite_total, layoutBytes, indexBytes, headBytes, length_flatMap_le32, length_offsetArray, indexOne,
      hthree, Nat.add_right_comm 17]
    simp
  rw [store, hslots, hcontent]
  dsimp only
  rw [← hthree, if_neg (by omega), if_neg (by omega), if_neg (by omega), if_neg (by omega), hcopied]
  dsimp only
  rw [hlayout, buildMemoryChunkOwned_eq, hfile]

end Reads

/-! ## Loading a file -/

variable {area : Bytes} {slots : Slots}

theorem range?_drop {content : Bytes} {start : Nat} (h : start ≤ content.length) :
    range? content start content.length = some (content.drop start) := by
  rw [range?, if_pos ⟨h, Nat.le_refl _⟩, take_of_length_le (by rw [length_drop])]

/-- Where every offset names an item, the check passes. -/
theorem validateSlots_eq {offsets : List (BitVec 32)} (h : Readable offsets area) :
    ∃ count, offsets.zipIdx.foldlM (validateSlot area) 0 = .ok count := by
  refine foldlM_ok fun count word hword => ?_
  rw [validateSlot]
  by_cases hzero : word.1 = 0
  · exact ⟨count, if_pos hzero⟩
  · obtain ⟨hin, item, hdecode⟩ := h word.2 word.1 (mem_zipIdx_iff_getElem?.mp hword) hzero
    obtain ⟨hfits, back, hbytes⟩ := decodePhraseItem_eq_ok.mp hdecode
    have hvalid : validatePhraseItem (area.drop word.1.toNat) = .ok () := by
      have hsize := totalSize_bodyBytes hfits back
      have hlength := length_bodyBytes hfits
      rw [hbytes, validatePhraseItem_eq_ok, hsize, length_append]
      omega
    rw [if_neg hzero, range?_drop hin]
    dsimp only
    rw [hvalid]
    exact ⟨_, rfl⟩

theorem isSome_of_last (hok : slots.Ok) (h : slots.last = some slot) :
    (slots.offset slot).isSome := by
  rw [Reads.last_eq] at h
  obtain ⟨entry, hentry, rfl⟩ := map_eq_some_iff.mp h
  rw [(hok.lists.mem entry.1 entry.2).mp (mem_of_getLast? hentry)]
  rfl

theorem Holds.reads {library : UserLibrary} {base : BitVec 32} {m : ItemMap} (h : library.Holds base m) :
    library.Reads m := by
  refine ⟨h.whole, h.ok, h.item_eq, h.fits, fun slot hlast => ?_⟩
  rw [← h.names]
  exact isSome_of_last h.ok hlast

/-- Where the laid out array has an item. -/
theorem offset_of_layout {front back : List (BitVec 32 × ChunkItem)} {item : ChunkItem}
    (hlisted : Listed (front ++ (slot, item) :: back))
    (harea : (entryArea (front ++ (slot, item) :: back)).length < 2 ^ 32) :
    ∃ offset, (dense (offsetArray (front ++ (slot, item) :: back))).offset slot = some offset ∧
      offset.toNat = firstItemOffset + (front.flatMap fun entry => bodyBytes entry.2).length := by
  obtain ⟨at_, hoffset, hlow, hhigh, _⟩ := entryArea_split hlisted rfl
  have hfront := offsetOf_append slot item back front firstItemOffset fun entry hentry =>
    ne_of_lt ((pairwise_append.mp hlisted.ascending).2.2 entry hentry _ mem_cons_self)
  have hword : (BitVec.ofNat 32 at_).toNat = at_ := by
    rw [BitVec.toNat_ofNat, Nat.mod_eq_of_lt (by omega)]
  have hne : BitVec.ofNat 32 at_ ≠ 0 := by
    intro hzero
    rw [hzero] at hword
    rw [← hword] at hlow
    exact absurd hlow (by decide)
  refine ⟨BitVec.ofNat 32 at_, ?_, ?_⟩
  · rw [offset, offsetArray, getElem?_map,
      getElem?_range (hlisted.lt_slotCount (mem_append_right front mem_cons_self)), map_some, BitVec.ofNat_toNat,
      BitVec.setWidth_eq, hoffset, getD_some, live_of_ne hne]
  · rw [hword]
    exact some.inj (hoffset.symm.trans hfront)

/-- Of two entries the one listed first ends before the other starts. -/
theorem length_le_of_before {front more back rest : List (BitVec 32 × ChunkItem)} {j k : BitVec 32} {x y : ChunkItem}
    (hjk : j ≠ k) (h : (j, x) :: back = more ++ (k, y) :: rest) :
    (front.flatMap fun entry => bodyBytes entry.2).length + (bodyBytes x).length ≤
      ((front ++ more).flatMap fun entry => bodyBytes entry.2).length := by
  cases more with
  | nil => exact absurd (Prod.mk.inj (cons.inj h).1).1 hjk
  | cons first more =>
    rw [← (cons.inj h).1, flatMap_append, flatMap_cons, length_append, length_append]
    exact Nat.add_le_add_left (Nat.le_add_right _ _) _

/-- The items of a layout lie apart in its entry area. -/
theorem placed_layout {m : ItemMap} {entries : List (BitVec 32 × ChunkItem)} (hm : Lists entries m)
    (hlisted : Listed entries) (harea : (entryArea entries).length < 2 ^ 32) (total : BitVec 32)
    (hoffset : slots.offset = (dense (offsetArray entries)).offset) :
    Blocks.Placed (entryArea entries) (blocks ⟨total, slots, entryArea entries, false⟩ m) := by
  have hat : ∀ slot start block, blocks ⟨total, slots, entryArea entries, false⟩ m slot = some (start, block) →
      ∃ front item back, entries = front ++ (slot, item) :: back ∧ bodyBytes item = block ∧
        firstItemOffset + (front.flatMap fun entry => bodyBytes entry.2).length = start := by
    intro slot start block hblock
    obtain ⟨item, hitem, hblock⟩ := bind_eq_some_iff.mp hblock
    obtain ⟨offset, hfound, hblock⟩ := map_eq_some_iff.mp hblock
    obtain ⟨hstart, hbody⟩ := Prod.mk.inj hblock
    obtain ⟨front, back, rfl⟩ := append_of_mem ((hm.mem slot item).mpr hitem)
    obtain ⟨at_, hat, hnat⟩ := offset_of_layout hlisted harea
    rw [hoffset, hat] at hfound
    exact ⟨front, item, back, rfl, hbody, by rw [← hnat, some.inj hfound, hstart]⟩
  refine ⟨fun slot start block hblock => ?_, fun j k a b x y hjk hj hk => ?_⟩
  · obtain ⟨front, item, back, rfl, rfl, rfl⟩ := hat slot start block hblock
    refine ⟨replicate firstItemOffset 0 ++ front.flatMap fun entry => bodyBytes entry.2,
      back.flatMap fun entry => bodyBytes entry.2, ?_, by rw [length_append, length_replicate]⟩
    rw [entryArea, if_neg (by simp), flatMap_append, flatMap_cons]
    simp only [append_assoc]
  · obtain ⟨front, item, back, hentries, rfl, rfl⟩ := hat j a x hj
    obtain ⟨front', item', back', hentries', rfl, rfl⟩ := hat k b y hk
    rcases append_eq_append_iff.mp (hentries.symm.trans hentries') with ⟨more, rfl, hmore⟩ | ⟨more, rfl, hmore⟩
    · have hle := @length_le_of_before front _ _ _ _ _ _ _ hjk hmore
      omega
    · have hle := @length_le_of_before front' _ _ _ _ _ _ _ hjk.symm hmore
      omega

/-- The offsets of a payload fit the slots of a library. -/
theorem dense_ok_of_sections {payload offsets : Bytes} {total : BitVec 32}
    (h : subPhraseIndexSections payload = .ok (total, offsets, area)) :
    (dense ((chunks 4 offsets).map word32)).Ok := by
  obtain ⟨one, two, three, _, _, _, hoffsets, _⟩ := subPhraseIndexSections_eq_ok.mp h
  obtain ⟨_, _, _, _, hstop⟩ := range?_eq_some_iff.mp hoffsets
  have htwo := two.isLt
  rw [Slots.Ok, length_map, length_chunks]
  omega

/-- A layout loads as a library that holds its items. -/
theorem loadPayload_holds {m : ItemMap} {entries : List (BitVec 32 × ChunkItem)} (hm : Lists entries m)
    (hfits : ∀ entry ∈ entries, entry.2.Fits) (hlength : (layoutBytes entries).length < 2 ^ 32) :
    ∃ loaded, loadPayload (layoutBytes entries) = .ok loaded ∧ loaded.Holds 0 m ∧
      loaded.total = unigramSum entries := by
  have hlisted : Listed entries := ⟨hm.ascending, hfits⟩
  have harea : (entryArea entries).length < 2 ^ 32 := by
    rw [layoutBytes, length_indexBytes] at hlength
    omega
  obtain ⟨count, hcount⟩ := validateSlots_eq (readable_layout hlisted harea)
  have hdense : (dense (offsetArray entries)).Ok := by
    rw [Slots.Ok, length_offsetArray]
    exact slotCount_le entries
  -- both representations name the items of the map
  have hholds : ∀ slots : Slots, slots.Ok → slots.offset = (dense (offsetArray entries)).offset →
      Holds ⟨unigramSum entries, slots, entryArea entries, false⟩ 0 m := by
    intro slots hok hoffset
    refine ⟨rfl, hok, fun slot => ?_, fun slot item hget => hfits _ ((hm.mem slot item).mpr hget),
      placed_layout hm hlisted harea _ hoffset, ?_⟩
    · have hlayout := offset_layout hlisted hm harea slot
      rw [hoffset, offset]
      cases hget : m slot with
      | some item =>
        rw [hget] at hlayout
        obtain ⟨offset, hfound, hne, _⟩ := hlayout
        rw [hfound, live_of_ne hne, isSome_some, isSome_some]
      | none =>
        rw [hget] at hlayout
        dsimp only at hlayout ⊢
        cases hfound : (offsetArray entries)[slot.toNat]? with
        | none => rfl
        | some offset => rw [hlayout offset hfound, live_zero, isSome_none, isSome_none]
    · rw [zero_add]
      exact hm.sum_eq fun _ item => item.unigram
  obtain ⟨hsparse, hsame⟩ := hdense.toSparse
  have hsections := @subPhraseIndexSections_indexBytes (unigramSum entries) _ _ hlength
  rw [loadPayload, layoutBytes, hsections]
  dsimp only
  rw [map_word32_chunks, hcount]
  refine ⟨_, rfl, ?_, rfl⟩
  dsimp only
  split_ifs
  · exact hholds _ hdense rfl
  · exact hholds _ hsparse hsame

theorem loadPayload_layout {m : ItemMap} {entries : List (BitVec 32 × ChunkItem)} (hm : Lists entries m)
    (hfits : ∀ entry ∈ entries, entry.2.Fits) (hlength : (layoutBytes entries).length < 2 ^ 32) :
    ∃ loaded, loadPayload (layoutBytes entries) = .ok loaded ∧ loaded.Reads m ∧
      loaded.total = unigramSum entries := by
  obtain ⟨loaded, hload, hholds, htotal⟩ := loadPayload_holds hm hfits hlength
  exact ⟨loaded, hload, hholds.reads, htotal⟩

/-! ## Round trips -/

variable {file : Bytes}

/-- Every library whose last slot has a readable item reads as a map. -/
theorem exists_reads {library : UserLibrary} (hwhole : library.headersOnly = false) (hok : library.slots.Ok)
    (hlast : ∀ slot, library.slots.last = some slot → (library.item slot).isSome) :
    ∃ (m : ItemMap) (entries : List (BitVec 32 × ChunkItem)), library.Reads m ∧ Lists entries m := by
  have hview : ∀ slot view, library.item slot = some view →
      ∃ item : ChunkItem, item.Fits ∧ view = ⟨bodyBytes item⟩ := by
    intro slot view hitem
    rw [item, hwhole, if_neg Bool.false_ne_true] at hitem
    obtain ⟨offset, _, hitem⟩ := bind_eq_some_iff.mp hitem
    obtain ⟨bytes, _, hbytes⟩ := bind_eq_some_iff.mp hitem
    obtain ⟨item, hfits, hview, _⟩ := fromBytes_eq_some.mp hbytes
    exact ⟨item, hfits, hview⟩
  set m : ItemMap := fun slot =>
    (library.item slot).bind fun view => (decodePhraseItem view.bytes).toOption with hm
  have hdecode : ∀ item : ChunkItem, item.Fits → (decodePhraseItem (bodyBytes item)).toOption = some item := by
    intro item hfits
    rw [decodePhraseItem_eq_ok.mpr ⟨hfits, [], (append_nil _).symm⟩]
    rfl
  have hreads : library.Reads m := by
    refine ⟨hwhole, hok, fun slot => ?_, fun slot item hget => ?_, fun slot hslot => ?_⟩
    · cases hitem : library.item slot with
      | none =>
        rw [hm]
        dsimp only
        rw [hitem]
        rfl
      | some view =>
        obtain ⟨item, hfits, rfl⟩ := hview slot view hitem
        rw [hm]
        dsimp only
        rw [hitem, bind_some, hdecode item hfits]
        rfl
    · obtain ⟨view, _, hview⟩ := bind_eq_some_iff.mp hget
      exact (decodePhraseItem_eq_ok.mp (eq_ok_of_toOption hview)).1
    · obtain ⟨view, hitem⟩ := isSome_iff_exists.mp (hlast slot hslot)
      obtain ⟨item, hfits, rfl⟩ := hview slot view hitem
      rw [hm]
      dsimp only
      rw [hitem, bind_some, hdecode item hfits]
      rfl
  exact ⟨m, _, hreads, hok.lists.values fun slot item hget => hreads.isSome_offset (by rw [hget]; rfl)⟩

/-- Items with the same bytes are the same. -/
theorem entries_unique : ∀ {items : List (BitVec 32 × PhraseItemView)} {xs ys : List (BitVec 32 × ChunkItem)},
    (∀ entry ∈ xs, entry.2.Fits) → (∀ entry ∈ ys, entry.2.Fits) →
    items = xs.map (fun entry => (entry.1, ⟨bodyBytes entry.2⟩)) →
    List.Forall₂ (fun shown entry => shown.1 = entry.1 ∧ shown.2.Shows entry.2) items ys → xs = ys
  | [], xs, ys, _, _, hitems, hys => by
    cases hys
    exact map_eq_nil_iff.mp hitems.symm
  | shown :: items, xs, ys, hxs, hysFits, hitems, hys => by
    obtain ⟨y, ys, ⟨hslot, hshows⟩, hrest, rfl⟩ := forall₂_cons_left_iff.mp hys
    match xs with
    | [] => cases hitems
    | x :: xs =>
      obtain ⟨rfl, htailItems⟩ := cons.inj hitems
      have hfits := hxs x mem_cons_self
      have hyfits := hysFits y mem_cons_self
      have hbytes : bodyBytes x.2 = bodyBytes y.2 := hshows.bytes
      have hbody : x.2 = y.2 := by
        have hx := decodePhraseItem_bodyBytes hfits []
        have hy := decodePhraseItem_bodyBytes hyfits []
        rw [hbytes, hy] at hx
        exact (Except.ok.inj hx).symm
      have htail := entries_unique (fun e he => hxs e (mem_cons_of_mem _ he))
        (fun e he => hysFits e (mem_cons_of_mem _ he)) htailItems hrest
      rw [Prod.ext hslot hbody, htail]

/-- A stored library loads with the same items and the wrapped sum of their frequencies, and the
reload, a compaction and the chunk writer all store the same bytes. -/
theorem store_load {library : UserLibrary} (hwhole : library.headersOnly = false) (hok : library.slots.Ok)
    (hlast : ∀ slot, library.slots.last = some slot → (library.item slot).isSome)
    (hmask : ∀ entry ∈ library.items, entry.1 ≤ phraseMask)
    (hsize : 18 + library.storedSlots * 4 + library.storedContentLen + 1 < 2 ^ 32) :
    ∃ file, library.store = .ok file ∧
      (∃ loaded, load file = .ok loaded ∧ loaded.items = library.items ∧
        loaded.total = (library.items.map fun entry => entry.2.unigram).sum ∧ loaded.store = .ok file) ∧
      library.compact.store = .ok file ∧
      ∀ entries, List.Forall₂ (fun shown entry => shown.1 = entry.1 ∧ shown.2.Shows entry.2)
          library.items entries → ∀ built, buildChunk entries = .ok built → built = file := by
  obtain ⟨m, entries, hreads, hm⟩ := exists_reads hwhole hok hlast
  have hitems := hreads.items hm
  have hfits : ∀ entry ∈ entries, entry.2.Fits := fun entry hentry =>
    hreads.fits entry.1 entry.2 ((hm.mem _ _).mp hentry)
  have hmasked : ∀ entry ∈ entries, entry.1 ≤ phraseMask := by
    intro entry hentry
    exact hmask (entry.1, ⟨bodyBytes entry.2⟩)
      (hitems ▸ List.mem_map_of_mem (f := fun entry => (entry.1, PhraseItemView.mk (bodyBytes entry.2))) hentry)
  have hlength : (layoutBytes entries).length < 2 ^ 32 := by
    rw [(hreads.storedSlots_eq hm hmasked).1, hreads.storedContentLen_eq hm hmasked] at hsize
    rw [layoutBytes, length_indexBytes, length_flatMap_le32, length_offsetArray, indexOne]
    omega
  obtain ⟨file, hfile⟩ : ∃ file, buildMemoryChunk (layoutBytes entries) = .ok file := by
    rw [buildMemoryChunk, if_pos hlength]
    exact ⟨_, rfl⟩
  refine ⟨file, hreads.store_layout hm hmasked hfile, ?_, ?_, ?_⟩
  · obtain ⟨loaded, hload, hloaded, htotal⟩ := loadPayload_layout hm hfits hlength
    refine ⟨loaded, ?_, ?_, ?_, hloaded.store_layout hm hmasked hfile⟩
    · rw [load, readChunkPayload_buildMemoryChunk hfile]
      exact hload
    · rw [hloaded.items hm, hitems]
    · rw [htotal, unigramSum, hitems, List.map_map]
      refine congrArg List.sum (map_congr_left fun entry hentry => ?_)
      exact (shows_bodyBytes (hfits entry hentry)).unigram.symm
  · have hbodies : firstItemOffset + (entries.flatMap fun entry => bodyBytes entry.2).length < 2 ^ 32 := by
      by_cases hnil : entries = []
      · rw [hnil]
        decide
      · rw [layoutBytes, length_indexBytes, entryArea, if_neg hnil, length_append,
          length_replicate] at hlength
        omega
    have hroom : library.compact.content.length < 2 ^ 32 := by
      rw [compact, compacted, hitems, foldl_map]
      refine Holds.copy_fits (Holds.fresh_of library) ?_ hfits ?_
      · split_ifs
        · exact .inl rfl
        · exact .inl rfl
      · split_ifs
        · exact hbodies
        · exact hbodies
    exact (Holds.compacted hm hitems hfits hroom).reads.store_layout hm hmasked hfile
  · intro other hother built hbuilt
    obtain ⟨hlisted, _, _, _, hframed⟩ := buildChunk_layout hbuilt
    have hsame := entries_unique hfits hlisted.fits hitems hother
    rw [← hsame, hfile] at hframed
    exact (Except.ok.inj hframed).symm

/-- Slot 0, an item with no character and dead bytes between two items. -/
theorem store_load_gap :
    let library : UserLibrary := ⟨7, .dense [8, 0, 17, 0], [0, 0, 0, 0, 0, 0, 0, 0, 0, 0, 5, 0, 0, 0, 9, 9, 9,
      1, 0, 1, 0, 0, 0, 0x60, 0x4f, 0, 0], false⟩
    ∃ file, library.store = .ok file ∧
      (∃ loaded, load file = .ok loaded ∧ loaded.items = library.items ∧
        loaded.total = (library.items.map fun entry => entry.2.unigram).sum ∧ loaded.store = .ok file) ∧
      library.compact.store = .ok file ∧
      ∀ entries, List.Forall₂ (fun shown entry => shown.1 = entry.1 ∧ shown.2.Shows entry.2)
          library.items entries → ∀ built, buildChunk entries = .ok built → built = file :=
  store_load rfl (by unfold Slots.Ok; decide) (fun slot hlast => by
    obtain rfl : 2 = slot := some.inj hlast
    decide +kernel) (by decide +kernel) (by decide +kernel)

theorem masked_of_storeItems {indexTwo : Nat} :
    ∀ {items : List (BitVec 32 × PhraseItemView)} {state last : Bytes × BitVec 32},
      items.foldlM (storeItem indexTwo) state = .ok last → ∀ entry ∈ items, entry.1 ≤ phraseMask
  | [], _, _, _, _, hentry => by cases hentry
  | first :: rest, state, last, h, entry, hentry => by
    rw [foldlM_cons] at h
    obtain ⟨next, hnext, hrest⟩ := bind_eq_ok h
    rcases mem_cons.mp hentry with rfl | hentry
    · by_contra hmask
      rw [storeItem, if_pos (BitVec.not_le.mp hmask)] at hnext
      cases hnext
    · exact masked_of_storeItems hrest entry hentry

/-- A store writes no slot past the mask. -/
theorem masked_of_store {library : UserLibrary} (h : library.store = .ok file) :
    ∀ entry ∈ library.items, entry.1 ≤ phraseMask := by
  rw [store] at h
  dsimp only at h
  split_ifs at h
  all_goals
    split at h
    · cases h
    · rename_i hitems
      exact masked_of_storeItems hitems

/-! ## Sessions over one file -/

/-- A session edits its library, or saves it for the next one to open. -/
inductive SessionStep where
  | edit (op : LibraryOp)
  | reopen

open SessionStep

/-- The library after a step. A refused save leaves it as it is. -/
def SessionStep.apply (library : UserLibrary) : SessionStep → UserLibrary
  | edit op => op.apply library
  | reopen => (library.store.bind load).toOption.getD library

/-- The map after a step : a save does not show. -/
def SessionStep.onMap (m : ItemMap) : SessionStep → ItemMap
  | edit op => op.onMap m
  | reopen => m

/-- An add is made on an empty slot. -/
def SessionStep.OnEmpty (library : UserLibrary) : SessionStep → Prop
  | edit op => op.OnEmpty library
  | reopen => True

/-- The adds are made on empty slots, and the content keeps below the word size. -/
def SessionStep.Within (steps : List SessionStep) : Prop :=
  Along SessionStep.apply SessionStep.OnEmpty empty steps ∧
    ∀ library ∈ states SessionStep.apply empty steps, library.content.length < 2 ^ 32

/-- A file is written only where its sizes fit. -/
theorem size_of_store {library : UserLibrary} (h : library.store = .ok file) :
    18 + library.storedSlots * 4 + library.storedContentLen + 1 < 2 ^ 32 := by
  rw [store] at h
  dsimp only at h
  split_ifs at h
  all_goals omega

/-- A library opened from its own file holds what it held. -/
theorem Holds.reopen {library : UserLibrary} {m : ItemMap} (h : library.Holds 0 m) (hmasked : Masked m) :
    (reopen.apply library).Holds 0 m := by
  obtain ⟨entries, hm⟩ := h.exists_lists
  cases hstore : library.store with
  | error e =>
    rw [apply, hstore]
    exact h
  | ok file =>
    have hmask : ∀ entry ∈ entries, entry.1 ≤ phraseMask := fun entry hentry =>
      hmasked entry.1 (isSome_of_eq_some ((hm.mem _ _).mp hentry))
    have hlength : (layoutBytes entries).length < 2 ^ 32 := by
      have hsize := size_of_store hstore
      rw [(h.reads.storedSlots_eq hm hmask).1, h.reads.storedContentLen_eq hm hmask] at hsize
      rw [layoutBytes, length_indexBytes, length_flatMap_le32, length_offsetArray, indexOne]
      omega
    obtain ⟨built, hbuilt⟩ : ∃ built, buildMemoryChunk (layoutBytes entries) = .ok built := by
      rw [buildMemoryChunk, if_pos hlength]
      exact ⟨_, rfl⟩
    obtain ⟨loaded, hload, hloaded, _⟩ := loadPayload_holds hm
      (fun entry hentry => h.fits entry.1 entry.2 ((hm.mem _ _).mp hentry)) hlength
    rw [apply, h.reads.store_layout hm hmask hbuilt]
    change ((load built).toOption.getD library).Holds 0 m
    rw [load, readChunkPayload_buildMemoryChunk hbuilt]
    dsimp only
    rw [hload]
    exact hloaded

theorem Holds.sessions : ∀ {steps : List SessionStep} {library : UserLibrary} {m : ItemMap}, library.Holds 0 m →
    Masked m → Along apply SessionStep.OnEmpty library steps →
    (∀ state ∈ states apply library steps, state.content.length < 2 ^ 32) →
    (steps.foldl apply library).Holds 0 (steps.foldl onMap m) ∧
      Masked (steps.foldl onMap m)
  | [], _, _, h, hmasked, _, _ => ⟨h, hmasked⟩
  | .edit op :: steps, library, m, h, hmasked, hempty, hroom => by
    have hrest : ∀ state ∈ states apply (op.apply library) steps, state.content.length < 2 ^ 32 :=
      fun state hstate => hroom state (mem_cons_of_mem _ hstate)
    exact (h.step hmasked hempty.1 (hroom library mem_cons_self) (hrest _ (mem_states_self _ _))).sessions
      (masked_onMap hmasked op) hempty.2 hrest
  | .reopen :: steps, library, m, h, hmasked, hempty, hroom =>
    (h.reopen hmasked).sessions hmasked hempty.2 fun state hstate => hroom state (mem_cons_of_mem _ hstate)

/-- The file of a library is that of the map it reads as. -/
theorem Reads.store_eq {x y : UserLibrary} {m : ItemMap} {entries : List (BitVec 32 × ChunkItem)} (hx : x.Reads m)
    (hy : y.Reads m) (hm : Lists entries m) (hmask : ∀ entry ∈ entries, entry.1 ≤ phraseMask) :
    x.store = y.store := by
  obtain ⟨hslots, hempty⟩ := hx.storedSlots_eq hm hmask
  obtain ⟨hslots', hempty'⟩ := hy.storedSlots_eq hm hmask
  rw [store, store, hslots, hslots', hx.storedContentLen_eq hm hmask, hy.storedContentLen_eq hm hmask, hempty,
    hempty', hx.items hm, hy.items hm]

/-- However the edits are split over sessions : the library answers as their map, and the file depends on
that map only. -/
theorem sessions_store {xs ys : List SessionStep} (hxs : SessionStep.Within xs) (hys : SessionStep.Within ys)
    (hsame : xs.foldl SessionStep.onMap (fun _ => none) = ys.foldl SessionStep.onMap fun _ => none) :
    (xs.foldl SessionStep.apply empty).Answers (xs.foldl SessionStep.onMap fun _ => none) ∧
      (xs.foldl SessionStep.apply empty).store = (ys.foldl SessionStep.apply empty).store := by
  have hfresh := @Holds.fresh (.dense []) (Nat.zero_le _) fun _ => rfl
  obtain ⟨hx, hmasked⟩ := hfresh.sessions (fun _ hsome => by cases hsome) hxs.1 hxs.2
  obtain ⟨hy, _⟩ := hfresh.sessions (fun _ hsome => by cases hsome) hys.1 hys.2
  rw [← hsame] at hy
  obtain ⟨entries, hm⟩ := hx.exists_lists
  exact ⟨hx.answers, hx.reads.store_eq hy.reads hm fun entry hentry =>
    hmasked entry.1 (isSome_of_eq_some ((hm.mem _ _).mp hentry))⟩

/-- An item counted up in the session that added it, and in the next one, which compacts. -/
theorem sessions_store_count : ([.edit (.add 1 [0, 0, 5, 0, 0, 0]), .edit (.incrementUnigram 1 7)].foldl
    SessionStep.apply empty).store = ([.edit (.add 1 [0, 0, 5, 0, 0, 0]), .reopen, .edit (.incrementUnigram 1 7),
      .edit .compact].foldl SessionStep.apply empty).store :=
  And.right (sessions_store ⟨⟨rfl, trivial, trivial⟩, by decide +kernel⟩
    ⟨⟨rfl, trivial, trivial, trivial, trivial⟩, by decide +kernel⟩ rfl)

/-- One item, its slot past the mask. -/
def pastMask : UserLibrary :=
  ⟨0, .sparse (SortedMap.empty.insert 0x01000000 8), [0, 0, 0, 0, 0, 0, 0, 0, 0, 0, 0, 0, 0, 0], false⟩

/-- One slot, its offset past the content. -/
def unreadableLast : UserLibrary := ⟨0, .dense [0, 100], [], false⟩

/-- A slot past the mask is refused, whatever the size of the content, and a last slot with no
readable item is stored but not stored again after a reload. -/
theorem not_store_load :
    (pastMask.headersOnly = false ∧ pastMask.compactedContentLen < 2 ^ 32 ∧
        ∀ file, pastMask.store ≠ .ok file) ∧
      unreadableLast.headersOnly = false ∧ unreadableLast.compactedContentLen < 2 ^ 32 ∧
      ∃ file loaded again, unreadableLast.store = .ok file ∧ load file = .ok loaded ∧
        loaded.store = .ok again ∧ again ≠ file := by
  refine ⟨⟨rfl, by decide +kernel, fun file hfile => ?_⟩, rfl, by decide +kernel, ?_⟩
  · exact absurd (masked_of_store hfile (0x01000000, ⟨[0, 0, 0, 0, 0, 0]⟩) (by decide +kernel)) (by decide)
  · exact ⟨_, ⟨0, .dense [0, 0], [0, 0, 0, 0, 0, 0, 0, 0], false⟩, _, rfl, rfl, rfl, by decide +kernel⟩

end UserLibrary

end Oxpinyin
