import Oxpinyin.LibraryStore

/-!
# The check of an item and the loader built on it

`validatePhraseItem` finds the first field that is cut off from the length alone, where
`decodePhraseItem` walks the rows. Both stop at the same field (`validatePhraseItem_eq_decode`),
so a library loads exactly the payloads that `decodeSubPhraseIndex` reads.
-/

namespace Oxpinyin

open Option List LittleEndian FiniteMap ChunkFile Run

namespace ChunkFile

/-! ## One item -/

variable {keys remaining : Nat}

/-- What the check says of the rows behind a place. -/
def checkRows (keys remaining count : Nat) : Except ChunkWriteError Unit :=
  if remaining < count * (keys + 4) then
    .error ⟨if remaining % (keys + 4) < keys then "phrase item: pronunciation keys truncated"
      else "phrase item: pronunciation freq truncated"⟩
  else .ok ()

/-- A whole row in front does not change which field is cut off. -/
theorem checkRows_row {count : Nat} (h : keys + 4 ≤ remaining) :
    checkRows keys remaining (count + 1) = checkRows keys (remaining - (keys + 4)) count := by
  have hmod : remaining % (keys + 4) = (remaining - (keys + 4)) % (keys + 4) := Nat.mod_eq_sub_mod h
  have hrows : remaining < (count + 1) * (keys + 4) ↔ remaining - (keys + 4) < count * (keys + 4) := by
    rw [Nat.succ_mul]
    omega
  unfold checkRows
  rw [hmod]
  exact if_congr hrows rfl rfl

/-- A row that is cut off is named by the field its bytes end in. -/
theorem checkRows_cut (h : remaining < keys + 4) (count : Nat) :
    checkRows keys remaining (count + 1) =
      .error ⟨if remaining < keys then "phrase item: pronunciation keys truncated"
        else "phrase item: pronunciation freq truncated"⟩ := by
  have hrows : remaining < (count + 1) * (keys + 4) := by
    rw [Nat.succ_mul]
    omega
  rw [checkRows, if_pos hrows, Nat.mod_eq_of_lt h]

theorem range?_eq_none {bytes : Bytes} {start stop : Nat} (h : bytes.length < stop) :
    range? bytes start stop = none := by
  rw [range?, if_neg fun hin => absurd hin.2 (Nat.not_le.mpr h)]

theorem isSome_range? {bytes : Bytes} {start stop : Nat} (hle : start ≤ stop) (hin : stop ≤ bytes.length) :
    ∃ part, range? bytes start stop = some part := by
  rw [range?, if_pos ⟨hle, hin⟩]
  exact ⟨_, rfl⟩

/-- The walk over the rows stops where the arithmetic says. -/
theorem decodeProns_eq_checkRows {bytes : Bytes} {phraseLength : Nat} :
    ∀ {count offset : Nat}, offset ≤ bytes.length →
      (decodeProns bytes phraseLength count offset).map (fun _ => ()) =
        checkRows (chewingKeySize * phraseLength) (bytes.length - offset) count
  | 0, offset, _ => by
    rw [checkRows, Nat.zero_mul, if_neg (Nat.not_lt_zero _)]
    rfl
  | count + 1, offset, hin => by
    set keys := chewingKeySize * phraseLength
    by_cases hkeys : bytes.length - offset < keys
    · have harea : range? bytes offset (offset + keys) = none := range?_eq_none (by omega)
      rw [checkRows_cut (by omega), if_pos hkeys, decodeProns, harea]
      rfl
    obtain ⟨area, harea⟩ : ∃ part, range? bytes offset (offset + keys) = some part :=
      isSome_range? (by omega) (by omega)
    by_cases hfreq : bytes.length - offset < keys + 4
    · have hword : word32At bytes (offset + keys) = none := by
        rw [word32At, range?_eq_none (by omega), map_none]
      rw [checkRows_cut hfreq, if_neg hkeys, decodeProns, harea, hword]
      rfl
    · obtain ⟨word, hword⟩ : ∃ part, range? bytes (offset + keys) (offset + keys + 4) = some part :=
        isSome_range? (by omega) (by omega)
      have hrest := @decodeProns_eq_checkRows bytes phraseLength count (offset + keys + 4) (by omega)
      rw [checkRows_row (by omega), Nat.sub_sub, ← Nat.add_assoc, ← hrest, decodeProns, harea, word32At, hword]
      cases decodeProns bytes phraseLength count (offset + keys + 4) with
      | error error => rfl
      | ok prons => rfl

/-- The check and the decoder stop at the same field. -/
theorem validatePhraseItem_eq_decode (bytes : Bytes) :
    validatePhraseItem bytes = (decodePhraseItem bytes).map fun _ => () := by
  match bytes with
  | [] => rfl
  | [_] => rfl
  | length :: count :: rest =>
    set bytes := length :: count :: rest
    have hvalidate : validatePhraseItem bytes =
        if bytes.length < itemHeaderSize then .error ⟨"phrase item: no unigram"⟩
        else if bytes.length < itemHeaderSize + 4 * length.toNat then .error ⟨"phrase item: phrase text truncated"⟩
        else checkRows (chewingKeySize * length.toNat) (bytes.length - (itemHeaderSize + 4 * length.toNat))
          count.toNat := rfl
    have hdecode : decodePhraseItem bytes = do
        let unigram ← okOr (word32At bytes 2) "phrase item: no unigram"
        let area ← okOr (range? bytes itemHeaderSize (itemHeaderSize + 4 * length.toNat))
          "phrase item: phrase text truncated"
        let prons ← decodeProns bytes length.toNat count.toNat (itemHeaderSize + 4 * length.toNat)
        return ⟨(chunks 4 area).map word32, unigram, prons⟩ := rfl
    rw [hvalidate, hdecode]
    split_ifs with hheader htext
    · have hword : word32At bytes 2 = none := by
        rw [word32At, range?_eq_none (show bytes.length < 2 + 4 from hheader), map_none]
      rw [hword]
      rfl
    all_goals
      obtain ⟨word, hword⟩ : ∃ part, range? bytes 2 (2 + 4) = some part :=
        isSome_range? (by omega) (Nat.le_of_not_lt hheader)
      rw [word32At, hword]
    · rw [range?_eq_none htext]
      rfl
    · obtain ⟨area, harea⟩ : ∃ part, range? bytes itemHeaderSize (itemHeaderSize + 4 * length.toNat) = some part :=
        isSome_range? (by omega) (by omega)
      rw [← decodeProns_eq_checkRows (by omega), harea]
      cases decodeProns bytes length.toNat count.toNat (itemHeaderSize + 4 * length.toNat) with
      | error error => rfl
      | ok prons => rfl

end ChunkFile

namespace UserLibrary

/-! ## A payload -/

variable {library : UserLibrary}

/-- The loader's text of a decoder's failure. -/
def loadMessage (error : ChunkWriteError) : String := s!"chunk write error: {error.message}"

theorem append_slotMessage :
    "chunk write error: " ++ "sub phrase index: slot " = "chunk write error: sub phrase index: slot " := by
  decide

theorem append_message (lead head slot back : String) :
    lead ++ (head ++ slot ++ back) = lead ++ head ++ slot ++ back := by
  simp only [String.append_assoc]

theorem loadMessage_slot (slot back : String) :
    loadMessage ⟨"sub phrase index: slot " ++ slot ++ back⟩ =
      "chunk write error: sub phrase index: slot " ++ slot ++ back :=
  (append_message _ _ _ _).trans (congrArg (· ++ slot ++ back) append_slotMessage)

/-- The loader counts what the decoder reads. -/
theorem validateSlot_eq_decode (content : Bytes) (count slot : Nat) (window : Bytes) :
    validateSlot content count (word32 window, slot) =
      ((decodeSlot content slot window).mapError loadMessage).map fun found => count + found.toList.length := by
  have hzero : word32 window = 0 ↔ (word32 window).toNat = 0 :=
    ⟨fun h => by rw [h]; rfl, fun h => BitVec.eq_of_toNat_eq h⟩
  unfold validateSlot decodeSlot
  dsimp only
  by_cases hempty : word32 window = 0
  · rw [if_pos hempty, if_pos (hzero.mp hempty)]
    rfl
  rw [if_neg hempty, if_neg fun h => hempty (hzero.mpr h)]
  by_cases hout : content.length < (word32 window).toNat
  · have hrange : range? content (word32 window).toNat content.length = none := by
      rw [range?, if_neg fun hin => absurd hin.1 (Nat.not_le.mpr hout)]
    rw [if_pos hout, hrange]
    exact congrArg Except.error (loadMessage_slot _ _).symm
  · rw [if_neg hout, range?_drop (Nat.le_of_not_lt hout)]
    dsimp only
    rw [validatePhraseItem_eq_decode, fromBytes_eq_decode]
    cases decodePhraseItem (content.drop (word32 window).toNat) with
    | error error =>
      have htext := loadMessage_slot (toString slot) (": chunk write error: " ++ error.message)
      rw [← String.append_assoc, ← String.append_assoc] at htext
      exact congrArg Except.error htext.symm
    | ok item => rfl

/-- One window of the decoder's loop. -/
def decodeStep (content : Bytes) (items : List (BitVec 32 × ChunkItem)) (window : Bytes × Nat) :
    Except ChunkWriteError (List (BitVec 32 × ChunkItem)) :=
  (decodeSlot content window.2 window.1).map fun found => items ++ found.toList

/-- The loader's loop ends as the decoder's does, with the number of its items. -/
theorem validateSlots_eq_decode (content : Bytes) :
    ∀ (windows : List (Bytes × Nat)) (items : List (BitVec 32 × ChunkItem)),
      (windows.map (Prod.map word32 id)).foldlM (validateSlot content) items.length =
        ((windows.foldlM (decodeStep content) items).mapError loadMessage).map length
  | [], _ => rfl
  | window :: windows, items => by
    rw [map_cons, foldlM_cons, foldlM_cons]
    have hhead := validateSlot_eq_decode content items.length window.2 window.1
    rw [show Prod.map word32 id window = (word32 window.1, window.2) from rfl, hhead, decodeStep]
    cases decodeSlot content window.2 window.1 with
    | error error => rfl
    | ok found =>
      have hrest := validateSlots_eq_decode content windows (items ++ found.toList)
      rw [length_append] at hrest
      exact hrest

/-- The decoder's loop collects what its windows name. -/
theorem decodeSteps_collect {content : Bytes} :
    ∀ {windows : List (Bytes × Nat)} {items read : List (BitVec 32 × ChunkItem)},
      windows.foldlM (decodeStep content) items = .ok read →
      read = items ++ windows.filterMap fun window => (decodeSlot content window.2 window.1).toOption.join
  | [], items, read, h => by
    rw [filterMap_nil, append_nil]
    exact (Except.ok.inj h).symm
  | window :: windows, items, read, h => by
    obtain ⟨next, hnext, hrest⟩ := bind_eq_ok h
    obtain ⟨found, hfound, rfl⟩ := map_eq_ok hnext
    rw [decodeSteps_collect hrest, append_assoc, filterMap_cons, hfound]
    cases found with
    | none => rfl
    | some entry => rfl

/-- The items as the decoder reads them. -/
def decodedItems (library : UserLibrary) : List (BitVec 32 × Except ChunkWriteError ChunkItem) :=
  library.items.map fun entry => (entry.1, decodePhraseItem entry.2.bytes)

/-- The item at an offset of the content. -/
def viewAt (content : Bytes) (offset : BitVec 32) : Option PhraseItemView :=
  (range? content offset.toNat content.length).bind PhraseItemView.fromBytes

/-- The items are those the entries of the table name. -/
theorem items_of_entries (hwhole : library.headersOnly = false) (hok : library.slots.Ok) :
    library.items = library.slots.entries.filterMap fun entry =>
      (viewAt library.content entry.2).map (Prod.mk entry.1) := by
  refine filterMap_congr fun entry hentry => ?_
  rw [item, hwhole, if_neg Bool.false_ne_true, (hok.lists.mem entry.1 entry.2).mp hentry, bind_some]
  rfl

/-- What a window names, through the view and through the decoder. -/
theorem viewAt_eq_decode (content : Bytes) (slot : Nat) (window : Bytes) :
    ((if word32 window ≠ 0 then some (BitVec.ofNat 32 slot, word32 window) else none).bind fun entry =>
        (viewAt content entry.2).map fun view => (entry.1, decodePhraseItem view.bytes)) =
      (decodeSlot content slot window).toOption.join.map fun entry => (entry.1, .ok entry.2) := by
  have hzero : word32 window = 0 ↔ (word32 window).toNat = 0 :=
    ⟨fun h => by rw [h]; rfl, fun h => BitVec.eq_of_toNat_eq h⟩
  unfold decodeSlot
  dsimp only
  by_cases hempty : word32 window = 0
  · rw [if_neg (not_not.mpr hempty), if_pos (hzero.mp hempty)]
    rfl
  rw [if_pos hempty, if_neg fun h => hempty (hzero.mpr h), bind_some, viewAt]
  by_cases hout : content.length < (word32 window).toNat
  · rw [if_pos hout, range?, if_neg fun hin => absurd hin.1 (Nat.not_le.mpr hout)]
    rfl
  · rw [if_neg hout, range?_drop (Nat.le_of_not_lt hout), Option.bind_some, fromBytes_eq_decode]
    cases hdecode : decodePhraseItem (content.drop (word32 window).toNat) with
    | error error => rfl
    | ok item =>
      have hbody : decodePhraseItem (bodyBytes item) = .ok item :=
        decodePhraseItem_eq_ok.mpr ⟨(decodePhraseItem_eq_ok.mp hdecode).1, [], (append_nil _).symm⟩
      exact congrArg some (congrArg (Prod.mk _) hbody)

/-- A table of the words of an offset array names the items the decoder collects. -/
theorem decodedItems_eq {offsets : Bytes} (hwhole : library.headersOnly = false)
    (hok : library.slots.Ok) (hentries : library.slots.entries = Slots.occupied ((chunks 4 offsets).map word32)) :
    library.decodedItems = ((chunks 4 offsets).zipIdx.filterMap fun window =>
      (decodeSlot library.content window.2 window.1).toOption.join).map fun entry => (entry.1, .ok entry.2) := by
  rw [decodedItems, items_of_entries hwhole hok, hentries, Slots.occupied, zipIdx_map, filterMap_map,
    filterMap_filterMap, map_filterMap, map_filterMap]
  refine filterMap_congr fun window _ => ?_
  rw [← viewAt_eq_decode, Option.map_bind]
  refine congrArg _ (funext fun entry => ?_)
  rw [Function.comp_apply, Option.map_map]
  rfl

/-- The check answers as the decoder does, and a payload loads exactly when it is decoded, with
the same total and items, or the same failure. -/
theorem loadPayload_eq_decode :
    (∀ bytes, validatePhraseItem bytes = (decodePhraseItem bytes).map fun _ => ()) ∧
    ∀ payload,
      (loadPayload payload).map (fun library => (library.total, library.decodedItems)) =
        ((decodeSubPhraseIndex payload).mapError loadMessage).map fun read =>
          (read.1, read.2.map fun entry => (entry.1, .ok entry.2)) := by
  refine ⟨validatePhraseItem_eq_decode, fun payload => ?_⟩
  unfold loadPayload decodeSubPhraseIndex
  cases hsections : subPhraseIndexSections payload with
  | error error => rfl
  | ok sections =>
    obtain ⟨total, offsets, content⟩ := sections
    have hloop := validateSlots_eq_decode content (chunks 4 offsets).zipIdx []
    rw [← List.zipIdx_map, List.length_nil] at hloop
    dsimp only
    rw [hloop]
    change _ = ((((chunks 4 offsets).zipIdx.foldlM (decodeStep content) []) >>= fun items =>
      Except.ok (total, items)).mapError loadMessage).map _
    cases hread : (chunks 4 offsets).zipIdx.foldlM (decodeStep content) [] with
    | error error => rfl
    | ok items =>
      have hdense := dense_ok_of_sections hsections
      have hsparse := SortedMap.entries_insertAll_empty (Slots.lists_occupied hdense)
      obtain rfl := decodeSteps_collect hread
      refine congrArg (fun read => Except.ok (total, read)) ?_
      rw [List.nil_append]
      -- both representations list the words of the array
      refine decodedItems_eq rfl ?_ ?_
      · dsimp only
        split_ifs
        · exact hdense
        · exact hdense.toSparse.1
      · dsimp only
        split_ifs
        · rfl
        · exact hsparse

end UserLibrary

end Oxpinyin
