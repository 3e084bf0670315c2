import Oxpinyin.LiveDiff

/-!
# A log with tokens masked out

`maskedLog` walks a log three times : it looks for the one header, moves the old total by every
record the mask keeps, and keeps the records. Only a MODIFY may stay. The masked log of a save's
diff is the diff of the kept slots (`maskedLog_diffLiveRecords`), so it can be replayed on the
chunk as it is.
-/

namespace Oxpinyin.Replay

open List LittleEndian ChunkFile Patch Run Edit Option
open LogRecord hiding modify

/-! ## The three walks -/

/-- The records of a walk, up to a payload past the end. -/
def collectRecords (library : BitVec 8) : List (Except LogFault LogRecord) → Except JournalFault (List LogRecord)
  | [] => .ok []
  | .error (.headerToken token) :: _ => .error (.headerToken library token)
  | .error .overRead :: _ => .ok []
  | .ok record :: rest => (collectRecords library rest).map (record :: ·)

/-- How the walk of a log ended. -/
def walkEnd (bytes : Bytes) : Option LogEnd :=
  ((logRecords bytes).after ((logItems bytes).length + 1)).end_

/-- The old totals of the header records. -/
def headerTotals (records : List LogRecord) : List (BitVec 32) :=
  records.filterMap fun
    | .modifyHeader oldTotal _ => some oldTotal
    | _ => none

/-- The mask keeps a token. -/
def kept (mask value token : BitVec 32) : Bool :=
  token &&& (mask &&& phraseMask) != value &&& phraseMask

/-- The unigram of a kept payload. -/
def maskedUnigram (library : BitVec 8) (item : Bytes) (token : BitVec 32) : Except JournalFault (BitVec 32) :=
  if item.length < 6 then .error (.shortMaskedItem library token) else .ok (rawUnigram item)

/-- Moves the total by a record the mask keeps. -/
def moveTotal (library : BitVec 8) (mask value : BitVec 32) (total : BitVec 32) :
    LogRecord → Except JournalFault (BitVec 32)
  | .add token newItem =>
    if kept mask value token then do
      let new ← maskedUnigram library newItem token
      return total + new
    else return total
  | .remove token oldItem =>
    if kept mask value token then do
      let old ← maskedUnigram library oldItem token
      return total - old
    else return total
  | .modify token oldItem newItem =>
    if kept mask value token then do
      let old ← maskedUnigram library oldItem token
      let new ← maskedUnigram library newItem token
      return total - old + new
    else return total
  | .modifyHeader _ _ => return total

/-- Appends a MODIFY the mask keeps. Another record it keeps is an assertion. -/
def keepRecord (library : BitVec 8) (mask value : BitVec 32) (masked : List LogRecord) :
    LogRecord → Except JournalFault (List LogRecord)
  | .add token _ => if kept mask value token then throw (.survivingRecord library token) else return masked
  | .remove token _ => if kept mask value token then throw (.survivingRecord library token) else return masked
  | .modify token oldItem newItem =>
    return if kept mask value token then masked ++ [.modify token oldItem newItem] else masked
  | .modifyHeader _ _ => return masked

/-- A log with the tokens of a mask's value left out. No header is no log. -/
def maskedLog (payload : Bytes) (mask value : BitVec 32) (library : BitVec 8) :
    Except JournalFault (Option (List LogRecord)) := do
  let records ← collectRecords library (logItems payload)
  match headerTotals records with
  | [] => return none
  | [oldTotal] =>
    if walkEnd payload = some .unknownType then return some [.modifyHeader oldTotal oldTotal]
    else do
      let newTotal ← records.foldlM (moveTotal library mask value) oldTotal
      let masked ← records.foldlM (keepRecord library mask value) [.modifyHeader oldTotal newTotal]
      return some masked
  | _ :: _ :: _ => throw (.multipleHeaders library)

/-! ## The walk of an encoded log -/

variable {bytes : Bytes}

theorem logItems_encoded {records : List LogRecord} (h : encodeLogRecords records = .ok bytes) :
    logItems bytes = records.map .ok ∧ walkEnd bytes = some .complete := by
  obtain ⟨_, hyielded, hend⟩ := LogReader.walk_encoded h
  have hitems : logItems bytes = records.map .ok := by
    refine ext_getElem? fun i => ?_
    have hleft : (logRecords bytes).remaining < bytes.length + 2 := by
      rw [LogReader.remaining, logRecords, if_neg Bool.false_ne_true]
      dsimp only
      omega
    rw [logItems, LogReader.getElem?_taken hleft, getElem?_map]
    exact hyielded i
  refine ⟨hitems, ?_⟩
  rw [walkEnd, hitems, length_map]
  exact hend

theorem collectRecords_ok (library : BitVec 8) (records : List LogRecord) :
    collectRecords library (records.map .ok) = .ok records := by
  induction records with
  | nil => rfl
  | cons record rest ih =>
    rw [map_cons, collectRecords, ih]
    rfl

/-! ## The masked log of a diff -/

/-- The unigram of what a slot has. -/
def itemUnigram (item : Option Bytes) : BitVec 32 := item.elim 0 rawUnigram

section Diff

variable {mask value : BitVec 32} {library : BitVec 8} {edits : List (Edit (BitVec 32) Bytes)}

/-- The payloads of an edit are as long as their headers say. -/
def ExactEdit (edit : Edit (BitVec 32) Bytes) : Prop :=
  (∀ bytes, edit.old = some bytes → Exact bytes) ∧ ∀ bytes, edit.new = some bytes → Exact bytes

theorem maskedUnigram_eq {item : Bytes} (h : Exact item) (token : BitVec 32) :
    maskedUnigram library item token = .ok (rawUnigram item) :=
  if_neg (Nat.not_lt.mpr h.header.1)

theorem headerTotals_recordOf (edits : List (Edit (BitVec 32) Bytes)) : headerTotals (edits.map recordOf) = [] := by
  rw [headerTotals, filterMap_map, filterMap_eq_nil_iff]
  intro edit _
  cases edit <;> rfl

variable {edit : Edit (BitVec 32) Bytes}

/-- The total moves by what a kept edit puts in and takes away. -/
theorem moveTotal_recordOf (h : ExactEdit edit) (total : BitVec 32) :
    moveTotal library mask value total (recordOf edit) =
      .ok (if kept mask value edit.key then total + (itemUnigram edit.new - itemUnigram edit.old) else total) := by
  obtain ⟨hold, hnew⟩ := h
  cases edit with
  | add slot new =>
    have hzero : total + (rawUnigram new - 0) = total + rawUnigram new := by bv_omega
    simp only [recordOf, moveTotal, maskedUnigram_eq (hnew new rfl), Edit.key, Edit.new, Edit.old, itemUnigram,
      Option.elim, hzero]
    split_ifs <;> rfl
  | remove slot old =>
    have hzero : total + (0 - rawUnigram old) = total - rawUnigram old := by bv_omega
    simp only [recordOf, moveTotal, maskedUnigram_eq (hold old rfl), Edit.key, Edit.new, Edit.old, itemUnigram,
      Option.elim, hzero]
    split_ifs <;> rfl
  | modify slot old new =>
    have hmove : total + (rawUnigram new - rawUnigram old) = total - rawUnigram old + rawUnigram new := by bv_omega
    simp only [recordOf, moveTotal, maskedUnigram_eq (hold old rfl), maskedUnigram_eq (hnew new rfl), Edit.key,
      Edit.new, Edit.old, itemUnigram, Option.elim, hmove]
    split_ifs <;> rfl

theorem foldlM_moveTotal (h : ∀ edit ∈ edits, ExactEdit edit) (total : BitVec 32) :
    (edits.map recordOf).foldlM (moveTotal library mask value) total =
      .ok (total + ((edits.filter fun edit => kept mask value edit.key).map fun edit =>
        itemUnigram edit.new - itemUnigram edit.old).sum) := by
  induction edits generalizing total with
  | nil => exact congrArg Except.ok (BitVec.add_zero total).symm
  | cons edit rest ih =>
    have hrest := fun other hother => h other (mem_cons_of_mem edit hother)
    rw [map_cons, foldlM_cons, moveTotal_recordOf (h edit mem_cons_self), filter_cons]
    by_cases hkept : kept mask value edit.key = true
    · rw [if_pos hkept, if_pos hkept, map_cons, sum_cons, ← BitVec.add_assoc]
      exact ih hrest _
    · rw [if_neg hkept, if_neg hkept]
      exact ih hrest _

/-- The edit replaces an item. -/
def replaces (edit : Edit (BitVec 32) Bytes) : Bool := edit.old.isSome == edit.new.isSome

theorem keepRecord_recordOf (masked : List LogRecord) :
    keepRecord library mask value masked (recordOf edit) =
      if kept mask value edit.key then
        if replaces edit then .ok (masked ++ [recordOf edit]) else .error (.survivingRecord library edit.key)
      else .ok masked := by
  cases edit with
  | add slot new => rfl
  | remove slot old => rfl
  | modify slot old new =>
    rw [recordOf, keepRecord]
    by_cases hkept : kept mask value slot = true
    · rw [if_pos hkept, key, if_pos hkept]
      rfl
    · rw [if_neg hkept, key, if_neg hkept]
      rfl

/-- Kept edits that each replace an item are the masked log. -/
theorem foldlM_keepRecord (h : ∀ edit ∈ edits, kept mask value edit.key → replaces edit) (masked : List LogRecord) :
    (edits.map recordOf).foldlM (keepRecord library mask value) masked =
      .ok (masked ++ (edits.filter fun edit => kept mask value edit.key).map recordOf) := by
  induction edits generalizing masked with
  | nil =>
    rw [filter_nil, map_nil, append_nil]
    rfl
  | cons edit rest ih =>
    have hrest := fun other hother => h other (mem_cons_of_mem edit hother)
    rw [map_cons, foldlM_cons, keepRecord_recordOf, filter_cons]
    by_cases hkept : kept mask value edit.key = true
    · rw [if_pos hkept, if_pos hkept, if_pos (h edit mem_cons_self hkept), map_cons]
      have hgo := ih hrest (masked ++ [recordOf edit])
      rw [append_assoc, singleton_append] at hgo
      exact hgo
    · rw [if_neg hkept, if_neg hkept]
      exact ih hrest masked

/-- A kept edit that adds or removes an item ends the walk. -/
theorem foldlM_keepRecord_surviving
    (h : ∃ edit ∈ edits, kept mask value edit.key = true ∧ replaces edit = false) (masked : List LogRecord) :
    ∃ token, (edits.map recordOf).foldlM (keepRecord library mask value) masked =
      .error (.survivingRecord library token) := by
  induction edits generalizing masked with
  | nil =>
    obtain ⟨edit, hedit, _⟩ := h
    exact absurd hedit not_mem_nil
  | cons edit rest ih =>
    rw [map_cons, foldlM_cons, keepRecord_recordOf]
    have hlater : ¬(kept mask value edit.key = true ∧ replaces edit = false) →
        ∃ other ∈ rest, kept mask value other.key = true ∧ replaces other = false := by
      intro hnot
      obtain ⟨other, hother, hsurvives⟩ := h
      rcases mem_cons.mp hother with rfl | hin
      · exact absurd hsurvives hnot
      · exact ⟨other, hin, hsurvives⟩
    by_cases hkept : kept mask value edit.key = true
    · rw [if_pos hkept]
      cases hreplaces : replaces edit with
      | true =>
        have hstays : replaces edit ≠ false := by
          rw [hreplaces]
          decide
        exact ih (hlater fun hboth => hstays hboth.2) (masked ++ [recordOf edit])
      | false => exact ⟨edit.key, rfl⟩
    · rw [if_neg hkept]
      exact ih (hlater fun hboth => hkept hboth.1) masked

end Diff

/-- The masked log of a header and edits. -/
theorem maskedLog_encoded {edits : List (Edit (BitVec 32) Bytes)} (h : ∀ edit ∈ edits, ExactEdit edit)
    {oldTotal newTotal : BitVec 32}
    (hbytes : encodeLogRecords (.modifyHeader oldTotal newTotal :: edits.map recordOf) = .ok bytes)
    (mask value : BitVec 32) (library : BitVec 8) :
    maskedLog bytes mask value library =
      ((edits.map recordOf).foldlM (keepRecord library mask value) [.modifyHeader oldTotal
        (oldTotal + ((edits.filter fun edit => kept mask value edit.key).map fun edit =>
          itemUnigram edit.new - itemUnigram edit.old).sum)]).map some := by
  obtain ⟨hitems, hend⟩ := logItems_encoded hbytes
  have hheaders : headerTotals (.modifyHeader oldTotal newTotal :: edits.map recordOf) = [oldTotal] := by
    rw [headerTotals, filterMap_cons]
    exact congrArg _ (headerTotals_recordOf edits)
  have hmove : (modifyHeader oldTotal newTotal :: edits.map recordOf).foldlM
      (moveTotal library mask value) oldTotal = (edits.map recordOf).foldlM
        (moveTotal library mask value) oldTotal := rfl
  have hkeep : ∀ masked, (modifyHeader oldTotal newTotal :: edits.map recordOf).foldlM
      (keepRecord library mask value) masked = (edits.map recordOf).foldlM (keepRecord library mask value) masked :=
    fun _ => rfl
  have hcomplete : walkEnd bytes ≠ some .unknownType := by
    rw [hend]
    decide
  simp only [maskedLog, hitems, collectRecords_ok, bind, Except.bind, hheaders, if_neg hcomplete, hmove,
    foldlM_moveTotal h, hkeep]
  cases (edits.map recordOf).foldlM (keepRecord library mask value) _ <;> rfl

/-! ## The masked log of a save -/

variable {library : PhraseLibrary}

/-- A slot the mask keeps was added or removed. -/
def Survives (mask value : BitVec 32) (old new : BitVec 32 → Option Bytes) : Prop :=
  ∃ slot, slot ≠ 0 ∧ kept mask value slot = true ∧ (old slot).isSome ≠ (new slot).isSome

/-- The unigrams of the edits of some slots. -/
theorem sum_itemUnigram {old new : BitVec 32 → Option Bytes} (slots : List (BitVec 32)) :
    ((diff old new slots).map fun edit => itemUnigram edit.new - itemUnigram edit.old).sum =
      (slots.map fun slot => itemUnigram (new slot) - itemUnigram (old slot)).sum := by
  induction slots with
  | nil => rfl
  | cons slot rest ih =>
    unfold diff at ih ⊢
    rw [filterMap_cons, map_cons, sum_cons, ← ih]
    cases hedit : edit? slot (old slot) (new slot) with
    | none =>
      rw [edit?_eq_none hedit, BitVec.sub_self]
      exact (BitVec.zero_add _).symm
    | some edit =>
      obtain ⟨_, hold, hnew, _⟩ := edit?_eq_some hedit
      rw [← hold, ← hnew]
      rfl

theorem mem_payloads_recordOf {edit : Edit (BitVec 32) Bytes} {payload : Bytes} :
    payload ∈ (recordOf edit).payloads ↔ edit.old = some payload ∨ edit.new = some payload := by
  cases edit with
  | add slot new => simp [recordOf, payloads, Edit.old, Edit.new, eq_comm]
  | remove slot old => simp [recordOf, payloads, Edit.old, Edit.new, eq_comm]
  | modify slot old new => simp [recordOf, payloads, Edit.old, Edit.new, eq_comm]

/-- A kept slot is added or removed where a kept edit does not replace an item. -/
theorem survives_iff {old new : BitVec 32 → Option Bytes} {slots : List (BitVec 32)} {mask value : BitVec 32}
    (hzero : (0 : BitVec 32) ∉ slots) (hout : ∀ slot, slot ≠ 0 → slot ∉ slots → new slot = old slot) :
    Survives mask value old new ↔
      ∃ edit ∈ diff old new slots, kept mask value edit.key = true ∧ replaces edit = false := by
  constructor
  · rintro ⟨slot, hslot, hkept, hsides⟩
    have hin : slot ∈ slots := by
      by_contra hnot
      exact hsides (congrArg isSome (hout slot hslot hnot).symm)
    cases hedit : edit? slot (old slot) (new slot) with
    | none => exact absurd (congrArg isSome (edit?_eq_none hedit)) hsides
    | some edit =>
      obtain ⟨rfl, hold, hnew, _⟩ := edit?_eq_some hedit
      refine ⟨edit, mem_diff.mpr ⟨hin, hedit⟩, hkept, ?_⟩
      rw [replaces, hold, hnew]
      exact beq_eq_false_iff_ne.mpr hsides
  · rintro ⟨edit, hin, hkept, hreplaces⟩
    obtain ⟨hslot, hedit⟩ := mem_diff.mp hin
    obtain ⟨_, hold, hnew, _⟩ := edit?_eq_some hedit
    rw [replaces, hold, hnew] at hreplaces
    exact ⟨edit.key, fun heq => hzero (heq ▸ hslot), hkept, beq_eq_false_iff_ne.mp hreplaces⟩

/-- The masked log of a save's diff fails exactly when a kept slot was added or removed. Else it
leaves, on the chunk, the buffer's item at each kept slot and the chunk's own at the others. -/
theorem maskedLog_diffLiveRecords (hsound : Sound library) (hdisk : library.tokenRange.2 ≤ 2 ^ 24)
    (live : ReplayedLibrary) (hlive : live.content.Shaped) (hrange : live.rangeEnd ≤ 2 ^ 24)
    (hshort : ∀ slot bytes, (mappedBacking library).item slot = some bytes → bytes.length ≤ 65535)
    (hshort' : ∀ slot bytes, live.itemBytes slot = some bytes → bytes.length ≤ 65535)
    (merge : Merge) (hmerge : merge.content = .new (mappedBacking library) library.totalFreq)
    (mask value total : BitVec 32) (index : BitVec 8) :
    ∃ bytes, encodeLogRecords (diffLiveRecords (.buffer live) (.fromLibrary library) total) = .ok bytes ∧
      ((∃ token, maskedLog bytes mask value index = .error (.survivingRecord index token)) ↔
        Survives mask value (mappedBacking library).item live.itemBytes) ∧
      (¬Survives mask value (mappedBacking library).item live.itemBytes →
        (appendOffset (mappedBacking library).content.length).toNat +
          (((diffSlots (.buffer live) (.fromLibrary library)).filter (kept mask value)).map fun slot =>
            slotAppended ((mappedBacking library).item slot) (live.itemBytes slot)).sum < 2 ^ 32 →
        ∃ masked, maskedLog bytes mask value index = .ok (some (.modifyHeader library.totalFreq
            (library.totalFreq + (((diffSlots (.buffer live) (.fromLibrary library)).filter (kept mask value)).map
              fun slot => itemUnigram (live.itemBytes slot) - itemUnigram ((mappedBacking library).item slot)).sum) ::
            masked)) ∧
          ∃ after, mergeLog merge ((.modifyHeader library.totalFreq
              (library.totalFreq + (((diffSlots (.buffer live) (.fromLibrary library)).filter (kept mask value)).map
                fun slot => itemUnigram (live.itemBytes slot) - itemUnigram
                  ((mappedBacking library).item slot)).sum) ::
              masked).map .ok) index = (after, [], .ok .applied) ∧
            ∀ slot, slot ≠ 0 → after.content.itemBytes slot =
              if kept mask value slot then live.itemBytes slot else (mappedBacking library).item slot) := by
  obtain ⟨hnodup, hmem, hmasked⟩ := diffSlots_bounds hdisk hrange
  have hrecords := hsound.diffLiveRecords_eq hdisk hrange total
  set slots := diffSlots (.buffer live) (.fromLibrary library)
  set newTotal := library.totalFreq + ((slots.filter (kept mask value)).map fun slot =>
    itemUnigram (live.itemBytes slot) - itemUnigram ((mappedBacking library).item slot)).sum
  have hedit : ∀ edit ∈ diff (mappedBacking library).item live.itemBytes slots,
      edit.old = (mappedBacking library).item edit.key ∧ edit.new = live.itemBytes edit.key := by
    intro edit hin
    obtain ⟨_, hold, hnew, _⟩ := edit?_eq_some (mem_diff.mp hin).2
    exact ⟨hold, hnew⟩
  have hexact : ∀ edit ∈ diff (mappedBacking library).item live.itemBytes slots, ExactEdit edit := by
    intro edit hin
    obtain ⟨hold, hnew⟩ := hedit edit hin
    refine ⟨fun bytes hbytes => ?_, fun bytes hbytes => ?_⟩
    · exact (hsound.holds 0).exact edit.key bytes (hold ▸ hbytes)
    · exact exact_of_itemBytes hlive (hnew ▸ hbytes)
  obtain ⟨bytes, hbytes⟩ : ∃ bytes,
      encodeLogRecords (diffLiveRecords (.buffer live) (.fromLibrary library) total) = .ok bytes := by
    rw [encodeLogRecords_isOk_iff, hrecords]
    intro record hrecord payload hpayload
    rcases mem_cons.mp hrecord with rfl | hin
    · exact absurd hpayload not_mem_nil
    · obtain ⟨edit, hdiff, rfl⟩ := mem_map.mp hin
      obtain ⟨hold, hnew⟩ := hedit edit hdiff
      rcases mem_payloads_recordOf.mp hpayload with hside | hside
      · exact hshort edit.key payload (hold ▸ hside)
      · exact hshort' edit.key payload (hnew ▸ hside)
  have hzero : (0 : BitVec 32) ∉ slots := fun hin =>
    absurd ((hmem 0).mp hin).1 (by decide)
  have hout : ∀ slot, slot ≠ 0 → slot ∉ slots →
      live.itemBytes slot = (mappedBacking library).item slot :=
    fun slot hslot hnot => hsound.items_behind hdisk hrange hslot hnot
  have hmaskedLog := maskedLog_encoded hexact (hrecords ▸ hbytes) mask value index
  have hiff := @survives_iff _ _ _ mask value hzero hout
  rw [filter_diff (kept mask value), sum_itemUnigram] at hmaskedLog
  refine ⟨bytes, hbytes, ⟨?_, fun hsurvives => ?_⟩, fun hnone hsize => ?_⟩
  · rintro ⟨token, htoken⟩
    by_contra hnone
    rw [hmaskedLog, foldlM_keepRecord fun edit hin hkept => ?_] at htoken
    · cases htoken
    · by_contra hreplaces
      exact hnone (hiff.mpr ⟨edit, hin, hkept, Bool.eq_false_of_not_eq_true hreplaces⟩)
  · obtain ⟨token, htoken⟩ := foldlM_keepRecord_surviving (hiff.mp hsurvives)
      [.modifyHeader library.totalFreq newTotal]
    exact ⟨token, by rw [hmaskedLog, htoken]; rfl⟩
  · rw [foldlM_keepRecord fun edit hin hkept => ?_] at hmaskedLog
    · rw [filter_diff (kept mask value)] at hmaskedLog
      refine ⟨_, hmaskedLog, ?_⟩
      obtain ⟨after, hrun, hitems, _⟩ := @mergeLog_diff library hsound live.itemBytes
        (fun slot bytes hbytes => exact_of_itemBytes hlive hbytes) _ (hnodup.filter (kept mask value))
        (fun slot hslot => hmasked slot (mem_filter.mp hslot).1) hsize merge _ hmerge
        newTotal index
      refine ⟨after, hrun, fun slot hslot => ?_⟩
      rw [hitems slot]
      by_cases hkept : kept mask value slot = true
      · rw [if_pos hkept]
        split_ifs with hin
        · rfl
        · exact (hout slot hslot fun hslots => hin (mem_filter.mpr ⟨hslots, hkept⟩)).symm
      · rw [if_neg hkept, if_neg fun hin => hkept (mem_filter.mp hin).2]
    · by_contra hreplaces
      exact hnone (hiff.mpr ⟨edit, hin, hkept, Bool.eq_false_of_not_eq_true hreplaces⟩)

theorem length_itemBytes {content : Content} (hshaped : content.Shaped) {slot : BitVec 32}
    (h : content.itemBytes slot = some bytes) : bytes.length ≤ content.items.capacity := by
  obtain ⟨offset, len, hvisible, rfl⟩ := hshaped.itemBytes_eq_some.mp h
  obtain ⟨_, _, _, _, hend⟩ := hshaped.visible_eq_item.mp hvisible
  rw [Content.length_span]
  omega

/-- No even slot of the edited pair was added or removed. -/
theorem not_survives_editedPair : ¬Survives 1 1 (mappedBacking pairLibrary).item editedPair.itemBytes := by
  have hdisk : pairLibrary.tokenRange.2 ≤ 2 ^ 24 := by decide
  have hrange : editedPair.rangeEnd ≤ 2 ^ 24 := by decide
  rw [survives_iff (by decide) fun slot hslot hnot => sound_pairLibrary.items_behind hdisk hrange hslot hnot]
  decide

theorem maskedLog_editedPair :
    ∃ bytes masked after,
      encodeLogRecords (diffLiveRecords (.buffer editedPair) (.fromLibrary pairLibrary) 20) = .ok bytes ∧
      maskedLog bytes 1 1 1 = .ok (some (.modifyHeader 11 14 :: masked)) ∧
      mergeLog (.new (some (.fromLibrary pairLibrary))) ((.modifyHeader 11 14 :: masked).map .ok) 1 =
        (after, [], .ok .applied) ∧
      after.content.itemBytes 1 = (mappedBacking pairLibrary).item 1 ∧
      after.content.itemBytes 2 = editedPair.itemBytes 2 := by
  obtain ⟨bytes, hbytes, _, hmasked⟩ := maskedLog_diffLiveRecords sound_pairLibrary (by decide) editedPair
    shaped_editedPair (by decide)
    (fun slot bytes h => Nat.le_trans (length_itemBytes (sound_pairLibrary.shaped 0) h) (by decide))
    (fun slot bytes h => Nat.le_trans (length_itemBytes shaped_editedPair h) (by decide))
    (.new (some (.fromLibrary pairLibrary))) rfl 1 1 20 1
  obtain ⟨masked, hlog, after, hrun, hitems⟩ := hmasked not_survives_editedPair (by decide)
  exact ⟨bytes, masked, after, hbytes, hlog, hrun, hitems 1 (by decide), hitems 2 (by decide)⟩

/-- The log of the spread pair, no slot of it masked out. -/
theorem maskedLog_spread {gap : Nat} (hgap : gap + 1 = 2 ^ 24) :
    ¬Survives 0 1 (mappedBacking (spreadLibrary gap)).item (spreadLive gap).itemBytes ∧
      ∃ bytes records after,
        encodeLogRecords (diffLiveRecords (.buffer (spreadLive gap))
          (.fromLibrary (spreadLibrary gap)) 11) = .ok bytes ∧
        maskedLog bytes 0 1 1 = .ok (some records) ∧
        mergeLog (.fromLive (some (.fromLibrary (spreadLibrary gap)))
          (spreadLive gap)) (records.map .ok) 1 = (after, [], .ok .applied) ∧
        after.content.itemBytes 1 ≠ (spreadLive gap).itemBytes 1 := by
  set last := BitVec.ofNat 32 (gap + 2) with hlast
  have hkept : ∀ token, kept 0 1 token = true := by
    intro token
    have hzero : token &&& (0 &&& phraseMask) = 0 := BitVec.and_zero
    rw [kept, hzero]
    decide
  have hrecords : diffLiveRecords (.buffer (spreadLive gap))
      (.fromLibrary (spreadLibrary gap)) 11 = .modifyHeader 11 11 ::
        [modify last [1, 0, 5, 0, 0, 0, 1, 0, 0, 0] [1, 0, 6, 0, 0, 0, 2, 0, 0, 0]].map recordOf :=
    diffLiveRecords_spread hgap
  have hexact : ∀ edit ∈ [modify last [1, 0, 5, 0, 0, 0, 1, 0, 0, 0] [1, 0, 6, 0, 0, 0, 2, 0, 0, 0]],
      ExactEdit edit := by
    intro edit hin
    rw [mem_singleton.mp hin]
    refine ⟨fun bytes hbytes => ?_, fun bytes hbytes => ?_⟩
    · rw [← some.inj hbytes]
      rfl
    · rw [← some.inj hbytes]
      rfl
  obtain ⟨bytes, hbytes⟩ : ∃ bytes, encodeLogRecords
      (diffLiveRecords (.buffer (spreadLive gap))
        (.fromLibrary (spreadLibrary gap)) 11) = .ok bytes := by
    rw [hrecords]
    exact ⟨_, rfl⟩
  have hmasked := maskedLog_encoded hexact (hrecords ▸ hbytes) 0 1 1
  rw [foldlM_keepRecord fun edit hin _ => by rw [mem_singleton.mp hin]; rfl] at hmasked
  obtain ⟨after, hrun, hitem⟩ := mergeLog_spread hgap (11 +
    (([modify last [1, 0, 5, 0, 0, 0, 1, 0, 0, 0] [1, 0, 6, 0, 0, 0, 2, 0, 0, 0]]).map fun edit =>
      itemUnigram edit.new - itemUnigram edit.old).sum)
  refine ⟨fun hsurvives => ?_, bytes, _, after, hbytes, hmasked, ?_, hitem⟩
  · obtain ⟨slot, _, _, hsides⟩ := hsurvives
    exact hsides rfl
  · rw [filter_eq_self.mpr fun edit _ => hkept edit.key]
    exact hrun

/-- Two slots that are one to the mask : no slot was added or removed and every slot is kept, and
the masked log of the chunk's own buffer writes the item of the one over the other. -/
theorem maskedLog_pastMask :
    Sound (spreadLibrary (2 ^ 24 - 1)) ∧ kept 0 1 1 = true ∧
      ¬Survives 0 1 (mappedBacking (spreadLibrary (2 ^ 24 - 1))).item
        (ReplayedLibrary.fromMapping (mappedBacking (spreadLibrary (2 ^ 24 - 1))) 11).itemBytes ∧
      ∃ bytes records after,
        encodeLogRecords (diffLiveRecords (.buffer (.fromMapping (mappedBacking (spreadLibrary (2 ^ 24 - 1))) 11))
          (.fromLibrary (spreadLibrary (2 ^ 24 - 1))) 11) = .ok bytes ∧
        maskedLog bytes 0 1 1 = .ok (some records) ∧
        mergeLog (.fromLive (some (.fromLibrary (spreadLibrary (2 ^ 24 - 1))))
          (.fromMapping (mappedBacking (spreadLibrary (2 ^ 24 - 1))) 11)) (records.map .ok) 1 =
            (after, [], .ok .applied) ∧
        after.content.itemBytes 1 ≠
          (ReplayedLibrary.fromMapping (mappedBacking (spreadLibrary (2 ^ 24 - 1))) 11).itemBytes 1 :=
  ⟨sound_spreadLibrary (by omega), by decide, maskedLog_spread (by omega)⟩

/-! ## A session opened again -/

/-- A session opened over a log and edited : what any of its buffers saves opens to the buffer's items. -/
theorem reopened_run (hsound : Sound library) (hdisk : library.tokenRange.2 ≤ 2 ^ 24)
    {original : Option SystemLibrary} {index : BitVec 8} {log saved : Bytes} {opened : ReplayedLibrary}
    (hopen : replayLog original (.fromMapping (mappedBacking library) library.totalFreq) index
      (logItems log) = .ok opened)
    (ops : List LiveOp) (newTotal : BitVec 32) :
    ∀ live ∈ states ReplayedLibrary.step opened ops, live.rangeEnd ≤ 2 ^ 24 →
      (appendOffset (mappedBacking library).content.length).toNat +
        ((diffSlots (.buffer live) (.fromLibrary library)).map fun slot =>
          slotAppended ((mappedBacking library).item slot) (live.itemBytes slot)).sum < 2 ^ 32 →
      encodeLogRecords (diffLiveRecords (.buffer live) (.fromLibrary library) newTotal) = .ok saved →
      ∃ reopened, replayLog original (.fromMapping (mappedBacking library) library.totalFreq) index (logItems saved) =
          .ok reopened ∧ ∀ slot, slot ≠ 0 → reopened.itemBytes slot = live.itemBytes slot := by
  intro live hlive hrange hsize hsaved
  have hshaped := shaped_run hsound hopen ops live hlive
  obtain ⟨hnodup, _, hmasked⟩ := diffSlots_bounds hdisk hrange
  obtain ⟨after, hrun, hitems, _⟩ := @mergeLog_diff library hsound live.itemBytes
    (fun _ _ hbytes => exact_of_itemBytes hshaped hbytes) _ hnodup hmasked hsize
    (.fromLive original (.fromMapping (mappedBacking library) library.totalFreq)) library.totalFreq rfl newTotal index
  rw [← hsound.diffLiveRecords_eq hdisk hrange, ← (logItems_encoded hsaved).1] at hrun
  refine ⟨after.finishLiveOwner.2, by rw [replayLog, hrun]; rfl, fun slot hslot => ?_⟩
  have hkept : after.finishLiveOwner.2.itemBytes slot = after.content.itemBytes slot := by
    rw [ReplayedLibrary.itemBytes, (Merge.content_finishLiveOwner after).1]
  rw [hkept, hitems slot]
  split_ifs with hin
  · rfl
  · exact (hsound.items_behind hdisk hrange hslot hin).symm

/-- The pair, edited and saved. -/
theorem reopened_editedPair : ∃ saved reopened,
    encodeLogRecords (diffLiveRecords (.buffer editedPair) (.fromLibrary pairLibrary) 20) = .ok saved ∧
    replayLog (some pairSystem) (.fromMapping (mappedBacking pairLibrary) 11) 1 (logItems saved) = .ok reopened ∧
    ∀ slot, slot ≠ 0 → reopened.itemBytes slot = editedPair.itemBytes slot := by
  obtain ⟨saved, hsaved⟩ : ∃ saved,
      encodeLogRecords (diffLiveRecords (.buffer editedPair) (.fromLibrary pairLibrary) 20) = .ok saved := by
    have hsome : (encodeLogRecords (diffLiveRecords (.buffer editedPair)
      (.fromLibrary pairLibrary) 20)).toOption.isSome =
        true := by decide +kernel
    exact (Option.isSome_iff_exists.mp hsome).imp fun _ h => eq_ok_of_toOption h
  obtain ⟨reopened, hreopened, hitems⟩ := reopened_run sound_pairLibrary (by decide) opened_pairLibrary pairEdits 20
    editedPair editedPair_mem (by decide) (by decide) hsaved
  exact ⟨saved, reopened, hsaved, hreopened, hitems⟩

end Oxpinyin.Replay
