import Oxpinyin.Lib.SortedMap
import Oxpinyin.PinyinRows

/-!
# The pinyin index table

`pinyinIndexEntries` builds the rows of a pinyin index from its items : each item under its
initials and under its keys without tones, with an empty row for every proper lead of a key.
A reader picks one of the two key spaces by its query and keeps the items that match.
`table_answers` : over the rows built from items whose keys are complete, a reader finds the
items that match its query, in order.
-/

namespace Oxpinyin

open List LittleEndian FiniteMap Std SortedMap

/-! ## Building the rows -/

/-- A token with its keys. -/
structure PinyinIndexItem where
  token : BitVec 32
  keys : List ChewingKey
  deriving DecidableEq

/-- One pass of a comparison : the first difference. -/
def comparePass (cmp : ChewingKey → ChewingKey → Ordering) : List ChewingKey → List ChewingKey → Ordering
  | a :: lhs, b :: rhs =>
    match cmp a b with
    | .eq => comparePass cmp lhs rhs
    | other => other
  | _, _ => .eq

/-- All initials, then each middle and final, then all tones. -/
def exactCompare2 (lhs rhs : List ChewingKey) : Ordering :=
  (comparePass (compareOn (·.initial)) lhs rhs).then
    ((comparePass (compareLex (compareOn (·.middle)) (compareOn (·.final))) lhs rhs).then
      (comparePass (compareOn (·.tone)) lhs rhs))

/-- The order of the items of one row. -/
def itemOrder (a b : PinyinIndexItem) : Ordering :=
  (exactCompare2 a.keys b.keys).then (compareOn BitVec.toNat a.token b.token)

/-- Items under each key of one key space. -/
abbrev SpaceMap := SortedMap Bytes (List PinyinIndexItem)

/-- Items added behind those of a key, which is made where it is not there. -/
def SpaceMap.extend (space : SpaceMap) (key : Bytes) (items : List PinyinIndexItem) : SpaceMap :=
  space.insert key ((space.get? key).getD [] ++ items)

def truncatePacked (key : Bytes) (syllables : Nat) : Bytes :=
  key.take (2 * syllables)

/-- One item in a key space : markers for the proper leads of its key, and the item. -/
def SpaceMap.addRow (space : SpaceMap) (dbmKey : Bytes) (row : PinyinIndexItem) : SpaceMap :=
  ((List.range' 1 (row.keys.length - 1)).foldl
    (fun space lead => space.extend (truncatePacked dbmKey lead) []) space).extend dbmKey [row]

/-- The rows of a pinyin index, by ascending key. -/
def pinyinIndexEntries (rows : List PinyinIndexItem) : List (Bytes × Bytes) :=
  let incomplete := rows.foldl (fun space row => SpaceMap.addRow space (encodeIncompleteKey row.keys) row)
    (.empty : SpaceMap)
  let complete := rows.foldl (fun space row => SpaceMap.addRow space (encodeCompleteKey row.keys) row)
    (.empty : SpaceMap)
  let merged := (incomplete.entries ++ complete.entries).foldl
    (fun merged entry => SpaceMap.extend merged entry.1 entry.2) (.empty : SpaceMap)
  merged.entries.map fun entry =>
    (entry.1, (entry.2.mergeSort fun a b => (itemOrder a b).isLE).flatMap fun row => encodeItem row.token row.keys)

/-! ## Reading -/

/-- Why a read fails. -/
inductive DictError where
  | parse (message : String)

/-- The items of a row whose keys have so many syllables. -/
def decodeItems (value : Bytes) (phraseLength : Nat) : Except DictError (List PinyinIndexItem) :=
  if value.isEmpty then .ok []
  else if phraseLength = 0 then .error (.parse "phrase_length must be at least 1")
  else
    let stride := item2Stride phraseLength
    let length := value.length
    if length % stride ≠ 0 then
      .error (.parse
        s!"pinyin index value length {length} is not a multiple of stride {stride} (L={phraseLength})")
    else .ok ((chunks stride value).map fun record => ⟨recordToken record, recordKeys record phraseLength⟩)

/-- The first keys of an item match a query. -/
def prefixKeysMatch (query stored : List ChewingKey) : Bool :=
  if stored.length < query.length then false
  else (query.zip stored).all fun pair => keyMatches pair.1 pair.2

/-- The keys of an item match a query. -/
def keysMatch (query stored : List ChewingKey) : Bool :=
  query.length == stored.length && prefixKeysMatch query stored

namespace ChewingTable

variable (dbm : SortedMap Bytes Bytes)

/-- The tokens of the items that match a query. -/
def search (keys : List ChewingKey) : Except DictError (List (BitVec 32)) :=
  if keys.isEmpty then .ok []
  else
    match dbm.get? (indexKey keys) with
    | none => .ok []
    | some value =>
      if value.isEmpty then .ok []
      else (decodeItems value keys.length).map fun items =>
        (items.filter fun item => (keys.zip item.keys).all fun pair => keyMatches pair.1 pair.2).map (·.token)

/-- The row a query found : whether it is there, and its items that match. -/
def searchRow (keys : List ChewingKey) : Option Bytes → Except DictError (Bool × List PinyinIndexItem)
  | none => .ok (false, [])
  | some value =>
    if keys.isEmpty then .ok (false, [])
    else if value.isEmpty then .ok (true, [])
    else (decodeItems value keys.length).map fun items => (true, items.filter fun item => keysMatch keys item.keys)

/-- Whether the table key of a query exists, and the items that match. -/
def searchContinued (keys : List ChewingKey) : Except DictError (Bool × List PinyinIndexItem) :=
  if keys.isEmpty then .ok (false, []) else searchRow keys (dbm.get? (indexKey keys))

/-- Whether the table key of a query exists. -/
def keyExists (keys : List ChewingKey) : Bool :=
  if keys.isEmpty then false else (dbm.get? (indexKey keys)).isSome

end ChewingTable

open ChewingTable

/-! ## Key spaces -/

theorem comparePass_eq {cmp : ChewingKey → ChewingKey → Ordering} : ∀ {lhs rhs : List ChewingKey},
    lhs.length = rhs.length → comparePass cmp lhs rhs = List.compareLex cmp lhs rhs
  | [], [], _ => rfl
  | [], _ :: _, h => by cases h
  | _ :: _, [], h => by cases h
  | a :: lhs, b :: rhs, h => by
    rw [comparePass, List.compareLex_cons_cons, comparePass_eq (Nat.succ.inj h)]
    cases cmp a b with
    | lt => rfl
    | eq => rfl
    | gt => rfl

theorem compareLex_compareOn (f : ChewingKey → Nat) : ∀ lhs rhs : List ChewingKey,
    List.compareLex (compareOn f) lhs rhs = List.compareLex compare (lhs.map f) (rhs.map f)
  | [], [] => rfl
  | [], _ :: _ => rfl
  | _ :: _, [] => rfl
  | a :: lhs, b :: rhs => by
    rw [map_cons, map_cons, List.compareLex_cons_cons, List.compareLex_cons_cons, compareLex_compareOn f lhs rhs]
    rfl

/-- The two comparisons agree on keys of one length. -/
theorem exactCompare2_eq {lhs rhs : List ChewingKey} (h : lhs.length = rhs.length) :
    exactCompare2 lhs rhs = exactCompare lhs rhs := by
  rw [exactCompare2, exactCompare, comparePass_eq h, comparePass_eq h, comparePass_eq h, compareLex_compareOn,
    compareLex_compareOn]

namespace SpaceMap

variable {space : SpaceMap} {encode : List ChewingKey → Bytes}

theorem get?_extend (space : SpaceMap) (key : Bytes) (items : List PinyinIndexItem) (other : Bytes) :
    (space.extend key items).get? other =
      if other = key then some ((space.get? key).getD [] ++ items) else space.get? other := by
  rw [extend, get?_insert, Function.update_apply]

theorem getD_extend (space : SpaceMap) (key : Bytes) (items : List PinyinIndexItem) (other : Bytes) :
    ((space.extend key items).get? other).getD [] =
      (space.get? other).getD [] ++ if other = key then items else [] := by
  rw [get?_extend]
  by_cases h : other = key
  · rw [if_pos h, if_pos h, h, Option.getD_some]
  · rw [if_neg h, if_neg h, append_nil]

theorem isSome_extend (space : SpaceMap) (key : Bytes) (items : List PinyinIndexItem) (other : Bytes) :
    ((space.extend key items).get? other).isSome = true ↔ other = key ∨ (space.get? other).isSome = true := by
  rw [get?_extend]
  by_cases h : other = key
  · rw [if_pos h]
    simp [h]
  · rw [if_neg h]
    simp [h]

theorem getD_markers (dbmKey other : Bytes) : ∀ (leads : List Nat) (space : SpaceMap),
    ((leads.foldl (fun space lead => space.extend (truncatePacked dbmKey lead) []) space).get? other).getD [] =
      (space.get? other).getD []
  | [], _ => rfl
  | lead :: leads, space => by
    rw [foldl_cons, getD_markers dbmKey other leads, getD_extend, ite_self, append_nil]

theorem isSome_markers (dbmKey other : Bytes) : ∀ (leads : List Nat) (space : SpaceMap),
    ((leads.foldl (fun space lead => space.extend (truncatePacked dbmKey lead) []) space).get? other).isSome = true ↔
      (∃ lead ∈ leads, other = truncatePacked dbmKey lead) ∨ (space.get? other).isSome = true
  | [], _ => by simp
  | lead :: leads, space => by
    rw [foldl_cons, isSome_markers dbmKey other leads, isSome_extend]
    simp only [mem_cons, exists_eq_or_imp]
    exact or_left_comm.trans or_assoc.symm

/-- A key space holds each item under its key, in order of arrival. -/
theorem getD_addRows (rows : List PinyinIndexItem) (other : Bytes) : ∀ space : SpaceMap,
    ((rows.foldl (fun space row => space.addRow (encode row.keys) row) space).get? other).getD [] =
      (space.get? other).getD [] ++ rows.filter fun row => encode row.keys = other := by
  induction rows with
  | nil => exact fun _ => (append_nil _).symm
  | cons row rows ih =>
    intro space
    rw [foldl_cons, ih, addRow, getD_extend, getD_markers, append_assoc]
    by_cases h : other = encode row.keys
    · rw [if_pos h, filter_cons_of_pos (by simp [h]), singleton_append]
    · rw [if_neg h, filter_cons_of_neg (by simpa using fun heq => h heq.symm), nil_append]

/-- The keys of a key space are those of the items and their leads. -/
theorem isSome_addRows (hencode : ∀ keys, (encode keys).length = 2 * keys.length) (rows : List PinyinIndexItem)
    (other : Bytes) : ∀ space : SpaceMap,
    ((rows.foldl (fun space row => space.addRow (encode row.keys) row) space).get? other).isSome = true ↔
      (space.get? other).isSome = true ∨ ∃ row ∈ rows, ∃ n, (0 < n ∨ row.keys.length = 0) ∧ n ≤ row.keys.length ∧
        other = (encode row.keys).take (2 * n) := by
  induction rows with
  | nil => simp
  | cons row rows ih =>
    intro space
    have hleads : (∃ n, (0 < n ∨ row.keys.length = 0) ∧ n ≤ row.keys.length ∧
      other = (encode row.keys).take (2 * n)) ↔
        other = encode row.keys ∨ ∃ lead ∈ range' 1 (row.keys.length - 1),
          other = truncatePacked (encode row.keys) lead := by
      have hwhole : (encode row.keys).take (2 * row.keys.length) = encode row.keys := by
        rw [← hencode, take_length]
      constructor
      · rintro ⟨n, hpos, hn, rfl⟩
        rcases Nat.lt_or_eq_of_le hn with hlt | rfl
        · exact Or.inr ⟨n, mem_range'_1.mpr ⟨by omega, by omega⟩, rfl⟩
        · exact Or.inl hwhole
      · rintro (rfl | ⟨lead, hlead, rfl⟩)
        · exact ⟨row.keys.length, by omega, Nat.le_refl _, hwhole.symm⟩
        · obtain ⟨hpos, hlt⟩ := mem_range'_1.mp hlead
          exact ⟨lead, Or.inl hpos, by omega, rfl⟩
    rw [foldl_cons, ih, addRow, isSome_extend, isSome_markers]
    simp only [mem_cons, exists_eq_or_imp, hleads]
    exact iff_of_eq (by ac_rfl)

variable {entries : List (Bytes × List PinyinIndexItem)}

/-- Key spaces merged by key. -/
theorem getD_extendAll (other : Bytes) :
    ∀ {m : Bytes → Option (List PinyinIndexItem)} {space : SpaceMap}, Lists entries m →
      ((entries.foldl (fun merged entry => SpaceMap.extend merged entry.1 entry.2) space).get? other).getD [] =
        (space.get? other).getD [] ++ (m other).getD [] := by
  induction entries with
  | nil =>
    intro m space h
    rw [h.eq_none, foldl_nil, Option.getD_none, append_nil]
  | cons entry entries ih =>
    intro m space h
    obtain ⟨key, items⟩ := entry
    have hget : m key = some items := (h.mem key items).mp mem_cons_self
    rw [foldl_cons, ih h.tail, getD_extend, append_assoc, Function.update_apply]
    by_cases hother : other = key
    · rw [if_pos hother, if_pos hother, hother, hget, Option.getD_none, append_nil, Option.getD_some]
    · rw [if_neg hother, if_neg hother, nil_append]

theorem isSome_extendAll (other : Bytes) :
    ∀ {space : SpaceMap},
      ((entries.foldl (fun merged entry => SpaceMap.extend merged entry.1 entry.2) space).get? other).isSome = true ↔
        (space.get? other).isSome = true ∨ other ∈ entries.map Prod.fst := by
  induction entries with
  | nil => simp
  | cons entry entries ih =>
    intro space
    rw [foldl_cons, ih, isSome_extend, map_cons, mem_cons, or_comm (a := other = entry.1), or_assoc]

end SpaceMap

open SpaceMap

/-- The two key spaces of some items, merged. -/
def mergedSpaces (rows : List PinyinIndexItem) : SpaceMap :=
  ((rows.foldl (fun space row => SpaceMap.addRow space (encodeIncompleteKey row.keys) row)
    (.empty : SpaceMap)).entries ++
    (rows.foldl (fun space row => SpaceMap.addRow space (encodeCompleteKey row.keys) row)
      (.empty : SpaceMap)).entries).foldl
      (fun merged entry => SpaceMap.extend merged entry.1 entry.2) .empty

section Merged

variable {rows : List PinyinIndexItem}

/-- The items under a key : those of its initials, then those of its keys without tones. -/
theorem getD_mergedSpaces (rows : List PinyinIndexItem) (key : Bytes) :
    ((mergedSpaces rows).get? key).getD [] = (rows.filter fun row => encodeIncompleteKey row.keys = key) ++
      rows.filter fun row => encodeCompleteKey row.keys = key := by
  rw [mergedSpaces, foldl_append, getD_extendAll key (lists _),
    getD_extendAll key (lists _), getD_addRows, getD_addRows]
  rfl

/-- The keys are the leads of the items' keys in either space. -/
theorem isSome_mergedSpaces_iff (rows : List PinyinIndexItem) (key : Bytes) :
    ((mergedSpaces rows).get? key).isSome = true ↔
      ∃ row ∈ rows, ∃ n, (0 < n ∨ row.keys.length = 0) ∧ n ≤ row.keys.length ∧
        (key = (encodeIncompleteKey row.keys).take (2 * n) ∨ key = (encodeCompleteKey row.keys).take (2 * n)) := by
  rw [mergedSpaces, foldl_append, isSome_extendAll, isSome_extendAll,
    (lists _).mem_keys, (lists _).mem_keys,
    isSome_addRows length_encodeIncompleteKey rows,
    isSome_addRows length_encodeCompleteKey rows]
  constructor
  · rintro ((hnone | hnone | ⟨row, hrow, n, hpos, hn, hkey⟩) | hnone | ⟨row, hrow, n, hpos, hn, hkey⟩)
    · cases hnone
    · cases hnone
    · exact ⟨row, hrow, n, hpos, hn, Or.inl hkey⟩
    · cases hnone
    · exact ⟨row, hrow, n, hpos, hn, Or.inr hkey⟩
  · rintro ⟨row, hrow, n, hpos, hn, hkey | hkey⟩
    · exact Or.inl (Or.inr (Or.inr ⟨row, hrow, n, hpos, hn, hkey⟩))
    · exact Or.inr (Or.inr ⟨row, hrow, n, hpos, hn, hkey⟩)

theorem isSome_mergedSpaces (hrows : ∀ row ∈ rows, row.keys.length ≠ 0) (key : Bytes) :
    ((mergedSpaces rows).get? key).isSome = true ↔
      ∃ row ∈ rows, ∃ n, 0 < n ∧ n ≤ row.keys.length ∧
        (key = (encodeIncompleteKey row.keys).take (2 * n) ∨ key = (encodeCompleteKey row.keys).take (2 * n)) := by
  rw [isSome_mergedSpaces_iff]
  refine exists_congr fun row => and_congr_right fun hrow => exists_congr fun n => and_congr_left fun _ => ?_
  exact or_iff_left (hrows row hrow)

end Merged

/-- The rows written for a key space. -/
def writeRow (items : List PinyinIndexItem) : Bytes :=
  (items.mergeSort fun a b => (itemOrder a b).isLE).flatMap fun row => encodeItem row.token row.keys

theorem lists_pinyinIndexEntries (rows : List PinyinIndexItem) :
    Lists (pinyinIndexEntries rows) fun key => ((mergedSpaces rows).get? key).map writeRow := by
  have hlists := (mergedSpaces rows).lists
  refine ⟨pairwise_map.mpr hlists.ascending, fun key value => ?_⟩
  rw [Option.map_eq_some_iff]
  change (key, value) ∈ (mergedSpaces rows).entries.map (fun entry => (entry.1, writeRow entry.2)) ↔ _
  rw [mem_map]
  constructor
  · rintro ⟨entry, hentry, heq⟩
    obtain ⟨rfl, rfl⟩ := Prod.mk.inj heq
    exact ⟨entry.2, (hlists.mem _ _).mp hentry, rfl⟩
  · rintro ⟨items, hitems, rfl⟩
    exact ⟨(key, items), (hlists.mem _ _).mpr hitems, rfl⟩

/-- The table of the rows. -/
def buildDbm (rows : List PinyinIndexItem) : SortedMap Bytes Bytes :=
  SortedMap.empty.insertAll (pinyinIndexEntries rows)

theorem get?_buildDbm (rows : List PinyinIndexItem) (key : Bytes) :
    (buildDbm rows).get? key = ((mergedSpaces rows).get? key).map writeRow := by
  rw [buildDbm, get?_insertAll (lists_pinyinIndexEntries rows), get?_empty]
  exact Option.or_none

/-! ## Sorted rows -/

/-- The order of the items of one row, as an order on all items. -/
def itemCompare (a b : PinyinIndexItem) : Ordering :=
  (exactCompare a.keys b.keys).then (compareOn BitVec.toNat a.token b.token)

instance : TransCmp fun a b : PinyinIndexItem => exactCompare a.keys b.keys where
  eq_swap := OrientedCmp.eq_swap
  isLE_trans := TransCmp.isLE_trans

theorem itemCompare_eq_compareLex : itemCompare = compareLex (fun a b => exactCompare a.keys b.keys)
    (compareOn fun item => item.token.toNat) := rfl

instance : TransCmp itemCompare := by
  rw [itemCompare_eq_compareLex]
  infer_instance

theorem eq_of_itemCompare {a b : PinyinIndexItem} (h : itemCompare a b = .eq) : a = b := by
  rw [itemCompare, Ordering.then_eq_eq] at h
  have hkeys : a.keys = b.keys := LawfulEqCmp.eq_of_compare h.1
  have htoken : a.token.toNat = b.token.toNat := LawfulEqCmp.eq_of_compare h.2
  cases a
  cases b
  simp_all [BitVec.toNat_inj]

section Sorted

variable {items : List PinyinIndexItem} {len : Nat}

/-- On items of one length the row's order is the order on all items. -/
theorem mergeSort_itemOrder (hlen : ∀ item ∈ items, item.keys.length = len) :
    items.mergeSort (fun a b => (itemOrder a b).isLE) = items.mergeSort fun a b => (itemCompare a b).isLE := by
  have hcongr := @List.map_mergeSort _ _ (fun a b => (itemOrder a b).isLE) (fun a b => (itemCompare a b).isLE) id
    items fun a ha b hb => by
      rw [itemOrder, exactCompare2_eq ((hlen a ha).trans (hlen b hb).symm)]
      rfl
  rwa [map_id, map_id] at hcongr

theorem pairwise_mergeSort_itemCompare (items : List PinyinIndexItem) :
    (items.mergeSort fun a b => (itemCompare a b).isLE).Pairwise fun a b => (itemCompare a b).isLE = true := by
  refine pairwise_mergeSort (fun a b c => TransCmp.isLE_trans) (fun a b => ?_) items
  rw [@OrientedCmp.eq_swap _ itemCompare _ b a]
  cases itemCompare a b <;> rfl

/-- Sorting keeps to the items a test keeps. -/
theorem filter_mergeSort (p : PinyinIndexItem → Bool) (items : List PinyinIndexItem) :
    (items.mergeSort fun a b => (itemCompare a b).isLE).filter p =
      (items.filter p).mergeSort fun a b => (itemCompare a b).isLE := by
  refine Perm.eq_of_pairwise (fun a b _ _ hab hba => ?_) ((pairwise_mergeSort_itemCompare items).filter p)
    (pairwise_mergeSort_itemCompare (items.filter p)) ?_
  · refine eq_of_itemCompare ?_
    rw [@OrientedCmp.eq_swap _ itemCompare _ b a] at hba
    generalize itemCompare a b = order at hab hba
    cases order with
    | lt => cases hba
    | eq => rfl
    | gt => cases hab
  · exact ((mergeSort_perm items _).filter p).trans (mergeSort_perm (items.filter p) _).symm

/-- The items of a row are read back. -/
theorem decodeItems_flatMap (hlen : ∀ item ∈ items, item.keys.length = len) (hpos : len ≠ 0)
    (hfits : ∀ item ∈ items, ∀ key ∈ item.keys, key.Fits) :
    decodeItems (items.flatMap fun item => encodeItem item.token item.keys) len = .ok items := by
  have hblocks : ∀ block ∈ items.map (fun item => encodeItem item.token item.keys),
    block.length = item2Stride len := by
    intro block hblock
    obtain ⟨item, hitem, rfl⟩ := mem_map.mp hblock
    rw [length_encodeItem, hlen item hitem]
  have htail : ([] : Bytes).length < item2Stride len := item2Stride_pos len
  have hcut := chunks_flatten (item2Stride_pos len) hblocks htail
  have hlength := length_flatten_const hblocks
  rw [append_nil, ← flatMap_def] at hcut
  rw [← flatMap_def, length_map] at hlength
  rw [decodeItems, hlength, if_neg hpos]
  by_cases hempty : (items.flatMap fun item => encodeItem item.token item.keys).isEmpty = true
  · rw [if_pos hempty]
    rw [List.isEmpty_iff] at hempty
    rw [hempty, length_nil] at hlength
    rcases Nat.mul_eq_zero.mp hlength.symm with hzero | hzero
    · rw [length_eq_zero_iff.mp hzero]
    · exact absurd hzero.symm (Nat.ne_of_lt (item2Stride_pos len))
  · rw [if_neg hempty]
    dsimp only
    rw [if_neg (fun h => h (Nat.mul_mod_left _ _)), hcut, map_map]
    refine congrArg Except.ok ?_
    conv_rhs => rw [← map_id items]
    refine map_congr_left fun item hitem => ?_
    rw [Function.comp_apply, recordToken_encodeItem, ← hlen item hitem,
      recordKeys_encodeItem _ _ (hfits item hitem), id]

end Sorted

/-! ## Answers -/

variable {stored : List ChewingKey}

theorem matching_iff {query : List ChewingKey} : Matching query stored ↔
    query.length = stored.length ∧ ((query.zip stored).all fun pair => keyMatches pair.1 pair.2) = true := by
  have hflip : Matching query stored ↔ List.Forall₂ (fun query stored =>
    keyMatches query stored = true) query stored :=
    ⟨List.Forall₂.flip, List.Forall₂.flip⟩
  rw [hflip, forall₂_iff_zip, all_eq_true]
  exact ⟨fun h => ⟨h.1, fun pair hpair => h.2 hpair⟩, fun h => ⟨h.1, fun {a b} hpair => h.2 (a, b) hpair⟩⟩

theorem keysMatch_iff {query : List ChewingKey} : keysMatch query stored = true ↔ Matching query stored := by
  rw [matching_iff, keysMatch, Bool.and_eq_true, beq_iff_eq]
  refine and_congr_right fun hlength => ?_
  rw [prefixKeysMatch, if_neg (Nat.not_lt.mpr (Nat.le_of_eq hlength))]

/-- Where a search answers, the search without tones answers those tokens too. -/
theorem ChewingTable.search_toneless {dbm : SortedMap Bytes Bytes} {query : List ChewingKey}
    {tokens : List (BitVec 32)} (h : search dbm query = .ok tokens) :
    ∃ more, search dbm (query.map (·.toneless)) = .ok more ∧ tokens ⊆ more := by
  unfold search at h ⊢
  rw [isEmpty_map, indexKey_toneless, length_map]
  split_ifs at h ⊢
  · exact ⟨tokens, h, List.Subset.refl tokens⟩
  · cases hrow : dbm.get? (indexKey query) with
    | none =>
      rw [hrow] at h
      exact ⟨tokens, h, List.Subset.refl tokens⟩
    | some value =>
      rw [hrow] at h
      dsimp only at h ⊢
      split_ifs at h ⊢
      · exact ⟨tokens, h, List.Subset.refl tokens⟩
      · cases hitems : decodeItems value query.length with
        | error error =>
          rw [hitems] at h
          cases h
        | ok items =>
          rw [hitems] at h
          obtain rfl := Except.ok.inj h
          refine ⟨_, rfl, map_subset _ fun item hitem => ?_⟩
          obtain ⟨hmem, hall⟩ := mem_filter.mp hitem
          refine mem_filter.mpr ⟨hmem, ?_⟩
          rw [zip_map_left, all_map]
          rw [all_eq_true] at hall ⊢
          exact fun pair hpair => keyMatches_toneless (hall pair hpair)

section Answers

variable {rows : List PinyinIndexItem} {query : List ChewingKey}

/-- The items under a table key have half as many keys as it has bytes. -/
theorem length_of_mem_mergedSpaces {key : Bytes} {row : PinyinIndexItem}
    (h : row ∈ ((mergedSpaces rows).get? key).getD []) : row ∈ rows ∧ key.length = 2 * row.keys.length := by
  rw [getD_mergedSpaces, mem_append, mem_filter, mem_filter, decide_eq_true_iff, decide_eq_true_iff] at h
  rcases h with ⟨hrow, rfl⟩ | ⟨hrow, rfl⟩
  · exact ⟨hrow, length_encodeIncompleteKey row.keys⟩
  · exact ⟨hrow, length_encodeCompleteKey row.keys⟩

/-- The row of a table key is read as its items, in order. -/
theorem decodeItems_writeRow (hfits : ∀ row ∈ rows, ∀ key ∈ row.keys, key.Fits) {key : Bytes} {len : Nat}
    (hkey : key.length = 2 * len) (hpos : len ≠ 0) {items : List PinyinIndexItem}
    (hitems : (mergedSpaces rows).get? key = some items) :
    decodeItems (writeRow items) len = .ok (items.mergeSort fun a b => (itemCompare a b).isLE) := by
  have hmem : ∀ row ∈ items, row ∈ rows ∧ row.keys.length = len := by
    intro row hrow
    obtain ⟨hin, hlength⟩ := @length_of_mem_mergedSpaces rows key row (by rw [hitems]; exact hrow)
    exact ⟨hin, by omega⟩
  rw [writeRow, mergeSort_itemOrder fun row hrow => (hmem row hrow).2]
  refine decodeItems_flatMap (fun row hrow => ?_) hpos fun row hrow => ?_
  · exact (hmem row (mem_mergeSort.mp hrow)).2
  · exact hfits row (hmem row (mem_mergeSort.mp hrow)).1

/-- The items that match a query, in order. -/
def found (rows : List PinyinIndexItem) (query : List ChewingKey) : List PinyinIndexItem :=
  (rows.filter fun row => keysMatch query row.keys).mergeSort fun a b => (itemOrder a b).isLE

theorem found_nil (hrows : ∀ row ∈ rows, row.keys.length ≠ 0) : found rows [] = [] := by
  have hnone : rows.filter (fun row => keysMatch [] row.keys) = [] := by
    refine filter_eq_nil_iff.mpr fun row hrow hmatch => ?_
    exact hrows row hrow (matching_iff.mp (keysMatch_iff.mp hmatch)).1.symm
  rw [found, hnone, mergeSort_nil]

theorem writeRow_eq_nil {items : List PinyinIndexItem} (h : (writeRow items).isEmpty = true) : items = [] := by
  rw [List.isEmpty_iff, writeRow, flatMap_eq_nil_iff] at h
  refine eq_nil_iff_forall_not_mem.mpr fun row hrow => ?_
  have hlength := length_encodeItem row.token row.keys
  rw [h row (mem_mergeSort.mpr hrow), length_nil] at hlength
  exact absurd hlength (Nat.ne_of_lt (item2Stride_pos _))

section Fitting

variable (hrows : ∀ row ∈ rows, row.keys.length ≠ 0 ∧ ∀ key ∈ row.keys, key.Fits ∧ ¬key.InitialOnly)
  (hquery : ∀ key ∈ query, key.Fits)
include hrows hquery

/-- The items that match a query are those under its table key that do. -/
theorem filter_mergedSpaces (hnonempty : query ≠ []) :
    (((mergedSpaces rows).get? (indexKey query)).getD []).filter (fun row => keysMatch query row.keys) =
      rows.filter fun row => keysMatch query row.keys := by
  have hfits : ∀ row ∈ rows, ∀ key ∈ row.keys, key.Fits := fun row hrow key hkey => ((hrows row hrow).2 key hkey).1
  have hrhymes : ∀ row ∈ rows, ∀ key ∈ row.keys, ¬key.InitialOnly :=
    fun row hrow key hkey => ((hrows row hrow).2 key hkey).2
  rw [getD_mergedSpaces, filter_append, filter_filter, filter_filter, indexKey]
  by_cases hincomplete : containsIncomplete query = true
  · rw [if_pos hincomplete]
    have hnone : rows.filter (fun row => keysMatch query row.keys &&
        decide (encodeCompleteKey row.keys = encodeIncompleteKey query)) = [] := by
      refine filter_eq_nil_iff.mpr fun row hrow htest => ?_
      rw [Bool.and_eq_true, decide_eq_true_iff] at htest
      obtain ⟨key, hkey⟩ := exists_mem_of_length_pos (Nat.pos_of_ne_zero (hrows row hrow).1)
      exact hrhymes row hrow key hkey (initialOnly_of_encode_eq hquery (hfits row hrow) htest.2.symm key hkey)
    rw [hnone, append_nil]
    refine filter_congr fun row hrow => ?_
    rw [Bool.and_eq_left_iff_imp, decide_eq_true_iff, encodeIncompleteKey_eq_iff (hfits row hrow) hquery]
    exact fun hmatch => (keysMatch_iff.mp hmatch).initials
  · rw [if_neg hincomplete]
    have hquery' : ∀ key ∈ query, ¬key.InitialOnly := fun key hkey honly =>
      hincomplete (containsIncomplete_iff.mpr ⟨key, hkey, honly⟩)
    have hnone : rows.filter (fun row => keysMatch query row.keys &&
        decide (encodeIncompleteKey row.keys = encodeCompleteKey query)) = [] := by
      refine filter_eq_nil_iff.mpr fun row hrow htest => ?_
      rw [Bool.and_eq_true, decide_eq_true_iff] at htest
      obtain ⟨key, hkey⟩ := exists_mem_of_ne_nil query hnonempty
      exact hquery' key hkey (initialOnly_of_encode_eq (hfits row hrow) hquery htest.2 key hkey)
    rw [hnone, nil_append]
    refine filter_congr fun row hrow => ?_
    rw [Bool.and_eq_left_iff_imp, decide_eq_true_iff, encodeCompleteKey_eq_iff (hfits row hrow) hquery]
    exact fun hmatch => (keysMatch_iff.mp hmatch).tonelesses hquery' (hrhymes row hrow)

theorem found_eq (hnonempty : query ≠ []) :
    found rows query = ((((mergedSpaces rows).get? (indexKey query)).getD []).mergeSort fun a b =>
      (itemCompare a b).isLE).filter fun row => keysMatch query row.keys := by
  have hlen : ∀ row ∈ rows.filter (fun row => keysMatch query row.keys), row.keys.length = query.length := by
    intro row hrow
    exact (matching_iff.mp (keysMatch_iff.mp (mem_filter.mp hrow).2)).1.symm
  rw [found, mergeSort_itemOrder hlen, filter_mergeSort, filter_mergedSpaces hrows hquery hnonempty]

/-- The search tells whether a longer key exists. -/
theorem searchContinued_eq :
    searchContinued (buildDbm rows) query =
      .ok (keyExists (buildDbm rows) query, found rows query) := by
  by_cases hempty : query = []
  · rw [hempty, found_nil fun row hrow => (hrows row hrow).1]
    rfl
  have hquery' : ¬query.isEmpty = true := fun h => hempty (isEmpty_iff.mp h)
  rw [found_eq hrows hquery hempty, searchContinued, keyExists, if_neg hquery',
    if_neg hquery', get?_buildDbm]
  cases hitems : (mergedSpaces rows).get? (indexKey query) with
  | none =>
    rw [Option.map_none, Option.getD_none, mergeSort_nil]
    rfl
  | some items =>
    rw [Option.map_some, searchRow, if_neg hquery', Option.getD_some, Option.isSome_some]
    by_cases hvalue : (writeRow items).isEmpty = true
    · rw [if_pos hvalue, writeRow_eq_nil hvalue, mergeSort_nil]
      rfl
    · rw [if_neg hvalue, decodeItems_writeRow (fun row hrow key hkey => ((hrows row hrow).2 key hkey).1)
        (length_indexKey query) (fun hzero => hempty (length_eq_zero_iff.mp hzero)) hitems]
      rfl

/-- The search lists the tokens of the matching rows. -/
theorem search_eq : search (buildDbm rows) query = .ok ((found rows query).map (·.token)) := by
  by_cases hempty : query = []
  · rw [hempty, found_nil fun row hrow => (hrows row hrow).1]
    rfl
  have hquery' : ¬query.isEmpty = true := fun h => hempty (isEmpty_iff.mp h)
  rw [found_eq hrows hquery hempty, search, if_neg hquery', get?_buildDbm]
  cases hitems : (mergedSpaces rows).get? (indexKey query) with
  | none =>
    rw [Option.map_none, Option.getD_none, mergeSort_nil]
    rfl
  | some items =>
    rw [Option.map_some, Option.getD_some]
    dsimp only
    by_cases hvalue : (writeRow items).isEmpty = true
    · rw [if_pos hvalue, writeRow_eq_nil hvalue, mergeSort_nil]
      rfl
    · rw [if_neg hvalue, decodeItems_writeRow (fun row hrow key hkey => ((hrows row hrow).2 key hkey).1)
        (length_indexKey query) (fun hzero => hempty (length_eq_zero_iff.mp hzero)) hitems]
      refine congrArg (fun kept : List PinyinIndexItem => Except.ok (kept.map (·.token))) ?_
      refine filter_congr fun row hrow => ?_
      have hlength := (@length_of_mem_mergedSpaces rows _ row (by rw [hitems]; exact mem_mergeSort.mp hrow)).2
      rw [length_indexKey] at hlength
      rw [Bool.eq_iff_iff, keysMatch_iff, matching_iff]
      exact ⟨fun h => ⟨by omega, h⟩, And.right⟩

end Fitting

/-- A key exists where a row extends the query. -/
theorem keyExists_iff (hrows : ∀ row ∈ rows, row.keys.length ≠ 0) :
    keyExists (buildDbm rows) query = true ↔
      query ≠ [] ∧ ∃ row ∈ rows, query.length ≤ row.keys.length ∧
        (indexKey query = encodeIncompleteKey (row.keys.take query.length) ∨
          indexKey query = encodeCompleteKey (row.keys.take query.length)) := by
  rw [keyExists]
  by_cases hempty : query = []
  · simp [hempty]
  rw [if_neg fun h => hempty (isEmpty_iff.mp h), get?_buildDbm, Option.isSome_map, isSome_mergedSpaces hrows]
  have hlength := length_indexKey query
  constructor
  · rintro ⟨row, hrow, n, hpos, hn, hkey⟩
    have hcount : n = query.length := by
      rcases hkey with hkey | hkey
      · rw [hkey, take_encodeIncompleteKey, length_encodeIncompleteKey, length_take] at hlength
        omega
      · rw [hkey, take_encodeCompleteKey, length_encodeCompleteKey, length_take] at hlength
        omega
    subst hcount
    rw [take_encodeIncompleteKey, take_encodeCompleteKey] at hkey
    exact ⟨hempty, row, hrow, hn, hkey⟩
  · rintro ⟨_, row, hrow, hn, hkey⟩
    refine ⟨row, hrow, query.length, length_pos_of_ne_nil hempty, hn, ?_⟩
    rwa [take_encodeIncompleteKey, take_encodeCompleteKey]

end Answers

/-- The table built from items with complete keys : its keys ascend and hold their leads, and a
query finds the items that match it, in order. -/
theorem table_answers {rows : List PinyinIndexItem}
    (hrows : ∀ row ∈ rows, row.keys.length ≠ 0 ∧ ∀ key ∈ row.keys, key.Fits ∧ ¬key.InitialOnly) :
    ((pinyinIndexEntries rows).Pairwise fun a b => a.1 < b.1) ∧
    (∀ key ∈ (pinyinIndexEntries rows).map Prod.fst, ∀ n, 0 < n → 2 * n < key.length →
      key.take (2 * n) ∈ (pinyinIndexEntries rows).map Prod.fst) ∧
    ∀ query : List ChewingKey, (∀ key ∈ query, key.Fits) →
      ChewingTable.search (buildDbm rows) query = .ok ((found rows query).map (·.token)) ∧
      ChewingTable.searchContinued (buildDbm rows) query =
        .ok (ChewingTable.keyExists (buildDbm rows) query, found rows query) ∧
      (ChewingTable.keyExists (buildDbm rows) query = true ↔
        query ≠ [] ∧ ∃ row ∈ rows, query.length ≤ row.keys.length ∧
          (indexKey query = encodeIncompleteKey (row.keys.take query.length) ∨
            indexKey query = encodeCompleteKey (row.keys.take query.length))) := by
  have hnonempty : ∀ row ∈ rows, row.keys.length ≠ 0 := fun row hrow => (hrows row hrow).1
  have hlists := lists_pinyinIndexEntries rows
  refine ⟨hlists.ascending, fun key hkey n hpos hn => ?_, fun query hquery =>
    ⟨search_eq hrows hquery, searchContinued_eq hrows hquery, keyExists_iff hnonempty⟩⟩
  rw [hlists.mem_keys, Option.isSome_map, isSome_mergedSpaces hnonempty] at hkey ⊢
  obtain ⟨row, hrow, m, _, hm, hkey⟩ := hkey
  refine ⟨row, hrow, n, hpos, ?_, ?_⟩
  · rcases hkey with rfl | rfl
    · rw [length_take, length_encodeIncompleteKey] at hn
      omega
    · rw [length_take, length_encodeCompleteKey] at hn
      omega
  · have hnm : 2 * n ≤ 2 * m := by
      rcases hkey with rfl | rfl
      · rw [length_take] at hn
        omega
      · rw [length_take] at hn
        omega
    rcases hkey with rfl | rfl
    · exact Or.inl (by rw [take_take, Nat.min_eq_left hnm])
    · exact Or.inr (by rw [take_take, Nat.min_eq_left hnm])

theorem table_answers_niHao :
    ChewingTable.search (buildDbm [⟨8, [⟨11, 1, 0, 3⟩, ⟨6, 0, 5, 0⟩]⟩, ⟨7, [⟨11, 1, 0, 3⟩, ⟨6, 0, 5, 0⟩]⟩])
      [⟨11, 0, 0, 0⟩, ⟨6, 0, 5, 0⟩] =
        .ok ((found [⟨8, [⟨11, 1, 0, 3⟩, ⟨6, 0, 5, 0⟩]⟩, ⟨7, [⟨11, 1, 0, 3⟩, ⟨6, 0, 5, 0⟩]⟩]
          [⟨11, 0, 0, 0⟩, ⟨6, 0, 5, 0⟩]).map (·.token)) :=
  ((@table_answers [⟨8, [⟨11, 1, 0, 3⟩, ⟨6, 0, 5, 0⟩]⟩, ⟨7, [⟨11, 1, 0, 3⟩, ⟨6, 0, 5, 0⟩]⟩] (by decide)).2.2 _
    (by decide)).1

end Oxpinyin
