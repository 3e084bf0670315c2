import Mathlib.Data.Set.Insert
import Oxpinyin.UserIndex

/-!
# The readings of the user index

What the index is for : a set of readings, each under its keys without tones and under its
initials. A record lists the readings under its table key in exact key order and then by token.
`Entry.addIndex_items` and `Entry.removeIndex_items` are the edits of one record,
`Stores` is the invariant of a table that is being edited, one table key after the other, and
`run_readings` is what holds after any run of adds and removes.
-/

namespace Oxpinyin

open List Option Function LittleEndian Search Std UserIndex RecordTable Or OrientedCmp

/-- A reading the index holds : one to sixteen keys within their widths, one of them complete. -/
structure Reading where
  keys : List ChewingKey
  token : BitVec 32
  nonempty : keys.length ≠ 0
  short : keys.length ≤ UserIndex.maxPhraseLength
  fits : ∀ key ∈ keys, key.Fits
  complete : ∃ key ∈ keys, ¬key.InitialOnly
  deriving DecidableEq

namespace Reading

/-- Exact key order, then by token. -/
instance : LT Reading :=
  ⟨fun r s => exactCompare r.keys s.keys = .lt ∨ r.keys = s.keys ∧ r.token < s.token⟩

/-- The item of a reading. -/
def item (r : Reading) : Bytes := encodeItem r.token r.keys

variable {r s t : Reading} {keys : List ChewingKey}

theorem eq_of_parts (hkeys : r.keys = s.keys) (htoken : r.token = s.token) : r = s := by
  cases r
  cases s
  simp_all

theorem exactCompare_self (keys : List ChewingKey) : exactCompare keys keys = .eq := ReflCmp.compare_self

theorem lt_irrefl (r : Reading) : ¬r < r := by
  rintro (hlt | ⟨_, hlt⟩)
  · rw [exactCompare_self] at hlt
    cases hlt
  · exact BitVec.lt_irrefl _ hlt

theorem lt_trans (hrs : r < s) (hst : s < t) : r < t := by
  rcases hrs with hrs | ⟨hkeys, hrs⟩
  · rcases hst with hst | ⟨hkeys', _⟩
    · exact inl (TransCmp.lt_trans hrs hst)
    · exact inl (hkeys' ▸ hrs)
  · rcases hst with hst | ⟨hkeys', hst⟩
    · exact inl (hkeys ▸ hst)
    · exact inr ⟨hkeys.trans hkeys', BitVec.lt_trans hrs hst⟩

/-- A reading below one below some keys is below them. -/
theorem below_of_lt (hrs : r < s) (h : exactCompare s.keys keys = .lt) : exactCompare r.keys keys = .lt := by
  rcases hrs with hrs | ⟨hkeys, _⟩
  · exact TransCmp.lt_trans hrs h
  · rwa [hkeys]

theorem above_of_lt (hrs : r < s) (h : exactCompare r.keys keys = .gt) : exactCompare s.keys keys = .gt := by
  rcases hrs with hrs | ⟨hkeys, _⟩
  · exact gt_iff_lt.mpr (TransCmp.lt_trans (lt_of_gt h) hrs)
  · rwa [← hkeys]

end Reading

open Reading

theorem pairwise_around {α : Type} {rel : α → α → Prop} {x : α} {front back : List α}
    (h : (front ++ back).Pairwise rel) (hfront : ∀ y ∈ front, rel y x) (hback : ∀ y ∈ back, rel x y) :
    (front ++ x :: back).Pairwise rel := by
  obtain ⟨hfronts, hbacks, hacross⟩ := pairwise_append.mp h
  refine pairwise_append.mpr ⟨hfronts, pairwise_cons.mpr ⟨hback, hbacks⟩, fun y hy z hz => ?_⟩
  rcases mem_cons.mp hz with rfl | hz
  · exact hfront y hy
  · exact hacross y hy z hz

/-! ## One record -/

namespace Entry

variable {items : List Reading} {len : Nat}

section

variable (hlen : ∀ r ∈ items, r.keys.length = len)
include hlen

/-- The items of a record are of one length. -/
theorem length_block : ∀ block ∈ items.map item, block.length = item2Stride len := by
  intro block hblock
  obtain ⟨r, hr, rfl⟩ := mem_map.mp hblock
  rw [item, length_encodeItem, hlen r hr]

theorem length_items : (items.flatMap item).length = items.length * item2Stride len := by
  rw [flatMap_def, length_flatten_const (length_block hlen), length_map]

/-- A record is cut into its items. -/
theorem chunks_items : chunks (item2Stride len) (items.flatMap item) = items.map item := by
  have hcut := @chunks_flatten _ (item2Stride len) (item2Stride_pos len) (items.map item) []
    (length_block hlen) (item2Stride_pos len)
  rwa [append_nil, ← flatMap_def] at hcut

end

theorem token_items {front back : List Reading} {r : Reading} (hlen : ∀ s ∈ front, s.keys.length = len) :
    token ⟨(front ++ r :: back).flatMap item, len⟩ front.length = r.token := by
  obtain ⟨padding, hitem⟩ := encodeItem_eq r.token r.keys
  have hbytes : (front ++ r :: back).flatMap item = front.flatMap item ++ le32 r.token ++
      (r.keys.flatMap pack ++ padding ++ back.flatMap item) := by
    rw [flatMap_append, flatMap_cons, item, hitem]
    simp only [append_assoc]
  have hword := word32At_eq hbytes (length_items hlen).symm
  rw [token, stride]
  dsimp only
  rw [hword, getD_some]

theorem compareRecord_item {r : Reading} {value : List ChewingKey} (hlen : r.keys.length = value.length) :
    compareRecord r.item value = exactCompare r.keys value := by
  rw [compareRecord, item, ← hlen, recordKeys_encodeItem _ _ r.fits]

theorem item2Stride_mem (h : len ≠ 0) (hshort : len ≤ UserIndex.maxPhraseLength) : item2Stride len ∈ strides := by
  have hall : ∀ n ∈ List.range (UserIndex.maxPhraseLength + 1), n ≠ 0 → item2Stride n ∈ strides := by decide
  exact hall len (mem_range.mpr (Nat.lt_succ_of_le hshort)) h

/-- The range of the items with a reading's keys. -/
theorem equalRange_items (hsorted : items.Pairwise (· < ·)) (r : Reading)
    (hlen : ∀ s ∈ items, s.keys.length = r.keys.length) :
    ∃ below equal above, items = below ++ equal ++ above ∧
      (∀ s ∈ below, exactCompare s.keys r.keys = .lt) ∧ (∀ s ∈ equal, s.keys = r.keys) ∧
      (∀ s ∈ above, exactCompare s.keys r.keys = .gt) ∧
      equalRange ⟨items.flatMap item, r.keys.length⟩ r.keys =
        (below.length, below.length + equal.length) := by
  obtain ⟨below, equal, above, rfl, hbelow, hequal, habove⟩ :=
    @exists_parts _ items (fun s => exactCompare s.keys r.keys) (hsorted.imp below_of_lt)
      (hsorted.imp above_of_lt)
  refine ⟨below, equal, above, rfl, hbelow, fun s hs => LawfulEqCmp.eq_of_compare (hequal s hs), habove, ?_⟩
  have hcompare : ∀ s ∈ below ++ equal ++ above, compareRecord s.item r.keys = exactCompare s.keys r.keys :=
    fun s hs => compareRecord_item (hlen s hs)
  rw [append_assoc] at hcompare
  have hfirst : partitionPoint (fun record => (compareRecord record r.keys).isLT)
      (below.map item ++ (equal ++ above).map item) = below.length := by
    rw [partitionPoint_append, length_map]
    · intro record hrecord
      obtain ⟨s, hs, rfl⟩ := mem_map.mp hrecord
      rw [hcompare s (mem_append_left _ hs), hbelow s hs]
      rfl
    · intro record hrecord
      obtain ⟨s, hs, rfl⟩ := mem_map.mp hrecord
      rw [hcompare s (mem_append_right _ hs)]
      rcases mem_append.mp hs with hs | hs
      · rw [hequal s hs]
        rfl
      · rw [habove s hs]
        rfl
  have hlast : partitionPoint (fun record => !(compareRecord record r.keys).isGT)
      (equal.map item ++ above.map item) = equal.length := by
    rw [partitionPoint_append, length_map]
    · intro record hrecord
      obtain ⟨s, hs, rfl⟩ := mem_map.mp hrecord
      rw [hcompare s (mem_append_right _ (mem_append_left _ hs)), hequal s hs]
      rfl
    · intro record hrecord
      obtain ⟨s, hs, rfl⟩ := mem_map.mp hrecord
      rw [hcompare s (mem_append_right _ (mem_append_right _ hs)), habove s hs]
      rfl
  rw [equalRange, if_neg (fun h => h rfl), stride, if_pos (item2Stride_mem r.nonempty r.short), searchRecords,
    chunks_items hlen, append_assoc, map_append, hfirst, drop_left' (length_map _), map_append, hlast]

/-- The place of a token among items with one reading's keys. -/
theorem addPlace_items {r : Reading} {above : List Reading} :
    ∀ {equal below : List Reading}, (∀ s ∈ below ++ equal, s.keys.length = len) →
      (∀ s ∈ equal, s.keys = r.keys) → equal.Pairwise (· < ·) →
      match addPlace ⟨(below ++ equal ++ above).flatMap item, len⟩ r.token equal.length below.length with
      | none => r ∈ equal
      | some at_ => ∃ lower upper, equal = lower ++ upper ∧ at_ = below.length + lower.length ∧
          (∀ s ∈ lower, s < r) ∧ ∀ s ∈ upper, r < s
  | [], below, _, _, _ => ⟨[], [], rfl, rfl, by simp, by simp⟩
  | s :: equal, below, hlen, hkeys, hsorted => by
    obtain ⟨hhead, htail⟩ := pairwise_cons.mp hsorted
    have hs : s.keys = r.keys := hkeys s mem_cons_self
    have htoken : token ⟨(below ++ s :: equal ++ above).flatMap item, len⟩ below.length = s.token := by
      rw [append_assoc, cons_append]
      exact token_items fun t ht => hlen t (mem_append_left _ ht)
    rw [length_cons, addPlace, htoken]
    by_cases hsame : s.token = r.token
    · rw [if_pos hsame]
      exact mem_cons.mpr (inl (eq_of_parts hs.symm hsame.symm))
    rw [if_neg hsame]
    by_cases hlt : r.token < s.token
    · rw [if_pos hlt]
      have hrs : r < s := inr ⟨hs.symm, hlt⟩
      exact ⟨[], s :: equal, rfl, rfl, by simp,
        forall_mem_cons.mpr ⟨hrs, fun t ht => lt_trans hrs (hhead t ht)⟩⟩
    rw [if_neg hlt]
    have hsr : s < r := by
      refine inr ⟨hs, ?_⟩
      rw [BitVec.lt_def] at hlt ⊢
      have hne : s.token.toNat ≠ r.token.toNat := fun h => hsame (BitVec.eq_of_toNat_eq h)
      omega
    have ih := @addPlace_items r above equal (below ++ [s]) (by rwa [append_assoc])
      (fun t ht => hkeys t (mem_cons_of_mem _ ht)) htail
    rw [append_assoc below, singleton_append, length_append, length_singleton] at ih
    split at ih
    · exact mem_cons_of_mem _ ih
    · obtain ⟨lower, upper, rfl, rfl, hlower, hupper⟩ := ih
      refine ⟨s :: lower, upper, rfl, ?_, forall_mem_cons.mpr ⟨hsr, hlower⟩, hupper⟩
      rw [length_cons]
      omega

/-- A record with a reading added : it lists that reading too, and the reading was new. -/
theorem addIndex_items (hsorted : items.Pairwise (· < ·)) (r : Reading)
    (hlen : ∀ s ∈ items, s.keys.length = r.keys.length) :
    ∃ after : List Reading, after.Pairwise (· < ·) ∧ (∀ s, s ∈ after ↔ s ∈ items ∨ s = r) ∧
      (addIndex ⟨items.flatMap item, r.keys.length⟩ r.keys r.token).1.bytes = after.flatMap item ∧
      ((addIndex ⟨items.flatMap item, r.keys.length⟩ r.keys r.token).2 = true ↔ r ∉ items) := by
  obtain ⟨below, equal, above, rfl, hbelow, hequal, habove, hrange⟩ := equalRange_items hsorted r hlen
  have hplace := @addPlace_items r.keys.length r above equal below
    (fun s hs => hlen s (mem_append_left _ hs)) hequal (pairwise_append.mp (pairwise_append.mp hsorted).1).2.1
  rw [addIndex, hrange]
  dsimp only
  rw [Nat.add_sub_cancel_left]
  obtain hnone | ⟨at_, hsome⟩ := eq_none_or_eq_some
    (addPlace ⟨(below ++ equal ++ above).flatMap item, r.keys.length⟩ r.token equal.length below.length)
  · rw [hnone] at hplace ⊢
    dsimp only at hplace
    refine ⟨below ++ equal ++ above, hsorted, fun s => ?_, rfl, ?_⟩
    · refine ⟨inl, ?_⟩
      rintro (hs | rfl)
      · exact hs
      · simp [hplace]
    · simp [hplace]
  · rw [hsome] at hplace ⊢
    obtain ⟨lower, upper, rfl, rfl, hlower, hupper⟩ := hplace
    have hitems : below ++ (lower ++ upper) ++ above = (below ++ lower) ++ (upper ++ above) := by
      simp only [append_assoc]
    rw [hitems] at hsorted hlen ⊢
    have hfront : ∀ s ∈ below ++ lower, s < r := by
      intro s hs
      rcases mem_append.mp hs with hs | hs
      · exact inl (hbelow s hs)
      · exact hlower s hs
    have hback : ∀ s ∈ upper ++ above, r < s := by
      intro s hs
      rcases mem_append.mp hs with hs | hs
      · exact hupper s hs
      · exact inl (lt_of_gt (habove s hs))
    have hat : (below.length + lower.length) * item2Stride r.keys.length =
        ((below ++ lower).flatMap item).length := by
      rw [length_items fun s hs => hlen s (mem_append_left _ hs), length_append]
    refine ⟨(below ++ lower) ++ r :: (upper ++ above), pairwise_around hsorted hfront hback, fun s => ?_, ?_, ?_⟩
    · simp only [mem_append, mem_cons]
      tauto
    · dsimp only
      rw [stride, hat, @List.flatMap_append _ _ (below ++ lower), insertAt_append,
        @List.flatMap_append _ _ (below ++ lower), flatMap_cons, append_assoc]
      rfl
    · refine ⟨fun _ hr => ?_, fun _ => rfl⟩
      rcases mem_append.mp hr with hr | hr
      · exact lt_irrefl r (hfront r hr)
      · exact lt_irrefl r (hback r hr)

/-- The first item with a token, among items with one reading's keys. -/
theorem find_items {r : Reading} {above : List Reading} :
    ∀ {equal below : List Reading}, (∀ s ∈ below ++ equal, s.keys.length = len) →
      (∀ s ∈ equal, s.keys = r.keys) →
      match (range' below.length equal.length).find? fun at_ =>
        token ⟨(below ++ equal ++ above).flatMap item, len⟩ at_ == r.token with
      | none => r ∉ equal
      | some at_ => ∃ lower upper, equal = lower ++ r :: upper ∧ at_ = below.length + lower.length
  | [], below, _, _ => by simp
  | s :: equal, below, hlen, hkeys => by
    have hs : s.keys = r.keys := hkeys s mem_cons_self
    have htoken : token ⟨(below ++ s :: equal ++ above).flatMap item, len⟩ below.length = s.token := by
      rw [append_assoc, cons_append]
      exact token_items fun t ht => hlen t (mem_append_left _ ht)
    rw [length_cons, range'_succ, find?_cons, htoken]
    by_cases hsame : s.token = r.token
    · rw [hsame, beq_self_eq_true]
      exact ⟨[], equal, by rw [eq_of_parts hs hsame]; rfl, rfl⟩
    rw [beq_false_of_ne hsame]
    have ih := @find_items r above equal (below ++ [s]) (by rwa [append_assoc])
      fun t ht => hkeys t (mem_cons_of_mem _ ht)
    rw [append_assoc below, singleton_append, length_append, length_singleton] at ih
    dsimp only
    split at ih
    · rename_i hnone
      rw [hnone]
      refine fun hr => ?_
      rcases mem_cons.mp hr with rfl | hr
      · exact hsame rfl
      · exact ih hr
    · rename_i at_ hsome
      rw [hsome]
      obtain ⟨lower, upper, rfl, rfl⟩ := ih
      refine ⟨s :: lower, upper, rfl, ?_⟩
      rw [length_cons]
      omega

/-- A record with a reading removed : it lists the others, and the reading was there. -/
theorem removeIndex_items (hsorted : items.Pairwise (· < ·)) (r : Reading)
    (hlen : ∀ s ∈ items, s.keys.length = r.keys.length) :
    ∃ after : List Reading, after.Pairwise (· < ·) ∧ (∀ s, s ∈ after ↔ s ∈ items ∧ s ≠ r) ∧
      (removeIndex ⟨items.flatMap item, r.keys.length⟩ r.keys r.token).1.bytes =
        after.flatMap item ∧
      ((removeIndex ⟨items.flatMap item, r.keys.length⟩ r.keys r.token).2 = true ↔ r ∈ items) := by
  obtain ⟨below, equal, above, rfl, hbelow, hequal, habove, hrange⟩ := equalRange_items hsorted r hlen
  have hfind := @find_items r.keys.length r above equal below (fun s hs => hlen s (mem_append_left _ hs)) hequal
  have hbelow' : r ∉ below := fun hr => lt_irrefl r (inl (hbelow r hr))
  have habove' : r ∉ above := fun hr => lt_irrefl r (inl (lt_of_gt (habove r hr)))
  rw [removeIndex, hrange]
  dsimp only
  rw [Nat.add_sub_cancel_left]
  obtain hnone | ⟨at_, hsome⟩ := eq_none_or_eq_some ((range' below.length equal.length).find? fun at_ =>
    token ⟨(below ++ equal ++ above).flatMap item, r.keys.length⟩ at_ == r.token)
  · rw [hnone] at hfind ⊢
    dsimp only at hfind
    have hr : r ∉ below ++ equal ++ above := by simp [hbelow', hfind, habove']
    refine ⟨below ++ equal ++ above, hsorted, fun s => ⟨fun hs => ⟨hs, ?_⟩, And.left⟩, rfl, ?_⟩
    · rintro rfl
      exact hr hs
    · exact ⟨fun h => absurd h Bool.false_ne_true, fun h => absurd h hr⟩
  · rw [hsome] at hfind ⊢
    obtain ⟨lower, upper, rfl, rfl⟩ := hfind
    have hitems : below ++ (lower ++ r :: upper) ++ above = (below ++ lower) ++ r :: (upper ++ above) := by
      simp only [append_assoc, cons_append]
    rw [hitems] at hsorted hlen ⊢
    have hat : (below.length + lower.length) * item2Stride r.keys.length =
        ((below ++ lower).flatMap item).length := by
      rw [length_items fun s hs => hlen s (mem_append_left _ hs), length_append]
    have hdistinct : r ∉ (below ++ lower) ++ (upper ++ above) := by
      have hpairs := pairwise_append.mp hsorted
      intro hr
      rcases mem_append.mp hr with hr | hr
      · exact lt_irrefl r (hpairs.2.2 r hr r mem_cons_self)
      · exact lt_irrefl r ((pairwise_cons.mp hpairs.2.1).1 r hr)
    refine ⟨(below ++ lower) ++ (upper ++ above), ?_, fun s => ?_, ?_, ?_⟩
    · exact hsorted.sublist (List.Sublist.append (List.Sublist.refl _) (sublist_cons_self _ _))
    · constructor
      · intro hs
        refine ⟨?_, fun hsr => hdistinct (hsr ▸ hs)⟩
        simp only [mem_append, mem_cons] at hs ⊢
        tauto
      · intro hs
        simp only [mem_append, mem_cons] at hs ⊢
        tauto
    · dsimp only
      have hstop : ((below ++ lower).flatMap item).length + item2Stride r.keys.length =
          ((below ++ lower).flatMap item).length + r.item.length := by
        rw [item, length_encodeItem]
      rw [stride, hat, @List.flatMap_append _ _ (below ++ lower), flatMap_cons, ← append_assoc,
        removeRange_append _ _ _ hstop, @List.flatMap_append _ _ (below ++ lower)]
    · simp

end Entry

/-! ## One table key -/

namespace UserIndex

/-- Each record lists, in order, the readings its table key is to hold. -/
def Stores (index : UserIndex) (held : Bytes → Set Reading) : Prop :=
  ∀ key, ∃ items : List Reading, items.Pairwise (· < ·) ∧ (∀ r, r ∈ items ↔ r ∈ held key) ∧
    (index.table.record key).getD [] = items.flatMap Reading.item

/-- The readings under a table key have as many keys as it has words. -/
def Addressed (held : Bytes → Set Reading) : Prop :=
  ∀ key, ∀ r ∈ held key, key.length = 2 * r.keys.length

variable {index : UserIndex} {held : Bytes → Set Reading} {key : Bytes} {r : Reading}

theorem items_eq_nil {items : List Reading} (h : items.flatMap item = []) : items = [] := by
  refine eq_nil_iff_forall_not_mem.mpr fun r hr => ?_
  have hitem := flatMap_eq_nil_iff.mp h r hr
  have hlength := length_encodeItem r.token r.keys
  rw [item] at hitem
  rw [hitem, length_nil] at hlength
  exact absurd hlength (Nat.ne_of_lt (item2Stride_pos _))

/-- A table key with a reading is a key. -/
theorem Stores.contains (h : index.Stores held) (hr : r ∈ held key) : index.table.containsKey key = true := by
  obtain ⟨items, _, hmem, hbytes⟩ := h key
  rw [containsKey_eq]
  cases hrecord : index.table.record key with
  | some bytes => rfl
  | none =>
    rw [hrecord, getD_none] at hbytes
    rw [← hmem, items_eq_nil hbytes.symm] at hr
    cases hr

/-- The items of the record under a table key of a reading. -/
theorem Stores.items (h : index.Stores held) (haddressed : Addressed held) (hkey : key.length = 2 * r.keys.length) :
    ∃ items : List Reading, items.Pairwise (· < ·) ∧ (∀ s, s ∈ items ↔ s ∈ held key) ∧
      (index.table.record key).getD [] = items.flatMap item ∧
      ∀ s ∈ items, s.keys.length = r.keys.length := by
  obtain ⟨items, hsorted, hmem, hbytes⟩ := h key
  refine ⟨items, hsorted, hmem, hbytes, fun s hs => ?_⟩
  have hlength := haddressed key s ((hmem s).mp hs)
  omega

/-- One record written anew. -/
theorem Stores.write (h : index.Stores held) {after : List Reading} {now : Set Reading} {table : RecordTable}
    {slots : List Slot} (hsorted : after.Pairwise (· < ·)) (hmem : ∀ s, s ∈ after ↔ s ∈ now)
    (hrecord : ∀ other, (table.record other).getD [] =
      if other = key then after.flatMap item else (index.table.record other).getD []) :
    Stores ⟨table, slots⟩ (update held key now) := by
  intro other
  rw [hrecord, update_apply]
  by_cases hother : other = key
  · rw [if_pos hother, if_pos hother]
    exact ⟨after, hsorted, hmem, rfl⟩
  · rw [if_neg hother, if_neg hother]
    exact h other

theorem getD_record_put (table : RecordTable) (key value other : Bytes) :
    ((table.put key value).record other).getD [] = if other = key then value else (table.record other).getD [] := by
  rw [record_put]
  split
  · rfl
  · rfl

theorem record_eq_none_of_not_contains (h : ¬index.table.containsKey key = true) : index.table.record key = none := by
  rwa [containsKey_eq, Bool.not_eq_true, isSome_eq_false_iff, isNone_iff_eq_none] at h

/-- A reading added under one table key. -/
theorem Stores.addProjection (h : index.Stores held) (haddressed : Addressed held)
    (hkey : key.length = 2 * r.keys.length) :
    (index.addProjection key r.keys r.token).1.Stores (update held key (insert r (held key))) ∧
      ((index.addProjection key r.keys r.token).2 = true ↔ r ∉ held key) := by
  obtain ⟨items, hsorted, hmem, hbytes, hlen⟩ := h.items haddressed hkey
  obtain ⟨after, hafter, hafterMem, hafterBytes, hadded⟩ := Entry.addIndex_items hsorted r hlen
  have hnow : ∀ s, s ∈ after ↔ s ∈ insert r (held key) := by
    intro s
    rw [hafterMem, hmem, Set.mem_insert_iff, or_comm]
  rw [UserIndex.addProjection]
  by_cases hcontains : index.table.containsKey key = true
  · rw [if_pos hcontains, hbytes]
    refine ⟨h.write hafter hnow fun other => ?_, ?_⟩
    · rw [getD_record_put, hafterBytes]
    · rw [hadded, hmem]
  · rw [if_neg hcontains]
    rw [record_eq_none_of_not_contains hcontains, getD_none] at hbytes
    rw [← hbytes] at hafterBytes
    have habsent : r ∉ held key := by
      rw [← hmem, items_eq_nil hbytes.symm]
      exact not_mem_nil
    refine ⟨h.write hafter hnow fun other => ?_, fun _ => habsent, fun _ => rfl⟩
    rw [getD_record_createPrefixes, getD_record_put, hafterBytes]

/-- A reading removed under one table key. -/
theorem Stores.removeProjection (h : index.Stores held) (haddressed : Addressed held)
    (hkey : key.length = 2 * r.keys.length) :
    (index.removeProjection key r.keys r.token).1.Stores (update held key (held key \ {r})) ∧
      ((index.removeProjection key r.keys r.token).2 = true ↔ r ∈ held key) := by
  obtain ⟨items, hsorted, hmem, hbytes, hlen⟩ := h.items haddressed hkey
  rw [UserIndex.removeProjection]
  cases hrecord : index.table.record key with
  | none =>
    rw [hrecord, getD_none] at hbytes
    have habsent : r ∉ held key := by
      rw [← hmem, items_eq_nil hbytes.symm]
      exact not_mem_nil
    refine ⟨?_, fun hfalse => absurd hfalse Bool.false_ne_true, fun hr => absurd hr habsent⟩
    rw [Set.sdiff_singleton_eq_self habsent, update_eq_self]
    exact h
  | some bytes =>
    obtain ⟨after, hafter, hafterMem, hafterBytes, hremoved⟩ := Entry.removeIndex_items hsorted r hlen
    rw [hrecord, getD_some] at hbytes
    subst hbytes
    refine ⟨h.write hafter (fun s => ?_) fun other => ?_, ?_⟩
    · rw [hafterMem, hmem, Set.mem_sdiff, Set.mem_singleton_iff]
    · rw [getD_record_put, hafterBytes]
    · rw [hremoved, hmem]

theorem leadClosed_addProjection (h : index.table.LeadClosed 2) (hkey : key.length = 2 * r.keys.length) :
    (index.addProjection key r.keys r.token).1.table.LeadClosed 2 := by
  rw [addProjection]
  by_cases hcontains : index.table.containsKey key = true
  · rw [if_pos hcontains]
    exact h.put hcontains _
  · rw [if_neg hcontains]
    have hnonempty := r.nonempty
    exact h.put_createPrefixes (by decide) (by omega) _

theorem leadClosed_removeProjection (h : index.table.LeadClosed 2) :
    (index.removeProjection key r.keys r.token).1.table.LeadClosed 2 := by
  rw [removeProjection]
  split
  · exact h
  · rename_i bytes hrecord
    refine h.put ?_ _
    rw [containsKey_eq, hrecord]
    rfl

/-! ## Sets of readings -/

/-- The readings of a set under a table key. -/
def under (present : Set Reading) (key : Bytes) : Set Reading :=
  {r | r ∈ present ∧ (key = encodeIncompleteKey r.keys ∨ key = encodeCompleteKey r.keys)}

/-- An index that holds a set of readings : each record lists those under its key, and the leads
of every key are keys. -/
structure Indexes (index : UserIndex) (present : Set Reading) : Prop where
  stores : index.Stores (under present)
  leadClosed : index.table.LeadClosed 2

variable {present : Set Reading}

theorem addressed_under (present : Set Reading) : Addressed (under present) := by
  rintro key r ⟨_, rfl | rfl⟩
  · exact length_encodeIncompleteKey r.keys
  · exact length_encodeCompleteKey r.keys

/-- The two table keys of a reading are never those of the other kind. -/
theorem incomplete_ne_complete (r s : Reading) : encodeIncompleteKey r.keys ≠ encodeCompleteKey s.keys := by
  intro h
  obtain ⟨key, hkey, hrhyme⟩ := s.complete
  exact hrhyme (initialOnly_of_encode_eq r.fits s.fits h key hkey)

theorem mem_under_incomplete (r : Reading) : r ∈ under present (encodeIncompleteKey r.keys) ↔ r ∈ present :=
  ⟨And.left, fun h => ⟨h, inl rfl⟩⟩

theorem mem_under_complete (r : Reading) : r ∈ under present (encodeCompleteKey r.keys) ↔ r ∈ present :=
  ⟨And.left, fun h => ⟨h, inr rfl⟩⟩

theorem addressed_update (h : Addressed held) {now : Set Reading} (hnow : ∀ s ∈ now, key.length = 2 * s.keys.length) :
    Addressed (update held key now) := by
  intro other s hs
  rw [update_apply] at hs
  split at hs
  · rename_i hother
    rw [hother]
    exact hnow s hs
  · exact h other s hs

/-- A set with a reading more, one table key after the other. -/
theorem under_insert (present : Set Reading) (r : Reading) :
    update (update (under present) (encodeIncompleteKey r.keys)
        (insert r (under present (encodeIncompleteKey r.keys))))
      (encodeCompleteKey r.keys) (insert r (under present (encodeCompleteKey r.keys))) =
      under (insert r present) := by
  ext key s
  rw [update_apply, update_apply]
  by_cases hcomplete : key = encodeCompleteKey r.keys
  · subst hcomplete
    rw [if_pos rfl, under, under, Set.mem_insert_iff, Set.mem_ofPred_eq, Set.mem_ofPred_eq, Set.mem_insert_iff]
    refine ⟨?_, by tauto⟩
    rintro (rfl | hs)
    · exact ⟨inl rfl, inr rfl⟩
    · exact ⟨inr hs.1, hs.2⟩
  rw [if_neg hcomplete]
  by_cases hincomplete : key = encodeIncompleteKey r.keys
  · subst hincomplete
    rw [if_pos rfl, under, under, Set.mem_insert_iff, Set.mem_ofPred_eq, Set.mem_ofPred_eq, Set.mem_insert_iff]
    refine ⟨?_, by tauto⟩
    rintro (rfl | hs)
    · exact ⟨inl rfl, inl rfl⟩
    · exact ⟨inr hs.1, hs.2⟩
  rw [if_neg hincomplete, under, under, Set.mem_ofPred_eq, Set.mem_ofPred_eq, Set.mem_insert_iff]
  refine ⟨fun hs => ⟨inr hs.1, hs.2⟩, ?_⟩
  rintro ⟨rfl | hs, hkey⟩
  · exact absurd hkey (not_or.mpr ⟨hincomplete, hcomplete⟩)
  · exact ⟨hs, hkey⟩

/-- A set with a reading less, one table key after the other. -/
theorem under_erase (present : Set Reading) (r : Reading) :
    update (update (under present) (encodeIncompleteKey r.keys)
        (under present (encodeIncompleteKey r.keys) \ {r}))
      (encodeCompleteKey r.keys) (under present (encodeCompleteKey r.keys) \ {r}) =
      under (present \ {r}) := by
  have hmem : ∀ key s, s ∈ under (present \ {r}) key ↔ s ∈ under present key ∧ s ≠ r := by
    intro key s
    rw [under, under, Set.mem_ofPred_eq, Set.mem_ofPred_eq, Set.mem_sdiff, Set.mem_singleton_iff]
    tauto
  ext key s
  rw [update_apply, update_apply, hmem]
  by_cases hcomplete : key = encodeCompleteKey r.keys
  · rw [if_pos hcomplete, hcomplete, Set.mem_sdiff, Set.mem_singleton_iff]
  rw [if_neg hcomplete]
  by_cases hincomplete : key = encodeIncompleteKey r.keys
  · rw [if_pos hincomplete, hincomplete, Set.mem_sdiff, Set.mem_singleton_iff]
  rw [if_neg hincomplete]
  refine ⟨fun hs => ⟨hs, ?_⟩, And.left⟩
  rintro rfl
  exact absurd hs.2 (not_or.mpr ⟨hincomplete, hcomplete⟩)

theorem inBounds (r : Reading) : ¬(r.keys.length = 0 ∨ maxPhraseLength < r.keys.length) :=
  not_or.mpr ⟨r.nonempty, Nat.not_lt.mpr r.short⟩

/-- A reading added to the set an index holds. -/
theorem Indexes.add (h : index.Indexes present) (r : Reading) :
    (index.add r.keys r.token).1.Indexes (insert r present) ∧
      ((index.add r.keys r.token).2 = true ↔ r ∉ present) := by
  have hincomplete := length_encodeIncompleteKey r.keys
  have hcomplete := length_encodeCompleteKey r.keys
  have haddressed := addressed_under present
  obtain ⟨hfirst, hnew⟩ := h.stores.addProjection haddressed hincomplete
  have haddressed' : Addressed (update (under present) (encodeIncompleteKey r.keys)
      (insert r (under present (encodeIncompleteKey r.keys)))) :=
    addressed_update haddressed (Set.forall_mem_insert.mpr ⟨hincomplete, haddressed _⟩)
  obtain ⟨hsecond, hnew'⟩ := hfirst.addProjection haddressed' hcomplete
  rw [update_of_ne (incomplete_ne_complete r r).symm] at hsecond hnew'
  rw [under_insert] at hsecond
  rw [mem_under_incomplete] at hnew
  rw [mem_under_complete] at hnew'
  have hclosed := leadClosed_addProjection (leadClosed_addProjection h.leadClosed hincomplete) hcomplete
  rw [UserIndex.add, if_neg (inBounds r)]
  refine ⟨⟨hsecond, hclosed⟩, ?_⟩
  rw [Bool.or_eq_true, hnew, hnew', or_self_iff]

/-- A reading removed from the set an index holds. -/
theorem Indexes.remove (h : index.Indexes present) (r : Reading) :
    (index.remove r.keys r.token).1.Indexes (present \ {r}) ∧
      ((index.remove r.keys r.token).2 = true ↔ r ∈ present) := by
  have hincomplete := length_encodeIncompleteKey r.keys
  have hcomplete := length_encodeCompleteKey r.keys
  have haddressed := addressed_under present
  obtain ⟨hfirst, hheld⟩ := h.stores.removeProjection haddressed hincomplete
  have haddressed' : Addressed (update (under present) (encodeIncompleteKey r.keys)
      (under present (encodeIncompleteKey r.keys) \ {r})) :=
    addressed_update haddressed fun s hs => haddressed _ s hs.1
  obtain ⟨hsecond, hheld'⟩ := hfirst.removeProjection haddressed' hcomplete
  rw [update_of_ne (incomplete_ne_complete r r).symm] at hsecond hheld'
  rw [under_erase] at hsecond
  rw [mem_under_incomplete] at hheld
  rw [mem_under_complete] at hheld'
  rw [UserIndex.remove, if_neg (inBounds r)]
  by_cases hr : r ∈ present
  · dsimp only
    rw [if_pos (hheld.mpr hr)]
    exact ⟨⟨hsecond, leadClosed_removeProjection (leadClosed_removeProjection h.leadClosed)⟩, hheld'⟩
  · -- the first projection misses, and nothing changes
    dsimp only
    rw [if_neg fun htrue => hr (hheld.mp htrue), Set.sdiff_singleton_eq_self hr]
    rw [Set.sdiff_singleton_eq_self fun hmem => hr hmem.1, update_eq_self] at hfirst
    exact ⟨⟨hfirst, leadClosed_removeProjection h.leadClosed⟩,
      fun hfalse => absurd hfalse Bool.false_ne_true, fun htrue => absurd htrue hr⟩

/-! ## Search -/

variable {query : List ChewingKey}

theorem recordMatchesWithTones_item {r : Reading} (hlen : r.keys.length = query.length) :
    recordMatchesWithTones query r.item = true ↔ Matching query r.keys := by
  rw [recordMatchesWithTones, ← hlen, item, recordKeys_encodeItem _ _ r.fits, List.all_eq_true, Matching,
    forall₂_iff_zip]
  refine ⟨fun h => ⟨hlen, fun {a b} hpair => h (a, b) hpair⟩, fun h pair hpair => ?_⟩
  obtain ⟨stored, queried⟩ := pair
  exact h.2 hpair

/-- A search lists the matching readings under its table key. -/
theorem Indexes.search (h : index.Indexes present) (hquery : ∀ key ∈ query, key.Fits) :
    ∃ found : List Reading, found.Pairwise (· < ·) ∧
      (∀ r, r ∈ found ↔ r ∈ present ∧ Matching query r.keys ∧
        ((∃ key ∈ query, key.InitialOnly) ∨ ∀ key ∈ r.keys, ¬key.InitialOnly)) ∧
      index.search query = found.map (·.token) := by
  rw [UserIndex.search]
  by_cases hbounds : query.length = 0 ∨ maxPhraseLength < query.length
  · rw [if_pos hbounds]
    refine ⟨[], List.Pairwise.nil, fun r => ⟨fun hr => absurd hr not_mem_nil, ?_⟩, rfl⟩
    rintro ⟨_, hmatching, _⟩
    rw [← Forall₂.length_eq hmatching] at hbounds
    exact absurd hbounds (inBounds r)
  rw [if_neg hbounds]
  obtain ⟨items, hsorted, hmem, hbytes⟩ := h.stores (queryKey query)
  have hlen : ∀ r ∈ items, r.keys.length = query.length := by
    intro r hr
    have haddress := addressed_under present _ r ((hmem r).mp hr)
    rw [queryKey, indexKey] at haddress
    split at haddress
    · rw [length_encodeIncompleteKey] at haddress
      omega
    · rw [length_encodeCompleteKey] at haddress
      omega
  refine ⟨items.filter fun r => recordMatchesWithTones query r.item, hsorted.filter _, fun r => ?_, ?_⟩
  · rw [mem_filter, hmem, under, Set.mem_ofPred_eq]
    constructor
    · rintro ⟨⟨hr, hkey⟩, hmatches⟩
      have hmatching := (recordMatchesWithTones_item (hlen r ((hmem r).mpr ⟨hr, hkey⟩))).mp hmatches
      exact ⟨hr, hmatching, (hmatching.indexKey_iff hquery r.fits r.complete).mp hkey⟩
    · rintro ⟨hr, hmatching, hrhyme⟩
      exact ⟨⟨hr, (hmatching.indexKey_iff hquery r.fits r.complete).mpr hrhyme⟩,
        (recordMatchesWithTones_item (Forall₂.length_eq hmatching)).mpr hmatching⟩
  · have hrows : ((chunks (item2Stride query.length) (items.flatMap item)).filter
        (recordMatchesWithTones query)).map recordToken =
        (items.filter fun r => recordMatchesWithTones query r.item).map (·.token) := by
      rw [Entry.chunks_items hlen, List.filter_map, List.map_map]
      refine map_congr_left fun r _ => ?_
      exact recordToken_encodeItem r.token r.keys
    cases hrecord : index.table.record (queryKey query) with
    | none =>
      rw [hrecord, getD_none] at hbytes
      rw [items_eq_nil hbytes.symm]
      rfl
    | some value =>
      rw [hrecord, getD_some] at hbytes
      subst hbytes
      dsimp only
      split
      · rename_i hempty
        rcases hempty with hempty | hstride
        · rw [List.isEmpty_iff] at hempty
          rw [items_eq_nil hempty]
          rfl
        · rw [Entry.length_items hlen, Nat.mul_mod_left] at hstride
          exact absurd rfl hstride
      · exact hrows

/-! ## Runs -/

/-- An add or a remove of a reading. -/
inductive ReadingOp where
  | add (r : Reading)
  | remove (r : Reading)

namespace ReadingOp

/-- The index after an operation. -/
def apply (index : UserIndex) : ReadingOp → UserIndex
  | add r => (index.add r.keys r.token).1
  | remove r => (index.remove r.keys r.token).1

/-- The set after an operation. -/
def change (present : Set Reading) : ReadingOp → Set Reading
  | add r => insert r present
  | remove r => present \ {r}

end ReadingOp

theorem Indexes.apply (h : index.Indexes present) : ∀ op : ReadingOp, (op.apply index).Indexes (op.change present)
  | .add r => (h.add r).1
  | .remove r => (h.remove r).1

theorem indexes_new : new.Indexes ∅ := by
  have hrecord : ∀ key, new.table.record key = none := fun _ => rfl
  refine ⟨fun key => ⟨[], List.Pairwise.nil, fun r => ?_, by rw [hrecord]; rfl⟩, fun key hkey => ?_⟩
  · exact ⟨fun hr => absurd hr not_mem_nil, fun hr => absurd hr.1 (Set.notMem_empty r)⟩
  · rw [containsKey_eq, hrecord] at hkey
    cases hkey

theorem Indexes.run : ∀ {ops : List ReadingOp} {index : UserIndex} {present : Set Reading}, index.Indexes present →
    (ops.foldl ReadingOp.apply index).Indexes (ops.foldl ReadingOp.change present)
  | [], _, _, h => h
  | op :: ops, _, _, h => @Indexes.run ops _ _ (h.apply op)

/-- After any adds and removes on the empty index it holds the set of the readings added and not
removed since : its records, in order, the two projections, the leads of its keys, what an add
and a remove answer, and what a search lists. -/
theorem run_readings (ops : List ReadingOp) :
    let index := ops.foldl ReadingOp.apply new
    let present := ops.foldl ReadingOp.change ∅
    (∀ key bytes, index.table.record key = some bytes →
      ∃ items : List Reading, items.Pairwise (· < ·) ∧ bytes = items.flatMap Reading.item ∧
        ∀ r, r ∈ items ↔ r ∈ present ∧ (key = encodeIncompleteKey r.keys ∨ key = encodeCompleteKey r.keys)) ∧
    (∀ r ∈ present, index.table.containsKey (encodeIncompleteKey r.keys) = true ∧
      index.table.containsKey (encodeCompleteKey r.keys) = true) ∧
    (∀ key, index.table.containsKey key = true → ∀ n, 0 < n → 2 * n < key.length →
      index.table.containsKey (key.take (2 * n)) = true) ∧
    (∀ r : Reading, ((index.add r.keys r.token).2 = true ↔ r ∉ present) ∧
      ((index.remove r.keys r.token).2 = true ↔ r ∈ present)) ∧
    ∀ query : List ChewingKey, (∀ key ∈ query, key.Fits) →
      ∃ found : List Reading, found.Pairwise (· < ·) ∧
        (∀ r, r ∈ found ↔ r ∈ present ∧ Matching query r.keys ∧
          ((∃ key ∈ query, key.InitialOnly) ∨ ∀ key ∈ r.keys, ¬key.InitialOnly)) ∧
        index.search query = found.map (·.token) := by
  intro index present
  have hindexes : index.Indexes present := indexes_new.run
  refine ⟨fun key bytes hrecord => ?_, fun r hr => ⟨?_, ?_⟩, hindexes.leadClosed,
    fun r => ⟨(hindexes.add r).2, (hindexes.remove r).2⟩, fun query hquery => hindexes.search hquery⟩
  · obtain ⟨items, hsorted, hmem, hbytes⟩ := hindexes.stores key
    rw [hrecord, getD_some] at hbytes
    exact ⟨items, hsorted, hbytes, hmem⟩
  · exact hindexes.stores.contains ((mem_under_incomplete r).mpr hr)
  · exact hindexes.stores.contains ((mem_under_complete r).mpr hr)

/-- The reading ni hao of one token. -/
def niHao : Reading := ⟨[⟨11, 1, 0, 0⟩, ⟨6, 0, 5, 0⟩], 7, by decide, by decide, by decide, by decide⟩

theorem run_readings_niHao : ((ReadingOp.apply new (.add niHao)).remove niHao.keys niHao.token).2 = true :=
  ((run_readings [.add niHao]).2.2.2.1 niHao).2.mpr (Set.mem_insert niHao ∅)

/-- A reading ni h is not found by the query ni hao, which it matches. A key outside its
widths is added twice. -/
theorem not_run_readings :
    (([⟨11, 1, 0, 0⟩, ⟨6, 0, 5, 0⟩] : List ChewingKey).zip [⟨11, 1, 0, 0⟩, ⟨6, 0, 0, 0⟩]).all
        (fun pair => keyMatchesWithTones pair.1 pair.2) = true ∧
      (new.add [⟨11, 1, 0, 0⟩, ⟨6, 0, 0, 0⟩] 7).2 = true ∧
      (new.add [⟨11, 1, 0, 0⟩, ⟨6, 0, 0, 0⟩] 7).1.search [⟨11, 1, 0, 0⟩, ⟨6, 0, 5, 0⟩] = [] ∧
      (new.add [⟨33, 1, 0, 0⟩] 7).2 = true ∧
      ((new.add [⟨33, 1, 0, 0⟩] 7).1.add [⟨33, 1, 0, 0⟩] 7).2 = true := by
  decide +kernel

end UserIndex

end Oxpinyin
