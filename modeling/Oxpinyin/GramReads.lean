import Mathlib.Data.List.TakeWhile
import Mathlib.Data.Option.NAry
import Oxpinyin.MergedGram

/-!
# Reads and merges of gram rows

The checked reads of `single_gram.rs` walk as the unchecked ones do, and fail where the walk meets
a record that is not whole. `checked_reads` : on any bytes, sorted or not, they answer alike
wherever they answer, and fail exactly where the walk would leave the whole records. On rows that
are whole and strictly ordered the merge is that of two maps (`merge_ordered`).
-/

namespace Oxpinyin

open Option List LittleEndian Search FiniteMap

namespace SingleGram

/-! ## The walks over any row -/

section Walk

variable {total : BitVec 32} {items front back : List (BitVec 32 × BitVec 32)} {tail : Bytes}

/-- Every whole record from the lower bound of a token on is below a bound : a walk that stops at
the first that is not comes to the end of the row. -/
def Passes (gram : Bytes) (start bound : BitVec 32) : Prop :=
  ∀ index item, lowerBound gram start ≤ index → itemToken gram index = some item → item < bound

theorem hasPartialTail_gramBytes (htail : tail.length < 8) :
    hasPartialTail (gramBytes total items tail) = true ↔ tail ≠ [] := by
  rw [hasPartialTail, length_gramBytes, totalLen, itemLen, Bool.and_eq_true, decide_eq_true_iff, bne_iff_ne,
    ← length_pos_iff]
  omega

theorem passes_gramBytes (htail : tail.length < 8) (start bound : BitVec 32) :
    Passes (gramBytes total items tail) start bound ↔
      ∀ e ∈ items.drop (lowerBound (gramBytes total items tail) start), e.1 < bound := by
  unfold Passes
  generalize lowerBound (gramBytes total items tail) start = lower
  constructor
  · intro h e he
    obtain ⟨i, hi⟩ := mem_iff_getElem?.mp he
    rw [getElem?_drop] at hi
    refine h (lower + i) e.1 (Nat.le_add_right _ _) ?_
    rw [(item_gramBytes htail _).1, hi, map_some]
  · intro h index token hlower htoken
    rw [(item_gramBytes htail _).1] at htoken
    obtain ⟨e, he, rfl⟩ := map_eq_some_iff.mp htoken
    refine h e (mem_iff_getElem?.mpr ⟨index - lower, ?_⟩)
    rw [getElem?_drop, Nat.add_sub_cancel' hlower, he]

/-- The indices of a walk are those of the records it leaves to be seen. -/
theorem walkIndices_gramBytes (htail : tail.length < 8) (token : BitVec 32) :
    ∃ front back, items = front ++ back ∧ back = items.drop (lowerBound (gramBytes total items tail) token) ∧
      walkIndices (gramBytes total items tail) token = List.range' front.length back.length := by
  refine ⟨items.take (lowerBound (gramBytes total items tail) token), _, (take_append_drop _ _).symm, rfl, ?_⟩
  rw [walkIndices, getLength_gramBytes htail, length_take, length_drop]
  rcases Nat.le_total (lowerBound (gramBytes total items tail) token) items.length with hle | hge
  · rw [Nat.min_eq_left hle]
  · rw [Nat.sub_eq_zero_of_le hge]
    rfl

/-- The checked lookup over the records left : it stops at the first that is not below the token. -/
theorem checkedGetFreqWalk_gramBytes (htail : tail.length < 8) (token : BitVec 32) :
    ∀ (back front : List (BitVec 32 × BitVec 32)), items = front ++ back →
      (checkedGetFreqWalk (gramBytes total items tail) token (List.range' front.length back.length) =
          .ok ((findWalk (gramBytes total items tail) token (List.range' front.length back.length)).bind
            (itemFreq (gramBytes total items tail))) ∧ ¬ (tail ≠ [] ∧ ∀ e ∈ back, e.1 < token)) ∨
      (checkedGetFreqWalk (gramBytes total items tail) token (List.range' front.length back.length) =
          .error .overRead ∧ tail ≠ [] ∧ ∀ e ∈ back, e.1 < token) := by
  intro back
  induction back with
  | nil =>
    intro front hitems
    rw [length_nil, range'_zero, checkedGetFreqWalk, findWalk]
    split_ifs with hpartial
    · exact .inr ⟨rfl, (hasPartialTail_gramBytes htail).mp hpartial, fun e he => absurd he not_mem_nil⟩
    · exact .inl ⟨rfl, fun h => hpartial ((hasPartialTail_gramBytes htail).mpr h.1)⟩
  | cons e rest ih =>
    intro front hitems
    have hget : items[front.length]? = some e := by
      rw [hitems, getElem?_append_right (Nat.le_refl _), Nat.sub_self]
      rfl
    have hrest := ih (front ++ [e]) (by rw [hitems, append_assoc]; rfl)
    rw [length_append, length_singleton] at hrest
    rw [length_cons, range'_succ, checkedGetFreqWalk, findWalk, (item_gramBytes htail _).1,
      (item_gramBytes htail _).2, hget]
    dsimp only [map_some]
    split_ifs with habove hequal
    · refine .inl ⟨rfl, fun h => lt_asymm habove (h.2 e mem_cons_self)⟩
    · refine .inl ⟨?_, fun h => ?_⟩
      · rw [bind_some, (item_gramBytes htail _).2, hget, map_some]
      · have hlt := h.2 e mem_cons_self
        rw [hequal] at hlt
        exact BitVec.lt_irrefl _ hlt
    · have hbelow : e.1 < token := by
        rcases lt_or_eq_or_gt e.1 token with h | h | h
        · exact h
        · exact absurd h hequal
        · exact absurd h habove
      rcases hrest with ⟨hok, hnot⟩ | ⟨herror, htail, hall⟩
      · refine .inl ⟨hok, fun h => hnot ⟨h.1, fun e' he' => h.2 e' (mem_cons_of_mem _ he')⟩⟩
      · refine .inr ⟨herror, htail, fun e' he' => ?_⟩
        rcases mem_cons.mp he' with rfl | he'
        · exact hbelow
        · exact hall e' he'

/-- The walk of a search meets a record at or past the end unless all are below it. -/
theorem searchWalk_flag (stop : BitVec 32) : ∀ rest out : List (BitVec 32 × BitVec 32),
    (searchWalk stop (rest.map encodeItem) out).2 = true ↔ ¬ ∀ e ∈ rest, e.1 < stop := by
  intro rest
  induction rest with
  | nil =>
    intro out
    simp [searchWalk]
  | cons e rest ih =>
    intro out
    rw [map_cons, searchWalk, recordToken_encodeItem, forall_mem_cons]
    split_ifs with hstop
    · have hnot : ¬ e.1 < stop := BitVec.not_lt.mpr hstop
      simp [hnot]
    · rw [ih, and_iff_right (BitVec.not_le.mp hstop)]

theorem search_any (htail : tail.length < 8) (start stop : BitVec 32) :
    search (gramBytes total items tail) start stop =
      (items.drop (lowerBound (gramBytes total items tail) start)).takeWhile fun e => decide (e.1 < stop) := by
  obtain ⟨front, back, hitems, hback, hwalk⟩ := @walkIndices_gramBytes total items tail htail start
  rw [search, hwalk, items_from total items tail htail front hitems, hback]

theorem checkedSearch_any (htail : tail.length < 8) (start stop : BitVec 32) (out : List (BitVec 32 × BitVec 32)) :
    (checkedSearch (gramBytes total items tail) start stop out).1 =
        out ++ search (gramBytes total items tail) start stop ∧
      ∀ fault, (checkedSearch (gramBytes total items tail) start stop out).2 = .error fault ↔
        fault = .overRead ∧ tail ≠ [] ∧ Passes (gramBytes total items tail) start stop := by
  have hlower : lowerBoundRecords (items.map encodeItem) start = lowerBound (gramBytes total items tail) start := by
    rw [lowerBound, records_gramBytes htail]
  rw [search_any htail, passes_gramBytes htail, checkedSearch, records_gramBytes htail]
  dsimp only
  rw [hlower, ← map_drop]
  have hpushed := searchWalk_encodeItem stop (items.drop (lowerBound (gramBytes total items tail) start)) out
  have hflag := searchWalk_flag stop (items.drop (lowerBound (gramBytes total items tail) start)) out
  split_ifs with hmet hpartial
  · refine ⟨hpushed, fun fault => ⟨fun h => ?_, fun h => absurd h.2.2 (hflag.mp hmet)⟩⟩
    cases h
  · have hall := not_not.mp (mt hflag.mpr hmet)
    exact ⟨hpushed, fun fault => ⟨fun h => ⟨(Except.error.inj h).symm, hpartial, hall⟩, fun h => by rw [h.1]⟩⟩
  · exact ⟨hpushed, fun fault => ⟨fun h => (by cases h), fun h => absurd h.2.1 hpartial⟩⟩

end Walk

/-- On any bytes the checked reads answer as the unchecked ones where they answer, and fail exactly
where the row has no whole total or the walk comes to a record that is not whole. What a search has
pushed when it fails is every whole record from the lower bound on. -/
theorem checked_reads (gram : Bytes) :
    (∀ token answer, checkedGetFreq gram token = .ok answer → answer = getFreq gram token) ∧
    (∀ token fault, checkedGetFreq gram token = .error fault ↔ fault = .overRead ∧
      (gram.length < totalLen ∨ hasPartialTail gram = true ∧ Passes gram token token)) ∧
    ∀ start stop out,
      (checkedSearch gram start stop out).1 = out ++ search gram start stop ∧
      (∀ fault, (checkedSearch gram start stop out).2 = .error fault ↔
        fault = .short ∧ gram.length < totalLen ∨
          fault = .overRead ∧ hasPartialTail gram = true ∧ Passes gram start stop) ∧
      (∀ fault, (checkedSearch gram start stop out).2 = .error fault →
        search gram start stop = (retrieveAll gram).drop (lowerBound gram start)) := by
  by_cases hshort : gram.length < totalLen
  · have hrecords : records gram = none := if_neg (Nat.not_le.mpr hshort)
    have hlength : getLength gram = 0 := by
      rw [getLength, Nat.sub_eq_zero_of_le (Nat.le_of_lt hshort), Nat.zero_div]
    have hwhole : hasPartialTail gram = false := by
      rw [hasPartialTail, decide_eq_false (Nat.not_le.mpr hshort), Bool.false_and]
    have hsearch : ∀ start stop, search gram start stop = [] := by
      intro start stop
      rw [search, walkIndices, hlength, Nat.zero_sub, range'_zero]
      rfl
    have hall : retrieveAll gram = [] := by
      rw [retrieveAll, hlength]
      rfl
    refine ⟨fun token answer h => ?_, fun token fault => ?_, fun start stop out => ?_⟩
    · rw [checkedGetFreq, if_pos hshort] at h
      cases h
    · rw [checkedGetFreq, if_pos hshort, hwhole]
      simp [hshort, eq_comm]
    · rw [checkedSearch, hrecords, hsearch, hwhole, hall]
      simp [hshort, eq_comm]
  · obtain ⟨total, items, tail, htail, rfl⟩ := exists_gramBytes (Nat.not_lt.mp hshort)
    have hlookup : ∀ token,
        (checkedGetFreq (gramBytes total items tail) token = .ok (getFreq (gramBytes total items tail) token) ∧
          ¬ (tail ≠ [] ∧ Passes (gramBytes total items tail) token token)) ∨
        (checkedGetFreq (gramBytes total items tail) token = .error .overRead ∧ tail ≠ [] ∧
          Passes (gramBytes total items tail) token token) := by
      intro token
      obtain ⟨front, back, hitems, hback, hwalk⟩ := @walkIndices_gramBytes total items tail htail token
      rw [passes_gramBytes htail, checkedGetFreq, if_neg hshort, getFreq, find, hwalk, ← hback]
      exact checkedGetFreqWalk_gramBytes htail token back front hitems
    refine ⟨fun token answer h => ?_, fun token fault => ?_, fun start stop out => ?_⟩
    · rcases hlookup token with ⟨hok, -⟩ | ⟨herror, -⟩
      · rw [hok] at h
        exact (Except.ok.inj h).symm
      · rw [herror] at h
        cases h
    · rw [hasPartialTail_gramBytes htail, or_iff_right hshort]
      rcases hlookup token with ⟨hok, hnot⟩ | ⟨herror, hfails⟩
      · rw [hok]
        exact ⟨fun h => (by cases h), fun h => absurd h.2 hnot⟩
      · rw [herror]
        exact ⟨fun h => ⟨(Except.error.inj h).symm, hfails⟩, fun h => by rw [h.1]⟩
    · obtain ⟨hpushed, hfault⟩ := @checkedSearch_any total items tail htail start stop out
      refine ⟨hpushed, fun fault => ?_, fun fault h => ?_⟩
      · rw [hfault, hasPartialTail_gramBytes htail]
        refine ⟨.inr, fun h => h.resolve_left fun h => hshort h.2⟩
      · rw [search_any htail, retrieveAll_gramBytes htail, takeWhile_eq_self_iff]
        intro e he
        exact decide_eq_true ((passes_gramBytes htail start stop).mp ((hfault fault).mp h).2.2 e he)

/-! ## The merge of ordered rows -/

/-- A row with a whole total and whole records only. -/
def Whole (gram : Bytes) : Prop := totalLen ≤ gram.length ∧ hasPartialTail gram = false

theorem Whole.exists_items {gram : Bytes} (h : Whole gram) : ∃ total items, gram = gramBytes total items [] := by
  refine MergedGram.whole_of_readable ?_ h.2
  rw [getTotalFreq, if_pos h.1]
  rfl

theorem whole_gramBytes (total : BitVec 32) (items : List (BitVec 32 × BitVec 32)) :
    Whole (gramBytes total items []) := by
  refine ⟨?_, ?_⟩
  · rw [length_gramBytes, totalLen]
    omega
  · rw [← Bool.not_eq_true, hasPartialTail_gramBytes (by simp), not_not]

/-- A merge does not ask which map came first. -/
theorem mergeWith_comm {xs ys : List (BitVec 32 × BitVec 32)} {m n : BitVec 32 → Option (BitVec 32)}
    (hxs : Lists xs m)
    (hys : Lists ys n) : mergeWith (· + ·) xs ys = mergeWith (· + ·) ys xs := by
  have hmerge := hys.mergeWith (· + ·) hxs
  have hmap : (fun k => merge (· + ·) (n k) (m k)) = fun k => merge (· + ·) (m k) (n k) := by
    ext1 k
    cases m k with
    | none =>
      cases n k with
      | none => rfl
      | some b => rfl
    | some a =>
      cases n k with
      | none => rfl
      | some b => exact congrArg some (BitVec.add_comm b a)
  rw [hmap] at hmerge
  exact (hxs.mergeWith (· + ·) hys).unique hmerge

/-- The merge of two whole and strictly ordered rows is one, of the sum of their maps, whichever is
the system's, and is read as the two side by side. -/
theorem merge_ordered {a b : Bytes} (ha : Whole a) (hb : Whole b) (hordered : isStrictlyOrdered a = true)
    (hordered' : isStrictlyOrdered b = true) (out : Bytes) :
    let merged := (mergeSingleGram out (some a) (some b)).1
    Whole merged ∧ isStrictlyOrdered merged = true ∧
      (∀ token, token ∈ (retrieveAll merged).map Prod.fst ↔
        token ∈ (retrieveAll a).map Prod.fst ∨ token ∈ (retrieveAll b).map Prod.fst) ∧
      (∀ token, (getFreq merged token).getD 0 = (getFreq a token).getD 0 + (getFreq b token).getD 0) ∧
      getTotalFreq merged = Option.map₂ (· + ·) (getTotalFreq a) (getTotalFreq b) ∧
      (mergeSingleGram out (some b) (some a)).1 = merged ∧
      (∀ token, getFreq merged token = getFreqMerged a b token) ∧
      ∀ start stop found, found ++ search merged start stop = searchMerged a b start stop found ∧
        checkedSearch merged start stop found = (searchMerged a b start stop found, .ok ()) := by
  intro merged
  obtain ⟨total, xs, rfl⟩ := ha.exists_items
  obtain ⟨total', ys, rfl⟩ := hb.exists_items
  have htail : ([] : Bytes).length < 8 := by simp
  have hxs := (isStrictlyOrdered_gramBytes htail).mp hordered
  have hys := (isStrictlyOrdered_gramBytes htail).mp hordered'
  obtain ⟨m, hm⟩ := exists_lists hxs
  obtain ⟨n, hn⟩ := exists_lists hys
  have hlists := hm.mergeWith (· + ·) hn
  have hmerged : merged = gramBytes (total + total') (mergeWith (· + ·) xs ys) [] :=
    MergedGram.mergedChunk_gramBytes htail htail
  have hother : (mergeSingleGram out (some (gramBytes total' ys [])) (some (gramBytes total xs []))).1 =
      gramBytes (total' + total) (mergeWith (· + ·) ys xs) [] := MergedGram.mergedChunk_gramBytes htail htail
  have hfreq : ∀ token, getFreq merged token = Option.merge (· + ·) (m token) (n token) := by
    intro token
    rw [hmerged, getFreq_gramBytes hlists]
  refine ⟨?_, ?_, fun token => ?_, fun token => ?_, ?_, ?_, fun token => ?_, fun start stop found => ?_⟩
  · rw [hmerged]
    exact whole_gramBytes _ _
  · rw [hmerged, isStrictlyOrdered_gramBytes htail]
    exact hlists.ascending
  · rw [hmerged, retrieveAll_gramBytes htail, retrieveAll_gramBytes htail, retrieveAll_gramBytes htail,
      hlists.mem_keys, hm.mem_keys, hn.mem_keys, Option.isSome_merge, Bool.or_eq_true]
  · rw [hfreq, getFreq_gramBytes hm, getFreq_gramBytes hn]
    cases m token with
    | none =>
      cases n token with
      | none => rfl
      | some b => exact (BitVec.zero_add b).symm
    | some a =>
      cases n token with
      | none => exact (BitVec.add_zero a).symm
      | some b => rfl
  · rw [hmerged, getTotalFreq_gramBytes, getTotalFreq_gramBytes, getTotalFreq_gramBytes]
    rfl
  · rw [hother, hmerged, mergeWith_comm hm hn, BitVec.add_comm]
  · rw [hfreq, MergedGram.getFreqMerged_eq, getFreq_gramBytes hm, getFreq_gramBytes hn]
  · have hside : searchMerged (gramBytes total xs []) (gramBytes total' ys []) start stop found =
        found ++ ((mergeWith (· + ·) xs ys).filter fun e => decide (start ≤ e.1)).takeWhile
          fun e => decide (e.1 < stop) := by
      rw [searchMerged, searchMergedLoop_eq, searchSide_gramBytes hxs, searchSide_gramBytes hys,
        hm.mergeWith_filter (· + ·) hn fun k => decide (start ≤ k)]
    have hchecked := @checkedSearch_gramBytes (total + total') _ hlists.ascending start stop found
    rw [hside, hmerged, hchecked]
    refine ⟨?_, rfl⟩
    rw [← (@checkedSearch_any (total + total') (mergeWith (· + ·) xs ys) [] htail start stop found).1, hchecked]

/-- Two rows that share a token whose sum wraps. -/
theorem merge_ordered_wrapping :
    let a := gramBytes 5 [(1, 2), (3, 0xffffffff)] []
    let b := gramBytes 7 [(2, 1), (3, 6)] []
    (mergeSingleGram [] (some b) (some a)).1 = (mergeSingleGram [] (some a) (some b)).1 ∧
      (getFreq (mergeSingleGram [] (some a) (some b)).1 3).getD 0 = 5 := by
  intro a b
  have hmerge := merge_ordered (whole_gramBytes 5 [(1, 2), (3, 0xffffffff)]) (whole_gramBytes 7 [(2, 1), (3, 6)])
    (by decide +kernel) (by decide +kernel) []
  refine ⟨hmerge.2.2.2.2.2.1, ?_⟩
  rw [hmerge.2.2.2.1 3]
  decide +kernel

end SingleGram

end Oxpinyin
