import Oxpinyin.SingleGram
import Oxpinyin.Lib.FiniteMap
import Mathlib.Data.BitVec
import Mathlib.Data.FinEnum

/-!
# A gram row as a finite map

`TokenMap` says what a row is for : a frequency for some tokens, and a total. Started from a
fresh row, every sequence of edits leaves whole records, strictly ascending by token, and the
reads are those of the map the same edits build (`run_answers`).
-/

namespace Oxpinyin

open List Option LittleEndian Search FiniteMap Prod

namespace SingleGram

/-! ## Edits around a token -/

section Around

variable {total : BitVec 32} {token : BitVec 32} {front back : List (BitVec 32 × BitVec 32)} {tail : Bytes}

/-- The records around a token's place, with its own record if there is one. -/
def around (front : List (BitVec 32 × BitVec 32)) (token : BitVec 32) (mid : Option (BitVec 32))
    (back : List (BitVec 32 × BitVec 32)) : List (BitVec 32 × BitVec 32) :=
  front ++ (mid.map (Prod.mk token)).toList ++ back

/-- The walk from the lower bound starts where the records below the token end. -/
theorem walkIndices_around (htail : tail.length < 8) (hfront : ∀ e ∈ front, e.1 < token)
    (hback : ∀ e ∈ back, token < e.1) (mid : Option (BitVec 32)) :
    walkIndices (gramBytes total (around front token mid back) tail) token =
      List.range' front.length (mid.toList.length + back.length) := by
  have hlower : lowerBound (gramBytes total (around front token mid back) tail) token =
      front.length := by
    rw [lowerBound_gramBytes htail, around, append_assoc]
    refine partitionPoint_append (fun e he => by simp [hfront e he]) fun e he => ?_
    rcases mem_append.mp he with he | he
    · obtain ⟨v, _, rfl⟩ : ∃ v, mid = some v ∧ (token, v) = e := by simpa using he
      simp
    · simpa using fun hlt => lt_asymm (hback e he) hlt
  have hlength : (around front token mid back).length =
      front.length + (mid.toList.length + back.length) := by
    rw [around, length_append, length_append, Nat.add_assoc]
    cases mid <;> rfl
  rw [walkIndices, hlower, getLength_gramBytes htail, hlength, Nat.add_sub_cancel_left]

theorem getElem?_around_some (v : BitVec 32) : (around front token (some v) back)[front.length]? =
    some (token, v) := by
  simp [around]

theorem getElem?_around_none {e : BitVec 32 × BitVec 32} {rest : List (BitVec 32 × BitVec 32)}
    (hback : back = e :: rest) : (around front token none back)[front.length]? = some e := by
  simp [around, hback]

section

variable (htail : tail.length < 8) (hfront : ∀ e ∈ front, e.1 < token) (hback : ∀ e ∈ back, token < e.1)
  (mid : Option (BitVec 32))
include htail hfront hback

theorem find_around :
    find (gramBytes total (around front token mid back) tail) token =
      mid.map fun _ => front.length := by
  rw [find, walkIndices_around htail hfront hback]
  cases mid with
  | some v =>
    rw [toList_some, length_singleton, Nat.add_comm, range'_succ, findWalk,
      (item_gramBytes htail _).1, getElem?_around_some]
    simp
  | none =>
    cases hcase : back with
    | nil => rfl
    | cons e rest =>
      have habove : token < e.1 := hback e (by simp [hcase])
      rw [toList_none, length_nil, Nat.zero_add, length_cons, range'_succ,
        findWalk, (item_gramBytes htail _).1, getElem?_around_none rfl]
      simp [habove]

theorem getFreq_around : getFreq (gramBytes total (around front token mid back) tail) token = mid := by
  rw [getFreq, find_around htail hfront hback]
  cases mid with
  | none => rfl
  | some v => simp [(item_gramBytes htail _).2, getElem?_around_some]

/-- A frequency set between its neighbours. -/
theorem setFreq_around (freq : BitVec 32) :
    setFreq (gramBytes total (around front token mid back) tail) token freq =
      (gramBytes total (around front token (mid.map fun _ => freq) back) tail, mid.isSome) := by
  rw [setFreq, find_around htail hfront hback]
  cases mid with
  | none => rfl
  | some v =>
    have hitems : ∀ w, around front token (some w) back = front ++ (token, w) :: back := by
      simp [around]
    have hoffset : itemOffset front.length + 4 =
        ((le32 total ++ front.flatMap encodeItem) ++ le32 token).length := by
      rw [length_append, itemOffset_eq total, length_le32]
    have hbytes : ∀ w, gramBytes total (front ++ (token, w) :: back) tail =
        ((le32 total ++ front.flatMap encodeItem) ++ le32 token) ++ le32 w ++
          (back.flatMap encodeItem ++ tail) := by
      intro w
      rw [gramBytes_middle, append_assoc (_ ++ le32 token)]
    have hin : itemOffset front.length + 4 + 4 ≤
        (gramBytes total (front ++ (token, v) :: back) tail).length := by
      rw [length_gramBytes, itemOffset, itemLen, totalLen, length_append, length_cons]
      omega
    simp only [map_some, isSome_some, hitems]
    rw [putWord, if_pos hin, hbytes, hbytes, hoffset, overwrite_append _ _ _ _ (by simp)]

end

/-- An insert between its neighbours. -/
theorem insertFreq_around (hfront : ∀ e ∈ front, e.1 < token) (hback : ∀ e ∈ back, token < e.1)
    (mid : Option (BitVec 32)) (freq : BitVec 32) :
    insertFreq (gramBytes total (around front token mid back) []) token freq =
      (gramBytes total (around front token (some (mid.getD freq)) back) [], mid.isNone) := by
  have htail : ([] : Bytes).length < 8 := by simp
  rw [insertFreq, walkIndices_around htail hfront hback]
  cases mid with
  | some v =>
    rw [toList_some, length_singleton, Nat.add_comm, range'_succ, insertWalk,
      (item_gramBytes htail _).1, getElem?_around_some]
    simp
  | none =>
    cases hcase : back with
    | nil => simp [insertWalk, around, gramBytes]
    | cons e rest =>
      have habove : token < e.1 := hback e (by simp [hcase])
      have hbytes : gramBytes total (around front token none (e :: rest)) [] =
          (le32 total ++ front.flatMap encodeItem) ++ (e :: rest).flatMap encodeItem := by
        simp [gramBytes, around]
      rw [toList_none, length_nil, Nat.zero_add, length_cons, range'_succ,
        insertWalk, (item_gramBytes htail _).1, getElem?_around_none rfl]
      simp only [map_some, habove, if_true, isNone_none, getD_none, mk.injEq, and_true]
      rw [hbytes, itemOffset_eq total, insertAt_append]
      simp [gramBytes, around]

theorem removeFreq_around (htail : tail.length < 8) (hfront : ∀ e ∈ front, e.1 < token)
    (hback : ∀ e ∈ back, token < e.1) (mid : Option (BitVec 32)) :
    removeFreq (gramBytes total (around front token mid back) tail) token =
      (gramBytes total (around front token none back) tail, mid) := by
  rw [removeFreq, find_around htail hfront hback]
  cases mid with
  | none => rfl
  | some v =>
    have hbytes : gramBytes total (around front token (some v) back) tail =
        (le32 total ++ front.flatMap encodeItem) ++ encodeItem (token, v) ++
          (back.flatMap encodeItem ++ tail) := by
      simp [gramBytes, around]
    have hfreq : itemFreq (gramBytes total (around front token (some v) back) tail) front.length =
        some v := by
      rw [(item_gramBytes htail _).2, getElem?_around_some]
      rfl
    simp only [map_some, hfreq]
    rw [hbytes, itemOffset_eq total, removeRange_append _ _ _ (by rw [length_encodeItem, itemLen])]
    simp [gramBytes, around]

end Around

/-! ## Masks -/

/-- What the loop does to the records from its index on. -/
theorem maskLoop_gramBytes (mask value stored : BitVec 32) :
    ∀ (rest passed : List (BitVec 32 × BitVec 32)) (fuel : Nat) (total removed : BitVec 32),
      rest.length ≤ fuel →
      maskLoop mask value fuel (gramBytes stored (passed ++ rest) []) total removed passed.length =
        (gramBytes stored (passed ++ rest.filter fun e => e.1 &&& mask != value) [],
          total - ((rest.filter fun e => e.1 &&& mask == value).map snd).sum,
          removed + BitVec.ofNat 32 (rest.filter fun e => e.1 &&& mask == value).length)
  | [], passed, fuel, total, removed, _ => by
    have hlength : getLength (gramBytes stored passed []) = passed.length := getLength_gramBytes (by simp)
    rw [append_nil]
    cases fuel with
    | zero => simp [maskLoop]
    | succ fuel =>
      rw [maskLoop, if_neg (by omega)]
      simp
  | e :: rest, passed, 0, total, removed, hfuel => by simp at hfuel
  | e :: rest, passed, fuel + 1, total, removed, hfuel => by
    have htail : ([] : Bytes).length < 8 := by simp
    have hlength : passed.length < getLength (gramBytes stored (passed ++ e :: rest) []) := by
      rw [getLength_gramBytes htail, length_append, length_cons]
      omega
    have hitem : (passed ++ e :: rest)[passed.length]? = some e := by simp
    have hfuel' : rest.length ≤ fuel := by simpa using hfuel
    rw [maskLoop, if_pos hlength, (item_gramBytes htail _).1, (item_gramBytes htail _).2, hitem]
    dsimp only [map_some]
    split_ifs with hkeep
    · have happend : passed ++ e :: rest = (passed ++ [e]) ++ rest := by simp
      have hnext : passed.length + 1 = (passed ++ [e]).length := by simp
      rw [happend, hnext, maskLoop_gramBytes mask value stored rest _ fuel _ _ hfuel']
      simp [hkeep]
    · rw [not_not] at hkeep
      have hbytes : gramBytes stored (passed ++ e :: rest) [] =
          (le32 stored ++ passed.flatMap encodeItem) ++ encodeItem e ++ rest.flatMap encodeItem := by
        simp [gramBytes]
      have hdrain : removeRange (gramBytes stored (passed ++ e :: rest) [])
          (itemOffset passed.length) (itemOffset passed.length + itemLen) =
          gramBytes stored (passed ++ rest) [] := by
        rw [hbytes, itemOffset_eq stored, removeRange_append _ _ _ (by rw [length_encodeItem, itemLen])]
        simp [gramBytes]
      rw [hdrain, maskLoop_gramBytes mask value stored rest passed fuel _ _ hfuel']
      have hcount : ∀ n : Nat, removed + 1#32 + BitVec.ofNat 32 n =
          removed + BitVec.ofNat 32 (n + 1) := by
        intro n
        rw [BitVec.add_assoc, BitVec.add_comm 1#32, BitVec.ofNat_add]
      simp [hkeep, hcount, sub_sub]

theorem maskOut_gramBytes (total : BitVec 32) (items : List (BitVec 32 × BitVec 32)) (mask value : BitVec 32) :
    (maskOut (gramBytes total items []) mask value).1 =
      gramBytes (total - ((items.filter fun e => e.1 &&& mask == value).map snd).sum)
        (items.filter fun e => e.1 &&& mask != value) [] := by
  have hloop := maskLoop_gramBytes mask value total items [] items.length total 0 (Nat.le_refl _)
  rw [nil_append, nil_append, length_nil] at hloop
  rw [maskOut, getTotalFreq_gramBytes]
  dsimp only
  rw [getLength_gramBytes (by simp), hloop, setTotalFreq_gramBytes]

/-- The removed records are counted in 32 bits. -/
theorem maskOut_count (total : BitVec 32) (items : List (BitVec 32 × BitVec 32)) (mask value : BitVec 32) :
    (maskOut (gramBytes total items []) mask value).2 =
      BitVec.ofNat 32 (items.filter fun e => e.1 &&& mask == value).length := by
  have hloop := maskLoop_gramBytes mask value total items [] items.length total 0 (Nat.le_refl _)
  rw [nil_append, nil_append, length_nil] at hloop
  rw [maskOut, getTotalFreq_gramBytes]
  dsimp only
  rw [getLength_gramBytes (by simp), hloop]
  exact BitVec.zero_add _

/-! ## Reads of a whole row -/

variable {items : List (BitVec 32 × BitVec 32)}

theorem takeWhile_isSome_map {α β : Type} (l : List α) (f : α → Option β) (g : α → β)
    (h : ∀ x ∈ l, f x = some (g x)) : ((l.map f).takeWhile Option.isSome).reduceOption = l.map g := by
  induction l with
  | nil => rfl
  | cons x rest ih =>
    have hrest := ih fun y hy => h y (mem_cons_of_mem _ hy)
    rw [map_cons, h x mem_cons_self, takeWhile_cons_of_pos rfl, map_cons, ← hrest]
    rfl

theorem items_from (total : BitVec 32) (items : List (BitVec 32 × BitVec 32)) (tail : Bytes)
    (htail : tail.length < 8) (front : List (BitVec 32 × BitVec 32)) {back} (hitems : items = front ++ back) :
    (((List.range' front.length back.length).map (item (gramBytes total items tail))).takeWhile
      Option.isSome).reduceOption = back := by
  have hget : ∀ i ∈ List.range' front.length back.length,
      item (gramBytes total items tail) i = some ((back[i - front.length]?).getD (0, 0)) := by
    intro i hi
    obtain ⟨hge, hlt⟩ := mem_range'_1.mp hi
    have hin : i - front.length < back.length := by omega
    rw [item, (item_gramBytes htail i).1, (item_gramBytes htail i).2, hitems,
      getElem?_append_right hge, getElem?_eq_getElem hin]
    rfl
  rw [takeWhile_isSome_map _ _ _ hget]
  refine ext_getElem (by simp) fun i _ hlt => ?_
  rw [getElem_map, getElem_range', Nat.one_mul, Nat.add_sub_cancel_left, getElem?_eq_getElem hlt, getD_some]

theorem retrieveAll_gramBytes {total : BitVec 32} {tail : Bytes}
    (htail : tail.length < 8) : retrieveAll (gramBytes total items tail) = items := by
  have hall := items_from total items tail htail [] (nil_append items).symm
  rw [length_nil, ← range_eq_range'] at hall
  rw [retrieveAll, getLength_gramBytes htail, hall]

/-- A bound cuts an ascending list in two. -/
theorem below_pairwise (hascending : items.Pairwise fun a b => a.1 < b.1) (bound : BitVec 32) :
    items.Pairwise fun a b => decide (b.1 < bound) = true → decide (a.1 < bound) = true := by
  refine hascending.imp fun {a b} hab hb => ?_
  rw [decide_eq_true_eq] at hb ⊢
  exact BitVec.lt_trans hab hb

/-- The records of a range are those the range selects. -/
theorem search_gramBytes {total : BitVec 32}
    (hascending : items.Pairwise fun a b => a.1 < b.1) (start stop : BitVec 32) :
    search (gramBytes total items []) start stop =
      items.filter fun e => decide (start ≤ e.1) && decide (e.1 < stop) := by
  have htail : ([] : Bytes).length < 8 := by simp
  obtain ⟨hpoint, hparts⟩ := partitionPoint_cut (below_pairwise hascending start)
  have hlength : getLength (gramBytes total items []) - lowerBound (gramBytes total items []) start =
      (items.filter fun e => !decide (e.1 < start)).length := by
    rw [getLength_gramBytes htail, lowerBound_gramBytes htail, hpoint]
    have hlen := congrArg List.length hparts
    rw [length_append] at hlen
    omega
  rw [search, walkIndices, hlength, lowerBound_gramBytes htail, hpoint,
    items_from total items [] htail _ hparts, takeWhile_eq_filter ((below_pairwise hascending stop).filter _),
    List.filter_filter]
  refine filter_congr fun e _ => ?_
  have hnot : (!decide (e.1 < start)) = decide (start ≤ e.1) := by
    rw [Bool.eq_iff_iff]
    simp
  rw [Bool.and_comm, hnot]

/-! ## The map a row is for -/

/-- The edits of a row. -/
inductive GramOp where
  | insert (token freq : BitVec 32)
  | set (token freq : BitVec 32)
  | remove (token : BitVec 32)
  | maskOut (mask value : BitVec 32)
  | setTotal (total : BitVec 32)

/-- One edit of the row. -/
def GramOp.step (gram : Bytes) : GramOp → Bytes
  | .insert token freq => (insertFreq gram token freq).1
  | .set token freq => (setFreq gram token freq).1
  | .remove token => (removeFreq gram token).1
  | .maskOut mask value => (SingleGram.maskOut gram mask value).1
  | .setTotal total => setTotalFreq gram total

/-- A frequency for some tokens, and a total kept beside them. -/
structure TokenMap where
  freq : BitVec 32 → Option (BitVec 32)
  total : BitVec 32

/-- The map of a fresh row. -/
def TokenMap.empty : TokenMap := ⟨fun _ => none, 0⟩

/-- One edit of the map. Only a mask moves the total by itself, down by what it removes. -/
def TokenMap.apply (m : TokenMap) : GramOp → TokenMap
  | .insert token freq =>
    { m with freq := Function.update m.freq token (some ((m.freq token).getD freq)) }
  | .set token freq =>
    { m with freq := Function.update m.freq token ((m.freq token).map fun _ => freq) }
  | .remove token => { m with freq := Function.update m.freq token none }
  | .maskOut mask value =>
    { freq := fun k => if k &&& mask = value then none else m.freq k
      total := m.total - ∑ k, if k &&& mask = value then (m.freq k).getD 0 else 0 }
  | .setTotal total => { m with total := total }

/-- The row holds the map : its records list the frequencies and nothing is behind them. -/
def Holds (gram : Bytes) (m : TokenMap) : Prop :=
  ∃ items, gram = gramBytes m.total items [] ∧ Lists items m.freq

theorem holds_newGram : Holds newGram TokenMap.empty := by
  refine ⟨[], ?_, lists_nil⟩
  decide

theorem masked_sum {freq : BitVec 32 → Option (BitVec 32)} (h : Lists items freq) (mask value : BitVec 32) :
    ((items.filter fun e => e.1 &&& mask == value).map snd).sum =
      ∑ k, if k &&& mask = value then (freq k).getD 0 else 0 := by
  have hsum := (h.restrict fun k => k &&& mask == value).sum_eq fun _ v => v
  refine hsum.trans (Finset.sum_congr rfl fun k _ => ?_)
  by_cases hk : k &&& mask = value
  · simp [hk]
  · simp [hk]

/-- One edit of the row is the edit of the map it holds. -/
theorem Holds.step {gram : Bytes} {m : TokenMap} (h : Holds gram m) (op : GramOp) :
    Holds (op.step gram) (m.apply op) := by
  obtain ⟨items, rfl, hlists⟩ := h
  have htail : ([] : Bytes).length < 8 := by simp
  cases op with
  | insert token freq =>
    obtain ⟨front, back, rfl, hfront, hback⟩ := hlists.split token
    refine ⟨around front token (some ((m.freq token).getD freq)) back, ?_, ?_⟩
    · exact congrArg fst (insertFreq_around hfront hback (m.freq token) freq)
    · exact hlists.at_place hfront hback _
  | set token freq =>
    obtain ⟨front, back, rfl, hfront, hback⟩ := hlists.split token
    refine ⟨around front token ((m.freq token).map fun _ => freq) back, ?_, ?_⟩
    · exact congrArg fst (setFreq_around htail hfront hback (m.freq token) freq)
    · exact hlists.at_place hfront hback _
  | remove token =>
    obtain ⟨front, back, rfl, hfront, hback⟩ := hlists.split token
    refine ⟨around front token none back, ?_, ?_⟩
    · exact congrArg fst (removeFreq_around htail hfront hback (m.freq token))
    · exact hlists.at_place hfront hback _
  | maskOut mask value =>
    refine ⟨items.filter fun e => e.1 &&& mask != value, ?_, ?_⟩
    · rw [GramOp.step, maskOut_gramBytes, masked_sum hlists]
      rfl
    · have hmap : (m.apply (.maskOut mask value)).freq =
          fun k => if (k &&& mask != value) = true then m.freq k else none := by
        ext1 k
        by_cases hk : k &&& mask = value
        · simp [TokenMap.apply, hk]
        · simp [TokenMap.apply, hk]
      rw [hmap]
      exact hlists.restrict fun k => k &&& mask != value
  | setTotal total => exact ⟨items, setTotalFreq_gramBytes total, hlists⟩

theorem Holds.run {gram : Bytes} {m : TokenMap} (h : Holds gram m) (ops : List GramOp) :
    Holds (ops.foldl GramOp.step gram) (ops.foldl TokenMap.apply m) := by
  induction ops generalizing gram m with
  | nil => exact h
  | cons op rest ih => exact ih (h.step op)

/-- What a row answers, as the map would. -/
structure Answers (gram : Bytes) (m : TokenMap) : Prop where
  /-- Whole records only, strictly ascending. -/
  whole : ∃ stored, records gram = some (stored, []) ∧
    (stored.map recordToken).Pairwise (· < ·)
  freq : ∀ token, getFreq gram token = m.freq token
  all : Lists (retrieveAll gram) m.freq
  range : ∀ start stop, Lists (search gram start stop) fun token =>
    if start ≤ token ∧ token < stop then m.freq token else none
  total : getTotalFreq gram = some m.total

theorem Holds.answers {gram : Bytes} {m : TokenMap} (h : Holds gram m) : Answers gram m := by
  obtain ⟨items, rfl, hlists⟩ := h
  have htail : ([] : Bytes).length < 8 := by simp
  refine ⟨⟨_, records_gramBytes htail, ?_⟩, fun token => ?_, ?_, fun start stop => ?_,
    getTotalFreq_gramBytes⟩
  · rw [List.map_map, pairwise_map]
    simpa using hlists.ascending
  · obtain ⟨front, back, hitems, hfront, hback⟩ := hlists.split token
    rw [hitems]
    exact getFreq_around htail hfront hback (m.freq token)
  · rw [retrieveAll_gramBytes htail]
    exact hlists
  · rw [search_gramBytes hlists.ascending]
    simpa using hlists.restrict fun k => decide (start ≤ k) && decide (k < stop)

/-- Every sequence of edits of a fresh row answers as the map they build. -/
theorem run_answers (ops : List GramOp) :
    Answers (ops.foldl GramOp.step newGram) (ops.foldl TokenMap.apply TokenMap.empty) :=
  (Holds.run holds_newGram ops).answers

end SingleGram

end Oxpinyin
