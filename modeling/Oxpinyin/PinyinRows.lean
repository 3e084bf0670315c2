import Mathlib.Algebra.Group.Nat.Defs
import Mathlib.Data.List.Forall2
import Oxpinyin.ChewingKey
import Oxpinyin.Lib.LittleEndian

/-!
# Rows of the pinyin index

The layout the pinyin index files share. An item is a token with its keys, padded to whole
words. A row lists the items under one table key, and the table key of some keys is either
without tones or of their initials alone. Keys within their fields' widths are read back from
an item (`recordKeys_encodeItem`), and the two kinds of table keys are told apart by a key with
a rhyme (`initialOnly_of_encode_eq`).
-/

namespace Oxpinyin

open List LittleEndian Std ChewingKey
open BitVec hiding and_assoc append_assoc or_assoc

/-! ## Row format -/

/-- The size of an item of so many keys, rounded up to whole words. -/
def item2Stride (phraseLength : Nat) : Nat :=
  (4 + 2 * phraseLength + 3) / 4 * 4

/-- The packed form of a key. -/
def pack (key : ChewingKey) : Bytes :=
  le16 key.toPacked

/-- The key of the complete index : no tones. -/
def encodeCompleteKey (keys : List ChewingKey) : Bytes :=
  keys.flatMap fun key => pack ⟨key.initial, key.middle, key.final, 0⟩

/-- The key of the incomplete index : initials only. -/
def encodeIncompleteKey (keys : List ChewingKey) : Bytes :=
  keys.flatMap fun key => pack ⟨key.initial, 0, 0, 0⟩

/-- An item : its token, its keys and padding. -/
def encodeItem (token : BitVec 32) (keys : List ChewingKey) : Bytes :=
  resize (le32 token ++ keys.flatMap pack) (item2Stride keys.length) 0

/-- The token an item leads with. -/
def recordToken (record : Bytes) : BitVec 32 :=
  word32 (record.take 4)

/-- The first keys of an item. -/
def recordKeys (record : Bytes) (count : Nat) : List ChewingKey :=
  ((chunks 2 (record.drop 4)).take count).map fun word => ChewingKey.fromPacked (word16 word)

/-- Exact key order : all initials, then each middle and final, then all tones. -/
def exactCompare (left right : List ChewingKey) : Ordering :=
  (List.compareLex compare (left.map (·.initial)) (right.map (·.initial))).then
    ((List.compareLex (compareLex (compareOn (·.middle)) (compareOn (·.final))) left right).then
      (List.compareLex compare (left.map (·.tone)) (right.map (·.tone))))

/-! ## Queries -/

/-- One of the keys is an initial alone. -/
def containsIncomplete (keys : List ChewingKey) : Bool :=
  keys.any fun key => key.middle == 0 && key.final == 0

/-- The table key of a query : that of its initials if one of its keys is an initial alone. -/
def indexKey (keys : List ChewingKey) : Bytes :=
  if containsIncomplete keys then encodeIncompleteKey keys else encodeCompleteKey keys

/-- A queried key matches a stored one. A missing rhyme or tone matches any. -/
def keyMatches (query stored : ChewingKey) : Bool :=
  query.initial == stored.initial &&
    ((query.middle == stored.middle && query.final == stored.final) ||
      (query.middle == 0 && query.final == 0) || (stored.middle == 0 && stored.final == 0)) &&
    (query.tone == stored.tone || query.tone == 0 || stored.tone == 0)

/-! ## Exact key order -/

theorem exactCompare_eq_compareLex : exactCompare = compareLex (compareOn fun keys => keys.map (·.initial))
    (compareLex (List.compareLex (compareLex (compareOn (·.middle)) (compareOn (·.final))))
      (compareOn fun keys => keys.map (·.tone))) := rfl

instance : TransCmp exactCompare := by
  rw [exactCompare_eq_compareLex]
  infer_instance

/-- Keys equal in each pass are equal. -/
theorem eq_of_passes : ∀ {left right : List ChewingKey}, left.map (·.initial) = right.map (·.initial) →
    List.compareLex (compareLex (compareOn (·.middle)) (compareOn (·.final))) left right = .eq →
    left.map (·.tone) = right.map (·.tone) → left = right
  | [], [], _, _, _ => rfl
  | [], _ :: _, hinitials, _, _ => by cases hinitials
  | _ :: _, [], hinitials, _, _ => by cases hinitials
  | a :: left, b :: right, hinitials, hrhymes, htones => by
    rw [map_cons, map_cons, List.cons.injEq] at hinitials htones
    rw [List.compareLex_cons_cons, Ordering.then_eq_eq, compareLex, Ordering.then_eq_eq] at hrhymes
    have hmiddle : a.middle = b.middle := LawfulEqCmp.eq_of_compare hrhymes.1.1
    have hfinal : a.final = b.final := LawfulEqCmp.eq_of_compare hrhymes.1.2
    rw [eq_of_passes hinitials.2 hrhymes.2 htones.2]
    cases a
    cases b
    simp_all

instance : LawfulEqCmp exactCompare where
  compare_self := ReflCmp.compare_self
  eq_of_compare := by
    intro left right h
    rw [exactCompare, Ordering.then_eq_eq, Ordering.then_eq_eq] at h
    exact eq_of_passes (LawfulEqCmp.eq_of_compare h.1) h.2.1 (LawfulEqCmp.eq_of_compare h.2.2)

/-! ## Packed keys -/

namespace ChewingKey

/-- The fields fit their widths in the packed form. -/
def Fits (key : ChewingKey) : Prop :=
  key.initial < 32 ∧ key.middle < 4 ∧ key.final < 32 ∧ key.tone < 8

instance (key : ChewingKey) : Decidable key.Fits :=
  inferInstanceAs (Decidable (_ ∧ _))

/-- A key is an initial alone. -/
def InitialOnly (key : ChewingKey) : Prop :=
  key.middle = 0 ∧ key.final = 0

instance (key : ChewingKey) : Decidable key.InitialOnly :=
  inferInstanceAs (Decidable (_ ∧ _))

/-- The key without its tone. -/
def toneless (key : ChewingKey) : ChewingKey := ⟨key.initial, key.middle, key.final, 0⟩

/-- The initial of a key. -/
def initialPart (key : ChewingKey) : ChewingKey := ⟨key.initial, 0, 0, 0⟩

variable {key : ChewingKey}

theorem Fits.toneless (h : key.Fits) : key.toneless.Fits :=
  ⟨h.1, h.2.1, h.2.2.1, Nat.zero_lt_succ 7⟩

theorem Fits.initialPart (h : key.Fits) : key.initialPart.Fits :=
  ⟨h.1, Nat.zero_lt_succ 3, Nat.zero_lt_succ 31, Nat.zero_lt_succ 7⟩

/-- A number within a width is not cut by its mask. -/
theorem ofNat_and {n w : Nat} (h : n < 2 ^ w) (hw : w < 16) :
    (BitVec.ofNat 16 n &&& BitVec.ofNat 16 (2 ^ w - 1)).toNat = n := by
  have hpow : 2 ^ w < 2 ^ 16 := Nat.pow_lt_pow_right (by decide) hw
  rw [toNat_and, toNat_ofNat, toNat_ofNat, Nat.mod_eq_of_lt (Nat.lt_trans h hpow),
    Nat.mod_eq_of_lt (Nat.lt_of_le_of_lt (Nat.sub_le _ 1) hpow), Nat.and_two_pow_sub_one_eq_mod, Nat.mod_eq_of_lt h]

/-- A field at a place. -/
theorem toNat_shiftRight_and (bits : BitVec 16) (k : Nat) {w : Nat} (hw : w < 16) :
    ((bits >>> k) &&& BitVec.ofNat 16 (2 ^ w - 1)).toNat = bits.toNat / 2 ^ k % 2 ^ w := by
  have hpow : 2 ^ w < 2 ^ 16 := Nat.pow_lt_pow_right (by decide) hw
  rw [toNat_and, toNat_ofNat, Nat.mod_eq_of_lt (Nat.lt_of_le_of_lt (Nat.sub_le _ 1) hpow),
    Nat.and_two_pow_sub_one_eq_mod, toNat_ushiftRight, Nat.shiftRight_eq_div_pow]

/-- A number below a place and a number shifted to it. -/
theorem or_shiftLeft {low k : Nat} (h : low < 2 ^ k) (high : Nat) : low ||| high <<< k = high <<< k + low := by
  rw [Nat.or_comm, Nat.shiftLeft_add_eq_or_of_lt h]

theorem toNat_toPacked (h : key.Fits) :
    key.toPacked.toNat = key.initial + 32 * key.middle + 128 * key.final + 4096 * key.tone := by
  obtain ⟨hinitial, hmiddle, hfinal, htone⟩ := h
  have hmiddle' : (key.middle <<< 5) % 2 ^ 16 = key.middle <<< 5 := Nat.mod_eq_of_lt (by rw [Nat.shiftLeft_eq]; omega)
  have hfinal' : (key.final <<< 7) % 2 ^ 16 = key.final <<< 7 := Nat.mod_eq_of_lt (by rw [Nat.shiftLeft_eq]; omega)
  have htone' : (key.tone <<< 12) % 2 ^ 16 = key.tone <<< 12 := Nat.mod_eq_of_lt (by rw [Nat.shiftLeft_eq]; omega)
  rw [toPacked, toNat_or, toNat_or, toNat_or, toNat_shiftLeft,
    toNat_shiftLeft, toNat_shiftLeft]
  change (BitVec.ofNat 16 key.initial &&& BitVec.ofNat 16 (2 ^ 5 - 1)).toNat |||
      (BitVec.ofNat 16 key.middle &&& BitVec.ofNat 16 (2 ^ 2 - 1)).toNat <<< 5 % 2 ^ 16 |||
      (BitVec.ofNat 16 key.final &&& BitVec.ofNat 16 (2 ^ 5 - 1)).toNat <<< 7 % 2 ^ 16 |||
      (BitVec.ofNat 16 key.tone &&& BitVec.ofNat 16 (2 ^ 3 - 1)).toNat <<< 12 % 2 ^ 16 = _
  rw [ofNat_and hinitial (by decide), ofNat_and hmiddle (by decide), ofNat_and hfinal (by decide),
    ofNat_and htone (by decide), hmiddle', hfinal', htone', @or_shiftLeft key.initial 5 hinitial,
    @or_shiftLeft _ 7 (by rw [Nat.shiftLeft_eq]; omega), @or_shiftLeft _ 12 (by simp only [Nat.shiftLeft_eq]; omega)]
  simp only [Nat.shiftLeft_eq]
  omega

/-- A key that fits is read back from its packed form. -/
theorem fromPacked_toPacked (h : key.Fits) : fromPacked key.toPacked = key := by
  have hbits := toNat_toPacked h
  obtain ⟨hinitial, hmiddle, hfinal, htone⟩ := h
  have hfirst : (key.toPacked &&& 0x1f).toNat = key.initial := by
    have hfield := toNat_shiftRight_and key.toPacked 0 (w := 5) (by decide)
    rw [ushiftRight_zero] at hfield
    refine Eq.trans hfield ?_
    omega
  have hsecond : ((key.toPacked >>> 5) &&& 0x3).toNat = key.middle :=
    (toNat_shiftRight_and key.toPacked 5 (w := 2) (by decide)).trans (by omega)
  have hthird : ((key.toPacked >>> 7) &&& 0x1f).toNat = key.final :=
    (toNat_shiftRight_and key.toPacked 7 (w := 5) (by decide)).trans (by omega)
  have hfourth : ((key.toPacked >>> 12) &&& 0x7).toNat = key.tone :=
    (toNat_shiftRight_and key.toPacked 12 (w := 3) (by decide)).trans (by omega)
  rw [fromPacked, hfirst, hsecond, hthird, hfourth]

end ChewingKey

theorem length_pack (key : ChewingKey) : (pack key).length = 2 := length_le16 _

theorem flatMap_pack (keys : List ChewingKey) : keys.flatMap pack = (keys.map (·.toPacked)).flatMap le16 := by
  rw [flatMap_map]
  rfl

theorem length_flatMap_pack (keys : List ChewingKey) : (keys.flatMap pack).length = 2 * keys.length := by
  rw [flatMap_pack, length_flatMap_le16, length_map, Nat.mul_comm]

/-- Keys that fit are told apart by their packed forms. -/
theorem flatMap_pack_inj {xs ys : List ChewingKey} (hxs : ∀ key ∈ xs, key.Fits) (hys : ∀ key ∈ ys, key.Fits)
    (h : xs.flatMap pack = ys.flatMap pack) : xs = ys := by
  have hread : ∀ keys : List ChewingKey, (∀ key ∈ keys, key.Fits) →
      ((chunks 2 (keys.flatMap pack)).map word16).map fromPacked = keys := by
    intro keys hkeys
    rw [flatMap_pack, map_word16_chunks, map_map]
    refine Eq.trans (map_congr_left fun key hkey => ?_) (map_id keys)
    exact fromPacked_toPacked (hkeys key hkey)
  rw [← hread xs hxs, h, hread ys hys]

section

variable (keys : List ChewingKey)

theorem encodeCompleteKey_eq : encodeCompleteKey keys = (keys.map (·.toneless)).flatMap pack := by
  rw [flatMap_map]
  rfl

theorem encodeIncompleteKey_eq : encodeIncompleteKey keys = (keys.map (·.initialPart)).flatMap pack := by
  rw [flatMap_map]
  rfl

theorem length_encodeCompleteKey : (encodeCompleteKey keys).length = 2 * keys.length := by
  rw [encodeCompleteKey_eq, length_flatMap_pack, length_map]

theorem length_encodeIncompleteKey : (encodeIncompleteKey keys).length = 2 * keys.length := by
  rw [encodeIncompleteKey_eq, length_flatMap_pack, length_map]

/-- Blocks of two, cut behind so many. -/
theorem take_flatMap_pack (n : Nat) : (keys.flatMap pack).take (2 * n) = (keys.take n).flatMap pack := by
  induction keys generalizing n with
  | nil => rw [take_nil, flatMap_nil, take_nil]
  | cons key keys ih =>
    cases n with
    | zero => rfl
    | succ n =>
      have htake : 2 * (n + 1) = (pack key).length + 2 * n := by
        rw [length_pack]
        omega
      rw [flatMap_cons, htake, take_length_add_append, ih, take_succ_cons, flatMap_cons]

theorem take_encodeCompleteKey (n : Nat) : (encodeCompleteKey keys).take (2 * n) = encodeCompleteKey
    (keys.take n) := by
  rw [encodeCompleteKey_eq, encodeCompleteKey_eq, take_flatMap_pack, map_take]

theorem take_encodeIncompleteKey (n : Nat) :
    (encodeIncompleteKey keys).take (2 * n) = encodeIncompleteKey (keys.take n) := by
  rw [encodeIncompleteKey_eq, encodeIncompleteKey_eq, take_flatMap_pack, map_take]

theorem length_indexKey : (indexKey keys).length = 2 * keys.length := by
  rw [indexKey]
  split
  · exact length_encodeIncompleteKey keys
  · exact length_encodeCompleteKey keys

end

section Encode

variable {xs ys : List ChewingKey}

theorem forall_map_fits {f : ChewingKey → ChewingKey} (hf : ∀ key : ChewingKey, key.Fits → (f key).Fits)
    (h : ∀ key ∈ xs, key.Fits) : ∀ key ∈ xs.map f, key.Fits := by
  intro key hkey
  obtain ⟨source, hsource, rfl⟩ := mem_map.mp hkey
  exact hf source (h source hsource)

theorem encodeCompleteKey_eq_iff (hxs : ∀ key ∈ xs, key.Fits) (hys : ∀ key ∈ ys, key.Fits) :
    encodeCompleteKey xs = encodeCompleteKey ys ↔ xs.map (·.toneless) = ys.map (·.toneless) := by
  rw [encodeCompleteKey_eq, encodeCompleteKey_eq]
  refine ⟨fun h => ?_, fun h => by rw [h]⟩
  exact flatMap_pack_inj (forall_map_fits (fun _ => ChewingKey.Fits.toneless) hxs)
    (forall_map_fits (fun _ => ChewingKey.Fits.toneless) hys) h

theorem encodeIncompleteKey_congr (h : xs.map (·.initial) = ys.map (·.initial)) :
    encodeIncompleteKey xs = encodeIncompleteKey ys := by
  have hmap : ∀ keys : List ChewingKey, keys.map (·.initialPart) =
      (keys.map (·.initial)).map fun initial => ⟨initial, 0, 0, 0⟩ := by
    intro keys
    rw [map_map]
    rfl
  rw [encodeIncompleteKey_eq, encodeIncompleteKey_eq, hmap xs, hmap ys, h]

theorem encodeIncompleteKey_eq_iff (hxs : ∀ key ∈ xs, key.Fits) (hys : ∀ key ∈ ys, key.Fits) :
    encodeIncompleteKey xs = encodeIncompleteKey ys ↔ xs.map (·.initial) = ys.map (·.initial) := by
  refine ⟨fun h => ?_, encodeIncompleteKey_congr⟩
  rw [encodeIncompleteKey_eq, encodeIncompleteKey_eq] at h
  have hkeys := flatMap_pack_inj (forall_map_fits (fun _ => ChewingKey.Fits.initialPart) hxs)
    (forall_map_fits (fun _ => ChewingKey.Fits.initialPart) hys) h
  have hinitials := congrArg (List.map (·.initial)) hkeys
  rwa [map_map, map_map] at hinitials

/-- Keys without tones that are initials only have no rhyme. -/
theorem initialOnly_of_encode_eq (hxs : ∀ key ∈ xs, key.Fits) (hys : ∀ key ∈ ys, key.Fits)
    (h : encodeIncompleteKey xs = encodeCompleteKey ys) : ∀ key ∈ ys, key.InitialOnly := by
  rw [encodeIncompleteKey_eq, encodeCompleteKey_eq] at h
  have hkeys := flatMap_pack_inj (forall_map_fits (fun _ => ChewingKey.Fits.initialPart) hxs)
    (forall_map_fits (fun _ => ChewingKey.Fits.toneless) hys) h
  intro key hkey
  have hmem : key.toneless ∈ xs.map (·.initialPart) := by
    rw [hkeys]
    exact mem_map_of_mem hkey
  obtain ⟨source, _, hsource⟩ := mem_map.mp hmem
  have hmiddle : (0 : Nat) = key.middle := congrArg middle hsource
  have hfinal : (0 : Nat) = key.final := congrArg final hsource
  exact ⟨hmiddle.symm, hfinal.symm⟩

end Encode

/-! ## Matching -/

/-- Stored keys match a query, key by key. -/
def Matching (query stored : List ChewingKey) : Prop :=
  List.Forall₂ (fun stored query => keyMatches query stored = true) stored query

section Matching

variable {query stored : List ChewingKey}

theorem containsIncomplete_iff : containsIncomplete query = true ↔ ∃ key ∈ query, key.InitialOnly := by
  rw [containsIncomplete, any_eq_true]
  simp only [Bool.and_eq_true, beq_iff_eq]
  rfl

theorem keyMatches_iff {query stored : ChewingKey} : keyMatches query stored = true ↔
    query.initial = stored.initial ∧
      (query.middle = stored.middle ∧ query.final = stored.final ∨ query.InitialOnly ∨ stored.InitialOnly) ∧
      (query.tone = stored.tone ∨ query.tone = 0 ∨ stored.tone = 0) := by
  simp only [keyMatches, Bool.and_eq_true, Bool.or_eq_true, beq_iff_eq, ChewingKey.InitialOnly, and_assoc, or_assoc]

theorem Matching.initials (h : Matching query stored) : stored.map (·.initial) = query.map (·.initial) := by
  induction h with
  | nil => rfl
  | cons hkey _ ih => rw [map_cons, map_cons, ih, (keyMatches_iff.mp hkey).1]

/-- Matching keys that all have a rhyme are the same but for their tones. -/
theorem Matching.tonelesses (h : Matching query stored) (hquery : ∀ key ∈ query, ¬key.InitialOnly)
    (hstored : ∀ key ∈ stored, ¬key.InitialOnly) : stored.map (·.toneless) = query.map (·.toneless) := by
  induction h with
  | nil => rfl
  | cons hkey _ ih =>
    rw [forall_mem_cons] at hquery hstored
    obtain ⟨hinitial, hrhyme, _⟩ := keyMatches_iff.mp hkey
    obtain ⟨hmiddle, hfinal⟩ := hrhyme.resolve_right (not_or.mpr ⟨hquery.1, hstored.1⟩)
    rw [map_cons, map_cons, ih hquery.2 hstored.2, toneless, toneless, hinitial,
      hmiddle, hfinal]

/-- Keys the same but for their tones have a rhyme alike. -/
theorem initialOnly_of_tonelesses (h : stored.map (·.toneless) = query.map (·.toneless))
    (hquery : ∀ key ∈ query, ¬key.InitialOnly) : ∀ key ∈ stored, ¬key.InitialOnly := by
  intro key hkey
  have hmem : key.toneless ∈ query.map (·.toneless) := by
    rw [← h]
    exact mem_map_of_mem hkey
  obtain ⟨source, hsource, heq⟩ := mem_map.mp hmem
  have hmiddle : source.toneless.middle = key.toneless.middle := congrArg middle heq
  have hfinal : source.toneless.final = key.toneless.final := congrArg final heq
  rintro ⟨hzero, hzero'⟩
  exact hquery source hsource ⟨hmiddle.trans hzero, hfinal.trans hzero'⟩

/-- A query looks under the same table key without its tones. -/
theorem indexKey_toneless (query : List ChewingKey) : indexKey (query.map (·.toneless)) = indexKey query := by
  have hcomplete : encodeCompleteKey (query.map (·.toneless)) = encodeCompleteKey query := by
    rw [encodeCompleteKey, flatMap_map]
    rfl
  have hincomplete : encodeIncompleteKey (query.map (·.toneless)) = encodeIncompleteKey query := by
    rw [encodeIncompleteKey, flatMap_map]
    rfl
  have hcontains : containsIncomplete (query.map (·.toneless)) = containsIncomplete query := by
    rw [containsIncomplete, any_map]
    rfl
  rw [indexKey, indexKey, hcomplete, hincomplete, hcontains]

/-- What a query matches it matches without its tone. -/
theorem keyMatches_toneless {query stored : ChewingKey} (h : keyMatches query stored = true) :
    keyMatches query.toneless stored = true := by
  obtain ⟨hinitial, hrhyme, _⟩ := keyMatches_iff.mp h
  exact keyMatches_iff.mpr ⟨hinitial, hrhyme, Or.inr (Or.inl rfl)⟩

/-- Where a query looks it finds the keys that match it, but for stored keys that are initials
alone under a query that has none. -/
theorem Matching.indexKey_iff (h : Matching query stored) (hquery : ∀ key ∈ query, key.Fits)
    (hstored : ∀ key ∈ stored, key.Fits) (hrhyme : ∃ key ∈ stored, ¬key.InitialOnly) :
    (indexKey query = encodeIncompleteKey stored ∨ indexKey query = encodeCompleteKey stored) ↔
      (∃ key ∈ query, key.InitialOnly) ∨ ∀ key ∈ stored, ¬key.InitialOnly := by
  rw [indexKey]
  by_cases hincomplete : containsIncomplete query = true
  · rw [if_pos hincomplete, encodeIncompleteKey_eq_iff hquery hstored]
    exact ⟨fun _ => Or.inl (containsIncomplete_iff.mp hincomplete), fun _ => Or.inl h.initials.symm⟩
  · rw [if_neg hincomplete, encodeCompleteKey_eq_iff hquery hstored]
    have hnone : ∀ key ∈ query, ¬key.InitialOnly := fun key hkey honly =>
      hincomplete (containsIncomplete_iff.mpr ⟨key, hkey, honly⟩)
    have hnonempty : query ≠ [] := by
      rintro rfl
      obtain ⟨key, hkey, _⟩ := hrhyme
      rw [forall₂_nil_right_iff.mp h] at hkey
      cases hkey
    constructor
    · rintro (heq | heq)
      · obtain ⟨key, hkey⟩ := exists_mem_of_ne_nil query hnonempty
        exact absurd (initialOnly_of_encode_eq hstored hquery heq.symm key hkey) (hnone key hkey)
      · exact Or.inr (initialOnly_of_tonelesses heq.symm hnone)
    · rintro (⟨key, hkey, honly⟩ | hall)
      · exact absurd honly (hnone key hkey)
      · exact Or.inr (h.tonelesses hnone hall).symm

end Matching

/-! ## Items -/

section Items

variable (token : BitVec 32) (keys : List ChewingKey)

theorem item2Stride_pos (n : Nat) : 0 < item2Stride n := by
  rw [item2Stride]
  omega

theorem length_encodeItem : (encodeItem token keys).length = item2Stride keys.length := length_resize _ _ _

/-- An item is its token and its keys, with padding behind. -/
theorem encodeItem_eq : ∃ padding, encodeItem token keys = le32 token ++ (keys.flatMap pack ++ padding) := by
  have hlength : (le32 token ++ keys.flatMap pack).length ≤ item2Stride keys.length := by
    rw [length_append, length_le32, length_flatMap_pack, item2Stride]
    omega
  exact ⟨_, by rw [encodeItem, resize, take_of_length_le hlength, append_assoc]⟩

theorem recordToken_encodeItem : recordToken (encodeItem token keys) = token := by
  obtain ⟨padding, hitem⟩ := encodeItem_eq token keys
  rw [recordToken, hitem, take_left' (length_le32 token), word32_le32]

/-- The keys of an item are read back. -/
theorem recordKeys_encodeItem (h : ∀ key ∈ keys, key.Fits) :
    recordKeys (encodeItem token keys) keys.length = keys := by
  obtain ⟨padding, hitem⟩ := encodeItem_eq token keys
  have hblocks : ∀ block ∈ keys.map pack, block.length = 2 := by
    intro block hblock
    obtain ⟨key, _, rfl⟩ := mem_map.mp hblock
    exact length_pack key
  have hcut := @take_chunks_flatten _ 2 (by decide) (keys.map pack) padding hblocks
  rw [length_map, ← flatMap_def] at hcut
  rw [recordKeys, hitem, drop_left' (length_le32 token), hcut, map_map]
  refine Eq.trans (map_congr_left fun key hkey => ?_) (map_id keys)
  rw [Function.comp_apply, pack, word16_le16, fromPacked_toPacked (h key hkey), id]

end Items

end Oxpinyin
