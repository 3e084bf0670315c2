import Oxpinyin.Inventory
import Oxpinyin.Options

/-!
# Syllable keys and option-gated spellings

`SyllableKey` is the dense id of one decoder-visible key. A spelling resolves to a
key exactly, or through an alias that an option bit admits :
`SyllableKey.fromOptionText`. `AliasOf` lists the alias shapes, and
`optionAliasCanonical_aliasOf` says the code's chain of option tests admits no
others. Every resolved spelling is lowercase and at most `maxSyllableLen` bytes
(`SyllableKey.fromOptionText_wellSpelled`), whatever the option word.
-/

namespace Oxpinyin

open List Option

/-! ## Aliases -/

variable {options : OptionBits}

variable {canonical : Bytes}

/-- `str::ends_with`. -/
def endsWith (text suffix : Bytes) : Bool :=
  suffix.isSuffixOf text

/-- A canonical complete spelling, of the frozen inventory or option-only. -/
def canonicalCompleteSyllable (text : Bytes) : Option Bytes :=
  if text ∈ fullPinyinSyllables then some text
  else if text ∈ optionOnlyCompleteSyllables then some text
  else none

/-- The canonical spelling of `text` with its last `suffixLen` bytes replaced. An empty
stem has none. -/
def checkedCanonical (text : Bytes) (suffixLen : Nat) (suffix : Bytes) : Option Bytes :=
  if text.length < suffixLen then none
  else
    let baseLen := text.length - suffixLen
    if baseLen = 0 then none
    else canonicalCompleteSyllable (text.take baseLen ++ suffix)

/-- The `jv`, `qv`, `xv`, `yv` spellings with `v` read as `u`. -/
def vuCandidate : Bytes → Option Bytes
  | b :: c :: rest =>
    if (b = 106 ∨ b = 113 ∨ b = 120 ∨ b = 121) ∧ c = 118 then some (b :: 117 :: rest) else none
  | _ => none

/-- The canonical spelling of a correction alias. The first enabled correction that
matches decides. -/
def correctionCanonical (text : Bytes) (options : OptionBits) : Option Bytes :=
  if options.contains pinyinCorrectGnNg && endsWith text (ascii "gn") then
    checkedCanonical text 2 (ascii "ng")
  else if options.contains pinyinCorrectMgNg && endsWith text (ascii "mg") then
    checkedCanonical text 2 (ascii "ng")
  else if options.contains pinyinCorrectIouIu && endsWith text (ascii "iou") then
    checkedCanonical text 3 (ascii "iu")
  else if options.contains pinyinCorrectUeiUi && endsWith text (ascii "uei") then
    checkedCanonical text 3 (ascii "ui")
  else if options.contains pinyinCorrectUenUn && endsWith text (ascii "uen") then
    checkedCanonical text 3 (ascii "un")
  else if options.contains pinyinCorrectUeVe && endsWith text (ascii "ue") then
    checkedCanonical text 2 (ascii "ve")
  else if options.contains pinyinCorrectVU && (vuCandidate text).isSome then
    (vuCandidate text).bind canonicalCompleteSyllable
  else if options.contains pinyinCorrectOnOng && endsWith text (ascii "on") &&
      2 < text.length then
    canonicalCompleteSyllable (text ++ ascii "g")
  else none

/-- The two parser-table ambiguity aliases. -/
def ambiguityCanonical (text : Bytes) (options : OptionBits) : Option Bytes :=
  if text = ascii "sua" ∧ options.contains pinyinAmbSSh then some (ascii "shua")
  else if text = ascii "zua" ∧ options.contains pinyinAmbZZh then some (ascii "zhua")
  else none

/-- The canonical spelling for an option-gated spelling alias, if enabled. -/
def optionAliasCanonical (text : Bytes) (options : OptionBits) : Option Bytes :=
  let aliasBits := pinyinCorrectAll ||| pinyinAmbSSh ||| pinyinAmbZZh
  if options.bits &&& aliasBits = 0 then none
  else (correctionCanonical text options).orElse fun _ => ambiguityCanonical text options

/-- The suffix replacements of the correction aliases, alias side first. -/
def aliasSuffixes : List (Bytes × Bytes) :=
  [(ascii "gn", ascii "ng"), (ascii "mg", ascii "ng"), (ascii "iou", ascii "iu"),
    (ascii "uei", ascii "ui"), (ascii "uen", ascii "un"), (ascii "ue", ascii "ve"),
    (ascii "on", ascii "ong")]

/-- `text` is an alias of the canonical spelling `canonical`. -/
inductive AliasOf : Bytes → Bytes → Prop
  | suffix {stem from_ to_} : (from_, to_) ∈ aliasSuffixes → stem ≠ [] →
      AliasOf (stem ++ from_) (stem ++ to_)
  | vu {b rest} : b ∈ ascii "jqxy" → AliasOf (b :: 118 :: rest) (b :: 117 :: rest)
  | sua : AliasOf (ascii "sua") (ascii "shua")
  | zua : AliasOf (ascii "zua") (ascii "zhua")

/-- The two tables `canonicalCompleteSyllable` reads. -/
def IsCanonical (text : Bytes) : Prop :=
  text ∈ fullPinyinSyllables ∨ text ∈ optionOnlyCompleteSyllables

instance (text : Bytes) : Decidable (IsCanonical text) :=
  inferInstanceAs (Decidable (_ ∨ _))

theorem canonicalCompleteSyllable_eq_some {text : Bytes} (h : canonicalCompleteSyllable text = some canonical) :
    canonical = text ∧ IsCanonical text := by
  unfold canonicalCompleteSyllable at h
  split_ifs at h with hf ho
  · exact ⟨(some.inj h).symm, Or.inl hf⟩
  · exact ⟨(some.inj h).symm, Or.inr ho⟩

theorem checkedCanonical_aliasOf {text from_ to_ : Bytes}
    (hm : (from_, to_) ∈ aliasSuffixes) (he : endsWith text from_ = true)
    (h : checkedCanonical text from_.length to_ = some canonical) :
    AliasOf text canonical ∧ IsCanonical canonical := by
  obtain ⟨stem, rfl⟩ := isSuffixOf_iff_suffix.mp he
  unfold checkedCanonical at h
  simp only [length_append, Nat.add_sub_cancel, take_left'] at h
  split_ifs at h with hlt hz
  obtain ⟨rfl, hc⟩ := canonicalCompleteSyllable_eq_some h
  exact ⟨.suffix hm (fun h0 => hz (by simp [h0])), hc⟩

/-- A correction is an alias of a canonical syllable. -/
theorem correctionCanonical_aliasOf {text : Bytes}
    (h : correctionCanonical text options = some canonical) : AliasOf text canonical ∧ IsCanonical canonical := by
  unfold correctionCanonical at h
  simp only [Bool.and_eq_true, decide_eq_true_eq] at h
  split_ifs at h with h1 h2 h3 h4 h5 h6 h7 h8
  · exact checkedCanonical_aliasOf (by decide) h1.2 h
  · exact checkedCanonical_aliasOf (by decide) h2.2 h
  · exact checkedCanonical_aliasOf (by decide) h3.2 h
  · exact checkedCanonical_aliasOf (by decide) h4.2 h
  · exact checkedCanonical_aliasOf (by decide) h5.2 h
  · exact checkedCanonical_aliasOf (by decide) h6.2 h
  · obtain ⟨candidate, hv, hcan⟩ := bind_eq_some_iff.mp h
    obtain ⟨rfl, hc⟩ := canonicalCompleteSyllable_eq_some hcan
    unfold vuCandidate at hv
    split at hv
    · split_ifs at hv with hb
      obtain ⟨hb, rfl⟩ := hb
      obtain rfl := some.inj hv
      refine ⟨.vu ?_, hc⟩
      rcases hb with rfl | rfl | rfl | rfl <;> decide
    · cases hv
  · obtain ⟨⟨_, hs⟩, hlen⟩ := h8
    obtain ⟨stem, rfl⟩ := isSuffixOf_iff_suffix.mp hs
    obtain ⟨rfl, hc⟩ := canonicalCompleteSyllable_eq_some h
    rw [append_assoc] at hc ⊢
    refine ⟨AliasOf.suffix (by decide : (ascii "on", ascii "ong") ∈ aliasSuffixes) ?_, hc⟩
    rintro rfl
    simp [ascii] at hlen

/-- An admitted alias has one of the listed shapes, and a canonical target. -/
theorem optionAliasCanonical_aliasOf {text : Bytes}
    (h : optionAliasCanonical text options = some canonical) : AliasOf text canonical ∧ IsCanonical canonical := by
  unfold optionAliasCanonical at h
  simp only at h
  split_ifs at h
  cases hc : correctionCanonical text options with
  | some c =>
    rw [hc] at h
    obtain rfl := some.inj h
    exact correctionCanonical_aliasOf hc
  | none =>
    rw [hc] at h
    simp only [orElse_none, ambiguityCanonical] at h
    split_ifs at h with hs hz
    · obtain rfl := some.inj h
      rw [hs.1]
      exact ⟨.sua, by decide +kernel⟩
    · obtain rfl := some.inj h
      rw [hz.1]
      exact ⟨.zua, by decide +kernel⟩

/-- With no bit set, no alias is admitted. -/
@[simp] theorem optionAliasCanonical_default (text : Bytes) : optionAliasCanonical text default = none := by
  simp [optionAliasCanonical]

/-! ## Well-spelled aliases -/

theorem wellSpelled_of_isCanonical {text : Bytes} (h : IsCanonical text) : WellSpelled text :=
  h.elim (fullPinyinSyllables_wellSpelled text) (optionOnlyCompleteSyllables_wellSpelled text)

/-- Where a replaced suffix lengthens the alias, the canonical spelling leaves room. -/
theorem aliasSuffixes_room : ∀ s ∈ fullPinyinSyllables ++ optionOnlyCompleteSyllables,
    ∀ p ∈ aliasSuffixes, endsWith s p.2 = true →
      s.length + p.1.length ≤ maxSyllableLen + p.2.length := by
  decide +kernel

theorem aliasSuffixes_lowercase : ∀ p ∈ aliasSuffixes, p.1 ≠ [] ∧ p.1.all isAsciiLowercase = true := by
  decide

/-- An alias of a canonical spelling is itself lowercase and short. -/
theorem wellSpelled_of_aliasOf {text : Bytes} (h : AliasOf text canonical)
    (hc : IsCanonical canonical) : WellSpelled text := by
  obtain ⟨_, hlen, hlow⟩ := wellSpelled_of_isCanonical hc
  cases h with
  | @suffix stem from_ to_ hm hs =>
    have hroom := aliasSuffixes_room _ (mem_append.mpr hc) _ hm (isSuffixOf_iff_suffix.mpr (suffix_append stem to_))
    obtain ⟨hne, hfrom⟩ := aliasSuffixes_lowercase _ hm
    simp only [length_append, all_append, Bool.and_eq_true] at hroom hlow
    refine ⟨by simp [hs], ?_, ?_⟩
    · simp only [length_append]
      omega
    · simp [hlow.1, hfrom]
  | vu hb =>
    simp only [length_cons, all_cons, Bool.and_eq_true] at hlen hlow
    refine ⟨by simp, by simpa using hlen, ?_⟩
    simp only [all_cons, hlow.1, hlow.2.2, Bool.true_and, Bool.and_true]
    decide
  | sua => decide
  | zua => decide

/-! ## Syllable keys -/

/-- Whether a key or a parsed segment is a complete syllable. -/
inductive Completeness where
  /-- A complete syllable. -/
  | Complete
  /-- An initial-only key, or a terminal proper beginning of a syllable. -/
  | Partial
  deriving DecidableEq, Repr

/-- Number of keys addressable by a `SyllableKey`. -/
def syllableKeyCount : Nat :=
  fullPinyinSyllables.length + incompletePinyinKeys.length +
    optionOnlyCompleteSyllables.length + zhuyinOnlyCompleteSyllables.length

/-- One decoder-visible key, by its dense id. -/
structure SyllableKey where
  /-- The dense id. -/
  index : Nat
  /-- The id is in the inventory. -/
  index_lt : index < syllableKeyCount
  deriving DecidableEq

namespace SyllableKey

/-- The key with dense id `index`, when it is in range. -/
def fromIndex (index : Nat) : Option SyllableKey :=
  if h : index < syllableKeyCount then some ⟨index, h⟩ else none

/-- The key spelled exactly `text`. -/
def fromText (text : Bytes) : Option SyllableKey :=
  match fullPinyinSyllables.idxOf? text with
  | some index => fromIndex index
  | none =>
    (incompletePinyinKeys.idxOf? text).bind fun index =>
      fromIndex (fullPinyinSyllables.length + index)

/-- The key of a canonical spelling, of any of the four tables. -/
def fromCanonicalText (text : Bytes) : Option SyllableKey :=
  match fullPinyinSyllables.idxOf? text with
  | some index => fromIndex index
  | none =>
    match incompletePinyinKeys.idxOf? text with
    | some index => fromIndex (fullPinyinSyllables.length + index)
    | none =>
      let optionStart := fullPinyinSyllables.length + incompletePinyinKeys.length
      match optionOnlyCompleteSyllables.idxOf? text with
      | some index => fromIndex (optionStart + index)
      | none =>
        let zhuyinStart := optionStart + optionOnlyCompleteSyllables.length
        (zhuyinOnlyCompleteSyllables.idxOf? text).bind fun index =>
          fromIndex (zhuyinStart + index)

/-- The key for `text` under parser option bits, with the correction distance. -/
def fromOptionTextWithDistance (text : Bytes) (options : OptionBits) :
    Option (SyllableKey × Nat) :=
  match fromText text with
  | some key => some (key, 0)
  | none =>
    (optionAliasCanonical text options).bind fun canonical =>
      (fromCanonicalText canonical).map fun key => (key, 1)

/-- The key for `text` under parser option bits. -/
def fromOptionText (text : Bytes) (options : OptionBits) : Option SyllableKey :=
  (fromOptionTextWithDistance text options).map Prod.fst

/-- The key's lowercase spelling. -/
def text (key : SyllableKey) : Bytes :=
  match fullPinyinSyllables[key.index]? with
  | some syllable => syllable
  | none =>
    match incompletePinyinKeys[key.index - fullPinyinSyllables.length]? with
    | some syllable => syllable
    | none =>
      let optionStart := fullPinyinSyllables.length + incompletePinyinKeys.length
      match optionOnlyCompleteSyllables[key.index - optionStart]? with
      | some syllable => syllable
      | none =>
        let zhuyinStart := optionStart + optionOnlyCompleteSyllables.length
        (zhuyinOnlyCompleteSyllables[key.index - zhuyinStart]?).getD []

/-- Whether this key is a complete syllable or an initial-only key. -/
def completeness (key : SyllableKey) : Completeness :=
  if key.index < fullPinyinSyllables.length ∨
      fullPinyinSyllables.length + incompletePinyinKeys.length ≤ key.index then .Complete
  else .Partial

/-! ## What a resolved key spells -/

variable {options : OptionBits}

variable {t : Bytes}

theorem fromIndex_eq_some {index : Nat} {key : SyllableKey} (h : fromIndex index = some key) : key.index = index := by
  unfold fromIndex at h
  split_ifs at h
  rw [← some.inj h]

theorem getElem?_of_idxOf? {table : List Bytes} {text : Bytes} {index : Nat}
    (h : table.idxOf? text = some index) : table[index]? = some text ∧ index < table.length := by
  obtain ⟨hlt, heq, _⟩ := idxOf?_eq_some_iff.mp h
  exact ⟨by rw [getElem?_eq_getElem hlt, heq], hlt⟩

section

variable {key : SyllableKey} {text : Bytes}

theorem text_of_full (h : fullPinyinSyllables[key.index]? = some text) : key.text = text := by
  unfold SyllableKey.text
  rw [h]

theorem text_of_incomplete {index : Nat} (hi : key.index = fullPinyinSyllables.length + index)
    (h : incompletePinyinKeys[index]? = some text) : key.text = text := by
  unfold SyllableKey.text
  rw [getElem?_eq_none (by omega), hi, Nat.add_sub_cancel_left, h]

theorem text_of_optionOnly {index : Nat}
    (hi : key.index = fullPinyinSyllables.length + incompletePinyinKeys.length + index)
    (h : optionOnlyCompleteSyllables[index]? = some text) : key.text = text := by
  unfold SyllableKey.text
  rw [getElem?_eq_none (by omega), getElem?_eq_none (by omega), hi]
  simp only [Nat.add_sub_cancel_left, h]

end

/-- An exact lookup finds the key of that spelling : a complete syllable or an
initial-only key. -/
theorem fromText_eq_some {key : SyllableKey} (h : fromText t = some key) :
    key.text = t ∧ (t ∈ fullPinyinSyllables ∧ key.completeness = .Complete ∨
      t ∈ incompletePinyinKeys ∧ key.completeness = .Partial) := by
  unfold fromText at h
  split at h
  · rename_i index hf
    obtain ⟨hget, hlt⟩ := getElem?_of_idxOf? hf
    have hi := fromIndex_eq_some h
    refine ⟨text_of_full (by rw [hi, hget]), Or.inl ⟨mem_of_getElem? hget, ?_⟩⟩
    simp [completeness, hi, hlt]
  · obtain ⟨index, hf, hk⟩ := bind_eq_some_iff.mp h
    obtain ⟨hget, hlt⟩ := getElem?_of_idxOf? hf
    have hi := fromIndex_eq_some hk
    refine ⟨text_of_incomplete hi hget, Or.inr ⟨mem_of_getElem? hget, ?_⟩⟩
    unfold completeness
    rw [if_neg (by omega)]

theorem fromIndex_isSome {index : Nat} (h : index < syllableKeyCount) : ∃ key, fromIndex index = some key :=
  ⟨⟨index, h⟩, by simp [fromIndex, h]⟩

/-- Every full syllable has a key. -/
theorem fromText_of_mem (h : t ∈ fullPinyinSyllables) : ∃ key, fromText t = some key := by
  have hs := isSome_idxOf?.mpr h
  obtain ⟨index, hindex⟩ := isSome_iff_exists.mp hs
  obtain ⟨_, hlt⟩ := getElem?_of_idxOf? hindex
  have hcount : index < syllableKeyCount := by
    unfold syllableKeyCount
    omega
  obtain ⟨key, hkey⟩ := fromIndex_isSome hcount
  exact ⟨key, by simp [fromText, hindex, hkey]⟩

/-- No option-only syllable is also a full syllable or an initial-only key. -/
theorem optionOnly_disjoint : ∀ t ∈ optionOnlyCompleteSyllables,
    t ∉ fullPinyinSyllables ∧ t ∉ incompletePinyinKeys := by
  have hranks : ∀ t ∈ optionOnlyCompleteSyllables,
      spellingRank maxSyllableLen t ∉ fullPinyinSyllables.map (spellingRank maxSyllableLen) ∧
        spellingRank maxSyllableLen t ∉ incompletePinyinKeys.map (spellingRank maxSyllableLen) := by
    decide +kernel
  exact fun t ht => ⟨notMem_of_rank (hranks t ht).1, notMem_of_rank (hranks t ht).2⟩

/-- A canonical spelling has a key, complete and with that spelling. -/
theorem fromCanonicalText_of_isCanonical (h : IsCanonical t) :
    ∃ key, fromCanonicalText t = some key ∧ key.text = t ∧ key.completeness = .Complete := by
  rcases h with h | h
  · obtain ⟨index, hindex⟩ := isSome_iff_exists.mp (isSome_idxOf?.mpr h)
    obtain ⟨hget, hlt⟩ := getElem?_of_idxOf? hindex
    have hcount : index < syllableKeyCount := by
      unfold syllableKeyCount
      omega
    obtain ⟨key, hkey⟩ := fromIndex_isSome hcount
    have hi := fromIndex_eq_some hkey
    refine ⟨key, by simp [fromCanonicalText, hindex, hkey], text_of_full (by rw [hi, hget]), ?_⟩
    simp [completeness, hi, hlt]
  · obtain ⟨hf, hinc⟩ := optionOnly_disjoint t h
    obtain ⟨index, hindex⟩ := isSome_iff_exists.mp (isSome_idxOf?.mpr h)
    obtain ⟨hget, hlt⟩ := getElem?_of_idxOf? hindex
    have hcount :
        fullPinyinSyllables.length + incompletePinyinKeys.length + index < syllableKeyCount := by
      unfold syllableKeyCount
      omega
    obtain ⟨key, hkey⟩ := fromIndex_isSome hcount
    have hi := fromIndex_eq_some hkey
    refine ⟨key, ?_, text_of_optionOnly hi hget, ?_⟩
    · unfold fromCanonicalText
      rw [idxOf?_eq_none_iff.mpr hf, idxOf?_eq_none_iff.mpr hinc]
      simp only [hindex, hkey]
    · unfold completeness
      rw [if_pos (by omega)]

/-- A spelling resolves exactly, at distance zero, or as an alias of a canonical
spelling, at distance one. -/
theorem fromOptionTextWithDistance_eq_some {key : SyllableKey} {distance : Nat}
    (h : fromOptionTextWithDistance t options = some (key, distance)) :
    (fromText t = some key ∧ distance = 0) ∨
      (AliasOf t key.text ∧ IsCanonical key.text ∧ key.completeness = .Complete ∧
        distance = 1) := by
  unfold fromOptionTextWithDistance at h
  split at h
  · rename_i k hk
    obtain ⟨rfl, rfl⟩ := Prod.mk.inj (some.inj h)
    exact Or.inl ⟨hk, rfl⟩
  · obtain ⟨canonical, halias, hmap⟩ := bind_eq_some_iff.mp h
    obtain ⟨k, hk, hpair⟩ := map_eq_some_iff.mp hmap
    obtain ⟨rfl, rfl⟩ := Prod.mk.inj hpair
    obtain ⟨hshape, hcanon⟩ := optionAliasCanonical_aliasOf halias
    obtain ⟨k', hk', htext, hcomp⟩ := fromCanonicalText_of_isCanonical hcanon
    obtain rfl : k' = k := some.inj (hk'.symm.trans hk)
    exact Or.inr ⟨by rw [htext]; exact hshape, by rw [htext]; exact hcanon, hcomp, rfl⟩

/-- Every spelling that resolves, under any option word, is lowercase and short. -/
theorem fromOptionText_wellSpelled {key : SyllableKey}
    (h : fromOptionText t options = some key) : WellSpelled t := by
  obtain ⟨⟨k, distance⟩, hd, rfl⟩ := map_eq_some_iff.mp h
  rcases fromOptionTextWithDistance_eq_some hd with ⟨ht, _⟩ | ⟨halias, hcanon, _, _⟩
  · obtain ⟨_, hfull | hinc⟩ := fromText_eq_some ht
    · exact fullPinyinSyllables_wellSpelled t hfull.1
    · exact incompletePinyinKeys_wellSpelled t hinc.1
  · exact wellSpelled_of_aliasOf halias hcanon

/-- Under the default options only exact spellings resolve. -/
theorem fromOptionText_default (t : Bytes) : fromOptionText t default = fromText t := by
  unfold fromOptionText fromOptionTextWithDistance
  cases fromText t with
  | some key => rfl
  | none => simp

end SyllableKey

/-- No initial-only key is a full syllable. -/
theorem incompletePinyinKeys_disjoint : ∀ t ∈ incompletePinyinKeys, t ∉ fullPinyinSyllables := by
  have hranks : ∀ t ∈ incompletePinyinKeys,
      spellingRank maxSyllableLen t ∉ fullPinyinSyllables.map (spellingRank maxSyllableLen) := by
    decide +kernel
  exact fun t ht => notMem_of_rank (hranks t ht)

end Oxpinyin
