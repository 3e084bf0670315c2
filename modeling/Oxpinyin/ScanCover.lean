import Oxpinyin.RetainedParse

/-!
# Where the keys of the scan matrix stand

Every key the split tables and the ambiguity bits add covers text of the selected path : its
text starts and ends inside the selected keys, never in the apostrophes between them
(`every_buildScanMatrixOver`). A split is measured by canonical spellings, and a correction alias can be
a byte shorter than its canonical spelling, so a half can lose a byte. `shortfall` bounds
that loss by spelling, and no row of the tables lets it empty a half.
-/

namespace Oxpinyin

open List Cuts SegmentGraph SyllableKey Columns Option ScanKey

/-! ## Keys column by column -/

namespace Columns

variable {P : Nat → ScanKey → Prop} {columns : Columns} {index : Nat} {key : ScanKey}

/-- A property of every key with its column. -/
def Every (P : Nat → ScanKey → Prop) (columns : Columns) : Prop :=
  ∀ (c : Nat) (keys : List ScanKey), columns[c]? = some keys → ∀ k ∈ keys, P c k

theorem every_replicate (n : Nat) : Every P (replicate n []) := by
  intro c keys hkeys k hk
  rw [getElem?_replicate] at hkeys
  split_ifs at hkeys
  rw [← some.inj hkeys] at hk
  simp at hk

theorem Every.push (h : columns.Every P) (hkey : P index key) : (columns.push index key).Every P := by
  intro c keys hkeys k hk
  unfold Columns.push at hkeys
  rw [getElem?_modify] at hkeys
  obtain ⟨old, hold, rfl⟩ := map_eq_some_iff.mp hkeys
  split_ifs at hk with hc
  · subst hc
    rcases mem_append.mp hk with hk | hk
    · exact h _ old hold k hk
    · rw [mem_singleton.mp hk]
      exact hkey
  · exact h c old hold k hk

theorem Every.getD (h : columns.Every P) : ∀ k ∈ columns.getD index [], P index k := by
  intro k hk
  rw [getD_eq_getElem?_getD] at hk
  cases hget : columns[index]? with
  | none => simp [hget] at hk
  | some keys =>
    rw [hget] at hk
    exact h index keys hget k hk

theorem Every.flatten (h : columns.Every P) : ∀ k ∈ columns.flatten, ∃ c, P c k := by
  intro k hk
  obtain ⟨keys, hkeys, hin⟩ := mem_flatten.mp hk
  obtain ⟨c, hc⟩ := getElem?_of_mem hkeys
  exact ⟨c, h c keys hc k hin⟩

@[simp] theorem length_push : (columns.push index key).length = columns.length :=
  length_modify ..

end Columns

theorem mem_keepFirst {column : List ScanKey} : ∀ key ∈ keepFirst column, key ∈ column := by
  unfold keepFirst
  refine foldlRecOn (motive := fun kept => ∀ key ∈ kept, key ∈ column) column _ (by simp)
    fun kept hkept key hkey => ?_
  split_ifs
  · exact hkept
  · intro k hk
    rcases mem_append.mp hk with hk | hk
    · exact hkept k hk
    · rw [mem_singleton.mp hk]
      exact hkey

/-! ## Shortfalls -/

variable {text : Bytes}

/-- How many bytes the text of a key of this spelling may fall short of it. -/
def shortfall (text : Bytes) : Nat :=
  if text ∈ ["zhua", "shua", "an", "ang"].map ascii ∨ endsWith text (ascii "ong") then 1 else 0

theorem length_le_of_aliasOf {canonical : Bytes} (h : AliasOf text canonical) :
    canonical.length ≤ text.length + shortfall canonical := by
  cases h with
  | @suffix stem from_ to_ hpair hne =>
    have hcases : ∀ pair ∈ aliasSuffixes,
        pair.2.length ≤ pair.1.length ∨ pair = (ascii "on", ascii "ong") := by decide
    rcases hcases _ hpair with hle | heq
    · simp only [length_append] at hle ⊢
      omega
    · obtain ⟨rfl, rfl⟩ := Prod.mk.inj heq
      have hends : endsWith (stem ++ ascii "ong") (ascii "ong") = true :=
        isSuffixOf_iff_suffix.mpr (suffix_append _ _)
      have hone : shortfall (stem ++ ascii "ong") = 1 := if_pos (Or.inr hends)
      rw [hone]
      simp [ascii]
  | vu hb => simp
  | sua => decide
  | zua => decide

/-- Whether a spelling has one of the five vowels. An initial-only key has none. -/
def hasVowel (text : Bytes) : Bool :=
  text.any fun b => b ∈ ascii "aeiou"

theorem completeness_of_hasVowel {key : SyllableKey}
    (h : fromText text = some key) (hvowel : hasVowel text = true) : key.completeness = .Complete := by
  have hnone : ∀ text ∈ incompletePinyinKeys, hasVowel text = false := by decide +kernel
  rcases (fromText_eq_some h).2 with ⟨_, hcomplete⟩ | ⟨hmem, _⟩
  · exact hcomplete
  · rw [hnone text hmem] at hvowel
    cases hvowel

/-- The rows of the resplit table : the halves are the pair read again, the left one ends
before the pair does, and the right one takes up the shortfalls. -/
theorem resplitTable_halves : ∀ row ∈ resplitTable, 0 < row.2.2.1.length ∧
    row.2.2.1.length + row.2.2.2.length = row.1.length + row.2.1.length ∧
    row.2.2.1.length + shortfall row.1 + shortfall row.2.1 < row.1.length + row.2.1.length ∧
    shortfall row.1 + shortfall row.2.1 ≤ shortfall row.2.2.2 ∧
    hasVowel row.2.2.1 = true ∧ hasVowel row.2.2.2 = true := by
  decide +kernel

/-- The rows of the divided table, likewise. -/
theorem dividedTable_halves : ∀ row ∈ dividedTable, 0 < row.2.1.length ∧
    row.2.1.length + row.2.2.length = row.1.length ∧
    row.2.1.length + shortfall row.1 < row.1.length ∧ shortfall row.1 ≤ shortfall row.2.2 ∧
    hasVowel row.2.1 = true ∧ hasVowel row.2.2 = true := by
  decide +kernel

/-! ## Edges -/

theorem length_toneSplit {core : Bytes} {useTone forceTone : Bool} {tone : Nat}
    (h : toneSplit text useTone forceTone = some (core, tone)) : core.length ≤ text.length := by
  have hcore : ∀ split : Bytes × Nat, split.1.length ≤ text.length →
      (if forceTone && split.2 == 0 then none
        else if split.1.takeWhile (· != 0) ≠ [] ∧
            (split.1.takeWhile (· != 0)).all isAsciiLowercase then
          some (split.1.takeWhile (· != 0), split.2)
        else none) = some (core, tone) → core.length ≤ text.length := by
    intro split hle hsplit
    split_ifs at hsplit
    rw [← (Prod.mk.inj (some.inj hsplit)).1]
    exact Nat.le_trans (List.takeWhile_prefix _).length_le hle
  unfold toneSplit at h
  refine hcore _ ?_ h
  split
  · split_ifs
    · rw [length_dropLast]
      exact Nat.sub_le _ _
    · exact Nat.le_refl _
  · exact Nat.le_refl _

/-- What an edge spells : apostrophes, then a text that falls short of its key's spelling by
no more than the shortfall. -/
theorem edgesAt_text {input : Bytes} {options : OptionBits} {node : Nat} {edge : Edge}
    (h : edge ∈ edgesAt input options node) :
    edge.from_ = node ∧ node ≤ edge.syllableStart ∧ edge.syllableStart < edge.to_ ∧
    (∀ i, node ≤ i → i < edge.syllableStart → byteIs (· == apostrophe) input i = true) ∧
    edge.syllableStart + edge.key.text.length ≤ edge.to_ + shortfall edge.key.text := by
  obtain ⟨_, l, hl, _, hspan⟩ := mem_edgesAt.mp h
  obtain ⟨key, tone, distance, hparsed, hfrom, hto, hstart, rfl, _⟩ := spanEdge_eq_some hspan
  have hfits := (parsedSpan_fits hl hparsed).1
  have hle := @le_runEnd (· == apostrophe) input node
  refine ⟨hfrom, by omega, by omega, fun i hi hlt => ?_, ?_⟩
  · exact byteIs_of_lt_runEnd hi (by omega)
  · unfold parsedSpan at hparsed
    split_ifs at hparsed
    obtain ⟨⟨core, tone'⟩, hcore, hmap⟩ := bind_eq_some_iff.mp hparsed
    obtain ⟨⟨found, distance'⟩, hfound, hpair⟩ := map_eq_some_iff.mp hmap
    obtain rfl : found = edge.key := (Prod.mk.inj hpair).1
    have hlen := length_toneSplit hcore
    rw [length_slice hfits] at hlen
    dsimp only at hfound
    rcases fromOptionTextWithDistance_eq_some hfound with ⟨hexact, _⟩ | ⟨halias, _⟩
    · rw [(fromText_eq_some hexact).1]
      omega
    · have := length_le_of_aliasOf halias
      omega

/-! ## Covered keys -/

section Cover

variable {selected : List Edge} {columns : Columns} {c : Nat} {key next : ScanKey}

/-- The byte at `i` is text of a selected key. -/
def IsText (selected : List Edge) (i : Nat) : Prop :=
  ∃ edge ∈ selected, edge.syllableStart ≤ i ∧ i < edge.to_

/-- A key over text of the selected path, and the apostrophes of a selected key if any. -/
structure Covered (selected : List Edge) (key : ScanKey) : Prop where
  crossing : key.crossesSeparator = decide (key.from_ < key.syllableStart)
  gap : key.from_ = key.syllableStart ∨ ∃ edge ∈ selected, edge.from_ = key.from_ ∧
    edge.syllableStart = key.syllableStart
  le : key.from_ ≤ key.syllableStart
  forward : key.syllableStart < key.to_
  text : ∀ i, key.syllableStart ≤ i → i < key.to_ → IsText selected i
  complete : (∀ edge ∈ selected, edge.key.completeness = .Complete) →
    key.key.completeness = .Complete

/-- A covered key in its column, no further from its spelling than the shortfall. -/
structure Placed (selected : List Edge) (c : Nat) (key : ScanKey) : Prop
    extends Covered selected key where
  column : key.from_ = c
  length : key.syllableStart + key.key.text.length ≤ key.to_ + shortfall key.key.text

variable {options : OptionBits}

/-- A selected key covers its own text. -/
theorem placed_fromEdge {input : Bytes} {edge : Edge} (hedge : edge ∈ selected)
    (hedges : edge ∈ edgesAt input options edge.from_) : Placed selected edge.from_ (fromEdge edge) := by
  obtain ⟨_, hle, hlt, _, hlen⟩ := edgesAt_text hedges
  exact ⟨⟨rfl, Or.inr ⟨edge, hedge, rfl, rfl⟩, hle, hlt, fun i hi hto => ⟨edge, hedge, hi, hto⟩,
    fun hcomplete => hcomplete edge hedge⟩, rfl, hlen⟩

theorem every_placeSelected {input : Bytes} {options : OptionBits} {bound : Nat}
    (hedges : ∀ edge ∈ selected, edge ∈ edgesAt input options edge.from_) :
    (placeSelected bound selected).Every (Placed selected) := by
  unfold placeSelected
  refine foldlRecOn (motive := Columns.Every (Placed selected)) _ _
    (every_replicate _) fun columns hcolumns key hkey => hcolumns.push ?_
  obtain ⟨edge, hedge, rfl⟩ := mem_map.mp hkey
  exact placed_fromEdge hedge (hedges edge hedge)

/-- The text of a key, read on to `stop`, splits where the left spelling ends. -/
structure Splits (selected : List Edge) (key : ScanKey) (stop : Nat) (left right : Bytes) : Prop where
  left_pos : 0 < left.length
  split_lt : key.syllableStart + left.length < stop
  text : ∀ i, key.syllableStart ≤ i → i < stop → IsText selected i
  length : key.syllableStart + left.length + right.length ≤ stop + shortfall right
  vowels : hasVowel left = true ∧ hasVowel right = true

section Splits

variable {stop : Nat} {left right : Bytes} {half : SyllableKey}

theorem Placed.leftHalf (hkey : Placed selected c key) (h : Splits selected key stop left right)
    (hhalf : fromText left = some half) :
    Placed selected key.from_ { key with key := half, to_ := key.syllableStart + left.length } := by
  have hsplit := h.split_lt
  have hpos := h.left_pos
  refine ⟨⟨hkey.crossing, hkey.gap, hkey.le, ?_, fun i hi hlt => h.text i hi ?_,
    fun _ => completeness_of_hasVowel hhalf h.vowels.1⟩, rfl, ?_⟩
  · dsimp only
    omega
  · dsimp only at hlt
    omega
  · dsimp only
    rw [(fromText_eq_some hhalf).1]
    omega

theorem Splits.rightHalf (h : Splits selected key stop left right) (hhalf : fromText right = some half) :
    Placed selected (key.syllableStart + left.length)
      ⟨half, key.syllableStart + left.length, stop, key.syllableStart + left.length, false, 0⟩ := by
  refine ⟨⟨?_, Or.inl rfl, Nat.le_refl _, h.split_lt, fun i hi hlt => h.text i ?_ hlt,
    fun _ => completeness_of_hasVowel hhalf h.vowels.2⟩, rfl, ?_⟩
  · simp
  · dsimp only at hi
    omega
  · dsimp only
    rw [(fromText_eq_some hhalf).1]
    exact h.length

/-- A row of the resplit table splits the pair it is read off. -/
theorem Placed.splits_pair {c' : Nat} {first second : Bytes} (hkey : Placed selected c key)
    (hnext : Placed selected c' next) (hmeet : key.to_ = c') (hcross : next.crossesSeparator = false)
    (hrow : (first, second, left, right) ∈ resplitTable) (hfirst : first = key.key.text)
    (hsecond : second = next.key.text) : Splits selected key next.to_ left right := by
  obtain ⟨hleft, hsum, hroom, hshort, hvowels⟩ := resplitTable_halves _ hrow
  rw [hfirst, hsecond] at hsum hroom hshort
  dsimp only at hleft hsum hroom hshort
  rw [hnext.crossing, decide_eq_false_iff_not, Nat.not_lt] at hcross
  have hkeyLen := hkey.length
  have hnextLen := hnext.length
  have hle := hnext.le
  have hcolumn := hnext.column
  refine ⟨hleft, by omega, fun i hi hlt => ?_, by omega, hvowels⟩
  -- the pair meets without a gap
  rcases Nat.lt_or_ge i key.to_ with hbefore | hbehind
  · exact hkey.text i hi hbefore
  · exact hnext.text i (by omega) hlt

/-- A row of the divided table splits its key. -/
theorem Placed.splits_key {text : Bytes} (hkey : Placed selected c key)
    (hrow : (text, left, right) ∈ dividedTable) (htext : text = key.key.text) :
    Splits selected key key.to_ left right := by
  obtain ⟨hleft, hsum, hroom, hshort, hvowels⟩ := dividedTable_halves _ hrow
  rw [htext] at hsum hroom hshort
  dsimp only at hleft hsum hroom hshort
  have hlen := hkey.length
  exact ⟨hleft, by omega, hkey.text, by omega, hvowels⟩

/-- Two halves of text of the path. -/
theorem Columns.Every.appendSplit (h : columns.Every (Placed selected))
    (hkey : Placed selected c key) (hsplits : Splits selected key stop left right) :
    (appendSplit columns key stop left right).Every (Placed selected) := by
  unfold Oxpinyin.appendSplit
  split
  · rename_i leftKey rightKey hleftKey hrightKey
    dsimp only
    split_ifs
    · exact h
    · exact (h.push (hkey.leftHalf hsplits hleftKey)).push (hsplits.rightHalf hrightKey)
  · exact h

end Splits

theorem Columns.Every.resplitPair {c' : Nat} (h : columns.Every (Placed selected))
    (hkey : Placed selected c key) (hnext : Placed selected c' next) (hmeet : key.to_ = c') :
    (resplitPair key columns next).Every (Placed selected) := by
  unfold Oxpinyin.resplitPair
  split_ifs with hskip
  · exact h
  · split
    · rename_i first second left right hrow
      have hcross : next.crossesSeparator = false := by
        rw [← Bool.not_eq_true]
        exact fun hc => hskip (Or.inl hc)
      have htexts := find?_some hrow
      simp only [Bool.and_eq_true, beq_iff_eq] at htexts
      exact h.appendSplit hkey (hkey.splits_pair hnext hmeet hcross (mem_of_find?_eq_some hrow) htexts.1 htexts.2)
    · exact h

theorem Columns.Every.resplitStep (h : columns.Every (Placed selected)) :
    (resplitStep columns).Every (Placed selected) := by
  unfold Oxpinyin.resplitStep
  refine foldlRecOn (motive := Columns.Every (Placed selected)) _ _ h fun columns hcolumns index _ => ?_
  refine foldlRecOn (motive := Columns.Every (Placed selected)) _ _ hcolumns
    fun columns' hcolumns' key hkey => ?_
  unfold resplitKey
  split
  · rename_i nexts hnexts
    refine foldlRecOn (motive := Columns.Every (Placed selected)) _ _ hcolumns'
      fun columns'' hcolumns'' next hnext => ?_
    exact hcolumns''.resplitPair (hcolumns.getD key hkey) (hcolumns' _ _ hnexts next hnext) rfl
  · exact hcolumns'

theorem Columns.Every.innerSplitStep (h : columns.Every (Placed selected)) :
    (innerSplitStep columns).Every (Placed selected) := by
  unfold Oxpinyin.innerSplitStep
  refine foldlRecOn (motive := Columns.Every (Placed selected)) _ _ h fun columns hcolumns index _ => ?_
  refine foldlRecOn (motive := Columns.Every (Placed selected)) _ _ hcolumns
    fun columns' hcolumns' key hmem => ?_
  have hkey := hcolumns.getD key hmem
  unfold dividedKey
  split_ifs
  · exact hcolumns'
  · split
    · rename_i text left right hrow
      have htext := find?_some hrow
      simp only [beq_iff_eq] at htext
      exact hcolumns'.appendSplit hkey (hkey.splits_key (mem_of_find?_eq_some hrow) htext)
    · exact hcolumns'

theorem Columns.Every.keepFirst {P : Nat → ScanKey → Prop} (h : columns.Every P) :
    Columns.Every P (columns.map Oxpinyin.keepFirst) := by
  intro c keys hkeys key hkey
  rw [getElem?_map] at hkeys
  obtain ⟨old, hold, rfl⟩ := map_eq_some_iff.mp hkeys
  exact h c old hold key (mem_keepFirst key hkey)

/-- An alternate stands where its key does. -/
theorem Columns.Every.fuzzy (h : columns.Every (Placed selected)) :
    Columns.Every (fun c key => Covered selected key ∧ key.from_ = c) ((fuzzyAdditions columns options).foldl
        (fun columns addition => Columns.push columns addition.from_ addition) columns) := by
  refine foldlRecOn (motive := Columns.Every fun c key =>
    Covered selected key ∧ key.from_ = c) _ _ (fun c keys hkeys key hkey => ?_)
    fun current hcurrent addition haddition => hcurrent.push ⟨?_, rfl⟩
  · have hplaced := h c keys hkeys key hkey
    exact ⟨hplaced.toCovered, hplaced.column⟩
  · obtain ⟨⟨column, position⟩, hcolumn, hin⟩ := mem_flatMap.mp haddition
    obtain ⟨key, hkey, hin⟩ := mem_flatMap.mp hin
    obtain ⟨alternate, halternate, rfl⟩ := mem_map.mp hin
    have hplaced := h position column (mem_zipIdx_iff_getElem?.mp hcolumn) key hkey
    have hposition := hplaced.column
    rw [← hposition]
    exact { hplaced.toCovered with
      complete := fun hcomplete =>
        completeness_of_mem_fuzzyAlternatives (hplaced.complete hcomplete) halternate }

/-- Every key of the scan matrix covers text of the selected path. -/
theorem every_buildScanMatrixOver {input : Bytes} {graph : SegmentGraph}
    {divided : Bool} (hedges : ∀ edge ∈ selected, edge ∈ edgesAt input options edge.from_) :
    (buildScanMatrixOver graph selected options divided).Every fun c key =>
      Covered selected key ∧ key.from_ = c := by
  have hplaced := @every_placeSelected selected input options graph.consumed hedges
  unfold buildScanMatrixOver extendMatrix
  refine (Columns.Every.fuzzy ?_).keepFirst
  split_ifs
  · exact hplaced.resplitStep.innerSplitStep
  · exact hplaced.innerSplitStep
  · exact hplaced.resplitStep
  · exact hplaced

end Cover

/-! ## The end of the path -/

section HasEnd

variable {columns : Columns} {stop : Nat}

/-- Some key ends at `stop`. -/
def HasEnd (columns : Columns) (stop : Nat) : Prop :=
  ∃ (c : Nat) (keys : List ScanKey), columns[c]? = some keys ∧ ∃ key ∈ keys, key.to_ = stop

section

variable (h : HasEnd columns stop)
include h

theorem HasEnd.push (index : Nat) (key : ScanKey) : HasEnd (columns.push index key) stop := by
  obtain ⟨c, keys, hkeys, found, hfound, hstop⟩ := h
  refine ⟨c, if index = c then keys ++ [key] else keys, ?_, found, ?_, hstop⟩
  · unfold Columns.push
    rw [getElem?_modify, hkeys]
    rfl
  · split_ifs
    · exact mem_append_left _ hfound
    · exact hfound

theorem HasEnd.appendSplit (key : ScanKey) (to_ : Nat) (left right : Bytes) :
    HasEnd (appendSplit columns key to_ left right) stop := by
  unfold Oxpinyin.appendSplit
  split
  · dsimp only
    split_ifs
    · exact h
    · exact (h.push _ _).push _ _
  · exact h

theorem HasEnd.resplitStep : HasEnd (resplitStep columns) stop := by
  unfold Oxpinyin.resplitStep
  refine foldlRecOn (motive := fun columns => HasEnd columns stop) _ _ h fun columns hcolumns index _ => ?_
  refine foldlRecOn (motive := fun columns => HasEnd columns stop) _ _ hcolumns
    fun columns' hcolumns' key hkey => ?_
  unfold resplitKey
  split
  · refine foldlRecOn (motive := fun columns => HasEnd columns stop) _ _ hcolumns'
      fun columns'' hcolumns'' next hnext => ?_
    unfold resplitPair
    split_ifs
    · exact hcolumns''
    · split
      · exact hcolumns''.appendSplit _ _ _ _
      · exact hcolumns''
  · exact hcolumns'

theorem HasEnd.innerSplitStep : HasEnd (innerSplitStep columns) stop := by
  unfold Oxpinyin.innerSplitStep
  refine foldlRecOn (motive := fun columns => HasEnd columns stop) _ _ h fun columns hcolumns index _ => ?_
  refine foldlRecOn (motive := fun columns => HasEnd columns stop) _ _ hcolumns
    fun columns' hcolumns' key hkey => ?_
  unfold dividedKey
  split_ifs
  · exact hcolumns'
  · split
    · exact hcolumns'.appendSplit _ _ _ _
    · exact hcolumns'

end

/-- The first of the duplicates of a key has its end. -/
theorem keepFirst_end {column : List ScanKey} : ∀ key ∈ column,
    ∃ found ∈ keepFirst column, found.to_ = key.to_ := by
  have hkeeps : ∀ (rest kept : List ScanKey), ∀ key ∈ kept ++ rest,
      ∃ found ∈ rest.foldl (fun kept key => if kept.any fun earlier =>
        earlier.key == key.key && earlier.to_ == key.to_ && earlier.tone == key.tone then kept
        else kept ++ [key]) kept, found.to_ = key.to_ := by
    intro rest
    induction rest with
    | nil =>
      intro kept key hkey
      exact ⟨key, by simpa using hkey, rfl⟩
    | cons first rest ih =>
      intro kept key hkey
      rw [foldl_cons]
      split_ifs with hduplicate
      · rcases mem_append.mp hkey with hkept | hkey
        · exact ih kept key (mem_append_left _ hkept)
        · rcases mem_cons.mp hkey with rfl | hrest
          · obtain ⟨earlier, hearlier, hsame⟩ := any_eq_true.mp hduplicate
            simp only [Bool.and_eq_true, beq_iff_eq] at hsame
            rw [← hsame.1.2]
            exact ih kept earlier (mem_append_left _ hearlier)
          · exact ih kept key (mem_append_right _ hrest)
      · refine ih (kept ++ [first]) key ?_
        rw [append_assoc]
        exact hkey
  exact fun key hkey => hkeeps column [] key hkey

theorem hasEnd_placeSelected {selected : List Edge} {edge : Edge} {bound : Nat}
    (hedge : edge ∈ selected) (hbound : edge.from_ ≤ bound) : HasEnd (placeSelected bound selected) edge.to_ := by
  have hplace : ∀ (keys : List ScanKey) (columns : Columns), columns.length = bound + 1 →
      (HasEnd columns edge.to_ ∨ fromEdge edge ∈ keys) →
      HasEnd (keys.foldl (fun columns key => push columns key.from_ key) columns)
        edge.to_ := by
    intro keys
    induction keys with
    | nil => exact fun columns _ h => h.resolve_right (by simp)
    | cons first rest ih =>
      intro columns hlength h
      rw [foldl_cons]
      refine ih _ (by rw [length_push, hlength]) ?_
      rcases h with h | h
      · exact Or.inl (h.push _ _)
      · rcases mem_cons.mp h with rfl | h
        · have hget := getElem?_eq_getElem (show edge.from_ < columns.length by omega)
          refine Or.inl ⟨edge.from_, columns[edge.from_] ++ [fromEdge edge], ?_,
            fromEdge edge, mem_append_right _ (mem_singleton_self _), rfl⟩
          unfold push
          rw [getElem?_modify, hget]
          simp [fromEdge]
        · exact Or.inr h
  exact hplace _ _ length_replicate (Or.inr (mem_map_of_mem hedge))

/-- The scan matrix keeps the ends of the selected keys. -/
theorem hasEnd_buildScanMatrixOver {graph : SegmentGraph} {selected : List Edge}
    {options : OptionBits} {divided : Bool} {edge : Edge} (hedge : edge ∈ selected)
    (hbound : edge.from_ ≤ graph.consumed) : HasEnd (buildScanMatrixOver graph selected options divided)
    edge.to_ := by
  have hplaced := hasEnd_placeSelected hedge hbound
  unfold buildScanMatrixOver extendMatrix
  have hfuzzy : ∀ columns : Columns, HasEnd columns edge.to_ →
      HasEnd (((fuzzyAdditions columns options).foldl
        (fun columns addition => push columns addition.from_ addition) columns).map
          keepFirst) edge.to_ := by
    intro columns hcolumns
    obtain ⟨c, keys, hkeys, key, hkey, hstop⟩ := foldlRecOn
      (motive := fun columns => HasEnd columns edge.to_) (fuzzyAdditions columns options)
      (fun columns addition => push columns addition.from_ addition) hcolumns
      fun current hcurrent addition _ => hcurrent.push _ _
    obtain ⟨found, hfound, hsame⟩ := keepFirst_end key hkey
    refine ⟨c, keepFirst keys, ?_, found, hfound, hsame.trans hstop⟩
    rw [getElem?_map, hkeys]
    rfl
  refine hfuzzy _ ?_
  split_ifs
  · exact hplaced.resplitStep.innerSplitStep
  · exact hplaced.innerSplitStep
  · exact hplaced.resplitStep
  · exact hplaced

end HasEnd

end Oxpinyin
