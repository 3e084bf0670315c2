import Oxpinyin.ExactGraph
import Oxpinyin.FullPinyinIndex
import Oxpinyin.ZhuyinParser

/-!
# Session offsets

The schemes with a parser of their own drive the decoder with the spellings of their keys, joined by
apostrophes. The mappers take offsets of the input to offsets of that text and back. `offsets_agree` :
they agree with each other and with the edges of the graph of the keys at every key.
-/

namespace Oxpinyin.Offsets

open List Option SegmentGraph Search Zhuyin DoublePinyin SyllableKey FullPinyinIndex

/-! ## The mappers -/

/-- The walk of the original mappers, over the end and the spelling's length of each key. -/
def originalWalk (consumed offset : Nat) : List (Nat × Nat) → Nat → Nat
  | [], _ => consumed
  | (stop, len) :: keys, transformed =>
    if offset ≤ transformed + len then stop else originalWalk consumed offset keys (transformed + len + 1)

/-- The walk of the session mappers, from a column and the start of the next spelling. -/
def columnWalk (offset : Nat) : List (Nat × Nat) → Nat → Nat → Nat
  | [], column, _ => column
  | (stop, len) :: keys, column, textStart =>
    if offset < stop then column else columnWalk offset keys (textStart + len) (textStart + len + 1)

def sessionColumn (keys : List (Nat × Nat)) (offset : Nat) : Nat := columnWalk offset keys 0 0

def doubleOriginalOffset (parse : DoublePinyin.DoublePinyinParse) (offset : Nat) : Nat :=
  originalWalk parse.consumed offset (parse.keys.map fun item => (item.stop, item.key.text.length)) 0

def zhuyinOriginalOffset (parse : Zhuyin.ZhuyinParse) (offset : Nat) : Nat :=
  originalWalk parse.consumed offset (parse.keys.map fun item => (item.stop, item.key.text.length)) 0

/-- The original start of a key whose spelling starts at an offset. -/
def zhuyinOriginalBegin (parse : Zhuyin.ZhuyinParse) (start : Nat) : Nat :=
  match start with
  | 0 => 0
  | before + 1 => zhuyinOriginalOffset parse before

def fullOriginalOffset (parse : FullPinyinIndex.FullPinyinIndexParse) (offset : Nat) : Nat :=
  originalWalk parse.consumed offset (parse.keys.map fun item => (item.stop, item.canonical.length)) 0

def doubleSessionOffset (parse : DoublePinyin.DoublePinyinParse) (offset : Nat) : Nat :=
  sessionColumn (parse.keys.map fun item => (item.stop, item.key.text.length)) offset

def zhuyinSessionOffset (parse : Zhuyin.ZhuyinParse) (offset : Nat) : Nat :=
  sessionColumn (parse.keys.map fun item => (item.stop, item.key.text.length)) offset

def fullSessionOffset (parse : FullPinyinIndex.FullPinyinIndexParse) (offset : Nat) : Nat :=
  sessionColumn (parse.keys.map fun item => (item.stop, item.canonical.length)) offset

/-! ## The decoder's input -/

/-- Adds a key to the text and the segments. -/
def exactStep (state : Bytes × List ExactSegment) (item : SyllableKey × Nat) : Bytes × List ExactSegment :=
  let text := if state.1.isEmpty then state.1 else state.1 ++ [apostrophe]
  let start := text.length
  let text := text ++ item.1.text
  (text, state.2 ++ [⟨start, text.length, item.1, item.2⟩])

/-- The text and the segments of keys with their tones. -/
def exactInput (keys : List (SyllableKey × Nat)) : Bytes × List ExactSegment := keys.foldl exactStep ([], [])

def doubleKeys (parse : DoublePinyin.DoublePinyinParse) : List (SyllableKey × Nat) :=
  parse.keys.map fun item => (item.key, item.tone)

def zhuyinKeys (parse : Zhuyin.ZhuyinParse) : List (SyllableKey × Nat) :=
  parse.keys.map fun item => (item.key, item.tone)

/-- The spellings of an index parse, joined. -/
def fullPinyin (parse : FullPinyinIndex.FullPinyinIndexParse) : Bytes :=
  [apostrophe].intercalate (parse.keys.map (·.canonical))

/-- Adds a key of an index parse to the segments. A spelling of no syllable is left out. -/
def fullStep (state : List ExactSegment × Nat) (key : FullPinyinIndex.FullPinyinIndexKey) : List ExactSegment × Nat :=
  let start := state.2
  let offset := start + key.canonical.length + 1
  let segment := (SyllableKey.fromCanonicalText key.canonical).map fun syllable =>
    (⟨start, offset - 1, syllable, key.tone⟩ : ExactSegment)
  (state.1 ++ segment.toList, offset)

/-- The segments of an index parse. -/
def fullSegments (parse : FullPinyinIndex.FullPinyinIndexParse) : List ExactSegment :=
  (parse.keys.foldl fullStep ([], 0)).1

/-! ## Joined spellings -/

/-- The length of the first spellings, joined. Those up to a key end with it, and those in front of it end
where its edge begins. -/
def joinedLength (texts : List Bytes) (count : Nat) : Nat := ([apostrophe].intercalate (texts.take count)).length

section Joined

variable {texts : List Bytes} {text : Bytes}

theorem joinedLength_zero : joinedLength texts 0 = 0 := rfl

theorem joinedLength_one : joinedLength (text :: texts) 1 = text.length := by
  simp [joinedLength, intercalate]

theorem intercalate_cons (h : texts ≠ []) :
    [apostrophe].intercalate (text :: texts) = text ++ apostrophe :: [apostrophe].intercalate texts := by
  cases texts with
  | nil => exact absurd rfl h
  | cons next texts => simp [intercalate, intersperse]

theorem joinedLength_succ {count : Nat} (h : count < texts.length) :
    joinedLength (text :: texts) (count + 2) = text.length + 1 + joinedLength texts (count + 1) := by
  have hne : texts.take (count + 1) ≠ [] := by
    rw [Ne, take_eq_nil_iff]
    rintro (hzero | rfl)
    · omega
    · cases h
  rw [joinedLength, take_succ_cons, intercalate_cons hne, length_append, length_cons, joinedLength]
  omega

/-- Every key adds its apostrophe at least. -/
theorem joinedLength_lt : ∀ {texts : List Bytes} {count : Nat}, 0 < count → count < texts.length →
    joinedLength texts count < joinedLength texts (count + 1)
  | [], count, _, h => by cases h
  | text :: texts, 1, _, h => by
    rw [joinedLength_one, joinedLength_succ (Nat.lt_of_succ_lt_succ h)]
    omega
  | text :: texts, count + 2, _, h => by
    have hcount : count + 1 < texts.length := Nat.lt_of_succ_lt_succ h
    rw [joinedLength_succ (Nat.lt_of_succ_lt hcount), joinedLength_succ hcount]
    exact Nat.add_lt_add_left (joinedLength_lt (Nat.succ_pos count) hcount) _

/-- Every spelling is a byte at least, and an apostrophe parts it from the next. -/
theorem length_le_intercalate : ∀ {texts : List Bytes}, (∀ text ∈ texts, text ≠ []) →
    2 * texts.length ≤ ([apostrophe].intercalate texts).length + 1
  | [], _ => Nat.zero_le _
  | text :: texts, h => by
    obtain ⟨htext, htexts⟩ := forall_mem_cons.mp h
    have hpos := length_pos_of_ne_nil htext
    have hrest := length_le_intercalate htexts
    by_cases hnil : texts = []
    · rw [hnil, length_singleton]
      simp only [intercalate, intersperse_singleton, flatten_singleton]
      omega
    · rw [intercalate_cons hnil, length_append, length_cons, length_cons]
      omega

end Joined

/-! ## The walks -/

section Walks

/-- The keys as the mappers read them. -/
def measures (keys : List (Nat × Bytes)) : List (Nat × Nat) := keys.map fun key => (key.1, key.2.length)

variable {keys : List (Nat × Bytes)} {consumed offset other : Nat}

/-- An offset up to the end of a spelling, and past the one before, is mapped to the end of its key. -/
theorem originalWalk_key : ∀ {keys : List (Nat × Bytes)} {i : Nat} {key : Nat × Bytes} {transformed : Nat},
    keys[i]? = some key → (i = 0 ∨ transformed + joinedLength (keys.map (·.2)) i < offset) →
    offset ≤ transformed + joinedLength (keys.map (·.2)) (i + 1) →
    originalWalk consumed offset (measures keys) transformed = key.1
  | first :: keys, 0, key, transformed, hkey, _, hhigh => by
    obtain rfl := some.inj hkey
    rw [map_cons, joinedLength_one] at hhigh
    exact if_pos hhigh
  | first :: keys, i + 1, key, transformed, hkey, hlow, hhigh => by
    have hi : i < (keys.map (·.2)).length := by
      rw [length_map]
      exact Nat.lt_of_succ_lt_succ (List.getElem?_eq_some_iff.mp hkey).1
    rw [map_cons, joinedLength_succ hi] at hhigh
    have hpast : ¬ offset ≤ transformed + first.2.length ∧
        (i = 0 ∨ transformed + first.2.length + 1 + joinedLength (keys.map (·.2)) i < offset) := by
      cases i with
      | zero =>
        rw [map_cons, joinedLength_one] at hlow
        exact ⟨by omega, Or.inl rfl⟩
      | succ i =>
        rw [map_cons, joinedLength_succ (Nat.lt_of_succ_lt hi)] at hlow
        exact ⟨by omega, Or.inr (by omega)⟩
    have hrest := @originalWalk_key keys i key (transformed + first.2.length + 1) hkey hpast.2 (by omega)
    exact (if_neg hpast.1).trans hrest

theorem le_originalWalk {low : Nat} (hconsumed : low ≤ consumed) : ∀ {keys : List (Nat × Bytes)} {transformed : Nat},
    (∀ key ∈ keys, low ≤ key.1) → low ≤ originalWalk consumed offset (measures keys) transformed
  | [], _, _ => hconsumed
  | first :: keys, transformed, hlow => by
    obtain ⟨hfirst, hkeys⟩ := forall_mem_cons.mp hlow
    change low ≤ if offset ≤ transformed + first.2.length then first.1 else _
    split_ifs
    · exact hfirst
    · exact le_originalWalk hconsumed hkeys

theorem originalWalk_mono (hle : offset ≤ other) : ∀ {keys : List (Nat × Bytes)} {transformed : Nat},
    (keys.Pairwise fun key later => key.1 < later.1) → (∀ key ∈ keys, key.1 ≤ consumed) →
    originalWalk consumed offset (measures keys) transformed ≤ originalWalk consumed other (measures keys) transformed
  | [], _, _, _ => Nat.le_refl _
  | first :: keys, transformed, hascending, hconsumed => by
    obtain ⟨hfirst, hkeys⟩ := pairwise_cons.mp hascending
    obtain ⟨hend, hends⟩ := forall_mem_cons.mp hconsumed
    change (if offset ≤ transformed + first.2.length then first.1 else _) ≤
      if other ≤ transformed + first.2.length then first.1 else _
    split_ifs with hat hother hother
    · exact Nat.le_refl _
    · exact le_originalWalk hend fun key hkey => Nat.le_of_lt (hfirst key hkey)
    · omega
    · exact originalWalk_mono hle hkeys hends

/-- An offset in front of the end of a key, and past those before, is mapped to the column of the key. -/
theorem columnWalk_key : ∀ {keys : List (Nat × Bytes)} {i : Nat} {key : Nat × Bytes} {column textStart : Nat},
    keys[i]? = some key → (∀ before ∈ keys.take i, before.1 ≤ offset) → offset < key.1 →
    columnWalk offset (measures keys) column textStart =
      if i = 0 then column else textStart + joinedLength (keys.map (·.2)) i
  | first :: keys, 0, key, column, textStart, hkey, _, hlt => by
    obtain rfl := some.inj hkey
    exact if_pos hlt
  | first :: keys, i + 1, key, column, textStart, hkey, hbefore, hlt => by
    have hi : i < (keys.map (·.2)).length := by
      rw [length_map]
      exact Nat.lt_of_succ_lt_succ (List.getElem?_eq_some_iff.mp hkey).1
    rw [take_succ_cons] at hbefore
    obtain ⟨hfirst, hbefore⟩ := forall_mem_cons.mp hbefore
    have hrest := @columnWalk_key keys i key (textStart + first.2.length)
      (textStart + first.2.length + 1) hkey hbefore hlt
    refine (if_neg (Nat.not_lt.mpr hfirst)).trans (hrest.trans ?_)
    rw [if_neg (Nat.succ_ne_zero i), map_cons]
    cases i with
    | zero => rw [if_pos rfl, joinedLength_one]
    | succ i =>
      rw [if_neg (Nat.succ_ne_zero i), joinedLength_succ (Nat.lt_of_succ_lt hi)]
      omega

/-- An offset past all keys is mapped to the end of the text. -/
theorem columnWalk_end : ∀ {keys : List (Nat × Bytes)} {column textStart : Nat}, (∀ key ∈ keys, key.1 ≤ offset) →
    columnWalk offset (measures keys) column textStart =
      if keys.length = 0 then column else textStart + joinedLength (keys.map (·.2)) keys.length
  | [], _, _, _ => rfl
  | first :: keys, column, textStart, hkeys => by
    obtain ⟨hfirst, hkeys⟩ := forall_mem_cons.mp hkeys
    have hrest := @columnWalk_end keys (textStart + first.2.length) (textStart + first.2.length + 1) hkeys
    refine (if_neg (Nat.not_lt.mpr hfirst)).trans (hrest.trans ?_)
    rw [length_cons, if_neg (Nat.succ_ne_zero _), map_cons]
    cases keys with
    | nil => rw [length_nil, if_pos rfl, joinedLength_one]
    | cons next keys =>
      rw [length_cons, if_neg (Nat.succ_ne_zero _), joinedLength_succ (by simp)]
      omega

theorem le_columnWalk : ∀ {keys : List (Nat × Bytes)} {column textStart : Nat}, column ≤ textStart →
    column ≤ columnWalk offset (measures keys) column textStart
  | [], column, _, _ => Nat.le_refl column
  | first :: keys, column, textStart, hle => by
    change column ≤ if offset < first.1 then column else _
    split_ifs
    · exact Nat.le_refl column
    · exact Nat.le_trans (Nat.le_add_right_of_le hle) (le_columnWalk (Nat.le_succ _))

theorem columnWalk_mono (hle : offset ≤ other) : ∀ {keys : List (Nat × Bytes)} {column textStart : Nat},
    column ≤ textStart →
    columnWalk offset (measures keys) column textStart ≤ columnWalk other (measures keys) column textStart
  | [], _, _, _ => Nat.le_refl _
  | first :: keys, column, textStart, hcolumn => by
    change (if offset < first.1 then column else _) ≤ if other < first.1 then column else _
    split_ifs with hat hother hother
    · exact Nat.le_refl column
    · exact Nat.le_trans (Nat.le_add_right_of_le hcolumn) (le_columnWalk (Nat.le_succ _))
    · omega
    · exact columnWalk_mono hle (Nat.le_succ _)

end Walks

/-! ## The laws of the mappers -/

/-- The end of the key before a key, the start of the input for the first. -/
def endBefore (keys : List (Nat × Bytes)) : Nat → Nat
  | 0 => 0
  | i + 1 => ((keys[i]?).map (·.1)).getD 0

/-- What the mappers of keys, by their ends and spellings, are to be. -/
structure MapsOffsets (keys : List (Nat × Bytes)) (session original : Nat → Nat) : Prop where
  session_key : ∀ i key, keys[i]? = some key → ∀ offset, endBefore keys i ≤ offset → offset < key.1 →
    session offset = joinedLength (keys.map (·.2)) i
  session_end : ∀ offset, (∀ key ∈ keys, key.1 ≤ offset) →
    session offset = ([apostrophe].intercalate (keys.map (·.2))).length
  original_key : ∀ i key, keys[i]? = some key → ∀ offset, (i = 0 ∨ joinedLength (keys.map (·.2)) i < offset) →
    offset ≤ joinedLength (keys.map (·.2)) (i + 1) → original offset = key.1
  session_mono : Monotone session
  original_mono : Monotone original
  original_session : ∀ key ∈ keys, original (session key.1) = key.1

/-- Keys that end one behind the other within what is consumed. -/
theorem mapsOffsets {keys : List (Nat × Bytes)} {consumed : Nat}
    (hascending : keys.Pairwise fun key later => key.1 < later.1) (hconsumed : ∀ key ∈ keys, key.1 ≤ consumed) :
    MapsOffsets keys (sessionColumn (measures keys)) fun offset =>
      originalWalk consumed offset (measures keys) 0 := by
  have hkey : ∀ i key, keys[i]? = some key → ∀ offset, endBefore keys i ≤ offset → offset < key.1 →
      sessionColumn (measures keys) offset = joinedLength (keys.map (·.2)) i := by
    intro i key hkey offset hlow hhigh
    have hbefore : ∀ before ∈ keys.take i, before.1 ≤ offset := by
      cases i with
      | zero => simp
      | succ i =>
        have hi : i < keys.length := Nat.lt_of_succ_lt (List.getElem?_eq_some_iff.mp hkey).1
        rw [endBefore, getElem?_eq_getElem hi] at hlow
        intro before hbefore
        obtain ⟨j, hj, rfl⟩ := mem_take_iff_getElem.mp hbefore
        rcases Nat.lt_or_ge j i with hlt | hge
        · have hlater := pairwise_iff_getElem.mp hascending j i (by omega) hi hlt
          exact Nat.le_of_lt (Nat.lt_of_lt_of_le hlater hlow)
        · obtain rfl : j = i := by omega
          exact hlow
    rw [sessionColumn, columnWalk_key hkey hbefore hhigh]
    split_ifs with hi
    · rw [hi, joinedLength_zero]
    · exact Nat.zero_add _
  have hend : ∀ offset, (∀ key ∈ keys, key.1 ≤ offset) →
      sessionColumn (measures keys) offset = joinedLength (keys.map (·.2)) keys.length := by
    intro offset hpast
    rw [sessionColumn, columnWalk_end hpast]
    split_ifs with hnil
    · rw [hnil, joinedLength_zero]
    · exact Nat.zero_add _
  refine ⟨hkey, fun offset hpast => ?_, fun i key hkey offset hlow hhigh => ?_,
    fun offset other hle => columnWalk_mono hle (Nat.le_refl 0),
    fun offset other hle => originalWalk_mono hle hascending hconsumed, fun key hmem => ?_⟩
  · rw [hend offset hpast, joinedLength, take_of_length_le (by simp)]
  · exact originalWalk_key hkey (hlow.imp id fun hlow => by rwa [Nat.zero_add]) (by rwa [Nat.zero_add])
  · obtain ⟨i, hi⟩ := getElem?_of_mem hmem
    have hlength := (List.getElem?_eq_some_iff.mp hi).1
    -- the end of a key is the column of the next one, or the end of the text
    have hsession : sessionColumn (measures keys) key.1 = joinedLength (keys.map (·.2)) (i + 1) := by
      cases hnext : keys[i + 1]? with
      | some next =>
        have hlater := pairwise_iff_getElem.mp hascending i (i + 1) hlength (List.getElem?_eq_some_iff.mp hnext).1
          (Nat.lt_succ_self i)
        rw [(List.getElem?_eq_some_iff.mp hi).2, (List.getElem?_eq_some_iff.mp hnext).2] at hlater
        refine hkey (i + 1) next hnext key.1 ?_ hlater
        rw [endBefore, hi]
        exact Nat.le_refl _
      | none =>
        have hlast : keys.length = i + 1 := Nat.le_antisymm (getElem?_eq_none_iff.mp hnext) hlength
        rw [← hlast]
        refine hend key.1 fun other hother => ?_
        obtain ⟨j, hj⟩ := getElem?_of_mem hother
        have hjlength := (List.getElem?_eq_some_iff.mp hj).1
        rcases Nat.lt_or_ge j i with hlt | hge
        · have hlater := pairwise_iff_getElem.mp hascending j i hjlength hlength hlt
          rw [(List.getElem?_eq_some_iff.mp hi).2, (List.getElem?_eq_some_iff.mp hj).2] at hlater
          exact Nat.le_of_lt hlater
        · obtain rfl : j = i := by omega
          rw [hi] at hj
          cases hj
          exact Nat.le_refl _
    rw [hsession]
    refine originalWalk_key hi ?_ (by rw [Nat.zero_add])
    rcases Nat.eq_zero_or_pos i with hzero | hpos
    · exact Or.inl hzero
    · rw [Nat.zero_add]
      exact Or.inr (joinedLength_lt hpos (by simpa using hlength))

/-! ## The segments -/

/-- The segments of spelled keys behind a position. -/
def segmentsFrom : Nat → List (Bytes × SyllableKey × Nat) → List ExactSegment
  | _, [] => []
  | start, (text, key, tone) :: items =>
    ⟨start, start + text.length, key, tone⟩ :: segmentsFrom (start + text.length + 1) items

section Segments

variable {items : List (Bytes × SyllableKey × Nat)} {input : Bytes} {start p : Nat}

/-- Segments that the joined text spells follow each other. -/
theorem follows_segmentsFrom : ∀ {items : List (Bytes × SyllableKey × Nat)} {start p : Nat},
    (∀ item ∈ items, item.1 ≠ []) → (items ≠ [] → (start = p ∨ start = p + 1 ∧ input[p]? = some apostrophe) ∧
      input.drop start = [apostrophe].intercalate (items.map (·.1))) → Follows input p (segmentsFrom start items)
  | [], _, _, _, _ => trivial
  | (text, key, tone) :: items, start, p, hnonempty, hspelled => by
    obtain ⟨htext, hnonempty⟩ := forall_mem_cons.mp hnonempty
    obtain ⟨hstart, hspelled⟩ := hspelled (cons_ne_nil _ _)
    have hpos : 0 < text.length := length_pos_of_ne_nil htext
    obtain ⟨rest, hrest, hnext⟩ : ∃ rest, input.drop start = text ++ rest ∧
        (items ≠ [] → rest = apostrophe :: [apostrophe].intercalate (items.map (·.1))) := by
      by_cases hitems : items = []
      · exact ⟨[], by rw [hspelled, hitems]; simp [intercalate], fun hne => absurd hitems hne⟩
      · exact ⟨_, hspelled.trans (intercalate_cons (by simpa using hitems)), fun _ => rfl⟩
    have hinside : start + text.length ≤ input.length := by
      have hlength := congrArg length hrest
      rw [length_drop, length_append] at hlength
      omega
    have hget : ∀ i, input[start + i]? = (text ++ rest)[i]? := fun i => by rw [← hrest, getElem?_drop]
    refine ⟨Nat.lt_add_of_pos_right hpos, ?_, hinside, ?_,
      follows_segmentsFrom hnonempty fun hitems => ⟨Or.inr ⟨rfl, ?_⟩, ?_⟩⟩
    · dsimp only
      rcases hstart with rfl | ⟨rfl, _⟩ <;> omega
    · rcases hstart with rfl | ⟨rfl, happ⟩
      · simp [slice]
      · rw [Nat.add_sub_cancel_left, slice, List.all_eq_true]
        intro byte hbyte
        rw [take_one, head?_drop, happ, mem_toList] at hbyte
        rw [← some.inj hbyte, beq_self_eq_true]
    · rw [hget, getElem?_append_right (Nat.le_refl _), Nat.sub_self, hnext hitems]
      rfl
    · have hdrop := congrArg (drop (text.length + 1)) hrest
      rw [drop_drop, hnext hitems, drop_append] at hdrop
      rw [Nat.add_assoc, hdrop, drop_eq_nil_of_le (Nat.le_succ _), Nat.add_sub_cancel_left]
      rfl

/-- Where the spelling of a key starts in the joined text. -/
def textStart (texts : List Bytes) : Nat → Nat
  | 0 => 0
  | i + 1 => joinedLength texts (i + 1) + 1

/-- The edge of a key, behind a start and an end. -/
def edgeAt (texts : List Bytes) (start p i : Nat) (item : Bytes × SyllableKey × Nat) : Edge where
  from_ := if i = 0 then p else start + joinedLength texts i
  to_ := start + joinedLength texts (i + 1)
  syllableStart := if i = 0 then start else start + joinedLength texts i + 1
  key := item.2.1
  kind := .exact
  tone := item.2.2
  distance := 0

/-- The edge of a key behind the first is one behind the end of the first. -/
theorem edgeAt_succ {text : Bytes} {texts : List Bytes} {start p i : Nat} {item : Bytes × SyllableKey × Nat}
    (hi : i < texts.length) : edgeAt (text :: texts) start p (i + 1) item =
      edgeAt texts (start + text.length + 1) (start + text.length) i item := by
  unfold edgeAt
  rw [joinedLength_succ hi]
  cases i with
  | zero =>
    rw [joinedLength_one]
    simp only [Nat.zero_add, if_true, if_neg Nat.one_ne_zero, Edge.mk.injEq, and_true, true_and]
    omega
  | succ i =>
    rw [joinedLength_succ (Nat.lt_of_succ_lt hi)]
    simp only [if_neg (Nat.succ_ne_zero _), Edge.mk.injEq, and_true]
    omega

/-- The edges begin where the spelling before ends. -/
theorem getElem?_chainEdges {item : Bytes × SyllableKey × Nat} : ∀ {items : List (Bytes × SyllableKey × Nat)}
    {start p i : Nat}, items[i]? = some item →
    (chainEdges p (segmentsFrom start items))[i]? = some (edgeAt (items.map (·.1)) start p i item)
  | first :: items, start, p, 0, h => by
    obtain rfl := some.inj h
    rw [segmentsFrom, chainEdges, getElem?_cons_zero, edgeAt, map_cons, joinedLength_one]
    rfl
  | first :: items, start, p, i + 1, h => by
    have hi : i < (items.map (·.1)).length := by
      rw [length_map]
      exact Nat.lt_of_succ_lt_succ (List.getElem?_eq_some_iff.mp h).1
    rw [segmentsFrom, chainEdges, getElem?_cons_succ, map_cons, edgeAt_succ hi]
    exact getElem?_chainEdges h

theorem length_chainEdges : ∀ {items : List (Bytes × SyllableKey × Nat)} {start p : Nat},
    (chainEdges p (segmentsFrom start items)).length = items.length
  | [], _, _ => rfl
  | _ :: _, _, _ => congrArg (· + 1) length_chainEdges

end Segments

/-- The graph of a text and its segments, whose spellings and keys are given : a text that the graph can
hold is accepted, and the edge of a key goes from the end of the spelling before to the end of its own. -/
structure ExactEdges (input : Bytes) (segments : List ExactSegment) (texts : List Bytes)
    (keys : List (SyllableKey × Nat)) : Prop where
  joined : input = [apostrophe].intercalate texts
  length : keys.length = texts.length
  accepted : input.length ≤ maxGraphPosition → ∃ graph, buildExact input segments = .ok graph
  edges : ∀ graph, buildExact input segments = .ok graph → graph.edges.length = keys.length ∧
    ∀ i key, keys[i]? = some key → ∃ edge, graph.edges[i]? = some edge ∧ edge.key = key.1 ∧ edge.tone = key.2 ∧
      edge.from_ = joinedLength texts i ∧ edge.to_ = joinedLength texts (i + 1) ∧
        edge.syllableStart = textStart texts i

theorem exactEdges {items : List (Bytes × SyllableKey × Nat)} (h : ∀ item ∈ items, item.1 ≠ []) :
    ExactEdges ([apostrophe].intercalate (items.map (·.1))) (segmentsFrom 0 items) (items.map (·.1))
      (items.map (·.2)) := by
  refine ⟨rfl, by simp, fun hlong => exists_buildExact hlong (follows_segmentsFrom h fun _ => ⟨Or.inl rfl, rfl⟩),
    fun graph hgraph => ?_⟩
  obtain ⟨_, hedges, _⟩ := follows_of_buildExact hgraph
  rw [hedges, length_map]
  refine ⟨length_chainEdges, fun i key hkey => ?_⟩
  obtain ⟨item, hitem, rfl⟩ := map_eq_some_iff.mp (getElem?_map.symm.trans hkey)
  refine ⟨_, getElem?_chainEdges hitem, rfl, rfl, ?_, Nat.zero_add _, ?_⟩
  · cases i with
    | zero => rfl
    | succ i => exact Nat.zero_add _
  · cases i with
    | zero => rfl
    | succ i => exact congrArg (· + 1) (Nat.zero_add _)

section Inputs

theorem nil_notMem_keySpellings : [] ∉ keySpellings :=
  (nodup_cons.mp (keySpellings_perm.nodup_iff.mpr contentTable_nodup.1)).1

theorem text_ne_nil (key : SyllableKey) : key.text ≠ [] := by
  intro hnil
  have hmem := mem_of_getElem? key.getElem?_keySpellings
  rw [hnil] at hmem
  exact nil_notMem_keySpellings hmem

theorem fromCanonicalText_nil : fromCanonicalText [] = none := by
  have hmem := nil_notMem_keySpellings
  rw [keySpellings, mem_append, mem_append, mem_append, not_or, not_or, not_or] at hmem
  obtain ⟨⟨⟨hfull, hincomplete⟩, hoption⟩, hzhuyin⟩ := hmem
  unfold fromCanonicalText
  rw [idxOf?_eq_none_iff.mpr hfull, idxOf?_eq_none_iff.mpr hincomplete, idxOf?_eq_none_iff.mpr hoption,
    idxOf?_eq_none_iff.mpr hzhuyin]
  rfl

/-- A key with its spelling and its tone. -/
def spelled (key : SyllableKey × Nat) : Bytes × SyllableKey × Nat := (key.1.text, key.1, key.2)

theorem foldl_exactStep : ∀ (keys : List (SyllableKey × Nat)) {text : Bytes}
    {segments : List ExactSegment}, text ≠ [] →
    keys.foldl exactStep (text, segments) =
      (if keys = [] then text else text ++ apostrophe :: [apostrophe].intercalate (keys.map fun key => key.1.text),
        segments ++ segmentsFrom (text.length + 1) (keys.map spelled))
  | [], text, segments, _ => by simp [segmentsFrom]
  | key :: keys, text, segments, htext => by
    have hstep : exactStep (text, segments) key = (text ++ [apostrophe] ++ key.1.text,
        segments ++ [⟨text.length + 1, text.length + 1 + key.1.text.length, key.1, key.2⟩]) := by
      unfold exactStep
      simp [htext, Nat.add_assoc, Nat.add_comm 1]
    have hnext : text ++ [apostrophe] ++ key.1.text ≠ [] := by simp
    rw [foldl_cons, hstep, foldl_exactStep keys hnext, map_cons, map_cons, if_neg (cons_ne_nil _ _)]
    refine Prod.ext ?_ ?_
    · dsimp only
      split_ifs with hkeys
      · simp [hkeys, intercalate]
      · rw [intercalate_cons (by simpa using hkeys)]
        simp
    · have hlength : (text ++ [apostrophe] ++ key.1.text).length = text.length + 1 + key.1.text.length := by
        rw [length_append, length_append, length_singleton]
      dsimp only
      rw [hlength, append_assoc]
      rfl

/-- The text of keys is their spellings, joined. -/
theorem exactInput_eq (keys : List (SyllableKey × Nat)) : exactInput keys =
    ([apostrophe].intercalate ((keys.map spelled).map (·.1)), segmentsFrom 0 (keys.map spelled)) := by
  cases keys with
  | nil => rfl
  | cons key keys =>
    have hstep : exactStep ([], []) key = (key.1.text, [⟨0, 0 + key.1.text.length, key.1, key.2⟩]) := by
      unfold exactStep
      simp
    rw [exactInput, foldl_cons, hstep, foldl_exactStep keys (text_ne_nil key.1)]
    refine Prod.ext ?_ ?_
    · dsimp only
      split_ifs with hkeys
      · simp [hkeys, intercalate, spelled]
      · rw [List.map_map, map_cons, intercalate_cons (by simpa using hkeys)]
        rfl
    · simp [segmentsFrom, spelled]

theorem exactEdges_exactInput (keys : List (SyllableKey × Nat)) :
    ExactEdges (exactInput keys).1 (exactInput keys).2 (keys.map fun key => key.1.text) keys := by
  have hnonempty : ∀ item ∈ keys.map spelled, item.1 ≠ [] := forall_mem_map.mpr fun key _ => text_ne_nil key.1
  have htexts : (keys.map spelled).map (·.1) = keys.map fun key => key.1.text := map_map
  have hkeys : (keys.map spelled).map (·.2) = keys := map_map.trans (map_id keys)
  have hedges := exactEdges hnonempty
  rw [exactInput_eq, htexts]
  rwa [hkeys, htexts] at hedges

/-- The keys of an index parse with their syllables. -/
def fullItems (keys : List FullPinyinIndex.FullPinyinIndexKey) : List (Bytes × SyllableKey × Nat) :=
  keys.filterMap fun key =>
    (SyllableKey.fromCanonicalText key.canonical).map fun syllable => (key.canonical, syllable, key.tone)

theorem fullItems_cons {key : FullPinyinIndex.FullPinyinIndexKey} {keys : List FullPinyinIndex.FullPinyinIndexKey}
    {syllable : SyllableKey} (h : fromCanonicalText key.canonical = some syllable) :
    fullItems (key :: keys) = (key.canonical, syllable, key.tone) :: fullItems keys := by
  rw [fullItems, filterMap_cons, h]
  rfl

theorem foldl_fullStep : ∀ {keys : List FullPinyinIndex.FullPinyinIndexKey} {segments : List ExactSegment}
    {start : Nat},
    (∀ key ∈ keys, (fromCanonicalText key.canonical).isSome = true) →
    (keys.foldl fullStep (segments, start)).1 = segments ++ segmentsFrom start (fullItems keys)
  | [], segments, start, _ => by simp [fullItems, segmentsFrom]
  | key :: keys, segments, start, hkeys => by
    obtain ⟨hkey, hkeys⟩ := forall_mem_cons.mp hkeys
    obtain ⟨syllable, hsyllable⟩ := isSome_iff_exists.mp hkey
    have hstep : fullStep (segments, start) key =
        (segments ++ [⟨start, start + key.canonical.length, syllable, key.tone⟩],
          start + key.canonical.length + 1) := by
      simp [fullStep, hsyllable]
    rw [foldl_cons, hstep, foldl_fullStep hkeys, fullItems_cons hsyllable, segmentsFrom, append_assoc]
    rfl

theorem fullItems_text : ∀ {keys : List FullPinyinIndex.FullPinyinIndexKey},
    (∀ key ∈ keys, (fromCanonicalText key.canonical).isSome = true) →
    (fullItems keys).map (·.1) = keys.map (·.canonical)
  | [], _ => rfl
  | key :: keys, hkeys => by
    obtain ⟨hkey, hkeys⟩ := forall_mem_cons.mp hkeys
    obtain ⟨syllable, hsyllable⟩ := isSome_iff_exists.mp hkey
    rw [fullItems_cons hsyllable, map_cons, fullItems_text hkeys]
    rfl

theorem exactEdges_fullSegments {parse : FullPinyinIndex.FullPinyinIndexParse}
    (hkeys : ∀ key ∈ parse.keys, (fromCanonicalText key.canonical).isSome = true) :
    ExactEdges (fullPinyin parse) (fullSegments parse) (parse.keys.map (·.canonical))
      ((fullItems parse.keys).map (·.2)) := by
  have hsegments : fullSegments parse = segmentsFrom 0 (fullItems parse.keys) := foldl_fullStep hkeys
  have hnonempty : ∀ item ∈ fullItems parse.keys, item.1 ≠ [] := by
    intro item hitem hnil
    have hmem := mem_map_of_mem (f := fun item : Bytes × SyllableKey × Nat => item.1) hitem
    rw [fullItems_text hkeys] at hmem
    obtain ⟨key, hkey, hcanonical⟩ := mem_map.mp hmem
    have hsome := hkeys key hkey
    rw [hcanonical, hnil, fromCanonicalText_nil] at hsome
    cases hsome
  rw [hsegments, fullPinyin, ← fullItems_text hkeys]
  exact exactEdges hnonempty

end Inputs

/-! ## The keys of the parsers -/

section Parsers

/-- The keys of a double-pinyin parse, by their ends and spellings. -/
def doubleSpans (parse : DoublePinyin.DoublePinyinParse) : List (Nat × Bytes) :=
  parse.keys.map fun item => (item.stop, item.key.text)

def zhuyinSpans (parse : Zhuyin.ZhuyinParse) : List (Nat × Bytes) :=
  parse.keys.map fun item => (item.stop, item.key.text)

def fullSpans (parse : FullPinyinIndex.FullPinyinIndexParse) : List (Nat × Bytes) :=
  parse.keys.map fun item => (item.stop, item.canonical)

theorem doubleKeys_text (parse : DoublePinyin.DoublePinyinParse) :
    (doubleKeys parse).map (fun key => key.1.text) = (doubleSpans parse).map (·.2) := by
  simp only [doubleKeys, doubleSpans, List.map_map, Function.comp_def]

theorem zhuyinKeys_text (parse : Zhuyin.ZhuyinParse) :
    (zhuyinKeys parse).map (fun key => key.1.text) = (zhuyinSpans parse).map (·.2) := by
  simp only [zhuyinKeys, zhuyinSpans, List.map_map, Function.comp_def]

theorem doubleSpans_ascending (parser : DoublePinyin.DoublePinyinParser) (input : Bytes) (options : BitVec 32) :
    ((parseWithOptions parser input options).keys.Pairwise fun key later => key.stop < later.stop) ∧
      ∀ key ∈ (parseWithOptions parser input options).keys,
        0 < key.stop ∧ key.stop ≤ (parseWithOptions parser input options).consumed := by
  refine (munch_parseWithOptions parser input options).cut.ascending fun m l key hkey => ?_
  obtain ⟨_, tables, _, hprobe⟩ := keyAt_eq_some hkey
  obtain ⟨found, _, rfl⟩ := map_eq_some_iff.mp hprobe
  rfl

variable {slices : Nat → Nat → Option Zhuyin.Spelled}

theorem stop_of_slicesAt (m l : Nat) (key : Zhuyin.ZhuyinKey)
    (h : slicesAt slices m l = some key) : key.stop = m + l := by
  obtain ⟨found, _, rfl⟩ := map_eq_some_iff.mp h
  rfl

theorem start_of_slicesAt (m l : Nat) (key : Zhuyin.ZhuyinKey)
    (h : slicesAt slices m l = some key) : key.start = m := by
  obtain ⟨found, _, rfl⟩ := map_eq_some_iff.mp h
  rfl

/-- The keys of a zhuyin parse are a cut of what it consumes. -/
theorem cut_zhuyinKeys (keyboard : Option Zhuyin.Keyboard) (input : Bytes) (options : BitVec 32) :
    ∃ slices, Cuts.Cut (slicesAt slices) 0 (parseWithOptions keyboard input options).consumed
      (parseWithOptions keyboard input options).keys :=
  ⟨_, (munchWhile_parseDetailed keyboard input _ _ _).cut⟩

/-- The mappers of keys that end one behind the other obey the laws. -/
theorem mapsOffsets_map {κ : Type} {keys : List κ} {stop : κ → Nat} {text : κ → Bytes} {consumed : Nat}
    (hascending : keys.Pairwise fun key later => stop key < stop later)
    (hconsumed : ∀ key ∈ keys, stop key ≤ consumed) :
    MapsOffsets (keys.map fun key => (stop key, text key))
      (fun offset => sessionColumn (keys.map fun key => (stop key, (text key).length)) offset)
      fun offset => originalWalk consumed offset (keys.map fun key => (stop key, (text key).length)) 0 := by
  have hmeasures : measures (keys.map fun key => (stop key, text key)) =
      keys.map fun key => (stop key, (text key).length) := by
    rw [measures, List.map_map]
    rfl
  rw [← hmeasures]
  exact mapsOffsets (pairwise_map.mpr hascending) (forall_mem_map.mpr hconsumed)

/-- The start of a key is mapped from the start of its spelling. -/
theorem zhuyinOriginalBegin_textStart (keyboard : Option Zhuyin.Keyboard) (input : Bytes)
    (options : BitVec 32) {i : Nat}
    {key : Zhuyin.ZhuyinKey} (hkey : (parseWithOptions keyboard input options).keys[i]? = some key)
    (hmaps : MapsOffsets (zhuyinSpans (parseWithOptions keyboard input options))
      (zhuyinSessionOffset (parseWithOptions keyboard input options))
      (zhuyinOriginalOffset (parseWithOptions keyboard input options))) :
    zhuyinOriginalBegin (parseWithOptions keyboard input options)
      (textStart ((zhuyinSpans (parseWithOptions keyboard input options)).map (·.2)) i) = key.start := by
  obtain ⟨slices, hcut⟩ := cut_zhuyinKeys keyboard input options
  obtain ⟨hfirst, hnext⟩ := hcut.contiguous start_of_slicesAt stop_of_slicesAt
  set parse := parseWithOptions keyboard input options
  cases i with
  | zero => exact (hfirst key hkey).symm
  | succ i =>
    have hi : i + 1 < parse.keys.length := (List.getElem?_eq_some_iff.mp hkey).1
    have hbefore := getElem?_eq_getElem (Nat.lt_of_succ_lt hi)
    have hspan : (zhuyinSpans parse)[i]? = some (parse.keys[i].stop, parse.keys[i].key.text) := by
      rw [zhuyinSpans, getElem?_map, hbefore]
      rfl
    rw [hnext i _ key hbefore hkey]
    -- the byte before the spelling is the apostrophe behind the key before
    refine hmaps.original_key i _ hspan _ ?_ (Nat.le_refl _)
    rcases Nat.eq_zero_or_pos i with hzero | hpos
    · exact Or.inl hzero
    · refine Or.inr (joinedLength_lt hpos ?_)
      rw [length_map, zhuyinSpans, length_map]
      exact Nat.lt_of_succ_lt hi

end Parsers

/-! ## The mappers and the graph -/

/-- The mappers of keys agree with each other and with the edges of the decoder's graph. -/
structure Agree (keys : List (Nat × Bytes)) (session original : Nat → Nat) (input : Bytes)
    (segments : List ExactSegment)
    (syllables : List (SyllableKey × Nat)) : Prop where
  maps : MapsOffsets keys session original
  edges : ExactEdges input segments (keys.map (·.2)) syllables

def DoubleAgree (parse : DoublePinyin.DoublePinyinParse) : Prop :=
  Agree (doubleSpans parse) (doubleSessionOffset parse) (doubleOriginalOffset parse) (exactInput (doubleKeys parse)).1
    (exactInput (doubleKeys parse)).2 (doubleKeys parse)

structure ZhuyinAgree (parse : Zhuyin.ZhuyinParse) : Prop where
  agree : Agree (zhuyinSpans parse) (zhuyinSessionOffset parse) (zhuyinOriginalOffset parse)
    (exactInput (zhuyinKeys parse)).1 (exactInput (zhuyinKeys parse)).2 (zhuyinKeys parse)
  start : ∀ i key, parse.keys[i]? = some key →
    zhuyinOriginalBegin parse (textStart ((zhuyinSpans parse).map (·.2)) i) = key.start

def FullAgree (parse : FullPinyinIndex.FullPinyinIndexParse) : Prop :=
  Agree (fullSpans parse) (fullSessionOffset parse) (fullOriginalOffset parse) (fullPinyin parse) (fullSegments parse)
    ((fullItems parse.keys).map (·.2))

/-- Every canonical spelling of an index is one of a syllable. -/
def Resolves (index : FullPinyinIndex) : Prop :=
  ∀ row ∈ index.table.rows, (SyllableKey.fromCanonicalText (index.table.resolve row.2)).isSome = true

/-- The mappers of every parse agree with the edges of its keys. -/
theorem offsets_agree :
    (∀ parser input options, DoubleAgree (DoublePinyin.parseWithOptions parser input options)) ∧
      (∀ keyboard input options, ZhuyinAgree (Zhuyin.parseWithOptions keyboard input options)) ∧
      ∀ input options index, Resolves index → FullAgree (FullPinyinIndex.parseIndex input options index) := by
  refine ⟨fun parser input options => ?_, fun keyboard input options => ?_, fun input options index hresolves => ?_⟩
  · obtain ⟨hascending, hends⟩ := doubleSpans_ascending parser input options
    refine ⟨mapsOffsets_map hascending fun key hkey => (hends key hkey).2, ?_⟩
    rw [← doubleKeys_text]
    exact exactEdges_exactInput _
  · obtain ⟨slices, hcut⟩ := cut_zhuyinKeys keyboard input options
    obtain ⟨hascending, hends⟩ := hcut.ascending stop_of_slicesAt
    have hmaps : MapsOffsets (zhuyinSpans (Zhuyin.parseWithOptions keyboard input options))
        (zhuyinSessionOffset (Zhuyin.parseWithOptions keyboard input options))
        (zhuyinOriginalOffset (Zhuyin.parseWithOptions keyboard input options)) :=
      mapsOffsets_map hascending fun key hkey => (hends key hkey).2
    refine ⟨⟨hmaps, ?_⟩, fun i key hkey => zhuyinOriginalBegin_textStart keyboard input options hkey hmaps⟩
    rw [← zhuyinKeys_text]
    exact exactEdges_exactInput _
  · have htiles := (FullPinyinIndex.parsed_parseIndex input options index).tiles
    refine ⟨mapsOffsets_map htiles.ascending fun key hkey => (htiles.ends.2 key hkey).2, ?_⟩
    rw [fullSpans, List.map_map]
    refine exactEdges_fullSegments fun key hkey => ?_
    obtain ⟨row, hrow, hcanonical⟩ := (htiles.ends.2 key hkey).1.row
    rw [hcanonical]
    exact hresolves row hrow

theorem resolves_aIndex : Resolves aIndex := by
  intro row hrow
  obtain rfl := mem_singleton.mp hrow
  have hresolve : aIndex.table.resolve ⟨0, 1⟩ = ascii "a" := by decide
  have hindex : fullPinyinSyllables.idxOf? (ascii "a") = some 0 := by rfl
  obtain ⟨key, hkey⟩ := @SyllableKey.fromIndex_isSome 0 (by simp [syllableKeyCount, fullPinyinSyllables_length])
  rw [hresolve, fromCanonicalText, hindex]
  exact isSome_of_eq_some hkey

theorem offsets_agree_aa : FullAgree ⟨[⟨ascii "a", 0, 1, 0⟩, ⟨ascii "a", 2, 3, 0⟩], 3⟩ :=
  parse_aIndex ▸ offsets_agree.2.2 (ascii "a'a") ⟨0⟩ aIndex resolves_aIndex

/-! ## Texts that no graph can hold -/

section Long

/-- The keys of `ba`, over and over. -/
def pairs (n : Nat) : Bytes := (List.replicate n [98, 97]).flatten

theorem length_pairs : ∀ n : Nat, (pairs n).length = 2 * n
  | 0 => rfl
  | n + 1 => by
    have hlength : (pairs (n + 1)).length = (pairs n).length + 2 := by
      rw [pairs, replicate_succ]
      rfl
    rw [hlength, length_pairs n]
    omega

theorem drop_pairs : ∀ (j m : Nat), (pairs (j + m)).drop (2 * j) = pairs m
  | 0, m => by rw [Nat.zero_add]; rfl
  | j + 1, m => by
    rw [Nat.succ_add, pairs, replicate_succ]
    exact drop_pairs j m

/-- The parser of Microsoft keys. -/
abbrev msParser : DoublePinyin.DoublePinyinParser := ⟨.Ms, false⟩

abbrev msTables : DoublePinyin.SchemeTables := ⟨DoublePinyin.msSheng, DoublePinyin.msYun, none⟩

theorem probeOneKey_pair : ∃ found, probeOneKey [98, 97] false false false msTables = some found := by
  have hindex : fullPinyinSyllables.idxOf? (ascii "ba") = some 5 := by rfl
  have hmem : ascii "ba" ∈ fullPinyinSyllables := isSome_idxOf?.mp (by rw [hindex]; rfl)
  obtain ⟨key, hkey⟩ := fromText_of_mem hmem
  have hsheng : (msSheng[keyId 98]?).join = some (ascii "b") := rfl
  have hyun : (msYun[keyId 97]?).getD (none, none) = (some (ascii "a"), none) := rfl
  have hlookup : lookupPinyin (ascii "b" ++ ascii "a") = some key := by
    change lookupPinyin (ascii "ba") = some key
    rw [lookupPinyin, hkey]
  have hpair : parseTwoKeys 98 97 msTables = some key := by
    have hb : ascii "b" ≠ [apostrophe] := by decide
    unfold parseTwoKeys
    simp only [hsheng, hyun, if_neg hb, findSome?_cons, bind_some, hlookup]
    rfl
  refine ⟨(key, 0), ?_⟩
  rw [probeOneKey]
  simp [hpair]

theorem keyAt_pair {j m : Nat} : (DoublePinyin.keyAt msParser (pairs (j + (m + 1))) ⟨0⟩ (2 * j) 2).isSome = true := by
  obtain ⟨found, hfound⟩ := probeOneKey_pair
  have hslice : slice (pairs (j + (m + 1))) (2 * j) 2 = [98, 97] := by
    rw [slice, drop_pairs]
    rfl
  have htables : msParser.tables = some msTables := rfl
  have hprobe : probeAt (pairs (j + (m + 1))) ⟨0⟩ msTables (2 * j) 2 =
      some ⟨found.1, 2 * j, 2 * j + 2, found.2⟩ := by
    rw [probeAt, hslice]
    exact congrArg (Option.map _) hfound
  rw [DoublePinyin.keyAt, if_pos (by rw [length_pairs]; omega), htables, bind_some, hprobe]
  rfl

/-- No longer slice is a key without its tone. -/
theorem keyAt_long {j m l : Nat} (hl : 2 < l) : DoublePinyin.keyAt msParser (pairs (j + m)) ⟨0⟩ (2 * j) l = none := by
  by_contra hsome
  obtain ⟨key, hkey⟩ := ne_none_iff_exists'.mp hsome
  obtain ⟨hin, tables, _, hprobe⟩ := keyAt_eq_some hkey
  obtain ⟨found, hfound, _⟩ := map_eq_some_iff.mp hprobe
  obtain ⟨_, hshort, _⟩ := window_of_probeOneKey hfound
  rw [length_pairs] at hin
  have hlength : (slice (pairs (j + m)) (2 * j) l).length = l := by
    rw [slice, length_take, length_drop, length_pairs]
    omega
  obtain rfl : l = 3 := by omega
  obtain ⟨rest, rfl⟩ : ∃ rest, m = rest + 2 := ⟨m - 2, by omega⟩
  have hslice : slice (pairs (j + (rest + 2))) (2 * j) 3 = [98, 97, 98] := by
    rw [slice, drop_pairs]
    rfl
  rw [hslice] at hfound
  cases hfound

/-- Every pair is a key. -/
theorem length_of_munch {n c t : Nat} {keys : List DoublePinyin.DoublePinyinKey}
    (h : Cuts.Munch (DoublePinyin.keyAt msParser (pairs n) ⟨0⟩) c t keys) :
    ∀ {j m : Nat}, c = 2 * j → j + m = n → keys.length = m := by
  induction h with
  | stop c hnone =>
    rintro j m rfl rfl
    cases m with
    | zero => rfl
    | succ m =>
      have hpair := @keyAt_pair j m
      rw [hnone 2 Nat.two_pos] at hpair
      cases hpair
  | @take c l t key keys hpos hkey hlonger _ ih =>
    rintro j m rfl rfl
    have hin := (keyAt_eq_some hkey).1
    rw [length_pairs] at hin
    obtain ⟨m, rfl⟩ : ∃ rest, m = rest + 1 := ⟨m - 1, by omega⟩
    have hle : l ≤ 2 := by
      by_contra hlt
      rw [keyAt_long (Nat.lt_of_not_le hlt)] at hkey
      cases hkey
    have hge : 2 ≤ l := by
      by_contra hlt
      have hpair := @keyAt_pair j m
      rw [hlonger 2 (Nat.lt_of_not_le hlt)] at hpair
      cases hpair
    obtain rfl := Nat.le_antisymm hle hge
    rw [length_cons, @ih (j + 1) m (by omega) (by omega)]

/-- The keys of a text of `ba`s. -/
def pairsParse (n : Nat) : DoublePinyin.DoublePinyinParse := DoublePinyin.parseWithOptions msParser (pairs n) 0

theorem length_pairsParse (n : Nat) : (pairsParse n).keys.length = n :=
  length_of_munch (munch_parseWithOptions msParser (pairs n) 0) (Nat.mul_zero 2).symm (Nat.zero_add n)

theorem le_length_pairsParse (n : Nat) : 2 * n ≤ (exactInput (doubleKeys (pairsParse n))).1.length + 1 := by
  have hedges := exactEdges_exactInput (doubleKeys (pairsParse n))
  have hle := @length_le_intercalate ((doubleKeys (pairsParse n)).map fun key => key.1.text)
    (forall_mem_map.mpr fun key _ => text_ne_nil key.1)
  rwa [← hedges.joined, ← hedges.length, doubleKeys, length_map, length_pairsParse] at hle

/-- A joined text that is too long is refused. -/
theorem offsets_long : ¬ ∀ parser input options, ∃ graph,
    buildExact (exactInput (doubleKeys (DoublePinyin.parseWithOptions parser input options))).1
      (exactInput (doubleKeys (DoublePinyin.parseWithOptions parser input options))).2 = .ok graph := by
  intro h
  obtain ⟨graph, hgraph⟩ := h msParser (pairs 2147483648) 0
  have hlong := (follows_of_buildExact hgraph).2.2
  have hle := le_length_pairsParse 2147483648
  have hmax : maxGraphPosition = 4294967294 := by rfl
  rw [pairsParse] at hle
  omega

end Long

end Oxpinyin.Offsets
