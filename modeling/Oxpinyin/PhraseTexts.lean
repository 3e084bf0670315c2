import Mathlib.Algebra.Ring.Nat
import Mathlib.Data.List.Induction
import Mathlib.Data.List.TakeWhile
import Mathlib.Data.String.Basic
import Oxpinyin.Lib.LexEncoding
import Oxpinyin.Constraint
import Oxpinyin.Inventory

/-!
# Phrase texts as their outward words

A phrase text is ordinary text or stored words with a declared count. Two ordinary texts compare by
their bytes, two stored ones by their words up to the first zero, a mixed pair word by word, and a
stored text whose outward words are all characters is hashed as the text they spell. All of it is the
comparison of the outward words (`texts_compare_outward`).

`PhraseTextConcat` gathers ordinary text until a stored part comes and words from then on.
`finish_spec` : what it ends with has the outward words and the declared lengths of its parts.
-/

namespace Oxpinyin

open Option List LexEncoding Std

namespace PhraseText

/-! ## Comparison and hashing -/

/-- The bytes of ordinary text. -/
def strBytes (text : List Char) : Bytes := text.flatMap String.utf8EncodeChar

/-- The stored words before the first zero. -/
def storedOutward (buffer : List Nat) : List Nat := (buffer.drop 1).takeWhile (· != 0)

/-- Equality, by bytes between ordinary texts. -/
def eq : PhraseText → PhraseText → Bool
  | .scalar left, .scalar right => strBytes left == strBytes right
  | .stored left, .stored right => storedOutward left == storedOutward right
  | left, right => left.outwardWords == right.outwardWords

/-- The order, by bytes between ordinary texts. -/
def cmp : PhraseText → PhraseText → Ordering
  | .scalar left, .scalar right => compare (strBytes left) (strBytes right)
  | .stored left, .stored right => compare (storedOutward left) (storedOutward right)
  | left, right => compare left.outwardWords right.outwardWords

/-- The character of a word. -/
def charFromU32 (word : Nat) : Option Char :=
  if h : word.isValidChar then some (Char.ofNatAux word h) else none

/-- One call of a hasher. -/
inductive HasherCall where
  /-- The hash of a string, a function of its bytes. -/
  | str (bytes : Bytes)
  | u8 (value : Nat)
  /-- The hash of a slice of words. -/
  | words (words : List Nat)
  deriving DecidableEq

/-- What a text feeds to the hasher. -/
def hash : PhraseText → List HasherCall
  | .scalar text => [.str (strBytes text)]
  | .stored buffer =>
    match (storedOutward buffer).mapM charFromU32 with
    | some text => [.str (strBytes text)]
    | none => [.u8 1, .words (storedOutward buffer)]

theorem charFromU32_eq_some {word : Nat} {c : Char} : charFromU32 word = some c ↔ word = c.toNat := by
  unfold charFromU32
  constructor
  · intro h
    by_cases hvalid : word.isValidChar
    · rw [dif_pos hvalid] at h
      obtain rfl := some.inj h
      rfl
    · rw [dif_neg hvalid] at h
      cases h
  · rintro rfl
    exact dif_pos c.valid

/-- Words spell a text exactly when they are its code points. -/
theorem mapM_charFromU32 {words : List Nat} {text : List Char} :
    words.mapM charFromU32 = some text ↔ words = text.map Char.toNat := by
  induction words generalizing text with
  | nil => simp [eq_comm]
  | cons word words ih =>
    rw [mapM_cons]
    simp only [Option.bind_eq_bind, Option.bind_eq_some_iff, Option.pure_def, Option.some.injEq]
    constructor
    · rintro ⟨c, hc, rest, hrest, rfl⟩
      rw [charFromU32_eq_some.mp hc, ih.mp hrest]
      rfl
    · intro h
      cases text with
      | nil => cases h
      | cons c rest =>
        obtain ⟨rfl, rfl⟩ := cons.inj h
        exact ⟨c, charFromU32_eq_some.mpr rfl, rest, ih.mpr rfl, rfl⟩

theorem strBytes_inj {left right : List Char} : strBytes left = strBytes right ↔ left = right := by
  refine ⟨fun h => ?_, congrArg strBytes⟩
  have hcompare := compare_utf8 left right
  rw [← strBytes, ← strBytes, h] at hcompare
  exact map_injective_iff.mpr (fun _ _ => Char.toNat_inj.mp)
    (LawfulEqCmp.eq_of_compare (hcompare.symm.trans ReflCmp.compare_self))

theorem cmp_eq_compare (left right : PhraseText) : cmp left right = compare left.outwardWords right.outwardWords := by
  cases left with
  | scalar left =>
    cases right with
    | scalar right => exact compare_utf8 left right
    | stored right => rfl
  | stored left => cases right <;> rfl

theorem eq_iff (left right : PhraseText) : eq left right = true ↔ left.outwardWords = right.outwardWords := by
  cases left with
  | scalar left =>
    cases right with
    | scalar right =>
      rw [eq, beq_iff_eq, strBytes_inj]
      exact (map_injective_iff.mpr fun _ _ => Char.toNat_inj.mp).eq_iff.symm
    | stored right => exact beq_iff_eq
  | stored left => cases right <;> exact beq_iff_eq

/-- The hash of outward words, whatever carries them. -/
def hashWords (words : List Nat) : List HasherCall :=
  match words.mapM charFromU32 with
  | some text => [.str (strBytes text)]
  | none => [.u8 1, .words words]

theorem hash_eq_hashWords (text : PhraseText) : hash text = hashWords text.outwardWords := by
  cases text with
  | scalar text =>
    have hspelled : (text.map Char.toNat).mapM charFromU32 = some text := mapM_charFromU32.mpr rfl
    rw [hashWords, outwardWords, hspelled]
    rfl
  | stored buffer => rfl

theorem hashWords_inj {left right : List Nat} : hashWords left = hashWords right ↔ left = right := by
  refine ⟨fun h => ?_, congrArg hashWords⟩
  unfold hashWords at h
  cases hl : left.mapM charFromU32 with
  | some text =>
    cases hr : right.mapM charFromU32 with
    | some text' =>
      rw [hl, hr] at h
      obtain rfl := strBytes_inj.mp (HasherCall.str.inj (cons.inj h).1)
      rw [mapM_charFromU32.mp hl, mapM_charFromU32.mp hr]
    | none =>
      rw [hl, hr] at h
      cases (cons.inj h).1
  | none =>
    cases hr : right.mapM charFromU32 with
    | some text' =>
      rw [hl, hr] at h
      cases (cons.inj h).1
    | none =>
      rw [hl, hr] at h
      exact HasherCall.words.inj (cons.inj (cons.inj h).2).1

/-- Equality, order and hash of texts are those of their outward words: the order is the lexicographic
one, a total order whose ties are the equal texts, and the hasher is fed the same exactly by equal
texts. -/
theorem texts_compare_outward :
    (∀ left right, eq left right = true ↔ left.outwardWords = right.outwardWords) ∧
    (∀ left right, cmp left right = compare left.outwardWords right.outwardWords) ∧
    (∀ left right, cmp left right = .lt ↔ left.outwardWords < right.outwardWords) ∧
    (∀ left right, cmp left right = .eq ↔ eq left right = true) ∧
    (∀ left right, cmp left right = (cmp right left).swap) ∧
    (∀ left middle right, (cmp left middle).isLE = true → (cmp middle right).isLE = true →
      (cmp left right).isLE = true) ∧
    ∀ left right, hash left = hash right ↔ left.outwardWords = right.outwardWords := by
  refine ⟨eq_iff, cmp_eq_compare, fun left right => ?_, fun left right => ?_, fun left right => ?_,
    fun left middle right => ?_, fun left right => ?_⟩
  · rw [cmp_eq_compare]
    exact compare_words_lt _ _
  · rw [cmp_eq_compare, eq_iff]
    exact LawfulEqCmp.compare_eq_iff_eq
  · rw [cmp_eq_compare, cmp_eq_compare]
    exact OrientedCmp.eq_swap
  · rw [cmp_eq_compare, cmp_eq_compare, cmp_eq_compare]
    exact TransCmp.isLE_trans
  · rw [hash_eq_hashWords, hash_eq_hashWords, hashWords_inj]

/-! ## Construction -/

variable {text : PhraseText}

/-- Ordinary text holds no zero: a text that holds one is stored. -/
def NulFree : PhraseText → Prop
  | .scalar text => '\x00' ∉ text
  | .stored _ => True

/-- The largest count a header holds. -/
def maxCount : Nat := 2 ^ 32 - 1

/-- Stored words behind their declared count. -/
def fromStoredParts (words : List Nat) (length : Nat) : PhraseText :=
  .stored (min length maxCount :: words)

/-- The text of a string. -/
def fromStr (text : List Char) : PhraseText :=
  if '\x00' ∈ text then fromStoredParts (text.map Char.toNat) text.length else .scalar text

theorem nulFree_fromStr (text : List Char) : NulFree (fromStr text) := by
  unfold fromStr
  split
  · trivial
  · assumption

theorem zero_notMem_outwardWords (h : NulFree text) : 0 ∉ text.outwardWords := by
  cases text with
  | scalar text =>
    rintro hzero
    obtain ⟨c, hc, hzero⟩ := mem_map.mp hzero
    obtain rfl : c = '\x00' := Char.toNat_inj.mp hzero
    exact h hc
  | stored buffer =>
    intro hzero
    have hall := all_eq_true.mp (@List.all_takeWhile _ (· != 0) (buffer.drop 1)) 0 hzero
    simp at hall

/-- A text of no declared length has no outward words. -/
theorem outwardWords_eq_nil (h : text.phraseLength = 0) : text.outwardWords = [] := by
  cases text with
  | scalar text =>
    obtain rfl := length_eq_zero_iff.mp h
    rfl
  | stored buffer =>
    have hwords : buffer.drop 1 = [] := by
      rw [phraseLength] at h
      split at h
      · exact drop_eq_nil_iff.mpr (by omega)
      · rename_i hne
        exact (hne h).elim
    rw [outwardWords, hwords]
    rfl

end PhraseText

/-! ## Concatenation -/

/-- A concatenation under way. -/
structure PhraseTextConcat where
  scalar : List Char
  words : Option (List Nat)
  length : Nat

namespace PhraseTextConcat

open PhraseText

/-- An empty concatenation. -/
def new : PhraseTextConcat := ⟨[], none, 0⟩

/-- Turns what is gathered into words. -/
def switchToWords (concat : PhraseTextConcat) : PhraseTextConcat :=
  match concat.words with
  | none => { concat with scalar := [], words := some (concat.scalar.map Char.toNat) }
  | some _ => concat

/-- Appends one part. The length saturates at the machine's largest count. -/
def push (wordMax : Nat) (concat : PhraseTextConcat) (part : PhraseText) : PhraseTextConcat :=
  let counted := { concat with length := min (concat.length + part.phraseLength) wordMax }
  match part with
  | .stored _ =>
    let switched := counted.switchToWords
    { switched with words := switched.words.map (· ++ part.outwardWords) }
  | .scalar text =>
    match counted.words with
    | some words => { counted with words := some (words ++ part.outwardWords) }
    | none => { counted with scalar := counted.scalar ++ text }

/-- The text of the parts. -/
def finish (concat : PhraseTextConcat) : PhraseText :=
  match concat.words with
  | some words => fromStoredParts words concat.length
  | none => .scalar concat.scalar

/-- The sum of the declared lengths. -/
def totalLength (parts : List PhraseText) : Nat := (parts.map phraseLength).sum

/-- What is gathered of the parts, in either form. -/
structure Gathered (parts : List PhraseText) (concat : PhraseTextConcat) : Prop where
  length : concat.length = totalLength parts
  words : ∀ words, concat.words = some words → words = parts.flatMap outwardWords
  scalar : concat.words = none → concat.scalar.map Char.toNat = parts.flatMap outwardWords ∧
    concat.scalar.length = totalLength parts ∧ '\x00' ∉ concat.scalar

theorem gathered_new : Gathered [] new where
  length := rfl
  words _ h := by cases h
  scalar _ := ⟨rfl, rfl, by simp [new]⟩

theorem totalLength_append (parts : List PhraseText) (part : PhraseText) :
    totalLength (parts ++ [part]) = totalLength parts + part.phraseLength := by
  simp [totalLength]

variable {parts : List PhraseText}

variable {wordMax : Nat}

/-- One part more, in whichever form the parts so far are gathered. -/
theorem Gathered.push {concat : PhraseTextConcat}
    {part : PhraseText} (h : Gathered parts concat) (hpart : part.NulFree)
    (hfits : totalLength (parts ++ [part]) ≤ wordMax) : Gathered (parts ++ [part]) (concat.push wordMax part) := by
  have hlength : min (concat.length + part.phraseLength) wordMax = totalLength (parts ++ [part]) := by
    rw [h.length, ← totalLength_append, Nat.min_eq_left hfits]
  have houtward : (parts ++ [part]).flatMap outwardWords = parts.flatMap outwardWords ++ part.outwardWords := by
    rw [flatMap_append, flatMap_singleton]
  cases part with
  | stored buffer =>
    cases hwords : concat.words with
    | some words =>
      refine ⟨?_, fun grown hgrown => ?_, fun hnone => ?_⟩
      · simp only [PhraseTextConcat.push, switchToWords, hwords]
        exact hlength
      · simp only [PhraseTextConcat.push, switchToWords, hwords, map_some, some.injEq] at hgrown
        rw [← hgrown, houtward, h.words words hwords]
      · simp [PhraseTextConcat.push, switchToWords, hwords] at hnone
    | none =>
      refine ⟨?_, fun grown hgrown => ?_, fun hnone => ?_⟩
      · simp only [PhraseTextConcat.push, switchToWords, hwords]
        exact hlength
      · simp only [PhraseTextConcat.push, switchToWords, hwords, map_some, some.injEq] at hgrown
        rw [← hgrown, houtward, (h.scalar hwords).1]
      · simp [PhraseTextConcat.push, switchToWords, hwords] at hnone
  | scalar text =>
    cases hwords : concat.words with
    | some words =>
      refine ⟨?_, fun grown hgrown => ?_, fun hnone => ?_⟩
      · simp only [PhraseTextConcat.push, hwords]
        exact hlength
      · simp only [PhraseTextConcat.push, hwords, some.injEq] at hgrown
        rw [← hgrown, houtward, h.words words hwords]
      · simp [PhraseTextConcat.push, hwords] at hnone
    | none =>
      obtain ⟨hspelled, hcount, hfree⟩ := h.scalar hwords
      refine ⟨?_, fun grown hgrown => ?_, fun _ => ?_⟩
      · simp only [PhraseTextConcat.push, hwords]
        exact hlength
      · simp [PhraseTextConcat.push, hwords] at hgrown
      · simp only [PhraseTextConcat.push, hwords]
        refine ⟨?_, ?_, ?_⟩
        · rw [map_append, houtward, hspelled]
          rfl
        · rw [length_append, hcount, totalLength_append]
          rfl
        · exact fun hmem => (mem_append.mp hmem).elim hfree hpart

theorem gathered_foldl (hparts : ∀ part ∈ parts, part.NulFree)
    (hfits : totalLength parts ≤ wordMax) : Gathered parts (parts.foldl (PhraseTextConcat.push wordMax) new) := by
  induction parts using reverseRecOn with
  | nil => exact gathered_new
  | append_singleton parts part ih =>
    have hle := totalLength_append parts part
    rw [foldl_append, foldl_cons, foldl_nil]
    exact (ih (fun p hp => hparts p (mem_append_left _ hp)) (by omega)).push
      (hparts part (mem_append_right _ mem_cons_self)) hfits

/-- A sum of declared lengths is zero only when no part has outward words. -/
theorem flatMap_outwardWords_eq_nil (h : totalLength parts = 0) : parts.flatMap outwardWords = [] := by
  rw [flatMap_eq_nil_iff]
  intro part hpart
  exact outwardWords_eq_nil (List.sum_eq_zero_iff_forall_eq_nat.mp h _ (mem_map_of_mem hpart))

/-- The finished text has the outward words of its parts and the sum of their declared lengths,
whichever forms the parts have and wherever the first stored one stands. -/
theorem finish_spec (wordMax : Nat) (hword : maxCount ≤ wordMax) (parts : List PhraseText)
    (hparts : ∀ part ∈ parts, part.NulFree) (hsum : totalLength parts ≤ maxCount) :
    ((parts.foldl (PhraseTextConcat.push wordMax) new).finish).outwardWords = parts.flatMap outwardWords ∧
    ((parts.foldl (PhraseTextConcat.push wordMax) new).finish).phraseLength = totalLength parts ∧
    ((parts.foldl (PhraseTextConcat.push wordMax) new).finish).NulFree := by
  have h := gathered_foldl hparts (Nat.le_trans hsum hword)
  generalize parts.foldl (PhraseTextConcat.push wordMax) new = concat at h
  unfold finish
  cases hwords : concat.words with
  | none =>
    obtain ⟨hspelled, hcount, hfree⟩ := h.scalar hwords
    exact ⟨hspelled, hcount, hfree⟩
  | some words =>
    have hgathered := h.words words hwords
    dsimp only
    rw [h.length, fromStoredParts, Nat.min_eq_left hsum]
    refine ⟨?_, ?_, trivial⟩
    · -- no part brings a zero that would cut what follows it
      rw [outwardWords, drop_one, tail_cons, hgathered, takeWhile_eq_self_iff]
      intro word hword
      obtain ⟨part, hpart, hword⟩ := mem_flatMap.mp hword
      have hzero := zero_notMem_outwardWords (hparts part hpart)
      simp only [bne_iff_ne, ne_eq]
      rintro rfl
      exact hzero hword
    · cases hlength : totalLength parts with
      | zero =>
        rw [hgathered, flatMap_outwardWords_eq_nil hlength]
        rfl
      | succ length => rfl

theorem finish_spec_mixed :
    ((List.foldl (PhraseTextConcat.push (2 ^ 64 - 1)) new
      [.scalar ['你'], .stored [3, 22909, 0, 55296], .scalar ['吗']]).finish).phraseLength = 5 ∧
    ((List.foldl (PhraseTextConcat.push (2 ^ 64 - 1)) new
      [.scalar ['你'], .stored [3, 22909, 0, 55296], .scalar ['吗']]).finish).outwardWords =
      [20320, 22909, 21527] := by
  obtain ⟨hwords, hlength, -⟩ := finish_spec (2 ^ 64 - 1) (by decide)
    [.scalar ['你'], .stored [3, 22909, 0, 55296], .scalar ['吗']] (by simp [NulFree]) (by decide)
  exact ⟨hlength, hwords⟩

end PhraseTextConcat

end Oxpinyin
