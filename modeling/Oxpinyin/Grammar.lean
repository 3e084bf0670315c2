import Oxpinyin.Parser

/-!
# The segmentation grammar

What the parser is for, without its tables and loops. A `Lexicon` says which byte
strings are complete syllables and which are stubs, beginnings of one. The input is
read as lowercase groups separated by apostrophes (`NextGroup`). Each group is cut into
complete syllables (`Segments`). The first group without such a cut is read as far as
complete syllables and at most one terminal stub reach, and the rest of the input is
the remainder (`Alternative`).

`frozenLexicon` is the lexicon of the frozen table. `alternative_tiles` : the spans, the
separators between them and the remainder of an alternative tile the input.
-/

namespace Oxpinyin

/-- Which byte strings are syllables, with their text, and which are stubs. -/
structure Lexicon where
  /-- The text of a complete syllable. -/
  complete : Bytes → Option Bytes
  /-- A proper beginning of a syllable. -/
  stub : Bytes → Prop

/-- The lexicon of the frozen table : a spelling is its own text, and a stub is a proper
beginning of a syllable that is not a syllable. -/
def frozenLexicon : Lexicon where
  complete bytes := if bytes ∈ fullPinyinSyllables then some bytes else none
  stub bytes := bytes ∉ fullPinyinSyllables ∧
    ∃ syllable ∈ fullPinyinSyllables, bytes.length < syllable.length ∧ bytes <+: syllable

/-- The bytes of the input from `s` up to `e`. -/
def between (input : Bytes) (s e : Nat) : Bytes :=
  slice input s (e - s)

variable (lex : Lexicon) (input : Bytes)

/-! ## Groups -/

/-- The lowercase group `[s, e)` is the next one from `pos` : only apostrophes precede it,
and it is as long as it can be. -/
structure NextGroup (pos s e : Nat) : Prop where
  le : pos ≤ s
  lt : s < e
  separators : ∀ i, pos ≤ i → i < s → byteIs (· == apostrophe) input i = true
  letters : ∀ i, s ≤ i → i < e → byteIs isAsciiLowercase input i = true
  maximal : byteIs isAsciiLowercase input e = false

/-- A cut of `[s, e)` into complete syllables. -/
inductive Segments : Nat → Nat → List ParsedSyllable → Prop
  | nil (s : Nat) : Segments s s []
  | cons {s m e text rest} : s < m → lex.complete (between input s m) = some text →
      Segments m e rest → Segments s e (⟨text, s, m, .Complete⟩ :: rest)

/-- A cut of `[s, t)` into complete syllables, or into complete syllables and a stub that
is not itself complete. -/
inductive FallbackSegments (s t : Nat) : List ParsedSyllable → Prop
  | complete {path} : Segments lex input s t path → FallbackSegments s t path
  | stub {m path} : Segments lex input s m path → m < t →
      lex.complete (between input m t) = none → lex.stub (between input m t) →
      FallbackSegments s t (path ++ [⟨between input m t, m, t, .Partial⟩])

/-- No cut of the group `[s, e)` into complete syllables. -/
def Uncut (s e : Nat) : Prop :=
  ∀ path, ¬ Segments lex input s e path

/-- The furthest end of a fallback cut inside the group `[s, e)`. -/
def Furthest (s e t : Nat) : Prop :=
  IsGreatest {t | t ≤ e ∧ ∃ path, FallbackSegments lex input s t path} t

/-! ## Alternatives -/

/-- An alternative for the input from `pos` on, and where its remainder starts. Groups are
cut one after the other, and the first one without a cut ends the alternative. -/
inductive Alternative : Nat → List ParsedSyllable → Nat → Prop
  | stop {pos} : (∀ s e, ¬ NextGroup input pos s e) → Alternative pos [] pos
  | group {pos s e segs rest r} : NextGroup input pos s e → Segments lex input s e segs →
      Alternative e rest r → Alternative pos (segs ++ rest) r
  | fallback {pos s e t segs} : NextGroup input pos s e → Uncut lex input s e →
      Furthest lex input s e t → s < t → FallbackSegments lex input s t segs →
      Alternative pos segs t
  | stuck {pos s e} : NextGroup input pos s e → Uncut lex input s e →
      Furthest lex input s e s → Alternative pos [] pos

/-- A parse result of the grammar. -/
def IsAlternative (result : ParseResult) : Prop :=
  ∃ r, Alternative lex input 0 result.syllables r ∧ result.remainder = input.drop r

/-! ## Determinism -/

variable {lex input}

theorem byteIs_lt {p : UInt8 → Bool} {i : Nat} (h : byteIs p input i = true) : i < input.length := by
  by_contra hge
  simp [byteIs, List.getElem?_eq_none (not_lt.mp hge)] at h

/-- An apostrophe is not lowercase. -/
theorem not_lowercase_of_apostrophe {i : Nat} (h : byteIs (· == apostrophe) input i = true) :
    byteIs isAsciiLowercase input i = false := by
  unfold byteIs at h ⊢
  cases hi : input[i]? with
  | none => rfl
  | some b =>
    rw [hi] at h
    have hb : b = apostrophe := by simpa using h
    rw [hb]
    decide

theorem NextGroup.stop_le {pos s e : Nat} (h : NextGroup input pos s e) : e ≤ input.length := by
  have := byteIs_lt (h.letters (e - 1) (by have := h.lt; omega) (by have := h.lt; omega))
  omega

/-- The position determines the next group. -/
theorem NextGroup.unique {pos s e s' e' : Nat} (h : NextGroup input pos s e)
    (h' : NextGroup input pos s' e') : s = s' ∧ e = e' := by
  have hstart : ∀ {s e s' e'}, NextGroup input pos s e → NextGroup input pos s' e' → s ≤ s' := by
    intro s e s' e' h h'
    by_contra hlt
    have hsep := not_lowercase_of_apostrophe (h.separators s' h'.le (by omega))
    have hlet := h'.letters s' (le_refl _) h'.lt
    rw [hsep] at hlet
    cases hlet
  obtain rfl : s = s' := le_antisymm (hstart h h') (hstart h' h)
  have hstop : ∀ {e e'}, NextGroup input pos s e → NextGroup input pos s e' → e ≤ e' := by
    intro e e' h h'
    by_contra hlt
    have hlet := h.letters e' h'.lt.le (by omega)
    rw [h'.maximal] at hlet
    cases hlet
  exact ⟨rfl, le_antisymm (hstop h h') (hstop h' h)⟩

theorem Segments.le {s e : Nat} {path : List ParsedSyllable} (h : Segments lex input s e path) : s ≤ e := by
  induction h with
  | nil s => exact le_refl s
  | cons hlt _ _ ih => omega

theorem FallbackSegments.le {s t : Nat} {path : List ParsedSyllable}
    (h : FallbackSegments lex input s t path) : s ≤ t := by
  cases h with
  | complete h => exact h.le
  | stub h hlt _ _ =>
    have := h.le
    omega

theorem Furthest.unique {s e t t' : Nat} (h : Furthest lex input s e t) (h' : Furthest lex input s e t') : t = t' :=
  IsGreatest.unique h h'

/-- A group has a furthest end. -/
theorem exists_furthest {s e : Nat} (hse : s ≤ e) : ∃ t, s ≤ t ∧ Furthest lex input s e t := by
  classical
  have hne : ({t | t ≤ e ∧ ∃ path, FallbackSegments lex input s t path}).Nonempty := ⟨s, hse, [], .complete (.nil s)⟩
  have hfin : ({t | t ≤ e ∧ ∃ path, FallbackSegments lex input s t path}).Finite :=
    (Set.finite_Iic e).subset fun t ht => ht.1
  obtain ⟨t, ht, hmax⟩ := hfin.exists_maximal hne
  have ⟨_, path, hpath⟩ := ht
  refine ⟨t, hpath.le, ht, fun t' ht' => ?_⟩
  by_contra hlt
  exact hlt (hmax ht' (le_of_not_ge hlt))

/-- Every position has an alternative. -/
theorem exists_alternative (lex : Lexicon) (input : Bytes) (pos : Nat) :
    ∃ path r, Alternative lex input pos path r := by
  induction hk : input.length - pos using Nat.strongRecOn generalizing pos with
  | ind k ih =>
    subst hk
    by_cases hnext : ∃ s e, NextGroup input pos s e
    · obtain ⟨s, e, hg⟩ := hnext
      by_cases hcut : Uncut lex input s e
      · obtain ⟨t, hst, hfar⟩ := @exists_furthest lex input _ _ hg.lt.le
        rcases Nat.eq_or_lt_of_le hst with rfl | hlt
        · exact ⟨[], pos, .stuck hg hcut hfar⟩
        · obtain ⟨_, segs, hsegs⟩ := hfar.1
          exact ⟨segs, t, .fallback hg hcut hfar hlt hsegs⟩
      · simp only [Uncut, not_forall, not_not] at hcut
        obtain ⟨segs, hsegs⟩ := hcut
        have hstop := hg.stop_le
        have hle := hg.le
        have hlt := hg.lt
        obtain ⟨rest, r, hr⟩ := ih (input.length - e) (by omega) e rfl
        exact ⟨segs ++ rest, r, .group hg hsegs hr⟩
    · simp only [not_exists] at hnext
      exact ⟨[], pos, .stop hnext⟩

/-! ## What follows at a position -/

section Positions

variable {pos s e r : Nat} {path : List ParsedSyllable}

theorem alternative_iff_of_stop (h : ∀ s e, ¬ NextGroup input pos s e) :
    Alternative lex input pos path r ↔ path = [] ∧ r = pos := by
  constructor
  · intro ha
    cases ha with
    | stop => exact ⟨rfl, rfl⟩
    | group hg _ _ => exact absurd hg (h _ _)
    | fallback hg _ _ _ _ => exact absurd hg (h _ _)
    | stuck hg _ _ => exact absurd hg (h _ _)
  · rintro ⟨rfl, rfl⟩
    exact .stop h

section

variable (hg : NextGroup input pos s e)
include hg

theorem alternative_iff_of_group (hcut : ¬ Uncut lex input s e) :
    Alternative lex input pos path r ↔ ∃ segs rest, path = segs ++ rest ∧
      Segments lex input s e segs ∧ Alternative lex input e rest r := by
  constructor
  · intro ha
    cases ha with
    | stop h => exact absurd hg (h s e)
    | @group _ _ _ segs rest _ hg' hsegs hrest =>
      obtain ⟨rfl, rfl⟩ := hg.unique hg'
      exact ⟨segs, rest, rfl, hsegs, hrest⟩
    | fallback hg' huncut _ _ _ =>
      obtain ⟨rfl, rfl⟩ := hg.unique hg'
      exact absurd huncut hcut
    | stuck hg' huncut _ =>
      obtain ⟨rfl, rfl⟩ := hg.unique hg'
      exact absurd huncut hcut
  · rintro ⟨segs, rest, rfl, hsegs, hrest⟩
    exact .group hg hsegs hrest

/-- The alternatives that end in a fallback. -/
theorem alternative_iff_of_fallback {t : Nat}
    (hcut : Uncut lex input s e) (hfar : Furthest lex input s e t) (hlt : s < t) :
    Alternative lex input pos path r ↔ r = t ∧ FallbackSegments lex input s t path := by
  constructor
  · intro ha
    cases ha with
    | stop h => exact absurd hg (h s e)
    | @group _ _ _ segs _ _ hg' hsegs _ =>
      obtain ⟨rfl, rfl⟩ := hg.unique hg'
      exact absurd hsegs (hcut segs)
    | fallback hg' _ hfar' _ hsegs =>
      obtain ⟨rfl, rfl⟩ := hg.unique hg'
      obtain rfl := hfar.unique hfar'
      exact ⟨rfl, hsegs⟩
    | stuck hg' _ hfar' =>
      obtain ⟨rfl, rfl⟩ := hg.unique hg'
      have := hfar.unique hfar'
      omega
  · rintro ⟨rfl, hsegs⟩
    exact .fallback hg hcut hfar hlt hsegs

theorem alternative_iff_of_stuck (hcut : Uncut lex input s e)
    (hfar : Furthest lex input s e s) : Alternative lex input pos path r ↔ path = [] ∧ r = pos := by
  constructor
  · intro ha
    cases ha with
    | stop h => exact absurd hg (h s e)
    | @group _ _ _ segs _ _ hg' hsegs _ =>
      obtain ⟨rfl, rfl⟩ := hg.unique hg'
      exact absurd hsegs (hcut segs)
    | fallback hg' _ hfar' hlt _ =>
      obtain ⟨rfl, rfl⟩ := hg.unique hg'
      have := hfar.unique hfar'
      omega
    | stuck _ _ _ => exact ⟨rfl, rfl⟩
  · rintro ⟨rfl, rfl⟩
    exact .stuck hg hcut hfar

end

end Positions

/-! ## Tiling -/

/-- The spans from `pos` on and the apostrophe runs between them lie next to one another,
up to `r`. -/
inductive Tiles (input : Bytes) : Nat → List ParsedSyllable → Nat → Prop
  | nil (pos : Nat) : Tiles input pos [] pos
  | cons {pos s rest r} : pos ≤ s.start → s.start < s.stop → s.stop ≤ input.length →
      (∀ i, pos ≤ i → i < s.start → byteIs (· == apostrophe) input i = true) →
      (∀ i, s.start ≤ i → i < s.stop → byteIs isAsciiLowercase input i = true) →
      Tiles input s.stop rest r → Tiles input pos (s :: rest) r

theorem Tiles.append {pos mid r : Nat} {front back : List ParsedSyllable}
    (h : Tiles input pos front mid) (h' : Tiles input mid back r) : Tiles input pos (front ++ back) r := by
  induction h with
  | nil pos => exact h'
  | cons hle hlt hfit hsep hlet _ ih => exact .cons hle hlt hfit hsep hlet (ih h')

/-- A cut inside a group tiles it from its start. -/
theorem Segments.tiles {s e stop : Nat} {path : List ParsedSyllable}
    (h : Segments lex input s e path) (hfit : stop ≤ input.length) (he : e ≤ stop)
    (hlet : ∀ i, s ≤ i → i < stop → byteIs isAsciiLowercase input i = true) : Tiles input s path e := by
  induction h with
  | nil s => exact .nil s
  | cons hlt _ hrest ih =>
    have := hrest.le
    refine .cons (le_refl _) hlt (by simp only; omega) (fun i h1 h2 => ?_) (fun i h1 h2 => ?_)
      (ih he fun i h1 h2 => hlet i (by omega) h2)
    · simp only at h2
      omega
    · simp only at h1 h2
      exact hlet i h1 (by omega)

theorem FallbackSegments.tiles {s t stop : Nat} {path : List ParsedSyllable}
    (h : FallbackSegments lex input s t path) (hfit : stop ≤ input.length) (ht : t ≤ stop)
    (hlet : ∀ i, s ≤ i → i < stop → byteIs isAsciiLowercase input i = true) : Tiles input s path t := by
  cases h with
  | complete h => exact h.tiles hfit ht hlet
  | @stub m path h hlt _ _ =>
    have hsm := h.le
    refine (h.tiles hfit (by omega) hlet).append (.cons (le_refl _) hlt (by simp only; omega)
      (fun i h1 h2 => ?_) (fun i h1 h2 => ?_) (.nil t))
    · simp only at h2
      omega
    · simp only at h1 h2
      exact hlet i (by omega) (by omega)

/-- The separators before a group join its tiling. -/
theorem Tiles.separators {pos s r : Nat} {path : List ParsedSyllable} (h : Tiles input s path r)
    (hne : path ≠ []) (hle : pos ≤ s) (hsep : ∀ i, pos ≤ i → i < s → byteIs (· == apostrophe) input i = true) :
    Tiles input pos path r := by
  cases h with
  | nil => exact absurd rfl hne
  | cons h1 h2 h3 h4 h5 h6 =>
    refine .cons (le_trans hle h1) h2 h3 (fun i hi hlt => ?_) h5 h6
    rcases Nat.lt_or_ge i s with hs | hs
    · exact hsep i hi hs
    · exact h4 i hs hlt

theorem FallbackSegments.ne_nil {s t : Nat} {path : List ParsedSyllable}
    (h : FallbackSegments lex input s t path) (hlt : s < t) : path ≠ [] := by
  cases h with
  | complete h =>
    cases h with
    | nil => omega
    | cons => simp
  | stub => simp

/-- Spans, separators and remainder of an alternative tile the input. -/
theorem Alternative.tiles {pos r : Nat} {path : List ParsedSyllable}
    (h : Alternative lex input pos path r) : Tiles input pos path r := by
  induction h with
  | stop _ => exact .nil _
  | group hg hsegs _ ih =>
    have hne := (FallbackSegments.complete hsegs).ne_nil hg.lt
    have hgroup := (hsegs.tiles hg.stop_le (le_refl _) hg.letters).separators hne hg.le hg.separators
    exact hgroup.append ih
  | fallback hg _ hfar hlt hsegs =>
    exact (hsegs.tiles hg.stop_le hfar.1.1 hg.letters).separators (hsegs.ne_nil hlt) hg.le hg.separators
  | stuck _ _ _ => exact .nil _

/-! ## Texts -/

/-- Where syllables are their own text, every segment carries the bytes of its span. -/
def Spelled (input : Bytes) (path : List ParsedSyllable) : Prop :=
  ∀ s ∈ path, s.syllable = between input s.start s.stop

theorem Spelled.append {front back : List ParsedSyllable} (h : Spelled input front)
    (h' : Spelled input back) : Spelled input (front ++ back) := by
  intro s hs
  exact (List.mem_append.mp hs).elim (h s) (h' s)

variable (hlex : ∀ {bytes text}, lex.complete bytes = some text → text = bytes)
include hlex

theorem Segments.spelled {s e : Nat} {path : List ParsedSyllable} (h : Segments lex input s e path) :
    Spelled input path := by
  induction h with
  | nil => simp [Spelled]
  | cons _ htext _ ih =>
    intro s hs
    rcases List.mem_cons.mp hs with rfl | hs
    · exact hlex htext
    · exact ih s hs

theorem FallbackSegments.spelled {s t : Nat} {path : List ParsedSyllable} (h : FallbackSegments lex input s t path) :
    Spelled input path := by
  cases h with
  | complete h => exact h.spelled hlex
  | stub h _ _ _ =>
    refine (h.spelled hlex).append fun s hs => ?_
    rw [List.mem_singleton.mp hs]

theorem Alternative.spelled {pos r : Nat} {path : List ParsedSyllable} (h : Alternative lex input pos path r) :
    Spelled input path := by
  induction h with
  | stop _ => simp [Spelled]
  | group _ hsegs _ ih => exact (hsegs.spelled hlex).append ih
  | fallback _ _ _ _ hsegs => exact hsegs.spelled hlex
  | stuck _ _ _ => simp [Spelled]

end Oxpinyin
