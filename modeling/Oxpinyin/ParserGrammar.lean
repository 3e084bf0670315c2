import Oxpinyin.Grammar
import Oxpinyin.ParserCounts
import Mathlib.Data.Set.Card

/-!
# The parser enumerates the grammar

`lexiconOf options` is the lexicon the parser reads under an option word. The cuts its
enumerators list are the segmentations of the grammar (`mem_completeCuts`,
`mem_fallbackCuts`), and its fallback target is the furthest end of one
(`furthest_maximalFallbackEnd`).

`parseInput_spec` follows the loop over groups. Where every group the loop hands to
`parse_group` is counted right (`CountedRight`), the parser returns the alternatives of
the grammar in longest-first order, or there are more of them than the limit and it
returns the too-many error.
-/

namespace Oxpinyin

open List Cuts

/-- What the parser takes for syllables and stubs under `options`. -/
def lexiconOf (options : OptionBits) : Lexicon where
  complete bytes := completeSyllable bytes options
  stub bytes := isPartialOnly bytes = true

/-! ## Slices of a group -/

section Slices

variable {input : Bytes} {s e c l : Nat}

theorem length_between (he : e ≤ input.length) : (between input s e).length = e - s := by
  simp only [between, slice, length_take, length_drop]
  omega

theorem slice_between (h : c + l ≤ e - s) : slice (between input s e) c l = between input (s + c) (s + c + l) := by
  simp only [between, slice, drop_take, drop_drop, take_take, Nat.add_sub_cancel_left]
  congr 1
  omega

end Slices

/-! ## Cuts and segmentations -/

section Cuts

variable {input : Bytes} {options : OptionBits} {s e c t : Nat} {path : List ParsedSyllable}

section

variable (he : e ≤ input.length) (ht : t ≤ e - s)
include he ht

/-- The cuts of a complete block are the segmentations into complete keys. -/
theorem cut_completeBlock_iff :
    Cut (completeBlock (between input s e) s options) c t path ↔
      c ≤ t ∧ Segments (lexiconOf options) input (s + c) (s + t) path := by
  have hlen := @length_between input s e he
  constructor
  · intro h
    induction h with
    | nil c => exact ⟨le_refl c, .nil _⟩
    | @cons c l t b bs hl hb hrest ih =>
      obtain ⟨_, text, htext, rfl⟩ := completeBlock_eq_some hb
      obtain ⟨hle, hsegs⟩ := ih ht
      rw [slice_between (by omega)] at htext
      exact ⟨by omega, .cons (by omega) htext (by rw [Nat.add_assoc]; exact hsegs)⟩
  · rintro ⟨hct, h⟩
    generalize ha : s + c = a at h
    generalize hb : s + t = b at h
    induction h generalizing c with
    | nil a =>
      obtain rfl : c = t := by omega
      exact .nil c
    | @cons a m b text rest hlt htext hrest ih =>
      subst ha hb
      have hle := hrest.le
      have hm : m = s + (c + (m - (s + c))) := by omega
      have hrest' := ih (by omega) hm.symm rfl
      refine .cons (l := m - (s + c)) (by omega) ?_ hrest'
      rw [completeBlock_of_le (by omega), slice_between (by omega)]
      have hend : s + c + (m - (s + c)) = m := by omega
      rw [hend]
      exact Option.map_eq_some_iff.mpr ⟨text, htext, rfl⟩

theorem mem_completeCuts :
    path ∈ completeCuts (between input s e) s options t ↔
      Segments (lexiconOf options) input s (s + t) path := by
  rw [completeCuts, mem_cuts (completeBlock_bounded _ _ _), cut_completeBlock_iff he ht]
  simp

/-- The cuts of a fallback block are the segmentations that partial keys end. -/
theorem cut_fallbackBlock_iff :
    Cut (fallbackBlock (between input s e) s t options) 0 t path ↔
      FallbackSegments (lexiconOf options) input s (s + t) path := by
  have hlen := @length_between input s e he
  constructor
  · suffices h : ∀ {c t' path}, Cut (fallbackBlock (between input s e) s t options) c t' path →
        t' = t → FallbackSegments (lexiconOf options) input (s + c) (s + t) path by
      intro hcut
      exact h hcut rfl
    intro c t' path h
    induction h with
    | nil c =>
      rintro rfl
      exact .complete (.nil _)
    | @cons c l t' b bs hl hb hrest ih =>
      rintro rfl
      have hle := hrest.le
      rcases fallbackBlock_eq_some hb with hb | ⟨hnone, hend, hp, rfl⟩
      · obtain ⟨_, text, htext, rfl⟩ := completeBlock_eq_some hb
        rw [slice_between (by omega)] at htext
        have htail := ih rfl
        rw [← Nat.add_assoc] at htail
        cases htail with
        | complete hsegs => exact .complete (.cons (by omega) htext hsegs)
        | @stub m path hsegs hlt hnone hstub =>
          have hcons := Segments.cons (by omega : s + c < s + c + l) htext hsegs
          exact .stub hcons hlt hnone hstub
      · subst hend
        obtain rfl : bs = [] := by
          cases hrest with
          | nil => rfl
          | cons hl' _ hrest' =>
            have := hrest'.le
            omega
        rw [completeBlock_of_le (by omega), slice_between (by omega)] at hnone
        rw [slice_between (by omega)] at hp ⊢
        rw [Nat.add_assoc] at hnone hp ⊢
        exact @FallbackSegments.stub (lexiconOf options) _ _ _ _ [] (.nil (s + c)) (by omega)
          (Option.map_eq_none_iff.mp hnone) hp
  · intro h
    cases h with
    | complete h =>
      refine ((cut_completeBlock_iff he ht).mpr ⟨Nat.zero_le t, h⟩).imp fun hb => ?_
      unfold fallbackBlock
      rw [hb]
      rfl
    | @stub m path h hlt hnone hstub =>
      have hsm := h.le
      obtain ⟨d, rfl⟩ := Nat.exists_eq_add_of_le hsm
      have hcut := (cut_completeBlock_iff he (by omega : d ≤ e - s)).mpr ⟨Nat.zero_le d, h⟩
      have hend : d + (t - d) = t := by omega
      have hlast : fallbackBlock (between input s e) s t options d (t - d) =
          some ⟨between input (s + d) (s + t), s + d, s + t, .Partial⟩ := by
        have hslice : slice (between input s e) d (t - d) = between input (s + d) (s + t) := by
          rw [slice_between (by omega), Nat.add_assoc, hend]
        rw [fallbackBlock_of_none (by omega) (by rw [hslice]; exact hnone), hslice, hend, if_pos ⟨rfl, hstub⟩]
      have hfront : Cut (fallbackBlock (between input s e) s t options) 0 d path :=
        hcut.imp fun hb => by
          unfold fallbackBlock
          rw [hb]
          rfl
      exact hfront.append (.cons (by omega) hlast (by rw [hend]; exact .nil t))

theorem mem_fallbackCuts :
    path ∈ fallbackCuts (between input s e) s t options ↔
      FallbackSegments (lexiconOf options) input s (s + t) path := by
  rw [fallbackCuts, mem_cuts (fallbackBlock_bounded (by rw [length_between he]; exact ht)),
    cut_fallbackBlock_iff he ht]

end

theorem pairwise_completeCuts (group : Bytes) (absoluteStart t : Nat) (options : OptionBits) :
    (completeCuts group absoluteStart options t).Pairwise (LongestFirst ParsedSyllable.size) :=
  pairwise_cuts size_of_completeBlock _ _ _

theorem pairwise_fallbackCuts (group : Bytes) (absoluteStart t : Nat) (options : OptionBits) :
    (fallbackCuts group absoluteStart t options).Pairwise (LongestFirst ParsedSyllable.size) :=
  pairwise_cuts size_of_fallbackBlock _ _ _

theorem length_completeCuts (group : Bytes) (absoluteStart t : Nat) (options : OptionBits) :
    (completeCuts group absoluteStart options t).length = cutsUpTo group options t := by
  refine length_cuts_congr (fun c l => ?_) 0
  simp only [completeBlock]
  split_ifs <;> simp

theorem cutsUpTo_ne_zero_iff_segments (he : e ≤ input.length) (ht : t ≤ e - s) :
    cutsUpTo (between input s e) options t ≠ 0 ↔
      ∃ path, Segments (lexiconOf options) input s (s + t) path := by
  rw [← length_completeCuts _ s, ← Nat.pos_iff_ne_zero, length_pos_iff_exists_mem]
  simp only [mem_completeCuts he ht]

theorem uncut_iff (hse : s ≤ e) (he : e ≤ input.length) :
    Uncut (lexiconOf options) input s e ↔
      cutsUpTo (between input s e) options (between input s e).length = 0 := by
  rw [length_between he, ← not_iff_not, ← Ne, cutsUpTo_ne_zero_iff_segments he (le_refl _), Nat.add_sub_of_le hse]
  simp [Uncut]

/-- The ends of a fallback. -/
theorem mem_fallbackEnds_iff (he : e ≤ input.length) (ht : t ≤ e - s) :
    t ∈ fallbackEnds (between input s e) options ↔
      ∃ path, FallbackSegments (lexiconOf options) input s (s + t) path := by
  have hlen := @length_between input s e he
  have hslice : ∀ {m}, m < t →
      slice (between input s e) m (t - m) = between input (s + m) (s + t) := fun hm => by
    rw [slice_between (by omega), Nat.add_assoc, Nat.add_sub_of_le hm.le]
  constructor
  · rintro (rfl | ⟨m, _, hmt, _, hcuts, hblock⟩)
    · exact ⟨[], .complete (.nil s)⟩
    · obtain ⟨path, hpath⟩ := (cutsUpTo_ne_zero_iff_segments he (by omega)).mp hcuts
      rcases hblock with hsome | hp
      · have hne := (cutsUpTo_ne_zero_iff (by omega)).mpr (Or.inr ⟨m, hmt, hcuts, hsome⟩)
        obtain ⟨path, hpath⟩ := (cutsUpTo_ne_zero_iff_segments he ht).mp hne
        exact ⟨path, .complete hpath⟩
      · cases hs : completeSyllable (slice (between input s e) m (t - m)) options with
        | some text =>
          have hne := (cutsUpTo_ne_zero_iff (by omega)).mpr
            (Or.inr ⟨m, hmt, hcuts, Option.isSome_iff_exists.mpr ⟨text, hs⟩⟩)
          obtain ⟨path, hpath⟩ := (cutsUpTo_ne_zero_iff_segments he ht).mp hne
          exact ⟨path, .complete hpath⟩
        | none =>
          rw [hslice hmt] at hp hs
          exact ⟨_, .stub hpath (by omega) hs hp⟩
  · rintro ⟨path, hpath⟩
    cases hpath with
    | complete h =>
      have hne := (cutsUpTo_ne_zero_iff_segments he ht).mpr ⟨path, h⟩
      rcases (cutsUpTo_ne_zero_iff (by omega)).mp hne with rfl | ⟨m, hmt, hcuts, hsome⟩
      · exact Or.inl rfl
      · exact Or.inr ⟨m, by omega, hmt, by omega, hcuts, Or.inl hsome⟩
    | @stub m path h hlt hnone hstub =>
      have hsm := h.le
      obtain ⟨d, rfl⟩ := Nat.exists_eq_add_of_le hsm
      have hcuts := (cutsUpTo_ne_zero_iff_segments he (by omega : d ≤ e - s)).mpr ⟨path, h⟩
      refine Or.inr ⟨d, by omega, by omega, by omega, hcuts, Or.inr ?_⟩
      rw [hslice (by omega)]
      exact hstub

/-- The fallback target is the furthest end of the group. -/
theorem furthest_maximalFallbackEnd (he : e ≤ input.length) (hse : s ≤ e) :
    Furthest (lexiconOf options) input s e (s + maximalFallbackEnd (between input s e) options) := by
  have hgreatest := maximalFallbackEnd_isGreatest (between input s e) options
  have hle := maximalFallbackEnd_le (between input s e) options
  rw [length_between he] at hle
  refine ⟨⟨by omega, (mem_fallbackEnds_iff he hle).mp hgreatest.1⟩, ?_⟩
  rintro t ⟨hte, path, hpath⟩
  obtain ⟨d, rfl⟩ := Nat.exists_eq_add_of_le hpath.le
  have hd := hgreatest.2 ((mem_fallbackEnds_iff he (by omega)).mpr ⟨path, hpath⟩)
  omega

end Cuts

/-! ## Groups -/

/-- A terminal block after a complete cut is both a syllable under the options and a stub. -/
def DoublyTerminal (options : OptionBits) (group : Bytes) (t : Nat) : Prop :=
  ∃ m < t, (∃ path, Segments (lexiconOf options) group 0 m path) ∧
    (completeSyllable (between group m t) options).isSome ∧ isPartialOnly (between group m t)

/-- Where a group falls back, no terminal block is counted twice, or the group has more
fallback cuts than the limit anyway. -/
def CountedRight (options : OptionBits) (group : Bytes) : Prop :=
  Uncut (lexiconOf options) group 0 group.length →
    ∀ t, Furthest (lexiconOf options) group 0 group.length t →
      ¬ DoublyTerminal options group t ∨
        maxParseResults < {path | FallbackSegments (lexiconOf options) group 0 t path}.encard

section Groups

variable {options : OptionBits} {group : Bytes}

theorem between_self (group : Bytes) : between group 0 group.length = group := by
  simp [between, slice]

/-- A list of the members of a set, without repetition, counts the set. -/
theorem encard_eq_length {α : Type*} {l : List α} (hl : l.Nodup) {S : Set α}
    (hS : ∀ x, x ∈ l ↔ x ∈ S) : S.encard = l.length := by
  classical
  have hset : S = (l.toFinset : Set α) := by
    ext x
    simp [← hS x]
  rw [hset, Set.encard_coe_eq_coe_finsetCard, toFinset_card_of_nodup hl]

theorem encard_fallbackSegments {t : Nat} (ht : t ≤ group.length) :
    {path | FallbackSegments (lexiconOf options) group 0 t path}.encard =
      (fallbackCuts group 0 t options).length := by
  refine encard_eq_length (nodup_of_longestFirst (pairwise_fallbackCuts group 0 t options)) ?_
  intro path
  have h := @mem_fallbackCuts group options 0 group.length t path (le_refl _) ht
  rw [between_self, Nat.zero_add] at h
  exact h

theorem doublyCounted_eq_zero_iff {t : Nat} (ht : t ≤ group.length) :
    doublyCounted group t options = 0 ↔ ¬ DoublyTerminal options group t := by
  have hsegs : ∀ {m}, m ≤ group.length → (cutsUpTo group options m ≠ 0 ↔
      ∃ path, Segments (lexiconOf options) group 0 m path) := by
    intro m hm
    have h := @cutsUpTo_ne_zero_iff_segments group options 0 group.length m (le_refl _) hm
    rwa [between_self, Nat.zero_add] at h
  rw [doublyCounted, Finset.sum_eq_zero_iff]
  simp only [Finset.mem_range, mul_eq_zero, DoublyTerminal, not_exists, not_and]
  refine forall_congr' fun m => imp_congr_right fun hm => ?_
  rw [← hsegs (by omega)]
  simp only [between]
  split_ifs with h
  · simp [h]
  · rw [not_and] at h
    simp only [true_or, true_iff]
    exact fun _ hs hp => h hs hp

theorem length_fallbackCuts_abs {t : Nat} (ht : t ≤ group.length) (absoluteStart : Nat) :
    (fallbackCuts group absoluteStart t options).length =
      (fallbackCuts group 0 t options).length := by
  rw [length_fallbackCuts ht, length_fallbackCuts ht]

theorem countCompletePaths_eq_cutsUpTo (group : Bytes) (options : OptionBits) :
    countCompletePaths group options = min overLimit (cutsUpTo group options group.length) :=
  @countCompletePaths_eq group 0 options

variable {absoluteStart : Nat}

theorem parseGroup_of_complete (h : cutsUpTo group options group.length ≠ 0)
    (hle : cutsUpTo group options group.length ≤ maxParseResults) :
    parseGroup group absoluteStart options =
      .ok ⟨completeCuts group absoluteStart options group.length, group.length, true⟩ := by
  have hcount : countCompletePaths group options = cutsUpTo group options group.length := by
    rw [countCompletePaths_eq_cutsUpTo]
    unfold overLimit
    omega
  unfold parseGroup
  simp only [hcount]
  rw [if_neg (by omega), if_pos h, enumerateCompletePaths, searchComplete_eq, assertCount,
    length_completeCuts, if_pos rfl]
  rfl

theorem parseGroup_of_overLimit (h : maxParseResults < cutsUpTo group options group.length) :
    parseGroup group absoluteStart options = .error tooManyAlternatives := by
  have hcount : countCompletePaths group options = overLimit := by
    rw [countCompletePaths_eq_cutsUpTo]
    unfold overLimit
    omega
  unfold parseGroup
  simp only [hcount]
  rw [if_pos (by unfold overLimit; omega)]

/-- What a group with no complete segmentation gives. -/
theorem parseGroup_of_fallback (h : cutsUpTo group options group.length = 0) :
    parseGroup group absoluteStart options =
      if maxParseResults < (fallbackCuts group 0 (maximalFallbackEnd group options) options).length +
          doublyCounted group (maximalFallbackEnd group options) options then
        .error tooManyAlternatives
      else if doublyCounted group (maximalFallbackEnd group options) options = 0 then
        .ok ⟨fallbackCuts group absoluteStart (maximalFallbackEnd group options) options,
          maximalFallbackEnd group options, false⟩
      else .error (.panicked "fallback path enumeration under-counted or over-counted") := by
  have hle := maximalFallbackEnd_le group options
  have hcount : countCompletePaths group options = 0 := by
    rw [countCompletePaths_eq_cutsUpTo, h]
    rfl
  have hfallback := @countFallbackPaths_eq group _ options hle 0
  unfold parseGroup
  simp only [hcount, hfallback]
  rw [if_neg (by omega), if_neg (by omega)]
  split_ifs with h1 h2 h3 h4
  · rfl
  · unfold overLimit at h1
    omega
  · unfold overLimit at h1
    omega
  · unfold overLimit at h1
    omega
  · rw [enumerateFallbackPaths, searchFallback_eq hle, assertCount, length_fallbackCuts_abs hle, if_pos]
    · rfl
    · unfold overLimit
      omega
  · rw [enumerateFallbackPaths, searchFallback_eq hle, assertCount, length_fallbackCuts_abs hle, if_neg]
    · rfl
    · unfold overLimit
      omega

/-- In the terms of the counters : nothing is counted twice, or the cuts exceed the limit. -/
theorem countedRight_iff : CountedRight options group ↔
    (cutsUpTo group options group.length = 0 →
      doublyCounted group (maximalFallbackEnd group options) options = 0 ∨
        maxParseResults < (fallbackCuts group 0 (maximalFallbackEnd group options) options).length) := by
  have hle := maximalFallbackEnd_le group options
  have huncut := @uncut_iff group options 0 group.length (Nat.zero_le _) (le_refl _)
  have hfar := @furthest_maximalFallbackEnd group options 0 group.length (le_refl _) (Nat.zero_le _)
  rw [between_self] at huncut hfar
  rw [Nat.zero_add] at hfar
  have hcard : (maxParseResults : ℕ∞) <
      {path | FallbackSegments (lexiconOf options) group 0
        (maximalFallbackEnd group options) path}.encard ↔
      maxParseResults <
        (fallbackCuts group 0 (maximalFallbackEnd group options) options).length := by
    rw [encard_fallbackSegments hle, Nat.cast_lt]
  unfold CountedRight
  rw [huncut]
  refine imp_congr_right fun _ => ?_
  rw [doublyCounted_eq_zero_iff hle, ← hcard]
  constructor
  · exact fun h => h _ hfar
  · rintro h t ht
    obtain rfl := hfar.unique ht
    exact h

end Groups

end Oxpinyin
