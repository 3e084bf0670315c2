import Oxpinyin.Parser

/-!
# What the parser's enumerators compute

The segmentations of a group are cuts of its bytes into labelled blocks
(`completeBlock`, `fallbackBlock`). Each enumerator lists them
(`searchComplete_eq`, `searchFallback_eq`) : its stack loop stops
within its fuel and finds them longest block first.
-/

namespace Oxpinyin

open List Cuts Backtrack Oxpinyin.Frame
open Option hiding any_eq_true map_map

/-! ## Blocks -/

/-- The complete syllable at `c` of length `l`, as a segment. -/
def completeBlock (group : Bytes) (absoluteStart : Nat) (options : OptionBits) (c l : Nat) :
    Option ParsedSyllable :=
  if c + l ≤ group.length then
    (completeSyllable (slice group c l) options).map fun syllable =>
      ⟨syllable, absoluteStart + c, absoluteStart + c + l, .Complete⟩
  else none

/-- A complete syllable, or else the terminal partial up to `target`. -/
def fallbackBlock (group : Bytes) (absoluteStart target : Nat) (options : OptionBits)
    (c l : Nat) : Option ParsedSyllable :=
  (completeBlock group absoluteStart options c l).orElse fun _ =>
    if c + l = target ∧ isPartialOnly (slice group c l) then
      some ⟨slice group c l, absoluteStart + c, absoluteStart + (c + l), .Partial⟩
    else none

/-- The cuts of the first `t` bytes of the group into complete syllables. -/
def completeCuts (group : Bytes) (absoluteStart : Nat) (options : OptionBits) (t : Nat) :
    List (List ParsedSyllable) :=
  cuts (completeBlock group absoluteStart options) maxSyllableLen t 0

/-- The cuts of the first `target` bytes of the group, the last block possibly partial. -/
def fallbackCuts (group : Bytes) (absoluteStart target : Nat) (options : OptionBits) :
    List (List ParsedSyllable) :=
  cuts (fallbackBlock group absoluteStart target options) maxSyllableLen target 0

/-- Byte length of a segment. -/
def ParsedSyllable.size (s : ParsedSyllable) : Nat :=
  s.stop - s.start

section Blocks

variable {group : Bytes} {absoluteStart target : Nat} {options : OptionBits} {c l : Nat} {b : ParsedSyllable}

theorem length_slice (h : c + l ≤ group.length) : (slice group c l).length = l := by
  simp only [slice, length_take, length_drop]
  omega

variable {bytes : Bytes}

theorem completeSyllable_wellSpelled {s : Bytes}
    (h : completeSyllable bytes options = some s) : WellSpelled bytes := by
  obtain ⟨key, hkey, _⟩ := bind_eq_some_iff.mp h
  exact SyllableKey.fromOptionText_wellSpelled hkey

/-- A partial-only slice is shorter than some syllable. -/
theorem length_lt_of_isPartialOnly (h : isPartialOnly bytes = true) :
    bytes.length < maxSyllableLen := by
  simp only [isPartialOnly, Bool.and_eq_true, any_eq_true, decide_eq_true_eq] at h
  obtain ⟨_, s, hs, hlt, _⟩ := h
  have := (fullPinyinSyllables_wellSpelled s hs).2.1
  omega

theorem completeBlock_eq_some (h : completeBlock group absoluteStart options c l = some b) :
    c + l ≤ group.length ∧ ∃ s, completeSyllable (slice group c l) options = some s ∧
      b = ⟨s, absoluteStart + c, absoluteStart + c + l, .Complete⟩ := by
  unfold completeBlock at h
  split_ifs at h with hle
  obtain ⟨s, hs, rfl⟩ := map_eq_some_iff.mp h
  exact ⟨hle, s, hs, rfl⟩

theorem completeBlock_of_le (h : c + l ≤ group.length) :
    completeBlock group absoluteStart options c l =
      (completeSyllable (slice group c l) options).map fun s =>
        ⟨s, absoluteStart + c, absoluteStart + c + l, .Complete⟩ := by
  rw [completeBlock, if_pos h]

theorem isSome_completeBlock (h : c + l ≤ group.length) :
    (completeBlock group absoluteStart options c l).isSome =
      (completeSyllable (slice group c l) options).isSome := by
  rw [completeBlock_of_le h, isSome_map]

theorem completeBlock_bounded (group : Bytes) (absoluteStart : Nat) (options : OptionBits) :
    Bounded (completeBlock group absoluteStart options) maxSyllableLen := by
  intro c l b h
  obtain ⟨hle, s, hs, _⟩ := completeBlock_eq_some h
  have hlen := (completeSyllable_wellSpelled hs).2.1
  rwa [length_slice hle] at hlen

theorem size_of_completeBlock (h : completeBlock group absoluteStart options c l = some b) : b.size = l := by
  obtain ⟨_, s, _, rfl⟩ := completeBlock_eq_some h
  simp [ParsedSyllable.size]

/-- A fallback block is complete, or the terminal partial where no complete one is. -/
theorem fallbackBlock_eq_some (h : fallbackBlock group absoluteStart target options c l = some b) :
    completeBlock group absoluteStart options c l = some b ∨
      (completeBlock group absoluteStart options c l = none ∧ c + l = target ∧
        isPartialOnly (slice group c l) = true ∧
        b = ⟨slice group c l, absoluteStart + c, absoluteStart + (c + l), .Partial⟩) := by
  unfold fallbackBlock at h
  cases hc : completeBlock group absoluteStart options c l with
  | some b' =>
    rw [hc] at h
    exact Or.inl h
  | none =>
    rw [hc] at h
    simp only [orElse_none] at h
    split_ifs at h with hp
    exact Or.inr ⟨rfl, hp.1, hp.2, (some.inj h).symm⟩

/-- Below the target only complete blocks are left. -/
theorem fallbackBlock_of_lt (h : c + l < target) :
    fallbackBlock group absoluteStart target options c l =
      completeBlock group absoluteStart options c l := by
  unfold fallbackBlock
  rw [if_neg (by omega)]
  cases completeBlock group absoluteStart options c l <;> rfl

theorem fallbackBlock_bounded (htarget : target ≤ group.length) :
    Bounded (fallbackBlock group absoluteStart target options) maxSyllableLen := by
  intro c l b h
  rcases fallbackBlock_eq_some h with h | ⟨_, hend, hp, _⟩
  · exact completeBlock_bounded _ _ _ h
  · have hlen := length_lt_of_isPartialOnly hp
    rw [length_slice (by omega)] at hlen
    omega

theorem size_of_fallbackBlock (h : fallbackBlock group absoluteStart target options c l = some b) : b.size = l := by
  rcases fallbackBlock_eq_some h with h | ⟨_, _, _, rfl⟩
  · exact size_of_completeBlock h
  · simp only [ParsedSyllable.size]
    omega

end Blocks

/-! ## The stack loops -/

/-- A stack search whose frame `⟨c, n⟩` lists the cuts of `[c, t)` with a first block of
length at most `n`. -/
structure CutSearch (expand : List ParsedSyllable → Frame → Outcome Frame ParsedSyllable)
    (label : Nat → Nat → Option ParsedSyllable) (t : Nat) : Prop where
  /-- At the end there is one cut. -/
  done : ∀ p n, expand p ⟨t, n⟩ = .leave [[]]
  /-- A frame that does not descend has reported all its cuts. -/
  leave : ∀ {p c n found}, c ≠ t → expand p ⟨c, n⟩ = .leave found → c + n ≤ t →
    cutsBelow label maxSyllableLen t c n = found
  /-- A frame that descends has reported the cuts of the longer blocks. -/
  enter : ∀ {p c n found resume b child}, c ≠ t →
    expand p ⟨c, n⟩ = .enter found resume b child → ∃ l, 0 < l ∧ l ≤ n ∧
      resume = ⟨c, l - 1⟩ ∧ child = Frame.new (c + l) t ∧
      (c + n ≤ t → cutsBelow label maxSyllableLen t c n =
        found ++ ((cuts label maxSyllableLen t (c + l)).map (b :: ·) ++
          cutsBelow label maxSyllableLen t c (l - 1)))
  /-- No frame is replaced. -/
  noStay : ∀ {p f g}, expand p f ≠ .stay g

namespace CutSearch

variable {expand : List ParsedSyllable → Frame → Outcome Frame ParsedSyllable}
  {label : Nat → Nat → Option ParsedSyllable} {t : Nat}

/-- The cuts a frame still has to report. -/
def frameCuts (label : Nat → Nat → Option ParsedSyllable) (t : Nat) (f : Frame) :
    List (List ParsedSyllable) :=
  if f.cursor = t then [[]] else cutsBelow label maxSyllableLen t f.cursor f.nextLength

theorem frameCuts_new (label : Nat → Nat → Option ParsedSyllable) (t c : Nat) :
    frameCuts label t (new c t) = cuts label maxSyllableLen t c := by
  unfold frameCuts new
  split_ifs with h
  · simp only at h
    rw [h, cuts_self]
  · rw [cuts_of_ne h]

variable {p : List ParsedSyllable} {f : Frame}

theorem cursor_ne_of_enter (h : CutSearch expand label t)
    {found : List (List ParsedSyllable)} {resume child : Frame} {b : ParsedSyllable}
    (he : expand p f = .enter found resume b child) : f.cursor ≠ t := by
  rintro rfl
  rw [h.done p f.nextLength] at he
  cases he

/-- A frame yields its path followed by each of its cuts. -/
theorem yields (h : CutSearch expand label t)
    {ys : List (List ParsedSyllable)} {n : Nat} (hy : Yields expand p f ys n)
    (hf : f.cursor + f.nextLength ≤ t) : ys = (frameCuts label t f).map (p ++ ·) := by
  induction hy with
  | @leave p f found he =>
    obtain ⟨c, m⟩ := f
    by_cases hc : c = t
    · subst hc
      obtain rfl : found = [[]] := by simpa [h.done p m] using he.symm
      simp [frameCuts]
    · simp only [frameCuts, if_neg hc, h.leave hc he hf]
  | stay he => exact absurd he h.noStay
  | @enter p f found resume b child ys zs k m he _ _ ihc ihr =>
    obtain ⟨c, m⟩ := f
    have hc : c ≠ t := h.cursor_ne_of_enter he
    obtain ⟨l, hl, hle, rfl, rfl, hcuts⟩ := h.enter hc he
    simp only at hf
    have hchild := ihc (by simp only [new]; omega)
    have hresume := ihr (by simp only; omega)
    rw [frameCuts_new] at hchild
    have hr : frameCuts label t ⟨c, l - 1⟩ = cutsBelow label maxSyllableLen t c (l - 1) := by
      rw [frameCuts, if_neg hc]
    rw [hchild, hresume, hr]
    simp only [frameCuts, if_neg hc, hcuts hf, map_append, map_map]
    congr 2
    refine map_congr_left fun x _ => ?_
    simp

/-- Every frame shrinks : the blocks left to try, then the bytes left. -/
def rank (t : Nat) (_ : List ParsedSyllable) (f : Frame) : Nat :=
  7 * (t - f.cursor) + f.nextLength

theorem ranked (h : CutSearch expand label t) : Ranked expand (rank t) where
  stay he := absurd he h.noStay
  resume he := by
    obtain ⟨l, hl, hle, rfl, _, _⟩ := h.enter (h.cursor_ne_of_enter he) he
    simp only [rank]
    omega
  child he := by
    obtain ⟨l, hl, hle, _, rfl, _⟩ := h.enter (h.cursor_ne_of_enter he) he
    simp only [rank, new, maxSyllableLen]
    omega

/-- The loop stops within its fuel with the cuts in order. -/
theorem run_eq (h : CutSearch expand label t) :
    run expand (enumerationFuel t) ⟨[], [], [new 0 t]⟩ =
      some (cuts label maxSyllableLen t 0) := by
  have hfuel : 2 ^ (rank t [] (new 0 t) + 1) ≤ enumerationFuel t := by
    unfold enumerationFuel
    refine Nat.pow_le_pow_right (by omega) ?_
    simp only [rank, new, maxSyllableLen]
    omega
  obtain ⟨ys, n, hy, hrun⟩ := run_eq_of_ranked h.ranked hfuel
  have hnew : (new 0 t).cursor + (new 0 t).nextLength ≤ t := by
    simp only [new]
    omega
  rw [hrun, h.yields hy hnew, frameCuts_new]
  simp

end CutSearch

section Enumerators

variable {group : Bytes} {absoluteStart target : Nat} {options : OptionBits}

/-- What a scan of the blocks at `c` finds : the cuts it reports on its way, and the complete block it stops at. -/
def Scanned (label : Nat → Nat → Option ParsedSyllable) (absoluteStart t c n : Nat)
    (found : List (List ParsedSyllable)) : Option (Bytes × Nat) → Prop
  | some (s, l) => 0 < l ∧ l ≤ n ∧ (c + n ≤ t → cutsBelow label maxSyllableLen t c n =
      found ++ ((cuts label maxSyllableLen t (c + l)).map
        (⟨s, absoluteStart + c, absoluteStart + c + l, .Complete⟩ :: ·) ++
        cutsBelow label maxSyllableLen t c (l - 1)))
  | none => c + n ≤ t → cutsBelow label maxSyllableLen t c n = found

/-- The turn at a frame after its scan. -/
def turn (absoluteStart t c : Nat) (found : List (List ParsedSyllable)) :
    Option (Bytes × Nat) → Outcome Frame ParsedSyllable
  | some (s, l) => .enter found ⟨c, l - 1⟩ ⟨s, absoluteStart + c, absoluteStart + c + l, .Complete⟩
      (Frame.new (c + l) t)
  | none => .leave found

/-- A loop that scans and then takes its turn searches the cuts. -/
theorem cutSearch_of_scanned {expand : List ParsedSyllable → Frame → Outcome Frame ParsedSyllable}
    {label : Nat → Nat → Option ParsedSyllable} {t : Nat} {found : Nat → Nat → List (List ParsedSyllable)}
    {block : Nat → Nat → Option (Bytes × Nat)} (hexpand : ∀ p c n, expand p ⟨c, n⟩ =
      if c = t then .leave [[]] else turn absoluteStart t c (found c n) (block c n))
    (hscan : ∀ c n, Scanned label absoluteStart t c n (found c n) (block c n)) : CutSearch expand label t where
  done p n := by rw [hexpand, if_pos rfl]
  leave {p c n _} hc he hle := by
    have hcuts := hscan c n
    rw [hexpand, if_neg hc] at he
    cases hblock : block c n with
    | some next =>
      rw [hblock] at he
      cases he
    | none =>
      rw [hblock] at he hcuts
      obtain rfl := Outcome.leave.inj he
      exact hcuts hle
  enter {p c n _ _ _ _} hc he := by
    have hcuts := hscan c n
    rw [hexpand, if_neg hc] at he
    cases hblock : block c n with
    | some next =>
      rw [hblock] at he hcuts
      obtain ⟨rfl, rfl, rfl, rfl⟩ := Outcome.enter.inj he
      exact ⟨next.2, hcuts.1, hcuts.2.1, rfl, rfl, hcuts.2.2⟩
    | none =>
      rw [hblock] at he
      cases he
  noStay {p f g} he := by
    rw [hexpand p f.cursor f.nextLength] at he
    split_ifs at he
    cases hblock : block f.cursor f.nextLength <;> rw [hblock] at he <;> cases he

section Scans

variable {label : Nat → Nat → Option ParsedSyllable} {t c n : Nat} {found extra : List (List ParsedSyllable)}

/-- A scan that stops at its first block. -/
theorem Scanned.stop {s : Bytes} (hblock : c + (n + 1) ≤ t →
      label c (n + 1) = some ⟨s, absoluteStart + c, absoluteStart + c + (n + 1), .Complete⟩) :
    Scanned label absoluteStart t c (n + 1) [] (some (s, n + 1)) := by
  refine ⟨by omega, le_refl _, fun hle => ?_⟩
  rw [cutsBelow_succ_of_some (hblock hle), Nat.add_sub_cancel]
  rfl

/-- A scan that goes on past its first block. -/
theorem Scanned.skip {block : Option (Bytes × Nat)} (h : Scanned label absoluteStart t c n found block)
    (hskip : c + (n + 1) ≤ t →
      cutsBelow label maxSyllableLen t c (n + 1) = extra ++ cutsBelow label maxSyllableLen t c n) :
    Scanned label absoluteStart t c (n + 1) (extra ++ found) block := by
  cases block with
  | some next =>
    refine ⟨h.1, Nat.le_succ_of_le h.2.1, fun hle => ?_⟩
    rw [hskip hle, h.2.2 (by omega), append_assoc]
  | none =>
    intro hle
    rw [hskip hle, h (by omega)]

end Scans

theorem scanned_nextComplete (group : Bytes) (absoluteStart : Nat) (options : OptionBits) (c : Nat) : ∀ n,
    Scanned (completeBlock group absoluteStart options) absoluteStart group.length c n []
      (nextComplete group options c n)
  | 0 => fun _ => rfl
  | n + 1 => by
    rw [nextComplete]
    cases hs : completeSyllable (slice group c (n + 1)) options with
    | some s => exact .stop fun hle => by rw [completeBlock_of_le hle, hs, map_some]
    | none =>
      refine @Scanned.skip absoluteStart _ _ c n [] [] _ (scanned_nextComplete group absoluteStart options c n)
        fun hle => ?_
      rw [cutsBelow_succ_of_none (by rw [completeBlock_of_le hle, hs, map_none]), nil_append]

/-- The loop of `enumerate_complete_paths` searches the complete cuts. -/
theorem cutSearch_expandComplete (group : Bytes) (absoluteStart : Nat) (options : OptionBits) :
    CutSearch (expandComplete group absoluteStart options)
      (completeBlock group absoluteStart options) group.length := by
  refine cutSearch_of_scanned (fun p c n => ?_) (scanned_nextComplete group absoluteStart options)
  rw [expandComplete]
  cases nextComplete group options c n <;> rfl

theorem fallbackBlock_of_some {c l : Nat} {s : Bytes} (hle : c + l ≤ group.length)
    (hs : completeSyllable (slice group c l) options = some s) :
    fallbackBlock group absoluteStart target options c l =
      some ⟨s, absoluteStart + c, absoluteStart + c + l, .Complete⟩ := by
  unfold fallbackBlock
  rw [completeBlock_of_le hle, hs]
  rfl

theorem fallbackBlock_of_none {c l : Nat} (hle : c + l ≤ group.length)
    (hs : completeSyllable (slice group c l) options = none) :
    fallbackBlock group absoluteStart target options c l =
      if c + l = target ∧ isPartialOnly (slice group c l) then
        some ⟨slice group c l, absoluteStart + c, absoluteStart + (c + l), .Partial⟩
      else none := by
  unfold fallbackBlock
  rw [completeBlock_of_le hle, hs]
  rfl

section

variable (htarget : target ≤ group.length)
include htarget

/-- A block scanned without a complete syllable reports its terminal partial, if it is
one. -/
theorem cutsBelow_fallbackBlock_of_none {c n : Nat} (hle : c + (n + 1) ≤ target)
    (hs : completeSyllable (slice group c (n + 1)) options = none) :
    cutsBelow (fallbackBlock group absoluteStart target options) maxSyllableLen target c (n + 1) =
      (if c + (n + 1) = target ∧ isPartialOnly (slice group c (n + 1)) then
        [[⟨slice group c (n + 1), absoluteStart + c, absoluteStart + (c + (n + 1)), .Partial⟩]]
      else []) ++
        cutsBelow (fallbackBlock group absoluteStart target options) maxSyllableLen target c n := by
  have hblock := @fallbackBlock_of_none group absoluteStart target options c (n + 1) (by omega) hs
  split_ifs at hblock ⊢ with hp
  · rw [cutsBelow_succ_of_some hblock, hp.1, cuts_self]
    rfl
  · rw [cutsBelow_succ_of_none hblock, nil_append]

theorem scanned_scanFallback (c : Nat) : ∀ n,
    Scanned (fallbackBlock group absoluteStart target options) absoluteStart target c n
      (scanFallback group absoluteStart target options c n).1 (scanFallback group absoluteStart target options c n).2
  | 0 => fun _ => rfl
  | n + 1 => by
    cases hs : completeSyllable (slice group c (n + 1)) options with
    | some s =>
      simp only [scanFallback, hs]
      exact .stop fun hle => fallbackBlock_of_some (by omega) hs
    | none =>
      have hskip := (scanned_scanFallback c n).skip fun hle =>
        cutsBelow_fallbackBlock_of_none htarget hle hs
      simp only [scanFallback, hs]
      split_ifs with hpartial
      · rwa [if_pos hpartial] at hskip
      · rwa [if_neg hpartial] at hskip

/-- The loop of `enumerate_fallback_paths` searches the fallback cuts. -/
theorem cutSearch_expandFallback :
    CutSearch (expandFallback group absoluteStart target options)
      (fallbackBlock group absoluteStart target options) target := by
  refine cutSearch_of_scanned (fun p c n => ?_) (scanned_scanFallback htarget)
  rw [expandFallback]
  dsimp only
  cases (scanFallback group absoluteStart target options c n).2 <;> rfl

end

/-- The complete search stops with the complete cuts. -/
theorem searchComplete_eq (group : Bytes) (absoluteStart : Nat) (options : OptionBits) :
    searchComplete group absoluteStart options =
      some (completeCuts group absoluteStart options group.length) :=
  (cutSearch_expandComplete group absoluteStart options).run_eq

/-- The fallback search stops with the fallback cuts. -/
theorem searchFallback_eq (htarget : target ≤ group.length) :
    searchFallback group absoluteStart target options =
      some (fallbackCuts group absoluteStart target options) :=
  (cutSearch_expandFallback htarget).run_eq

end Enumerators

end Oxpinyin
