import Oxpinyin.ParserGrammar

/-!
# The loop over groups

`parseInput_goodOutcome` : where every group handed to `parse_group` is counted right,
the parser returns all alternatives of the grammar in longest-first order, or there are
more than the limit and it returns the too-many error. It does not panic and does not
diverge.

`Accumulated` is the invariant of the loop : the accumulated paths, each followed by an
alternative of the rest of the input, are the alternatives of the input.
-/

namespace Oxpinyin

open Cuts
open List hiding length_product

/-! ## Groups in the input -/

section Runs

variable {p : UInt8 → Bool} {input : Bytes} {s i : Nat}

theorem any_of_lt_takeWhile {p : UInt8 → Bool} : ∀ (l : Bytes) (j : Nat),
    j < (l.takeWhile p).length → (l[j]?).any p = true
  | [], j, h => by simp at h
  | b :: l, j, h => by
    cases hb : p b with
    | false => simp [hb] at h
    | true =>
      cases j with
      | zero => simpa using hb
      | succ j =>
        rw [takeWhile_cons_of_pos hb] at h
        simpa using any_of_lt_takeWhile l j (by simpa using h)

theorem any_takeWhile_length {p : UInt8 → Bool} : ∀ (l : Bytes),
    (l[(l.takeWhile p).length]?).any p = false
  | [] => by simp
  | b :: l => by
    cases hb : p b with
    | false => simp [hb]
    | true =>
      rw [takeWhile_cons_of_pos hb]
      simpa using any_takeWhile_length l

theorem le_runEnd : s ≤ runEnd p input s :=
  Nat.le_add_right _ _

theorem byteIs_of_lt_runEnd (hs : s ≤ i) (hi : i < runEnd p input s) : byteIs p input i = true := by
  obtain ⟨j, rfl⟩ := Nat.exists_eq_add_of_le hs
  have h := any_of_lt_takeWhile (p := p) (input.drop s) j (by unfold runEnd at hi; omega)
  rw [getElem?_drop] at h
  exact h

theorem byteIs_runEnd : byteIs p input (runEnd p input s) = false := by
  have h := any_takeWhile_length (p := p) (input.drop s)
  rw [getElem?_drop] at h
  exact h

theorem runEnd_eq_self (h : byteIs p input s = false) : runEnd p input s = s := by
  by_contra hne
  have hlt : s < runEnd p input s := lt_of_le_of_ne le_runEnd (Ne.symm hne)
  rw [byteIs_of_lt_runEnd (le_refl s) hlt] at h
  cases h

theorem lt_runEnd (h : byteIs p input s = true) : s < runEnd p input s := by
  refine lt_of_le_of_ne le_runEnd fun heq => ?_
  have hend := @byteIs_runEnd p input s
  rw [← heq, h] at hend
  cases hend

/-- The next group starts after the apostrophe run, if a letter does. -/
theorem nextGroup_of_letter {pos : Nat}
    (h : byteIs isAsciiLowercase input (runEnd (· == apostrophe) input pos) = true) :
    NextGroup input pos (runEnd (· == apostrophe) input pos)
      (runEnd isAsciiLowercase input (runEnd (· == apostrophe) input pos)) where
  le := le_runEnd
  lt := lt_runEnd h
  separators _ h1 h2 := byteIs_of_lt_runEnd h1 h2
  letters _ h1 h2 := byteIs_of_lt_runEnd h1 h2
  maximal := byteIs_runEnd

theorem not_nextGroup_of_noLetter {pos : Nat}
    (h : byteIs isAsciiLowercase input (runEnd (· == apostrophe) input pos) = false) (s e : Nat) :
    ¬ NextGroup input pos s e := by
  intro hg
  have hletter := hg.letters s (le_refl s) hg.lt
  rcases Nat.lt_trichotomy s (runEnd (· == apostrophe) input pos) with hlt | heq | hgt
  · rw [not_lowercase_of_apostrophe (byteIs_of_lt_runEnd hg.le hlt)] at hletter
    cases hletter
  · rw [heq, h] at hletter
    cases hletter
  · have hsep := hg.separators _ le_runEnd hgt
    rw [byteIs_runEnd] at hsep
    cases hsep

end Runs

/-! ## What the loop hands over -/

/-- The loop arrives at `pos`, after complete groups, with `n` accumulated paths. -/
inductive Reached (options : OptionBits) (input : Bytes) : Nat → Nat → Prop
  | start : Reached options input 0 1
  | group {pos n s e k : Nat} : Reached options input pos n → NextGroup input pos s e →
      {path | Segments (lexiconOf options) input s e path}.encard = (k : ℕ∞) → 0 < k →
      n * k ≤ maxParseResults → Reached options input e (n * k)

/-- The group `[s, e)` is handed to `parse_group`. -/
def HandedOver (options : OptionBits) (input : Bytes) (s e : Nat) : Prop :=
  ∃ pos n, Reached options input pos n ∧ NextGroup input pos s e

theorem Reached.le {options : OptionBits} {input : Bytes} {pos n : Nat}
    (h : Reached options input pos n) : n ≤ maxParseResults := by
  cases h with
  | start => decide
  | group _ _ _ _ hle => exact hle

theorem Reached.pos {options : OptionBits} {input : Bytes} {pos n : Nat} (h : Reached options input pos n) :
    0 < n := by
  induction h with
  | start => exact one_pos
  | group _ _ _ hk _ ih => exact Nat.mul_pos ih hk

/-- The accumulated paths are the alternatives of the input up to `pos`. -/
structure Accumulated (options : OptionBits) (input : Bytes) (acc : List (List ParsedSyllable))
    (pos : Nat) : Prop where
  /-- Each path followed by an alternative of the rest is an alternative, and no others. -/
  alternatives : ∀ path r, Alternative (lexiconOf options) input 0 path r ↔
    ∃ front ∈ acc, ∃ rest, path = front ++ rest ∧
      Alternative (lexiconOf options) input pos rest r
  /-- The paths are in order. -/
  sorted : acc.Pairwise (LongestFirst ParsedSyllable.size)
  /-- Their number is the number of cuts so far. -/
  reached : Reached options input pos acc.length

/-- The results are all alternatives, in order and within the limit. -/
structure ReturnsAll (options : OptionBits) (input : Bytes) (results : List ParseResult) :
    Prop where
  /-- A result is returned when it is an alternative. -/
  mem_iff : ∀ result, result ∈ results ↔ IsAlternative (lexiconOf options) input result
  /-- Longest first, at the first segment where two results differ. -/
  sorted : (results.map ParseResult.syllables).Pairwise (LongestFirst ParsedSyllable.size)
  /-- The limit holds. -/
  bounded : results.length ≤ maxParseResults

/-- All alternatives, or the error because there are too many. -/
def GoodOutcome (options : OptionBits) (input : Bytes)
    (out : Except ParseFault (List ParseResult)) : Prop :=
  (∃ results, out = .ok results ∧ ReturnsAll options input results) ∨
    out = .error tooManyAlternatives ∧
      maxParseResults < {result | IsAlternative (lexiconOf options) input result}.encard

section Loop

variable {options : OptionBits} {input : Bytes} {acc : List (List ParsedSyllable)} {pos : Nat}

section

variable (h : Accumulated options input acc pos)
include h

/-- The product of the accumulated paths with the listed tails, finished at `t`. -/
theorem returnsAll_finish {t : Nat} {tails : List (List ParsedSyllable)}
    (htails : ∀ path r, Alternative (lexiconOf options) input pos path r ↔ r = t ∧ path ∈ tails)
    (hsorted : tails.Pairwise (LongestFirst ParsedSyllable.size))
    (hle : acc.length * tails.length ≤ maxParseResults) :
    ReturnsAll options input (finish (acc.flatMap fun p => tails.map fun q => p ++ q) input t) where
  mem_iff result := by
    simp only [finish, mem_map, mem_flatMap]
    constructor
    · rintro ⟨path, ⟨front, hfront, tail, htail, rfl⟩, rfl⟩
      exact ⟨t, (h.alternatives _ _).mpr ⟨front, hfront, tail, rfl, (htails tail t).mpr ⟨rfl, htail⟩⟩, rfl⟩
    · rintro ⟨r, halt, hrem⟩
      obtain ⟨front, hfront, tail, hpath, htail⟩ := (h.alternatives _ _).mp halt
      obtain ⟨rfl, hmem⟩ := (htails tail r).mp htail
      refine ⟨front ++ tail, ⟨front, hfront, tail, hmem, rfl⟩, ?_⟩
      rw [← hpath, ← hrem]
  sorted := by
    have hmap : (finish (acc.flatMap fun p => tails.map fun q => p ++ q) input t).map
        ParseResult.syllables = acc.flatMap fun p => tails.map fun q => p ++ q := by
      simp [finish, Function.comp_def]
    rw [hmap]
    exact pairwise_product h.sorted hsorted
  bounded := by
    rw [finish, length_map, length_product]
    exact hle

/-- Where nothing more is read, the accumulated paths are the results. -/
theorem returnsAll_finish_here (hend : ∀ path r, Alternative (lexiconOf options) input pos path r ↔
    path = [] ∧ r = pos)
    (hle : acc.length ≤ maxParseResults) : ReturnsAll options input (finish acc input pos) := by
  have hall := @returnsAll_finish options input acc pos h pos [[]]
    (fun path r => by rw [hend, mem_singleton, and_comm]) (pairwise_singleton _ _)
    (by simpa using hle)
  simpa using hall

/-- Each accumulated path followed by each listed tail begins an alternative of its own. -/
theorem length_mul_le_encard {tails : List (List ParsedSyllable)} {rest : List ParsedSyllable} {r : Nat}
    (hsorted : tails.Pairwise (LongestFirst ParsedSyllable.size))
    (hrest : ∀ tail ∈ tails, Alternative (lexiconOf options) input pos (tail ++ rest) r) :
    ((acc.length * tails.length : Nat) : ℕ∞) ≤
      {result | IsAlternative (lexiconOf options) input result}.encard := by
  set heads := acc.flatMap fun p => tails.map fun q => p ++ q with hheads
  set found : List ParseResult := heads.map fun head => ⟨head ++ rest, input.drop r⟩ with hfound
  have hnodup : found.Nodup := by
    rw [hfound, List.Nodup, pairwise_map]
    refine (pairwise_product h.sorted hsorted).imp fun hlt heq => ?_
    exact (hlt.append_right rest rest).ne (congrArg ParseResult.syllables heq)
  have hlength : found.length = acc.length * tails.length := by
    rw [hfound, length_map, hheads, length_product]
  rw [← hlength, ← encard_eq_length hnodup fun x => Iff.rfl]
  refine Set.encard_le_encard fun result hresult => ?_
  obtain ⟨head, hhead, rfl⟩ := mem_map.mp hresult
  obtain ⟨front, hfront, hmap⟩ := mem_flatMap.mp hhead
  obtain ⟨tail, htail, rfl⟩ := mem_map.mp hmap
  exact ⟨r, (h.alternatives _ _).mpr ⟨front, hfront, tail ++ rest, append_assoc _ _ _, hrest tail htail⟩, rfl⟩

variable {s e : Nat} (hg : NextGroup input pos s e)
include hg

/-- A complete group extends the accumulated paths. -/
theorem Accumulated.group (hne : cutsUpTo (between input s e) options (between input s e).length ≠ 0)
    (hle : acc.length * cutsUpTo (between input s e) options (between input s e).length ≤ maxParseResults) :
    Accumulated options input (acc.flatMap fun p => (completeCuts (between input s e) s options
        (between input s e).length).map fun q => p ++ q) e := by
  have hfit := hg.stop_le
  have hend : s + (between input s e).length = e := by
    rw [length_between hfit]
    have := hg.lt
    omega
  have hmem : ∀ path, path ∈ completeCuts (between input s e) s options
      (between input s e).length ↔ Segments (lexiconOf options) input s e path := by
    intro path
    rw [mem_completeCuts hfit (by rw [length_between hfit]), hend]
  have hcut : ¬ Uncut (lexiconOf options) input s e := by
    rw [uncut_iff hg.lt.le hfit]
    exact hne
  refine ⟨fun path r => ?_, pairwise_product h.sorted (pairwise_completeCuts _ _ _ _), ?_⟩
  · rw [h.alternatives]
    constructor
    · rintro ⟨front, hfront, tail, rfl, htail⟩
      obtain ⟨segs, rest, rfl, hsegs, hrest⟩ := (alternative_iff_of_group hg hcut).mp htail
      refine ⟨front ++ segs, ?_, rest, (append_assoc _ _ _).symm, hrest⟩
      exact mem_flatMap.mpr ⟨front, hfront, mem_map.mpr ⟨segs, (hmem _).mpr hsegs, rfl⟩⟩
    · rintro ⟨head, hhead, rest, rfl, hrest⟩
      obtain ⟨front, hfront, hmap⟩ := mem_flatMap.mp hhead
      obtain ⟨segs, hsegs, rfl⟩ := mem_map.mp hmap
      exact ⟨front, hfront, segs ++ rest, append_assoc _ _ _, .group hg ((hmem _).mp hsegs) hrest⟩
  · rw [length_product, length_completeCuts]
    refine .group h.reached hg ?_ (Nat.pos_of_ne_zero hne) hle
    rw [← length_completeCuts _ s]
    exact encard_eq_length (nodup_of_longestFirst (pairwise_completeCuts _ _ _ _)) hmem

/-- The group has at least as many alternatives as cuts. -/
theorem length_mul_cutsUpTo_le :
    ((acc.length * cutsUpTo (between input s e) options (between input s e).length : Nat) : ℕ∞) ≤
      {result | IsAlternative (lexiconOf options) input result}.encard := by
  have hfit := hg.stop_le
  obtain ⟨rest, r, hrest⟩ := exists_alternative (lexiconOf options) input e
  rw [← length_completeCuts _ s]
  refine @length_mul_le_encard options input acc pos h _ rest r (pairwise_completeCuts _ _ _ _) ?_
  intro segs hsegs
  rw [mem_completeCuts hfit (by rw [length_between hfit]), length_between hfit, Nat.add_sub_of_le hg.lt.le] at hsegs
  exact .group hg hsegs hrest

/-- A group that falls back ends the loop well, where it is counted right. -/
theorem goodOutcome_of_fallback (hzero : cutsUpTo (between input s e) options (between input s e).length = 0)
    (hright : CountedRight options (between input s e)) :
    GoodOutcome options input (do
      let group ← parseGroup (between input s e) s options
      if group.consumed = 0 then
        pure (finish acc input pos)
      else
        let acc ← combine acc group.paths
        pure (finish acc input (s + group.consumed))) := by
  have hfit := hg.stop_le
  have hlen := @length_between input s e hfit
  have htle := maximalFallbackEnd_le (between input s e) options
  have hcut := (uncut_iff hg.lt.le hfit).mpr hzero
  have hfar := @furthest_maximalFallbackEnd input options s e hfit hg.lt.le
  have hright := countedRight_iff.mp hright hzero
  have habs := @length_fallbackCuts_abs options (between input s e) _ htle s
  have hmem : ∀ path, path ∈ fallbackCuts (between input s e) s
      (maximalFallbackEnd (between input s e) options) options ↔
      FallbackSegments (lexiconOf options) input s
        (s + maximalFallbackEnd (between input s e) options) path := fun path =>
    mem_fallbackCuts hfit (by rw [← hlen]; exact htle)
  have hsorted := pairwise_fallbackCuts (between input s e) s (maximalFallbackEnd (between input s e) options) options
  rw [parseGroup_of_fallback hzero]
  generalize maximalFallbackEnd (between input s e) options = t at *
  rcases Nat.eq_zero_or_pos t with rfl | htpos
  · have hone : (fallbackCuts (between input s e) 0 0 options).length = 1 := by
      rw [fallbackCuts, cuts_self]
      rfl
    have hd : doublyCounted (between input s e) 0 options = 0 := by simp [doublyCounted]
    rw [if_neg (by rw [hone, hd]; decide), if_pos hd]
    refine Or.inl ⟨finish acc input pos, rfl, ?_⟩
    exact returnsAll_finish_here h (fun path r => alternative_iff_of_stuck hg hcut hfar) h.reached.le
  · have htails : ∀ path r, Alternative (lexiconOf options) input pos path r ↔
        r = s + t ∧ path ∈ fallbackCuts (between input s e) s t options := fun path r => by
      rw [alternative_iff_of_fallback hg hcut hfar (by omega), hmem]
    have hmany := @length_mul_le_encard options input acc pos h
      (fallbackCuts (between input s e) s t options) [] (s + t) hsorted fun tail htail => by
        rw [append_nil]
        exact (htails tail (s + t)).mpr ⟨rfl, htail⟩
    split_ifs with hover hd
    · refine Or.inr ⟨rfl, lt_of_lt_of_le ?_ hmany⟩
      have hcuts : maxParseResults < (fallbackCuts (between input s e) s t options).length := by
        rw [habs]
        omega
      have hprod := Nat.le_mul_of_pos_left (fallbackCuts (between input s e) s t options).length h.reached.pos
      exact Nat.cast_lt.mpr (by omega)
    · simp only [bind, Except.bind, pure, Except.pure]
      rw [if_neg (by omega)]
      unfold combine
      split_ifs with hprod
      · exact Or.inr ⟨rfl, lt_of_lt_of_le (Nat.cast_lt.mpr hprod) hmany⟩
      · exact Or.inl ⟨_, rfl, returnsAll_finish h htails hsorted (by omega)⟩
    · omega

end

/-- Where the three tests after a complete group stop, no further group follows. -/
theorem noLetter_of_stop {e : Nat} (hmax : byteIs isAsciiLowercase input e = false)
    (h : e = input.length ∨ byteIs (· == apostrophe) input e = false ∨
      runEnd (· == apostrophe) input e = input.length ∨
      byteIs isAsciiLowercase input (runEnd (· == apostrophe) input e) = false) :
    byteIs isAsciiLowercase input (runEnd (· == apostrophe) input e) = false := by
  have hlen : byteIs isAsciiLowercase input input.length = false := by simp [byteIs]
  rcases h with rfl | h | h | h
  · rw [runEnd_eq_self (by simp [byteIs])]
    exact hmax
  · rw [runEnd_eq_self h]
    exact hmax
  · rw [h]
    exact hlen
  · exact h

/-- The loop ends well from every position it reaches. -/
theorem parseLoop_goodOutcome
    (hright : ∀ s e, HandedOver options input s e → CountedRight options (between input s e)) :
    ∀ (fuel : Nat) (acc : List (List ParsedSyllable)) (pos : Nat) (pending : Option Nat),
      Accumulated options input acc pos →
      byteIs isAsciiLowercase input (runEnd (· == apostrophe) input pos) = true →
      pending.getD (runEnd (· == apostrophe) input pos) = pos →
      input.length < fuel + pos →
      GoodOutcome options input (parseLoop input options fuel acc (runEnd (· == apostrophe) input pos) pending)
  | 0, acc, pos, pending, _, hletter, _, hfuel => by
    have h1 := byteIs_lt hletter
    have h2 := @le_runEnd (· == apostrophe) input pos
    omega
  | fuel + 1, acc, pos, pending, h, hletter, hpending, hfuel => by
    have hg := nextGroup_of_letter hletter
    unfold parseLoop
    generalize hs : runEnd (· == apostrophe) input pos = s at *
    generalize he : runEnd isAsciiLowercase input s = e at *
    have hlt := hg.lt
    have hfit := hg.stop_le
    simp only
    rw [if_neg (by omega), hpending]
    by_cases hzero : cutsUpTo (between input s e) options (between input s e).length = 0
    · have hright' := hright s e ⟨pos, acc.length, h.reached, hg⟩
      have hgood := goodOutcome_of_fallback h hg hzero hright'
      rw [parseGroup_of_fallback hzero] at hgood
      have hslice : slice input s (e - s) = between input s e := rfl
      rw [hslice, parseGroup_of_fallback hzero]
      split_ifs at hgood ⊢ <;> exact hgood
    · have hmany := length_mul_cutsUpTo_le h hg
      have hslice : slice input s (e - s) = between input s e := rfl
      rw [hslice]
      by_cases hover : maxParseResults < cutsUpTo (between input s e) options (between input s e).length
      · rw [parseGroup_of_overLimit hover]
        refine Or.inr ⟨rfl, lt_of_lt_of_le (Nat.cast_lt.mpr ?_) hmany⟩
        exact lt_of_lt_of_le hover (Nat.le_mul_of_pos_left _ h.reached.pos)
      · rw [parseGroup_of_complete hzero (by omega)]
        have hconsumed : (between input s e).length ≠ 0 := by
          rw [length_between hfit]
          omega
        simp only [bind, Except.bind, pure, Except.pure, Bool.not_true, Bool.false_eq_true,
          if_neg hconsumed, if_false]
        unfold combine
        rw [length_completeCuts]
        by_cases hprod : maxParseResults <
            acc.length * cutsUpTo (between input s e) options (between input s e).length
        · rw [if_pos hprod]
          exact Or.inr ⟨rfl, lt_of_lt_of_le (Nat.cast_lt.mpr hprod) hmany⟩
        · rw [if_neg hprod]
          have hnext := h.group hg hzero (by omega)
          have hstop : byteIs isAsciiLowercase input (runEnd (· == apostrophe) input e) = false →
              ReturnsAll options input (finish (acc.flatMap fun p =>
                (completeCuts (between input s e) s options (between input s e).length).map
                  fun q => p ++ q) input e) := fun hno =>
            returnsAll_finish_here hnext
              (fun path r => alternative_iff_of_stop (not_nextGroup_of_noLetter hno))
              hnext.reached.le
          simp only
          split_ifs with h1 h2 h3
          · exact Or.inl ⟨_, rfl, hstop (noLetter_of_stop hg.maximal (Or.inl h1))⟩
          · exact Or.inl ⟨_, rfl, hstop (noLetter_of_stop hg.maximal (Or.inr (Or.inl (by simpa using h2))))⟩
          · refine Or.inl ⟨_, rfl, hstop (noLetter_of_stop hg.maximal (Or.inr (Or.inr ?_)))⟩
            simpa using h3
          · rw [not_or] at h3
            exact parseLoop_goodOutcome hright fuel _ e (some e) hnext (by simpa using h3.2) rfl
              (by have := hg.le; omega)

/-- Before any group the one empty path is accumulated. -/
theorem accumulated_start (options : OptionBits) (input : Bytes) :
    Accumulated options input [[]] 0 where
  alternatives path r := by simp
  sorted := pairwise_singleton _ _
  reached := .start

/-- Where every group handed over is counted right, the parser ends well. -/
theorem parseInput_goodOutcome
    (hright : ∀ s e, HandedOver options input s e → CountedRight options (between input s e)) :
    GoodOutcome options input (parseInput input options) := by
  have hacc := accumulated_start options input
  have hstop : byteIs isAsciiLowercase input (runEnd (· == apostrophe) input 0) = false →
      ReturnsAll options input (finish [[]] input 0) := fun hno =>
    returnsAll_finish_here hacc
      (fun path r => alternative_iff_of_stop (not_nextGroup_of_noLetter hno)) (by decide)
  unfold parseInput
  by_cases hquote : byteIs (· == apostrophe) input 0 = true
  · rw [if_pos hquote]
    simp only
    split_ifs with hend
    · refine Or.inl ⟨_, rfl, hstop ?_⟩
      refine noLetter_of_stop (not_lowercase_of_apostrophe hquote) (Or.inr (Or.inr ?_))
      simpa using hend
    · rw [not_or] at hend
      exact parseLoop_goodOutcome hright _ _ 0 (some 0) hacc (by simpa using hend.2) rfl (by omega)
  · rw [if_neg hquote]
    have hself : runEnd (· == apostrophe) input 0 = 0 := runEnd_eq_self (by simpa using hquote)
    by_cases hletter : byteIs isAsciiLowercase input 0 = true
    · have hgood := parseLoop_goodOutcome hright (input.length + 1) [[]] 0 none hacc
        (by rw [hself]; exact hletter) (by rw [hself]; rfl) (by omega)
      rwa [hself] at hgood
    · have hno : byteIs isAsciiLowercase input 0 = false := by simpa using hletter
      unfold parseLoop
      simp only
      rw [if_pos (runEnd_eq_self hno).symm]
      exact Or.inl ⟨_, rfl, hstop (by rw [hself]; exact hno)⟩

end Loop

end Oxpinyin
