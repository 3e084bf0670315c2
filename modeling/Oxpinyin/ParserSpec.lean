import Oxpinyin.ParserLoop

/-!
# The parser's assertion and its default language

`parseWithOptions_counts_iff` : the counts match the enumerations, and the parser does not
panic, exactly where every group handed over is counted right. The group `zonv` under the
`on` to `ong` correction is not : `zon` is the syllable `zong` under the options and a
stub of it, and the count of two meets an enumeration of one.

Under the default options no block is both (`countedRight_default`), so
`parse_default_spec` holds of every input : the parser returns the segmentations of the
frozen table, each once and in order, exactly when they are within the limit.
-/

namespace Oxpinyin

open Cuts SyllableKey

/-! ## Counts and enumerations -/

/-- The counter of a group and the matching search agree, up to the cap of the counter. -/
def CountsMatch (options : OptionBits) (group : Bytes) (absoluteStart : Nat) : Prop :=
  (∃ found, searchComplete group absoluteStart options = some found ∧
    countCompletePaths group options = min overLimit found.length) ∧
  (countCompletePaths group options = 0 →
    ∃ found, searchFallback group absoluteStart (maximalFallbackEnd group options) options =
        some found ∧
      countFallbackPaths group (maximalFallbackEnd group options) options =
        min overLimit found.length)

/-- No panic : all alternatives or the too-many error. -/
def EndsWithoutPanic (options : OptionBits) (input : Bytes) : Prop :=
  (∃ results, FullPinyinParser.parseWithOptions input options = .ok results ∧
    ∀ result, result ∈ results ↔ IsAlternative (lexiconOf options) input result) ∨
  FullPinyinParser.parseWithOptions input options = .error tooManyAlternatives

theorem countsMatch_iff (options : OptionBits) (group : Bytes) (absoluteStart : Nat) :
    CountsMatch options group absoluteStart ↔ CountedRight options group := by
  have hle := maximalFallbackEnd_le group options
  have hcomplete : ∃ found, searchComplete group absoluteStart options = some found ∧
      countCompletePaths group options = min overLimit found.length :=
    ⟨_, searchComplete_eq group absoluteStart options, countCompletePaths_eq⟩
  have hzero : countCompletePaths group options = 0 ↔
      cutsUpTo group options group.length = 0 := by
    rw [countCompletePaths_eq_cutsUpTo]
    unfold overLimit
    omega
  have hcount := @countFallbackPaths_eq group _ options hle absoluteStart
  rw [CountsMatch, and_iff_right hcomplete, countedRight_iff, hzero,
    ← @length_fallbackCuts_abs options group _ hle absoluteStart]
  refine imp_congr_right fun _ => ?_
  rw [searchFallback_eq hle, hcount]
  simp only [Option.some.injEq, exists_eq_left']
  unfold overLimit
  omega

/-- The counts match the enumerations and the parser does not panic, exactly where every
group handed over is counted right. -/
theorem parseWithOptions_counts_iff (input : Bytes) (options : OptionBits) :
    (EndsWithoutPanic options input ∧ ∀ s e, HandedOver options input s e →
      CountsMatch options (between input s e) s) ↔
    ∀ s e, HandedOver options input s e → CountedRight options (between input s e) := by
  simp only [countsMatch_iff]
  refine ⟨fun h => h.2, fun h => ⟨?_, h⟩⟩
  rcases parseInput_goodOutcome h with ⟨results, hok, hall⟩ | ⟨herr, _⟩
  · exact Or.inl ⟨results, hok, hall.mem_iff⟩
  · exact Or.inr herr

/-- The group `zonv` under the `on` to `ong` correction is counted as two paths and
enumerated as one, and the assertion panics. -/
theorem parseWithOptions_zonv_panics :
    countFallbackPaths (ascii "zonv") 3 ⟨pinyinCorrectOnOng⟩ = 2 ∧
    (searchFallback (ascii "zonv") 0 3 ⟨pinyinCorrectOnOng⟩).map List.length = some 1 ∧
    FullPinyinParser.parseWithOptions (ascii "zonv") ⟨pinyinCorrectOnOng⟩ =
      .error (.panicked "fallback path enumeration under-counted or over-counted") ∧
    ¬ EndsWithoutPanic ⟨pinyinCorrectOnOng⟩ (ascii "zonv") := by
  have hpanic : FullPinyinParser.parseWithOptions (ascii "zonv") ⟨pinyinCorrectOnOng⟩ =
      .error (.panicked "fallback path enumeration under-counted or over-counted") := by
    decide +kernel
  refine ⟨by decide +kernel, by decide +kernel, hpanic, ?_⟩
  rintro (⟨results, hok, _⟩ | herr)
  · rw [hpanic] at hok
    cases hok
  · rw [hpanic] at herr
    cases herr

/-! ## The default options -/

theorem completeSyllable_default (bytes : Bytes) :
    completeSyllable bytes default = if bytes ∈ fullPinyinSyllables then some bytes else none := by
  unfold completeSyllable
  rw [fromOptionText_default]
  split_ifs with hmem
  · obtain ⟨key, hkey⟩ := fromText_of_mem hmem
    obtain ⟨htext, ⟨_, hcomp⟩ | ⟨hinc, _⟩⟩ := fromText_eq_some hkey
    · rw [hkey, Option.bind_some, if_pos hcomp, htext]
    · exact absurd hmem (incompletePinyinKeys_disjoint bytes hinc)
  · cases hkey : fromText bytes with
    | none => rfl
    | some key =>
      obtain ⟨_, ⟨hfull, _⟩ | ⟨_, hcomp⟩⟩ := fromText_eq_some hkey
      · exact absurd hfull hmem
      · rw [Option.bind_some, if_neg (by rw [hcomp]; decide)]

/-- The default options read the frozen table. -/
theorem lexiconOf_default : lexiconOf default = frozenLexicon := by
  have hcomplete : (lexiconOf default).complete = frozenLexicon.complete := by
    funext bytes
    exact completeSyllable_default bytes
  have hstub : (lexiconOf default).stub = frozenLexicon.stub := by
    funext bytes
    simp only [lexiconOf, frozenLexicon, isPartialOnly, completeSyllable_default]
    split_ifs with h <;> simp [h, List.isPrefixOf_iff_prefix]
  have hext : ∀ l l' : Lexicon, l.complete = l'.complete → l.stub = l'.stub → l = l' := by
    rintro ⟨c, t⟩ ⟨c', t'⟩ rfl rfl
    rfl
  exact hext _ _ hcomplete hstub

/-- Under the default options nothing is counted twice : a stub is not a syllable. -/
theorem countedRight_default (group : Bytes) : CountedRight default group := by
  refine fun _ t _ => Or.inl ?_
  rintro ⟨m, _, _, hsome, hpart⟩
  unfold isPartialOnly at hpart
  rw [Bool.and_eq_true, Option.isNone_iff_eq_none] at hpart
  rw [hpart.1] at hsome
  cases hsome

/-- `parse` returns the segmentations of the frozen table, each once, longest first and
tiling the input, exactly when there are at most `maxParseResults`. Otherwise it returns the
too-many error. -/
theorem parse_default_spec (input : Bytes) :
    ((∃ results, FullPinyinParser.parse input = .ok results) ↔
      {result | IsAlternative frozenLexicon input result}.encard ≤ maxParseResults) ∧
    (∀ results, FullPinyinParser.parse input = .ok results →
      (∀ result, result ∈ results ↔ IsAlternative frozenLexicon input result) ∧
      (results.map ParseResult.syllables).Pairwise (LongestFirst ParsedSyllable.size) ∧
      results.Nodup ∧
      ∀ result ∈ results, ∃ r, Tiles input 0 result.syllables r ∧
        result.remainder = input.drop r ∧ Spelled input result.syllables) ∧
    (∀ fault, FullPinyinParser.parse input = .error fault → fault = tooManyAlternatives) := by
  have hgood := @parseInput_goodOutcome default input fun s e _ => countedRight_default _
  rw [GoodOutcome, lexiconOf_default] at hgood
  have hparse : FullPinyinParser.parse input = parseInput input default := rfl
  rw [hparse]
  rcases hgood with ⟨results, hok, hall⟩ | ⟨herr, hmany⟩
  · obtain ⟨hmem, hsorted, hbound⟩ := hall
    rw [lexiconOf_default] at hmem
    have hnodup : results.Nodup := (nodup_of_longestFirst hsorted).of_map _
    refine ⟨⟨fun _ => ?_, fun _ => ⟨results, hok⟩⟩, fun results' hok' => ?_, fun fault herr => ?_⟩
    · have hcard : {result | IsAlternative frozenLexicon input result}.encard = results.length :=
        encard_eq_length hnodup hmem
      rw [hcard, Nat.cast_le]
      exact hbound
    · rw [hok] at hok'
      obtain rfl := Except.ok.inj hok'
      refine ⟨hmem, hsorted, hnodup, fun result hresult => ?_⟩
      obtain ⟨r, halt, hrem⟩ := (hmem result).mp hresult
      refine ⟨r, halt.tiles, hrem, halt.spelled ?_⟩
      intro bytes text htext
      simp only [frozenLexicon] at htext
      split_ifs at htext
      exact (Option.some.inj htext).symm
    · rw [hok] at herr
      cases herr
  · refine ⟨⟨?_, fun hle => absurd hle (not_le.mpr hmany)⟩, ?_, fun fault hfault => ?_⟩
    · rintro ⟨results, hok⟩
      rw [herr] at hok
      cases hok
    · intro results hok
      rw [herr] at hok
      cases hok
    · rw [herr] at hfault
      exact (Except.error.inj hfault).symm

end Oxpinyin
