import Oxpinyin.KmmBalance

/-!
# Merging containers

A gram of the source goes to the target as it is, or item by item into the target's gram. Either
way the counters of the two are added (`Merges`), and two balanced containers give a balanced one
where the totals do not overflow.
-/

namespace Oxpinyin.Kmm

open BitVec List Option Function FiniteMap Margins Run Container

/-- The items of a list, inserted one by one into a gram that has none of them. -/
theorem insertAll_some : ∀ {entries : List (BitVec 32 × ArrayItem)} {gram : KmmGram}
    {m n : BitVec 32 → Option ArrayItem}, Lists entries m → Lists gram.items n →
      (∀ token, m token ≠ none → n token = none) →
      ∃ after, entries.foldl (fun gram entry => gram.bind fun gram => gram.insertArrayItem entry.1 entry.2)
          (some gram) = some after ∧ after.header = gram.header ∧
        Lists after.items fun token => (m token).or (n token)
  | [], gram, m, n, hentries, hgram, _ => by
    refine ⟨gram, rfl, rfl, ?_⟩
    have hsame : (fun token => (m token).or (n token)) = n := by
      funext token
      rw [hentries.eq_none, none_or]
    rw [hsame]
    exact hgram
  | (token, item) :: rest, gram, m, n, hentries, hgram, hfresh => by
    have hget : m token = some item := (hentries.mem token item).mp mem_cons_self
    obtain ⟨next, hinsert, hheader, hnext⟩ := SingleGram.insertArrayItem_some hgram
      (hfresh token (by rw [hget]; exact some_ne_none item)) item
    obtain ⟨after, hrun, hafter, hlists⟩ := insertAll_some hentries.tail hnext fun other hother => by
      by_cases hsame : other = token
      · rw [hsame, update_self] at hother
        exact absurd rfl hother
      · rw [update_of_ne hsame] at hother ⊢
        exact hfresh other hother
    refine ⟨after, ?_, hafter.trans hheader, ?_⟩
    · rw [foldl_cons, bind_some, hinsert]
      exact hrun
    · have hmap : (fun other => (update m token none other).or (update n token (some item) other)) =
          fun other => (m other).or (n other) := by
        funext other
        by_cases hsame : other = token
        · rw [hsame, update_self, update_self, hget, none_or, some_or]
        · rw [update_of_ne hsame, update_of_ne hsame]
      rwa [hmap] at hlists

/-- A gram with the counters of two. -/
structure Merges (old new after : KmmGram) : Prop where
  ascending : after.Ascending
  wc : after.header.wc = old.header.wc + new.header.wc
  freq : after.header.freq = old.header.freq + new.header.freq
  items : ∀ token, after.getArrayItem token =
    Option.merge mergedItem (old.getArrayItem token) (new.getArrayItem token)

theorem merges_newGram {gram : KmmGram} (h : gram.Ascending) :
    Merges gram newGram gram ∧ Merges newGram gram gram := by
  have hzero : newGram.header.wc = 0 ∧ newGram.header.freq = 0 := ⟨rfl, rfl⟩
  refine ⟨⟨h, ?_, ?_, fun token => ?_⟩, ⟨h, ?_, ?_, fun token => ?_⟩⟩
  · rw [hzero.1]
    exact (add_zero _).symm
  · rw [hzero.2]
    exact (add_zero _).symm
  · rw [getArrayItem_newGram, merge_none_right]
  · rw [hzero.1]
    exact (zero_add _).symm
  · rw [hzero.2]
    exact (zero_add _).symm
  · rw [getArrayItem_newGram, merge_none_left]

variable {source target : Container}

/-- One gram of the source. -/
theorem mergeRow_ok {token : BitVec 32} {new : KmmGram}
    (hnew : source.load token = some new) (hsource : (source.grams token).Ascending)
    (htarget : (target.grams token).Ascending) :
    ∃ merged, mergeRow source target token = .ok (target.store token merged) ∧
      Merges (target.grams token) (source.grams token) merged := by
  have hgram := source.grams_of_load token hnew
  rw [hgram] at hsource ⊢
  cases hold : target.load token with
  | none =>
    refine ⟨new, ?_, ?_⟩
    · rw [mergeRow, hnew]
      dsimp only
      rw [hold]
    · have hempty : target.grams token = newGram := by rw [grams, hold]; rfl
      rw [hempty]
      exact (merges_newGram hsource).2
  | some old =>
    have hgram' := target.grams_of_load token hold
    rw [hgram'] at htarget ⊢
    obtain ⟨gram, hrun, _, hlists⟩ := @insertAll_some _ newGram _ _
      (htarget.lists.mergeWith mergedItem hsource.lists) lists_nil fun _ _ => rfl
    have hmap : (fun token => (Option.merge mergedItem (old.getArrayItem token) (new.getArrayItem token)).or none) =
        fun token => Option.merge mergedItem (old.getArrayItem token) (new.getArrayItem token) := by
      funext token
      rw [or_none]
    rw [hmap] at hlists
    refine ⟨{ gram with header := ⟨old.header.wc + new.header.wc, old.header.freq + new.header.freq⟩ }, ?_,
      ⟨hlists.ascending, rfl, rfl, fun token => ?_⟩⟩
    · rw [mergeRow, hnew]
      dsimp only
      rw [hold]
      dsimp only
      rw [mergeTwoPhraseArray, hrun]
    · exact @SingleGram.getArrayItem_eq _ _ { gram with header := _ } _ hlists token

/-- Some grams of the source. -/
theorem mergeRows_ok {source : Container} (hsource : ∀ token, (source.grams token).Ascending) :
    ∀ {keys : List (BitVec 32)} {target : Container}, keys.Nodup → (∀ token ∈ keys, (source.load token).isSome) →
      (∀ token, (target.grams token).Ascending) →
      ∃ after, keys.foldlM (mergeRow source) target = .ok after ∧
        (∀ token ∈ keys, Merges (target.grams token) (source.grams token) (after.grams token) ∧
          (after.load token).isSome) ∧
        (∀ token, token ∉ keys → after.load token = target.load token) ∧
        after.getMagicHeader = target.getMagicHeader
  | [], target, _, _, _ => ⟨target, rfl, fun _ hin => absurd hin not_mem_nil, fun _ _ => rfl, rfl⟩
  | token :: rest, target, hnodup, hkeys, htarget => by
    obtain ⟨hnew, hrest⟩ := nodup_cons.mp hnodup
    obtain ⟨new, hload⟩ := isSome_iff_exists.mp (hkeys token mem_cons_self)
    obtain ⟨merged, hrow, hmerges⟩ := mergeRow_ok hload (hsource token) (htarget token)
    have hstored : ∀ other, (target.store token merged).grams other =
        if other = token then merged else target.grams other := by
      intro other
      rw [grams_store, update_apply]
    obtain ⟨after, hrun, hin, hout, hmagic⟩ := @mergeRows_ok source hsource rest (target.store token merged) hrest
      (fun other hother => hkeys other (mem_cons_of_mem token hother)) fun other => by
        rw [hstored]
        split_ifs
        · exact hmerges.ascending
        · exact htarget other
    have hlast : after.load token = some merged := by
      rw [hout token hnew, load_store, update_self]
    refine ⟨after, ?_, fun other hother => ?_, fun other hother => ?_, hmagic⟩
    · rw [foldlM_cons, hrow]
      exact hrun
    · by_cases hsame : other = token
      · rw [hsame, after.grams_of_load token hlast, hlast]
        exact ⟨hmerges, rfl⟩
      · rcases mem_cons.mp hother with heq | hmem
        · exact absurd heq hsame
        · have hgo := hin other hmem
          rw [hstored, if_neg hsame] at hgo
          exact hgo
    · have hne : other ≠ token := fun heq => hother (heq ▸ mem_cons_self)
      rw [hout other fun hmem => hother (mem_cons_of_mem token hmem), load_store, update_of_ne hne]

variable {a b : BitVec 32}

/-- The overflow test of a sum. -/
theorem sum_lt_of_no_overflow (h : ¬a + b < if a ≤ b then b else a) :
    a.toNat + b.toNat < 2 ^ 32 ∧ (a + b).toNat = a.toNat + b.toNat := by
  split_ifs at h <;> bv_omega

theorem eq_zero_of_add (h : 0 = a + b) (hlt : a.toNat + b.toNat < 2 ^ 32) : b = 0 := by
  have hnat := congrArg BitVec.toNat h
  have hzero : (0 : BitVec 32).toNat = 0 := rfl
  rw [BitVec.toNat_add_of_lt hlt, hzero] at hnat
  exact BitVec.eq_of_toNat_eq (by rw [hzero]; omega)

theorem countOf_merge {a b : Option ArrayItem} (h : countOf a + countOf b < 2 ^ 32) :
    countOf (Option.merge mergedItem a b) = countOf a + countOf b := by
  cases a with
  | none => rw [merge_none_left]; exact (Nat.zero_add _).symm
  | some first =>
    cases b with
    | none => rw [merge_none_right]; rfl
    | some second =>
      rw [merge_some_some]
      show (first.wc + second.wc).toNat = _
      exact toNat_add_of_lt h

theorem sane_mergedItem {first second : ArrayItem} (hfirst : Sane first) (hsecond : Sane second)
    (h : first.wc.toNat + second.wc.toNat < 2 ^ 32) :
    Sane (mergedItem first second) ∧
      (mergedItem first second).nn0.toNat = first.nn0.toNat + second.nn0.toNat := by
  obtain ⟨hn1, hnn0, hmr, hcounted⟩ := hfirst
  obtain ⟨hn1', hnn0', hmr', hcounted'⟩ := hsecond
  have hwc : (first.wc + second.wc).toNat = first.wc.toNat + second.wc.toNat := toNat_add_of_lt h
  have hboth : (first.nn0 + second.nn0).toNat = first.nn0.toNat + second.nn0.toNat :=
    toNat_add_of_lt (by omega)
  have hones : (first.n1 + second.n1).toNat = first.n1.toNat + second.n1.toNat := toNat_add_of_lt (by omega)
  refine ⟨⟨?_, ?_, ?_, ?_⟩, hboth⟩
  · show (first.n1 + second.n1).toNat ≤ (first.nn0 + second.nn0).toNat
    omega
  · show (first.nn0 + second.nn0).toNat ≤ (first.wc + second.wc).toNat
    omega
  · show (if first.mr ≤ second.mr then second.mr else first.mr).toNat ≤ (first.wc + second.wc).toNat
    split_ifs <;> omega
  · show 0 < (first.wc + second.wc).toNat
    omega

/-- Two balanced containers with the counters added are balanced. -/
theorem Core.merge {old new : MagicHeader} {grams others after : BitVec 32 → KmmGram} (h : Core old grams)
    (h' : Core new others) (hmerges : ∀ token, Merges (grams token) (others token) (after token))
    (hwc : old.wc.toNat + new.wc.toNat < 2 ^ 32) (hn : old.n.toNat + new.n.toNat < 2 ^ 32) :
    Core ⟨old.wc + new.wc, old.n + new.n, old.totalFreq + new.totalFreq⟩ after := by
  have hgrand := h.magicWc
  have hgrand' := h'.magicWc
  have hfreq := h.magicFreq
  have hfreq' := h'.magicFreq
  have hentry : ∀ token1 token2, countOf ((grams token1).getArrayItem token2) +
      countOf ((others token1).getArrayItem token2) < 2 ^ 32 := by
    intro token1 token2
    have hle : countOf ((grams token1).getArrayItem token2) ≤ grandSum (counts grams) :=
      Nat.le_trans (le_rowSum (counts grams) token1 token2) (rowSum_le (counts grams) token1)
    have hle' : countOf ((others token1).getArrayItem token2) ≤ grandSum (counts others) :=
      Nat.le_trans (le_rowSum (counts others) token1 token2) (rowSum_le (counts others) token1)
    omega
  have hcounts : counts after = fun token1 token2 => counts grams token1 token2 + counts others token1 token2 := by
    funext token1 token2
    rw [counts, (hmerges token1).items, countOf_merge (hentry token1 token2)]
    rfl
  have hrow : ∀ token, rowSum (counts after) token = rowSum (counts grams) token + rowSum (counts others) token := by
    intro token
    rw [hcounts, rowSum, Finset.sum_add_distrib]
    rfl
  have hcol : ∀ token, colSum (counts after) token = colSum (counts grams) token + colSum (counts others) token := by
    intro token
    rw [hcounts, colSum, Finset.sum_add_distrib]
    rfl
  have hall : grandSum (counts after) = grandSum (counts grams) + grandSum (counts others) := by
    rw [← sum_rowSum, ← sum_rowSum, ← sum_rowSum, ← Finset.sum_add_distrib]
    exact Finset.sum_congr rfl fun token _ => hrow token
  refine ⟨fun token => (hmerges token).ascending, fun token => ?_, fun token => ?_, ?_, ?_,
    fun token1 token2 item hitem => ?_⟩
  · have hle := rowSum_le (counts grams) token
    have hle' := rowSum_le (counts others) token
    have hold := h.wc token
    have hnew := h'.wc token
    rw [(hmerges token).wc, hrow, toNat_add_of_lt (by omega), hold, hnew]
  · have hle := colSum_le (counts grams) token
    have hle' := colSum_le (counts others) token
    have hold := h.freq token
    have hnew := h'.freq token
    rw [(hmerges token).freq, hcol, toNat_add_of_lt (by omega), hold, hnew]
  · show (old.wc + new.wc).toNat = _
    rw [toNat_add_of_lt hwc, hall, hgrand, hgrand']
  · show (old.totalFreq + new.totalFreq).toNat = _
    rw [toNat_add_of_lt (by omega), hall, hfreq, hfreq']
  · rw [(hmerges token1).items] at hitem
    show _ ∧ item.nn0.toNat ≤ (old.n + new.n).toNat
    rw [toNat_add_of_lt hn]
    have hroom := hentry token1 token2
    cases hfirst : (grams token1).getArrayItem token2 with
    | none =>
      rw [hfirst, merge_none_left] at hitem
      obtain ⟨hsane, hseen⟩ := h'.items token1 token2 item hitem
      exact ⟨hsane, by omega⟩
    | some first =>
      obtain ⟨hsane, hseen⟩ := h.items token1 token2 first hfirst
      cases hsecond : (others token1).getArrayItem token2 with
      | none =>
        rw [hfirst, hsecond, merge_none_right] at hitem
        rw [← some.inj hitem]
        exact ⟨hsane, by omega⟩
      | some second =>
        obtain ⟨hsane', hseen'⟩ := h'.items token1 token2 second hsecond
        rw [hfirst, hsecond, merge_some_some] at hitem
        rw [hfirst, hsecond] at hroom
        obtain ⟨hboth, hnn0⟩ := sane_mergedItem hsane hsane' hroom
        rw [← some.inj hitem]
        exact ⟨hboth, by omega⟩

/-- A merge leaves balanced containers balanced. It aborts where the source has no magic header,
and exits where a total overflows. -/
theorem Balanced.merge (h : Balanced target) (h' : Balanced source) (order : Walk)
    (hn : (target.getMagicHeader.getD .zeroed).n.toNat + (source.getMagicHeader.getD .zeroed).n.toNat < 2 ^ 32) :
    if source.getMagicHeader = none then mergeTwoKMixtureModel order target source = .error .abort
    else mergeTwoKMixtureModel order target source = .error (.exit eoverflow) ∨
      ∃ after, mergeTwoKMixtureModel order target source = .ok after ∧ Balanced after := by
  obtain ⟨merged, hrun, hin, hout, hmagic⟩ := @mergeRows_ok source h'.core.ascending (source.getAllItems order) target
    (source.nodup_getAllItems order) (fun token htoken => (source.mem_getAllItems token order).mp htoken)
    h.core.ascending
  have hmerges : ∀ token, Merges (target.grams token) (source.grams token) (merged.grams token) := by
    intro token
    by_cases htoken : token ∈ source.getAllItems order
    · exact (hin token htoken).1
    · have hsame : merged.grams token = target.grams token := by
        rw [grams, hout token htoken, grams]
      rw [hsame, source.grams_of_not_mem token htoken]
      exact (merges_newGram (h.core.ascending token)).1
  split_ifs with hbare
  · simp only [mergeTwoKMixtureModel, mergeArrayItems, hrun, bind, Except.bind, mergeMagicHeader, hbare]
  · obtain ⟨new, hnew⟩ := ne_none_iff_exists'.mp hbare
    have hcore' := h'.core
    rw [hnew, getD_some] at hcore' hn
    have hstart : merged.getMagicHeader.getD .zeroed = target.getMagicHeader.getD .zeroed := by rw [hmagic]
    set old := target.getMagicHeader.getD .zeroed with hold
    by_cases hwc : old.wc + new.wc < if old.wc ≤ new.wc then new.wc else old.wc
    · refine Or.inl ?_
      simp only [mergeTwoKMixtureModel, mergeArrayItems, hrun, bind, Except.bind, mergeMagicHeader, hnew, hstart,
        if_pos hwc]
      rfl
    by_cases hfreq : old.totalFreq + new.totalFreq <
        if old.totalFreq ≤ new.totalFreq then new.totalFreq else old.totalFreq
    · refine Or.inl ?_
      simp only [mergeTwoKMixtureModel, mergeArrayItems, hrun, bind, Except.bind, mergeMagicHeader, hnew, hstart,
        if_neg hwc, if_pos hfreq]
      rfl
    · refine Or.inr ⟨merged.setMagicHeader ⟨old.wc + new.wc, old.n + new.n, old.totalFreq + new.totalFreq⟩, ?_,
        h.core.merge hcore' hmerges (sum_lt_of_no_overflow hwc).1 hn, fun token gram hgram => ?_,
        fun hnone => absurd hnone (some_ne_none _)⟩
      · simp only [mergeTwoKMixtureModel, mergeArrayItems, hrun, bind, Except.bind, mergeMagicHeader, hnew, hstart,
          if_neg hwc, if_neg hfreq]
        rfl
      · have hgram : merged.load token = some gram := hgram
        by_cases htoken : token ∈ source.getAllItems order
        · -- the counters of both grams are zero where their sums are
          rintro ⟨hwcZero, hfreqZero⟩
          obtain ⟨found, hfound⟩ := isSome_iff_exists.mp ((source.mem_getAllItems token order).mp htoken)
          have hgrams := merged.grams_of_load token hgram
          have hother := source.grams_of_load token hfound
          have hwcSum := (hmerges token).wc
          have hfreqSum := (hmerges token).freq
          rw [hgrams, hother] at hwcSum hfreqSum
          rw [hwcZero] at hwcSum
          rw [hfreqZero] at hfreqSum
          have hroom := (sum_lt_of_no_overflow hwc).1
          have hle := h.core.header_le token
          rw [← hold] at hle
          have hle' := hcore'.header_le token
          rw [hother] at hle'
          exact h'.kept token found hfound ⟨eq_zero_of_add hwcSum (by omega), eq_zero_of_add hfreqSum (by omega)⟩
        · rw [hout token htoken] at hgram
          exact h.kept token gram hgram

end Oxpinyin.Kmm
