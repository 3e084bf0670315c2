import Oxpinyin.KmmTraining
import Oxpinyin.KmmMerge
import Oxpinyin.KmmPrune

/-!
# Runs of the k-mixture-model tools

From an empty container, documents, merges and prunes keep the counters balanced
(`Reachable.balanced`). What is left to abort is a magic header that is read before it was set :
the first document of a container, where none of its pairs is accepted, and a merge of a source
without one.
-/

namespace Oxpinyin.Kmm

open List Option FiniteMap Margins Run Kmm Except BitVec
open Finset hiding map_cons sum_cons

/-! ## Validating -/

variable {container : Container}

/-- The sums of the headers of some tokens. -/
theorem headerSums {container : Container} :
    ∀ {keys : List (BitVec 32)} {wc freq : BitVec 32}, (∀ token ∈ keys, (container.load token).isSome) →
      wc.toNat + (keys.map fun token => (container.grams token).header.wc.toNat).sum < 2 ^ 32 →
      freq.toNat + (keys.map fun token => (container.grams token).header.freq.toNat).sum < 2 ^ 32 →
      ∃ wordCount totalFreq, keys.foldlM (addHeader container) (wc, freq) = .ok (wordCount, totalFreq) ∧
        wordCount.toNat = wc.toNat + (keys.map fun token => (container.grams token).header.wc.toNat).sum ∧
        totalFreq.toNat = freq.toNat + (keys.map fun token => (container.grams token).header.freq.toNat).sum
  | [], wc, freq, _, _, _ => ⟨wc, freq, rfl, rfl, rfl⟩
  | token :: rest, wc, freq, hkeys, hwc, hfreq => by
    obtain ⟨gram, hgram⟩ := isSome_iff_exists.mp (hkeys token mem_cons_self)
    have hheader := container.getArrayHeader_eq token hgram
    rw [map_cons, sum_cons] at hwc hfreq
    have hwcNat : (wc + (container.grams token).header.wc).toNat = wc.toNat +
      (container.grams token).header.wc.toNat := by
      rw [toNat_add_of_lt (by omega)]
    have hfreqNat : (freq + (container.grams token).header.freq).toNat =
        freq.toNat + (container.grams token).header.freq.toNat := by
      rw [toNat_add_of_lt (by omega)]
    obtain ⟨wordCount, totalFreq, hrun, hword, htotal⟩ := @headerSums container rest
      (wc + (container.grams token).header.wc) (freq + (container.grams token).header.freq)
      (fun other hin => hkeys other (mem_cons_of_mem token hin)) (by omega) (by omega)
    refine ⟨wordCount, totalFreq, ?_, ?_, ?_⟩
    · rw [foldlM_cons, addHeader, hheader]
      exact hrun
    · rw [hword, hwcNat, map_cons, sum_cons, Nat.add_assoc]
    · rw [htotal, hfreqNat, map_cons, sum_cons, Nat.add_assoc]

/-- Some pair has an item. -/
def HasPair (container : Container) : Prop :=
  ∃ token1 token2 item, (container.grams token1).getArrayItem token2 = some item

/-- A balanced container validates. -/
theorem Balanced.validateUnigram (h : Balanced container) (hpair : HasPair container)
    (order : Walk) : validateUnigram order container = .ok true := by
  have hcore := h.core
  obtain ⟨token1, token2, item, hitem⟩ := hpair
  have hpos := (hcore.items token1 token2 item hitem).1.counted
  have hentry : counts container.grams token1 token2 = item.wc.toNat := by rw [counts, hitem]; rfl
  have hle := Nat.le_trans (le_rowSum (counts container.grams) token1 token2) (rowSum_le _ token1)
  have hwc := hcore.magicWc
  have hfreq := hcore.magicFreq
  obtain ⟨magic, hmagic⟩ : ∃ magic, container.getMagicHeader = some magic := by
    cases hnone : container.getMagicHeader with
    | some magic => exact ⟨magic, rfl⟩
    | none =>
      rw [hnone, getD_none] at hwc
      have hzero : MagicHeader.zeroed.wc.toNat = 0 := rfl
      omega
  rw [hmagic, getD_some] at hwc hfreq
  have hnodup := container.nodup_getAllItems order
  have hwcs : ((container.getAllItems order).map fun token => (container.grams token).header.wc.toNat).sum =
      magic.wc.toNat := by
    rw [sum_nodup hnodup fun token hnot => by rw [container.grams_of_not_mem token hnot]; rfl, hwc, ← sum_rowSum]
    exact sum_congr rfl fun token _ => hcore.wc token
  have hfreqs : ((container.getAllItems order).map fun token => (container.grams token).header.freq.toNat).sum =
      magic.totalFreq.toNat := by
    rw [sum_nodup hnodup fun token hnot => by rw [container.grams_of_not_mem token hnot]; rfl, hfreq, ← sum_colSum]
    exact sum_congr rfl fun token _ => hcore.freq token
  have hzero : (0 : BitVec 32).toNat = 0 := rfl
  obtain ⟨wordCount, totalFreq, hrun, hword, htotal⟩ := @headerSums container (container.getAllItems order) 0 0
    (fun token hin => (container.mem_getAllItems token order).mp hin)
    (by rw [hwcs, hzero, Nat.zero_add]; exact magic.wc.isLt)
    (by rw [hfreqs, hzero, Nat.zero_add]; exact magic.totalFreq.isLt)
  rw [hwcs, hzero, Nat.zero_add] at hword
  rw [hfreqs, hzero, Nat.zero_add] at htotal
  have hword := eq_of_toNat_eq hword
  have htotal := eq_of_toNat_eq htotal
  have hwcNe : magic.wc ≠ 0 := fun heq => by
    rw [heq, hzero] at hwc
    omega
  have hfreqNe : magic.totalFreq ≠ 0 := fun heq => by
    rw [heq, hzero] at hfreq
    omega
  have hboth : ¬magic.wc ≠ magic.totalFreq := not_not.mpr (eq_of_toNat_eq (hwc.trans hfreq.symm))
  simp only [Kmm.validateUnigram, hmagic, if_neg hwcNe, if_neg hfreqNe, if_neg hboth, bind, Except.bind, hrun, hword,
    htotal, decide_true, Bool.and_self]
  rfl

/-- Every gram of a balanced container is valid. -/
theorem Balanced.validGram (h : Balanced container) {token : BitVec 32} {gram : KmmGram}
    (hload : container.load token = some gram) : Kmm.validGram gram = true := by
  have hcore := h.core
  have hgram := container.grams_of_load token hload
  rw [Kmm.validGram]
  by_cases hwc : gram.header.wc = 0
  · have hfreq : gram.header.freq ≠ 0 := fun hfreq => h.kept token gram hload ⟨hwc, hfreq⟩
    have hrow : rowSum (counts container.grams) token = 0 := by
      rw [← hcore.wc, hgram, hwc]
      rfl
    have hnone : gram.items = [] := by
      have hlists := (hcore.ascending token).lists
      rw [hgram] at hlists
      refine eq_nil_iff_forall_not_mem.mpr fun entry hin => ?_
      have hitem := (hlists.mem entry.1 entry.2).mp hin
      rw [← hgram] at hitem
      have hpos := (hcore.items token entry.1 entry.2 hitem).1.counted
      have hle := le_rowSum (counts container.grams) token entry.1
      have hcount : counts container.grams token entry.1 = entry.2.wc.toNat := by rw [counts, hitem]; rfl
      omega
    rw [if_pos hwc, hnone, decide_eq_true hfreq]
    rfl
  · have hlists := (hcore.ascending token).lists
    have hsum := hlists.sum_eq fun _ item => item.wc.toNat
    have hrow := hcore.wc token
    have hcounts : (∑ other, (((container.grams token).getArrayItem other).map fun item => item.wc.toNat).getD 0) =
        rowSum (counts container.grams) token := rfl
    rw [hcounts, ← hrow, hgram] at hsum
    have hnat := @toNat_wcSum gram.items (by rw [hsum]; exact gram.header.wc.isLt)
    rw [hsum] at hnat
    rw [if_neg hwc]
    exact decide_eq_true (eq_of_toNat_eq hnat)

theorem Balanced.validateBigram (h : Balanced container) (order : Walk) :
    Kmm.validateBigram order container = .ok true := by
  have hkeys : ∀ token ∈ container.getAllItems order, (container.load token).isSome := fun token hin =>
    (container.mem_getAllItems token order).mp hin
  rw [Kmm.validateBigram]
  generalize container.getAllItems order = keys at hkeys
  induction keys with
  | nil => rfl
  | cons token rest ih =>
    obtain ⟨gram, hgram⟩ := isSome_iff_exists.mp (hkeys token mem_cons_self)
    rw [foldlM_cons, checkGram, hgram]
    dsimp only
    rw [h.validGram hgram]
    exact ih fun other hin => hkeys other (mem_cons_of_mem token hin)

/-! ## Documents one by one -/

variable {after : Container}

/-- A document adds at most its words. -/
theorem documentAdds_le {params : GenerateParams} (container : Container) {document : Document} {words : Nat}
    (h : Counted document words) : documentAdds params container document ≤ words := by
  rw [← h.total, documentAdds, grandSum, grandSum]
  refine Finset.sum_le_sum fun token1 _ => Finset.sum_le_sum fun token2 _ => ?_
  rw [acceptedCounts, acceptedCount]
  split_ifs
  · exact Nat.le_refl _
  · exact Nat.zero_le _

theorem getMagicHeader_postProcessingUnigram {order : Walk} {unigram : Table}
    (h : postProcessingUnigram order unigram container = .ok after) : after.getMagicHeader ≠ none := by
  rw [postProcessingUnigram] at h
  cases hmagic : ((unigram.keys order).foldl (addWord unigram) (container, 0)).1.getMagicHeader with
  | none =>
    rw [hmagic] at h
    cases h
  | some magic =>
    rw [hmagic] at h
    dsimp only at h
    by_cases hover :
      magic.totalFreq + ((unigram.keys order).foldl (addWord unigram) (container, 0)).2 < magic.totalFreq
    · rw [if_pos hover] at h
      rw [← ok.inj h, hmagic]
      exact some_ne_none _
    · rw [if_neg hover] at h
      rw [← ok.inj h]
      exact some_ne_none _

/-- A document that is folded in leaves a magic header. -/
theorem getMagicHeader_trainDocument {params : GenerateParams} {order : HashOrder} {document : Document}
    (h : trainDocument params order document container = .ok after) :
    after.getMagicHeader ≠ none := by
  obtain ⟨⟨unigram, trained⟩, _, hlast⟩ := bind_eq_ok h
  dsimp only at hlast
  cases htrained : trained.getMagicHeader with
  | none =>
    rw [htrained] at hlast
    exact nomatch hlast
  | some magic =>
    rw [htrained] at hlast
    exact getMagicHeader_postProcessingUnigram hlast

/-- The documents are read, and every total they lead to fits its counter. -/
def Fits (params : GenerateParams) (phrases : PhraseIndex) : List (List Bytes × HashOrder) → Container → Prop
  | [], _ => True
  | document :: rest, container =>
    ∃ read, readDocument phrases document.1 params.trainPiGram = .ok read ∧ wordLines phrases document.1 < 2 ^ 32 ∧
      (container.getMagicHeader.getD .zeroed).wc.toNat + documentAdds params container read < 2 ^ 32 ∧
      (container.getMagicHeader.getD .zeroed).n.toNat + 1 < 2 ^ 32 ∧
      ∀ after, Kmm.trainDocument params document.2 read container = .ok after → Fits params phrases rest after

/-- The first document adds no pair to a container without a magic header. -/
def BareStart (params : GenerateParams) (phrases : PhraseIndex) (documents : List (List Bytes × HashOrder))
    (container : Container) : Prop :=
  container.getMagicHeader = none ∧ ∃ document rest read, documents = document :: rest ∧
    readDocument phrases document.1 params.trainPiGram = .ok read ∧ documentAdds params container read = 0

/-- Documents keep a container balanced, and abort at a bare start only. -/
theorem Balanced.generate {params : GenerateParams} (htrain : params.trainPiGram = true) (phrases : PhraseIndex) :
    ∀ {documents : List (List Bytes × HashOrder)} {container : Container}, Balanced container →
      Fits params phrases documents container →
      (BareStart params phrases documents container ∧ generate params phrases documents container = .error .abort) ∨
      (¬BareStart params phrases documents container ∧
        ∃ after, generate params phrases documents container = .ok after ∧ Balanced after)
  | [], container, h, _ => by
    refine .inr ⟨fun hbare => ?_, container, rfl, h⟩
    obtain ⟨_, _, _, _, hnil, _⟩ := hbare
    exact nomatch hnil
  | document :: rest, container, h, hfits => by
    obtain ⟨read, hread, hwords, hwc, hn, hnext⟩ := hfits
    have hcounted := counted_readDocument hwords (htrain ▸ hread)
    have hstep := h.trainDocument hcounted document.2 hwc hn
    have hiff : BareStart params phrases (document :: rest) container ↔
        container.getMagicHeader = none ∧ documentAdds params container read = 0 := by
      refine and_congr_right fun _ => ⟨fun hfirst => ?_, fun hzero => ⟨document, rest, read, rfl, hread, hzero⟩⟩
      obtain ⟨first, others, other, hlist, hother, hzero⟩ := hfirst
      obtain ⟨rfl, -⟩ := List.cons.inj hlist
      rw [hread] at hother
      obtain rfl := ok.inj hother
      exact hzero
    have hgenerate : Kmm.generate params phrases (document :: rest) container =
        Kmm.trainDocument params document.2 read container >>= Kmm.generate params phrases rest := by
      rw [Kmm.generate, foldlM_cons, hread]
      rfl
    rw [hiff, hgenerate]
    split_ifs at hstep with hbare
    · exact .inl ⟨hbare, by rw [hstep]; rfl⟩
    · obtain ⟨after, hafter, hbalanced⟩ := hstep
      rw [hafter]
      have hmagic := getMagicHeader_trainDocument hafter
      obtain ⟨hstart, _⟩ | ⟨_, hrest⟩ := Balanced.generate htrain phrases hbalanced (hnext after hafter)
      · exact absurd hstart.1 hmagic
      · exact .inr ⟨hbare, hrest⟩

/-! ## Runs of the tools -/

/-- The containers the tools lead to, every total below `2 ^ 32`. -/
inductive Reachable : Container → Prop
  | empty : Reachable .empty
  | generate {container after : Container} (params : GenerateParams) (phrases : PhraseIndex)
      (documents : List (List Bytes × HashOrder)) (h : Reachable container) (htrain : params.trainPiGram = true)
      (hfits : Fits params phrases documents container)
      (hrun : Kmm.generate params phrases documents container = .ok after) : Reachable after
  | merge {target source after : Container} (order : Walk) (h : Reachable target) (h' : Reachable source)
      (hn : (target.getMagicHeader.getD .zeroed).n.toNat + (source.getMagicHeader.getD .zeroed).n.toNat < 2 ^ 32)
      (hrun : mergeTwoKMixtureModel order target source = .ok after) : Reachable after
  | prune {container after : Container} (drop : BitVec 32 → ArrayItem → Bool) (order : Walk) (h : Reachable container)
      (hrun : Kmm.prune drop order container = .ok after) : Reachable after

theorem balanced_empty : Balanced .empty := by
  have hcounts : counts Container.empty.grams = fun _ _ => 0 := by
    funext token1 token2
    exact congrArg countOf (getArrayItem_newGram token2)
  have hgrams : ∀ token, Container.empty.grams token = newGram := fun _ => rfl
  have hgrand : grandSum (fun _ _ => 0 : BitVec 32 → BitVec 32 → Nat) = 0 := by
    rw [grandSum]
    simp only [sum_const_zero]
  refine ⟨⟨fun token => List.Pairwise.nil, fun token => ?_, fun token => ?_, ?_, ?_,
    fun token1 token2 item hitem => ?_⟩,
    fun token gram hload => absurd hload (some_ne_none gram).symm, fun _ _ => rfl⟩
  · rw [hcounts, rowSum, sum_const_zero]
    rfl
  · rw [hcounts, colSum, sum_const_zero]
    rfl
  · rw [hcounts, hgrand]
    rfl
  · rw [hcounts, hgrand]
    rfl
  · rw [hgrams, getArrayItem_newGram] at hitem
    exact absurd hitem (some_ne_none item).symm

/-- Every container the tools lead to is balanced. -/
theorem Reachable.balanced (h : Reachable container) : Balanced container := by
  induction h with
  | empty => exact balanced_empty
  | generate params phrases documents _ htrain hfits hrun ih =>
    obtain ⟨_, habort⟩ | ⟨_, after, hafter, hbalanced⟩ := ih.generate htrain phrases hfits
    · rw [habort] at hrun
      exact nomatch hrun
    · rw [hafter] at hrun
      exact ok.inj hrun ▸ hbalanced
  | merge order _ _ hn hrun ih ih' =>
    have hmerge := ih.merge ih' order hn
    split_ifs at hmerge with hbare
    · rw [hmerge] at hrun
      exact nomatch hrun
    · obtain hexit | ⟨after, hafter, hbalanced⟩ := hmerge
      · rw [hexit] at hrun
        exact nomatch hrun
      · rw [hafter] at hrun
        exact ok.inj hrun ▸ hbalanced
  | prune drop order _ hrun ih =>
    have hprune := ih.prune drop order
    split_ifs at hprune with hbare
    · rw [hprune] at hrun
      exact nomatch hrun
    · obtain ⟨after, hafter, hbalanced⟩ := hprune
      rw [hafter] at hrun
      exact ok.inj hrun ▸ hbalanced

/-- The headers of a balanced container are sums, and so is its magic header. -/
theorem Balanced.sums (h : Balanced container) :
    (∀ token, (container.grams token).header.wc.toNat =
      ((container.grams token).items.map fun entry => entry.2.wc.toNat).sum) ∧
    (∀ token, (container.grams token).header.freq.toNat =
      ∑ token1, countOf ((container.grams token1).getArrayItem token)) ∧
    (container.getMagicHeader.getD .zeroed).wc.toNat = ∑ token, (container.grams token).header.wc.toNat ∧
    (container.getMagicHeader.getD .zeroed).wc = (container.getMagicHeader.getD .zeroed).totalFreq ∧
    (container.getMagicHeader.getD .zeroed).totalFreq.toNat = ∑ token, (container.grams token).header.freq.toNat := by
  have hcore := h.core
  refine ⟨fun token => ?_, hcore.freq, ?_, eq_of_toNat_eq (hcore.magicWc.trans hcore.magicFreq.symm), ?_⟩
  · rw [(hcore.ascending token).lists.sum_eq fun _ item => item.wc.toNat]
    exact hcore.wc token
  · rw [hcore.magicWc, ← sum_rowSum]
    exact sum_congr rfl fun token _ => (hcore.wc token).symm
  · rw [hcore.magicFreq, ← sum_colSum]
    exact sum_congr rfl fun token _ => (hcore.freq token).symm

/-- Every container the tools lead to is balanced : its counters are sums over its items, both
validations answer true while it has a pair, and a tool aborts where it reads a magic header that
was not set, and nowhere else. -/
theorem reachable_counters {container : Container} (h : Reachable container) :
    ((∀ token, (container.grams token).header.wc.toNat =
        ((container.grams token).items.map fun entry => entry.2.wc.toNat).sum) ∧
      (∀ token, (container.grams token).header.freq.toNat =
        ∑ token1, countOf ((container.grams token1).getArrayItem token)) ∧
      (container.getMagicHeader.getD .zeroed).wc.toNat = ∑ token, (container.grams token).header.wc.toNat ∧
      (container.getMagicHeader.getD .zeroed).wc = (container.getMagicHeader.getD .zeroed).totalFreq ∧
      (container.getMagicHeader.getD .zeroed).totalFreq.toNat = ∑ token, (container.grams token).header.freq.toNat) ∧
    (∀ token1 token2 item, (container.grams token1).getArrayItem token2 = some item →
      item.n1 ≤ item.nn0 ∧ item.nn0 ≤ item.wc ∧ item.mr ≤ item.wc ∧
        item.nn0 ≤ (container.getMagicHeader.getD .zeroed).n) ∧
    (HasPair container → ∀ order,
      Kmm.validateUnigram order container = .ok true ∧ Kmm.validateBigram order container = .ok true) ∧
    (∀ params phrases documents, params.trainPiGram = true → Fits params phrases documents container →
      (Kmm.generate params phrases documents container = .error .abort ↔
        BareStart params phrases documents container)) ∧
    (∀ source order, Reachable source → (container.getMagicHeader.getD .zeroed).n.toNat +
        (source.getMagicHeader.getD .zeroed).n.toNat < 2 ^ 32 →
      (mergeTwoKMixtureModel order container source = .error .abort ↔ source.getMagicHeader = none)) ∧
    ∀ drop order, Kmm.prune drop order container ≠ .error .abort := by
  have hbalanced := h.balanced
  refine ⟨hbalanced.sums, fun token1 token2 item hitem => ?_, fun hpair order =>
    ⟨hbalanced.validateUnigram hpair order, hbalanced.validateBigram order⟩,
      fun params phrases documents htrain hfits =>
    ?_, fun source order hsource hn => ?_, fun drop order habort => ?_⟩
  · obtain ⟨hsane, hseen⟩ := hbalanced.core.items token1 token2 item hitem
    exact ⟨hsane.n1_le, hsane.nn0_le, hsane.mr_le, hseen⟩
  · obtain ⟨hbare, habort⟩ | ⟨hbare, after, hafter, _⟩ := hbalanced.generate htrain phrases hfits
    · exact ⟨fun _ => hbare, fun _ => habort⟩
    · refine ⟨fun habort => ?_, fun hstart => absurd hstart hbare⟩
      rw [hafter] at habort
      exact nomatch habort
  · have hmerge := hbalanced.merge hsource.balanced order hn
    split_ifs at hmerge with hbare
    · exact ⟨fun _ => hbare, fun _ => hmerge⟩
    · refine ⟨fun habort => ?_, fun hnone => absurd hnone hbare⟩
      obtain hexit | ⟨after, hafter, _⟩ := hmerge
      · rw [hexit] at habort
        exact nomatch Except.error.inj habort
      · rw [hafter] at habort
        exact nomatch habort
  · have hprune := hbalanced.prune drop order
    split_ifs at hprune with hbare
    · rw [hprune] at habort
      exact nomatch Except.error.inj habort
    · obtain ⟨after, hafter, _⟩ := hprune
      rw [hafter] at habort
      exact nomatch habort

/-- Keys in the order of the container. -/
def Walk.ascending : Walk := ⟨fun listed => listed, List.Perm.refl⟩

/-- One phrase : token 16 reads `a`. -/
def onePhrase : PhraseIndex := ⟨fun token => if token = 16 then some [97] else none⟩

def plainParams : GenerateParams := ⟨20, fun mr => mr + mr, true⟩

def plainOrder : HashOrder := ⟨.ascending, fun _ => .ascending, .ascending⟩

/-- The document `16 a`. -/
def oneWord : List Bytes := [[49, 54, 32, 97]]

/-- The container behind a document of no more than two words. -/
theorem reachable_document {lines : List Bytes} {document : Document} {after : Container}
    (hread : readDocument onePhrase lines true = .ok document) (hwords : wordLines onePhrase lines ≤ 2)
    (hrun : Kmm.generate plainParams onePhrase [(lines, plainOrder)] .empty = .ok after) : Reachable after := by
  have hadds := @documentAdds_le plainParams .empty _ _ (counted_readDocument (by omega) hread)
  have hwc : (Container.empty.getMagicHeader.getD .zeroed).wc.toNat = 0 := rfl
  refine .generate plainParams onePhrase [(lines, plainOrder)] .empty rfl ⟨_, hread, ?_, ?_, ?_, fun _ _ =>
    trivial⟩ hrun
  · exact Nat.lt_of_le_of_lt hwords (by decide)
  · omega
  · decide

/-- A container of the rows of the tokens 1 and 16. -/
def twoRows (magic : MagicHeader) (first second : KmmGram) : Container :=
  ⟨some magic, (SortedMap.empty.insert 1 first).insert 16 second⟩

/-- The pair of the document, counted again in the one that has its line twice. -/
def keptPair : Container := twoRows ⟨2, 2, 2⟩ ⟨⟨2, 0⟩, [(16, ⟨2, 2, 2, 1⟩)]⟩ ⟨⟨0, 2⟩, []⟩

/-- Two documents, merged, and the pair that one of them has alone pruned. -/
theorem reachable_keptPair : Reachable keptPair := by
  have hone : Reachable (twoRows ⟨1, 1, 1⟩ ⟨⟨1, 0⟩, [(16, ⟨1, 1, 1, 1⟩)]⟩ ⟨⟨0, 1⟩, []⟩) :=
    @reachable_document oneWord _ _ rfl (by decide) rfl
  have htwo : Reachable (twoRows ⟨2, 1, 2⟩ ⟨⟨1, 0⟩, [(16, ⟨1, 1, 1, 1⟩)]⟩ ⟨⟨1, 2⟩, [(16, ⟨1, 1, 1, 1⟩)]⟩) :=
    @reachable_document (oneWord ++ oneWord) _ _ rfl (by decide) rfl
  have hmerged : Reachable (twoRows ⟨3, 2, 3⟩ ⟨⟨2, 0⟩, [(16, ⟨2, 2, 2, 1⟩)]⟩ ⟨⟨1, 3⟩, [(16, ⟨1, 1, 1, 1⟩)]⟩) :=
    .merge .ascending hone htwo (by decide) (by with_unfolding_all rfl)
  exact .prune (fun _ item => item.wc < 2) .ascending hmerged rfl

theorem keptPair_validates : HasPair keptPair ∧
    ∀ order, Kmm.validateUnigram order keptPair = .ok true ∧ Kmm.validateBigram order keptPair = .ok true := by
  have hpair : HasPair keptPair := ⟨1, 16, ⟨2, 2, 2, 1⟩, rfl⟩
  exact ⟨hpair, (reachable_counters reachable_keptPair).2.2.1 hpair⟩

/-- A document without a word, the first of its container. -/
theorem generate_noWord : Reachable .empty ∧ Fits plainParams onePhrase [([], plainOrder)] .empty ∧
    Kmm.generate plainParams onePhrase [([], plainOrder)] .empty = .error .abort := by
  have hadds := @documentAdds_le plainParams .empty _ _ counted_new
  have hwc : (Container.empty.getMagicHeader.getD .zeroed).wc.toNat = 0 := rfl
  refine ⟨.empty, ⟨Document.new, rfl, ?_, ?_, ?_, fun _ _ => trivial⟩, rfl⟩
  · decide
  · omega
  · decide

end Oxpinyin.Kmm
