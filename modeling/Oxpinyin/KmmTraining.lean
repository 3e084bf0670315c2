import Oxpinyin.KmmBalance

/-!
# Documents into a container

A document's tables are a matrix of its pairs and its column sums (`Counted`). While it is
folded in, the words that wait in its table are what the columns of both matrices have more than
the headers (`Training`) : an accepted pair moves from the one matrix to the other, a refused one
leaves the document and the table. What is left goes to the headers.
-/

namespace Oxpinyin.Kmm

open List Option Function FiniteMap Margins Run SortedMap Kmm Oxpinyin.Kmm.SingleGram Except Document
open BitVec hiding and_assoc

/-! ## The tables of a document -/

variable {table : Table} {token : BitVec 32} {document : Document}

/-- The count of a token in a table. -/
def tableCount (table : Table) (token : BitVec 32) : Nat := ((table.get? token).map BitVec.toNat).getD 0

/-- The counts of a document's pairs. -/
def docCounts (document : Document) (token1 token2 : BitVec 32) : Nat :=
  tableCount (document.secondWords token1) token2

theorem tableCount_insert (table : Table) (token v : BitVec 32) :
    tableCount (table.insert token v) = update (tableCount table) token v.toNat := by
  funext other
  rw [tableCount, get?_insert, update_apply, update_apply]
  split_ifs <;> rfl

theorem tableCount_erase (table : Table) (token : BitVec 32) :
    tableCount (table.erase token) = update (tableCount table) token 0 := by
  funext other
  rw [tableCount, get?_erase, update_apply, update_apply]
  split_ifs <;> rfl

theorem toNat_getD (table : Table) (token : BitVec 32) :
    ((table.get? token).getD 0).toNat = tableCount table token := by
  unfold tableCount
  cases table.get? token <;> rfl

theorem toNat_add_one {a : BitVec 32} (h : a.toNat + 1 < 2 ^ 32) : (a + 1).toNat = a.toNat + 1 :=
  toNat_add_of_lt h

/-- One more of a token. -/
theorem tableCount_count (h : tableCount table token + 1 < 2 ^ 32) :
    tableCount (table.count token) = update (tableCount table) token (tableCount table token + 1) := by
  rw [← toNat_getD] at h ⊢
  rw [Table.count, tableCount_insert, toNat_add_one h]

/-- A table has no count of zero. -/
def Positive (table : Table) : Prop := ∀ token v, table.get? token = some v → v ≠ 0

theorem Positive.insert (h : Positive table) {v : BitVec 32} (hv : v ≠ 0) : Positive (table.insert token v) := by
  intro other w hw
  rw [get?_insert, update_apply] at hw
  split_ifs at hw
  · rw [← some.inj hw]
    exact hv
  · exact h other w hw

theorem Positive.erase (h : Positive table) (token : BitVec 32) : Positive (table.erase token) := by
  intro other w hw
  rw [get?_erase, update_apply] at hw
  split_ifs at hw
  exact h other w hw

theorem Positive.count (h : Positive table)
    (hroom : tableCount table token + 1 < 2 ^ 32) : Positive (table.count token) := by
  refine h.insert fun hzero => ?_
  rw [← toNat_getD] at hroom
  have hnat := congrArg BitVec.toNat hzero
  rw [toNat_add_one hroom] at hnat
  exact Nat.succ_ne_zero _ hnat

theorem positive_empty : Positive empty := fun _ _ h => absurd h (some_ne_none _).symm

/-- A document's words are the column sums of its pairs, `n` in all. -/
structure Counted (document : Document) (n : Nat) : Prop where
  words : ∀ token, tableCount document.unigram token = colSum (docCounts document) token
  total : grandSum (docCounts document) = n
  positive : Positive document.unigram
  pairs : ∀ token1, Positive (document.secondWords token1)

theorem docCounts_new : docCounts new = fun _ _ => 0 := rfl

theorem counted_new : Counted new 0 := by
  refine ⟨fun token => ?_, ?_, positive_empty, fun _ => positive_empty⟩
  · rw [docCounts_new, colSum, Finset.sum_const_zero]
    rfl
  · rw [docCounts_new, grandSum]
    simp only [Finset.sum_const_zero]

/-- A token counted, with the word before it. -/
theorem Counted.readToken {n : Nat} (h : Counted document n) (hroom : n + 1 < 2 ^ 32)
    (last : BitVec 32) (htoken : token ≠ nullToken) :
    Counted (readToken true (document, last) token).1 (n + 1) := by
  have hword : tableCount document.unigram token + 1 < 2 ^ 32 := by
    have hle := colSum_le (docCounts document) token
    have hwords := h.words token
    have htotal := h.total
    omega
  rw [Kmm.readToken, if_neg htoken, if_neg (by simp)]
  dsimp only
  generalize (if last = nullToken then sentenceStart else last) = word
  show Counted ⟨document.pairs.insert word ((document.secondWords word).count token),
    document.unigram.count token⟩ (n + 1)
  have hpair : tableCount (document.secondWords word) token + 1 < 2 ^ 32 := by
    have hle := le_colSum (docCounts document) word token
    have hwords := h.words token
    rw [docCounts] at hle
    omega
  have hseconds : ∀ token1, secondWords ⟨document.pairs.insert word
    ((document.secondWords word).count token),
      document.unigram.count token⟩ token1 =
        if token1 = word then (document.secondWords word).count token else document.secondWords token1 := by
    intro token1
    rw [secondWords, get?_insert, update_apply]
    split_ifs <;> rfl
  have hcounts : docCounts ⟨document.pairs.insert word ((document.secondWords word).count token),
      document.unigram.count token⟩ = setEntry (docCounts document) word token
        (docCounts document word token + 1) := by
    funext token1 token2
    rw [docCounts, hseconds, setEntry, update_apply]
    split_ifs with hsame
    · rw [tableCount_count hpair]
      rfl
    · rfl
  refine ⟨fun other => ?_, ?_, h.positive.count hword, fun token1 => ?_⟩
  · dsimp only
    rw [hcounts, tableCount_count hword, update_apply]
    split_ifs with hsame
    · have hcol := colSum_setEntry (docCounts document) word token (docCounts document word token + 1)
      have hwords := h.words token
      rw [hsame]
      omega
    · rw [colSum_setEntry_of_ne _ _ _ _ hsame]
      exact h.words other
  · have hgrand := grandSum_setEntry (docCounts document) word token (docCounts document word token + 1)
    have htotal := h.total
    rw [hcounts]
    omega
  · rw [hseconds]
    split_ifs
    · exact (h.pairs word).count hpair
    · exact h.pairs token1

/-- The lines of a document that have a word. -/
def wordLines (phrases : PhraseIndex) (lines : List Bytes) : Nat :=
  lines.countP fun line => (parseSegmentedLine phrases line).toOption.any (· != nullToken)

/-- A document that is read is counted. -/
theorem counted_readDocument {phrases : PhraseIndex} {lines : List Bytes}
    (hroom : wordLines phrases lines < 2 ^ 32) (h : readDocument phrases lines true = .ok document) :
    Counted document (wordLines phrases lines) := by
  have hfold : ∀ {lines : List Bytes} {state after : Document × BitVec 32} {n : Nat}, Counted state.1 n →
      n + wordLines phrases lines < 2 ^ 32 →
      lines.foldlM (fun state line => (parseSegmentedLine phrases line).map (readToken true state)) state =
        .ok after →
      Counted after.1 (n + wordLines phrases lines) := by
    intro lines
    induction lines with
    | nil =>
      intro state after n hstate _ hrun
      obtain rfl := ok.inj hrun
      exact hstate
    | cons line rest ih =>
      intro state after n hstate hlt hrun
      rw [foldlM_cons] at hrun
      obtain ⟨next, hnext, hrest⟩ := bind_eq_ok hrun
      obtain ⟨token, htoken, rfl⟩ := map_eq_ok hnext
      rw [wordLines, countP_cons, htoken] at hlt ⊢
      by_cases hnull : token = nullToken
      · have hnone : (ok token : Except Halt (BitVec 32)).toOption.any (· != nullToken) = false := by
          rw [hnull]
          rfl
        rw [hnone] at hlt ⊢
        rw [readToken, if_pos hnull] at hrest
        exact @ih (state.1, token) after n hstate hlt hrest
      · have hsome : (ok token : Except Halt (BitVec 32)).toOption.any (· != nullToken) = true :=
          bne_iff_ne.mpr hnull
        rw [hsome] at hlt ⊢
        have hgo := ih (hstate.readToken (by simp only [if_true] at hlt; omega) state.2 hnull)
          (by rw [wordLines]; simp only [if_true] at hlt; omega) hrest
        have hsum : n + (List.countP (fun line => (parseSegmentedLine phrases line).toOption.any
          (· != nullToken)) rest +
            if True then 1 else 0) = n + 1 + wordLines phrases rest := by
          rw [if_pos trivial, wordLines]
          omega
        simp only [if_true] at hsum ⊢
        rw [hsum]
        exact hgo
  rw [readDocument] at h
  obtain ⟨⟨read, last⟩, hrun, rfl⟩ := map_eq_ok h
  have hgo := hfold counted_new (by rw [Nat.zero_add]; exact hroom) hrun
  rwa [Nat.zero_add] at hgo

/-! ## The pairs of a document -/

/-- What a document's pair adds, by the item it meets. -/
def acceptedCount (params : GenerateParams) (item : Option ArrayItem) (count : Nat) : Nat :=
  if count ≤ (maximumOccursAllowed params item).toNat then count else 0

/-- What all pairs add. -/
def acceptedCounts (params : GenerateParams) (items : BitVec 32 → BitVec 32 → Option ArrayItem)
    (left : BitVec 32 → BitVec 32 → Nat) (token1 token2 : BitVec 32) : Nat :=
  acceptedCount params (items token1 token2) (left token1 token2)

theorem acceptedCounts_setEntry (params : GenerateParams) (items : BitVec 32 → BitVec 32 → Option ArrayItem)
    (left : BitVec 32 → BitVec 32 → Nat) (token1 token2 : BitVec 32) :
    acceptedCounts params items (setEntry left token1 token2 0) =
      setEntry (acceptedCounts params items left) token1 token2 0 := by
  funext x y
  rw [acceptedCounts, setEntry_apply, setEntry_apply]
  split_ifs
  · rw [acceptedCount, if_pos (Nat.zero_le _)]
  · rfl

/-- A container and a document's tables while pairs are left. The items that wait are those of
the start, and what they will add fits. -/
structure Training (params : GenerateParams) (items : BitVec 32 → BitVec 32 → Option ArrayItem) (n : Nat)
    (grams : BitVec 32 → KmmGram) (unigram : Table) (left : BitVec 32 → BitVec 32 → Nat) : Prop where
  ascending : ∀ token, (grams token).Ascending
  wc : ∀ token, (grams token).header.wc.toNat = rowSum (counts grams) token
  freq_le : ∀ token, (grams token).header.freq.toNat ≤ colSum (counts grams) token
  words : ∀ token, (grams token).header.freq.toNat + tableCount unigram token =
    colSum (counts grams) token + colSum left token
  positive : Positive unigram
  sane : ∀ token1 token2 item, (grams token1).getArrayItem token2 = some item →
    Sane item ∧ item.nn0.toNat ≤ n + (if left token1 token2 = 0 then 1 else 0)
  fresh : ∀ token1 token2, left token1 token2 ≠ 0 → (grams token1).getArrayItem token2 = items token1 token2
  fits : grandSum (counts grams) + grandSum (acceptedCounts params items left) < 2 ^ 32

/-- The item of an accepted pair. -/
theorem sane_trainedItem {item : Option ArrayItem} (h : ∀ found, item = some found → Sane found) {count : BitVec 32}
    (hcount : count ≠ 0) (hroom : countOf item + count.toNat < 2 ^ 32) {n : Nat} (hn : n + 1 < 2 ^ 32)
    (hseen : ∀ found, item = some found → found.nn0.toNat ≤ n) :
    Sane (trainedItem count item) ∧ (trainedItem count item).wc.toNat = countOf item + count.toNat ∧
      (trainedItem count item).nn0.toNat ≤ n + 1 := by
  have hpos : 0 < count.toNat := Nat.pos_of_ne_zero (toNat_ne_iff_ne.mpr hcount)
  cases item with
  | none =>
    have hn1 : (if count = 1 then (1 : BitVec 32) else 0).toNat ≤ 1 := by split_ifs <;> decide
    refine ⟨⟨?_, ?_, Nat.le_refl _, hpos⟩, ?_, ?_⟩
    · exact hn1
    · exact hpos
    · exact (Nat.zero_add _).symm
    · exact Nat.succ_le_succ (Nat.zero_le n)
  | some found =>
    have hsane := h found rfl
    have hle := hseen found rfl
    have hwc : (found.wc + count).toNat = found.wc.toNat + count.toNat := toNat_add_of_lt hroom
    have hnn0 : (found.nn0 + 1).toNat = found.nn0.toNat + 1 := toNat_add_one (by omega)
    have hsane1 := hsane.n1_le
    have hn1 : (if count = 1 then found.n1 + 1 else found.n1).toNat ≤ found.nn0.toNat + 1 := by
      split_ifs
      · rw [toNat_add_one (by omega)]
        omega
      · omega
    have hmr : (if found.mr ≤ count then count else found.mr).toNat ≤ found.wc.toNat + count.toNat := by
      have hsane2 := hsane.mr_le
      split_ifs <;> omega
    refine ⟨⟨?_, ?_, ?_, ?_⟩, hwc, ?_⟩
    · show (if count = 1 then found.n1 + 1 else found.n1).toNat ≤ (found.nn0 + 1).toNat
      rw [hnn0]
      exact hn1
    · show (found.nn0 + 1).toNat ≤ (found.wc + count).toNat
      have hsane3 := hsane.nn0_le
      rw [hnn0, hwc]
      omega
    · show (if found.mr ≤ count then count else found.mr).toNat ≤ (found.wc + count).toNat
      rw [hwc]
      exact hmr
    · show 0 < (found.wc + count).toNat
      rw [hwc]
      omega
    · show (found.nn0 + 1).toNat ≤ n + 1
      rw [hnn0]
      omega

namespace Training

variable {params : GenerateParams} {items : BitVec 32 → BitVec 32 → Option ArrayItem} {n : Nat}
  {grams : BitVec 32 → KmmGram} {unigram : Table} {left : BitVec 32 → BitVec 32 → Nat}
  {token1 token2 count : BitVec 32}

/-- `gram` is the first word's with an accepted pair in it. -/
structure Accepted (grams : BitVec 32 → KmmGram) (token1 token2 count : BitVec 32) (gram : KmmGram) : Prop where
  header : gram.header = { (grams token1).header with wc := (grams token1).header.wc + count }
  items : Lists gram.items (update (grams token1).getArrayItem token2
    (some (trainedItem count ((grams token1).getArrayItem token2))))

section

variable (h : Training params items n grams unigram left)
include h

/-- A refused pair leaves the document and the word's count. -/
theorem refuse (hcount : left token1 token2 = count.toNat) (hpos : count ≠ 0) :
    ∃ after, subtractFromUnigram unigram token2 count = .ok after ∧
      Training params items n grams after (setEntry left token1 token2 0) := by
  have hle := le_colSum left token1 token2
  have hwords := h.words token2
  have hfreq := h.freq_le token2
  have hnat : 0 < count.toNat := Nat.pos_of_ne_zero (toNat_ne_iff_ne.mpr hpos)
  cases hget : unigram.get? token2 with
  | none =>
    have hnone : tableCount unigram token2 = 0 := by rw [tableCount, hget]; rfl
    omega
  | some freq =>
    have hsome : tableCount unigram token2 = freq.toNat := by rw [tableCount, hget]; rfl
    have hdiff : (freq - count).toNat = freq.toNat - count.toNat := toNat_sub_of_le (by
      rw [le_def]
      omega)
    refine ⟨_, by rw [subtractFromUnigram, hget], ?_⟩
    have hafter : ∀ token, tableCount (if 0 < freq - count then unigram.insert token2 (freq - count)
        else unigram.erase token2) token =
          if token = token2 then freq.toNat - count.toNat else tableCount unigram token := by
      intro token
      by_cases hleft : 0 < freq - count
      · rw [if_pos hleft, tableCount_insert, update_apply, hdiff]
      · have hzero : (freq - count).toNat = 0 := by
          rw [lt_def] at hleft
          exact Nat.eq_zero_of_not_pos hleft
        rw [if_neg hleft, tableCount_erase, update_apply, ← hdiff, hzero]
    refine ⟨h.ascending, h.wc, h.freq_le, fun token => ?_, ?_, fun x y item hitem => ?_, fun x y hne => ?_, ?_⟩
    · rw [hafter]
      split_ifs with hsame
      · have hcol := colSum_setEntry left token1 token2 0
        rw [hsame]
        omega
      · rw [colSum_setEntry_of_ne _ _ _ _ hsame]
        exact h.words token
    · split_ifs with hleft
      · refine h.positive.insert fun hzero => ?_
        rw [hzero] at hleft
        exact absurd hleft (lt_irrefl 0)
      · exact h.positive.erase token2
    · obtain ⟨hsane, hseen⟩ := h.sane x y item hitem
      refine ⟨hsane, Nat.le_trans hseen (Nat.add_le_add_left ?_ n)⟩
      rw [setEntry_apply]
      split_ifs <;> omega
    · rw [setEntry_apply] at hne
      split_ifs at hne with hsame
      · exact absurd rfl hne
      · exact h.fresh x y hne
    · have hgrand := grandSum_setEntry (acceptedCounts params items left) token1 token2 0
      have hfits := h.fits
      rw [acceptedCounts_setEntry]
      omega

/-- An accepted pair moves to the container. -/
theorem accept (hn : n + 1 < 2 ^ 32) (hcount : left token1 token2 = count.toNat) (hpos : count ≠ 0)
    (haccept : count.toNat ≤ (maximumOccursAllowed params ((grams token1).getArrayItem token2)).toNat)
    {gram : KmmGram} (htrained : Accepted grams token1 token2 count gram) :
    Training params items n (update grams token1 gram) unigram (setEntry left token1 token2 0) ∧
      gram.header.wc.toNat = (grams token1).header.wc.toNat + count.toNat := by
  have hleft : left token1 token2 ≠ 0 := by
    rw [hcount]
    exact fun hz => hpos (eq_of_toNat_eq hz)
  have hfresh := h.fresh token1 token2 hleft
  have hadded : acceptedCounts params items left token1 token2 = count.toNat := by
    rw [acceptedCounts, ← hfresh, hcount, acceptedCount, if_pos haccept]
  have hfits := h.fits
  have hgrand := grandSum_setEntry (acceptedCounts params items left) token1 token2 0
  have hroom : countOf ((grams token1).getArrayItem token2) ≤ rowSum (counts grams) token1 :=
    le_rowSum (counts grams) token1 token2
  have hrow := rowSum_le (counts grams) token1
  have hadds := Nat.le_trans (le_rowSum (acceptedCounts params items left) token1 token2)
    (rowSum_le (acceptedCounts params items left) token1)
  obtain ⟨hsane, hwc, hseen⟩ := @sane_trainedItem ((grams token1).getArrayItem token2)
    (fun found hfound => (h.sane token1 token2 found hfound).1) count hpos (by omega) n hn fun found hfound => by
      have hle := (h.sane token1 token2 found hfound).2
      rw [if_neg hleft] at hle
      exact hle
  have hget : gram.getArrayItem = update (grams token1).getArrayItem token2
      (some (trainedItem count ((grams token1).getArrayItem token2))) :=
    funext fun token => getArrayItem_eq htrained.items token
  have hcounts := counts_setItem hget
  have hentry : countOf (some (trainedItem count ((grams token1).getArrayItem token2))) =
      counts grams token1 token2 + count.toNat := hwc
  rw [hentry] at hcounts
  have hgram : gram.header.wc.toNat = (grams token1).header.wc.toNat + count.toNat := by
    have hold := h.wc token1
    rw [htrained.header, toNat_add_of_lt (by omega)]
  have hfreq : ∀ token, (update grams token1 gram token).header.freq = (grams token).header.freq := by
    intro token
    by_cases hsame : token = token1
    · rw [hsame, update_self, htrained.header]
    · rw [update_of_ne hsame]
  have hcol := colSum_setEntry (counts grams) token1 token2 (counts grams token1 token2 + count.toNat)
  have hcol' := colSum_setEntry left token1 token2 0
  refine ⟨⟨fun token => ?_, fun token => ?_, fun token => ?_, fun token => ?_, h.positive,
    fun x y item hitem => ?_, fun x y hne => ?_, ?_⟩, hgram⟩
  · by_cases hsame : token = token1
    · rw [hsame, update_self]
      exact htrained.items.ascending
    · rw [update_of_ne hsame]
      exact h.ascending token
  · rw [hcounts]
    by_cases hsame : token = token1
    · have hsum := rowSum_setEntry (counts grams) token1 token2 (counts grams token1 token2 + count.toNat)
      have hold := h.wc token1
      rw [hsame, update_self, hgram]
      omega
    · rw [update_of_ne hsame, rowSum_setEntry_of_ne _ _ _ _ hsame]
      exact h.wc token
  · rw [hcounts, hfreq]
    have hle := h.freq_le token
    by_cases hsame : token = token2
    · rw [hsame] at hle ⊢
      omega
    · rw [colSum_setEntry_of_ne _ _ _ _ hsame]
      exact hle
  · rw [hcounts, hfreq]
    have hwords := h.words token
    by_cases hsame : token = token2
    · rw [hsame] at hwords ⊢
      omega
    · rw [colSum_setEntry_of_ne _ _ _ _ hsame, colSum_setEntry_of_ne _ _ _ _ hsame]
      exact hwords
  · rw [getArrayItem_setItem hget] at hitem
    rw [setEntry_apply]
    split_ifs at hitem with hsame
    · rw [if_pos hsame, if_pos rfl, ← some.inj hitem]
      exact ⟨hsane, hseen⟩
    · rw [if_neg hsame]
      exact h.sane x y item hitem
  · rw [setEntry_apply] at hne
    rw [getArrayItem_setItem hget]
    split_ifs at hne ⊢ with hsame
    · exact absurd rfl hne
    · exact h.fresh x y hne
  · have hsum := grandSum_setEntry (counts grams) token1 token2 (counts grams token1 token2 + count.toNat)
    rw [hcounts, acceptedCounts_setEntry]
    omega

/-- One pair of a document. -/
theorem trainWordPair (hn : n + 1 < 2 ^ 32) (hcount : left token1 token2 = count.toNat) (hpos : count ≠ 0) :
    ∃ after gram, trainWordPair params (unigram, grams token1) token2 count = .ok (after, gram) ∧
      Training params items n (update grams token1 gram) after (setEntry left token1 token2 0) ∧
      gram.header.wc.toNat = (grams token1).header.wc.toNat + acceptedCounts params items left token1 token2 ∧
      gram.header.freq = (grams token1).header.freq ∧
      (acceptedCounts params items left token1 token2 = 0 → gram = grams token1) := by
  have hnat : count.toNat ≠ 0 := fun hz => hpos (eq_of_toNat_eq hz)
  have hfresh := h.fresh token1 token2 (by rw [hcount]; exact hnat)
  have hadded : acceptedCounts params items left token1 token2 =
      if count.toNat ≤ (maximumOccursAllowed params ((grams token1).getArrayItem token2)).toNat then count.toNat
      else 0 := by
    rw [acceptedCounts, ← hfresh, hcount, acceptedCount]
  by_cases hover : maximumOccursAllowed params ((grams token1).getArrayItem token2) < count
  · obtain ⟨after, hafter, hnext⟩ := h.refuse hcount hpos
    rw [lt_def] at hover
    rw [if_neg (Nat.not_le.mpr hover)] at hadded
    refine ⟨after, grams token1, ?_, ?_, by rw [hadded, Nat.add_zero], rfl, fun _ => rfl⟩
    · rw [Kmm.trainWordPair]
      dsimp only
      rw [if_pos (lt_def.mpr hover), hafter]
      rfl
    · rw [update_eq_self]
      exact hnext
  · have haccept : count.toNat ≤ (maximumOccursAllowed params ((grams token1).getArrayItem token2)).toNat :=
      Nat.not_lt.mp fun hlt => hover (lt_def.mpr hlt)
    rw [if_pos haccept] at hadded
    -- the item is there, or it is made
    obtain ⟨written, hwritten, hheader, hlists⟩ : ∃ written,
        writeItem (grams token1) token2 count ((grams token1).getArrayItem token2) = some written ∧
          written.header = (grams token1).header ∧
          Lists written.items (update (grams token1).getArrayItem token2
            (some (trainedItem count ((grams token1).getArrayItem token2)))) := by
      have hold := (h.ascending token1).lists
      cases hitem : (grams token1).getArrayItem token2 with
      | none => exact insertArrayItem_some hold hitem _
      | some found => exact setArrayItem_some hold hitem _
    obtain ⟨hnext, hwc⟩ := @accept _ _ _ _ _ _ _ _ _ h hn hcount hpos haccept
      { written with header := { written.header with wc := written.header.wc + count } } ⟨by rw [hheader], hlists⟩
    refine ⟨unigram, _, ?_, hnext, by rw [hwc, hadded], by rw [hheader],
      fun hzero => absurd (hadded.symm.trans hzero) hnat⟩
    rw [Kmm.trainWordPair]
    dsimp only
    rw [if_neg hover, hwritten]

end

/-- The document without some pairs of a first word. -/
def without (left : BitVec 32 → BitVec 32 → Nat) (token1 : BitVec 32) (keys : List (BitVec 32))
    (x y : BitVec 32) : Nat :=
  if x = token1 ∧ y ∈ keys then 0 else left x y

/-- Some pairs of a first word. -/
theorem trainWordPairs (hn : n + 1 < 2 ^ 32) (seconds : Table) :
    ∀ {keys : List (BitVec 32)} {grams : BitVec 32 → KmmGram} {unigram : Table} {left : BitVec 32 → BitVec 32 → Nat},
      Training params items n grams unigram left → keys.Nodup →
      (∀ token2 ∈ keys, left token1 token2 = ((seconds.get? token2).getD 0).toNat ∧
        (seconds.get? token2).getD 0 ≠ 0) →
      ∃ after gram, keys.foldlM
          (fun trained token2 => Kmm.trainWordPair params trained token2 ((seconds.get? token2).getD 0))
          (unigram, grams token1) = .ok (after, gram) ∧
        Training params items n (update grams token1 gram) after (without left token1 keys) ∧
        gram.header.wc.toNat = (grams token1).header.wc.toNat +
          (keys.map (acceptedCounts params items left token1)).sum ∧
        gram.header.freq = (grams token1).header.freq ∧
        ((keys.map (acceptedCounts params items left token1)).sum = 0 → gram = grams token1) := by
  intro keys
  induction keys with
  | nil =>
    intro grams unigram left h _ _
    have hall : without left token1 [] = left := by
      funext x y
      exact if_neg fun hboth => not_mem_nil hboth.2
    refine ⟨unigram, grams token1, rfl, ?_, rfl, rfl, fun _ => rfl⟩
    rw [update_eq_self, hall]
    exact h
  | cons token2 rest ih =>
    intro grams unigram left h hnodup hkeys
    obtain ⟨hnew, hrest⟩ := nodup_cons.mp hnodup
    obtain ⟨hcount, hpos⟩ := hkeys token2 mem_cons_self
    obtain ⟨next, gram, hpair, hnext, hwc, hkept, hsame⟩ := h.trainWordPair hn hcount hpos
    have hother : ∀ other ∈ rest, setEntry left token1 token2 0 token1 other = left token1 other :=
      fun other hother =>
      setEntry_of_ne _ _ _ _ fun hboth => hnew (hboth.2 ▸ hother)
    have hadds : rest.map (acceptedCounts params items (setEntry left token1 token2 0) token1) =
        rest.map (acceptedCounts params items left token1) :=
      map_congr_left fun other hin => by rw [acceptedCounts, hother other hin, acceptedCounts]
    obtain ⟨after, last, hrun, htrained, hlast, hfreq, hstay⟩ := ih hnext hrest fun other hin => by
      rw [hother other hin]
      exact hkeys other (mem_cons_of_mem token2 hin)
    rw [update_self, hadds] at hlast hstay
    rw [update_self] at hrun hfreq
    rw [update_idem] at htrained
    have hleft : without (setEntry left token1 token2 0) token1 rest = without left token1 (token2 :: rest) := by
      funext x y
      simp only [without, setEntry_apply, mem_cons]
      by_cases hx : x = token1
      · by_cases hy : y = token2 <;> simp [hx, hy]
      · simp [hx]
    rw [hleft] at htrained
    refine ⟨after, last, ?_, htrained, ?_, hfreq.trans hkept, fun hzero => ?_⟩
    · rw [foldlM_cons, hpair]
      exact hrun
    · rw [map_cons, sum_cons, hlast, hwc, Nat.add_assoc]
    · rw [map_cons, sum_cons, Nat.add_eq_zero_iff] at hzero
      rw [hstay hzero.2, hsame hzero.1]

end Training

/-! ## The words of a document -/

/-- A container and a document's tables while first words are left. -/
structure Waiting (params : GenerateParams) (items : BitVec 32 → BitVec 32 → Option ArrayItem) (n : Nat)
    (container : Container) (unigram : Table) (left : BitVec 32 → BitVec 32 → Nat) : Prop where
  training : Training params items n container.grams unigram left
  magicWc : (container.getMagicHeader.getD .zeroed).wc.toNat = grandSum (counts container.grams)
  magicFreq : (container.getMagicHeader.getD .zeroed).totalFreq.toNat =
    ∑ token, (container.grams token).header.freq.toNat
  magicN : (container.getMagicHeader.getD .zeroed).n.toNat = n
  kept : ∀ token gram, container.load token = some gram → ¬(gram.header.wc = 0 ∧ gram.header.freq = 0)
  bare : container.getMagicHeader = none → ∀ token, container.load token = none

namespace Waiting

variable {params : GenerateParams} {items : BitVec 32 → BitVec 32 → Option ArrayItem} {n : Nat}
  {container : Container} {unigram : Table} {left : BitVec 32 → BitVec 32 → Nat} {token1 : BitVec 32}

/-- The pairs of a first word go to the container, or nothing of it changes. -/
theorem trainSecondWord (h : Waiting params items n container unigram left) (hn : n + 1 < 2 ^ 32) (order : Walk)
    {seconds : Table} (hleft : left token1 = tableCount seconds) (hpos : Positive seconds) :
    ∃ after stored, trainSecondWord params order seconds token1 (unigram, container) = .ok (after, stored) ∧
      Waiting params items n stored after (update left token1 fun _ => 0) ∧
      (stored.getMagicHeader = none ↔ container.getMagicHeader = none ∧
        rowSum (acceptedCounts params items left) token1 = 0) := by
  have hkeys : ∀ token2 ∈ seconds.keys order,
      left token1 token2 = ((seconds.get? token2).getD 0).toNat ∧ (seconds.get? token2).getD 0 ≠ 0 := by
    intro token2 hin
    obtain ⟨v, hv⟩ := isSome_iff_exists.mp ((order.mem_keys seconds).mp hin)
    rw [hleft, toNat_getD]
    refine ⟨rfl, ?_⟩
    rw [hv]
    exact hpos token2 v hv
  have hnone : ∀ token2, token2 ∉ seconds.keys order → left token1 token2 = 0 := by
    intro token2 hout
    rw [hleft, tableCount, order.get?_eq_none seconds hout]
    rfl
  have hnodup : (seconds.keys order).Nodup := order.nodup_keys seconds
  obtain ⟨after, gram, hrun, htraining, hwc, hfreq, hstay⟩ :=
    @Training.trainWordPairs params items n token1 hn seconds _ _ _ _
    h.training hnodup hkeys
  have hadds : ((seconds.keys order).map (acceptedCounts params items left token1)).sum =
      rowSum (acceptedCounts params items left) token1 :=
    sum_nodup hnodup fun token2 hout => by
      rw [acceptedCounts, hnone token2 hout, acceptedCount, if_pos (Nat.zero_le _)]
  rw [hadds] at hwc hstay
  have hrest : Training.without left token1 (seconds.keys order) = update left token1 fun _ => 0 := by
    funext x y
    rw [Training.without]
    by_cases hx : x = token1
    · rw [hx, update_self]
      split_ifs with hin
      · rfl
      · exact hnone y fun hy => hin ⟨rfl, hy⟩
    · rw [update_of_ne hx, if_neg fun hboth => hx hboth.1]
  rw [hrest] at htraining
  have hfits := h.training.fits
  have hrow := rowSum_le (counts container.grams) token1
  have hold := h.training.wc token1
  have hadded := rowSum_le (acceptedCounts params items left) token1
  have hdelta : (gram.header.wc - (container.grams token1).header.wc).toNat =
      rowSum (acceptedCounts params items left) token1 := by
    rw [toNat_sub_of_le (by rw [le_def]; omega)]
    omega
  have hloaded : (container.load token1).getD newGram = container.grams token1 := rfl
  by_cases hzero : rowSum (acceptedCounts params items left) token1 = 0
  · refine ⟨after, container, ?_, ?_, ⟨fun hnone => ⟨hnone, hzero⟩, And.left⟩⟩
    · have hsub : gram.header.wc - (container.grams token1).header.wc = 0 :=
        eq_of_toNat_eq (hdelta.trans hzero)
      simp only [Kmm.trainSecondWord, hloaded, hrun, bind, Except.bind]
      rw [if_pos hsub]
      rfl
    · rw [hstay hzero, update_eq_self] at htraining
      exact ⟨htraining, h.magicWc, h.magicFreq, h.magicN, h.kept, h.bare⟩
  · have hne : gram.header.wc - (container.grams token1).header.wc ≠ 0 := fun hsub => by
      rw [hsub] at hdelta
      exact hzero hdelta.symm
    have hmagic := h.magicWc
    have hgrand := htraining.fits
    have hrowNew := rowSum_le (counts (update container.grams token1 gram)) token1
    have hsum := grandSum_update (counts container.grams) token1 fun token2 => countOf (gram.getArrayItem token2)
    rw [← counts_update] at hsum
    have hnewRow : (∑ token2, countOf (gram.getArrayItem token2)) = gram.header.wc.toNat := by
      have hwcNew := htraining.wc token1
      rw [update_self, counts_update, rowSum_update, if_pos rfl] at hwcNew
      exact hwcNew.symm
    rw [hnewRow] at hsum
    have htotal : ((container.getMagicHeader.getD .zeroed).wc +
        (gram.header.wc - (container.grams token1).header.wc)).toNat =
          grandSum (counts (update container.grams token1 gram)) := by
      rw [toNat_add, hdelta, Nat.mod_eq_of_lt (by omega)]
      omega
    have hkeep : ¬(container.getMagicHeader.getD .zeroed).wc +
        (gram.header.wc - (container.grams token1).header.wc) < (container.getMagicHeader.getD .zeroed).wc := by
      rw [lt_def, htotal]
      omega
    refine ⟨after, (container.store token1 gram).setMagicHeader { container.getMagicHeader.getD .zeroed with
      wc := (container.getMagicHeader.getD .zeroed).wc + (gram.header.wc - (container.grams token1).header.wc) },
      ?_, ?_, ?_⟩
    · simp only [Kmm.trainSecondWord, hloaded, hrun, bind, Except.bind]
      rw [if_neg hne]
      have hsame : (container.store token1 gram).getMagicHeader = container.getMagicHeader := rfl
      rw [hsame, if_neg hkeep]
      rfl
    · have hgrams : ((container.store token1 gram).setMagicHeader { container.getMagicHeader.getD .zeroed with
          wc := (container.getMagicHeader.getD .zeroed).wc +
            (gram.header.wc - (container.grams token1).header.wc) }).grams =
          update container.grams token1 gram := container.grams_store token1 gram
      refine ⟨?_, ?_, ?_, h.magicN, fun token found hfound => ?_, fun hnone => absurd hnone (some_ne_none _)⟩
      · rw [hgrams]
        exact htraining
      · rw [hgrams]
        exact htotal
      · rw [hgrams]
        refine h.magicFreq.trans (Finset.sum_congr rfl fun token _ => ?_)
        by_cases hsame : token = token1
        · rw [hsame, update_self, hfreq]
        · rw [update_of_ne hsame]
      · have hload := container.load_store token1 gram
        have hfound : update container.load token1 (some gram) token = some found := hload ▸ hfound
        by_cases hsame : token = token1
        · rw [hsame, update_self] at hfound
          rw [← some.inj hfound]
          intro hboth
          have hnat := congrArg BitVec.toNat hboth.1
          rw [hwc] at hnat
          have hzeroNat : (0 : BitVec 32).toNat = 0 := rfl
          omega
        · rw [update_of_ne hsame] at hfound
          exact h.kept token found hfound
    · exact ⟨fun hnone => absurd hnone (some_ne_none _), fun hboth => absurd hboth.2 hzero⟩

/-- The first words of a document, one after the other. -/
theorem trainSecondWords (hn : n + 1 < 2 ^ 32) (order : BitVec 32 → Walk) {document : Document}
    (hpos : ∀ token1, Positive (document.secondWords token1)) :
    ∀ {keys : List (BitVec 32)} {container : Container} {unigram : Table} {left : BitVec 32 → BitVec 32 → Nat},
      Waiting params items n container unigram left → keys.Nodup →
      (∀ token1 ∈ keys, left token1 = docCounts document token1) →
      ∃ after trained, keys.foldlM (fun state token1 =>
          Kmm.trainSecondWord params (order token1) (document.secondWords token1) token1 state) (unigram, container) =
            .ok (after, trained) ∧
        Waiting params items n trained after (fun x => if x ∈ keys then fun _ => 0 else left x) ∧
        (trained.getMagicHeader = none ↔ container.getMagicHeader = none ∧
          ∀ token1 ∈ keys, rowSum (acceptedCounts params items left) token1 = 0) := by
  intro keys
  induction keys with
  | nil =>
    intro container unigram left h _ _
    refine ⟨unigram, container, rfl, ?_, fun hnone => ⟨hnone, fun _ hin => absurd hin not_mem_nil⟩, And.left⟩
    simp only [not_mem_nil, if_false]
    exact h
  | cons token1 rest ih =>
    intro container unigram left h hnodup hkeys
    obtain ⟨hnew, hrest⟩ := nodup_cons.mp hnodup
    obtain ⟨next, stored, hrow, hwaiting, hmagic⟩ := h.trainSecondWord hn (order token1)
      (hkeys token1 mem_cons_self) (hpos token1)
    have hother : ∀ other ∈ rest, update left token1 (fun _ => 0) other = left other := by
      intro other hin
      have hne : other ≠ token1 := fun heq => hnew (heq ▸ hin)
      exact update_of_ne hne _ _
    obtain ⟨after, trained, hrun, hlast, hnone⟩ := ih hwaiting hrest fun other hin => by
      rw [hother other hin]
      exact hkeys other (mem_cons_of_mem token1 hin)
    have hadds : ∀ other ∈ rest, rowSum (acceptedCounts params items (update left token1 fun _ => 0)) other =
        rowSum (acceptedCounts params items left) other := by
      intro other hin
      refine Finset.sum_congr rfl fun token2 _ => ?_
      rw [acceptedCounts, hother other hin, acceptedCounts]
    have hleft : (fun x => if x ∈ rest then fun _ => 0 else update left token1 (fun _ => 0) x) =
        fun x => if x ∈ token1 :: rest then fun _ => 0 else left x := by
      funext x
      by_cases hx : x = token1
      · rw [hx, update_self, ite_self, if_pos mem_cons_self]
      · rw [update_of_ne hx]
        simp only [mem_cons, hx, false_or]
    rw [hleft] at hlast
    refine ⟨after, trained, ?_, hlast, ?_⟩
    · rw [foldlM_cons, hrow]
      exact hrun
    · rw [hnone, hmagic, forall_mem_cons, and_assoc]
      refine and_congr_right fun _ => and_congr_right fun _ => ?_
      exact forall₂_congr fun other hin => by rw [hadds other hin]

end Waiting

/-- The words of some tokens into the headers. -/
theorem addWords (unigram : Table) :
    ∀ {keys : List (BitVec 32)} {container : Container} {total : BitVec 32}, keys.Nodup →
      total.toNat + (keys.map (tableCount unigram)).sum < 2 ^ 32 →
      ∃ added sum, keys.foldl (addWord unigram) (container, total) = (added, sum) ∧
        (∀ token, added.grams token = if token ∈ keys then
          { container.grams token with header := { (container.grams token).header with
            freq := (container.grams token).header.freq + (unigram.get? token).getD 0 } }
          else container.grams token) ∧
        (∀ token, (added.load token).isSome = (decide (token ∈ keys) || (container.load token).isSome)) ∧
        added.getMagicHeader = container.getMagicHeader ∧
        sum.toNat = total.toNat + (keys.map (tableCount unigram)).sum := by
  intro keys
  induction keys with
  | nil =>
    intro container total _ _
    refine ⟨container, total, rfl, fun token => (if_neg not_mem_nil).symm, fun token => ?_, rfl, rfl⟩
    rw [decide_eq_false not_mem_nil, Bool.false_or]
  | cons token rest ih =>
    intro container total hnodup hroom
    obtain ⟨hnew, hrest⟩ := nodup_cons.mp hnodup
    rw [map_cons, sum_cons] at hroom
    have htotal : (total + (unigram.get? token).getD 0).toNat = total.toNat + tableCount unigram token := by
      rw [toNat_add, toNat_getD, Nat.mod_eq_of_lt (by omega)]
    set header : ArrayHeader := { (container.grams token).header with
      freq := (container.grams token).header.freq + (unigram.get? token).getD 0 } with hheader
    have hstep : addWord unigram (container, total) token =
        (container.setArrayHeader token header, total + (unigram.get? token).getD 0) := by
      rw [addWord]
      dsimp only
      rw [Container.getArrayHeader_getD]
    obtain ⟨added, sum, hrun, hgrams, hload, hmagic, hsum⟩ := @ih (container.setArrayHeader token header)
      (total + (unigram.get? token).getD 0) hrest (by rw [htotal]; omega)
    refine ⟨added, sum, ?_, fun other => ?_, fun other => ?_, hmagic, ?_⟩
    · rw [foldl_cons, hstep]
      exact hrun
    · rw [hgrams, Container.grams_setArrayHeader]
      by_cases hsame : other = token
      · rw [hsame, if_neg hnew, if_pos mem_cons_self, update_self]
      · rw [update_of_ne hsame]
        simp only [mem_cons, hsame, false_or]
    · rw [hload, Container.load_setArrayHeader, ← Bool.or_assoc]
      simp only [mem_cons, Bool.decide_or, Bool.or_comm (decide (other = token))]
    · rw [hsum, htotal, map_cons, sum_cons, Nat.add_assoc]

/-- The words that are left bring the headers up to the columns. -/
theorem Waiting.postProcessingUnigram {params : GenerateParams} {items : BitVec 32 → BitVec 32 → Option ArrayItem}
    {n : Nat} {container : Container} {unigram : Table} (h : Waiting params items n container unigram fun _ _ => 0)
    (hn : n + 1 < 2 ^ 32) (order : Walk) {magic : MagicHeader} (hmagic : container.getMagicHeader = some magic) :
    ∃ after, postProcessingUnigram order unigram
        (container.setMagicHeader { magic with n := magic.n + 1 }) = .ok after ∧ Balanced after := by
  have hfits := h.training.fits
  have hnodup : (unigram.keys order).Nodup := order.nodup_keys unigram
  have hwords : ∀ token, (container.grams token).header.freq.toNat + tableCount unigram token =
      colSum (counts container.grams) token := by
    intro token
    have hzero : colSum (fun _ _ => 0 : BitVec 32 → BitVec 32 → Nat) token = 0 := Finset.sum_const_zero
    exact (h.training.words token).trans (Nat.add_eq_left.mpr hzero)
  have hall : ((unigram.keys order).map (tableCount unigram)).sum = ∑ token, tableCount unigram token :=
    sum_nodup hnodup fun token hnot => by rw [tableCount, order.get?_eq_none unigram hnot]; rfl
  have hsum : (∑ token, (container.grams token).header.freq.toNat) + (∑ token, tableCount unigram token) =
      grandSum (counts container.grams) := by
    rw [← Finset.sum_add_distrib, ← sum_colSum]
    exact Finset.sum_congr rfl fun token _ => hwords token
  obtain ⟨added, total, hrun, hgrams, hload, hadded, htotal⟩ := @addWords unigram (unigram.keys order)
    (container.setMagicHeader { magic with n := magic.n + 1 }) 0 hnodup (by
      rw [hall]
      have hzero : (0 : BitVec 32).toNat = 0 := rfl
      omega)
  have hstart : (container.setMagicHeader { magic with n := magic.n + 1 }).grams = container.grams := rfl
  rw [hstart] at hgrams
  have hzero : (0 : BitVec 32).toNat = 0 := rfl
  rw [hzero, Nat.zero_add, hall] at htotal
  have hitems : ∀ token, (added.grams token).items = (container.grams token).items := by
    intro token
    rw [hgrams]
    split_ifs <;> rfl
  have hcounts : counts added.grams = counts container.grams := counts_of_items hitems
  have hwc : ∀ token, (added.grams token).header.wc = (container.grams token).header.wc := by
    intro token
    rw [hgrams]
    split_ifs <;> rfl
  have hfreq : ∀ token, (added.grams token).header.freq.toNat =
      (container.grams token).header.freq.toNat + tableCount unigram token := by
    intro token
    have hle := colSum_le (counts container.grams) token
    have hword := hwords token
    rw [hgrams]
    split_ifs with hin
    · rw [toNat_add, toNat_getD, Nat.mod_eq_of_lt (by omega)]
    · rw [tableCount, order.get?_eq_none unigram hin]
      rfl
  have hmagicWc := h.magicWc
  have hmagicFreq := h.magicFreq
  have hmagicN := h.magicN
  rw [hmagic, getD_some] at hmagicWc hmagicFreq hmagicN
  have htotalFreq : (magic.totalFreq + total).toNat = grandSum (counts container.grams) := by
    rw [toNat_add, htotal, hmagicFreq, hsum, Nat.mod_eq_of_lt (by omega)]
  have hkeep : ¬magic.totalFreq + total < magic.totalFreq := by
    rw [lt_def, htotalFreq, hmagicFreq]
    omega
  have hnext : (magic.n + 1).toNat = n + 1 := by
    rw [← hmagicN] at hn ⊢
    exact toNat_add_one hn
  refine ⟨added.setMagicHeader { wc := magic.wc, n := magic.n + 1, totalFreq := magic.totalFreq + total }, ?_,
    ⟨⟨fun token => ?_, fun token => ?_, fun token => ?_, ?_, ?_, fun x y item hitem => ?_⟩,
      fun token gram hgram => ?_,
      fun hnone => absurd hnone (some_ne_none _)⟩⟩
  · rw [Kmm.postProcessingUnigram, hrun]
    dsimp only
    rw [hadded]
    exact if_neg hkeep
  · show (added.grams token).items.Pairwise _
    rw [hitems]
    exact h.training.ascending token
  · show (added.grams token).header.wc.toNat = rowSum (counts added.grams) token
    rw [hcounts, hwc]
    exact h.training.wc token
  · show (added.grams token).header.freq.toNat = colSum (counts added.grams) token
    rw [hcounts, hfreq]
    exact hwords token
  · show magic.wc.toNat = grandSum (counts added.grams)
    rw [hcounts]
    exact hmagicWc
  · show (magic.totalFreq + total).toNat = grandSum (counts added.grams)
    rw [hcounts]
    exact htotalFreq
  · have hold : (container.grams x).getArrayItem y = some item := by
      rw [← hitem]
      show _ = (added.grams x).getArrayItem y
      rw [getArrayItem, getArrayItem, hitems]
    obtain ⟨hsane, hseen⟩ := h.training.sane x y item hold
    rw [if_pos rfl] at hseen
    refine ⟨hsane, ?_⟩
    show item.nn0.toNat ≤ (magic.n + 1).toNat
    rw [hnext]
    exact hseen
  · rintro ⟨hwcZero, hfreqZero⟩
    have hloaded : added.load token = some gram := hgram
    have hgramEq := added.grams_of_load token hloaded
    have hwcNat := congrArg BitVec.toNat hwcZero
    have hfreqNat := congrArg BitVec.toNat hfreqZero
    rw [← hgramEq] at hwcNat hfreqNat hwcZero hfreqZero
    rw [hfreq, hzero] at hfreqNat
    rw [hwc] at hwcZero
    have hsome := hload token
    rw [hloaded, isSome_some] at hsome
    rcases Bool.or_eq_true_iff.mp hsome.symm with hin | hin
    · obtain ⟨v, hv⟩ := isSome_iff_exists.mp ((order.mem_keys unigram).mp (of_decide_eq_true hin))
      have hpos := h.training.positive token v hv
      have hcount : tableCount unigram token = v.toNat := by rw [tableCount, hv]; rfl
      exact hpos (eq_of_toNat_eq (by rw [hzero]; omega))
    · obtain ⟨old, hold⟩ := isSome_iff_exists.mp hin
      have holdEq : container.grams token = old := container.grams_of_load token hold
      rw [holdEq] at hwcZero hfreqNat
      exact h.kept token old hold ⟨hwcZero, eq_of_toNat_eq (by rw [hzero]; omega)⟩

/-! ## One document -/

variable {words : Nat}

/-- What a document adds to a container, its pairs judged by the items there. -/
def documentAdds (params : GenerateParams) (container : Container) (document : Document) : Nat :=
  grandSum (acceptedCounts params (fun token1 => (container.grams token1).getArrayItem) (docCounts document))

/-- A container that is balanced waits for a document. -/
theorem Balanced.waiting {params : GenerateParams} {container : Container} (h : Balanced container)
    (hdocument : Counted document words)
    (hfits : (container.getMagicHeader.getD .zeroed).wc.toNat + documentAdds params container document < 2 ^ 32) :
    Waiting params (fun token1 => (container.grams token1).getArrayItem)
      (container.getMagicHeader.getD .zeroed).n.toNat container document.unigram (docCounts document) := by
  have hcore := h.core
  refine ⟨⟨hcore.ascending, hcore.wc, fun token => (hcore.freq token).le, fun token => ?_, hdocument.positive,
    fun x y item hitem => ?_, fun _ _ _ => rfl, ?_⟩, hcore.magicWc, ?_, rfl, h.kept, h.bare⟩
  · rw [hcore.freq, hdocument.words]
  · obtain ⟨hsane, hseen⟩ := hcore.items x y item hitem
    exact ⟨hsane, Nat.le_trans hseen (Nat.le_add_right _ _)⟩
  · rw [← hcore.magicWc]
    exact hfits
  · rw [hcore.magicFreq, ← sum_colSum]
    exact Finset.sum_congr rfl fun token _ => (hcore.freq token).symm

/-- A document leaves a balanced container balanced, and aborts where it is the first and none of
its pairs is accepted. -/
theorem Balanced.trainDocument {params : GenerateParams} {container : Container} (h : Balanced container)
    (hdocument : Counted document words) (order : HashOrder)
    (hfits : (container.getMagicHeader.getD .zeroed).wc.toNat + documentAdds params container document < 2 ^ 32)
    (hn : (container.getMagicHeader.getD .zeroed).n.toNat + 1 < 2 ^ 32) :
    if container.getMagicHeader = none ∧ documentAdds params container document = 0 then
      Kmm.trainDocument params order document container = .error .abort
    else ∃ after, Kmm.trainDocument params order document container = .ok after ∧ Balanced after := by
  have hwaiting := h.waiting hdocument hfits
  have hout : ∀ token1, token1 ∉ order.pairs.keys (document.pairs.entries.map Prod.fst) →
      docCounts document token1 = fun _ => 0 := by
    intro token1 hnot
    funext token2
    rw [docCounts, secondWords, order.pairs.get?_eq_none document.pairs hnot]
    rfl
  obtain ⟨unigram, trained, hrun, hlast, hmagic⟩ := Waiting.trainSecondWords hn order.seconds hdocument.pairs hwaiting
    (order.pairs.nodup_keys document.pairs) fun _ _ => rfl
  have hleft : (fun token1 => if token1 ∈ order.pairs.keys (document.pairs.entries.map Prod.fst) then fun _ => 0
      else docCounts document token1) = fun _ _ => 0 := by
    funext token1
    split_ifs with hin
    · rfl
    · exact hout token1 hin
  rw [hleft] at hlast
  have hadds : documentAdds params container document = 0 ↔
      ∀ token1 ∈ order.pairs.keys (document.pairs.entries.map Prod.fst),
        rowSum (acceptedCounts params (fun token1 => (container.grams token1).getArrayItem) (docCounts document))
          token1 = 0 := by
    rw [documentAdds, ← sum_rowSum, Finset.sum_eq_zero_iff]
    refine ⟨fun hall token1 _ => hall token1 (Finset.mem_univ token1), fun hall token1 _ => ?_⟩
    by_cases hin : token1 ∈ order.pairs.keys (document.pairs.entries.map Prod.fst)
    · exact hall token1 hin
    · refine Finset.sum_eq_zero fun token2 _ => ?_
      rw [acceptedCounts, hout token1 hin, acceptedCount, if_pos (Nat.zero_le _)]
  rw [← hadds] at hmagic
  split_ifs with hbare
  · simp only [Kmm.trainDocument, hrun, bind, Except.bind, hmagic.mpr hbare]
    rfl
  · cases htrained : trained.getMagicHeader with
    | none => exact absurd (hmagic.mp htrained) hbare
    | some magic =>
      obtain ⟨after, hafter, hbalanced⟩ := hlast.postProcessingUnigram hn order.unigram htrained
      refine ⟨after, ?_, hbalanced⟩
      simp only [Kmm.trainDocument, hrun, bind, Except.bind, htrained]
      exact hafter

end Oxpinyin.Kmm
