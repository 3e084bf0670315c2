import Mathlib.Data.Nat.Size
import Oxpinyin.GramReads
import Oxpinyin.LibraryFacade
import Oxpinyin.SentenceFacts
import Oxpinyin.TableLambda

/-!
# The bigram model over the user's counts

A step is scored over the counts of its pair, the system's and the user's added. One path adds the two
counts and the two totals of the pair (`mergedTransition`), the other merges the two rows of the previous
token and reads the pair off them (`rowTransition`). Over whole and strictly ordered rows they give the
same answer, absent rows, wrapped sums and stored zero counts included, so the two scores are one.

The costs are in floating point and parameters here. What is exact is the weight of the two terms :
`interpolateRatio` gives the interpolated probability as a fraction, wherever its products fit 128 bits.
-/

namespace Oxpinyin

open Option SingleGram FiniteMap SingleGram.MergedGram BitVec

/-! ## Rows and counts -/

/-- A row of the system table. That of `sentence_start` is shared. -/
inductive SystemGram where
  | owned (value : Bytes)
  | shared (value : Bytes)

def SystemGram.asBytes : SystemGram → Bytes
  | owned value | shared value => value

/-- Why the model fails. -/
inductive LmError (ε : Type) where
  | table (error : ε)
  | parse (message : String)
  | user (message : String)

/-- Stored counts are added in their field. -/
def mergeBigramCounts (system user : BitVec 64) : BitVec 64 := (system.setWidth 32 + user.setWidth 32).setWidth 64

/-- The count and the total of a pair, none where neither side has a row. -/
def mergeBigram (system : Option (BitVec 32 × BitVec 32)) (userCount userTotal : BitVec 64) :
    Option (BitVec 64 × BitVec 64) :=
  match system with
  | some (count, total) =>
    some (mergeBigramCounts (count.setWidth 64) userCount, mergeBigramCounts (total.setWidth 64) userTotal)
  | none =>
    if 0 < userCount ∨ 0 < userTotal then
      some ((userCount.setWidth 32).setWidth 64, (userTotal.setWidth 32).setWidth 64)
    else none

/-! ## Costs -/

def unknownCost : Int := 40 * 1000

/-- `NAN_COST`, the least cost. -/
def nanCost : Int := -2 ^ 63

def negInfCost : Int := -2 ^ 63 + 1

/-- `i64::saturating_add`. -/
def saturatingAddCost (left right : Int) : Int := max (-2 ^ 63) (min (2 ^ 63 - 1) (left + right))

/-- The costs that are computed in floating point. `φ` is the type of the weight there. -/
structure CostLaws (φ : Type) where
  surprisal : BitVec 64 → BitVec 64 → Int
  rawBlendCost : φ → BitVec 64 → BitVec 64 → BitVec 64 → BitVec 64 → Option Int

def zeroTotalBigramCost (lambdaNum : Nat) : Int := if lambdaNum = 0 then nanCost else negInfCost

/-- `λ·b/bt + (1 − λ)·u/ut` over a common denominator, none where a product does not fit. -/
def interpolateRatio (lambdaNum lambdaDen bigramCount bigramTotal unigram unigramTotal : Nat) :
    Option (Nat × Nat) := do
  let oneMinusLambda := lambdaDen - lambdaNum
  let weighted ← checkedU128 (lambdaNum * bigramCount)
  let bigramTerm ← checkedU128 (weighted * unigramTotal)
  let weighted ← checkedU128 (oneMinusLambda * unigram)
  let unigramTerm ← checkedU128 (weighted * bigramTotal)
  let numerator ← checkedU128 (bigramTerm + unigramTerm)
  let scaled ← checkedU128 (lambdaDen * bigramTotal)
  let denominator ← checkedU128 (scaled * unigramTotal)
  return (numerator, denominator)

/-- Shifts both halves until they fit a word. -/
def reduceRatio (numerator denominator : Nat) : BitVec 64 × BitVec 64 :=
  let excess := (numerator ||| denominator).size - 63
  (BitVec.ofNat 64 (numerator >>> excess), BitVec.ofNat 64 (denominator >>> excess))

/-! ## The model -/

/-- The frequency a loaded chunk stores for a token. -/
def LibraryFacade.unigramCount {Path : Type} (facade : LibraryFacade Path) (token : BitVec 32) :
    Option (BitVec 64) :=
  if h : (token >>> 24).toNat < 16 then
    (facade.byNibble ⟨_, h⟩).bind fun loaded =>
      (loaded.library.item token).map fun view => view.unigram.setWidth 64
  else none

/-- The bigram table, its weight exact and in floating point, and the shipped libraries. -/
structure BigramLanguageModel (Path ε φ : Type) where
  loadGram : BitVec 32 → Except (LmError ε) (Option SystemGram)
  lambda : Lambda
  /-- The weight where it has no exact fraction. -/
  lambdaRaw : Option φ
  lambdaF32 : φ
  libraries : LibraryFacade Path
  libraryMask : BitVec 32

/-- The count and the total of a pair, and whether the pair has a record. -/
abbrev Transition := Option (BitVec 64 × BitVec 64 × Bool)

namespace BigramLanguageModel

variable {Path ε φ : Type} (model : BigramLanguageModel Path ε φ)

/-- The stored count and total of a pair. -/
def transition (prev next : BitVec 32) : Except (LmError ε) (Option (BitVec 32 × BitVec 32 × Bool)) := do
  match ← model.loadGram prev with
  | none => return none
  | some row =>
    let count := getFreq row.asBytes next
    let total := (getTotalFreq row.asBytes).getD 0
    return some (count.getD 0, total, count.isSome)

/-- The counts of a pair with the user's added. -/
def mergedTransition (prev next : BitVec 32) (user : LiveCountDelta) : Except (LmError ε) Transition := do
  let system ← model.transition prev next
  let present := system.any (fun found => found.2.2) || decide (0 < user.bigramCount)
  return (mergeBigram (system.map fun found => (found.1, found.2.1)) user.bigramCount user.bigramTotal).map
    fun merged => (merged.1, merged.2, present)

/-- The system's row with the user's merged in. -/
def loadMergedRow (prev : BitVec 32) (user : Option Bytes) : Except (LmError ε) (Option SingleGram.MergedGram) := do
  match ← model.loadGram prev with
  | none => return SingleGram.MergedGram.merge none user
  | some (.owned system) => return SingleGram.MergedGram.merge (some system) user
  | some (.shared system) => return some (SingleGram.MergedGram.mergeShared system user)

def hasUnigrams : Bool := model.libraries.hasItemsUnloaded model.libraryMask

def unigramCount (token : BitVec 32) : Option (BitVec 64) :=
  if libraryVisible model.libraryMask (token >>> 24) then model.libraries.unigramCount token else none

def facadeTotal (extra : BitVec 64) : BitVec 64 :=
  (model.libraries.unigramTotalUnloaded model.libraryMask + extra.setWidth 32).setWidth 64

/-- The live frequency of a token, else the stored one with the user's. -/
def liveUnigramCount (token : BitVec 32) (user : LiveCountDelta) : BitVec 64 :=
  match user.unigramLive.filter fun _ => libraryVisible model.libraryMask (token >>> 24) with
  | some live => live.setWidth 64
  | none => mergeUnigramCounts ((model.unigramCount token).getD 0) user.unigramDelta

variable (laws : CostLaws φ)

/-- Without unigrams the pair alone is priced. -/
def pureBigramCost (history : List PhraseToken)
    (transition : PhraseToken → Except (LmError ε) Transition) : Except (LmError ε) Int :=
  match history.getLast? with
  | none => .ok 0
  | some prev =>
    (transition prev).map fun found =>
      found.elim unknownCost fun (count, total, _) => laws.surprisal count total

/-- The cost of a pair whose counts are known. -/
def blendCost (unigram unigramTotal : BitVec 64) : Transition → Int
  | none => unknownCost
  | some (count, total, present) =>
    match model.lambdaRaw with
    | some lambda => (laws.rawBlendCost lambda count total unigram unigramTotal).getD unknownCost
    | none =>
      if count = 0 ∧ total = 0 ∧ present then nanCost
      else if total = 0 ∧ 0 < count then zeroTotalBigramCost model.lambda.numerator
      else
        match interpolateRatio model.lambda.numerator model.lambda.denominator count.toNat total.toNat
            unigram.toNat unigramTotal.toNat with
        | some (numerator, denominator) =>
          let reduced := reduceRatio numerator denominator
          laws.surprisal reduced.1 reduced.2
        | none => (laws.rawBlendCost model.lambdaF32 count total unigram unigramTotal).getD unknownCost

/-- The cost of a token behind a history, over what `transition` reads of the pair. -/
def modelCost (history : List PhraseToken) (token : PhraseToken) (user : LiveCountDelta)
    (transition : PhraseToken → Except (LmError ε) Transition) : Except (LmError ε) Int :=
  if !model.hasUnigrams then pureBigramCost laws history transition
  else
    let unigram := model.liveUnigramCount token user
    let unigramTotal := model.facadeTotal user.unigramTotalDelta
    if unigram = 0 ∨ unigramTotal = 0 then .ok unknownCost
    else
      match history.getLast? with
      | none => .ok ((laws.surprisal unigram unigramTotal).tdiv 16)
      | some prev => (transition prev).map (model.blendCost laws unigram unigramTotal)

/-- A cost that is no number stays, every other is added to that of the edge. -/
def addEdgeCost (edgeCost cost : Int) : Int := if cost = nanCost then cost else saturatingAddCost edgeCost cost

/-- The score over the counts of the pair. -/
def scoreWithUserDelta (history : List PhraseToken) (token : PhraseToken) (edgeCost : Int)
    (user : LiveCountDelta) : Except (LmError ε) Int :=
  (model.modelCost laws history token user fun prev => model.mergedTransition prev token user).map
    (addEdgeCost edgeCost)

/-- What the fault of a row is printed as. -/
def faultName : GramFault → String
  | .short => "Short"
  | .overRead => "OverRead"

/-- A read of a merged row. -/
def readRow {α : Type} (prev : BitVec 32) (read : Except GramFault α) : Except (LmError ε) α :=
  read.mapError fun fault =>
    .parse ("the merged bigram row of " ++ ChunkFile.hex prev ++ " cannot be read (" ++ faultName fault ++ ")")

/-- The pair, read off the merged row. -/
def rowTransition (prev next : BitVec 32) (row : Except (LmError ε) (Option SingleGram.MergedGram)) :
    Except (LmError ε) Transition := do
  match ← row with
  | none => return none
  | some gram =>
    let freq ← readRow prev (gram.getFreq next)
    let total ← readRow prev gram.total
    return some ((freq.getD 0).setWidth 64, total.setWidth 64, freq.isSome)

/-- The score over the merged row. -/
def scoreWithMergedRow (history : List PhraseToken) (token : PhraseToken) (edgeCost : Int)
    (user : LiveCountDelta) (row : PhraseToken → Except (LmError ε) (Option SingleGram.MergedGram)) :
    Except (LmError ε) Int :=
  (model.modelCost laws history token user fun prev => rowTransition prev token (row prev)).map
    (addEdgeCost edgeCost)

end BigramLanguageModel

/-! ## The two paths -/

/-- A whole row in strict order. -/
def OrderedRow (gram : Bytes) : Prop := Whole gram ∧ isStrictlyOrdered gram = true

/-- A row of the user's : its total is not zero, nor is a count. -/
structure UserRow (gram : Bytes) : Prop where
  ordered : OrderedRow gram
  total : getTotalFreq gram ≠ some 0
  counts : ∀ item ∈ retrieveAll gram, item.2 ≠ 0

/-- What a row stores of a token, and its total, as the overlay has them. -/
def rowCount (row : Option Bytes) (token : BitVec 32) : BitVec 64 :=
  ((row.bind fun gram => getFreq gram token).getD 0).setWidth 64

def rowTotal (row : Option Bytes) : BitVec 64 := ((row.bind getTotalFreq).getD 0).setWidth 64

theorem OrderedRow.exists_lists {gram : Bytes} (h : OrderedRow gram) : ∃ total items freq,
    gram = gramBytes total items [] ∧ Lists items freq := by
  obtain ⟨total, items, rfl⟩ := h.1.exists_items
  obtain ⟨freq, hfreq⟩ := FiniteMap.exists_lists ((isStrictlyOrdered_gramBytes (by simp)).mp h.2)
  exact ⟨total, items, freq, rfl, hfreq⟩

theorem setWidth_64_32 (x : BitVec 32) : (x.setWidth 64).setWidth 32 = x := by
  apply eq_of_toNat_eq
  simp

theorem setWidth_64_pos (x : BitVec 32) : 0 < x.setWidth 64 ↔ x ≠ 0 := by
  rw [lt_def, toNat_setWidth, Ne, ← toNat_inj]
  have := x.isLt
  simp
  omega

/-- What is read of one whole, ordered row. -/
theorem readRow_chunk {ε : Type} {total : BitVec 32} {items : List (BitVec 32 × BitVec 32)}
    {freq : BitVec 32 → Option (BitVec 32)} (h : Lists items freq) (prev next : BitVec 32) :
    BigramLanguageModel.rowTransition (ε := ε) prev next (.ok (some (.ofChunk (gramBytes total items [])))) =
      .ok (some (((freq next).getD 0).setWidth 64, total.setWidth 64, (freq next).isSome)) := by
  have hfreq : (ofChunk (gramBytes total items [])).getFreq next = .ok (freq next) :=
    checkedGetFreq_gramBytes h next
  have htotal : (ofChunk (gramBytes total items [])).total = .ok total := by
    change readTotal (gramBytes total items []) = _
    rw [readTotal, getTotalFreq_gramBytes]
  unfold BigramLanguageModel.rowTransition
  dsimp only [bind, Except.bind]
  rw [hfreq, htotal]
  rfl

theorem getD_merge (a b : Option (BitVec 32)) : (Option.merge (· + ·) a b).getD 0 = a.getD 0 + b.getD 0 := by
  cases a <;> cases b <;> simp

/-- A token has a count exactly when it has a record, where no count is zero. -/
theorem UserRow.count_pos {total : BitVec 32} {items : List (BitVec 32 × BitVec 32)}
    {freq : BitVec 32 → Option (BitVec 32)} (h : UserRow (gramBytes total items []))
    (hfreq : Lists items freq) (token : BitVec 32) :
    decide (0 < ((freq token).getD 0).setWidth 64) = (freq token).isSome := by
  rw [Bool.eq_iff_iff, decide_eq_true_iff, setWidth_64_pos]
  cases htoken : freq token with
  | none => simp
  | some count =>
    have hmem : (token, count) ∈ retrieveAll (gramBytes total items []) := by
      rw [retrieveAll_gramBytes (by simp)]
      exact (hfreq.mem token count).mpr htoken
    simpa using h.counts _ hmem

theorem mergeBigramCounts_setWidth (a b : BitVec 32) :
    mergeBigramCounts (a.setWidth 64) (b.setWidth 64) = (a + b).setWidth 64 := by
  rw [mergeBigramCounts, setWidth_64_32, setWidth_64_32]

namespace BigramLanguageModel

variable {Path ε φ : Type} {model : BigramLanguageModel Path ε φ} {prev next : PhraseToken}
  {system : Option SystemGram} {user : Option Bytes} {delta : LiveCountDelta}

theorem rowTransition_congr {gram gram' : SingleGram.MergedGram} (hfreq : gram.getFreq next = gram'.getFreq next)
    (htotal : gram.total = gram'.total) :
    rowTransition (ε := ε) prev next (.ok (some gram)) = rowTransition prev next (.ok (some gram')) := by
  unfold rowTransition
  dsimp only [bind, Except.bind]
  rw [hfreq, htotal]

/-- A shared row is read as the merge of its bytes. -/
theorem rowTransition_loadMergedRow (hload : model.loadGram prev = .ok system) :
    rowTransition prev next (model.loadMergedRow prev user) =
      rowTransition prev next (.ok (merge (system.map SystemGram.asBytes) user)) := by
  unfold loadMergedRow
  rw [hload]
  match system with
  | none => rfl
  | some (.owned value) => rfl
  | some (.shared value) =>
    obtain ⟨merged, hmerged, _, htotal, hfreq, _⟩ := mergeShared_reads value user
    change rowTransition prev next (.ok (some (mergeShared value user))) = _
    rw [map_some, SystemGram.asBytes, hmerged]
    exact rowTransition_congr (hfreq next) htotal

/-- A pair with the user's counts added. -/
def overlaid (found : Option (BitVec 32 × BitVec 32 × Bool)) (count total : BitVec 64) : Transition :=
  (mergeBigram (found.map fun found => (found.1, found.2.1)) count total).map fun merged =>
    (merged.1, merged.2, found.any (fun found => found.2.2) || decide (0 < count))

/-- What is stored of a pair in a row. -/
def stored (next : PhraseToken) (gram : SystemGram) : BitVec 32 × BitVec 32 × Bool :=
  ((getFreq gram.asBytes next).getD 0, (getTotalFreq gram.asBytes).getD 0, (getFreq gram.asBytes next).isSome)

theorem mergedTransition_of_load (hload : model.loadGram prev = .ok system) :
    model.mergedTransition prev next delta =
      .ok (overlaid (system.map (stored next)) delta.bigramCount delta.bigramTotal) := by
  unfold mergedTransition transition
  rw [hload]
  cases system <;> rfl

variable {total : BitVec 32} {items : List (BitVec 32 × BitVec 32)} {freq : BitVec 32 → Option (BitVec 32)}

theorem rowCount_gramBytes (h : Lists items freq) :
    rowCount (some (gramBytes total items [])) next = ((freq next).getD 0).setWidth 64 := by
  rw [rowCount, bind_some, getFreq_gramBytes h]

theorem rowTotal_gramBytes (total : BitVec 32) (items : List (BitVec 32 × BitVec 32)) :
    rowTotal (some (gramBytes total items [])) = total.setWidth 64 := by
  rw [rowTotal, bind_some, getTotalFreq_gramBytes, getD_some]

theorem stored_gramBytes {gram : SystemGram} (hgram : gram.asBytes = gramBytes total items [])
    (h : Lists items freq) :
    stored next gram = ((freq next).getD 0, total, (freq next).isSome) := by
  rw [stored, hgram, getFreq_gramBytes h, getTotalFreq_gramBytes, getD_some]

/-- The merge of two ordered rows is read as their sum. -/
theorem rowTransition_merge {total' : BitVec 32} {items' : List (BitVec 32 × BitVec 32)}
    {freq' : BitVec 32 → Option (BitVec 32)} (h : Lists items freq) (h' : Lists items' freq') :
    rowTransition (ε := ε) prev next
        (.ok (merge (some (gramBytes total items [])) (some (gramBytes total' items' [])))) =
      .ok (some (((freq next).getD 0 + (freq' next).getD 0).setWidth 64, (total + total').setWidth 64,
        (freq next).isSome || (freq' next).isSome)) := by
  have hfault : mergeFault (gramBytes total items []) (gramBytes total' items' []) = none := by
    rw [mergeFault, getTotalFreq_gramBytes, getTotalFreq_gramBytes, (whole_gramBytes total items).2,
      (whole_gramBytes total' items').2]
    rfl
  have hmerge : merge (some (gramBytes total items [])) (some (gramBytes total' items' [])) =
      some (.ofChunk (gramBytes (total + total') (mergeWith (· + ·) items items') [])) := by
    rw [SingleGram.MergedGram.merge, hfault]
    dsimp only
    rw [mergedChunk_gramBytes (by simp) (by simp)]
  rw [hmerge, readRow_chunk (h.mergeWith (· + ·) h'), getD_merge, isSome_merge]

/-- The pair's counts added up are those of the merged row. -/
theorem mergedTransition_eq (hload : model.loadGram prev = .ok system)
    (hsystem : ∀ gram, system = some gram → OrderedRow gram.asBytes) (huser : ∀ gram, user = some gram → UserRow gram)
    (hcount : delta.bigramCount = rowCount user next) (htotal : delta.bigramTotal = rowTotal user) :
    model.mergedTransition prev next delta = rowTransition prev next (model.loadMergedRow prev user) := by
  rw [rowTransition_loadMergedRow hload, mergedTransition_of_load hload, hcount, htotal]
  cases user with
  | none =>
    have hzero : rowCount none next = (0#32).setWidth 64 := rfl
    have hzero' : rowTotal none = (0#32).setWidth 64 := rfl
    rw [hzero, hzero']
    cases system with
    | none => rfl
    | some gram =>
      obtain ⟨total, items, freq, hgram, hfreq⟩ := (hsystem gram rfl).exists_lists
      rw [map_some, map_some, stored_gramBytes hgram hfreq, hgram]
      change _ = rowTransition prev next (.ok (some (.ofChunk (gramBytes total items []))))
      rw [readRow_chunk hfreq, overlaid, map_some, mergeBigram, mergeBigramCounts_setWidth,
        mergeBigramCounts_setWidth, BitVec.add_zero, BitVec.add_zero]
      simp
  | some row =>
    obtain ⟨total', items', freq', rfl, hfreq'⟩ := (huser row rfl).ordered.exists_lists
    have hrow := huser _ rfl
    have hpresent := hrow.count_pos hfreq' next
    rw [rowCount_gramBytes hfreq', rowTotal_gramBytes]
    cases system with
    | none =>
      have hpos : 0 < total'.setWidth 64 := (setWidth_64_pos total').mpr fun hzero => by
        refine hrow.total ?_
        rw [getTotalFreq_gramBytes, hzero]
      change _ = rowTransition prev next (.ok (some (.ofChunk (gramBytes total' items' []))))
      rw [readRow_chunk hfreq', overlaid, map_none, map_none, mergeBigram, if_pos (Or.inr hpos),
        map_some, setWidth_64_32, setWidth_64_32, hpresent]
      rfl
    | some gram =>
      obtain ⟨total, items, freq, hgram, hfreq⟩ := (hsystem gram rfl).exists_lists
      rw [map_some, map_some, stored_gramBytes hgram hfreq, hgram, rowTransition_merge hfreq hfreq',
        overlaid, map_some, mergeBigram, map_some, mergeBigramCounts_setWidth, mergeBigramCounts_setWidth,
        hpresent]
      rfl

/-- A score reads the pair of the last token of the history only. -/
theorem modelCost_congr {laws : CostLaws φ} {history : List PhraseToken} {token : PhraseToken}
    {transition transition' : PhraseToken → Except (LmError ε) Transition}
    (h : ∀ last, history.getLast? = some last → transition last = transition' last) :
    model.modelCost laws history token delta transition = model.modelCost laws history token delta transition' := by
  unfold modelCost pureBigramCost
  cases hlast : history.getLast? with
  | none => rfl
  | some last =>
    dsimp only
    rw [h last hlast]

end BigramLanguageModel

/-! ## The weight -/

variable {num den n d : Nat}

variable {b bt u ut : Nat}

theorem interpolateRatio_eq_some (h : interpolateRatio num den b bt u ut = some (n, d)) :
    (n = num * b * ut + (den - num) * u * bt ∧ n < 2 ^ 128) ∧ d = den * bt * ut ∧ d < 2 ^ 128 := by
  unfold interpolateRatio at h
  simp only [pure_def, bind_eq_bind, bind_eq_some_iff, checkedU128_eq_some] at h
  obtain ⟨_, ⟨rfl, _⟩, _, ⟨rfl, _⟩, _, ⟨rfl, _⟩, _, ⟨rfl, _⟩, _, ⟨rfl, hn⟩, _, ⟨rfl, _⟩, _, ⟨rfl, hd⟩, h⟩ := h
  obtain ⟨rfl, rfl⟩ := Prod.mk.inj (some.inj h)
  exact ⟨⟨rfl, hn⟩, rfl, hd⟩

/-- What comes out is the interpolated probability. -/
theorem interpolateRatio_value {lambda : Lambda} (hbt : bt ≠ 0) (hut : ut ≠ 0)
    (h : interpolateRatio lambda.numerator lambda.denominator b bt u ut = some (n, d)) :
    (n / d : Rat) = lambda.numerator / lambda.denominator * (b / bt) +
      (1 - lambda.numerator / lambda.denominator) * (u / ut) := by
  obtain ⟨⟨rfl, _⟩, rfl, _⟩ := interpolateRatio_eq_some h
  have hden : (lambda.denominator : Rat) ≠ 0 := Nat.cast_ne_zero.mpr (Nat.ne_of_gt lambda.pos)
  have hbt : (bt : Rat) ≠ 0 := Nat.cast_ne_zero.mpr hbt
  have hut : (ut : Rat) ≠ 0 := Nat.cast_ne_zero.mpr hut
  push_cast [Nat.cast_sub lambda.le]
  field_simp

/-- A fraction comes out where every product fits. -/
theorem interpolateRatio_isSome (hbigram : num * b * ut < 2 ^ 127)
    (hunigram : (den - num) * u * bt < 2 ^ 127) (hden : den * bt * ut < 2 ^ 128) (hnum : num * b < 2 ^ 128)
    (hrest : (den - num) * u < 2 ^ 128) (hscaled : den * bt < 2 ^ 128) :
    (interpolateRatio num den b bt u ut).isSome = true := by
  have hsum : num * b * ut + (den - num) * u * bt < 2 ^ 128 := by omega
  have hfits : ∀ {n : Nat}, n < 2 ^ 128 → checkedU128 n = some n := fun h => checkedU128_eq_some.mpr ⟨rfl, h⟩
  unfold interpolateRatio
  simp only [bind_eq_bind]
  rw [hfits hnum, bind_some, hfits (by omega), bind_some, hfits hrest, bind_some,
    hfits (by omega), bind_some, hfits hsum, bind_some, hfits hscaled, bind_some,
    hfits hden, bind_some]
  rfl

/-- Under the shipped weight counts of 32 bits always fit. -/
theorem interpolateRatio_pinned (hb : b < 2 ^ 32) (hbt : bt < 2 ^ 32) (hu : u < 2 ^ 32) (hut : ut < 2 ^ 32) :
    (interpolateRatio Lambda.pinned.numerator Lambda.pinned.denominator b bt u ut).isSome = true := by
  have hprod : ∀ {x y : Nat}, x < 2 ^ 32 → y < 2 ^ 32 → x * y < 2 ^ 64 := fun {x y} hx hy =>
    calc x * y ≤ x * 2 ^ 32 := Nat.mul_le_mul_left _ (Nat.le_of_lt hy)
      _ < 2 ^ 32 * 2 ^ 32 := Nat.mul_lt_mul_of_pos_right hx (by decide)
  have h1 := hprod hb hut
  have h2 := hprod hu hbt
  have h3 := hprod hbt hut
  have hnum : Lambda.pinned.numerator = 312699 := rfl
  have hden : Lambda.pinned.denominator = 1000000 := rfl
  have hrest : 1000000 - 312699 = 687301 := rfl
  rw [hnum, hden]
  refine interpolateRatio_isSome ?_ ?_ ?_ (by omega) ?_ (by omega)
  · rw [Nat.mul_assoc]
    omega
  · rw [hrest, Nat.mul_assoc]
    omega
  · rw [Nat.mul_assoc]
    omega
  · rw [hrest]
    omega

/-! ## The scores -/

/-- Over whole and strictly ordered rows the overlay of a pair and the merged row give the same answer,
hence the same score. The fraction the score is computed from is the interpolated probability, and there
is one for the shipped weight and counts of 32 bits. -/
theorem overlay_merged_row {Path ε φ : Type} (model : BigramLanguageModel Path ε φ) (laws : CostLaws φ)
    {prev next : PhraseToken} {system : Option SystemGram} {user : Option Bytes} {delta : LiveCountDelta}
    (hload : model.loadGram prev = .ok system)
    (hsystem : ∀ gram, system = some gram → OrderedRow gram.asBytes) (huser : ∀ gram, user = some gram → UserRow gram)
    (hcount : delta.bigramCount = rowCount user next) (htotal : delta.bigramTotal = rowTotal user) :
    model.mergedTransition prev next delta =
        BigramLanguageModel.rowTransition prev next (model.loadMergedRow prev user) ∧
      (∃ answer, model.mergedTransition prev next delta = .ok answer) ∧
      (∀ history edgeCost, (∀ last, history.getLast? = some last → last = prev) →
        model.scoreWithUserDelta laws history next edgeCost delta =
          model.scoreWithMergedRow laws history next edgeCost delta fun prev => model.loadMergedRow prev user) ∧
      (∀ (lambda : Lambda) (b bt u ut n d : Nat), bt ≠ 0 → ut ≠ 0 →
        interpolateRatio lambda.numerator lambda.denominator b bt u ut = some (n, d) →
        (n / d : Rat) = lambda.numerator / lambda.denominator * (b / bt) +
          (1 - lambda.numerator / lambda.denominator) * (u / ut)) ∧
      ∀ b bt u ut : Nat, b < 2 ^ 32 → bt < 2 ^ 32 → u < 2 ^ 32 → ut < 2 ^ 32 →
        (interpolateRatio Lambda.pinned.numerator Lambda.pinned.denominator b bt u ut).isSome = true := by
  have heq := BigramLanguageModel.mergedTransition_eq hload hsystem huser hcount htotal
  refine ⟨heq, ⟨_, BigramLanguageModel.mergedTransition_of_load hload⟩, fun history edgeCost hhistory => ?_,
    fun lambda b bt u ut n d hbt hut h => interpolateRatio_value hbt hut h,
    fun b bt u ut hb hbt hu hut => interpolateRatio_pinned hb hbt hu hut⟩
  unfold BigramLanguageModel.scoreWithUserDelta BigramLanguageModel.scoreWithMergedRow
  rw [BigramLanguageModel.modelCost_congr fun last hlast => by rw [hhistory last hlast, heq]]

/-- A model of one row and no library. -/
def oneRowModel (system : Bytes) : BigramLanguageModel Unit Unit Unit where
  loadGram prev := .ok (if prev = 1 then some (.shared system) else none)
  lambda := Lambda.pinned
  lambdaRaw := none
  lambdaF32 := ()
  libraries := .empty
  libraryMask := 0

/-- A user row that takes a count of `wrappingRow` to zero. -/
def wrappingUser : Bytes := gramBytes 7 [(2, 6), (3, 1)] []

def wrappingRow : Bytes := gramBytes 5 [(3, 0xffffffff)] []

/-- Two rows share a successor whose counts add up to zero in 32 bits. Both paths give the same. -/
theorem overlay_merged_row_wraps :
    (oneRowModel wrappingRow).mergedTransition 1 3 ⟨⟨1, 7, 0, 0⟩, none⟩ =
      BigramLanguageModel.rowTransition 1 3 ((oneRowModel wrappingRow).loadMergedRow 1 (some wrappingUser)) := by
  have hrow : OrderedRow wrappingRow := ⟨whole_gramBytes _ _, by decide +kernel⟩
  have huser : UserRow wrappingUser := by
    refine ⟨⟨whole_gramBytes _ _, by decide +kernel⟩, by decide +kernel, ?_⟩
    rw [wrappingUser, retrieveAll_gramBytes (by simp), List.forall_mem_cons, List.forall_mem_singleton]
    exact ⟨by decide, by decide⟩
  have hload : (oneRowModel wrappingRow).loadGram 1 = .ok (some (.shared wrappingRow)) := rfl
  refine (overlay_merged_row _ ⟨fun _ _ => 0, fun _ _ _ _ _ => none⟩ hload (fun gram hgram => ?_)
    (fun gram hgram => ?_) (by decide +kernel) (by decide +kernel)).1
  · obtain rfl := some.inj hgram
    exact hrow
  · obtain rfl := some.inj hgram
    exact huser

end Oxpinyin
