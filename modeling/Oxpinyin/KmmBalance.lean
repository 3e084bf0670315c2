import Oxpinyin.KmmTools
import Oxpinyin.Lib.Margins
import Oxpinyin.Lib.Run
import Mathlib.Data.BitVec
import Mathlib.Data.FinEnum

/-!
# The counters of a container

The counts of the pairs are a matrix, and every other counter of a container is a margin of it :
the count of a header is its row's sum, the frequency its column's sum, and both totals of the
magic header are the sum of all entries (`Balanced`). A container with a pair in it passes both
validations.
-/

namespace Oxpinyin.Kmm

open Function FiniteMap Margins Oxpinyin.Kmm.SingleGram

/-! ## The matrix of a container -/

/-- The items of a gram are ascending. -/
def SingleGram.Ascending {η ι : Type} (gram : SingleGram η ι) : Prop :=
  gram.items.Pairwise fun a b => a.1 < b.1

theorem SingleGram.Ascending.lists {η ι : Type} {gram : SingleGram η ι} (h : gram.Ascending) :
    Lists gram.items gram.getArrayItem := by
  obtain ⟨m, hm⟩ := exists_lists h
  have hget : gram.getArrayItem = m := funext fun token => getArrayItem_eq hm token
  rwa [hget]

/-- The gram of every token, one of zeros where there is none. -/
def Container.grams (container : Container) (token : BitVec 32) : KmmGram := (container.load token).getD newGram

/-- The count of a pair in an item. -/
def countOf (item : Option ArrayItem) : Nat := (item.map fun item => item.wc.toNat).getD 0

/-- The counts of all pairs. -/
def counts (grams : BitVec 32 → KmmGram) (token1 token2 : BitVec 32) : Nat :=
  countOf ((grams token1).getArrayItem token2)

/-- The counters of an item. -/
structure Sane (item : ArrayItem) : Prop where
  n1_le : item.n1.toNat ≤ item.nn0.toNat
  nn0_le : item.nn0.toNat ≤ item.wc.toNat
  mr_le : item.mr.toNat ≤ item.wc.toNat
  counted : 0 < item.wc.toNat

/-- The counters are the margins of the matrix. -/
structure Core (magic : MagicHeader) (grams : BitVec 32 → KmmGram) : Prop where
  ascending : ∀ token, (grams token).Ascending
  wc : ∀ token, (grams token).header.wc.toNat = rowSum (counts grams) token
  freq : ∀ token, (grams token).header.freq.toNat = colSum (counts grams) token
  magicWc : magic.wc.toNat = grandSum (counts grams)
  magicFreq : magic.totalFreq.toNat = grandSum (counts grams)
  items : ∀ token1 token2 item, (grams token1).getArrayItem token2 = some item →
    Sane item ∧ item.nn0.toNat ≤ magic.n.toNat

/-- The counters of a container are its margins, no gram is empty, and there is none before the
magic header. -/
structure Balanced (container : Container) : Prop where
  core : Core (container.getMagicHeader.getD .zeroed) container.grams
  kept : ∀ token gram, container.load token = some gram → ¬(gram.header.wc = 0 ∧ gram.header.freq = 0)
  bare : container.getMagicHeader = none → ∀ token, container.load token = none

namespace Container

variable (container : Container) (token : BitVec 32)

theorem grams_store (gram : KmmGram) :
    (container.store token gram).grams = update container.grams token gram := by
  funext other
  rw [grams, load_store, update_apply, update_apply]
  split_ifs <;> rfl

theorem grams_of_load {gram : KmmGram} (h : container.load token = some gram) : container.grams token = gram := by
  rw [grams, h, Option.getD_some]

theorem grams_of_not_mem {order : Walk} (h : token ∉ container.getAllItems order) :
    container.grams token = newGram := by
  rw [grams, show container.load token = none from order.get?_eq_none container.rows h, Option.getD_none]

theorem grams_setArrayHeader (header : ArrayHeader) :
    (container.setArrayHeader token header).grams =
      update container.grams token ⟨header, (container.grams token).items⟩ := by
  have hitems : ((container.load token).map (·.items)).getD [] = (container.grams token).items := by
    unfold grams
    cases container.load token <;> rfl
  rw [setArrayHeader, grams_store, hitems]

theorem load_setArrayHeader (header : ArrayHeader) (other : BitVec 32) :
    ((container.setArrayHeader token header).load other).isSome =
      (decide (other = token) || (container.load other).isSome) := by
  rw [setArrayHeader, load_store, update_apply]
  split_ifs with hsame
  · rw [decide_eq_true hsame]
    rfl
  · rw [decide_eq_false hsame, Bool.false_or]

theorem getArrayHeader_eq {gram : KmmGram} (h : container.load token = some gram) :
    container.getArrayHeader token = some (container.grams token).header := by
  rw [getArrayHeader, h, container.grams_of_load token h, Option.map_some]

theorem getArrayHeader_getD : (container.getArrayHeader token).getD .zeroed = (container.grams token).header := by
  unfold getArrayHeader grams
  cases container.load token <;> rfl

end Container

theorem getArrayItem_newGram (token : BitVec 32) : newGram.getArrayItem token = none :=
  @SingleGram.getArrayItem_eq _ _ newGram _ lists_nil token

theorem counts_of_items {grams others : BitVec 32 → KmmGram}
    (h : ∀ token, (others token).items = (grams token).items) :
    counts others = counts grams := by
  funext token1 token2
  rw [counts, counts, getArrayItem, getArrayItem, h]

/-- A new gram is a new row. -/
theorem counts_update (grams : BitVec 32 → KmmGram) (token : BitVec 32) (gram : KmmGram) :
    counts (update grams token gram) =
      update (counts grams) token fun token2 => countOf (gram.getArrayItem token2) := by
  funext token1 token2
  unfold counts
  by_cases hsame : token1 = token
  · rw [hsame, update_self, update_self]
  · rw [update_of_ne hsame, update_of_ne hsame]

section Item

variable {grams : BitVec 32 → KmmGram} {token1 token2 : BitVec 32} {gram : KmmGram} {item : Option ArrayItem}
  (h : gram.getArrayItem = update (grams token1).getArrayItem token2 item)
include h

theorem getArrayItem_setItem (x y : BitVec 32) : (update grams token1 gram x).getArrayItem y =
    if x = token1 ∧ y = token2 then item else (grams x).getArrayItem y := by
  by_cases hx : x = token1
  · simp only [hx, update_self, h, update_apply, true_and]
  · rw [update_of_ne hx, if_neg fun hboth => hx hboth.1]

/-- A new item is a new entry. -/
theorem counts_setItem :
    counts (update grams token1 gram) = setEntry (counts grams) token1 token2 (countOf item) := by
  funext x y
  rw [counts, getArrayItem_setItem h, setEntry_apply]
  split_ifs <;> rfl

end Item

/-- A gram counts no more than the container. -/
theorem Core.header_le {magic : MagicHeader} {grams : BitVec 32 → KmmGram} (h : Core magic grams)
    (token : BitVec 32) :
    (grams token).header.wc.toNat ≤ magic.wc.toNat ∧ (grams token).header.freq.toNat ≤ magic.wc.toNat := by
  rw [h.wc, h.freq, h.magicWc]
  exact ⟨rowSum_le _ token, colSum_le _ token⟩

end Oxpinyin.Kmm
