import Mathlib.Algebra.BigOperators.Group.Finset.Basic
import Mathlib.Algebra.Order.BigOperators.Group.Finset
import Mathlib.Tactic.Abel

/-!
# Margins of a matrix

The sums of the rows, of the columns and of all entries of a matrix over finite types, and what
a new row or a new entry does to them. What is taken out stands on the left, so that the laws
hold where nothing can be subtracted.
-/

set_option linter.unusedSectionVars false

namespace Oxpinyin.Margins

open Finset Function

variable {α β μ : Type*} [Fintype α] [Fintype β] [DecidableEq α] [DecidableEq β] [AddCommMonoid μ]

section

variable (m : α → β → μ)

def rowSum (a : α) : μ := ∑ b, m a b

def colSum (b : β) : μ := ∑ a, m a b

def grandSum : μ := ∑ a, ∑ b, m a b

/-- A matrix with one entry of its own. -/
def setEntry (a : α) (b : β) (v : μ) : α → β → μ :=
  Function.update m a (Function.update (m a) b v)

theorem sum_rowSum : ∑ a, rowSum m a = grandSum m := rfl

theorem sum_colSum : ∑ b, colSum m b = grandSum m := sum_comm

end

theorem sum_update (f : α → μ) (a : α) (v : μ) : (∑ x, update f a v x) + f a = (∑ x, f x) + v := by
  rw [← add_sum_erase _ _ (mem_univ a), ← add_sum_erase _ f (mem_univ a),
    update_self, sum_congr rfl fun x hx => update_of_ne (ne_of_mem_erase hx) v f]
  abel

/-- A sum over a list that covers a function is a sum over all of its type. -/
theorem sum_nodup {keys : List α} (hnodup : keys.Nodup) {f : α → μ} (hzero : ∀ a, a ∉ keys → f a = 0) :
    (keys.map f).sum = ∑ a, f a := by
  rw [← List.sum_toFinset f hnodup]
  refine sum_subset (subset_univ _) fun a _ hout => hzero a fun hin => ?_
  exact hout (List.mem_toFinset.mpr hin)

variable (m : α → β → μ) (a : α)

theorem rowSum_update (row : β → μ) (x : α) :
    rowSum (update m a row) x = if x = a then ∑ b, row b else rowSum m x := by
  unfold rowSum
  split_ifs with hx
  · rw [hx, update_self]
  · rw [update_of_ne hx]

theorem colSum_update (row : β → μ) (b : β) : colSum (update m a row) b + m a b = colSum m b + row b := by
  have hcol := sum_update (fun x => m x b) a (row b)
  rw [← colSum] at hcol
  rw [← hcol]
  refine congrArg (· + m a b) (sum_congr rfl fun x _ => ?_)
  by_cases hx : x = a
  · rw [hx, update_self, update_self]
  · rw [update_of_ne hx, update_of_ne hx]

theorem grandSum_update (row : β → μ) : grandSum (update m a row) + rowSum m a = grandSum m + ∑ b, row b := by
  have hrows := sum_update (rowSum m) a (∑ b, row b)
  rw [sum_rowSum] at hrows
  rw [← hrows, ← sum_rowSum]
  refine congrArg (· + rowSum m a) (sum_congr rfl fun x _ => ?_)
  rw [rowSum_update, update_apply]

variable (b : β) (v : μ)

theorem setEntry_apply (x : α) (y : β) : setEntry m a b v x y = if x = a ∧ y = b then v else m x y := by
  unfold setEntry
  by_cases hx : x = a
  · simp only [hx, update_self, update_apply, true_and]
  · rw [update_of_ne hx, if_neg fun hboth => hx hboth.1]

theorem setEntry_of_ne {x : α} {y : β} (h : ¬(x = a ∧ y = b)) : setEntry m a b v x y = m x y := by
  rw [setEntry_apply, if_neg h]

theorem rowSum_setEntry : rowSum (setEntry m a b v) a + m a b = rowSum m a + v := by
  rw [setEntry, rowSum_update, if_pos rfl, sum_update]
  rfl

theorem rowSum_setEntry_of_ne {x : α} (h : x ≠ a) : rowSum (setEntry m a b v) x = rowSum m x := by
  rw [setEntry, rowSum_update, if_neg h]

theorem colSum_setEntry : colSum (setEntry m a b v) b + m a b = colSum m b + v := by
  have hcol := colSum_update m a (update (m a) b v) b
  rwa [update_self] at hcol

theorem grandSum_setEntry [IsRightCancelAdd μ] : grandSum (setEntry m a b v) + m a b = grandSum m + v := by
  have hgrand := grandSum_update m a (update (m a) b v)
  have hrow := sum_update (m a) b v
  have hcancel : grandSum (setEntry m a b v) + m a b + rowSum m a = grandSum m + v + rowSum m a := by
    calc grandSum (setEntry m a b v) + m a b + rowSum m a
        = (grandSum (setEntry m a b v) + rowSum m a) + m a b := by abel
      _ = (grandSum m + ∑ y, update (m a) b v y) + m a b := by rw [setEntry, hgrand]
      _ = grandSum m + ((∑ y, update (m a) b v y) + m a b) := by abel
      _ = grandSum m + ((∑ y, m a y) + v) := by rw [hrow]
      _ = grandSum m + v + rowSum m a := by rw [rowSum]; abel
  exact add_right_cancel hcancel

theorem colSum_setEntry_of_ne [IsRightCancelAdd μ] {y : β} (h : y ≠ b) :
    colSum (setEntry m a b v) y = colSum m y := by
  have hcol := colSum_update m a (update (m a) b v) y
  rw [update_of_ne h] at hcol
  exact add_right_cancel hcol

/-! ## Natural entries -/

section Nat

variable (m : α → β → ℕ) (a : α) (b : β)

theorem rowSum_le : rowSum m a ≤ grandSum m :=
  single_le_sum (f := rowSum m) (fun _ _ => Nat.zero_le _) (mem_univ a)

theorem colSum_le : colSum m b ≤ grandSum m := by
  rw [← sum_colSum]
  exact single_le_sum (f := colSum m) (fun _ _ => Nat.zero_le _) (mem_univ b)

theorem le_rowSum : m a b ≤ rowSum m a :=
  single_le_sum (f := m a) (fun _ _ => Nat.zero_le _) (mem_univ b)

theorem le_colSum : m a b ≤ colSum m b :=
  single_le_sum (f := fun x => m x b) (fun _ _ => Nat.zero_le _) (mem_univ a)

end Nat

end Oxpinyin.Margins
