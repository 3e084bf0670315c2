import Mathlib.Data.List.Basic
import Mathlib.Order.Lattice

/-!
# Two loops in step

Two programs loop over two ascending lists of indices, and a relation says which index of one
is which of the other. An index that meets none must not matter to its own loop. `Aligned.foldl` :
a relation of the two states that every such step keeps holds when both loops are over.
-/

namespace Oxpinyin.Lockstep

open List

variable {α β γ σ τ : Type*} {meet : α → β → Prop} {xs : List α} {ys : List β}

/-- The lists list what meets in one order. -/
inductive Aligned (meet : α → β → Prop) : List α → List β → Prop
  | nil : Aligned meet [] []
  | left {x : α} {xs : List α} {ys : List β} :
    (∀ y, ¬ meet x y) → Aligned meet xs ys → Aligned meet (x :: xs) ys
  | right {y : β} {xs : List α} {ys : List β} :
    (∀ x, ¬ meet x y) → Aligned meet xs ys → Aligned meet xs (y :: ys)
  | both {x : α} {y : β} {xs : List α} {ys : List β} :
    meet x y → Aligned meet xs ys → Aligned meet (x :: xs) (y :: ys)

/-- What one step keeps, both loops keep. -/
theorem Aligned.foldl {R : σ → τ → Prop} {f : σ → α → σ} {g : τ → β → τ}
    (hleft : ∀ s t x, (∀ y, ¬ meet x y) → R s t → R (f s x) t)
    (hright : ∀ s t y, (∀ x, ¬ meet x y) → R s t → R s (g t y))
    (hboth : ∀ s t x y, meet x y → R s t → R (f s x) (g t y)) (h : Aligned meet xs ys) :
    ∀ s t, R s t → R (xs.foldl f s) (ys.foldl g t) := by
  induction h with
  | nil => exact fun s t hR => hR
  | left hx _ ih => exact fun s t hR => ih _ _ (hleft s t _ hx hR)
  | right hy _ ih => exact fun s t hR => ih _ _ (hright s t _ hy hR)
  | both hmeet _ ih => exact fun s t hR => ih _ _ (hboth s t _ _ hmeet hR)

/-- Lists of blocks that agree where the indices meet, and are empty where they do not. -/
theorem Aligned.flatMap {f : α → List γ} {g : β → List γ}
    (hleft : ∀ x, (∀ y, ¬ meet x y) → f x = []) (hright : ∀ y, (∀ x, ¬ meet x y) → g y = [])
    (hboth : ∀ x y, meet x y → f x = g y) (h : Aligned meet xs ys) : xs.flatMap f = ys.flatMap g := by
  induction h with
  | nil => rfl
  | left hx _ ih => rw [flatMap_cons, hleft _ hx, nil_append, ih]
  | right hy _ ih => rw [flatMap_cons, hright _ hy, nil_append, ih]
  | both hmeet _ ih => rw [flatMap_cons, flatMap_cons, hboth _ _ hmeet, ih]

/-- What meets stands in the same order. -/
def Ordered [LT α] [LT β] (meet : α → β → Prop) : Prop :=
  ∀ ⦃x x' : α⦄ ⦃y y' : β⦄, meet x y → meet x' y' → (x < x' ↔ y < y')

theorem Ordered.right_unique [LinearOrder α] [LinearOrder β] (h : Ordered meet) {x : α} {y y' : β}
    (hy : meet x y) (hy' : meet x y') : y = y' := by
  refine le_antisymm (not_lt.mp fun hlt => ?_) (not_lt.mp fun hlt => ?_)
  · exact lt_irrefl x ((h hy' hy).mpr hlt)
  · exact lt_irrefl x ((h hy hy').mpr hlt)

theorem Ordered.left_unique [LinearOrder α] [LinearOrder β] (h : Ordered meet) {x x' : α} {y : β}
    (hx : meet x y) (hx' : meet x' y) : x = x' := by
  refine le_antisymm (not_lt.mp fun hlt => ?_) (not_lt.mp fun hlt => ?_)
  · exact lt_irrefl y ((h hx' hx).mp hlt)
  · exact lt_irrefl y ((h hx hx').mp hlt)

/-- Ascending lists are aligned, if each lists what meets an index of the other. -/
theorem aligned_of_ascending [LinearOrder α] [LinearOrder β] (hordered : Ordered meet) :
    ∀ {xs : List α} {ys : List β}, xs.Pairwise (· < ·) → ys.Pairwise (· < ·) →
      (∀ x ∈ xs, ∀ y, meet x y → y ∈ ys) → (∀ y ∈ ys, ∀ x, meet x y → x ∈ xs) → Aligned meet xs ys
  | [], [], _, _, _, _ => .nil
  | x :: xs, [], hxs, hys, hto, _ => by
    refine .left (fun y hmeet => ?_) (aligned_of_ascending hordered (pairwise_cons.mp hxs).2 hys
      (fun x' hx' => hto x' (mem_cons_of_mem _ hx')) (by simp))
    exact not_mem_nil (hto x mem_cons_self y hmeet)
  | [], y :: ys, hxs, hys, _, hfrom => by
    refine .right (fun x hmeet => ?_) (aligned_of_ascending hordered hxs (pairwise_cons.mp hys).2
      (by simp) (fun y' hy' => hfrom y' (mem_cons_of_mem _ hy')))
    exact not_mem_nil (hfrom y mem_cons_self x hmeet)
  | x :: xs, y :: ys, hxs, hys, hto, hfrom => by
    obtain ⟨hx, hxs'⟩ := pairwise_cons.mp hxs
    obtain ⟨hy, hys'⟩ := pairwise_cons.mp hys
    by_cases hidle : ∀ y', ¬ meet x y'
    · refine .left hidle (aligned_of_ascending hordered hxs' hys
        (fun x' hx' => hto x' (mem_cons_of_mem _ hx')) fun y' hy' x' hmeet => ?_)
      rcases mem_cons.mp (hfrom y' hy' x' hmeet) with rfl | hin
      · exact absurd hmeet (hidle y')
      · exact hin
    by_cases hidle' : ∀ x', ¬ meet x' y
    · refine .right hidle' (aligned_of_ascending hordered hxs hys' (fun x' hx' y' hmeet => ?_)
        fun y' hy' => hfrom y' (mem_cons_of_mem _ hy'))
      rcases mem_cons.mp (hto x' hx' y' hmeet) with rfl | hin
      · exact absurd hmeet (hidle' x')
      · exact hin
    · -- the least index of each list meets, so they meet each other
      push Not at hidle hidle'
      obtain ⟨y', hmeet⟩ := hidle
      obtain ⟨x', hmeet'⟩ := hidle'
      have hxy : meet x y := by
        rcases mem_cons.mp (hto x mem_cons_self y' hmeet) with rfl | hlater
        · exact hmeet
        rcases mem_cons.mp (hfrom y mem_cons_self x' hmeet') with rfl | hlater'
        · exact hmeet'
        · exact absurd ((hordered hmeet hmeet').mp (hx x' hlater')) (lt_asymm (hy y' hlater))
      refine .both hxy (aligned_of_ascending hordered hxs' hys' (fun a ha b hab => ?_)
        fun b hb a hab => ?_)
      · rcases mem_cons.mp (hto a (mem_cons_of_mem _ ha) b hab) with rfl | hin
        · exact absurd (hx a ha) (hordered.left_unique hxy hab ▸ lt_irrefl x)
        · exact hin
      · rcases mem_cons.mp (hfrom b (mem_cons_of_mem _ hb) a hab) with rfl | hin
        · exact absurd (hy b hb) (hordered.right_unique hxy hab ▸ lt_irrefl y)
        · exact hin

end Oxpinyin.Lockstep
