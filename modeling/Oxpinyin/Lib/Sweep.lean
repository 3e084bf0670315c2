import Mathlib.Tactic.Common

/-!
# One forward pass over positions

A pass visits the positions in order and marks, at each marked one, its successors. Where
successors lie ahead, one pass marks exactly what zero reaches.

`Marks.step` is the step of such a pass, for marks kept in any form. `Marks.reach` : below
the position the pass has come to, the marks are the reachable positions.
-/

namespace Oxpinyin.Sweep

/-- The positions zero reaches. -/
inductive Reach (succ : Nat → Nat → Prop) : Nat → Prop
  | zero : Reach succ 0
  | step {p q : Nat} : Reach succ p → succ p q → Reach succ q

/-- The marks of a pass that has visited the positions below `k`. -/
def Marks (succ : Nat → Nat → Prop) (k : Nat) (mark : Nat → Prop) : Prop :=
  ∀ n, mark n ↔ n = 0 ∨ ∃ p, p < k ∧ Reach succ p ∧ succ p n

variable {succ : Nat → Nat → Prop} {k n : Nat} {mark mark' : Nat → Prop}

theorem Reach.mono {other : Nat → Nat → Prop} (hsub : ∀ p q, succ p q → other p q)
    (h : Reach succ n) : Reach other n := by
  induction h with
  | zero => exact .zero
  | step _ hs ih => exact .step ih (hsub _ _ hs)

theorem Marks.start (h : ∀ n, mark n ↔ n = 0) : Marks succ 0 mark := by
  intro n
  simp [h n]

theorem Marks.sound (h : Marks succ k mark) (hn : mark n) : Reach succ n := by
  rcases (h n).mp hn with rfl | ⟨p, _, hp, hs⟩
  · exact .zero
  · exact .step hp hs

/-- Up to the position the pass has come to, the marks are the reachable positions. -/
theorem Marks.reach (hforward : ∀ p q, succ p q → p < q) (h : Marks succ k mark) (hn : n ≤ k) :
    mark n ↔ Reach succ n := by
  refine ⟨h.sound, fun hr => (h n).mpr ?_⟩
  cases hr with
  | zero => exact Or.inl rfl
  | @step p _ hp hs =>
    have := hforward p n hs
    exact Or.inr ⟨p, by omega, hp, hs⟩

/-- Visiting the next position. -/
theorem Marks.step (hforward : ∀ p q, succ p q → p < q) (h : Marks succ k mark)
    (hvisit : ∀ n, mark' n ↔ mark n ∨ (mark k ∧ succ k n)) : Marks succ (k + 1) mark' := by
  intro n
  rw [hvisit n, h n, h.reach hforward (Nat.le_refl k)]
  constructor
  · rintro ((rfl | ⟨p, hp, hreach, hs⟩) | ⟨hreach, hs⟩)
    · exact Or.inl rfl
    · exact Or.inr ⟨p, by omega, hreach, hs⟩
    · exact Or.inr ⟨k, Nat.lt_succ_self k, hreach, hs⟩
  · rintro (rfl | ⟨p, hp, hreach, hs⟩)
    · exact Or.inl (Or.inl rfl)
    · rcases Nat.lt_succ_iff_lt_or_eq.mp hp with hlt | rfl
      · exact Or.inl (Or.inr ⟨p, hlt, hreach, hs⟩)
      · exact Or.inr ⟨hreach, hs⟩

end Oxpinyin.Sweep
