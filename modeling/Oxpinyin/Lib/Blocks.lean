import Mathlib.Logic.Function.Basic
import Oxpinyin.Lib.LittleEndian

/-!
# Blocks in an arena

An arena is a list that holds blocks at offsets. `Placed arena blocks` : every block of a
family lies where the family says, and no two overlap. A block can be dropped, written over
in place by one of its length, or appended, and the others stay as they are.
-/

set_option linter.unusedSectionVars false

namespace Oxpinyin.Blocks

open List Function LittleEndian

variable {κ α : Type*} [DecidableEq κ]

/-- The blocks of a family are in the arena, apart from each other. -/
structure Placed (arena : List α) (blocks : κ → Option (Nat × List α)) : Prop where
  holds : ∀ k start block, blocks k = some (start, block) →
    ∃ front back, arena = front ++ block ++ back ∧ front.length = start
  apart : ∀ j k a b x y, j ≠ k → blocks j = some (a, x) → blocks k = some (b, y) →
    a + x.length ≤ b ∨ b + y.length ≤ a

theorem placed_none (arena : List α) : Placed arena fun _ : κ => none :=
  ⟨fun _ _ _ h => (by cases h), fun _ _ _ _ _ _ _ h => (by cases h)⟩

namespace Placed

variable {arena front block back new : List α} {blocks : κ → Option (Nat × List α)} {k : κ}

section

variable (h : Placed arena blocks)
include h

/-- A block ends in the arena. -/
theorem le_length {start : Nat} (hk : blocks k = some (start, block)) : start + block.length ≤ arena.length := by
  obtain ⟨front, back, rfl, rfl⟩ := h.holds k start block hk
  rw [length_append, length_append]
  omega

/-- Dropping a block. -/
theorem drop (k : κ) : Placed arena (update blocks k none) := by
  have hkept : ∀ j start block, update blocks k none j = some (start, block) →
      blocks j = some (start, block) := by
    intro j start block hj
    by_cases hjk : j = k
    · rw [hjk, update_self] at hj
      cases hj
    · rwa [update_of_ne hjk] at hj
  exact ⟨fun j start block hj => h.holds j start block (hkept j start block hj),
    fun i j a b x y hij hi hj => h.apart i j a b x y hij (hkept i a x hi) (hkept j b y hj)⟩

/-- Growing the arena at its end. -/
theorem grow (more : List α) : Placed (arena ++ more) blocks := by
  refine ⟨fun j start block hj => ?_, h.apart⟩
  obtain ⟨front, back, rfl, hstart⟩ := h.holds j start block hj
  exact ⟨front, back ++ more, by simp, hstart⟩

/-- A block in place of one, where it is apart from all others. -/
theorem put {start : Nat} (hat : ∃ front back, arena = front ++ block ++ back ∧ front.length = start)
    (hapart : ∀ j a x, j ≠ k → blocks j = some (a, x) → a + x.length ≤ start ∨ start + block.length ≤ a) :
    Placed arena (update blocks k (some (start, block))) := by
  refine ⟨fun j a x hj => ?_, fun i j a b x y hij hi hj => ?_⟩
  · by_cases hjk : j = k
    · rw [hjk, update_self] at hj
      obtain ⟨rfl, rfl⟩ := Prod.mk.inj (Option.some.inj hj)
      exact hat
    · rw [update_of_ne hjk] at hj
      exact h.holds j a x hj
  · rcases Decidable.em (i = k) with rfl | hik
    · rw [update_of_ne hij.symm] at hj
      rw [update_self] at hi
      obtain ⟨rfl, rfl⟩ := Prod.mk.inj (Option.some.inj hi)
      exact (hapart j b y hij.symm hj).symm
    · rw [update_of_ne hik] at hi
      by_cases hjk : j = k
      · rw [hjk, update_self] at hj
        obtain ⟨rfl, rfl⟩ := Prod.mk.inj (Option.some.inj hj)
        exact hapart i a x hik hi
      · rw [update_of_ne hjk] at hj
        exact h.apart i j a b x y hij hi hj

/-- A new block at the end. -/
theorem append (k : κ) (block : List α) : Placed (arena ++ block) (update blocks k (some (arena.length, block))) := by
  refine (h.grow block).put ⟨arena, [], by simp, rfl⟩ fun j a x _ hj => ?_
  exact Or.inl (h.le_length hj)

end

/-- A part of the arena that is apart from a place stays as the place is written over. -/
theorem holds_of_apart {x : List α} {a : Nat} (hnew : new.length = block.length)
    (hx : ∃ left right, front ++ block ++ back = left ++ x ++ right ∧ left.length = a)
    (hapart : a + x.length ≤ front.length ∨ front.length + block.length ≤ a) :
    ∃ left right, front ++ new ++ back = left ++ x ++ right ∧ left.length = a := by
  obtain ⟨left, right, heq, rfl⟩ := hx
  rcases hapart with hbefore | hbehind
  · have hsplit : front = left ++ x ++ front.drop (left.length + x.length) := by
      have htake := congrArg (List.take (left.length + x.length)) heq
      rw [append_assoc, take_append_of_le_length hbefore, take_left' (length_append)] at htake
      conv_lhs => rw [← take_append_drop (left.length + x.length) front]
      rw [htake]
    refine ⟨left, front.drop (left.length + x.length) ++ new ++ back, ?_, rfl⟩
    conv_lhs => rw [hsplit]
    simp
  · have hsplit : back = (left.drop (front.length + block.length)) ++ x ++ right := by
      have hdrop := congrArg (List.drop (front.length + block.length)) heq
      rwa [drop_left' (length_append), append_assoc left,
        drop_append_of_le_length hbehind, ← append_assoc] at hdrop
    refine ⟨front ++ new ++ left.drop (front.length + block.length), right, ?_, ?_⟩
    · rw [hsplit]
      simp
    · rw [length_append, length_append, length_drop, hnew]
      omega

/-- Writing over a block in place. -/
theorem rewrite (h : Placed (front ++ block ++ back) blocks) (hk : blocks k = some (front.length, block))
    (hnew : new.length = block.length) :
    Placed (front ++ new ++ back) (update blocks k (some (front.length, new))) := by
  have hothers : Placed (front ++ new ++ back) (update blocks k none) := by
    refine ⟨fun j a x hj => ?_, (h.drop k).apart⟩
    by_cases hjk : j = k
    · rw [hjk, update_self] at hj
      cases hj
    · rw [update_of_ne hjk] at hj
      exact holds_of_apart hnew (h.holds j a x hj) (h.apart j k a front.length x block hjk hj hk)
  have hput := hothers.put (k := k) ⟨front, back, rfl, rfl⟩ fun j a x hjk hj => by
    rw [update_of_ne hjk] at hj
    rw [hnew]
    exact h.apart j k a front.length x block hjk hj hk
  rwa [update_idem] at hput

end Placed

end Oxpinyin.Blocks
