import Mathlib.Algebra.Group.Nat.Defs
import Mathlib.Tactic.Common

/-!
# Depth-first search on an explicit stack

A depth-first enumerator keeps a stack of frames, the labels of the path to the top
frame, and the results found so far. `Backtrack.run` is that loop, one turn of the
`while` per unit of fuel, for an arbitrary description `expand` of what the top
frame does.

`Yields` is the recursive reading of the same search : a frame yields what its
child yields, then what its own remainder yields. `run_of_yields` says the loop
computes it, and `exists_yields` that a search whose frames shrink yields something
within `2 ^ (rank + 1)` turns. Together they are `run_eq_of_ranked`.
-/

namespace Oxpinyin.Backtrack

/-- What the top frame does in one turn of the loop. Found paths are the current
path followed by one of the listed tails. -/
inductive Outcome (φ β : Type*) where
  /-- Report the found tails and pop the frame. -/
  | leave (found : List (List β))
  /-- Replace the frame, with nothing found and no label pushed. -/
  | stay (next : φ)
  /-- Report the found tails, keep `resume` as the frame, push `label` and `child`. -/
  | enter (found : List (List β)) (resume : φ) (label : β) (child : φ)

/-- The loop's variables. The top of the stack is the head of the list. -/
structure State (φ β : Type*) where
  /-- Paths reported so far. -/
  results : List (List β)
  /-- Labels of the path to the top frame. -/
  path : List β
  /-- Frames, the innermost first. -/
  stack : List φ

variable {φ β : Type*} (expand : List β → φ → Outcome φ β)

/-- The path after a frame above `rest` is popped : the last frame has no label. -/
def popPath (path : List β) : List φ → List β
  | [] => path
  | _ :: _ => path.dropLast

/-- One turn of the loop at top frame `f` over `rest`. -/
def turn (results : List (List β)) (path : List β) (f : φ) (rest : List φ) : State φ β :=
  match expand path f with
  | .leave found => ⟨results ++ found.map (path ++ ·), popPath path rest, rest⟩
  | .stay next => ⟨results, path, next :: rest⟩
  | .enter found resume label child =>
    ⟨results ++ found.map (path ++ ·), path ++ [label], child :: resume :: rest⟩

/-- The results once the stack is empty, or `none` if the fuel runs out first. -/
def run : Nat → State φ β → Option (List (List β))
  | _, ⟨results, _, []⟩ => some results
  | 0, ⟨_, _, _ :: _⟩ => none
  | n + 1, ⟨results, path, f :: rest⟩ => run n (turn expand results path f rest)

/-- The search of frame `f` at `path` reports the listed paths in `n` turns. -/
inductive Yields : List β → φ → List (List β) → Nat → Prop
  | leave {p f found} : expand p f = .leave found → Yields p f (found.map (p ++ ·)) 1
  | stay {p f g ys n} : expand p f = .stay g → Yields p g ys n → Yields p f ys (n + 1)
  | enter {p f found resume label child ys zs m n} :
      expand p f = .enter found resume label child →
      Yields (p ++ [label]) child ys m → Yields p resume zs n →
      Yields p f (found.map (p ++ ·) ++ (ys ++ zs)) (m + n + 1)

variable {expand}

@[simp] theorem run_nil (n : Nat) (results : List (List β)) (path : List β) :
    run expand n ⟨results, path, []⟩ = some results := by
  cases n <;> rfl

variable {f : φ}

/-- The turns of a derivation pop its frame and append what it yields. -/
theorem run_of_yields {p : List β} {ys : List (List β)} {n : Nat}
    (h : Yields expand p f ys n) : ∀ (m : Nat) (results : List (List β)) (rest : List φ),
      run expand (n + m) ⟨results, p, f :: rest⟩ =
        run expand m ⟨results ++ ys, popPath p rest, rest⟩ := by
  induction h with
  | leave he =>
    intro m results rest
    rw [Nat.add_comm 1 m]
    simp only [run, turn, he]
  | @stay p f g ys n he _ ih =>
    intro m results rest
    rw [Nat.add_right_comm]
    simp only [run, turn, he]
    exact ih m results rest
  | @enter p f found resume label child ys zs k n he _ _ ihc ihr =>
    intro m results rest
    have hturns : k + n + 1 + m = k + (n + m) + 1 := by omega
    rw [hturns]
    simp only [run, turn, he]
    rw [ihc (n + m)]
    have hpop : popPath (p ++ [label]) (resume :: rest) = p := by simp [popPath]
    rw [hpop, ihr m]
    simp only [List.append_assoc]

/-- Every frame the search continues with has a smaller rank. -/
structure Ranked (expand : List β → φ → Outcome φ β) (rank : List β → φ → Nat) : Prop where
  /-- A replaced frame is smaller. -/
  stay : ∀ {p f g}, expand p f = .stay g → rank p g < rank p f
  /-- The remainder of a frame is smaller. -/
  resume : ∀ {p f found resume label child},
    expand p f = .enter found resume label child → rank p resume < rank p f
  /-- A child is smaller. -/
  child : ∀ {p f found resume label child},
    expand p f = .enter found resume label child → rank (p ++ [label]) child < rank p f

variable {rank : List β → φ → Nat}

/-- A ranked search yields, within `2 ^ (rank + 1)` turns. -/
theorem exists_yields (hr : Ranked expand rank) (p : List β) (f : φ) :
    ∃ ys n, Yields expand p f ys n ∧ n < 2 ^ (rank p f + 1) := by
  induction hk : rank p f using Nat.strongRecOn generalizing p f with
  | ind k ih =>
    subst hk
    have hpos : 1 ≤ 2 ^ rank p f := Nat.one_le_two_pow
    have hle : ∀ {j}, j < rank p f → 2 ^ (j + 1) ≤ 2 ^ rank p f := fun hj =>
      Nat.pow_le_pow_right (by omega) hj
    rw [Nat.pow_succ]
    cases he : expand p f with
    | leave found => exact ⟨_, 1, .leave he, by omega⟩
    | stay g =>
      obtain ⟨ys, n, hy, hn⟩ := ih _ (hr.stay he) p g rfl
      have := hle (hr.stay he)
      exact ⟨ys, n + 1, .stay he hy, by omega⟩
    | enter found resume label child =>
      obtain ⟨ys, m, hy, hm⟩ := ih _ (hr.child he) (p ++ [label]) child rfl
      obtain ⟨zs, n, hz, hn⟩ := ih _ (hr.resume he) p resume rfl
      have hc := hle (hr.child he)
      have hs := hle (hr.resume he)
      exact ⟨_, m + n + 1, .enter he hy hz, by omega⟩

/-- The loop started on one frame, with fuel `2 ^ (rank + 1)`, stops with what the
frame yields. -/
theorem run_eq_of_ranked (hr : Ranked expand rank) {fuel : Nat}
    (hfuel : 2 ^ (rank [] f + 1) ≤ fuel) :
    ∃ ys n, Yields expand [] f ys n ∧ run expand fuel ⟨[], [], [f]⟩ = some ys := by
  obtain ⟨ys, n, hy, hn⟩ := exists_yields hr [] f
  refine ⟨ys, n, hy, ?_⟩
  have hsplit : fuel = n + (fuel - n) := by omega
  rw [hsplit, run_of_yields hy]
  simp

end Oxpinyin.Backtrack
