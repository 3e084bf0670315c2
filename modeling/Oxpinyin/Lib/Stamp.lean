import Mathlib.Data.BitVec

/-!
# Counters that writes move

A state has a counter of fixed width beside what is read of it. A write that may change what is
read moves the counter by one, any other write leaves both. A reader that has kept the counter may
then keep what it read, as long as the counter has not come all the way round.
-/

namespace Oxpinyin.Stamp

variable {σ ι α : Type*} {w : Nat} (step : σ → ι → σ) (moves : σ → ι → Bool)

/-- How many writes of a run move the counter. -/
def moved (s : σ) : List ι → Nat
  | [] => 0
  | op :: ops => (if moves s op then 1 else 0) + moved (step s op) ops

/-- A counter that a write moves by one or leaves. -/
def Counts (count : σ → BitVec w) : Prop :=
  ∀ s op, count (step s op) = if moves s op then count s + 1 else count s

/-- What is read of a state, changed by the writes that move the counter alone. -/
def Guards (view : σ → α) : Prop := ∀ s op, moves s op = false → view (step s op) = view s

variable {step moves}

variable {count : σ → BitVec w}

theorem Counts.foldl (h : Counts step moves count) :
    ∀ (ops : List ι) (s : σ), count (ops.foldl step s) = count s + BitVec.ofNat w (moved step moves s ops)
  | [], s => (BitVec.add_zero _).symm
  | op :: ops, s => by
    rw [List.foldl_cons, h.foldl ops (step s op), h s op, moved, BitVec.ofNat_add]
    cases moves s op with
    | true => rw [if_pos rfl, if_pos rfl, BitVec.add_assoc, BitVec.ofNat_eq_ofNat]
    | false => rw [if_neg Bool.false_ne_true, if_neg Bool.false_ne_true, BitVec.zero_add]

variable {view : σ → α}

theorem Guards.foldl (h : Guards step moves view) :
    ∀ {ops : List ι} {s : σ}, moved step moves s ops = 0 → view (ops.foldl step s) = view s
  | [], _, _ => rfl
  | op :: ops, s, hmoved => by
    rw [moved, Nat.add_eq_zero_iff] at hmoved
    have hop : moves s op = false := by
      by_contra hmoves
      rw [if_pos (eq_true_of_ne_false hmoves)] at hmoved
      exact absurd hmoved.1 Nat.one_ne_zero
    rw [List.foldl_cons, h.foldl hmoved.2, h s op hop]

/-- Where the counter is back where it was and has not come round, what is read is the same. -/
theorem Guards.of_count (hview : Guards step moves view)
    (hcount : Counts step moves count) {ops : List ι} {s : σ}
    (hround : 2 ^ w ∣ moved step moves s ops → moved step moves s ops = 0)
    (h : count (ops.foldl step s) = count s) : view (ops.foldl step s) = view s := by
  refine hview.foldl (hround ?_)
  rw [hcount.foldl] at h
  have hzero : BitVec.ofNat w (moved step moves s ops) = 0#w := add_eq_left.mp h
  rw [Nat.dvd_iff_mod_eq_zero, ← BitVec.toNat_ofNat, hzero, BitVec.toNat_ofNat, Nat.zero_mod]

end Oxpinyin.Stamp
