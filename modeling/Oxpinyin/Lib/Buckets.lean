import Mathlib.Data.List.Basic
import Mathlib.Data.List.Count
import Mathlib.Data.List.Induction
import Mathlib.Tactic.Linarith

/-!
# A counting sort of keyed positions

`countKeys`, `accumulate` and `fill` are the three passes that group the positions of a
list of keys by key, in one flat list with an offset table. `slice_index` : the slice
between the offsets of `v` lists the positions whose key is `v`, ascending.
-/

namespace Oxpinyin.Buckets

open List

/-- Counts key `v` at place `v + 1`. -/
def countKeys (size : Nat) (keys : List Nat) : List Nat :=
  keys.foldl (fun starts v => starts.modify (v + 1) (· + 1)) (List.replicate (size + 1) 0)

/-- Adds each place to the next. -/
def accumulate (size : Nat) (starts : List Nat) : List Nat :=
  (List.range size).foldl
    (fun starts v => starts.set (v + 1) (starts.getD (v + 1) 0 + starts.getD v 0)) starts

/-- Writes one position at the cursor of its key. -/
def place (state : List Nat × List Nat) (entry : Nat × Nat) : List Nat × List Nat :=
  (state.1.modify entry.1 (· + 1), state.2.set (state.1.getD entry.1 0) entry.2)

/-- Writes every position at the cursor of its key. -/
def fill (starts keys : List Nat) : List Nat :=
  (keys.zipIdx.foldl place (starts, List.replicate keys.length 0)).2

/-- The positions whose key is `v`, ascending. -/
def positions (keys : List Nat) (v : Nat) : List Nat :=
  (List.range keys.length).filter fun i => keys[i]? = some v

/-- Number of keys below `v`. -/
def below (keys : List Nat) (v : Nat) : Nat :=
  keys.countP (· < v)

theorem below_succ (keys : List Nat) (v : Nat) : below keys (v + 1) = below keys v + keys.count v := by
  induction keys with
  | nil => rfl
  | cons u keys ih =>
    unfold below at ih ⊢
    rw [countP_cons, countP_cons, count_cons, ih]
    simp only [decide_eq_true_eq, beq_iff_eq]
    split_ifs <;> omega

variable {u v : Nat}

theorem below_mono (keys : List Nat) (h : u ≤ v) : below keys u ≤ below keys v :=
  countP_mono_left fun x _ hx => by simp only [decide_eq_true_eq] at hx ⊢; omega

theorem below_le_length (keys : List Nat) (v : Nat) : below keys v ≤ keys.length :=
  countP_le_length

/-! ## The offset table -/

theorem getElem?_countKeys (size : Nat) (keys : List Nat) {v : Nat} (hv : v ≤ size) :
    (countKeys size keys)[v]? = some (if v = 0 then 0 else keys.count (v - 1)) := by
  unfold countKeys
  induction keys using List.reverseRecOn with
  | nil => simp [Nat.lt_succ_of_le hv]
  | append_singleton keys u ih =>
    rw [foldl_append, foldl_cons, foldl_nil, getElem?_modify, ih]
    cases v with
    | zero => simp
    | succ v =>
      simp only [Nat.add_left_inj, Nat.add_eq_zero_iff, one_ne_zero, and_false, if_false,
        Nat.add_sub_cancel, count_append, count_singleton]
      by_cases huv : u = v
      · simp [huv]
      · simp [huv]

/-- After `n` steps the first `n + 1` places are offsets. -/
theorem getElem?_accumulate_upTo (size : Nat) (keys : List Nat) : ∀ {n : Nat}, n ≤ size →
    ∀ {v : Nat}, v ≤ size →
    ((List.range n).foldl (fun starts v => starts.set (v + 1) (starts.getD (v + 1) 0 + starts.getD v 0))
      (countKeys size keys))[v]? =
        some (if v ≤ n then below keys v else keys.count (v - 1))
  | 0, _, v, hv => by
    rw [range_zero, foldl_nil, getElem?_countKeys size keys hv]
    cases v with
    | zero => simp [below]
    | succ v => simp
  | n + 1, hn, v, hv => by
    have ih := @getElem?_accumulate_upTo size keys n (by omega)
    have hlen : n + 1 < ((List.range n).foldl
        (fun starts v => starts.set (v + 1) (starts.getD (v + 1) 0 + starts.getD v 0))
        (countKeys size keys)).length := (List.getElem?_eq_some_iff.mp (ih hn)).1
    rw [range_succ, foldl_append, foldl_cons, foldl_nil,
      getElem?_set, getD_eq_getElem?_getD, getD_eq_getElem?_getD,
      ih hn, ih (by omega : n ≤ size)]
    by_cases hvn : n + 1 = v
    · subst hvn
      simp only [hlen, if_true, Nat.not_succ_le_self, if_false, Nat.add_sub_cancel, le_refl,
        Option.getD_some, below_succ]
      rw [Nat.add_comm]
    · rw [if_neg hvn, ih hv]
      congr 1
      split_ifs <;> first | rfl | omega

theorem getElem?_accumulate (size : Nat) (keys : List Nat) {v : Nat} (hv : v ≤ size) :
    (accumulate size (countKeys size keys))[v]? = some (below keys v) := by
  unfold accumulate
  rw [getElem?_accumulate_upTo size keys (le_refl _) hv, if_pos hv]

/-! ## The filling pass -/

variable {size : Nat} {keys : List Nat}

theorem positions_append (keys : List Nat) (u v : Nat) :
    positions (keys ++ [u]) v =
      positions keys v ++ if u = v then [keys.length] else [] := by
  unfold positions
  rw [length_append, length_singleton, range_succ, filter_append]
  congr 1
  · refine filter_congr fun i hi => ?_
    rw [getElem?_append_left (mem_range.mp hi)]
  · simp only [filter_cons, getElem?_concat_length, Option.some.injEq, decide_eq_true_eq, filter_nil]

theorem length_positions (keys : List Nat) (v : Nat) : (positions keys v).length = keys.count v := by
  induction keys using List.reverseRecOn with
  | nil => simp [positions]
  | append_singleton keys u ih =>
    rw [positions_append, length_append, ih, count_append, count_singleton]
    by_cases huv : u = v <;> simp [huv]

/-- What the filling pass has written after the keys `front`. -/
structure Filled (size : Nat) (keys front : List Nat) (state : List Nat × List Nat) : Prop where
  length_ids : state.2.length = keys.length
  cursor : ∀ v, v < size → state.1[v]? = some (below keys v + front.count v)
  written : ∀ v, v < size → ∀ j, j < front.count v →
    state.2[below keys v + j]? = (positions front v)[j]?

/-- One key placed. -/
theorem Filled.place {front back : List Nat}
    {state : List Nat × List Nat} (hkeys : keys = front ++ u :: back)
    (hbound : ∀ v ∈ keys, v < size) (h : Filled size keys front state) :
    Filled size keys (front ++ [u]) (place state (u, front.length)) where
  length_ids := by
    unfold Buckets.place
    rw [length_set, h.length_ids]
  cursor v hv := by
    unfold Buckets.place
    rw [getElem?_modify, h.cursor v hv, count_append, count_singleton]
    by_cases huv : u = v <;> simp [huv, Nat.add_assoc]
  written v hv j hj := by
    have hu : u < size := hbound u (by rw [hkeys]; simp)
    have hroom : front.count u < keys.count u := by
      rw [hkeys, count_append, count_cons_self]
      omega
    have hcursor : state.1.getD u 0 = below keys u + front.count u := by
      rw [getD_eq_getElem?_getD, h.cursor u hu, Option.getD_some]
    have hsucc := below_succ keys
    unfold Buckets.place
    rw [hcursor, getElem?_set, positions_append]
    rw [count_append, count_singleton] at hj
    by_cases huv : u = v
    · subst huv
      simp only [beq_self_eq_true, if_true] at hj ⊢
      by_cases hjl : j = front.count u
      · subst hjl
        have hlt : below keys u + front.count u < state.2.length := by
          have := below_le_length keys (u + 1)
          rw [h.length_ids]
          rw [hsucc] at this
          omega
        rw [if_pos rfl, if_pos hlt, ← length_positions, getElem?_concat_length]
      · rw [if_neg (by omega), h.written u hu j (by omega), getElem?_append_left (by rw [length_positions]; omega)]
    · have hcount : front.count v ≤ keys.count v := by
        rw [hkeys, count_append]
        omega
      rw [if_neg huv, append_nil]
      simp only [beq_iff_eq, huv, if_false, Nat.add_zero] at hj
      have hother : ¬ below keys u + front.count u = below keys v + j := by
        rcases Nat.lt_or_gt_of_ne huv with hlt | hgt
        · have := below_mono keys (show u + 1 ≤ v by omega)
          rw [hsucc] at this
          omega
        · have := below_mono keys (show v + 1 ≤ u by omega)
          rw [hsucc] at this
          omega
      rw [if_neg hother, h.written v hv j hj]

theorem filled_zipIdx {size : Nat} {keys : List Nat} (hbound : ∀ v ∈ keys, v < size) :
    ∀ (back front : List Nat) (state : List Nat × List Nat), keys = front ++ back →
      Filled size keys front state →
      Filled size keys keys ((back.zipIdx front.length).foldl place state)
  | [], front, state, hkeys, h => by
    rw [append_nil] at hkeys
    rw [← hkeys] at h
    exact h
  | u :: back, front, state, hkeys, h => by
    rw [zipIdx_cons, foldl_cons]
    have hnext := filled_zipIdx hbound back (front ++ [u]) _ (by simp [hkeys]) (h.place hkeys hbound)
    rw [length_append, length_singleton] at hnext
    exact hnext

/-- The slice of key `v` lists the positions with that key. -/
theorem slice_index (hbound : ∀ v ∈ keys, v < size) (hv : v < size) :
    ((fill (accumulate size (countKeys size keys)) keys).drop (below keys v)).take
      (below keys (v + 1) - below keys v) = positions keys v := by
  have hstart : Filled size keys []
      (accumulate size (countKeys size keys), List.replicate keys.length 0) :=
    ⟨by simp, fun v hv => by rw [getElem?_accumulate size keys (by omega)]; simp, by simp⟩
  have hfull := filled_zipIdx hbound keys [] _ rfl hstart
  rw [length_nil] at hfull
  refine ext_getElem? fun j => ?_
  rw [getElem?_take, getElem?_drop, below_succ, Nat.add_sub_cancel_left]
  unfold fill
  split_ifs with hj
  · exact hfull.written v hv j hj
  · rw [getElem?_eq_none (by rw [length_positions]; omega)]

end Oxpinyin.Buckets
