import Mathlib.Logic.Basic

/-!
# Runs of a machine

A machine is a step function on states. `states` lists the states of a run and `Along`
asks a guard of every step, at the state it is taken from. `forall_states_iff` : a
property holds in every state of a run exactly when the guard holds along it, for a guard
that keeps an invariant and whose failure breaks the property at once. `foldlM_inv` is the
same rule for a loop whose steps may fail, and `answers_simulate` is that for two machines whose
steps answer.
-/

namespace Oxpinyin.Run

open List

variable {σ ι : Type*} (step : σ → ι → σ)

/-- The states of a run, the first included. -/
def states (s : σ) : List ι → List σ
  | [] => [s]
  | op :: ops => s :: states (step s op) ops

/-- A guard holds at every step of a run. -/
def Along (guard : σ → ι → Prop) (s : σ) : List ι → Prop
  | [] => True
  | op :: ops => guard s op ∧ Along guard (step s op) ops

variable {step}

theorem mem_states_self (s : σ) (ops : List ι) : s ∈ states step s ops := by
  cases ops <;> simp [states]

/-- An invariant kept by guarded steps holds along a guarded run. -/
theorem forall_states {inv : σ → Prop} {guard : σ → ι → Prop} (hkeep : ∀ s op, inv s → guard s op → inv (step s op)) :
    ∀ {ops : List ι} {s : σ}, inv s → Along step guard s ops → ∀ t ∈ states step s ops, inv t
  | [], s, hs, _, t, ht => by
    rw [mem_singleton.mp ht]
    exact hs
  | op :: ops, s, hs, hguard, t, ht => by
    rcases mem_cons.mp ht with rfl | ht
    · exact hs
    · exact forall_states hkeep (hkeep s op hs hguard.1) hguard.2 t ht

theorem along_true : ∀ (ops : List ι) (s : σ), Along step (fun _ _ => True) s ops
  | [], _ => trivial
  | op :: ops, s => ⟨trivial, along_true ops (step s op)⟩

/-- A guard that does not look at the state. -/
theorem along_of_mem {guard : ι → Prop} : ∀ {ops : List ι} {s : σ}, (∀ op ∈ ops, guard op) →
    Along step (fun _ op => guard op) s ops
  | [], _, _ => trivial
  | _ :: _, _, h => ⟨h _ mem_cons_self, along_of_mem fun op hop => h op (mem_cons_of_mem _ hop)⟩

theorem along_imp {guard weaker : σ → ι → Prop} (h : ∀ s op, guard s op → weaker s op) :
    ∀ {ops : List ι} {s : σ}, Along step guard s ops → Along step weaker s ops
  | [], _, _ => trivial
  | op :: _, s, hguard => ⟨h s op hguard.1, along_imp h hguard.2⟩

/-- What holds in every state of a run holds behind every step. -/
theorem along_of_states {good : σ → Prop} : ∀ {ops : List ι} {s : σ}, (∀ t ∈ states step s ops, good t) →
    Along step (fun s op => good (step s op)) s ops
  | [], _, _ => trivial
  | _ :: ops, _, hall =>
    ⟨hall _ (mem_cons_of_mem _ (mem_states_self _ ops)),
      along_of_states fun t ht => hall t (mem_cons_of_mem _ ht)⟩

/-- A property that guarded steps keep through an invariant and unguarded steps break. -/
theorem forall_states_iff {inv good : σ → Prop} {guard : σ → ι → Prop}
    (hgood : ∀ s, inv s → good s) (hkeep : ∀ s op, inv s → guard s op → inv (step s op))
    (hbreak : ∀ s op, inv s → good (step s op) → guard s op) {ops : List ι} {s : σ}
    (hs : inv s) : (∀ t ∈ states step s ops, good t) ↔ Along step guard s ops := by
  constructor
  · intro hall
    induction ops generalizing s with
    | nil => trivial
    | cons op ops ih =>
      have hnext : good (step s op) := hall _ (mem_cons_of_mem _ (mem_states_self _ ops))
      have hguard := hbreak s op hs hnext
      exact ⟨hguard, ih (hkeep s op hs hguard) fun t ht => hall t (mem_cons_of_mem _ ht)⟩
  · intro hguard t ht
    exact hgood t (forall_states hkeep hs hguard t ht)

/-! ## Machines that answer -/

section Answers

variable {α τ : Type*} {answering : σ → ι → α × σ} {answering' : τ → ι → α × τ}

/-- The answers to a run, and the state behind it. -/
def answers (answering : σ → ι → α × σ) (s : σ) : List ι → List α × σ
  | [] => ([], s)
  | op :: ops =>
    let after := answering s op
    (after.1 :: (answers answering after.2 ops).1, (answers answering after.2 ops).2)

/-- A machine that keeps step with another, with the same answers, does so over runs. -/
theorem answers_simulate {R : σ → τ → Prop} (hstep : ∀ s t op, R s t →
      (answering s op).1 = (answering' t op).1 ∧ R (answering s op).2 (answering' t op).2) :
    ∀ (ops : List ι) {s : σ} {t : τ}, R s t →
      (answers answering s ops).1 = (answers answering' t ops).1 ∧
        R (answers answering s ops).2 (answers answering' t ops).2
  | [], _, _, h => ⟨rfl, h⟩
  | op :: ops, s, t, h => by
    obtain ⟨hanswer, hnext⟩ := hstep s t op h
    obtain ⟨hanswers, hlast⟩ := answers_simulate hstep ops hnext
    refine ⟨?_, hlast⟩
    rw [answers, answers, hanswer, hanswers]

end Answers

/-! ## Fallible steps -/

theorem bind_eq_ok {ε α β : Type} {x : Except ε α} {f : α → Except ε β} {b : β}
    (h : (x >>= f) = .ok b) : ∃ a, x = .ok a ∧ f a = .ok b := by
  cases x with
  | error e => cases h
  | ok a => exact ⟨a, rfl, h⟩

theorem map_eq_ok {ε α β : Type*} {x : Except ε α} {f : α → β} {b : β}
    (h : x.map f = .ok b) : ∃ a, x = .ok a ∧ f a = b := by
  cases x with
  | error e => cases h
  | ok a => exact ⟨a, rfl, Except.ok.inj h⟩

theorem eq_ok_of_toOption {ε α : Type*} {x : Except ε α} {a : α} (h : x.toOption = some a) : x = .ok a := by
  cases x with
  | error e => cases h
  | ok b => exact congrArg Except.ok (Option.some.inj h)

section

variable {ε : Type*} {f : σ → ι → Except ε σ}

/-- An invariant of the successful steps of a fallible loop holds where the loop ends. -/
theorem foldlM_inv {inv : σ → Prop} :
    ∀ {l : List ι} {s t : σ}, (∀ s i t, i ∈ l → inv s → f s i = .ok t → inv t) → inv s →
      l.foldlM f s = .ok t → inv t
  | [], s, t, _, hs, hrun => by
    obtain rfl := Except.ok.inj hrun
    exact hs
  | i :: l, s, t, hstep, hs, hrun => by
    rw [foldlM_cons] at hrun
    cases hnext : f s i with
    | error e =>
      rw [hnext] at hrun
      cases hrun
    | ok next =>
      rw [hnext] at hrun
      exact foldlM_inv (fun s j t hj => hstep s j t (mem_cons_of_mem _ hj))
        (hstep s i next mem_cons_self hs hnext) hrun

/-- A fallible loop whose steps go up a preorder meets every item, and what an item's step
ends in is below the end. -/
theorem foldlM_visits {below : σ → σ → Prop} (hrefl : ∀ s, below s s)
    (htrans : ∀ s t u, below s t → below t u → below s u) :
    ∀ {l : List ι} {s t : σ}, (∀ s i t, i ∈ l → f s i = .ok t → below s t) → l.foldlM f s = .ok t →
      below s t ∧ ∀ i ∈ l, ∃ before after, f before i = .ok after ∧ below after t
  | [], s, t, _, hrun => by
    obtain rfl := Except.ok.inj hrun
    exact ⟨hrefl s, by simp⟩
  | i :: l, s, t, hstep, hrun => by
    rw [foldlM_cons] at hrun
    cases hnext : f s i with
    | error e =>
      rw [hnext] at hrun
      cases hrun
    | ok next =>
      rw [hnext] at hrun
      obtain ⟨hbelow, hvisits⟩ := foldlM_visits hrefl htrans (fun s j t hj => hstep s j t (mem_cons_of_mem _ hj)) hrun
      refine ⟨htrans _ _ _ (hstep s i next mem_cons_self hnext) hbelow, fun j hj => ?_⟩
      rcases mem_cons.mp hj with rfl | hj
      · exact ⟨s, next, hnext, hbelow⟩
      · exact hvisits j hj

/-- A loop whose steps all succeed succeeds. -/
theorem foldlM_ok :
    ∀ {l : List ι} {s : σ}, (∀ s, ∀ i ∈ l, ∃ t, f s i = .ok t) → ∃ t, l.foldlM f s = .ok t
  | [], s, _ => ⟨s, rfl⟩
  | i :: l, s, hstep => by
    obtain ⟨next, hnext⟩ := hstep s i mem_cons_self
    rw [foldlM_cons, hnext]
    exact foldlM_ok fun s j hj => hstep s j (mem_cons_of_mem _ hj)

end

/-- A loop over indexed items that pushes what each may yield collects it in order. -/
theorem foldlM_zipIdx_collect {ε α β : Type*} {f : α → Nat → Except ε (Option β)} {g : Nat → Option β} :
    ∀ {l : List α} {k : Nat} {acc : List β},
      (∀ (i : Nat) (x : α), l[i]? = some x → f x (k + i) = .ok (g (k + i))) →
      (l.zipIdx k).foldlM (fun acc x => (f x.1 x.2).map fun found => acc ++ found.toList) acc =
        .ok (acc ++ (List.range' k l.length).filterMap g)
  | [], _, acc, _ => by simp; rfl
  | x :: l, k, acc, h => by
    have hhead : f x k = .ok (g k) := h 0 x rfl
    have hrest : ∀ (i : Nat) (y : α), l[i]? = some y → f y (k + 1 + i) = .ok (g (k + 1 + i)) := by
      intro i y hy
      rw [Nat.add_assoc, Nat.add_comm 1]
      exact h (i + 1) y hy
    rw [zipIdx_cons, foldlM_cons, hhead]
    change (l.zipIdx (k + 1)).foldlM _ (acc ++ (g k).toList) = _
    rw [foldlM_zipIdx_collect hrest, length_cons, range'_succ, append_assoc]
    cases hk : g k with
    | none => rw [filterMap_cons_none hk]; rfl
    | some b => rw [filterMap_cons_some hk]; rfl

end Oxpinyin.Run
