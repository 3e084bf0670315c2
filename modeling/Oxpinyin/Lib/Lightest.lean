import Mathlib.Tactic.Common
import Mathlib.Algebra.BigOperators.Group.List.Basic
import Mathlib.Algebra.Ring.Nat
import Mathlib.Data.List.Induction

/-!
# Lightest routes by one forward pass

Edges run forward between numbered nodes. A pass visits the nodes in order and keeps for each
node the weight of the best route found to it with the last edge of that route. An edge is taken
over the one that is there only when it is strictly better.

`Table.step` is the step of such a pass. When it is over, no route is lighter than the table says
(`Table.le_total`), and among routes of that weight the last edge of the table comes from the
smallest node (`Table.first_source`).
-/

namespace Oxpinyin.Lightest

open Option List

variable {E : Type*} {src dst weight : E → Nat} {allowed : E → Prop}

/-- A sequence of allowed edges, each leaving the node the one before it enters. -/
inductive Route (src dst : E → Nat) (allowed : E → Prop) : Nat → Nat → List E → Prop
  | nil (n : Nat) : Route src dst allowed n n []
  | cons {n t : Nat} {edge : E} {es : List E} : allowed edge → src edge = n →
      Route src dst allowed (dst edge) t es → Route src dst allowed n t (edge :: es)

/-- The weight of a route. -/
def total (weight : E → Nat) (es : List E) : Nat := (es.map weight).sum

/-- The weight a table gives a node. The origin has none. -/
def rank (best : Nat → Option (Nat × E)) (n : Nat) : Option Nat :=
  if n = 0 then some 0 else (best n).map Prod.fst

/-- The table before node `k`, for edges that end at most at `bound`. -/
structure Table (src dst weight : E → Nat) (allowed : E → Prop) (bound k : Nat)
    (best : Nat → Option (Nat × E)) : Prop where
  entry : ∀ n r edge, best n = some (r, edge) → allowed edge ∧ src edge < k ∧ dst edge = n ∧
    ∃ r', rank best (src edge) = some r' ∧ r = r' + weight edge
  least : ∀ edge, allowed edge → src edge < k → dst edge ≤ bound → ∀ r', rank best (src edge) = some r' →
    ∃ r found, best (dst edge) = some (r, found) ∧
      (r < r' + weight edge ∨ r = r' + weight edge ∧ src found ≤ src edge)

/-- What visiting node `k` does to a table : a node keeps its entry or takes a strictly better edge of
`k`, and is left no heavier than any edge of `k` makes it. -/
structure Visit (src dst weight : E → Nat) (allowed : E → Prop) (bound k : Nat)
    (best best' : Nat → Option (Nat × E)) : Prop where
  change : ∀ n, best' n = best n ∨ ∃ r' edge, allowed edge ∧ src edge = k ∧ dst edge = n ∧
    rank best k = some r' ∧ best' n = some (r' + weight edge, edge) ∧
      ∀ old, best n = some old → r' + weight edge < old.1
  taken : ∀ edge, allowed edge → src edge = k → dst edge ≤ bound → ∀ r', rank best k = some r' →
    ∃ r found, best' (dst edge) = some (r, found) ∧ r ≤ r' + weight edge

section Route

variable {a b t : Nat} {es : List E} {edge : E}

theorem total_cons (weight : E → Nat) (edge : E) (es : List E) :
    total weight (edge :: es) = weight edge + total weight es := by
  rw [total, map_cons, sum_cons, total]

theorem total_append (weight : E → Nat) (es fs : List E) :
    total weight (es ++ fs) = total weight es + total weight fs := by
  rw [total, map_append, sum_append]
  rfl

theorem total_singleton (weight : E → Nat) (edge : E) : total weight [edge] = weight edge := by
  simp [total]

theorem Route.concat (h : Route src dst allowed a b es) (hallowed : allowed edge) (hsrc : src edge = b) :
    Route src dst allowed a (dst edge) (es ++ [edge]) := by
  induction h with
  | nil n => exact .cons hallowed hsrc (.nil _)
  | cons hfirst hfrom _ ih => exact .cons hfirst hfrom (ih hsrc)

/-- The last edge of a route. -/
theorem Route.of_concat (h : Route src dst allowed a t (es ++ [edge])) :
    Route src dst allowed a (src edge) es ∧ allowed edge ∧ dst edge = t := by
  induction es generalizing a with
  | nil =>
    cases h with
    | cons hallowed hsrc hrest =>
      cases hrest with
      | nil => exact ⟨hsrc ▸ .nil _, hallowed, rfl⟩
  | cons first es ih =>
    cases h with
    | cons hallowed hsrc hrest =>
      obtain ⟨hroute, hlast⟩ := ih hrest
      exact ⟨.cons hallowed hsrc hroute, hlast⟩

theorem Route.mem (h : Route src dst allowed a t es) : ∀ edge ∈ es, allowed edge := by
  induction h with
  | nil => simp
  | cons hallowed _ _ ih =>
    intro edge hedge
    rcases mem_cons.mp hedge with rfl | hedge
    · exact hallowed
    · exact ih edge hedge

theorem Route.imp {other : E → Prop} (himp : ∀ edge, allowed edge → other edge)
    (h : Route src dst allowed a t es) : Route src dst other a t es := by
  induction h with
  | nil n => exact .nil n
  | cons hallowed hsrc _ ih => exact .cons (himp _ hallowed) hsrc ih

/-- Each edge of a route moves at least one node on. -/
theorem Route.length_le (hforward : ∀ edge, allowed edge → src edge < dst edge)
    (h : Route src dst allowed a t es) : a + es.length ≤ t := by
  induction h with
  | nil n => exact Nat.le_refl _
  | cons hallowed hsrc _ ih =>
    have hlt := hforward _ hallowed
    rw [length_cons]
    omega

/-- Where each node has at most one edge, there is at most one route between two nodes. -/
theorem Route.unique (hforward : ∀ edge, allowed edge → src edge < dst edge)
    (hone : ∀ edge other, allowed edge → allowed other → src edge = src other → edge = other) {fs : List E}
    (h : Route src dst allowed a t es) (h' : Route src dst allowed a t fs) : es = fs := by
  induction h generalizing fs with
  | nil n =>
    cases h' with
    | nil => rfl
    | @cons _ _ edge fs hallowed hsrc hrest =>
      have hlt := hforward edge hallowed
      have hle := hrest.length_le hforward
      omega
  | @cons n t edge es hallowed hsrc hrest ih =>
    cases h' with
    | nil =>
      have hlt := hforward edge hallowed
      have hle := hrest.length_le hforward
      omega
    | @cons _ _ other fs hallowed' hsrc' hrest' =>
      obtain rfl := hone edge other hallowed hallowed' (hsrc.trans hsrc'.symm)
      rw [ih hrest']

end Route

/-! ## Offers -/

/-- What offering one edge of a node of weight `r` does to a table. -/
structure Offer (dst weight : E → Nat) (bound r : Nat) (edge : E) (best best' : Nat → Option (Nat × E)) : Prop where
  taken : dst edge ≤ bound → (∀ old, best (dst edge) = some old → r + weight edge < old.1) →
    best' (dst edge) = some (r + weight edge, edge)
  kept : ∀ old, best (dst edge) = some old → old.1 ≤ r + weight edge → best' (dst edge) = best (dst edge)
  outside : bound < dst edge → best' (dst edge) = best (dst edge)
  others : ∀ n, n ≠ dst edge → best' n = best n

/-- What offering all edges of a node of weight `r` does to a table. -/
structure Offers (dst weight : E → Nat) (bound r : Nat) (edges : List E) (best best' : Nat → Option (Nat × E)) :
    Prop where
  change : ∀ n, best' n = best n ∨ ∃ edge ∈ edges, dst edge = n ∧ best' n = some (r + weight edge, edge) ∧
    ∀ old, best n = some old → r + weight edge < old.1
  taken : ∀ edge ∈ edges, dst edge ≤ bound → ∃ r' found, best' (dst edge) = some (r', found) ∧ r' ≤ r + weight edge

section Offers

variable {bound r k : Nat} {best best' best'' : Nat → Option (Nat × E)} {edge : E} {edges : List E}

theorem Offer.change (h : Offer dst weight bound r edge best best') (n : Nat) : best' n = best n ∨
    dst edge = n ∧ best' n = some (r + weight edge, edge) ∧ ∀ old, best n = some old → r + weight edge < old.1 := by
  by_cases hn : n = dst edge
  · subst hn
    by_cases hout : bound < dst edge
    · exact Or.inl (h.outside hout)
    · by_cases hbetter : ∀ old, best (dst edge) = some old → r + weight edge < old.1
      · exact Or.inr ⟨rfl, h.taken (Nat.le_of_not_lt hout) hbetter, hbetter⟩
      · obtain ⟨old, hold⟩ := not_forall.mp hbetter
        obtain ⟨hbest, hle⟩ := Classical.not_imp.mp hold
        exact Or.inl (h.kept old hbest (Nat.le_of_not_lt hle))
  · exact Or.inl (h.others n hn)

/-- After an offer, the node it enters is no heavier than the offer makes it. -/
theorem Offer.le (h : Offer dst weight bound r edge best best') (hin : dst edge ≤ bound) :
    ∃ r' found, best' (dst edge) = some (r', found) ∧ r' ≤ r + weight edge := by
  by_cases hbetter : ∀ old, best (dst edge) = some old → r + weight edge < old.1
  · exact ⟨_, _, h.taken hin hbetter, Nat.le_refl _⟩
  · obtain ⟨old, hold⟩ := not_forall.mp hbetter
    obtain ⟨hbest, hle⟩ := Classical.not_imp.mp hold
    exact ⟨old.1, old.2, (h.kept old hbest (Nat.le_of_not_lt hle)).trans hbest, Nat.le_of_not_lt hle⟩

theorem Offers.nil : Offers dst weight bound r [] best best :=
  ⟨fun n => Or.inl rfl, by simp⟩

/-- One more edge offered. -/
theorem Offers.cons (hhead : Offer dst weight bound r edge best best')
    (htail : Offers dst weight bound r edges best' best'') :
    Offers dst weight bound r (edge :: edges) best best'' := by
  refine ⟨fun n => ?_, fun other hother hin => ?_⟩
  · rcases htail.change n with hsame | ⟨later, hlater, hto, hnew, hbetter⟩
    · rcases hhead.change n with hkept | ⟨hto, hnew, hbetter⟩
      · exact Or.inl (hsame.trans hkept)
      · exact Or.inr ⟨edge, mem_cons_self, hto, hsame.trans hnew, hbetter⟩
    · refine Or.inr ⟨later, mem_cons_of_mem _ hlater, hto, hnew, fun old hold => ?_⟩
      rcases hhead.change n with hkept | ⟨_, htaken, hlower⟩
      · exact hbetter old (hkept.trans hold)
      · exact Nat.lt_trans (hbetter _ htaken) (hlower old hold)
  · rcases mem_cons.mp hother with rfl | hother
    · -- later offers only lower what the head left
      obtain ⟨r', found, hentry, hle⟩ := hhead.le hin
      rcases htail.change (dst other) with hsame | ⟨later, _, _, hnew, hbetter⟩
      · exact ⟨r', found, hsame.trans hentry, hle⟩
      · exact ⟨_, _, hnew, Nat.le_trans (Nat.le_of_lt (hbetter _ hentry)) hle⟩
    · exact htail.taken other hother hin

/-- Offering the edges of a node is a visit. -/
theorem Offers.visit (h : Offers dst weight bound r edges best best') (hrank : rank best k = some r)
    (hedges : ∀ edge, edge ∈ edges ↔ allowed edge ∧ src edge = k) :
    Visit src dst weight allowed bound k best best' := by
  refine ⟨fun n => ?_, fun edge hallowed hsrc hin r' hr' => ?_⟩
  · rcases h.change n with hsame | ⟨edge, hedge, hto, hnew, hbetter⟩
    · exact Or.inl hsame
    · obtain ⟨hallowed, hsrc⟩ := (hedges edge).mp hedge
      exact Or.inr ⟨r, edge, hallowed, hsrc, hto, hrank, hnew, hbetter⟩
  · obtain rfl := some.inj (hrank.symm.trans hr')
    exact h.taken edge ((hedges edge).mpr ⟨hallowed, hsrc⟩) hin

/-- A node that no route has reached is visited without effect. -/
theorem Visit.unreached (hrank : rank best k = none) : Visit src dst weight allowed bound k best best :=
  ⟨fun n => Or.inl rfl, fun edge _ _ _ r' hr' => by rw [hrank] at hr'; cases hr'⟩

end Offers

/-! ## Tables -/

section Table

variable {bound k n : Nat} {best best' : Nat → Option (Nat × E)} {es : List E} {edge : E}

theorem Table.start : Table src dst weight allowed bound 0 fun _ => none :=
  ⟨fun n r edge h => (by cases h), fun edge _ hlt => absurd hlt (Nat.not_lt_zero _)⟩

/-- A visit leaves the nodes up to its own as they are. -/
theorem Visit.rank_eq (hforward : ∀ edge, allowed edge → src edge < dst edge)
    (h : Visit src dst weight allowed bound k best best') (hn : n ≤ k) : rank best' n = rank best n := by
  rcases h.change n with hsame | ⟨_, edge, hallowed, hsrc, hdst, _⟩
  · rw [rank, rank, hsame]
  · have hlt := hforward edge hallowed
    omega

/-- The pass goes on by a visit. -/
theorem Table.step (hforward : ∀ edge, allowed edge → src edge < dst edge)
    (h : Table src dst weight allowed bound k best) (hvisit : Visit src dst weight allowed bound k best best') :
    Table src dst weight allowed bound (k + 1) best' := by
  have hrank : ∀ n, n ≤ k → rank best' n = rank best n := fun n => hvisit.rank_eq hforward
  refine ⟨fun n r edge hbest => ?_, fun edge hallowed hsrc hdst r' hr' => ?_⟩
  · rcases hvisit.change n with hsame | ⟨r', taken, hallowed, hsrc, hdst, hk, hnew, _⟩
    · rw [hsame] at hbest
      obtain ⟨hallowed, hsrc, hdst, r', hr', hr⟩ := h.entry n r edge hbest
      exact ⟨hallowed, by omega, hdst, r', by rw [hrank _ (by omega), hr'], hr⟩
    · rw [hnew] at hbest
      obtain ⟨rfl, rfl⟩ := Prod.mk.inj (some.inj hbest)
      exact ⟨hallowed, by omega, hdst, r', by rw [hsrc, hrank k (Nat.le_refl k), hk], rfl⟩
  · rcases Nat.lt_succ_iff_lt_or_eq.mp hsrc with hlt | heq
    · rw [hrank _ (by omega)] at hr'
      obtain ⟨r, found, hbest, hle⟩ := h.least edge hallowed hlt hdst r' hr'
      rcases hvisit.change (dst edge) with hsame | ⟨r₁, taken, _, _, _, _, hnew, hbetter⟩
      · exact ⟨r, found, hsame.trans hbest, hle⟩
      · have hlower := hbetter _ hbest
        dsimp only at hlower
        exact ⟨_, _, hnew, Or.inl (by omega)⟩
    · rw [hrank _ (by omega), heq] at hr'
      obtain ⟨r, found, hbest, hle⟩ := hvisit.taken edge hallowed heq hdst r' hr'
      refine ⟨r, found, hbest, ?_⟩
      rcases Nat.lt_or_eq_of_le hle with hlower | hequal
      · exact Or.inl hlower
      · -- the entry is no later than the edges of the last node visited
        refine Or.inr ⟨hequal, ?_⟩
        rcases hvisit.change (dst edge) with hsame | ⟨_, taken, _, hsrc', _, _, hnew, _⟩
        · rw [hsame] at hbest
          have hearlier := (h.entry _ _ _ hbest).2.1
          omega
        · rw [hnew] at hbest
          obtain ⟨_, rfl⟩ := Prod.mk.inj (some.inj hbest)
          omega

/-- The route a table records to a node, read back from its last edge. -/
def trace (src : E → Nat) (best : Nat → Option (Nat × E)) : Nat → Nat → List E
  | 0, _ => []
  | fuel + 1, n =>
    if n = 0 then []
    else
      match best n with
      | some (_, edge) => trace src best fuel (src edge) ++ [edge]
      | none => []

variable (hforward : ∀ edge, allowed edge → src edge < dst edge)
include hforward

/-- The recorded route is one of allowed edges, and has the weight that the table says. -/
theorem Table.trace_spec (h : Table src dst weight allowed bound k best) :
    ∀ {fuel n r : Nat}, n ≤ fuel → rank best n = some r →
      Route src dst allowed 0 n (trace src best fuel n) ∧ total weight (trace src best fuel n) = r
  | 0, n, r, hn, hrank => by
    obtain rfl : n = 0 := by omega
    obtain rfl := some.inj hrank
    exact ⟨.nil 0, rfl⟩
  | fuel + 1, n, r, hn, hrank => by
    unfold trace
    by_cases hzero : n = 0
    · subst hzero
      obtain rfl := some.inj hrank
      exact ⟨.nil 0, rfl⟩
    rw [rank, if_neg hzero] at hrank
    obtain ⟨⟨w, edge⟩, hentry, rfl⟩ := map_eq_some_iff.mp hrank
    obtain ⟨hallowed, _, hdst, r', hr', hw⟩ := h.entry n w edge hentry
    have hlt := hforward edge hallowed
    obtain ⟨hroute, htotal⟩ := h.trace_spec (show src edge ≤ fuel by omega) hr'
    rw [if_neg hzero, hentry]
    dsimp only
    refine ⟨?_, ?_⟩
    · rw [← hdst]
      exact hroute.concat hallowed rfl
    · rw [total_append, total_singleton, htotal, hw]

/-- No route is lighter than the table says. -/
theorem Table.le_total (h : Table src dst weight allowed bound bound best) :
    ∀ {es : List E} {n : Nat}, Route src dst allowed 0 n es → n ≤ bound →
      ∃ r, rank best n = some r ∧ r ≤ total weight es := by
  intro es
  induction es using reverseRecOn with
  | nil =>
    intro n hroute _
    cases hroute
    exact ⟨0, if_pos rfl, Nat.zero_le _⟩
  | append_singleton es edge ih =>
    intro n hroute hn
    obtain ⟨hfront, hallowed, rfl⟩ := hroute.of_concat
    have hlt := hforward edge hallowed
    obtain ⟨r', hr', hle⟩ := ih hfront (by omega)
    obtain ⟨r, found, hbest, hleast⟩ := h.least edge hallowed (by omega) hn r' hr'
    refine ⟨r, by rw [rank, if_neg (by omega), hbest]; rfl, ?_⟩
    rw [total_append, total_singleton]
    omega

/-- Where a route is as light as the table says, the table's last edge comes from a node no later
than the last edge of the route. -/
theorem Table.first_source (h : Table src dst weight allowed bound bound best) {last : E}
    (hroute : Route src dst allowed 0 n (es ++ [last])) (hn : n ≤ bound) {r : Nat} (hbest : best n = some (r, edge))
    (hr : total weight (es ++ [last]) ≤ r) : src edge ≤ src last := by
  obtain ⟨hfront, hallowed, rfl⟩ := hroute.of_concat
  have hlt := hforward last hallowed
  obtain ⟨r', hr', hle⟩ := h.le_total hforward hfront (by omega)
  obtain ⟨r₁, found, hfound, hleast⟩ := h.least last hallowed (by omega) hn r' hr'
  rw [hbest] at hfound
  obtain ⟨rfl, rfl⟩ := Prod.mk.inj (some.inj hfound)
  rw [total_append, total_singleton] at hr
  omega

end Table

end Oxpinyin.Lightest
