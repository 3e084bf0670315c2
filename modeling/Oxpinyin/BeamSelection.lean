import Oxpinyin.Lib.PartialSort
import Oxpinyin.TrellisReferences

/-!
# Which values a position keeps

`select_top` selects unstably, cuts and sorts what is left. Whatever the sorts do with ties, that is
the front of the full sort by key and batch position. A pinyin node holds the first best value of
those inserted, and behind it the one of the first two that was not the better. Once the pass has
reached a position its slots stay, so every reference made keeps naming its value.
-/

namespace Oxpinyin

open List Std PartialSort Run

variable {ε α β : Type} {ops : FloatOps α β}

/-! ## The key -/

/-- What floats promise of `<` : apart from not-a-number it is a strict weak order. -/
structure FloatOps.Ordered (ops : FloatOps α β) : Prop where
  asymm : ∀ {a b}, ops.lt a b = true → ops.lt b a = false
  negTrans : ∀ {a b c}, ops.isNaN a = false → ops.isNaN b = false → ops.isNaN c = false →
    ops.lt a b = false → ops.lt b c = false → ops.lt a c = false

namespace FloatOps.Ordered

theorem isLE_iff (h : ops.Ordered) {a b : α} : (orderedPossCompare ops a b).isLE = true ↔
    ops.isNaN b = true ∨ ops.isNaN a = false ∧ ops.lt a b = false := by
  rw [orderedPossCompare]
  cases ha : ops.isNaN a <;> cases hb : ops.isNaN b <;> simp
  split_ifs with hba hab
  · simp [h.asymm hba]
  · simp [hab]
  · simpa using hab

/-- Best first is a total preorder. -/
theorem transCmp (h : ops.Ordered) : TransCmp (orderedPossCompare ops) where
  eq_swap {a b} := by
    rw [orderedPossCompare, orderedPossCompare]
    cases ha : ops.isNaN a <;> cases hb : ops.isNaN b <;> simp
    by_cases hab : ops.lt a b = true
    · rw [if_neg (by rw [h.asymm hab]; decide), if_pos hab, if_pos hab]
      rfl
    · rw [if_neg hab, if_neg hab]
      split_ifs <;> rfl
  isLE_trans {a b c} hab hbc := by
    rw [h.isLE_iff] at hab hbc ⊢
    cases hc : ops.isNaN c with
    | true => exact .inl rfl
    | false =>
      obtain ⟨hb, hbc⟩ := hbc.resolve_left (by rw [hc]; decide)
      obtain ⟨ha, hab⟩ := hab.resolve_left (by rw [hb]; decide)
      exact .inr ⟨ha, h.negTrans ha hb hc hab hbc⟩

end FloatOps.Ordered

/-- The key of a selection. -/
def selectionKey (ops : FloatOps α β) (nstore : Nat) : Value α → Value α → Ordering :=
  if nstore = 1 then compareLex (compareOn (·.length)) (Ordering.byKey (·.poss) (orderedPossCompare ops))
  else Ordering.byKey (adjustedPoss ops) (orderedPossCompare ops)

theorem FloatOps.Ordered.transCmp_selectionKey (h : ops.Ordered) (nstore : Nat) :
    TransCmp (selectionKey ops nstore) := by
  have := h.transCmp
  unfold selectionKey
  split_ifs <;> infer_instance

/-- Entries by a key, then by batch position. -/
def entryCompare (key : Value α → Value α → Ordering) : BeamEntry α → BeamEntry α → Ordering :=
  compareLex (Ordering.byKey (·.value) key) (compareOn (·.batchPosition))

instance {key : Value α → Value α → Ordering} [TransCmp key] : TransCmp (entryCompare key) :=
  inferInstanceAs (TransCmp (compareLex _ _))

theorem selectionCompare_eq (ops : FloatOps α β) (nstore : Nat) :
    (fun left right => selectionCompare ops left right nstore) = entryCompare (selectionKey ops nstore) := by
  funext left right
  rw [selectionCompare, entryCompare, compareLex, Ordering.byKey, selectionKey]
  split_ifs
  · exact (Ordering.then_assoc ..).symm
  · rfl

theorem eq_of_entryCompare {key : Value α → Value α → Ordering} {values : List (BeamEntry α)}
    (hpositions : (values.map (·.batchPosition)).Nodup) :
    ∀ a ∈ values, ∀ b ∈ values, entryCompare key a b = .eq → a = b := by
  intro a ha b hb heq
  rw [entryCompare, compareLex_eq_eq] at heq
  exact inj_on_of_nodup_map hpositions ha hb (LawfulEqCmp.eq_of_compare heq.2)

/-! ## The selection -/

namespace BeamEntry

variable (sort : UnstableSort (BeamEntry α))

/-- The body of `select_top`, over the order of the entries. -/
def selectTopBy (compare : BeamEntry α → BeamEntry α → Ordering) (values : List (BeamEntry α)) (count : Nat) :
    List (BeamEntry α) :=
  let count := min count values.length
  if count = 0 then []
  else
    let values :=
      if count < values.length then (sort.selectNthUnstableBy values (count - 1) compare).take count else values
    sort.sortUnstableBy values compare

/-- `select_top`. -/
def selectTop (ops : FloatOps α β) (values : List (BeamEntry α)) (count nstore : Nat) : List (BeamEntry α) :=
  selectTopBy sort (fun left right => selectionCompare ops left right nstore) values count

theorem isFront_selectTopBy (compare : BeamEntry α → BeamEntry α → Ordering) [TransCmp compare]
    (values : List (BeamEntry α)) (count : Nat) :
    IsFront compare values count (selectTopBy sort compare values count) := by
  have hcount : ∀ front, IsFront compare values (min count values.length) front →
      IsFront compare values count front := by
    rintro _ ⟨sorted, hsorted, rfl⟩
    refine ⟨sorted, hsorted, ?_⟩
    rw [← hsorted.perm.length_eq, ← take_eq_take_min]
  refine hcount _ ?_
  rw [selectTopBy]
  dsimp only
  split_ifs with hzero hless
  · rw [hzero]
    exact ⟨_, sorts_mergeSort compare values, rfl⟩
  · have hselects := sort.selects compare values (min count values.length - 1) (by omega)
    have hfront := sort.sorts compare ((sort.selectNthUnstableBy values (min count values.length - 1) compare).take
      (min count values.length))
    rw [show min count values.length = min count values.length - 1 + 1 by omega] at hfront ⊢
    exact hselects.isFront (by omega) hfront
  · rw [show min count values.length = values.length by omega]
    exact (sort.sorts compare values).isFront

variable {values : List (BeamEntry α)}

/-- With one entry a batch position the front is that of the stable sort. -/
theorem selectTopBy_eq (key : Value α → Value α → Ordering) [TransCmp key]
    (hpositions : (values.map (·.batchPosition)).Nodup) (count : Nat) :
    selectTopBy sort (entryCompare key) values count =
      (values.mergeSort fun a b => (entryCompare key a b).isLE).take count :=
  (isFront_selectTopBy sort (entryCompare key) values count).eq_take (sorts_mergeSort _ values)
    (eq_of_entryCompare hpositions)

theorem selectTop_eq (h : ops.Ordered)
    (hpositions : (values.map (·.batchPosition)).Nodup) (count nstore : Nat) :
    selectTop sort ops values count nstore = Oxpinyin.selectTop ops values count nstore := by
  have := h.transCmp_selectionKey nstore
  have hle : (fun left right => selectionCompare ops left right nstore != .gt) =
      fun left right => (entryCompare (selectionKey ops nstore) left right).isLE := by
    rw [← selectionCompare_eq]
    funext left right
    exact Ordering.isLE_eq_not_beq_gt.symm
  rw [selectTop, selectionCompare_eq, selectTopBy_eq sort _ hpositions, Oxpinyin.selectTop, hle]

/-- The candidates of a position are numbered, so the trellis takes that front. -/
theorem selectTop_candidates (h : ops.Ordered) (trellis : Trellis α) (position count nstore : Nat) :
    selectTop sort ops (trellis.candidates position) count nstore =
      Oxpinyin.selectTop ops (trellis.candidates position) count nstore := by
  refine selectTop_eq sort h ?_ count nstore
  rw [Trellis.candidates, map_map]
  exact (zipIdx_map_snd 0 _).symm ▸ nodup_range' ..

end BeamEntry

/-! ## The slots of a node -/

/-- The node a sequence of insertions makes. -/
def Node.keepAll (ops : FloatOps α β) (nstore : Nat) (inserted : List (Value α)) : Node α :=
  inserted.foldl (fun node value => Node.keep ops node value nstore) []

theorem nodeLosesTo_eq (ops : FloatOps α β) (left right : Value α) :
    nodeLosesTo ops left right 2 = (selectionKey ops 2 left right == .gt) := rfl

/-- The first best value of those inserted is in front, and behind it stays the one of the first two that was not. -/
theorem Node.keepAll_eq (h : ops.Ordered) (first second : Value α) (rest : List (Value α)) :
    ∃ best, Node.keepAll ops 2 (first :: second :: rest) =
        [best, if nodeLosesTo ops first second 2 then first else second] ∧
      FirstLeast (selectionKey ops 2) (first :: second :: rest) best := by
  have := h.transCmp_selectionKey 2
  induction rest using List.reverseRecOn with
  | nil =>
    have hfirst : FirstLeast (selectionKey ops 2) [first] first := ⟨[], [], rfl, by simp, by simp⟩
    refine ⟨_, ?_, hfirst.snoc second⟩
    rw [keepAll, foldl_cons, foldl_cons, foldl_nil, keep, keep, nodeLosesTo_eq]
    simp only [and_self, beq_iff_eq, if_true]
    split_ifs <;> rfl
  | append_singleton rest value ih =>
    obtain ⟨best, hnode, hbest⟩ := ih
    refine ⟨_, ?_, hbest.snoc value⟩
    rw [keepAll, ← cons_append, ← cons_append, foldl_append, ← keepAll, hnode, foldl_cons, foldl_nil, keep,
      nodeLosesTo_eq ops best]
    simp only [reduceCtorEq, false_and, beq_iff_eq, if_false]
    split_ifs <;> rfl

/-! ## The slots of the pass -/

section Pass

variable (ops) (dictionary : Dictionary ε) (model : LanguageModel ε α β) (view : GenerationView) (bound : Nat)
  (constraints : Option ConstraintStore) (seeds : List PhraseToken) (shape : NbestShape)

/-- The pass over the first positions. -/
def forwardTo (n : Nat) : Except (EngineError ε) (Trellis α) :=
  (List.range n).foldlM (forwardStep ops dictionary model view bound constraints)
    (Trellis.withSeeds ops bound seeds shape)

variable {ops dictionary model view bound constraints seeds shape}

variable {n m : Nat} {middle : Trellis α}

/-- The steps up to a position the pass has reached stay as they are, by induction on the positions after it. -/
theorem steps_forwardTo (hle : n ≤ m)
    (hmiddle : forwardTo ops dictionary model view bound constraints seeds shape n = .ok middle) :
    ∀ {last : Trellis α}, forwardTo ops dictionary model view bound constraints seeds shape m = .ok last →
      ∀ q ≤ n, last.steps[q]? = middle.steps[q]? := by
  induction m, hle using Nat.le_induction with
  | base =>
    intro last hlast q _
    rw [Except.ok.inj (hlast.symm.trans hmiddle)]
  | succ m hnm ih =>
    intro last hlast q hq
    rw [forwardTo, range_succ, foldlM_append] at hlast
    obtain ⟨before, hbefore, hlast⟩ := bind_eq_ok hlast
    rw [foldlM_cons] at hlast
    obtain ⟨after, hstep, hlast⟩ := bind_eq_ok hlast
    obtain rfl := Except.ok.inj hlast
    rw [((sound_forward_upTo hbefore).forwardStep hstep).frozen q (hq.trans hnm)]
    exact ih hbefore q hq

/-- A reference keeps naming the value it was made from. -/
theorem valueAt_forwardTo (hle : n ≤ m) {last : Trellis α}
    (hmiddle : forwardTo ops dictionary model view bound constraints seeds shape n = .ok middle)
    (hlast : forwardTo ops dictionary model view bound constraints seeds shape m = .ok last) {r : Built α}
    (hr : r ∈ middle.built) : last.valueAt r.value.from_ r.value.prevToken r.value.sub = some r.predecessor := by
  have hsound := sound_forward_upTo hmiddle
  have hrefers := hsound.refers r hr
  rw [hrefers.from_, Trellis.valueAt_congr (steps_forwardTo hle hmiddle hlast r.start (hsound.behind r hr))]
  exact hrefers.reference

end Pass

/-- Over every total preorder of the keys the selection is the front of a full sort by key and batch
position : of the one sort, where no two entries have one position. So is that by the code's key. A node
of two slots holds the first best value inserted and the one of the first two that was not it. No slot of
a position changes once the pass has reached it, nor does any reference lose its value. -/
theorem selectTop_keep_slots (sort : UnstableSort (BeamEntry α)) (h : ops.Ordered) :
    (∀ (key : Value α → Value α → Ordering) [TransCmp key] (values : List (BeamEntry α)) (count : Nat),
      IsFront (entryCompare key) values count (BeamEntry.selectTopBy sort (entryCompare key) values count) ∧
      ((values.map (·.batchPosition)).Nodup → BeamEntry.selectTopBy sort (entryCompare key) values count =
        (values.mergeSort fun a b => (entryCompare key a b).isLE).take count)) ∧
    (∀ (values : List (BeamEntry α)) (count nstore : Nat),
      IsFront (fun left right => selectionCompare ops left right nstore) values count
        (BeamEntry.selectTop sort ops values count nstore)) ∧
    (Node.keepAll ops 2 [] = [] ∧ (∀ value, Node.keepAll ops 2 [value] = [value]) ∧
      ∀ first second rest, ∃ best, Node.keepAll ops 2 (first :: second :: rest) =
          [best, if nodeLosesTo ops first second 2 then first else second] ∧
        FirstLeast (selectionKey ops 2) (first :: second :: rest) best) ∧
    ∀ (dictionary : Dictionary ε) (model : LanguageModel ε α β) (view : GenerationView) (bound : Nat)
      (constraints : Option ConstraintStore) (seeds : List PhraseToken) (shape : NbestShape) (n m : Nat)
      (middle last : Trellis α), n ≤ m →
      forwardTo ops dictionary model view bound constraints seeds shape n = .ok middle →
      forwardTo ops dictionary model view bound constraints seeds shape m = .ok last →
      (∀ q ≤ n, last.steps[q]? = middle.steps[q]?) ∧
      ∀ r ∈ middle.built, last.valueAt r.value.from_ r.value.prevToken r.value.sub = some r.predecessor := by
  refine ⟨fun key _ values count => ?_, fun values count nstore => ?_, ⟨rfl, fun _ => rfl, ?_⟩, ?_⟩
  · exact ⟨BeamEntry.isFront_selectTopBy sort (entryCompare key) values count,
      fun hpositions => BeamEntry.selectTopBy_eq sort key hpositions count⟩
  · have := h.transCmp_selectionKey nstore
    rw [BeamEntry.selectTop, selectionCompare_eq]
    exact BeamEntry.isFront_selectTopBy sort _ values count
  · exact Node.keepAll_eq h
  · intro dictionary model view bound constraints seeds shape n m middle last hle hmiddle hlast
    exact ⟨steps_forwardTo hle hmiddle hlast, fun r hr => valueAt_forwardTo hle hmiddle hlast hr⟩

theorem ordered_fixedPoint : fixedPoint.Ordered where
  asymm h := decide_eq_false (Int.not_lt.mpr (Int.le_of_lt (of_decide_eq_true h)))
  negTrans _ _ _ hab hbc := decide_eq_false <| Int.not_lt.mpr <|
    Int.le_trans (Int.not_lt.mp (of_decide_eq_false hbc)) (Int.not_lt.mp (of_decide_eq_false hab))

/-- Two entries with one possibility, the later one first. -/
def tiedEntries : List (BeamEntry Int) :=
  [⟨Value.seed fixedPoint 7, 0, 1⟩, ⟨Value.seed fixedPoint 8, 0, 0⟩]

/-- Of two that tie the earlier is selected, and the pass over `aa` leaves its seeds in their slots. -/
theorem selectTop_keep_slots_twoColumns : ∃ trellis, twoColumnsPass = .ok trellis ∧
    trellis.steps[0]? = (Trellis.withSeeds fixedPoint 2 [sentenceStart] .pinyin).steps[0]? ∧
    (BeamEntry.selectTopBy .merging (entryCompare (compareOn (·.poss))) tiedEntries 1).map (·.batchPosition) =
    [0] := by
  obtain ⟨trellis, hpass, _⟩ := twoColumnsPass_eq
  have hall := @selectTop_keep_slots Unit Int Int fixedPoint .merging ordered_fixedPoint
  refine ⟨trellis, hpass, ?_, ?_⟩
  · exact (hall.2.2.2 _ _ _ _ _ _ _ 0 2 _ trellis (by decide) rfl hpass).1 0 (Nat.le_refl 0)
  · rw [(hall.1 (compareOn (·.poss)) tiedEntries 1).2 (by decide), tiedEntries, mergeSort,
      MergeSort.Internal.splitInTwo]
    simp [entryCompare, compareLex, compareOn, Ordering.byKey, Value.seed, merge]
    rfl

end Oxpinyin
