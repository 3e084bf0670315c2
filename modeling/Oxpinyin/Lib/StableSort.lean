import Mathlib.Data.List.SplitBy
import Mathlib.Data.List.Perm.Basic

/-!
# Sorting by a comparison

A sort by a comparison is defined on a list when the comparison satisfies the laws of a total order
on the elements of that list (`OrderLaws`), whatever it does elsewhere. `sortBy` is the stable sort;
under the laws its result ascends (`pairwise_sortBy`) and ties keep their order
(`filter_sortBy`). `Grouped` : the runs of equal fields of a sorted list are its groups, and work done run by
run is work done group by group (`Grouped.filter_flatMap`).
-/

namespace Oxpinyin.StableSort

open List

variable {α κ : Type*}

/-- The laws of a total order, on the elements of a list. -/
structure OrderLaws (cmp : α → α → Ordering) (items : List α) : Prop where
  swap : ∀ x ∈ items, ∀ y ∈ items, cmp x y = (cmp y x).swap
  trans : ∀ x ∈ items, ∀ y ∈ items, ∀ z ∈ items,
    (cmp x y).isLE = true → (cmp y z).isLE = true → (cmp x z).isLE = true

/-- The stable sort by a comparison. -/
def sortBy (cmp : α → α → Ordering) (items : List α) : List α :=
  items.mergeSort fun left right => (cmp left right).isLE

/-- The least element of a scan, the first of the tied. -/
def least (cmp : α → α → Ordering) (first : α) (rest : List α) : α :=
  rest.foldl (fun best item => if (cmp item best).isLT then item else best) first

theorem isLE_or_isLE_swap (order : Ordering) : (order.isLE || order.swap.isLE) = true := by
  cases order <;> rfl

theorem isLE_of_isLT {order : Ordering} (h : order.isLT = true) : order.isLE = true := by
  cases order with
  | lt => rfl
  | eq => cases h
  | gt => cases h

namespace OrderLaws

variable {cmp : α → α → Ordering} {items : List α}

/-- The laws of a comparison of keys, over the keyed items. -/
theorem on {compare : κ → κ → Ordering} {key : α → κ} (laws : OrderLaws compare (items.map key)) :
    OrderLaws (fun x y => compare (key x) (key y)) items where
  swap _ hx _ hy := laws.swap _ (mem_map_of_mem hx) _ (mem_map_of_mem hy)
  trans _ hx _ hy _ hz :=
    laws.trans _ (mem_map_of_mem hx) _ (mem_map_of_mem hy) _ (mem_map_of_mem hz)

theorem total (laws : OrderLaws cmp items) {x y : α} (hx : x ∈ items) (hy : y ∈ items) :
    ((cmp x y).isLE || (cmp y x).isLE) = true := by
  rw [laws.swap y hy x hx]
  exact isLE_or_isLE_swap _

/-- The scan ends at an element that no element precedes. -/
theorem least_spec (laws : OrderLaws cmp items) {first : α} {rest : List α} (hfirst : first ∈ items)
    (hrest : rest ⊆ items) :
    least cmp first rest ∈ items ∧ ∀ item ∈ first :: rest, (cmp (least cmp first rest) item).isLE = true := by
  induction rest generalizing first with
  | nil =>
    refine ⟨hfirst, fun item hitem => ?_⟩
    have hself := laws.total hfirst hfirst
    rw [Bool.or_self] at hself
    rw [mem_singleton.mp hitem]
    exact hself
  | cons next rest ih =>
    have hnext := hrest mem_cons_self
    have hlater : rest ⊆ items := fun x hx => hrest (mem_cons_of_mem _ hx)
    have hstep : least cmp first (next :: rest) =
        least cmp (if (cmp next first).isLT then next else first) rest := rfl
    rw [hstep]
    by_cases hlt : (cmp next first).isLT = true
    · rw [if_pos hlt]
      obtain ⟨hin, hle⟩ := ih hnext hlater
      refine ⟨hin, fun item hitem => ?_⟩
      rcases mem_cons.mp hitem with rfl | hitem
      · exact laws.trans _ hin next hnext _ hfirst (hle next mem_cons_self) (isLE_of_isLT hlt)
      · exact hle item hitem
    · rw [if_neg hlt]
      obtain ⟨hin, hle⟩ := ih hfirst hlater
      refine ⟨hin, fun item hitem => ?_⟩
      rcases mem_cons.mp hitem with rfl | hitem
      · exact hle _ mem_cons_self
      · rcases mem_cons.mp hitem with rfl | hitem
        · -- an element that does not precede the least so far follows it
          have hge : (cmp first item).isLE = true := by
            rw [laws.swap first hfirst item hnext]
            cases hcmp : cmp item first with
            | lt => rw [hcmp] at hlt; exact absurd rfl hlt
            | eq => rfl
            | gt => rfl
          exact laws.trans _ hin first hfirst _ hnext (hle first mem_cons_self) hge
        · exact hle item (mem_cons_of_mem _ hitem)

end OrderLaws

/-! ## The sort -/

section

variable {cmp : α → α → Ordering} {items : List α}

theorem sortBy_perm (cmp : α → α → Ordering) (items : List α) : (sortBy cmp items).Perm items :=
  mergeSort_perm items _

/-- The sort of a list is the sort of its elements as elements of it, where the laws hold outright. -/
theorem sortBy_eq_attach (cmp : α → α → Ordering) (items : List α) :
    sortBy cmp items =
      (items.attach.mergeSort fun left right => (cmp left.1 right.1).isLE).map Subtype.val := by
  rw [@List.map_mergeSort _ _ _ (fun left right => (cmp left right).isLE) Subtype.val items.attach
    fun _ _ _ _ => rfl, attach_map_subtype_val]
  rfl

theorem pairwise_sortBy (laws : OrderLaws cmp items) :
    (sortBy cmp items).Pairwise fun left right => (cmp left right).isLE = true := by
  rw [sortBy_eq_attach, pairwise_map]
  exact pairwise_mergeSort
    (fun a b c => laws.trans a.1 a.2 b.1 b.2 c.1 c.2) (fun a b => laws.total a.2 b.2) items.attach

/-- Elements that tie keep their order. -/
theorem filter_sortBy (laws : OrderLaws cmp items) {p : α → Bool}
    (htie : ∀ x ∈ items, ∀ y ∈ items, p x = true → p y = true → (cmp x y).isLE = true) :
    (sortBy cmp items).filter p = items.filter p := by
  have hsub : ((items.attach.filter (p ∘ Subtype.val)).map Subtype.val).Sublist (sortBy cmp items) := by
    rw [sortBy_eq_attach]
    refine List.Sublist.map _ (sublist_mergeSort (fun a b c => laws.trans a.1 a.2 b.1 b.2 c.1 c.2)
      (fun a b => laws.total a.2 b.2) ?_ filter_sublist)
    refine pairwise_of_forall_mem_list fun a ha b hb => ?_
    exact htie a.1 a.2 b.1 b.2 (mem_filter.mp ha).2 (mem_filter.mp hb).2
  rw [← filter_map, attach_map_subtype_val] at hsub
  have hkeep := hsub.filter p
  rw [filter_filter] at hkeep
  simp only [Bool.and_self] at hkeep
  exact (hkeep.eq_of_length (((sortBy_perm cmp items).filter p).length_eq.symm)).symm

end

/-! ## Groups -/

/-- Runs of a list sorted by a field: each is one field's, and the fields of two runs differ. -/
structure Grouped (field : α → κ) (runs : List (List α)) : Prop where
  same : ∀ run ∈ runs, ∀ x ∈ run, ∀ y ∈ run, field x = field y
  apart : runs.Pairwise fun run later => ∀ x ∈ run, ∀ y ∈ later, field x ≠ field y

theorem Grouped.tail {field : α → κ} {run : List α} {runs : List (List α)}
    (h : Grouped field (run :: runs)) : Grouped field runs where
  same later hlater := h.same later (mem_cons_of_mem _ hlater)
  apart := h.apart.of_cons

/-- The runs of equal fields in a list sorted by the field are its groups. -/
theorem grouped_splitBy [BEq κ] [LawfulBEq κ] {field : α → κ} {le : κ → κ → Prop}
    (hantisymm : ∀ u v, le u v → le v u → u = v) {items : List α}
    (hsorted : items.Pairwise fun x y => le (field x) (field y)) :
    Grouped field (items.splitBy fun x y => field x == field y) := by
  have hsame : ∀ run ∈ items.splitBy fun x y => field x == field y,
      ∀ x ∈ run, ∀ y ∈ run, field x = field y := by
    intro run hrun x hx y hy
    have hchain := isChain_of_mem_splitBy hrun
    have htrans : IsTrans α fun x y => field x = field y := ⟨by intro x y z hxy hyz; exact hxy.trans hyz⟩
    have hsymm : Std.Symm fun x y : α => field x = field y := ⟨fun _ _ hxy => Eq.symm hxy⟩
    have hpair : run.Pairwise fun x y => field x = field y := (hchain.imp fun a b hab => beq_iff_eq.mp hab).pairwise
    exact @List.Pairwise.forall_of_forall α (fun x y => field x = field y) run hsymm (fun _ _ => rfl) hpair
      x hx y hy
  refine ⟨hsame, ?_⟩
  have hchain := isChain_getLast_head_splitBy (fun x y => field x == field y) items
  have hflat := flatten_splitBy (fun x y => field x == field y) items
  generalize items.splitBy (fun x y => field x == field y) = runs at hsame hchain hflat
  subst hflat
  induction runs with
  | nil => exact .nil
  | cons run runs ih =>
    rw [flatten_cons, pairwise_append] at hsorted
    refine pairwise_cons.mpr ⟨fun later hlater x hx y hy heq => ?_,
      ih (fun r hr => hsame r (mem_cons_of_mem _ hr)) hchain.tail hsorted.2.1⟩
    cases runs with
    | nil => cases hlater
    | cons next runs =>
      obtain ⟨hne, hne', hdiff⟩ := hchain.rel
      have hx' := hsame run mem_cons_self x hx (run.getLast hne) (getLast_mem hne)
      have hhead : next.head hne' ∈ (next :: runs).flatten := mem_flatten.mpr ⟨next, mem_cons_self, head_mem hne'⟩
      have hbelow : le (field x) (field (next.head hne')) := hsorted.2.2 x hx _ hhead
      -- the head of the next run is the first of everything later
      have habove : le (field (next.head hne')) (field y) ∨ next.head hne' = y := by
        obtain ⟨first, later', rfl⟩ := exists_cons_of_ne_nil hne'
        have hy' : y ∈ (first :: (later' ++ runs.flatten)) := by
          have := mem_flatten.mpr ⟨later, hlater, hy⟩
          rwa [flatten_cons, cons_append] at this
        rcases mem_cons.mp hy' with rfl | hy'
        · exact Or.inr rfl
        · have htail := hsorted.2.1
          rw [flatten_cons, cons_append, pairwise_cons] at htail
          exact Or.inl (htail.1 y hy')
      have hmeet : field x = field (next.head hne') := by
        rcases habove with habove | rfl
        · exact hantisymm _ _ hbelow (heq ▸ habove)
        · exact heq
      rw [← hx', hmeet] at hdiff
      simp at hdiff

/-- Permuting each run by itself, the elements of a field are those of its group permuted. -/
theorem Grouped.filter_flatMap [DecidableEq κ] {field : α → κ} {runs : List (List α)}
    (h : Grouped field runs) {f : List α → List α} (hperm : ∀ run, (f run).Perm run) (k : κ) :
    (runs.flatMap f).filter (fun x => field x = k) = f (runs.flatten.filter fun x => field x = k) := by
  have hnil : f [] = [] := (hperm []).eq_nil
  induction runs with
  | nil => simpa using hnil.symm
  | cons run runs ih =>
    rw [flatMap_cons, filter_append, flatten_cons, filter_append]
    by_cases hhas : ∃ x ∈ run, field x = k
    · obtain ⟨x, hx, rfl⟩ := hhas
      have hall : run.filter (fun y => field y = field x) = run :=
        filter_eq_self.mpr fun y hy => by simpa using h.same run mem_cons_self y hy x hx
      have hall' : (f run).filter (fun y => field y = field x) = f run :=
        filter_eq_self.mpr fun y hy => by
          simpa using h.same run mem_cons_self y ((hperm run).mem_iff.mp hy) x hx
      have hrest : runs.flatten.filter (fun y => field y = field x) = [] := by
        refine filter_eq_nil_iff.mpr fun y hy => ?_
        obtain ⟨later, hlater, hy⟩ := mem_flatten.mp hy
        simpa using ((pairwise_cons.mp h.apart).1 later hlater x hx y hy).symm
      rw [ih h.tail, hall, hall', hrest, hnil, append_nil, append_nil]
    · rw [not_exists] at hhas
      have hnone : run.filter (fun y => field y = k) = [] :=
        filter_eq_nil_iff.mpr fun y hy => by simpa using fun heq => hhas y ⟨hy, heq⟩
      have hnone' : (f run).filter (fun y => field y = k) = [] :=
        filter_eq_nil_iff.mpr fun y hy => by
          simpa using fun heq => hhas y ⟨(hperm run).mem_iff.mp hy, heq⟩
      rw [ih h.tail, hnone, hnone', nil_append, nil_append]

end Oxpinyin.StableSort
