import Mathlib.Algebra.BigOperators.Fin
import Mathlib.Data.BitVec
import Oxpinyin.Lib.Margins
import Oxpinyin.PhraseLibrary

/-!
# The totals of a library facade

A facade holds up to sixteen phrase libraries. It keeps the sum of their stored totals, in 32 bits, and
a bit for each library that has items, so that a query need not visit the libraries. Five operations
change what is loaded, and each keeps the two by itself : a load that finds the slot taken refuses, one
over the heap replaces, and what is replaced, unloaded or taken is subtracted.

Over libraries whose layout was accepted the total and the bits are those of the libraries that are
loaded (`Counted`), after any run (`counted_run`).
-/

namespace Oxpinyin

open List Option Function ChunkFile LittleEndian Margins Run BitVec Bool

/-- Whether the library stores any item content. -/
def ChunkFile.PhraseLibrary.hasItems (library : PhraseLibrary) : Bool :=
  library.content.1 < library.content.2

variable {library : PhraseLibrary}

/-- An item stands in the content. -/
theorem ChunkFile.PhraseLibrary.hasItems_of_itemAtSlot {slot : Nat}
    {view : PhraseItemView} (h : library.itemAtSlot slot = some view) : library.hasItems = true := by
  unfold itemAtSlot at h
  obtain ⟨word, _, h⟩ := bind_eq_some_iff.mp h
  dsimp only at h
  split_ifs at h with hzero
  obtain ⟨content, hcontent, h⟩ := bind_eq_some_iff.mp h
  split_ifs at h with hlength
  obtain ⟨_, _, _, _, hend⟩ := range?_eq_some_iff.mp hcontent
  exact decide_eq_true (by omega)

/-! ## The facade -/

section

variable (Path : Type)

/-- A loaded library and the file it came from. -/
structure Loaded where
  library : PhraseLibrary
  path : Path

/-- The phrase libraries by nibble, the sum of their totals, and the bits of those with items. -/
structure LibraryFacade where
  byNibble : Fin 16 → Option (Loaded Path)
  total : BitVec 32
  stocked : BitVec 32

end

variable {Path : Type}

namespace LibraryFacade

/-- No library is loaded. -/
def empty : LibraryFacade Path := ⟨fun _ => none, 0, 0⟩

variable (facade : LibraryFacade Path)

/-- The bit of a library. -/
def bit (slot : Fin 16) : BitVec 32 := 1#32 <<< slot.val

/-- The slot of a nibble. -/
def slotOf (nibble : BitVec 8) : Option (Fin 16) :=
  if h : nibble.toNat < 16 then some ⟨nibble.toNat, h⟩ else none

/-- Loads a file that opening it made a library of, or failed to. -/
def load (nibble : BitVec 8) (path : Path) (opened : Except LibraryError PhraseLibrary) :
    Except LibraryError Bool × LibraryFacade Path :=
  match slotOf nibble with
  | none => (.error ⟨"library nibble " ++ toString nibble.toNat ++ " out of range"⟩, facade)
  | some slot =>
    if (facade.byNibble slot).isSome then (.ok false, facade)
    else
      match opened with
      | .error error => (.error error, facade)
      | .ok library =>
        (.ok true,
          { byNibble := Function.update facade.byNibble slot (some ⟨library, path⟩)
            total := if library.layoutFailed then facade.total else facade.total + library.totalFreq
            stocked := if library.hasItems then facade.stocked ||| bit slot else facade.stocked })

/-- Puts a library into a slot, in the place of what is there. -/
def install (slot : Fin 16) (path : Path) (library : PhraseLibrary) : LibraryFacade Path :=
  let total := (facade.byNibble slot).elim facade.total fun old => facade.total - old.library.totalFreq
  { byNibble := Function.update facade.byNibble slot (some ⟨library, path⟩)
    total := if library.layoutFailed then total else total + library.totalFreq
    stocked := if library.hasItems then facade.stocked ||| bit slot else facade.stocked &&& ~~~bit slot }

/-- Loads a file over what is loaded. The file is read first. -/
def loadHeap (nibble : BitVec 8) (path : Path) (opened : Except LibraryError PhraseLibrary) :
    Except LibraryError Bool × LibraryFacade Path :=
  match opened with
  | .error error => (.error error, facade)
  | .ok library =>
    match slotOf nibble with
    | none => (.error ⟨"library nibble out of range"⟩, facade)
    | some slot => (.ok true, facade.install slot path library)

/-- Takes what a slot has. -/
def clear (slot : Fin 16) (loaded : Loaded Path) : LibraryFacade Path :=
  { byNibble := Function.update facade.byNibble slot none
    total := facade.total - loaded.library.totalFreq
    stocked := facade.stocked &&& ~~~bit slot }

/-- What a nibble has loaded, and its slot. -/
def loadedAt (nibble : BitVec 8) : Option (Fin 16 × Loaded Path) :=
  (slotOf nibble).bind fun slot => (facade.byNibble slot).map (Prod.mk slot)

def unload (nibble : BitVec 8) : Bool × LibraryFacade Path :=
  match facade.loadedAt nibble with
  | none => (false, facade)
  | some (slot, loaded) => (true, facade.clear slot loaded)

/-- Installs an opened library. A nibble out of range is ignored. -/
def insertMapping (nibble : BitVec 8) (path : Path) (library : PhraseLibrary) : LibraryFacade Path :=
  (slotOf nibble).elim facade fun slot => facade.install slot path library

def takeMapping (nibble : BitVec 8) : Option (Path × PhraseLibrary) × LibraryFacade Path :=
  match facade.loadedAt nibble with
  | none => (none, facade)
  | some (slot, loaded) => (some (loaded.path, loaded.library), facade.clear slot loaded)

def unigramTotal : BitVec 32 := facade.total

/-- Whether a library outside of the mask has items. -/
def hasItemsUnloaded (unloaded : BitVec 32) : Bool := facade.stocked &&& ~~~unloaded ≠ 0#32

/-- The total without the libraries of the mask, one set bit after the other. -/
def unigramTotalUnloaded (unloaded : BitVec 32) : BitVec 32 :=
  ((List.finRange 16).filter fun slot : Fin 16 => unloaded.getLsbD slot).foldl
    (fun total slot => (facade.byNibble slot).elim total fun loaded => total - loaded.library.totalFreq)
    facade.unigramTotal

end LibraryFacade

open LibraryFacade

/-! ## What the totals are -/

/-- What a slot adds to the total. -/
def slotTotal (loaded : Option (Loaded Path)) : BitVec 32 := loaded.elim 0 fun loaded => loaded.library.totalFreq

/-- Whether a slot has items. -/
def slotHasItems (loaded : Option (Loaded Path)) : Bool := loaded.any fun loaded => loaded.library.hasItems

/-- The total and the bits are those of what is loaded, and no layout failed. -/
structure Counted (facade : LibraryFacade Path) : Prop where
  accepted : ∀ slot, (facade.byNibble slot).all fun loaded => !loaded.library.layoutFailed
  total : facade.total = ∑ slot, slotTotal (facade.byNibble slot)
  stocked : ∀ i, facade.stocked.getLsbD i =
    if h : i < 16 then slotHasItems (facade.byNibble ⟨i, h⟩) else false

namespace LibraryFacade

theorem getLsbD_bit (slot : Fin 16) (i : Nat) : (bit slot).getLsbD i = decide (i = slot.val) := by
  have := slot.isLt
  rw [bit, getLsbD_shiftLeft, getLsbD_one, Bool.eq_iff_iff]
  simp
  omega

theorem getLsbD_or_bit (stocked : BitVec 32) (slot : Fin 16) (i : Nat) :
    (stocked ||| bit slot).getLsbD i = if i = slot.val then true else stocked.getLsbD i := by
  rw [getLsbD_or, getLsbD_bit]
  by_cases h : i = slot.val <;> simp [h]

theorem getLsbD_and_not_bit (stocked : BitVec 32) (slot : Fin 16) (i : Nat) :
    (stocked &&& ~~~bit slot).getLsbD i = if i = slot.val then false else stocked.getLsbD i := by
  rw [getLsbD_and, getLsbD_not, getLsbD_bit]
  by_cases h : i = slot.val
  · simp [h]
  · rw [if_neg h, decide_eq_false h, Bool.not_false, Bool.and_true, Bool.and_eq_left_iff_imp]
    exact fun hi => decide_eq_true (lt_of_getLsbD hi)

end LibraryFacade

open LibraryFacade

theorem counted_empty : Counted (empty : LibraryFacade Path) where
  accepted _ := rfl
  total := by simp [empty, slotTotal]
  stocked i := by simp [empty, slotHasItems]

/-- One slot changes, and its part of the total and its bit with it. -/
theorem Counted.put {facade next : LibraryFacade Path} (h : Counted facade) (slot : Fin 16)
    {new : Option (Loaded Path)} (hnew : new.all fun loaded => !loaded.library.layoutFailed)
    (hslots : next.byNibble = update facade.byNibble slot new)
    (htotal : next.total + slotTotal (facade.byNibble slot) = facade.total + slotTotal new)
    (hstocked : ∀ i, next.stocked.getLsbD i =
      if i = slot.val then slotHasItems new else facade.stocked.getLsbD i) : Counted next where
  accepted other := by
    rw [hslots]
    by_cases heq : other = slot
    · rw [heq, update_self]
      exact hnew
    · rw [update_of_ne heq]
      exact h.accepted other
  total := by
    have hsum := sum_update (fun slot => slotTotal (facade.byNibble slot)) slot (slotTotal new)
    have hupdate : (fun other => slotTotal (next.byNibble other)) =
        update (fun slot => slotTotal (facade.byNibble slot)) slot (slotTotal new) := by
      rw [hslots]
      exact comp_update slotTotal facade.byNibble slot new
    rw [h.total, ← hsum, ← hupdate] at htotal
    exact add_right_cancel htotal
  stocked i := by
    rw [hstocked, h.stocked, hslots]
    split_ifs with heq hlt hlt
    · subst heq
      rw [update_self]
    · exact absurd (heq ▸ slot.isLt) hlt
    · rw [update_of_ne fun hsame => heq (congrArg Fin.val hsame)]
    · rfl

section

variable {facade : LibraryFacade Path} (h : Counted facade)
include h

theorem Counted.install (slot : Fin 16) (path : Path) (hlibrary : library.layoutFailed = false) :
    Counted (facade.install slot path library) := by
  refine @Counted.put Path facade _ h slot (some ⟨library, path⟩) (by simp [hlibrary]) rfl ?_ fun i => ?_
  · unfold LibraryFacade.install slotTotal
    rw [hlibrary]
    cases facade.byNibble slot with
    | none => simp
    | some old =>
      simp only [elim_some, false_eq_true, if_false]
      abel
  · unfold LibraryFacade.install slotHasItems
    rw [any_some]
    cases hitems : library.hasItems with
    | true => exact getLsbD_or_bit facade.stocked slot i
    | false => exact getLsbD_and_not_bit facade.stocked slot i

theorem Counted.clear {slot : Fin 16} {loaded : Loaded Path} (hloaded : facade.byNibble slot = some loaded) :
    Counted (facade.clear slot loaded) := by
  refine @Counted.put Path facade _ h slot none rfl rfl ?_ fun i => getLsbD_and_not_bit facade.stocked slot i
  rw [hloaded]
  simp [LibraryFacade.clear, slotTotal]

/-- A load keeps the count. -/
theorem Counted.load (nibble : BitVec 8) (path : Path) {opened : Except LibraryError PhraseLibrary}
    (hopened : ∀ library, opened = .ok library → library.layoutFailed = false) :
    Counted (facade.load nibble path opened).2 := by
  unfold LibraryFacade.load
  split
  · exact h
  · rename_i slot _
    split_ifs with hloaded
    · exact h
    · split
      · exact h
      · rename_i library
        have hlibrary := hopened library rfl
        have hfree : facade.byNibble slot = none := not_isSome_iff_eq_none.mp hloaded
        refine @Counted.put Path facade _ h slot (some ⟨library, path⟩) (by simp [hlibrary]) rfl ?_ fun i => ?_
        · rw [hfree]
          simp [slotTotal, hlibrary]
        · unfold slotHasItems
          dsimp only
          rw [any_some]
          split_ifs with hitems heq heq
          · rw [getLsbD_or_bit, if_pos heq, hitems]
          · rw [getLsbD_or_bit, if_neg heq]
          · -- the bit of a free slot is clear already
            have hclear := h.stocked slot.val
            rw [dif_pos slot.isLt, Fin.eta, hfree] at hclear
            rw [heq, hclear, eq_false_iff.mpr hitems]
            rfl
          · rfl

end

theorem loadedAt_eq_some {facade : LibraryFacade Path} {nibble : BitVec 8} {slot : Fin 16}
    {loaded : Loaded Path} (h : facade.loadedAt nibble = some (slot, loaded)) :
    slotOf nibble = some slot ∧ facade.byNibble slot = some loaded := by
  obtain ⟨slot', hslot, h⟩ := bind_eq_some_iff.mp h
  obtain ⟨loaded', hloaded, h⟩ := map_eq_some_iff.mp h
  obtain ⟨rfl, rfl⟩ := Prod.mk.inj h
  exact ⟨hslot, hloaded⟩

section

variable {facade : LibraryFacade Path} (h : Counted facade) (nibble : BitVec 8)
include h

theorem Counted.loadHeap (path : Path) {opened : Except LibraryError PhraseLibrary}
    (hopened : ∀ library, opened = .ok library → library.layoutFailed = false) :
    Counted (facade.loadHeap nibble path opened).2 := by
  unfold LibraryFacade.loadHeap
  split
  · exact h
  · rename_i library
    split
    · exact h
    · exact h.install _ path (hopened library rfl)

theorem Counted.unload : Counted (facade.unload nibble).2 := by
  unfold LibraryFacade.unload
  split
  · exact h
  · rename_i hat
    exact h.clear (loadedAt_eq_some hat).2

theorem Counted.insertMapping (path : Path) (hlibrary : library.layoutFailed = false) :
    Counted (facade.insertMapping nibble path library) := by
  unfold LibraryFacade.insertMapping
  cases slotOf nibble with
  | none => exact h
  | some slot => exact h.install slot path hlibrary

theorem Counted.takeMapping : Counted (facade.takeMapping nibble).2 := by
  unfold LibraryFacade.takeMapping
  split
  · exact h
  · rename_i hat
    exact h.clear (loadedAt_eq_some hat).2

end

/-! ## Queries -/

/-- The loaded libraries outside of a mask. -/
def outside (facade : LibraryFacade Path) (unloaded : BitVec 32) (slot : Fin 16) : Option (Loaded Path) :=
  if unloaded.getLsbD slot then none else facade.byNibble slot

/-- Unloads the libraries of a mask. -/
def unloadMasked (facade : LibraryFacade Path) (unloaded : BitVec 32) : LibraryFacade Path :=
  ((List.finRange 16).filter fun slot : Fin 16 => unloaded.getLsbD slot).foldl
    (fun facade (slot : Fin 16) => (facade.unload (BitVec.ofNat 8 slot)).2) facade

/-- The bits outside of a mask. -/
theorem Counted.hasItemsUnloaded_iff {facade : LibraryFacade Path} (h : Counted facade) (unloaded : BitVec 32) :
    facade.hasItemsUnloaded unloaded = true ↔
      ∃ slot loaded, outside facade unloaded slot = some loaded ∧ loaded.library.hasItems = true := by
  have hbit : ∀ i, (facade.stocked &&& ~~~unloaded).getLsbD i = true ↔
      ∃ hi : i < 16, slotHasItems (outside facade unloaded ⟨i, hi⟩) = true := by
    intro i
    rw [getLsbD_and, getLsbD_not, h.stocked]
    by_cases hi : i < 16
    · have : i < 32 := by omega
      unfold outside
      rw [dif_pos hi, decide_eq_true this, Bool.true_and, exists_prop_of_true hi]
      dsimp only
      cases unloaded.getLsbD i with
      | true => simp [slotHasItems]
      | false => simp
    · simp [hi]
  rw [hasItemsUnloaded, decide_eq_true_iff]
  constructor
  · intro hne
    obtain ⟨i, hi⟩ : ∃ i, (facade.stocked &&& ~~~unloaded).getLsbD i = true := by
      by_contra hnone
      refine hne (eq_of_getLsbD_eq fun i _ => ?_)
      rw [getLsbD_zero, eq_false_iff]
      exact fun hi => hnone ⟨i, hi⟩
    obtain ⟨hlt, hitems⟩ := (hbit i).mp hi
    obtain ⟨loaded, hloaded, hitems⟩ := (Option.any_eq_true _ _).mp hitems
    exact ⟨⟨i, hlt⟩, loaded, hloaded, hitems⟩
  · rintro ⟨slot, loaded, hloaded, hitems⟩ hzero
    have := (hbit slot).mpr ⟨slot.isLt, by rw [Fin.eta, hloaded]; exact hitems⟩
    rw [hzero, getLsbD_zero] at this
    cases this

/-- Subtracting one library after the other. -/
theorem foldl_sub_slotTotal (byNibble : Fin 16 → Option (Loaded Path)) :
    ∀ (slots : List (Fin 16)) (total : BitVec 32),
      slots.foldl (fun total slot => (byNibble slot).elim total fun loaded => total - loaded.library.totalFreq)
        total = total - (slots.map fun slot => slotTotal (byNibble slot)).sum
  | [], total => by simp
  | slot :: slots, total => by
    rw [foldl_cons, foldl_sub_slotTotal byNibble slots, map_cons, sum_cons]
    cases byNibble slot with
    | none => simp [slotTotal]
    | some loaded =>
      simp only [elim_some, slotTotal]
      abel

/-- What is left of a sum without the elements of a property. -/
theorem sum_sub_filter {α μ : Type*} [AddCommGroup μ] (p : α → Bool) (f : α → μ) (l : List α) :
    (l.map f).sum - ((l.filter p).map f).sum = (l.map fun x => if p x then 0 else f x).sum := by
  induction l with
  | nil => simp
  | cons x l ih =>
    rw [map_cons, sum_cons, map_cons, sum_cons, ← ih, filter_cons]
    split_ifs
    · rw [map_cons, sum_cons]
      abel
    · abel

theorem Counted.unigramTotalUnloaded_eq {facade : LibraryFacade Path} (h : Counted facade) (unloaded : BitVec 32) :
    facade.unigramTotalUnloaded unloaded = ∑ slot, slotTotal (outside facade unloaded slot) := by
  rw [unigramTotalUnloaded, foldl_sub_slotTotal, unigramTotal, h.total,
    Fin.sum_univ_def, Fin.sum_univ_def, sum_sub_filter]
  refine congrArg List.sum (map_congr_left fun slot _ => ?_)
  rw [outside, apply_ite slotTotal]
  rfl

theorem byNibble_unload (facade : LibraryFacade Path) (slot : Fin 16) :
    (facade.unload (BitVec.ofNat 8 slot)).2.byNibble = update facade.byNibble slot none := by
  have hslot : slotOf (BitVec.ofNat 8 slot) = some slot := by
    have hlt := slot.isLt
    have hnat : (BitVec.ofNat 8 slot).toNat = slot.val := Nat.mod_eq_of_lt (by omega)
    simp [slotOf, hnat]
  unfold unload loadedAt
  rw [hslot, bind_some]
  cases hloaded : facade.byNibble slot with
  | none =>
    rw [← hloaded, update_eq_self, hloaded]
    rfl
  | some loaded => rfl

theorem byNibble_unloadMasked (facade : LibraryFacade Path) (unloaded : BitVec 32) :
    (unloadMasked facade unloaded).byNibble = outside facade unloaded := by
  have hfold : ∀ (slots : List (Fin 16)) (facade : LibraryFacade Path) (slot : Fin 16),
      (slots.foldl (fun facade (slot : Fin 16) => (facade.unload (BitVec.ofNat 8 slot)).2) facade).byNibble slot =
        if slot ∈ slots then none else facade.byNibble slot := by
    intro slots
    induction slots with
    | nil => simp
    | cons first slots ih =>
      intro facade slot
      rw [foldl_cons, ih, byNibble_unload, update_apply]
      by_cases hin : slot ∈ slots
      · simp [hin]
      · simp [hin]
  funext slot
  rw [unloadMasked, hfold, outside]
  simp

theorem Counted.unloadMasked {facade : LibraryFacade Path} (h : Counted facade) (unloaded : BitVec 32) :
    Counted (unloadMasked facade unloaded) := by
  unfold Oxpinyin.unloadMasked
  generalize (List.finRange 16).filter (fun slot : Fin 16 => unloaded.getLsbD slot) = slots
  induction slots generalizing facade with
  | nil => exact h
  | cons slot slots ih => exact ih (h.unload _)

theorem toNat_sum {ι : Type*} (s : Finset ι) (f : ι → BitVec 32) :
    (∑ i ∈ s, f i).toNat = (∑ i ∈ s, (f i).toNat) % 2 ^ 32 := by
  classical
  induction s using Finset.induction_on with
  | empty => rfl
  | insert i s hi ih =>
    rw [Finset.sum_insert hi, Finset.sum_insert hi, toNat_add, ih, Nat.add_mod_mod]

/-! ## Runs -/

/-- A call that changes what is loaded. A load comes with what opening its file gives. -/
inductive FacadeOp (Path : Type) where
  | load (nibble : BitVec 8) (path : Path) (opened : Except LibraryError PhraseLibrary)
  | loadHeap (nibble : BitVec 8) (path : Path) (opened : Except LibraryError PhraseLibrary)
  | unload (nibble : BitVec 8)
  | insertMapping (nibble : BitVec 8) (path : Path) (library : PhraseLibrary)
  | takeMapping (nibble : BitVec 8)

namespace FacadeOp

/-- The facade after a call. -/
def apply (facade : LibraryFacade Path) : FacadeOp Path → LibraryFacade Path
  | load nibble path opened => (facade.load nibble path opened).2
  | loadHeap nibble path opened => (facade.loadHeap nibble path opened).2
  | unload nibble => (facade.unload nibble).2
  | insertMapping nibble path library => facade.insertMapping nibble path library
  | takeMapping nibble => (facade.takeMapping nibble).2

/-- The library a call brings has an accepted layout. -/
def Accepted : FacadeOp Path → Prop
  | load _ _ opened | loadHeap _ _ opened => ∀ library, opened = .ok library → library.layoutFailed = false
  | insertMapping _ _ library => library.layoutFailed = false
  | unload _ | takeMapping _ => True

end FacadeOp

theorem Counted.apply {facade : LibraryFacade Path} (h : Counted facade) {op : FacadeOp Path}
    (hop : op.Accepted) : Counted (op.apply facade) := by
  cases op with
  | load nibble path opened => exact h.load nibble path hop
  | loadHeap nibble path opened => exact h.loadHeap nibble path hop
  | unload nibble => exact h.unload nibble
  | insertMapping nibble path library => exact h.insertMapping nibble path hop
  | takeMapping nibble => exact h.takeMapping nibble

/-- After any calls, failed and refused ones among them, the totals are those of what is loaded. -/
theorem counted_run {ops : List (FacadeOp Path)} (hops : ∀ op ∈ ops, op.Accepted) :
    ∀ facade ∈ states FacadeOp.apply (empty : LibraryFacade Path) ops, Counted facade := by
  exact @forall_states _ _ FacadeOp.apply Counted (fun _ op => op.Accepted) (fun _ _ h hop => h.apply hop) _ _
    counted_empty (along_of_mem hops)

/-- In every state of a run the total is the sum of the loaded totals in 32 bits; a library outside of a
mask has items exactly when the bits say so, and a readable item shows in them; the total without a mask
is the one that unloading the libraries of the mask leaves. Where no item content is without an item,
the bits say which libraries have a readable item. -/
theorem facade_totals {ops : List (FacadeOp Path)} (hops : ∀ op ∈ ops, op.Accepted)
    {facade : LibraryFacade Path} (hfacade : facade ∈ states FacadeOp.apply empty ops) :
    facade.unigramTotal.toNat = (∑ slot, (slotTotal (facade.byNibble slot)).toNat) % 2 ^ 32 ∧
    ∀ unloaded : BitVec 32,
      (facade.hasItemsUnloaded unloaded = true ↔
        ∃ slot loaded, outside facade unloaded slot = some loaded ∧ loaded.library.hasItems = true) ∧
      (∀ slot loaded item, outside facade unloaded slot = some loaded →
        (∃ index, loaded.library.itemAtSlot index = some item) → facade.hasItemsUnloaded unloaded = true) ∧
      ((∀ slot loaded, facade.byNibble slot = some loaded → loaded.library.hasItems = true →
          ∃ index item, loaded.library.itemAtSlot index = some item) →
        (facade.hasItemsUnloaded unloaded = true ↔ ∃ slot loaded index item,
          outside facade unloaded slot = some loaded ∧ loaded.library.itemAtSlot index = some item)) ∧
      facade.unigramTotalUnloaded unloaded = (unloadMasked facade unloaded).unigramTotal ∧
      (unloadMasked facade unloaded).byNibble = outside facade unloaded := by
  have h := counted_run hops facade hfacade
  refine ⟨by rw [unigramTotal, h.total, toNat_sum], fun unloaded => ?_⟩
  have hitems := h.hasItemsUnloaded_iff unloaded
  have hreadable : ∀ slot loaded item, outside facade unloaded slot = some loaded →
      (∃ index, loaded.library.itemAtSlot index = some item) → facade.hasItemsUnloaded unloaded = true :=
    fun slot loaded item hloaded hitem =>
      hitem.elim fun _ hitem => hitems.mpr ⟨slot, loaded, hloaded, PhraseLibrary.hasItems_of_itemAtSlot hitem⟩
  refine ⟨hitems, hreadable, fun hcompact => ⟨fun hsome => ?_, ?_⟩, ?_, byNibble_unloadMasked facade unloaded⟩
  · obtain ⟨slot, loaded, hloaded, hhas⟩ := hitems.mp hsome
    have hslot : facade.byNibble slot = some loaded := by
      unfold outside at hloaded
      split_ifs at hloaded
      exact hloaded
    obtain ⟨index, item, hitem⟩ := hcompact slot loaded hslot hhas
    exact ⟨slot, loaded, index, item, hloaded, hitem⟩
  · rintro ⟨slot, loaded, index, item, hloaded, hitem⟩
    exact hreadable slot loaded item hloaded ⟨index, hitem⟩
  · rw [h.unigramTotalUnloaded_eq, unigramTotal, (h.unloadMasked unloaded).total, byNibble_unloadMasked]

/-- A library of one stored total, with or without item content. -/
def totalLibrary (total : BitVec 32) (stop : Nat) : PhraseLibrary := ⟨[], total, (0, 0), (0, stop), false⟩

/-- A library is replaced by an empty one, a load of its slot is refused, and another library unloaded. -/
def replacingOps : List (FacadeOp Unit) :=
  [.load 1 () (.ok (totalLibrary 5 9)), .insertMapping 1 () (totalLibrary 7 0), .load 1 () (.ok (totalLibrary 9 9)),
    .loadHeap 2 () (.ok (totalLibrary 3 9)), .unload 2, .loadHeap 16 () (.ok (totalLibrary 3 9)), .takeMapping 3]

/-- The total of the empty library is left. -/
theorem facade_totals_replaced : (replacingOps.foldl FacadeOp.apply empty).unigramTotal = 7 ∧
    7 = (∑ slot, (slotTotal ((replacingOps.foldl FacadeOp.apply empty).byNibble slot)).toNat) % 2 ^ 32 := by
  have hops : ∀ op ∈ replacingOps, op.Accepted := by simp [replacingOps, FacadeOp.Accepted, totalLibrary]
  have hlast : replacingOps.foldl FacadeOp.apply empty ∈ states FacadeOp.apply empty replacingOps := by
    simp [states, replacingOps]
  exact ⟨by decide +kernel, (facade_totals hops hlast).1⟩

/-- A payload of one empty slot, with content behind it. -/
def itemlessPayload : Bytes :=
  le32 0 ++ le32 17 ++ le32 22 ++ le32 31 ++ separator :: le32 0 ++ separator :: List.replicate 8 0 ++ [separator]

def itemlessLibrary : PhraseLibrary := ⟨itemlessPayload, 0, (17, 21), (22, 30), false⟩

/-- A library of an accepted layout that has content, and no item. -/
theorem stocked_itemless : PhraseLibrary.fromPayload itemlessPayload = .ok itemlessLibrary ∧
    (∀ slot, itemlessLibrary.itemAtSlot slot = none) ∧
      ([.load 1 () (.ok itemlessLibrary)].foldl FacadeOp.apply empty).hasItemsUnloaded 0 = true := by
  refine ⟨by decide, fun slot => ?_, by decide +kernel⟩
  cases slot with
  | zero => rfl
  | succ slot =>
    have hpast : 21 < (slot + 1) * 4 + 17 + 4 := by omega
    rw [PhraseLibrary.itemAtSlot, PhraseLibrary.slotOffset, itemlessLibrary, if_pos hpast]
    rfl

end Oxpinyin
