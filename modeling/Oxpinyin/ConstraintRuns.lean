import Oxpinyin.Constraint

/-!
# The runs of the constraint store

`RunInvariant` : every forced run lies inside the store with its interior marked, every
mark is inside the one run it points at, and runs are disjoint. The store is a machine over
its operations. Truncation can cut a run in two, and `resize` leaves the half : `Clipped` is
what remains true then. `validate` frees the half unless a probe fails before it gets there.

`runInvariant_iff` : the invariant holds in every state of a run of operations exactly when
no step cuts a run and leaves it.
-/

namespace Oxpinyin

namespace ConstraintStore

open List Run ConstraintStore

/-- The cell at `start` forces a token up to `stop`. -/
def IsRun (cells : ConstraintStore) (start stop : Nat) : Prop :=
  ∃ token text, cells[start]? = some (.oneStep token stop text)

/-- The representation invariant of forced runs. -/
structure RunInvariant (cells : ConstraintStore) : Prop where
  /-- A run ends inside the store. -/
  inside : ∀ start stop, IsRun cells start stop → stop ≤ cells.length
  /-- The interior of a run points at its start. -/
  interior : ∀ start stop, IsRun cells start stop → ∀ i, start < i → i < stop →
    cells[i]? = some (.noSearch start)
  /-- A mark is strictly inside exactly one run, the one it points at. -/
  marked : ∀ i start, cells[i]? = some (.noSearch start) →
    (∃ stop, IsRun cells start stop ∧ start < i ∧ i < stop) ∧
    ∀ start' stop', IsRun cells start' stop' → start' < i → i < stop' → start' = start
  /-- Runs are disjoint. -/
  disjoint : ∀ start stop start' stop', IsRun cells start stop → IsRun cells start' stop' →
    start < start' → stop ≤ start'

/-- What truncation keeps of the invariant : a run may end beyond the store. -/
structure Clipped (cells : ConstraintStore) : Prop where
  /-- A run is not empty. -/
  forward : ∀ start stop, IsRun cells start stop → start < stop
  /-- The part of a run inside the store points at its start. -/
  interior : ∀ start stop, IsRun cells start stop → ∀ i, start < i → i < stop →
    i < cells.length → cells[i]? = some (.noSearch start)
  /-- A mark is inside the run it points at. -/
  marked : ∀ i start, cells[i]? = some (.noSearch start) →
    ∃ stop, IsRun cells start stop ∧ start < i ∧ i < stop

/-- The invariant the operations keep : no run is cut. -/
structure Whole (cells : ConstraintStore) : Prop extends Clipped cells where
  /-- A run ends inside the store. -/
  inside : ∀ start stop, IsRun cells start stop → stop ≤ cells.length

section Invariant

variable {cells : ConstraintStore} {start stop start' stop' i len : Nat}

theorem IsRun.lt_length (h : IsRun cells start stop) : start < cells.length := by
  obtain ⟨token, text, hget⟩ := h
  exact (List.getElem?_eq_some_iff.mp hget).1

theorem IsRun.unique (h : IsRun cells start stop) (h' : IsRun cells start stop') : stop = stop' := by
  obtain ⟨token, text, hget⟩ := h
  obtain ⟨token', text', hget'⟩ := h'
  rw [hget] at hget'
  cases hget'
  rfl

theorem Clipped.not_inside (h : Clipped cells) (hrun : IsRun cells start stop)
    (hrun' : IsRun cells start' stop') (hlt : start < start') : stop ≤ start' := by
  by_contra hgt
  have hmark := h.interior start stop hrun start' hlt (by omega) hrun'.lt_length
  obtain ⟨token, text, hget⟩ := hrun'
  rw [hget] at hmark
  cases hmark

theorem Whole.runInvariant (h : Whole cells) : RunInvariant cells where
  inside := h.inside
  interior start stop hrun i hi hlt :=
    h.interior start stop hrun i hi hlt (Nat.lt_of_lt_of_le hlt (h.inside start stop hrun))
  marked i start hmark := by
    refine ⟨h.marked i start hmark, fun start' stop' hrun' hi hlt => ?_⟩
    have hmark' := h.interior start' stop' hrun' i hi hlt (List.getElem?_eq_some_iff.mp hmark).1
    rw [hmark] at hmark'
    cases hmark'
    rfl
  disjoint start stop start' stop' hrun hrun' hlt := h.toClipped.not_inside hrun hrun' hlt

theorem whole_nil : Whole [] := by
  refine ⟨⟨?_, ?_, ?_⟩, ?_⟩ <;> simp [IsRun]

/-! ## Freeing a run -/

theorem isRun_fill_free (cells : ConstraintStore) (a b : Nat) :
    IsRun (cells.fill a b .free) start stop ↔
      IsRun cells start stop ∧ ¬ (a ≤ start ∧ start < b) := by
  unfold IsRun
  simp only [getElem?_fill]
  constructor
  · rintro ⟨token, text, hget⟩
    split_ifs at hget with hr
    · cases hget
    · exact ⟨⟨token, text, hget⟩, fun hin =>
        hr ⟨hin.1, hin.2, (List.getElem?_eq_some_iff.mp hget).1⟩⟩
  · rintro ⟨⟨token, text, hget⟩, hout⟩
    exact ⟨token, text, by rw [if_neg fun hr => hout ⟨hr.1, hr.2.1⟩, hget]⟩

/-- Freeing a run frees nothing of the others. -/
theorem Clipped.freeRun (h : Clipped cells) (hrun : IsRun cells start stop) :
    Clipped (cells.fill start (min stop cells.length) .free) ∧
    ∀ start' stop', IsRun (cells.fill start (min stop cells.length) .free) start' stop' ↔
      IsRun cells start' stop' ∧ start' ≠ start := by
  have hforward := h.forward start stop hrun
  have hlt := hrun.lt_length
  have hruns : ∀ start' stop',
      IsRun (cells.fill start (min stop cells.length) .free) start' stop' ↔
        IsRun cells start' stop' ∧ start' ≠ start := by
    intro start' stop'
    rw [isRun_fill_free]
    refine and_congr_right fun hrun' => ?_
    constructor
    · rintro hout rfl
      exact hout ⟨Nat.le_refl _, by omega⟩
    · rintro hne ⟨hle, hin⟩
      have := h.not_inside hrun hrun' (by omega)
      omega
  refine ⟨⟨fun start' stop' hrun' => h.forward _ _ ((hruns _ _).mp hrun').1, ?_, ?_⟩, hruns⟩
  · intro start' stop' hrun' i hi hlt' hlen
    obtain ⟨hold, hne⟩ := (hruns _ _).mp hrun'
    rw [length_fill] at hlen
    have hmark := h.interior start' stop' hold i hi hlt' hlen
    rw [getElem?_fill, if_neg, hmark]
    -- A cell of the freed run points at its own start.
    rintro ⟨hle, hin, _⟩
    rcases Nat.eq_or_lt_of_le hle with rfl | hgt
    · obtain ⟨token, text, hget⟩ := hrun
      rw [hget] at hmark
      cases hmark
    · rw [h.interior start stop hrun i hgt (by omega) hlen] at hmark
      cases hmark
      exact hne rfl
  · intro i start' hmark
    rw [getElem?_fill] at hmark
    split_ifs at hmark with hr
    · cases hmark
    · have hlen := (List.getElem?_eq_some_iff.mp hmark).1
      obtain ⟨stop', hrun', hi, hlt'⟩ := h.marked i start' hmark
      refine ⟨stop', (hruns _ _).mpr ⟨hrun', ?_⟩, hi, hlt'⟩
      rintro rfl
      rw [hrun'.unique hrun] at hlt'
      exact hr ⟨by omega, by omega, hlen⟩

theorem Whole.freeRun (h : Whole cells) (hrun : IsRun cells start stop) :
    Whole (cells.fill start (min stop cells.length) .free) := by
  obtain ⟨hclipped, hruns⟩ := h.toClipped.freeRun hrun
  refine ⟨hclipped, fun start' stop' hrun' => ?_⟩
  rw [length_fill]
  exact h.inside start' stop' ((hruns _ _).mp hrun').1

/-! ## The operations on whole runs -/

/-- Clearing by offset changes nothing, or frees the run over the offset. -/
theorem clearByOffset_cases (h : Whole cells) (index : Nat) :
    ((clearByOffset cells index).1 = cells ∧
      (cells[index]? = none ∨ cells[index]? = some .free)) ∨
    ∃ start stop, IsRun cells start stop ∧ start ≤ index ∧ index < stop ∧
      (clearByOffset cells index).1 = cells.fill start (min stop cells.length) .free := by
  unfold clearByOffset
  cases hget : cells[index]? with
  | none => exact Or.inl ⟨rfl, Or.inl rfl⟩
  | some cell =>
    cases cell with
    | free => exact Or.inl ⟨rfl, Or.inr rfl⟩
    | oneStep token stop text =>
      have hrun : IsRun cells index stop := ⟨token, text, hget⟩
      refine Or.inr ⟨index, stop, hrun, Nat.le_refl _, h.forward _ _ hrun, ?_⟩
      simp only [hget]
    | noSearch start =>
      obtain ⟨stop, hrun, hi, hlt⟩ := h.marked index start hget
      refine Or.inr ⟨start, stop, hrun, Nat.le_of_lt hi, hlt, ?_⟩
      obtain ⟨token, text, hrun'⟩ := hrun
      simp only [hrun']

theorem length_clearByOffset (cells : ConstraintStore) (index : Nat) :
    (clearByOffset cells index).1.length = cells.length := by
  unfold clearByOffset
  dsimp only
  split
  · rfl
  · split
    · rw [length_fill]
    · rfl

theorem Whole.clearByOffset (h : Whole cells) (index : Nat) : Whole (clearByOffset cells index).1 := by
  rcases clearByOffset_cases h index with ⟨heq, _⟩ | ⟨start, stop, hrun, _, _, heq⟩
  · rw [heq]
    exact h
  · rw [heq]
    exact h.freeRun hrun

/-- Clearing by offset frees the cell there and leaves free cells free. -/
theorem getElem?_clearByOffset (h : Whole cells) (index : Nat) (hi : i < cells.length)
    (hfree : i = index ∨ cells[i]? = some .free) : (clearByOffset cells index).1[i]? = some .free := by
  rcases clearByOffset_cases h index with ⟨heq, hcell⟩ | ⟨start, stop, hrun, hle, hlt, heq⟩
  · rw [heq]
    rcases hfree with rfl | hfree
    · rcases hcell with hnone | hfree
      · rw [getElem?_eq_getElem hi] at hnone
        cases hnone
      · exact hfree
    · exact hfree
  · rw [heq, getElem?_fill]
    split_ifs with hr
    · rfl
    · rcases hfree with rfl | hfree
      · exact absurd ⟨hle, by omega, hi⟩ hr
      · exact hfree

/-- Clearing every cell of a span. -/
theorem Whole.clearSpan : ∀ {n start : Nat} {cells : ConstraintStore}, Whole cells →
    start + n ≤ cells.length →
    Whole ((range' start n).foldl (fun cells index => (ConstraintStore.clearByOffset cells index).1) cells) ∧
    ((range' start n).foldl
      (fun cells index => (ConstraintStore.clearByOffset cells index).1) cells).length =
        cells.length ∧
    ∀ i, i < cells.length → (start ≤ i ∧ i < start + n) ∨ cells[i]? = some .free →
      ((range' start n).foldl (fun cells index => (ConstraintStore.clearByOffset cells index).1) cells)[i]? =
          some .free
  | 0, start, cells, h, _ => by
    refine ⟨h, rfl, fun i _ hi => ?_⟩
    exact hi.resolve_left (by omega)
  | n + 1, start, cells, h, hn => by
    have hlen := length_clearByOffset cells start
    obtain ⟨hwhole, hlength, hfree⟩ := @Whole.clearSpan n (start + 1) _ (h.clearByOffset start) (by omega)
    rw [range'_succ, foldl_cons]
    refine ⟨hwhole, hlength.trans hlen, fun i hi hcase => hfree i (by omega) ?_⟩
    rcases hcase with hin | hcell
    · rcases Nat.eq_or_lt_of_le hin.1 with rfl | hgt
      · exact Or.inr (getElem?_clearByOffset h start hi (Or.inl rfl))
      · exact Or.inl ⟨hgt, by omega⟩
    · exact Or.inr (getElem?_clearByOffset h start hi (Or.inr hcell))

/-- The cells after a run is written. -/
theorem getElem?_writeRun {token : PhraseToken} {text : PhraseText} (hlt : start < stop)
    (hstop : stop ≤ cells.length) (i : Nat) :
    (fill (cells.set start (.oneStep token stop text)) (start + 1) stop (.noSearch start))[i]? =
      if i = start then some (.oneStep token stop text)
      else if start < i ∧ i < stop then some (.noSearch start)
      else cells[i]? := by
  rw [getElem?_fill, getElem?_set, length_set]
  by_cases hi : i = start
  · subst hi
    rw [if_neg (by omega), if_pos rfl, if_pos (by omega), if_pos rfl]
  · rw [if_neg hi, if_neg (Ne.symm hi)]
    by_cases hin : start < i ∧ i < stop
    · rw [if_pos (by omega), if_pos hin]
    · rw [if_neg (by omega), if_neg hin]

/-- Writing a run over free cells. -/
theorem Whole.writeRun {token : PhraseToken} {text : PhraseText} (h : Whole cells)
    (hlt : start < stop) (hstop : stop ≤ cells.length) (hfree : ∀ i, start ≤ i → i < stop → cells[i]? = some .free) :
    Whole (fill (cells.set start (.oneStep token stop text)) (start + 1) stop
      (.noSearch start)) := by
  have hget := @getElem?_writeRun cells start stop token text hlt hstop
  have hlength : (fill (cells.set start (.oneStep token stop text)) (start + 1)
      stop (.noSearch start)).length = cells.length := by
    rw [length_fill, length_set]
  generalize fill (cells.set start (.oneStep token stop text)) (start + 1) stop
    (.noSearch start) = written at hget hlength ⊢
  have hnew : IsRun written start stop := ⟨token, text, by rw [hget, if_pos rfl]⟩
  have hruns : ∀ s e, IsRun written s e →
      (s = start ∧ e = stop) ∨ (IsRun cells s e ∧ (s < start ∧ e ≤ start ∨ stop ≤ s)) := by
    rintro s e ⟨token', text', hs⟩
    rw [hget] at hs
    split_ifs at hs with hself hin
    · cases hs
      exact Or.inl ⟨hself, rfl⟩
    · cases hs
    · have hrun : IsRun cells s e := ⟨token', text', hs⟩
      refine Or.inr ⟨hrun, ?_⟩
      rcases Nat.lt_trichotomy s start with hbefore | heq | hafter
      · refine Or.inl ⟨hbefore, ?_⟩
        by_contra hover
        have hmark := h.interior s e hrun start hbefore (by omega) (by omega)
        rw [hfree start (Nat.le_refl _) hlt] at hmark
        cases hmark
      · exact absurd heq hself
      · exact Or.inr (by omega)
  have hkeep : ∀ s e, IsRun cells s e → IsRun written s e := by
    rintro s e ⟨token', text', hs⟩
    refine ⟨token', text', ?_⟩
    rw [hget, if_neg, if_neg, hs]
    · rintro ⟨hgt, hlt'⟩
      rw [hfree s (Nat.le_of_lt hgt) hlt'] at hs
      cases hs
    · rintro rfl
      rw [hfree s (Nat.le_refl _) hlt] at hs
      cases hs
  refine ⟨⟨?_, ?_, ?_⟩, ?_⟩
  · intro s e hrun
    rcases hruns s e hrun with ⟨rfl, rfl⟩ | ⟨hold, _⟩
    · exact hlt
    · exact h.forward s e hold
  · intro s e hrun i hi hie hlen
    rw [hlength] at hlen
    rcases hruns s e hrun with ⟨rfl, rfl⟩ | ⟨hold, hside⟩
    · rw [hget, if_neg (by omega), if_pos ⟨hi, hie⟩]
    · rw [hget, if_neg (by omega), if_neg (by omega), h.interior s e hold i hi hie hlen]
  · intro i s hmark
    rw [hget] at hmark
    split_ifs at hmark with hself hin
    · cases hmark
    · cases hmark
      exact ⟨stop, hnew, hin.1, hin.2⟩
    · obtain ⟨e, hrun, hi, hie⟩ := h.marked i s hmark
      exact ⟨e, hkeep s e hrun, hi, hie⟩
  · intro s e hrun
    rw [hlength]
    rcases hruns s e hrun with ⟨rfl, rfl⟩ | ⟨hold, _⟩
    · exact hstop
    · exact h.inside s e hold

theorem Whole.add (h : Whole cells) (start stop : Nat) (token : PhraseToken) (text : PhraseText) :
    Whole (ConstraintStore.add cells start stop token text).1 := by
  unfold ConstraintStore.add
  split_ifs with hrefuse
  · exact h
  · obtain ⟨hwhole, hlength, hfree⟩ := @Whole.clearSpan (stop - start) start _ h (by omega)
    exact hwhole.writeRun (by omega) (by omega) fun i hi hlt =>
      hfree i (by omega) (Or.inl ⟨hi, by omega⟩)

theorem Whole.diffLoop {best : List PhraseSpan} {tail : Nat} : ∀ {other : List PhraseSpan}
    {cells : ConstraintStore} (changed : Bool), Whole cells →
    Whole (ConstraintStore.diffLoop best tail other cells changed).1
  | [], _, _, h => h
  | span :: rest, cells, changed, h => by
    unfold ConstraintStore.diffLoop
    dsimp only
    split_ifs
    · exact Whole.diffLoop changed h
    · exact Whole.diffLoop _ (h.add _ _ _ _)

/-! ## Truncation -/

theorem isRun_resize (cells : ConstraintStore) (len : Nat) :
    IsRun (cells.resize len) start stop ↔ IsRun cells start stop ∧ start < len := by
  unfold IsRun
  simp only [getElem?_resize]
  constructor
  · rintro ⟨token, text, hget⟩
    split_ifs at hget with hlen hold
    · exact ⟨⟨token, text, hget⟩, hlen⟩
    · cases hget
  · rintro ⟨⟨token, text, hget⟩, hlen⟩
    exact ⟨token, text, by rw [if_pos hlen, if_pos (List.getElem?_eq_some_iff.mp hget).1, hget]⟩

/-- Resizing keeps what is left of each run. -/
theorem Whole.resize_clipped (h : Whole cells) (len : Nat) : Clipped (cells.resize len) where
  forward start stop hrun := h.forward start stop ((isRun_resize cells len).mp hrun).1
  interior start stop hrun i hi hlt hlen := by
    obtain ⟨hold, _⟩ := (isRun_resize cells len).mp hrun
    have hin := h.inside start stop hold
    rw [length_resize] at hlen
    rw [getElem?_resize, if_pos hlen, if_pos (by omega), h.interior start stop hold i hi hlt (by omega)]
  marked i start hmark := by
    rw [getElem?_resize] at hmark
    split_ifs at hmark with hlen hold
    · obtain ⟨stop, hrun, hi, hlt⟩ := h.marked i start hmark
      exact ⟨stop, (isRun_resize cells len).mpr ⟨hrun, by omega⟩, hi, hlt⟩
    · cases hmark

/-- A run that a store of `len` cells holds only in part. -/
def Cut (cells : ConstraintStore) (len start stop : Nat) : Prop :=
  IsRun cells start stop ∧ start < len ∧ len < stop

theorem Whole.resize (h : Whole cells) (hcut : ∀ start stop, ¬ Cut cells len start stop) :
    Whole (cells.resize len) := by
  refine ⟨h.resize_clipped len, fun start stop hrun => ?_⟩
  obtain ⟨hold, hlt⟩ := (isRun_resize cells len).mp hrun
  rw [length_resize]
  by_contra hgt
  exact hcut start stop ⟨hold, hlt, by omega⟩

/-! ## Validation -/

section Validate

variable {ε : Type} {probe : Nat → Forcing → Except ε Bool}

/-- The state of the loop over the forcings : each is still a run, and a run that overruns
is still to come. -/
structure Validating (cells : ConstraintStore) (rest : List Forcing) : Prop where
  clipped : Clipped cells
  isRun : ∀ f ∈ rest, IsRun cells f.start f.stop
  sorted : rest.Pairwise fun f g => f.start < g.start
  pending : ∀ start stop, IsRun cells start stop → cells.length < stop →
    ∃ f ∈ rest, f.start = start ∧ f.stop = stop

open Validating

theorem Validating.skip {f : Forcing} {rest : List Forcing} (h : Validating cells (f :: rest))
    (hfits : f.stop ≤ cells.length) : Validating cells rest where
  clipped := h.clipped
  isRun g hg := h.isRun g (mem_cons_of_mem _ hg)
  sorted := (pairwise_cons.mp h.sorted).2
  pending start stop hrun hover := by
    obtain ⟨g, hg, hstart, hstop⟩ := h.pending start stop hrun hover
    rcases mem_cons.mp hg with rfl | hg
    · omega
    · exact ⟨g, hg, hstart, hstop⟩

theorem Validating.free {f : Forcing} {rest : List Forcing} (h : Validating cells (f :: rest)) :
    Validating (cells.fill f.start (min f.stop cells.length) .free) rest := by
  obtain ⟨hclipped, hruns⟩ := h.clipped.freeRun (h.isRun f mem_cons_self)
  obtain ⟨hlater, hsorted⟩ := pairwise_cons.mp h.sorted
  refine ⟨hclipped, fun g hg => (hruns _ _).mpr ⟨h.isRun g (mem_cons_of_mem _ hg), ?_⟩,
    hsorted, fun start stop hrun hover => ?_⟩
  · have := hlater g hg
    omega
  · rw [length_fill] at hover
    obtain ⟨hold, hne⟩ := (hruns _ _).mp hrun
    obtain ⟨g, hg, hstart, hstop⟩ := h.pending start stop hold hover
    rcases mem_cons.mp hg with rfl | hg
    · exact absurd hstart.symm hne
    · exact ⟨g, hg, hstart, hstop⟩

/-- No probe fails before a run that overruns. -/
def ProbesReach (probe : Nat → Forcing → Except ε Bool) (len calls : Nat) (rest : List Forcing) :
    Prop :=
  ∀ g ∈ rest, len < g.stop → ∀ i f, rest[i]? = some f → f.start < g.start →
    ∃ answer, probe (calls + i) f = .ok answer

theorem ProbesReach.tail {len calls : Nat} {f : Forcing} {rest : List Forcing}
    (h : ProbesReach probe len calls (f :: rest)) : ProbesReach probe len (calls + 1) rest := by
  intro g hg hover i f' hf' hlt
  have := h g (mem_cons_of_mem _ hg) hover (i + 1) f' (by simpa using hf') hlt
  rwa [Nat.add_assoc, Nat.add_comm 1 i]

/-- The loop leaves whole runs when no probe fails before a run that overruns. -/
theorem Validating.whole : ∀ {rest : List Forcing} {cells : ConstraintStore} {calls : Nat}
    {dropped : Bool}, Validating cells rest → ProbesReach probe cells.length calls rest →
    Whole (validateLoop probe rest calls cells dropped).1
  | [], cells, calls, dropped, h, _ => by
    change Whole cells
    refine ⟨h.clipped, fun start stop hrun => ?_⟩
    by_contra hover
    obtain ⟨f, hf, _⟩ := h.pending start stop hrun (by omega)
    simp at hf
  | f :: rest, cells, calls, dropped, h, hreach => by
    have hfree := h.free
    have hlen := length_fill cells f.start (min f.stop cells.length) .free
    have hcleared : Whole (validateLoop probe rest (calls + 1)
        (cells.fill f.start (min f.stop cells.length) .free) true).1 :=
      whole hfree (by rw [hlen]; exact hreach.tail)
    unfold validateLoop
    dsimp only
    split_ifs with hover
    · exact hcleared
    · cases hprobe : probe calls f with
      | error e =>
        change Whole cells
        refine ⟨h.clipped, fun start stop hrun => ?_⟩
        by_contra hcut
        obtain ⟨g, hg, rfl, rfl⟩ := h.pending start stop hrun (by omega)
        rcases mem_cons.mp hg with rfl | hg
        · omega
        · have hlt := (pairwise_cons.mp h.sorted).1 g hg
          obtain ⟨answer, hanswer⟩ := hreach g (mem_cons_of_mem _ hg) (by omega) 0 f rfl hlt
          rw [Nat.add_zero, hprobe] at hanswer
          cases hanswer
      | ok answer =>
        cases answer with
        | true => exact whole (h.skip (by omega)) hreach.tail
        | false => exact hcleared

/-- A probe that fails before a run that overruns leaves that run. -/
theorem Validating.leaves : ∀ {rest : List Forcing} {cells : ConstraintStore} {calls : Nat}
    {dropped : Bool}, Validating cells rest → ∀ g ∈ rest, cells.length < g.stop →
    ∀ i f e, rest[i]? = some f → f.start < g.start → probe (calls + i) f = .error e →
    IsRun (validateLoop probe rest calls cells dropped).1 g.start g.stop ∧
      (validateLoop probe rest calls cells dropped).1.length = cells.length
  | [], _, _, _, _, g, hg, _, _, _, _, _, _, _ => by simp at hg
  | f :: rest, cells, calls, dropped, h, g, hg, hover, i, f', e, hf', hlt, herror => by
    have hne : g ≠ f := by
      rintro rfl
      rcases mem_cons.mp (mem_of_getElem? hf') with rfl | hmem
      · omega
      · have := (pairwise_cons.mp h.sorted).1 f' hmem
        omega
    have hg' : g ∈ rest := (mem_cons.mp hg).resolve_left hne
    have hfg := (pairwise_cons.mp h.sorted).1 g hg'
    have hrun := h.isRun g hg
    have hfits : f.stop ≤ g.start := h.clipped.not_inside (h.isRun f mem_cons_self) hrun hfg
    have hglt := hrun.lt_length
    unfold validateLoop
    dsimp only
    rw [if_neg (by omega)]
    cases i with
    | zero =>
      rw [getElem?_cons_zero, Option.some.injEq] at hf'
      subst hf'
      rw [Nat.add_zero] at herror
      rw [herror]
      exact ⟨hrun, rfl⟩
    | succ i =>
      rw [getElem?_cons_succ] at hf'
      have herror' : probe (calls + 1 + i) f' = .error e := by
        rwa [Nat.add_assoc, Nat.add_comm 1 i]
      cases hprobe : probe calls f with
      | error e' => exact ⟨hrun, rfl⟩
      | ok answer =>
        cases answer with
        | true =>
          exact leaves (h.skip (by omega)) g hg' hover i f' e hf' hlt herror'
        | false =>
          have hlen := length_fill cells f.start (min f.stop cells.length) .free
          have hrest := @Validating.leaves rest _ (calls + 1) true h.free g hg'
            (by rw [hlen]; exact hover) i f' e hf' hlt herror'
          rw [hlen] at hrest
          exact hrest

theorem validating_resize (h : Whole cells) (len : Nat) :
    Validating (cells.resize len) (cells.resize len).forcings where
  clipped := h.resize_clipped len
  isRun f hf := by
    obtain ⟨text, hget, _⟩ := mem_forcings.mp hf
    exact ⟨f.token, text, hget⟩
  sorted := pairwise_forcings _
  pending start stop hrun _ := by
    obtain ⟨token, text, hget⟩ := hrun
    exact ⟨⟨start, token, stop, text.phraseLength⟩, mem_forcings.mpr ⟨text, hget, rfl⟩, rfl, rfl⟩

end Validate

end Invariant

/-! ## Runs of operations -/

section Machine

variable {ε : Type}

/-- The operations of the store. -/
inductive Op (ε : Type) where
  | resize (len : Nat)
  | add (start stop : Nat) (token : PhraseToken) (text : PhraseText)
  | clearByOffset (index : Nat)
  | validate (len : Nat) (probe : Nat → Forcing → Except ε Bool)
  | diffResult (best other : List PhraseSpan) (tail : Nat)
  | clear

/-- The store after an operation. -/
def step (cells : ConstraintStore) : Op ε → ConstraintStore
  | .resize len => cells.resize len
  | .add start stop token text => (cells.add start stop token text).1
  | .clearByOffset index => (cells.clearByOffset index).1
  | .validate len probe => (cells.validate len probe).1
  | .diffResult best other tail => (cells.diffResult best other tail).1
  | .clear => cells.clear

/-- The operation leaves no half of a run : `resize` cuts none, and `validate` asks no probe
that fails before the run it cuts. -/
def Guard (cells : ConstraintStore) : Op ε → Prop
  | .resize len => ∀ start stop, ¬ Cut cells len start stop
  | .validate len probe => ∀ start stop, Cut cells len start stop →
      ∀ i f, (cells.resize len).forcings[i]? = some f → f.start < start →
        ∃ answer, probe i f = .ok answer
  | _ => True

theorem probesReach_of_guard {cells : ConstraintStore} {len : Nat}
    {probe : Nat → Forcing → Except ε Bool} (hguard : Guard cells (.validate len probe)) :
    ProbesReach probe (cells.resize len).length 0 (cells.resize len).forcings := by
  intro g hg hover i f hf hlt
  obtain ⟨text, hget, _⟩ := mem_forcings.mp hg
  obtain ⟨hrun, hstart⟩ := (isRun_resize cells len).mp ⟨g.token, text, hget⟩
  rw [length_resize] at hover
  rw [Nat.zero_add]
  exact hguard g.start g.stop ⟨hrun, hstart, hover⟩ i f hf hlt

/-- Guarded operations keep runs whole. -/
theorem whole_step {cells : ConstraintStore} (h : Whole cells) {op : Op ε}
    (hguard : Guard cells op) : Whole (step cells op) := by
  cases op with
  | resize len => exact h.resize hguard
  | add start stop token text => exact h.add start stop token text
  | clearByOffset index => exact h.clearByOffset index
  | validate len probe =>
    exact (validating_resize h len).whole (probesReach_of_guard hguard)
  | diffResult best other tail => exact Whole.diffLoop false h
  | clear => exact whole_nil

/-- An operation that keeps the invariant is guarded. -/
theorem guard_of_runInvariant {cells : ConstraintStore} (h : Whole cells) {op : Op ε}
    (hinv : RunInvariant (step cells op)) : Guard cells op := by
  cases op with
  | resize len =>
    rintro start stop ⟨hrun, hlt, hover⟩
    have hin := hinv.inside start stop ((isRun_resize cells len).mpr ⟨hrun, hlt⟩)
    rw [step, length_resize] at hin
    omega
  | validate len probe =>
    rintro start stop ⟨hrun, hlt, hover⟩ i f hf hbefore
    cases hprobe : probe i f with
    | ok answer => exact ⟨answer, rfl⟩
    | error e =>
      obtain ⟨token, text, hget⟩ := (isRun_resize cells len).mpr ⟨hrun, hlt⟩
      obtain ⟨hleft, hlen⟩ := @Validating.leaves ε probe _ _ 0 false (validating_resize h len)
        ⟨start, token, stop, text.phraseLength⟩ (mem_forcings.mpr ⟨text, hget, rfl⟩)
        (by rw [length_resize]; exact hover) i f e hf hbefore (by rw [Nat.zero_add]; exact hprobe)
      have hin := hinv.inside start stop hleft
      rw [step, validate, hlen, length_resize] at hin
      omega
  | add start stop token text => trivial
  | clearByOffset index => trivial
  | diffResult best other tail => trivial
  | clear => trivial

/-- The run invariant holds in every state of a run from the empty store exactly when every
step is guarded. -/
theorem runInvariant_iff (ops : List (Op ε)) :
    (∀ cells ∈ states step [] ops, RunInvariant cells) ↔ Along step Guard [] ops :=
  forall_states_iff (fun _ => Whole.runInvariant) (fun _ _ h hguard => whole_step h hguard)
    (fun _ _ h hinv => guard_of_runInvariant h hinv) whole_nil

/-- A run cut by `resize`. -/
theorem runInvariant_fails : ¬ ∀ cells ∈ states (@step Unit) []
    [.resize 6, .add 0 4 7#32 (.scalar []), .resize 2], RunInvariant cells := by
  intro hall
  have hlast := hall [.oneStep 7#32 4 (.scalar []), .noSearch 0] (by decide)
  have hin := hlast.inside 0 4 ⟨7#32, .scalar [], rfl⟩
  simp at hin

end Machine

end ConstraintStore

end Oxpinyin
