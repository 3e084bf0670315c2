import Oxpinyin.ConstraintRuns

/-!
# What an edit does to the forced runs

In a store of whole runs the cells are determined by the runs (`Whole.cell_congr`), so an edit is
described by the runs it leaves. Clearing at an offset takes out the run over it
(`forces_clearByOffset`), and `add` every run that overlaps its span, wherever that run begins or ends,
before it writes the new one (`forces_add`). `forces_diffLoop` : the phrases of a row come in order, so
what `diffResult` forces for one is not taken out for a later one.
-/

namespace Oxpinyin

open List ConstraintStore

namespace ConstraintStore

/-- The cell at `start` forces `token` with its text over `[start, stop)`. -/
def Forces (cells : ConstraintStore) (start stop : Nat) (token : PhraseToken) (text : PhraseText) :
    Prop :=
  cells[start]? = some (.oneStep token stop text)

/-- Two spans share a cell. -/
def Overlap (start stop start' stop' : Nat) : Prop :=
  ∃ i, start ≤ i ∧ i < stop ∧ start' ≤ i ∧ i < stop'

section

variable {cells cells' : ConstraintStore} {start stop s e i n index : Nat} {token t : PhraseToken}
  {text x : PhraseText}

theorem Forces.isRun (h : Forces cells start stop token text) : IsRun cells start stop :=
  ⟨token, text, h⟩

/-- In whole stores of one length a cell is the same when the runs over it are. -/
theorem Whole.cell_congr (h : Whole cells) (h' : Whole cells') (hlen : cells.length = cells'.length)
    (hruns : ∀ s e t x, s ≤ i → i < e → (Forces cells s e t x ↔ Forces cells' s e t x)) : cells[i]? = cells'[i]? := by
  have hmark : ∀ {a b : ConstraintStore}, Whole a → Whole b → a.length = b.length →
      (∀ s e t x, s ≤ i → i < e → (Forces a s e t x → Forces b s e t x)) →
      ∀ start, a[i]? = some (.noSearch start) → b[i]? = some (.noSearch start) := by
    intro a b ha hb hab hto start hcell
    obtain ⟨stop, ⟨token, text, hrun⟩, hi, hlt⟩ := ha.marked i start hcell
    have hrun' := hto start stop token text (Nat.le_of_lt hi) hlt hrun
    have hin := (List.getElem?_eq_some_iff.mp hcell).1
    exact hb.interior start stop hrun'.isRun i hi hlt (by omega)
  have hforce : ∀ token stop text, Forces cells i stop token text ↔ Forces cells' i stop token text := by
    intro token stop text
    constructor
    · exact fun hrun => (hruns i stop token text (Nat.le_refl _) (h.forward _ _ hrun.isRun)).mp hrun
    · exact fun hrun => (hruns i stop token text (Nat.le_refl _) (h'.forward _ _ hrun.isRun)).mpr hrun
  have hfwd := fun start => hmark h h' hlen (fun s e t x hs he => (hruns s e t x hs he).mp) start
  have hback := fun start =>
    hmark h' h hlen.symm (fun s e t x hs he => (hruns s e t x hs he).mpr) start
  rcases hcell : cells[i]? with _ | (_ | ⟨token, stop, text⟩ | start)
  · rw [List.getElem?_eq_none_iff] at hcell
    exact (getElem?_eq_none_iff.mpr (by omega)).symm
  · have hin := (List.getElem?_eq_some_iff.mp hcell).1
    rcases hcell' : cells'[i]? with _ | (_ | ⟨token, stop, text⟩ | start)
    · rw [getElem?_eq_none_iff] at hcell'
      omega
    · rfl
    · have hrun := (hforce token stop text).mpr hcell'
      rw [Forces, hcell] at hrun
      cases hrun
    · rw [hback start hcell'] at hcell
      cases hcell
  · exact ((hforce token stop text).mp hcell).symm
  · exact (hfwd start hcell).symm

/-! ## Clearing -/

/-- Clearing at an offset takes out the run over it. -/
theorem forces_clearByOffset (h : Whole cells) (index : Nat) :
    Forces (clearByOffset cells index).1 s e t x ↔ Forces cells s e t x ∧ ¬(s ≤ index ∧ index < e) := by
  rcases clearByOffset_cases h index with ⟨heq, hcell⟩ | ⟨start, stop, hrun, hle, hlt, heq⟩
  · rw [heq]
    refine ⟨fun hforces => ⟨hforces, fun hover => ?_⟩, And.left⟩
    have hin := h.inside s e hforces.isRun
    rcases Nat.eq_or_lt_of_le hover.1 with rfl | hgt
    · rw [hforces] at hcell
      simp at hcell
    · rw [h.interior s e hforces.isRun index hgt hover.2 (by omega)] at hcell
      simp at hcell
  · rw [heq]
    obtain ⟨-, hruns⟩ := h.toClipped.freeRun hrun
    have hsame : Forces (cells.fill start (min stop cells.length) .free) s e t x ↔
        Forces cells s e t x ∧ s ≠ start := by
      constructor
      · intro hforces
        refine ⟨?_, ((hruns s e).mp hforces.isRun).2⟩
        rw [Forces, getElem?_fill] at hforces
        split_ifs at hforces
        · cases hforces
        · exact hforces
      · rintro ⟨hforces, hne⟩
        obtain ⟨t', x', hleft⟩ := (hruns s e).mpr ⟨hforces.isRun, hne⟩
        rw [getElem?_fill] at hleft
        split_ifs at hleft with hin
        · cases hleft
        · rw [Forces, getElem?_fill, if_neg hin]
          exact hforces
    rw [hsame]
    refine and_congr_right fun hforces => ⟨fun hne hover => ?_, fun hout => ?_⟩
    · -- runs over one cell are one run
      rcases Nat.lt_or_gt_of_ne hne with hbefore | hafter
      · have := h.toClipped.not_inside hforces.isRun hrun hbefore
        omega
      · have := h.toClipped.not_inside hrun hforces.isRun hafter
        omega
    · rintro rfl
      rw [hforces.isRun.unique hrun] at hout
      exact hout ⟨hle, hlt⟩

/-- Clearing a span cell by cell takes out every run that overlaps it. -/
theorem forces_clearSpan : ∀ {n start : Nat} {cells : ConstraintStore}, Whole cells →
    (Forces ((range' start n).foldl
      (fun cells index => (clearByOffset cells index).1) cells) s e t x ↔
      Forces cells s e t x ∧ ¬Overlap s e start (start + n))
  | 0, start, cells, h => by
    refine ⟨fun hforces => ⟨hforces, ?_⟩, And.left⟩
    rintro ⟨i, hi⟩
    omega
  | n + 1, start, cells, h => by
    rw [range'_succ, foldl_cons, forces_clearSpan (h.clearByOffset start), forces_clearByOffset h, and_assoc]
    refine and_congr_right fun _ => ?_
    constructor
    · rintro ⟨hhead, htail⟩ ⟨i, hi⟩
      rcases Nat.eq_or_lt_of_le hi.2.2.1 with rfl | hgt
      · exact hhead ⟨hi.1, hi.2.1⟩
      · exact htail ⟨i, hi.1, hi.2.1, hgt, by omega⟩
    · intro hnone
      refine ⟨fun hover => hnone ⟨start, hover.1, hover.2, by omega⟩, ?_⟩
      rintro ⟨i, hi⟩
      exact hnone ⟨i, hi.1, hi.2.1, by omega, by omega⟩

/-! ## Adding -/

theorem length_add (h : Whole cells) (start stop : Nat) (token : PhraseToken) (text : PhraseText) :
    (cells.add start stop token text).1.length = cells.length := by
  unfold add
  split_ifs
  · rfl
  · rw [length_fill, length_set]
    exact (Whole.clearSpan h (by omega)).2.1

/-- A span is refused exactly when it is empty or ends past the store. -/
theorem add_eq_refused : cells.add start stop token text = (cells, 0) ↔
    stop ≤ start ∨ cells.length < stop := by
  unfold add
  split_ifs with hrefuse
  · exact ⟨fun _ => hrefuse.symm, fun _ => rfl⟩
  · constructor
    · intro heq
      have hlen := (Prod.mk.inj heq).2
      omega
    · exact fun hout => absurd hout.symm hrefuse

/-- An accepted span takes out every run that overlaps it and forces its own. -/
theorem forces_add (h : Whole cells) (hlt : start < stop) (hstop : stop ≤ cells.length) :
    Forces (cells.add start stop token text).1 s e t x ↔
      (s = start ∧ e = stop ∧ t = token ∧ x = text) ∨
      Forces cells s e t x ∧ ¬Overlap s e start stop := by
  unfold add
  rw [if_neg (by omega)]
  obtain ⟨hwhole, hlength, -⟩ := @Whole.clearSpan (stop - start) start _ h (by omega)
  have hspan := @forces_clearSpan s e t x (stop - start) start cells h
  rw [Nat.add_sub_cancel' (Nat.le_of_lt hlt)] at hspan
  rw [← hspan]
  generalize (range' start (stop - start)).foldl
    (fun cells index => (clearByOffset cells index).1) cells = cleared
    at hwhole hlength hspan ⊢
  dsimp only
  rw [Forces, getElem?_writeRun hlt (by omega)]
  constructor
  · intro hforces
    split_ifs at hforces with hself hin
    · cases hforces
      exact Or.inl ⟨hself, rfl, rfl, rfl⟩
    · cases hforces
    · exact Or.inr hforces
  · rintro (⟨rfl, rfl, rfl, rfl⟩ | hforces)
    · rw [if_pos rfl]
    · -- a run that is left begins outside the span
      have hout := (hspan.mp hforces).2
      have hforward := hwhole.forward s e hforces.isRun
      rw [if_neg, if_neg]
      · exact hforces
      · exact fun hin => hout ⟨s, Nat.le_refl _, hforward, Nat.le_of_lt hin.1, hin.2⟩
      · rintro rfl
        exact hout ⟨s, Nat.le_refl _, hforward, Nat.le_refl _, hlt⟩

/-- The cells outside the span and outside every run that overlaps it are untouched. -/
theorem getElem?_add (h : Whole cells) (hlt : start < stop) (hstop : stop ≤ cells.length)
    (hout : ¬(start ≤ i ∧ i < stop)) (hruns : ∀ s e, IsRun cells s e → Overlap s e start stop → ¬(s ≤ i ∧ i < e)) :
    (cells.add start stop token text).1[i]? = cells[i]? := by
  refine Whole.cell_congr (h.add start stop token text) h (length_add h start stop token text) fun s e t x hs he => ?_
  rw [forces_add h hlt hstop]
  constructor
  · rintro (⟨rfl, rfl, -, -⟩ | hforces)
    · exact absurd ⟨hs, he⟩ hout
    · exact hforces.1
  · exact fun hforces => Or.inr ⟨hforces, fun hover => hruns s e hforces.isRun hover ⟨hs, he⟩⟩

/-- The rest of a run that overlaps the span is free. -/
theorem getElem?_add_free (h : Whole cells) (hlt : start < stop) (hstop : stop ≤ cells.length)
    (hout : ¬(start ≤ i ∧ i < stop)) (hrun : IsRun cells s e) (hover : Overlap s e start stop)
    (hs : s ≤ i) (he : i < e) : (cells.add start stop token text).1[i]? = some .free := by
  have hwhole := h.add start stop token text
  have hin := h.inside s e hrun
  have hlen := length_add h start stop token text
  have hnone : ∀ s' e', IsRun (cells.add start stop token text).1 s' e' → ¬(s' ≤ i ∧ i < e') := by
    rintro s' e' ⟨t', x', hrun'⟩ ⟨hs', he'⟩
    rcases (forces_add h hlt hstop).mp hrun' with ⟨rfl, rfl, -, -⟩ | ⟨hold, hnot⟩
    · exact hout ⟨hs', he'⟩
    · -- the run over the cell is the one that overlaps
      rcases Nat.lt_trichotomy s s' with hlt' | rfl | hgt
      · have := h.toClipped.not_inside hrun hold.isRun hlt'
        omega
      · rw [hrun.unique hold.isRun] at hover
        exact hnot hover
      · have := h.toClipped.not_inside hold.isRun hrun hgt
        omega
  rcases hcell : (cells.add start stop token text).1[i]? with _ | (_ | ⟨token', stop', text'⟩ | start')
  · rw [getElem?_eq_none_iff] at hcell
    omega
  · rfl
  · exact absurd ⟨Nat.le_refl i, hwhole.forward _ _ ⟨_, _, hcell⟩⟩ (hnone i stop' ⟨_, _, hcell⟩)
  · obtain ⟨stop', hrun', hi, hlt'⟩ := hwhole.marked i start' hcell
    exact absurd ⟨Nat.le_of_lt hi, hlt'⟩ (hnone start' stop' hrun')

/-! ## The difference of two rows -/

/-- The phrases of a row with their spans: a phrase ends where the next one starts, the last one at
`tail`. -/
def phraseRuns (tail : Nat) : List PhraseSpan → List (Nat × Nat × PhraseToken × PhraseText)
  | [] => []
  | [last] => [(last.start, tail, last.token, last.text)]
  | first :: second :: rest =>
    (first.start, second.start, first.token, first.text) :: phraseRuns tail (second :: rest)

/-- The phrases of a row are in order. -/
def InOrder (row : List PhraseSpan) : Prop :=
  row.Pairwise fun phrase later => phrase.start < later.start

/-- A phrase that the best row does not have at its position, over a span inside the store. -/
def Differing (best : List PhraseSpan) (tail len : Nat) (other : List PhraseSpan) (s e : Nat)
    (t : PhraseToken) (x : PhraseText) : Prop :=
  (s, e, t, x) ∈ phraseRuns tail other ∧ (¬∃ phrase ∈ best, phrase.start = s ∧ phrase.token = t) ∧
    s < e ∧ e ≤ len

/-- What the scan of the best row compares with. -/
theorem find_token_eq {best : List PhraseSpan} (hbest : InOrder best) (s : Nat) (t : PhraseToken) :
    (best.find? (·.start == s)).map (·.token) = some t ↔
      ∃ phrase ∈ best, phrase.start = s ∧ phrase.token = t := by
  rw [Option.map_eq_some_iff]
  constructor
  · rintro ⟨phrase, hfind, rfl⟩
    exact ⟨phrase, mem_of_find?_eq_some hfind, by simpa using find?_some hfind, rfl⟩
  · rintro ⟨phrase, hmem, rfl, rfl⟩
    induction best with
    | nil => cases hmem
    | cons first rest ih =>
      obtain ⟨hlater, hrest⟩ := pairwise_cons.mp hbest
      rcases mem_cons.mp hmem with rfl | hmem
      · exact ⟨_, find?_cons_of_pos (by simp), rfl⟩
      · have hne := hlater phrase hmem
        rw [find?_cons_of_neg (by simp; omega)]
        exact ih hrest hmem

/-- Where a phrase before the given ones ends. -/
def nextStart (tail : Nat) : List PhraseSpan → Nat
  | [] => tail
  | following :: _ => following.start

theorem phraseRuns_cons (tail : Nat) (first : PhraseSpan) (rest : List PhraseSpan) :
    phraseRuns tail (first :: rest) =
      (first.start, nextStart tail rest, first.token, first.text) :: phraseRuns tail rest := by
  cases rest <;> rfl

theorem diffLoop_cons (best : List PhraseSpan) (tail : Nat) (first : PhraseSpan) (rest : List PhraseSpan)
    (cells : ConstraintStore) (changed : Bool) :
    diffLoop best tail (first :: rest) cells changed =
      if (best.find? (·.start == first.start)).map (·.token) = some first.token then
        diffLoop best tail rest cells changed
      else
        let added := cells.add first.start (nextStart tail rest) first.token first.text
        diffLoop best tail rest added.1 (decide (0 < added.2) || changed) := by
  cases rest <;> rfl

/-- The spans of a row's later phrases begin at the end of the first one's or behind it. -/
theorem nextStart_le {tail : Nat} {first : PhraseSpan} {rest : List PhraseSpan}
    (h : InOrder (first :: rest)) : ∀ run ∈ phraseRuns tail rest, nextStart tail rest ≤ run.1 := by
  have hstarts : ∀ {row : List PhraseSpan}, ∀ run ∈ phraseRuns tail row,
      ∃ phrase ∈ row, phrase.start = run.1 := by
    intro row run hrun
    induction row with
    | nil => cases hrun
    | cons phrase row ih =>
      cases row with
      | nil =>
        rw [mem_singleton.mp hrun]
        exact ⟨phrase, mem_cons_self, rfl⟩
      | cons second row =>
        rcases mem_cons.mp hrun with rfl | hrun
        · exact ⟨phrase, mem_cons_self, rfl⟩
        · obtain ⟨found, hfound, heq⟩ := ih hrun
          exact ⟨found, mem_cons_of_mem _ hfound, heq⟩
  intro run hrun
  obtain ⟨phrase, hphrase, heq⟩ := hstarts run hrun
  cases rest with
  | nil => cases hphrase
  | cons second rest =>
    obtain ⟨hlater, -⟩ := pairwise_cons.mp (pairwise_cons.mp h).2
    rw [nextStart, ← heq]
    rcases mem_cons.mp hphrase with rfl | hphrase
    · exact Nat.le_refl _
    · exact Nat.le_of_lt (hlater phrase hphrase)

section

variable {best other rest : List PhraseSpan} {tail len : Nat} {first : PhraseSpan}

theorem differing_cons : Differing best tail len (first :: rest) s e t x ↔
      ((s = first.start ∧ e = nextStart tail rest ∧ t = first.token ∧ x = first.text) ∧
        (¬∃ phrase ∈ best, phrase.start = first.start ∧ phrase.token = first.token) ∧
        first.start < nextStart tail rest ∧ nextStart tail rest ≤ len) ∨
      Differing best tail len rest s e t x := by
  unfold Differing
  rw [phraseRuns_cons, mem_cons, or_and_right]
  refine or_congr_left ?_
  simp only [Prod.mk.injEq]
  constructor
  · rintro ⟨⟨rfl, rfl, rfl, rfl⟩, hrest⟩
    exact ⟨⟨rfl, rfl, rfl, rfl⟩, hrest⟩
  · rintro ⟨⟨rfl, rfl, rfl, rfl⟩, hrest⟩
    exact ⟨⟨rfl, rfl, rfl, rfl⟩, hrest⟩

/-- The runs after the loop: the differing phrases, and what none of them overlaps. -/
theorem forces_diffLoop (hbest : InOrder best) {changed : Bool} (h : Whole cells) (hother : InOrder other) :
    (diffLoop best tail other cells changed).1.length = cells.length ∧
    ((diffLoop best tail other cells changed).2 = true ↔
      changed = true ∨ ∃ s e t x, Differing best tail cells.length other s e t x) ∧
    ∀ s e t x, Forces (diffLoop best tail other cells changed).1 s e t x ↔
      Differing best tail cells.length other s e t x ∨
      Forces cells s e t x ∧ ∀ s' e' t' x', Differing best tail cells.length other s' e' t' x' →
        ¬Overlap s e s' e' := by
  induction other generalizing cells changed with
  | nil => simp [diffLoop, Differing, phraseRuns]
  | cons first rest ih =>
    have hlater := @nextStart_le tail first rest hother
    have hrest := (pairwise_cons.mp hother).2
    have hcons := fun s e t x => @differing_cons s e t x best rest tail cells.length first
    rw [diffLoop_cons]
    generalize nextStart tail rest = stop at hlater hcons ⊢
    by_cases hsame : (best.find? (·.start == first.start)).map (·.token) = some first.token
    · rw [if_pos hsame]
      rw [find_token_eq hbest] at hsame
      have hskip : ∀ s e t x, Differing best tail cells.length (first :: rest) s e t x ↔
          Differing best tail cells.length rest s e t x := fun s e t x =>
        (hcons s e t x).trans (or_iff_right fun hhead => hhead.2.1 hsame)
      simp only [hskip]
      exact ih h hrest
    rw [if_neg hsame]
    rw [find_token_eq hbest] at hsame
    by_cases hfits : first.start < stop ∧ stop ≤ cells.length
    · -- the phrase is forced, and the later ones begin behind it
      have hlen := length_add h first.start stop first.token first.text
      obtain ⟨hlength, hchanged, hruns⟩ := @ih _ (decide (0 < (cells.add first.start stop first.token
        first.text).2) || changed) (h.add first.start stop first.token first.text) hrest
      have hcount : (cells.add first.start stop first.token first.text).2 = stop - first.start := by
        rw [add, if_neg (by omega)]
      rw [hlen] at hlength hchanged hruns
      refine ⟨hlength, ?_, fun s e t x => ?_⟩
      · rw [hchanged, hcount]
        have hpos : 0 < stop - first.start := by omega
        simp only [hpos, decide_true, Bool.true_or, true_or, true_iff]
        exact Or.inr ⟨first.start, stop, first.token, first.text,
          (hcons _ _ _ _).mpr (Or.inl ⟨⟨rfl, rfl, rfl, rfl⟩, hsame, hfits⟩)⟩
      · rw [hruns, forces_add h hfits.1 hfits.2, hcons]
        have hapart : ∀ s' e' t' x', Differing best tail cells.length rest s' e' t' x' →
            ¬Overlap first.start stop s' e' := by
          rintro s' e' t' x' hdiff ⟨i, hi⟩
          have := hlater _ hdiff.1
          omega
        constructor
        · rintro (hdiff | ⟨⟨rfl, rfl, rfl, rfl⟩ | ⟨hold, hout⟩, hnone⟩)
          · exact Or.inl (Or.inr hdiff)
          · exact Or.inl (Or.inl ⟨⟨rfl, rfl, rfl, rfl⟩, hsame, hfits⟩)
          · refine Or.inr ⟨hold, fun s' e' t' x' hdiff => ?_⟩
            rcases (hcons s' e' t' x').mp hdiff with ⟨⟨rfl, rfl, rfl, rfl⟩, -⟩ | hdiff
            · exact hout
            · exact hnone s' e' t' x' hdiff
        · rintro ((⟨hhead, -⟩ | hdiff) | ⟨hold, hnone⟩)
          · obtain ⟨rfl, rfl, rfl, rfl⟩ := hhead
            exact Or.inr ⟨Or.inl ⟨rfl, rfl, rfl, rfl⟩, hapart⟩
          · exact Or.inl hdiff
          · refine Or.inr ⟨Or.inr ⟨hold, ?_⟩, fun s' e' t' x' hdiff => ?_⟩
            · exact hnone _ _ _ _ ((hcons _ _ _ _).mpr (Or.inl ⟨⟨rfl, rfl, rfl, rfl⟩, hsame, hfits⟩))
            · exact hnone _ _ _ _ ((hcons _ _ _ _).mpr (Or.inr hdiff))
    · have hskip : ∀ s e t x, Differing best tail cells.length (first :: rest) s e t x ↔
          Differing best tail cells.length rest s e t x := fun s e t x =>
        (hcons s e t x).trans (or_iff_right fun hhead => hfits hhead.2.2)
      rw [(add_eq_refused).mpr (by omega)]
      simp only [hskip]
      exact ih h hrest

end

/-- What the edits do to a store of whole runs. `add` refuses exactly the empty span and the one that
ends past the store; else it takes out every run that overlaps the span, as a whole, leaves every other
run and cell, forces the new run and keeps the runs whole. Clearing at a cell of a run frees that run
and no other cell. `diffResult` forces exactly the phrases that the best row does not have and that end
inside the store, and takes out the runs they overlap. -/
theorem edit_runs (h : Whole cells) :
    (∀ start stop token text, cells.add start stop token text = (cells, 0) ↔
      stop ≤ start ∨ cells.length < stop) ∧
    (∀ start stop token text, start < stop → stop ≤ cells.length →
      (cells.add start stop token text).2 = stop - start ∧
      Whole (cells.add start stop token text).1 ∧
      (cells.add start stop token text).1.length = cells.length ∧
      (∀ s e t x, Forces (cells.add start stop token text).1 s e t x ↔
        (s = start ∧ e = stop ∧ t = token ∧ x = text) ∨
        Forces cells s e t x ∧ ¬Overlap s e start stop) ∧
      ∀ i, ¬(start ≤ i ∧ i < stop) →
        (∀ s e, IsRun cells s e → Overlap s e start stop → s ≤ i → i < e →
          (cells.add start stop token text).1[i]? = some .free) ∧
        ((∀ s e, IsRun cells s e → Overlap s e start stop → ¬(s ≤ i ∧ i < e)) →
          (cells.add start stop token text).1[i]? = cells[i]?)) ∧
    (∀ s e i, IsRun cells s e → s ≤ i → i < e →
      (cells.clearByOffset i).2 = true ∧ (cells.clearByOffset i).1.length = cells.length ∧
      ∀ j, (cells.clearByOffset i).1[j]? = if s ≤ j ∧ j < e then some .free else cells[j]?) ∧
    ∀ best other tail, InOrder best → InOrder other →
      Whole (cells.diffResult best other tail).1 ∧
      (cells.diffResult best other tail).1.length = cells.length ∧
      ((cells.diffResult best other tail).2 = true ↔
        ∃ s e t x, Differing best tail cells.length other s e t x) ∧
      ∀ s e t x, Forces (cells.diffResult best other tail).1 s e t x ↔
        Differing best tail cells.length other s e t x ∨
        Forces cells s e t x ∧ ∀ s' e' t' x', Differing best tail cells.length other s' e' t' x' →
          ¬Overlap s e s' e' := by
  refine ⟨fun start stop token text => add_eq_refused, fun start stop token text hlt hstop => ?_,
    fun s e i hrun hs he => ?_, fun best other tail hbest hother => ?_⟩
  · refine ⟨?_, h.add start stop token text, length_add h start stop token text,
      fun s e t x => forces_add h hlt hstop, fun i hout => ⟨?_, getElem?_add h hlt hstop hout⟩⟩
    · rw [ConstraintStore.add, if_neg (by omega)]
    · exact fun s e hrun hover hs he => getElem?_add_free h hlt hstop hout hrun hover hs he
  · have hin := h.inside s e hrun
    obtain ⟨token, text, hcell⟩ := hrun
    have hclear : cells.clearByOffset i = (cells.fill s (min e cells.length) .free, true) := by
      unfold clearByOffset
      rcases Nat.eq_or_lt_of_le hs with rfl | hgt
      · simp only [hcell]
      · simp only [h.interior s e ⟨token, text, hcell⟩ i hgt he (by omega), hcell]
    rw [hclear]
    refine ⟨rfl, length_fill _ _ _ _, fun j => ?_⟩
    rw [getElem?_fill]
    by_cases hj : s ≤ j ∧ j < e
    · rw [if_pos (by omega), if_pos hj]
    · rw [if_neg (by omega), if_neg hj]
  · obtain ⟨hlength, hchanged, hruns⟩ := @forces_diffLoop cells best other tail hbest false h hother
    refine ⟨Whole.diffLoop false h, hlength, ?_, hruns⟩
    exact hchanged.trans (or_iff_right (by decide))

theorem edit_runs_pair : Whole [.oneStep 7#32 2 (.scalar ['你']), .noSearch 0, .free] ∧
    (ConstraintStore.add [.oneStep 7#32 2 (.scalar ['你']), .noSearch 0, .free] 1 3 8#32 (.scalar ['好'])).1 =
      [.free, .oneStep 8#32 3 (.scalar ['好']), .noSearch 1] ∧
    (ConstraintStore.add [.oneStep 7#32 2 (.scalar ['你']), .noSearch 0, .free] 1 4 8#32 (.scalar ['好']) =
      ([.oneStep 7#32 2 (.scalar ['你']), .noSearch 0, .free], 0) ↔ 4 ≤ 1 ∨ 3 < 4) := by
  have hwhole : Whole (ConstraintStore.add (ConstraintStore.resize [] 3) 0 2 7#32 (.scalar ['你'])).1 :=
    (Whole.resize whole_nil fun _ _ hcut => by simp [Cut, IsRun] at hcut).add 0 2 7#32 (.scalar ['你'])
  have heq : (ConstraintStore.add (ConstraintStore.resize [] 3) 0 2 7#32 (.scalar ['你'])).1 =
      [.oneStep 7#32 2 (.scalar ['你']), .noSearch 0, .free] := by decide
  rw [heq] at hwhole
  exact ⟨hwhole, by decide, (edit_runs hwhole).1 1 4 8#32 (.scalar ['好'])⟩

/-- In a store that was not sized no differing phrase is forced. -/
theorem not_diffResult_forces : ¬∀ (cells : ConstraintStore) (best other : List PhraseSpan) (tail : Nat),
    Whole cells → InOrder best → InOrder other → ∀ run ∈ phraseRuns tail other,
      (¬∃ phrase ∈ best, phrase.start = run.1 ∧ phrase.token = run.2.2.1) →
      Forces (cells.diffResult best other tail).1 run.1 run.2.1 run.2.2.1 run.2.2.2 := by
  intro hall
  have hforced := hall [] [⟨0, 10#32, .scalar ['你', '好']⟩] [⟨0, 11#32, .scalar ['你', '浩']⟩] 5 whole_nil
    (pairwise_singleton _ _) (pairwise_singleton _ _)
    (0, 5, 11#32, .scalar ['你', '浩']) (by simp [phraseRuns]) (by simp)
  exact absurd hforced (by unfold Forces; decide)

end

end ConstraintStore

end Oxpinyin
