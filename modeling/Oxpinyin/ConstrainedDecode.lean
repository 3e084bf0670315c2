import Oxpinyin.TrellisReferences
import Oxpinyin.ConstraintRuns

/-!
# Forced runs in decoded rows

A store forces a run by its first cell and the marks behind it. The pass never reads a run
as a whole : it starts nothing at a mark, stops widening at one, and takes one span at a
forced cell. `nbestSentences_forced` : that is enough, every row has the run as one of its
steps and no other step touches it.
-/

namespace Oxpinyin

open List Run

/-! ## Steps of a row -/

/-- One step of a row. -/
structure RowStep where
  start : Nat
  stop : Nat
  token : PhraseToken
  deriving DecidableEq

/-- A phrase ends where the next one starts, the last one at `span`. -/
def rowSteps (span : Nat) : List PhraseSpan → List RowStep
  | [] => []
  | [last] => [⟨last.start, span, last.token⟩]
  | first :: second :: rest =>
    ⟨first.start, second.start, first.token⟩ :: rowSteps span (second :: rest)

/-- The steps of a row. -/
def NbestRow.steps {α : Type} (row : NbestRow α) : List RowStep :=
  rowSteps row.span row.spans

section

variable {ε α β : Type} {ops : FloatOps α β} {dictionary : Dictionary ε}
  {model : LanguageModel ε α β} {view : GenerationView} {bound : Nat} {seeds : List PhraseToken}
  {shape : NbestShape} {trellis : Trellis α}

/-- The step a record takes. -/
def Built.rowStep (r : Built α) : RowStep := ⟨r.start, r.stop, r.value.token⟩

theorem rowSpans_eq : ∀ {phrases : List (Nat × PhraseToken)} {spans : List PhraseSpan},
    rowSpans dictionary trellis phrases = .ok (some spans) →
    spans.map (fun span => (span.start, span.token)) = phrases
  | [], spans, h => by
    cases h
    rfl
  | (start, token) :: rest, spans, h => by
    unfold rowSpans at h
    split at h
    · cases h
    · cases h
    · obtain ⟨found, hfound, h⟩ := map_eq_ok h
      obtain ⟨tail, rfl, rfl⟩ := Option.map_eq_some_iff.mp h
      rw [map_cons, rowSpans_eq hfound]

variable {a b : Nat} {rs : List (Built α)}

theorem Tiled.start_eq {r : Built α} (h : Tiled a b (r :: rs)) : a = r.start := by
  generalize hlist : r :: rs = records at h
  cases h with
  | nil => cases hlist
  | cons _ _ =>
    cases hlist
    rfl

/-- The steps of a row are those of the chain it was read from. -/
theorem rowSteps_eq (htiled : Tiled a b rs) :
    ∀ {spans : List PhraseSpan},
      spans.map (fun span => (span.start, span.token)) = rs.map (fun r => (r.start, r.value.token)) →
      rowSteps b spans = rs.map Built.rowStep := by
  induction htiled with
  | nil a =>
    intro spans h
    rw [map_eq_nil_iff.mp h]
    rfl
  | @cons r b rs hforward hrest ih =>
    intro spans h
    obtain ⟨span, spans, rfl, hspan, hspans⟩ := map_eq_cons_iff.mp h
    obtain ⟨hstart, htoken⟩ := Prod.mk.inj hspan
    have hrec := ih hspans
    cases rs with
    | nil =>
      rw [map_eq_nil_iff.mp hspans, ← hrest.sum_widths]
      simp [rowSteps, Built.rowStep, hstart, htoken]
    | cons second rest =>
      obtain ⟨next, spans, rfl, hnext, _⟩ := map_eq_cons_iff.mp hspans
      rw [map_cons, ← hrec, rowSteps, Built.rowStep, hstart, htoken, (Prod.mk.inj hnext).1, hrest.start_eq]

/-- Every row is read from a chain over the whole input. -/
theorem chain_of_row {constraints : Option ConstraintStore} {rows : List (NbestRow α)}
    (h : nbestSentences ops dictionary model view bound constraints seeds shape = .ok rows) :
    ∀ row ∈ rows, ∃ rs : List (Built α), Tiled 0 bound rs ∧ row.steps = rs.map Built.rowStep ∧
      ∀ r ∈ rs, Allowed constraints r.start r.stop r.value.token := by
  obtain ⟨trellis, hforward, hrows⟩ := bind_eq_ok h
  have hsound := sound_forward hforward
  refine @foldlM_inv _ _ _ _ (fun rows : List (NbestRow α) => ∀ row ∈ rows, ∃ rs : List (Built α),
    Tiled 0 bound rs ∧ row.steps = rs.map Built.rowStep ∧
      ∀ r ∈ rs, Allowed constraints r.start r.stop r.value.token)
    _ _ _ (fun rows tail next htail hinv hnext => ?_) (by simp) hrows
  obtain ⟨found, hrow, rfl⟩ := map_eq_ok hnext
  intro row hmem
  rcases mem_append.mp hmem with hold | hnew
  · exact hinv row hold
  · rw [Option.mem_toList.mp hnew] at hrow
    obtain ⟨found, hspans, hfound⟩ := map_eq_ok hrow
    obtain ⟨spans, rfl, hsome⟩ := Option.bind_eq_some_iff.mp hfound
    dsimp only at hsome
    split_ifs at hsome
    obtain rfl := Option.some.inj hsome
    obtain ⟨rs, hrs, hextract⟩ := hsound.chain_of_tail htail
    have htiled := hsound.tiled hrs
    refine ⟨rs, htiled, rowSteps_eq htiled ?_, fun r hr => hsound.allowed r (hrs.mem_built r hr)⟩
    rw [rowSpans_eq hspans, hextract]

/-! ## The step over a forced run -/

theorem Tiled.bounds (h : Tiled a b rs) : a ≤ b ∧ ∀ r ∈ rs, a ≤ r.start ∧ r.start < r.stop ∧ r.stop ≤ b := by
  induction h with
  | nil a => simp
  | cons hforward _ ih =>
    obtain ⟨hle, hrest⟩ := ih
    refine ⟨by omega, fun r hr => ?_⟩
    rcases mem_cons.mp hr with rfl | hr
    · exact ⟨Nat.le_refl _, hforward, hle⟩
    · have := hrest r hr
      omega

/-- One record of a tiling is over a position. -/
theorem Tiled.over (h : Tiled a b rs) (p : Nat) :
    rs.countP (fun r => r.start ≤ p ∧ p < r.stop) = if a ≤ p ∧ p < b then 1 else 0 := by
  induction h with
  | nil a => simp
  | cons hforward hrest ih =>
    have hle := hrest.bounds.1
    rw [countP_cons, ih]
    simp only [decide_eq_true_eq]
    split_ifs <;> omega

/-- The steps of a row tile the buffer, each where the constraints let one start and end. -/
theorem nbestSentences_tile {constraints : Option ConstraintStore} {rows : List (NbestRow α)}
    (h : nbestSentences ops dictionary model view bound constraints seeds shape = .ok rows) :
    ∀ row ∈ rows, (∀ p < bound, row.steps.countP (fun x => x.start ≤ p ∧ p < x.stop) = 1) ∧
      ∀ x ∈ row.steps, x.start < x.stop ∧ x.stop ≤ bound ∧ Allowed constraints x.start x.stop x.token := by
  intro row hrow
  obtain ⟨rs, htiled, hsteps, hallowed⟩ := chain_of_row h row hrow
  rw [hsteps]
  refine ⟨fun p hp => ?_, fun x hx => ?_⟩
  · rw [countP_map]
    exact (htiled.over p).trans (if_pos ⟨Nat.zero_le p, hp⟩)
  · obtain ⟨r, hr, rfl⟩ := mem_map.mp hx
    obtain ⟨_, hforward, hstop⟩ := htiled.bounds.2 r hr
    exact ⟨hforward, hstop, hallowed r hr⟩

/-- The record over a position, with the tilings before and behind it. -/
theorem Tiled.split_at {s : Nat} (h : Tiled a b rs) (ha : a ≤ s)
    (hb : s < b) : ∃ front r back, rs = front ++ r :: back ∧ r.start ≤ s ∧ s < r.stop ∧
      Tiled a r.start front ∧ Tiled r.stop b back := by
  induction h with
  | nil a => omega
  | @cons r b rs hforward hrest ih =>
    rcases Nat.lt_or_ge s r.stop with hlt | hge
    · exact ⟨[], r, rs, rfl, ha, hlt, .nil _, hrest⟩
    · obtain ⟨front, r', back, rfl, hstart, hstop, hfront, hback⟩ := ih hge hb
      exact ⟨r :: front, r', back, rfl, hstart, hstop, .cons hforward hfront, hback⟩

variable {store : ConstraintStore}

/-- A span the constraints allow over the start of a run is the run. -/
theorem Allowed.eq_run (hinv : store.RunInvariant) {s e start stop : Nat}
    {token forced : PhraseToken} {text : PhraseText}
    (hcell : store[s]? = some (.oneStep forced e text)) (hwide : s + 2 ≤ e)
    (hallowed : Allowed (some store) start stop token) (hstart : start ≤ s) (hstop : s < stop) :
    start = s ∧ stop = e ∧ token = forced := by
  obtain ⟨hfirst, hspan⟩ := hallowed
  have hrun : ConstraintStore.IsRun store s e := ⟨forced, text, hcell⟩
  rcases Nat.lt_or_eq_of_le hstart with hlt | rfl
  · exfalso
    -- a free span runs over the first mark, and a forced one would hold the run's start
    have hmark : isNoSearch (some store) (s + 1) = true := by
      have := hinv.interior s e hrun (s + 1) (Nat.lt_succ_self s) hwide
      simp [isNoSearch, cellAt, this]
    have hfree : ¬ ∀ i, start < i → i ≤ stop → isNoSearch (some store) i = false := by
      intro hfree
      rw [hfree (s + 1) (by omega) hstop] at hmark
      cases hmark
    split at hspan
    · rename_i forced' stop' text' hat
      have hrun' : ConstraintStore.IsRun store start stop := by
        rw [hspan.1]
        exact ⟨forced', text', hat⟩
      have := hinv.disjoint start stop s e hrun' hrun hlt
      omega
    · exact hfree hspan
  · have hat : cellAt (some store) start = some (.oneStep forced e text) := hcell
    rw [hat] at hspan
    exact ⟨rfl, hspan⟩

/-- Every row of a constrained decode has each forced run of two bytes or more below the
bound as exactly one step, and every other step ends before the run or starts behind it. -/
theorem nbestSentences_forced {rows : List (NbestRow α)} {s e : Nat} {token : PhraseToken}
    {text : PhraseText} (hinv : store.RunInvariant)
    (hcell : store[s]? = some (.oneStep token e text)) (hwide : s + 2 ≤ e) (hbound : e ≤ bound)
    (h : nbestSentences ops dictionary model view bound (some store) seeds shape = .ok rows) :
    ∀ row ∈ rows, row.steps.count ⟨s, e, token⟩ = 1 ∧
      ∀ x ∈ row.steps, x.start < x.stop ∧ (x = ⟨s, e, token⟩ ∨ x.stop ≤ s ∨ e ≤ x.start) := by
  intro row hrow
  obtain ⟨rs, htiled, hsteps, hallowed⟩ := chain_of_row h row hrow
  obtain ⟨front, r, back, rfl, hstart, hstop, hfront, hback⟩ :=
    htiled.split_at (Nat.zero_le s) (by omega)
  obtain ⟨rfl, rfl, rfl⟩ := (hallowed r (by simp)).eq_run hinv hcell hwide hstart hstop
  have hbefore : ∀ x ∈ front.map Built.rowStep, x.start < x.stop ∧ x.stop ≤ r.start := by
    intro x hx
    obtain ⟨r', hr', rfl⟩ := List.mem_map.mp hx
    exact (hfront.bounds.2 r' hr').2
  have hbehind : ∀ x ∈ back.map Built.rowStep, r.stop ≤ x.start ∧ x.start < x.stop := by
    intro x hx
    obtain ⟨r', hr', rfl⟩ := List.mem_map.mp hx
    have := hback.bounds.2 r' hr'
    exact ⟨this.1, this.2.1⟩
  rw [hsteps, List.map_append, List.map_cons]
  change (_ ++ r.rowStep :: _).count r.rowStep = 1 ∧ _
  constructor
  · have hnotin : r.rowStep ∉ front.map Built.rowStep ∧ r.rowStep ∉ back.map Built.rowStep := by
      constructor
      · intro hmem
        have := (hbefore _ hmem).2
        simp only [Built.rowStep] at this
        omega
      · intro hmem
        have := (hbehind _ hmem).1
        simp only [Built.rowStep] at this
        omega
    rw [List.count_append, List.count_cons_self, List.count_eq_zero.mpr hnotin.1, List.count_eq_zero.mpr hnotin.2]
  · intro x hx
    rcases List.mem_append.mp hx with hx | hx
    · exact ⟨(hbefore x hx).1, Or.inr (Or.inl (hbefore x hx).2)⟩
    · rcases List.mem_cons.mp hx with rfl | hx
      · exact ⟨show r.start < r.stop by omega, Or.inl rfl⟩
      · exact ⟨(hbehind x hx).2, Or.inr (Or.inr (hbehind x hx).1)⟩

end

/-- The column of `an`, read as one key. -/
def oneWideColumn : GenerationView :=
  ⟨[[⟨firstKey, 0, 2, 0, false, 0⟩], [], []], [false, false, true]⟩

/-- A run over both bytes. -/
def forcedStore : ConstraintStore :=
  (ConstraintStore.add (ConstraintStore.resize [] 2) 0 2 7#32 (.scalar ['a'])).1

theorem forcedStore_runInvariant : forcedStore.RunInvariant := by
  refine (ConstraintStore.Whole.add (ConstraintStore.whole_nil.resize ?_) _ _ _ _).runInvariant
  rintro start stop ⟨hrun, _⟩
  simpa using hrun.lt_length

/-- The decode of `an` with a run over both bytes has a row, with the run as its step. -/
theorem nbestSentences_forced_an : ∃ rows,
    nbestSentences fixedPoint (singleKeyDictionary 1) evenModel oneWideColumn 2 (some forcedStore)
      [sentenceStart] .pinyin = .ok rows ∧
    rows ≠ [] ∧ ∀ row ∈ rows, row.steps.count ⟨0, 2, 7#32⟩ = 1 := by
  have hrun : ((nbestSentences fixedPoint (singleKeyDictionary 1) evenModel oneWideColumn 2
      (some forcedStore) [sentenceStart] .pinyin).toOption.map List.length) = some 1 := by
    decide +kernel
  obtain ⟨rows, hok, hlength⟩ := Option.map_eq_some_iff.mp hrun
  have hrows := eq_ok_of_toOption hok
  refine ⟨rows, hrows, List.ne_nil_of_length_eq_add_one hlength, fun row hrow => ?_⟩
  exact (nbestSentences_forced forcedStore_runInvariant rfl (by decide) (by decide) hrows row
    hrow).1

/-- Without constraints `an` has a row too. -/
theorem nbestSentences_tile_an : ∃ rows,
    nbestSentences fixedPoint (singleKeyDictionary 1) evenModel oneWideColumn 2 none [sentenceStart] .pinyin =
      .ok rows ∧
    rows ≠ [] ∧ ∀ row ∈ rows, row.steps.countP (fun x => x.start ≤ 1 ∧ 1 < x.stop) = 1 := by
  have hrun : ((nbestSentences fixedPoint (singleKeyDictionary 1) evenModel oneWideColumn 2
      none [sentenceStart] .pinyin).toOption.map length) = some 1 := by
    decide +kernel
  obtain ⟨rows, hok, hlength⟩ := Option.map_eq_some_iff.mp hrun
  have hrows := eq_ok_of_toOption hok
  exact ⟨rows, hrows, ne_nil_of_length_eq_add_one hlength,
    fun row hrow => (nbestSentences_tile hrows row hrow).1 1 (by decide)⟩

end Oxpinyin
