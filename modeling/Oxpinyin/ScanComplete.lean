import Oxpinyin.CandidateScan
import Oxpinyin.Lib.Picks

/-!
# The window scan is complete

The scan stops widening at the first window that matched and cannot continue, and skips ends that
are apostrophes. `collectWindowScan_complete` : over the retained parse of any buffer it still finds
every phrase of every key path from its anchor, if no key ends with an apostrophe and the dictionary
says of a path whether a longer one has a match.

A key path behind a window has to cross the end of the window or to go through it
(`Leads.crosses_or_splits`), so that the window would have continued.
-/

namespace Oxpinyin

open List SegmentGraph Picks Except Or Run
open Bool hiding not_or false_and
open ScanBuf hiding append_assoc

/-! ## The retained parse of a buffer -/

/-- The raw buffer of a session, with the segments another parser made of it. -/
structure InputBuffer where
  raw : Bytes
  exact_ : List ExactSegment
  parsedFullPinyin : Bool
  formattingSeparators : Bool

namespace InputBuffer

/-- Whether the keys are those of full pinyin. -/
def fullPinyin (input : InputBuffer) : Bool := input.exact_.isEmpty || input.parsedFullPinyin

/-- Whether apostrophes are separators the user typed. -/
def physicalSeparators (input : InputBuffer) : Bool := !input.formattingSeparators && input.exact_.isEmpty

/-- Builds the scan matrix and the parsed matrix of the buffer. -/
def buildRetainedParse (input : InputBuffer) (options : OptionBits) (collapse : Bool) :
    Except GraphError RetainedParse := do
  let graph ← buildUncachedGraphAt input.raw input.exact_ options 0
  let scan := buildScanMatrixOver graph (graph.fewestKeys options.hasIncomplete) options
    (input.fullPinyin && !collapse)
  .ok ⟨scan, .fromScan scan graph.consumed input.physicalSeparators⟩

end InputBuffer

open InputBuffer

section Retained

variable {input : InputBuffer} {options : OptionBits} {collapse : Bool} {retained : RetainedParse}

/-- What a retained parse is made of. -/
theorem exists_graph (h : input.buildRetainedParse options collapse = .ok retained) :
    ∃ graph, buildUncachedGraphAt input.raw input.exact_ options 0 = .ok graph ∧
      retained.matrix = .fromScan (buildScanMatrixOver graph (graph.fewestKeys options.hasIncomplete) options
        (input.fullPinyin && !collapse)) graph.consumed input.physicalSeparators := by
  obtain ⟨graph, hgraph, h⟩ := bind_eq_ok h
  obtain rfl := ok.inj h
  exact ⟨graph, hgraph, rfl⟩

/-- For a buffer that no other parser has read, it is the retained parse of its input. -/
theorem buildRetainedParse_eq (raw : Bytes) (options : OptionBits) (collapse formatting : Bool) :
    buildRetainedParse ⟨raw, [], false, formatting⟩ options collapse =
      ParseInput.retainedParse ⟨raw, options, !collapse, !formatting⟩ := by
  unfold buildRetainedParse ParseInput.retainedParse ParseInput.selectedPath
  rw [buildUncachedGraphAt_zero]
  dsimp only [isEmpty_nil]
  rw [if_pos rfl]
  cases buildWithOptions raw options with
  | error e => rfl
  | ok graph => simp [fullPinyin, physicalSeparators, bind, Except.bind, Except.map]

section

variable (h : input.buildRetainedParse options collapse = .ok retained)
include h

theorem bound_retained :
    retained.matrix.bound ≤ maxGraphPosition := by
  obtain ⟨graph, hgraph, hmatrix⟩ := exists_graph h
  rw [hmatrix]
  change graph.consumed ≤ _
  rw [buildUncachedGraphAt_zero] at hgraph
  split_ifs at hgraph with hempty
  · exact Nat.le_trans (reach_le (consumed_spec hgraph).1)
      ((exists_buildWithOptions_iff input.raw options).mp ⟨graph, hgraph⟩)
  · obtain ⟨last, hchain, _, _, hlong, _, hconsumed⟩ := parts_buildExact hgraph
    rw [hconsumed]
    exact Nat.le_trans hchain.inside hlong

/-- No key stands at a zero cell of a retained matrix. -/
theorem blank_retained : retained.matrix.Blank := by
  obtain ⟨graph, hgraph, hmatrix⟩ := exists_graph h
  rw [hmatrix]
  intro p hp hzero
  obtain ⟨hphysical, _⟩ := (ParsedMatrix.fromScan_spec _ _ _).2.2.1 p hp hzero
  rw [physicalSeparators, and_eq_true] at hphysical
  rw [buildUncachedGraphAt_zero, if_pos hphysical.2] at hgraph
  obtain ⟨last, hle, hwalk, hedges, _⟩ := @fewestKeys_spec _ _ _ options.hasIncomplete hgraph
  have hover : SelectedOver input.raw options graph (graph.fewestKeys options.hasIncomplete) last :=
    ⟨hgraph, hwalk, fun edge he => (hedges edge he).1, hle⟩
  have hseparators : input.physicalSeparators = true := by
    rw [physicalSeparators, and_eq_true]
    exact hphysical
  rw [hseparators] at hzero ⊢
  refine hover.columns_nil (Nat.le_of_lt hp) ?_
  by_cases hne : graph.fewestKeys options.hasIncomplete = []
  · rintro ⟨edge, hedge, _⟩
    rw [hne] at hedge
    cases hedge
  · exact (hover.zeros_cases hne hp hzero).2.1

end

end Retained

/-! ## Windows -/

section Window

variable {ε : Type} {dictionary : CandidateDictionary ε} {explicit : Bool} {matrix : ParsedMatrix}
  {anchor stop : Nat}

/-- The path of keys. -/
def pathOf (keys : List ScanKey) : KeyPath := KeyPath.extend ⟨[], []⟩ keys

/-- A key path of a window that the scan searches. -/
def Searched (matrix : ParsedMatrix) (anchor stop : Nat) (keys : List ScanKey) : Prop :=
  matrix.hasCell stop = true ∧ Spans matrix stop anchor keys ∧ keys.length ≤ maxPhraseLength

/-- A row that a search finds. -/
def ScanBuf.Holds (found : ScanBuf) (row : Candidate) : Prop := row ∈ found.system ∨ row ∈ found.addon

/-- What the visits of a window find together. -/
structure Gathered (alone : Visit → Except (EngineError ε) ScanBuf) (visits : List Visit) (total : ScanBuf) :
    Prop where
  rows : ∀ row, total.Holds row ↔ ∃ v ∈ visits, ∃ found, alone v = .ok found ∧ found.Holds row
  continued : total.continued = true ↔ ∃ v ∈ visits, ∃ found, alone v = .ok found ∧ found.continued = true
  searched : ∀ v ∈ visits, ∃ found, alone v = .ok found

theorem visit_eq (stop : Nat) (buf : ScanBuf) (v : Visit) :
    visit dictionary explicit anchor stop buf v = (visit dictionary explicit anchor stop .empty v).map
      buf.append := by
  cases v with
  | crosses => simp [visit, Except.map, append, empty]
  | path path => exact searchScanPath_eq path stop buf

theorem Gathered.cons {alone : Visit → Except (EngineError ε) ScanBuf} {v : Visit} {rest : List Visit}
    {found total : ScanBuf} (hfound : alone v = .ok found) (h : Gathered alone rest total) :
    Gathered alone (v :: rest) (found.append total) := by
  have hhead : ∀ other, alone v = .ok other ↔ found = other := by
    intro other
    rw [hfound, ok.injEq]
  refine ⟨fun row => ?_, ?_, fun w hw => ?_⟩
  · have hrest := h.rows row
    unfold ScanBuf.Holds at hrest ⊢
    simp only [exists_mem_cons_iff, hhead, exists_eq_left', ← hrest, append, mem_append]
    tauto
  · simp only [exists_mem_cons_iff, hhead, exists_eq_left', ← h.continued, append, or_eq_true]
  · rcases mem_cons.mp hw with rfl | hw
    · exact ⟨found, hfound⟩
    · exact h.searched w hw

/-- The visits of a window find what each finds on its own, or fail with one of them. -/
theorem foldlM_visit : ∀ (visits : List Visit) (buf : ScanBuf),
    (∃ total, visits.foldlM (visit dictionary explicit anchor stop) buf = .ok (buf.append total) ∧
      Gathered (visit dictionary explicit anchor stop .empty) visits total) ∨
    ∃ e, visits.foldlM (visit dictionary explicit anchor stop) buf = .error e ∧
      ∃ v ∈ visits, visit dictionary explicit anchor stop .empty v = .error e
  | [], buf => by
    refine inl ⟨.empty, congrArg ok (append_empty buf).symm, ?_⟩
    constructor
    · simp [ScanBuf.Holds, empty]
    · simp [empty]
    · simp
  | v :: rest, buf => by
    rw [foldlM_cons, visit_eq]
    cases hfound : visit dictionary explicit anchor stop .empty v with
    | error e => exact inr ⟨e, rfl, v, mem_cons_self, hfound⟩
    | ok found =>
      rcases foldlM_visit rest (buf.append found) with ⟨total, hrun, hgathered⟩ | ⟨e, hrun, w, hw, hfail⟩
      · refine inl ⟨found.append total, ?_, hgathered.cons hfound⟩
        rw [← ScanBuf.append_assoc]
        exact hrun
      · exact inr ⟨e, hrun, w, mem_cons_of_mem _ hw, hfail⟩

/-- The search of a key path, on its own. -/
def searchAlone (dictionary : CandidateDictionary ε) (explicit : Bool) (anchor stop : Nat) (keys : List ScanKey) :
    Except (EngineError ε) ScanBuf :=
  searchScanPath dictionary explicit anchor (pathOf keys) stop .empty

/-- What a window finds. -/
structure WindowFound (dictionary : CandidateDictionary ε) (explicit : Bool) (matrix : ParsedMatrix)
    (anchor stop : Nat) (total : ScanBuf) : Prop where
  searched : ∀ keys, Searched matrix anchor stop keys →
    ∃ found, searchAlone dictionary explicit anchor stop keys = .ok found
  rows : ∀ row, total.Holds row ↔ ∃ keys, Searched matrix anchor stop keys ∧
    ∃ found, searchAlone dictionary explicit anchor stop keys = .ok found ∧ found.Holds row
  crosses : matrix.hasCell stop = true → ∀ keys, Crosses matrix stop anchor keys → keys.length ≤ maxPhraseLength →
    total.continued = true
  probes : ∀ keys found, Searched matrix anchor stop keys →
    searchAlone dictionary explicit anchor stop keys = .ok found → found.continued = true → total.continued = true

theorem mem_window_visits (hblank : matrix.Blank) (hstop : stop ≤ matrix.bound) (v : Visit) :
    v ∈ scanVisits matrix stop anchor ⟨[], []⟩ ↔
      ∃ keys, keys.length ≤ maxPhraseLength ∧ Visits matrix stop anchor ⟨[], []⟩ keys v := by
  rw [mem_scanVisits hblank hstop v anchor ⟨[], []⟩ (by decide)]
  simp

/-- A window finds what its key paths find on their own, or fails with one of them. -/
theorem window_spec (hblank : matrix.Blank) (hstop : stop ≤ matrix.bound) (buf : ScanBuf) :
    (∃ total, scanParsedPaths dictionary explicit matrix anchor stop anchor ⟨[], []⟩ buf = .ok (buf.append total) ∧
      WindowFound dictionary explicit matrix anchor stop total) ∨
    ∃ e keys, scanParsedPaths dictionary explicit matrix anchor stop anchor ⟨[], []⟩ buf = .error e ∧
      Searched matrix anchor stop keys ∧ searchAlone dictionary explicit anchor stop keys = .error e := by
  cases hcell : matrix.hasCell stop with
  | false =>
    refine inl ⟨.empty, ?_, ?_⟩
    · rw [scanParsedPaths_of_not_hasCell hcell, append_empty]
    · have hnone : ∀ keys, ¬ Searched matrix anchor stop keys := by
        rintro keys ⟨hsome, _⟩
        rw [hcell] at hsome
        cases hsome
      refine ⟨fun keys h => absurd h (hnone keys), fun row => ?_, fun hsome => ?_, fun keys _ h =>
        absurd h (hnone keys)⟩
      · simp [hnone, ScanBuf.Holds, empty]
      · rw [hcell] at hsome
        cases hsome
  | true =>
    rw [visits_eq stop anchor ⟨[], []⟩ buf hcell]
    have hmem := @mem_window_visits matrix anchor stop hblank hstop
    rcases @foldlM_visit ε dictionary explicit anchor stop (scanVisits matrix stop anchor ⟨[], []⟩) buf with
      ⟨total, hrun, hgathered⟩ | ⟨e, hrun, v, hv, hfail⟩
    · have hpath : ∀ keys, Searched matrix anchor stop keys →
          .path (pathOf keys) ∈ scanVisits matrix stop anchor ⟨[], []⟩ := by
        rintro keys ⟨_, hspans, hlen⟩
        exact (hmem _).mpr ⟨keys, hlen, inl ⟨hspans, rfl⟩⟩
      refine inl ⟨total, hrun, fun keys hkeys => hgathered.searched _ (hpath keys hkeys), fun row => ?_,
        fun _ keys hcrosses hlen => ?_, fun keys found hkeys hfound hcontinued => ?_⟩
      · rw [hgathered.rows]
        constructor
        · rintro ⟨v, hv, found, hfound, hrow⟩
          obtain ⟨keys, hlen, ⟨hspans, rfl⟩ | ⟨_, rfl⟩⟩ := (hmem v).mp hv
          · exact ⟨keys, ⟨hcell, hspans, hlen⟩, found, hfound, hrow⟩
          · obtain rfl := ok.inj hfound
            simp [ScanBuf.Holds, empty] at hrow
        · rintro ⟨keys, hkeys, found, hfound, hrow⟩
          exact ⟨_, hpath keys hkeys, found, hfound, hrow⟩
      · exact hgathered.continued.mpr ⟨.crosses, (hmem _).mpr ⟨keys, hlen, inr ⟨hcrosses, rfl⟩⟩, _, rfl, rfl⟩
      · exact hgathered.continued.mpr ⟨_, hpath keys hkeys, found, hfound, hcontinued⟩
    · obtain ⟨keys, hlen, ⟨hspans, rfl⟩ | ⟨_, rfl⟩⟩ := (hmem v).mp hv
      · exact inr ⟨e, keys, hrun, ⟨hcell, hspans, hlen⟩, hfail⟩
      · cases hfail

/-! ## Longer windows -/

variable {stop' : Nat} {path : KeyPath} {total : ScanBuf}

variable {keys : List ScanKey} {buf found : ScanBuf}

/-- A key path that ends behind a window crosses its end or goes through it. -/
theorem Leads.crosses_or_splits (hblank : matrix.Blank) (hbound : stop' ≤ matrix.bound)
    (hlt : stop < stop') (hcolumn : matrix.columns.getD stop [] ≠ []) {p : Nat} (h : Spans matrix stop' p keys)
    (hp : p ≤ stop) :
    (∃ front, Crosses matrix stop p front ∧ front.length ≤ keys.length) ∨
      ∃ front back, keys = front ++ back ∧ back ≠ [] ∧ Spans matrix stop p front := by
  unfold Spans at h
  induction h with
  | @zero p keys hp' hzero _ ih =>
    rcases Nat.lt_or_eq_of_le hp with hlow | rfl
    · rcases ih hlow with ⟨front, hcrosses, hlen⟩ | ⟨front, back, hkeys, hne, hspans⟩
      · exact inl ⟨front, .zero hlow hzero hcrosses, hlen⟩
      · exact inr ⟨front, back, hkeys, hne, .zero hlow hzero hspans⟩
    · -- a zero cell at the end of the window would have no key
      exact absurd (hblank p (by omega) hzero) hcolumn
  | @last p key hkey hto => exact inl ⟨[key], .last hkey (by omega), Nat.le_refl _⟩
  | @key p key keys hkey hto hrest ih =>
    rcases Nat.lt_trichotomy key.to_ stop with hlow | heq | hhigh
    · rcases ih (Nat.le_of_lt hlow) with ⟨front, hcrosses, hlen⟩ | ⟨front, back, hkeys, hne, hspans⟩
      · exact inl ⟨key :: front, .key hkey hlow hcrosses, Nat.succ_le_succ hlen⟩
      · exact inr ⟨key :: front, back, congrArg (List.cons key) hkeys, hne, .key hkey hlow hspans⟩
    · exact inr ⟨[key], keys, rfl, hrest.ne_nil, .last hkey heq⟩
    · exact inl ⟨[key], .last hkey hhigh, Nat.succ_le_succ (Nat.zero_le _)⟩

theorem Leads.exists_last {last : ScanKey → Prop} {p : Nat} {keys : List ScanKey}
    (h : Leads matrix stop last p keys) :
    ∃ q key, key ∈ matrix.columns.getD q [] ∧ last key := by
  induction h with
  | zero _ _ _ ih => exact ih
  | @last p key hkey hlast => exact ⟨p, key, hkey, hlast⟩
  | key _ _ _ ih => exact ih

/-- The dictionary says of a path whether a longer one has a match. -/
def CandidateDictionary.Probes (dictionary : CandidateDictionary ε) : Prop :=
  ∀ front back : List ScanKey, front ≠ [] → back ≠ [] → ∀ stop stop' found longer,
    searchDictionary dictionary (pathOf front) stop .empty = .ok found →
    searchDictionary dictionary (pathOf (front ++ back)) stop' .empty = .ok longer →
    (∃ row, longer.Holds row) → found.continued = true

theorem searchDictionary_of_ok
    (h : searchScanPath dictionary explicit anchor path stop buf = .ok found) :
    searchDictionary dictionary path (stop - anchor) buf = .ok found := by
  unfold searchScanPath at h
  split_ifs at h
  · obtain ⟨_, _, hsearch⟩ := bind_eq_ok h
    exact hsearch
  · exact h

/-- Behind a window that cannot continue there is no match. -/
theorem WindowFound.none_behind (hprobe : dictionary.Probes) (hblank : matrix.Blank)
    (h : WindowFound dictionary explicit matrix anchor stop total) (hcolumn : matrix.columns.getD stop [] ≠ [])
    (hcontinued : total.continued = false) (hanchor : anchor ≤ stop) (hlt : stop < stop')
    (hbound : stop' ≤ matrix.bound) (hkeys : Searched matrix anchor stop' keys)
    (hfound : searchAlone dictionary explicit anchor stop' keys = .ok found) (row : Candidate) :
    ¬ found.Holds row := by
  intro hrow
  have hcell : matrix.hasCell stop = true := by
    rw [ParsedMatrix.hasCell, or_eq_true, not_eq_true', isEmpty_eq_false_iff]
    exact inl hcolumn
  obtain ⟨_, hspans, hlen⟩ := hkeys
  rcases Leads.crosses_or_splits hblank hbound hlt hcolumn hspans hanchor with
    ⟨front, hcrosses, hle⟩ | ⟨front, back, rfl, hne, hfront⟩
  · have := h.crosses hcell front hcrosses (Nat.le_trans hle hlen)
    rw [hcontinued] at this
    cases this
  · have hsearched : Searched matrix anchor stop front := by
      rw [length_append] at hlen
      exact ⟨hcell, hfront, by omega⟩
    obtain ⟨shorter, hshorter⟩ := h.searched front hsearched
    have hprobed := hprobe front back hfront.ne_nil hne _ _ _ _ (searchDictionary_of_ok hshorter)
      (searchDictionary_of_ok hfound) ⟨row, hrow⟩
    have := h.probes front shorter hsearched hshorter hprobed
    rw [hcontinued] at this
    cases this

/-! ## Rows of a window -/

/-- A row of a window that ends at `stop`. -/
def Candidate.EndsAt (row : Candidate) (stop : Nat) : Prop :=
  (∃ token, row.token = some token) ∧ row.consumedBytes = narrow stop

theorem appendScanEntries_endsAt {entries : List CandidateEntry} {keys stop : Nat} {kind : CandidateKind}
    {into : List Candidate} (h : ∀ row ∈ into, row.EndsAt stop) :
    ∀ row ∈ appendScanEntries entries keys stop kind into, row.EndsAt stop := by
  intro row hrow
  rcases mem_append.mp hrow with hrow | hrow
  · exact h row hrow
  · obtain ⟨entry, _, rfl⟩ := mem_map.mp hrow
    exact ⟨⟨_, rfl⟩, rfl⟩

/-- Every row of a window ends at `stop`. -/
def ScanBuf.EndsAt (buf : ScanBuf) (stop : Nat) : Prop :=
  (∀ row ∈ buf.system, row.EndsAt stop) ∧ ∀ row ∈ buf.addon, row.EndsAt stop

theorem lookupAndAppend_endsAt {sequence : List SyllableKey} {tones : List Nat}
    (hbuf : buf.EndsAt stop) (h : lookupAndAppend dictionary sequence tones stop buf = .ok found) :
    found.EndsAt stop := by
  unfold lookupAndAppend at h
  obtain ⟨⟨entries, unreadable⟩, _, h⟩ := bind_eq_ok h
  have hrest : ∀ entries : List CandidateEntry, ∀ addon : List CandidateEntry,
      ScanBuf.EndsAt ⟨appendScanEntries entries sequence.length stop .phrase buf.system,
        appendScanEntries addon sequence.length stop .addon buf.addon, buf.continued,
          buf.unreadable || unreadable⟩ stop :=
    fun entries addon => ⟨appendScanEntries_endsAt hbuf.1, appendScanEntries_endsAt hbuf.2⟩
  dsimp only at h
  split_ifs at h
  · obtain ⟨toned, _, h⟩ := bind_eq_ok h
    obtain ⟨kept, _, h⟩ := bind_eq_ok h
    obtain ⟨addon, _, h⟩ := bind_eq_ok h
    obtain rfl := ok.inj h
    exact hrest _ _
  · obtain ⟨kept, _, h⟩ := bind_eq_ok h
    obtain ⟨addon, _, h⟩ := bind_eq_ok h
    obtain rfl := ok.inj h
    exact hrest _ _

/-- What a search finds ends at its stop. -/
theorem searchDictionary_endsAt (hbuf : buf.EndsAt stop)
    (h : searchDictionary dictionary path stop buf = .ok found) : found.EndsAt stop := by
  unfold searchDictionary at h
  obtain ⟨answer, _, h⟩ := bind_eq_ok h
  cases answer with
  | some answer =>
    obtain ⟨entries, failedItem, extends_⟩ := answer
    obtain ⟨addon, _, h⟩ := bind_eq_ok h
    obtain ⟨addonExtends, _, h⟩ := bind_eq_ok h
    obtain rfl := ok.inj h
    exact ⟨appendScanEntries_endsAt hbuf.1, appendScanEntries_endsAt hbuf.2⟩
  | none =>
    obtain ⟨looked, hlooked, h⟩ := bind_eq_ok h
    obtain ⟨canExtend, _, h⟩ := bind_eq_ok h
    obtain ⟨addonExtend, _, h⟩ := bind_eq_ok h
    obtain rfl := ok.inj h
    have hends : looked.EndsAt stop := by
      unfold lookUpPath at hlooked
      dsimp only at hlooked
      split_ifs at hlooked
      · have hkeep : ∀ (before : ScanBuf) (sequence : List SyllableKey) (after : ScanBuf),
            sequence ∈ expandKeys path.keys scanExpansionLimit → before.EndsAt stop →
            lookupAndAppend dictionary sequence path.tones stop before = .ok after → after.EndsAt stop :=
          fun _ _ _ _ hbefore hstep => lookupAndAppend_endsAt hbefore hstep
        have hdone := foldlM_inv hkeep hbuf hlooked
        exact hdone
      · exact lookupAndAppend_endsAt hbuf hlooked
    exact hends

/-- What a search finds ends where the window does. -/
theorem searchAlone_endsAt
    (h : searchAlone dictionary explicit anchor stop keys = .ok found) {row : Candidate} (hrow : found.Holds row) :
    row.EndsAt (stop - anchor) := by
  have hends := searchDictionary_endsAt ⟨by simp [empty], by simp [empty]⟩ (searchDictionary_of_ok h)
  rcases hrow with hrow | hrow
  · exact hends.1 row hrow
  · exact hends.2 row hrow

/-- The pass over a window keeps the rows whose tokens it has not seen. -/
theorem firstOfToken_eq (rows : List Candidate) : ∀ seen : List PhraseToken,
    firstOfToken seen rows = keepUnseen Candidate.token seen rows := by
  induction rows with
  | nil => exact fun _ => rfl
  | cons row rows ih =>
    intro seen
    rw [firstOfToken, keepUnseen]
    cases row.token with
    | none => exact congrArg (row :: ·) (ih seen)
    | some token =>
      simp only [contains_iff_mem]
      rw [ih, ih]

/-- The rows of a window are ordered behind those of the windows before it, and every token is kept. -/
theorem orderWindowTail_append (into tail : List Candidate) :
    ∃ rows, orderWindowTail (into ++ tail) into.length = into ++ rows ∧ (∀ row ∈ rows, row ∈ tail) ∧
      ∀ token, (∃ row ∈ tail, row.token = some token) → ∃ row ∈ rows, row.token = some token := by
  unfold orderWindowTail
  split_ifs
  · exact ⟨tail, rfl, fun row hrow => hrow, fun token h => h⟩
  · refine ⟨firstOfToken [] (tail.mergeSort fun a b => windowLibrary a ≤ windowLibrary b), ?_, fun row hrow => ?_,
      fun token h => ?_⟩
    · rw [sortDedupWindowTail, take_left, drop_left]
    · rw [firstOfToken_eq] at hrow
      exact mem_mergeSort.mp ((keepUnseen_sublist _ _ _).mem hrow)
    · obtain ⟨row, hrow, htoken⟩ := h
      rw [firstOfToken_eq]
      exact exists_mem_keepUnseen ⟨row, mem_mergeSort.mpr hrow, htoken⟩

/-! ## The scan -/

theorem getElem?_of_skipped {input : Bytes} {bound : Nat} : ∀ {first stop : Nat}, first ≤ stop →
    stop < skipSeparators input bound first → input[stop - 1]? = some apostrophe := by
  intro first
  induction first using skipSeparators.induct input bound with
  | case1 first h ih =>
    intro stop hle hlt
    rw [skipSeparators, if_pos h] at hlt
    rcases Nat.eq_or_lt_of_le hle with rfl | hmore
    · exact h.2
    · exact ih hmore hlt
  | case2 first h =>
    intro stop hle hlt
    rw [skipSeparators, if_neg h] at hlt
    omega

/-- A token with the length of input it covers, found by searching a key path. -/
def Finds (dictionary : CandidateDictionary ε) (explicit : Bool) (matrix : ParsedMatrix) (anchor : Nat)
    (token : PhraseToken) (stop : Nat) : Prop :=
  0 < stop ∧ anchor + stop ≤ matrix.bound ∧ ∃ keys, Searched matrix anchor (anchor + stop) keys ∧
    ∃ found, searchAlone dictionary explicit anchor (anchor + stop) keys = .ok found ∧
      ∃ row, found.Holds row ∧ row.token = some token

/-- A key path that cannot be searched. -/
def Fails (dictionary : CandidateDictionary ε) (explicit : Bool) (matrix : ParsedMatrix) (anchor : Nat)
    (error : EngineError ε) : Prop :=
  ∃ stop keys, 0 < stop ∧ anchor + stop ≤ matrix.bound ∧ Searched matrix anchor (anchor + stop) keys ∧
    searchAlone dictionary explicit anchor (anchor + stop) keys = .error error

/-- Rows with the tokens and ends that a property has. -/
def RowsOf (rows : List Candidate) (found : PhraseToken → Nat → Prop) : Prop :=
  ∀ token stop, (∃ row ∈ rows, row.token = some token ∧ row.consumedBytes = stop) ↔ found token stop

variable {raw : Bytes}

/-- No phrase is found at an end behind an apostrophe. -/
theorem not_finds_of_apostrophe (hends : ∀ p key, key ∈ matrix.columns.getD p [] →
    raw[key.to_ - 1]? ≠ some apostrophe)
    {token : PhraseToken} {end_ : Nat} (hsep : (raw.drop anchor)[end_ - 1]? = some apostrophe) :
    ¬ Finds dictionary explicit matrix anchor token end_ := by
  rintro ⟨hpos, _, keys, ⟨_, hspans, _⟩, _⟩
  obtain ⟨p, key, hkey, hto⟩ := Leads.exists_last hspans
  refine hends p key hkey ?_
  rw [hto, Nat.add_sub_assoc hpos, ← getElem?_drop]
  exact hsep

/-- The rows of one window are its phrases. -/
theorem rows_of_window (hshort : matrix.bound < 2 ^ 32) (hpos : 0 < stop)
    (hbound : anchor + stop ≤ matrix.bound) (h : WindowFound dictionary explicit matrix anchor (anchor + stop) total)
    (into : List Candidate) :
    ∃ rows, flushWindowBatch total.addon (orderWindowTail (into ++ total.system) into.length) = into ++ rows ∧
      RowsOf rows fun token end_ => end_ = stop ∧ Finds dictionary explicit matrix anchor token end_ := by
  obtain ⟨system, hsystem, hsub, hall⟩ := orderWindowTail_append into total.system
  obtain ⟨addon, haddon, hsub', hall'⟩ := orderWindowTail_append (into ++ system) total.addon
  have hmem : ∀ row, row ∈ system ++ addon → total.Holds row := by
    intro row hrow
    rcases mem_append.mp hrow with hrow | hrow
    · exact inl (hsub row hrow)
    · exact inr (hsub' row hrow)
  have hends : ∀ row, total.Holds row → row.consumedBytes = stop := by
    intro row hrow
    obtain ⟨keys, _, found, hfound, hholds⟩ := (h.rows row).mp hrow
    rw [(searchAlone_endsAt hfound hholds).2, Nat.add_sub_cancel_left, narrow, if_neg (by omega)]
  refine ⟨system ++ addon, ?_, fun token end_ => ⟨?_, ?_⟩⟩
  · rw [flushWindowBatch, hsystem, haddon, append_assoc]
  · rintro ⟨row, hrow, htoken, rfl⟩
    have hholds := hmem row hrow
    have hend := hends row hholds
    obtain ⟨keys, hkeys, found, hfound, hrow⟩ := (h.rows row).mp hholds
    exact ⟨hend, by omega, by omega, keys, hend ▸ hkeys, found, hend ▸ hfound, row, hrow, htoken⟩
  · rintro ⟨rfl, _, _, keys, hkeys, found, hfound, row, hrow, htoken⟩
    have hkept : ∃ row ∈ system ++ addon, row.token = some token := by
      rcases (h.rows row).mpr ⟨keys, hkeys, found, hfound, hrow⟩ with hrow | hrow
      · obtain ⟨kept, hkept, htoken⟩ := hall token ⟨row, hrow, htoken⟩
        exact ⟨kept, mem_append_left _ hkept, htoken⟩
      · obtain ⟨kept, hkept, htoken⟩ := hall' token ⟨row, hrow, htoken⟩
        exact ⟨kept, mem_append_right _ hkept, htoken⟩
    obtain ⟨kept, hkept, htoken⟩ := hkept
    exact ⟨kept, hkept, htoken, hends kept (hmem kept hkept)⟩

/-- What the windows from an end on find. -/
theorem collectWindows_spec (hblank : matrix.Blank) (hshort : matrix.bound < 2 ^ 32) (hprobe : dictionary.Probes)
    (hends : ∀ p key, key ∈ matrix.columns.getD p [] → raw[key.to_ - 1]? ≠ some apostrophe) :
    ∀ (stop : Nat) (into : List Candidate) (unreadable : Bool), 0 < stop →
      (∃ rows flag, collectWindows dictionary explicit matrix anchor (raw.drop anchor)
        (matrix.bound - anchor) stop into
          unreadable = .ok (into ++ rows, flag) ∧
        RowsOf rows fun token end_ => stop ≤ end_ ∧ Finds dictionary explicit matrix anchor token end_) ∨
      ∃ e, collectWindows dictionary explicit matrix anchor (raw.drop anchor) (matrix.bound - anchor) stop into
          unreadable = .error e ∧ Fails dictionary explicit matrix anchor e := by
  intro stop
  induction hk : matrix.bound - anchor + 1 - stop using Nat.strong_induction_on generalizing stop with
  | _ k ih =>
    intro into unreadable hpos
    rw [collectWindows]
    by_cases hstop : stop ≤ matrix.bound - anchor
    · rw [dif_pos hstop]
      have hbound : anchor + stop ≤ matrix.bound := by omega
      rcases @window_spec ε dictionary explicit matrix anchor (anchor + stop) hblank hbound
          ⟨into, [], (matrix.columns.getD (anchor + stop) []).isEmpty, unreadable⟩ with
        ⟨total, hrun, hwindow⟩ | ⟨e, keys, hrun, hkeys, hfail⟩
      · rw [hrun]
        obtain ⟨rows, hrows, hof⟩ := rows_of_window hshort hpos hbound hwindow into
        have hflush : flushWindowBatch ([] ++ total.addon) (orderWindowTail (into ++ total.system) into.length) =
            into ++ rows := hrows
        dsimp only [append]
        rw [hflush]
        by_cases hlast : (!((matrix.columns.getD (anchor + stop) []).isEmpty || total.continued) &&
            (into ++ rows).length != into.length) = true
        · -- the window that matched and cannot continue : nothing longer matches
          rw [if_pos hlast]
          simp only [and_eq_true, not_eq_true', or_eq_false_iff, isEmpty_eq_false_iff] at hlast
          refine inl ⟨rows, _, rfl, fun token end_ => ?_⟩
          rw [hof token end_]
          refine and_congr_left fun hfinds => ⟨fun heq => Nat.le_of_eq heq.symm, fun hle => ?_⟩
          by_contra hne
          obtain ⟨_, hin, keys, hkeys, found, hfound, row, hrow, _⟩ := hfinds
          exact hwindow.none_behind hprobe hblank hlast.1.1 hlast.1.2 (by omega) (by omega) hin hkeys hfound row hrow
        · rw [if_neg hlast]
          have hskip := le_skipSeparators (raw.drop anchor) (matrix.bound - anchor) (stop + 1)
          have hnext : ∀ token end_, Finds dictionary explicit matrix anchor token end_ →
              (stop ≤ end_ ↔ end_ = stop ∨ skipSeparators (raw.drop anchor) (matrix.bound - anchor)
                (stop + 1) ≤ end_) := by
            intro token end_ hfinds
            refine ⟨fun hle => ?_, fun h => by omega⟩
            by_contra hskipped
            rw [not_or, Nat.not_le] at hskipped
            exact not_finds_of_apostrophe hends (getElem?_of_skipped (by omega) hskipped.2) hfinds
          rcases ih _ (by omega) (skipSeparators (raw.drop anchor) (matrix.bound - anchor) (stop + 1)) rfl
            (into ++ rows)
              (unreadable || total.unreadable) (by omega) with ⟨more, flag, hmore, hofMore⟩ | hfail
          · refine inl ⟨rows ++ more, flag, by rw [hmore, append_assoc], fun token end_ => ?_⟩
            have hrest := hofMore token end_
            have hhere := hof token end_
            constructor
            · rintro ⟨row, hrow, htoken, hend⟩
              rcases mem_append.mp hrow with hrow | hrow
              · obtain ⟨heq, hfinds⟩ := hhere.mp ⟨row, hrow, htoken, hend⟩
                exact ⟨Nat.le_of_eq heq.symm, hfinds⟩
              · obtain ⟨hle, hfinds⟩ := hrest.mp ⟨row, hrow, htoken, hend⟩
                exact ⟨by omega, hfinds⟩
            · rintro ⟨hle, hfinds⟩
              rcases (hnext token end_ hfinds).mp hle with heq | hle
              · obtain ⟨row, hrow, hrest⟩ := hhere.mpr ⟨heq, hfinds⟩
                exact ⟨row, mem_append_left _ hrow, hrest⟩
              · obtain ⟨row, hrow, hrest⟩ := hrest.mpr ⟨hle, hfinds⟩
                exact ⟨row, mem_append_right _ hrow, hrest⟩
          · exact inr hfail
      · rw [hrun]
        exact inr ⟨e, rfl, stop, keys, hpos, hbound, hkeys, hfail⟩
    · rw [dif_neg hstop]
      refine inl ⟨[], unreadable, by rw [append_nil], fun token end_ => ?_⟩
      simp only [not_mem_nil, false_and, exists_false, false_iff]
      rintro ⟨hle, _, hbound, _⟩
      omega

/-- The scan of a retained parse finds the phrases of all key paths from its anchor, at every end with a
cell, or fails with the search of one of them. -/
theorem collectWindowScan_complete {input : InputBuffer} {options : OptionBits} {collapse : Bool}
    {retained : RetainedParse} (h : input.buildRetainedParse options collapse = .ok retained)
    (hends : ∀ p key, key ∈ retained.matrix.columns.getD p [] → input.raw[key.to_ - 1]? ≠ some apostrophe)
    (hanchor : anchor ≤ input.raw.length) (hprobe : dictionary.Probes) (explicit : Bool) (into : List Candidate)
    (unreadable : Bool) :
    (∃ rows flag, collectWindowScan dictionary explicit (some retained.matrix) input.raw (input.raw.drop anchor) into
        unreadable = .ok (into ++ rows, flag) ∧ RowsOf rows (Finds dictionary explicit retained.matrix anchor)) ∨
      ∃ e, collectWindowScan dictionary explicit (some retained.matrix) input.raw (input.raw.drop anchor) into
        unreadable = .error e ∧ Fails dictionary explicit retained.matrix anchor e := by
  have hshort := bound_retained h
  rw [maxGraphPosition] at hshort
  unfold collectWindowScan
  dsimp only
  rw [length_drop, Nat.sub_sub_self hanchor]
  rcases @collectWindows_spec ε dictionary explicit retained.matrix anchor input.raw (blank_retained h) (by omega)
      hprobe hends 1 into unreadable Nat.one_pos with ⟨rows, flag, hrun, hrows⟩ | hfail
  · refine Or.inl ⟨rows, flag, hrun, fun token stop => ?_⟩
    rw [hrows token stop]
    exact ⟨fun hfinds => hfinds.2, fun hfinds => ⟨hfinds.1, hfinds⟩⟩
  · exact Or.inr hfail

end Window

/-- A dictionary of one phrase, that continues every path. -/
def niDictionary : CandidateDictionary Unit where
  candidateSearchInto _ _ := .ok none
  lookupCandidatesInto keys :=
    .ok (if keys.map SyllableKey.text = [[110, 105]] then [⟨.scalar [Char.ofNat 0x4f60], 0x01000001, none⟩]
      else [], false)
  trellisRecords _ _ := .ok []
  lookupAddonCandidatesInto _ := .ok []
  phrasePrefixExists _ := .ok true
  phrasePrefixExistsAddon _ := .ok false
  handlesPartialKeys := true

theorem niDictionary_probes : niDictionary.Probes := by
  intro front back _ _ stop stop' found longer hfound _ _
  obtain ⟨looked, _, h⟩ := bind_eq_ok (show (lookUpPath niDictionary (pathOf front) stop .empty >>= fun buf =>
    ok { buf with continued := buf.continued || (true || false) }) = .ok found from hfound)
  obtain rfl := ok.inj h
  exact or_true _

theorem collectWindowScan_complete_ni : ∃ retained,
    InputBuffer.buildRetainedParse ⟨[110, 105], [], false, false⟩ ⟨0⟩ false = .ok retained ∧
    ((∃ rows flag, collectWindowScan niDictionary true (some retained.matrix) [110, 105] [110, 105] [] false =
        .ok (rows, flag) ∧ RowsOf rows (Finds niDictionary true retained.matrix 0)) ∨
      ∃ e, collectWindowScan niDictionary true (some retained.matrix) [110, 105] [110, 105] [] false = .error e ∧
        Fails niDictionary true retained.matrix 0 e) := by
  obtain ⟨graph, hgraph⟩ := (exists_buildWithOptions_iff [110, 105] ⟨0⟩).mpr (by decide)
  obtain ⟨retained, h⟩ : ∃ retained,
      InputBuffer.buildRetainedParse ⟨[110, 105], [], false, false⟩ ⟨0⟩ false = .ok retained := by
    rw [buildRetainedParse_eq, ParseInput.retainedParse_eq hgraph]
    exact ⟨_, rfl⟩
  refine ⟨retained, h, collectWindowScan_complete h (fun p key _ hsep => ?_)
    (Nat.zero_le _) niDictionary_probes true [] false⟩
  have hmem := mem_of_getElem? hsep
  revert hmem
  decide

end Oxpinyin
