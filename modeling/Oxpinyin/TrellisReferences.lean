import Oxpinyin.Trellis

/-!
# Back references of the trellis

A value refers to the one it extends by position, token and slot. The pass inserts only at
positions it has not reached, so the steps behind it are frozen, and a reference made from
one keeps its meaning (`Sound`, kept by every insertion).

`forward_references` : at the end of the pass every reference names the value it was made
from, so the chain of every tail ends at a seed, its spans tile the input, and its counts
are those of its phrases.
-/

namespace Oxpinyin

open List Option Run Step Except Trellis Value

/-! ## Nodes and indexes -/

section Steps

variable {α β : Type} {ops : FloatOps α β} {step : Step α} {token : PhraseToken}

theorem mem_keep {node : Node α} {value v : Value α} {nstore : Nat}
    (h : v ∈ Node.keep ops node value nstore) : v = value ∨ v ∈ node := by
  cases node with
  | nil => exact Or.inl (mem_singleton.mp h)
  | cons first rest =>
    unfold Node.keep at h
    dsimp only at h
    split_ifs at h with hroom hloses hloses
    · simp only [mem_cons, not_mem_nil, or_false] at h
      exact h.imp_right fun heq => by simp [heq]
    · simp only [mem_cons, not_mem_nil, or_false] at h
      exact h.symm.imp_right fun heq => by simp [heq]
    · exact (mem_cons.mp h).imp_right fun hmem => mem_cons_of_mem _ hmem
    · exact Or.inr h

/-- A value is in some node of the step. -/
def Step.Stored (step : Step α) (v : Value α) : Prop :=
  ∃ node ∈ step.nodes, v ∈ node

/-- The index finds the node of every value by its token. -/
structure Step.Indexed (step : Step α) : Prop where
  bounded : ∀ token i, step.index.lookup token = some i → i < step.nodes.length
  found : ∀ (i : Nat) (node : Node α), step.nodes[i]? = some node → ∀ v ∈ node,
    step.index.lookup v.token = some i

theorem Step.indexed_empty : (empty : Step α).Indexed := by
  constructor <;> simp [empty]

variable {f : Node α → Node α}

/-- Changing a node by values of its own token. -/
theorem Step.Indexed.modifyNode (h : step.Indexed)
    (hf : ∀ node v, v ∈ f node → v.token = token ∨ v ∈ node) : (step.modifyNode token f).Indexed := by
  unfold Step.modifyNode
  cases hlookup : step.index.lookup token with
  | some index =>
    refine ⟨fun t i hi => by rw [length_modify]; exact h.bounded t i hi, ?_⟩
    intro i node hnode v hv
    dsimp only at hnode ⊢
    rw [getElem?_modify] at hnode
    obtain ⟨old, hold, rfl⟩ := map_eq_some_iff.mp hnode
    split_ifs at hv with hi
    · subst hi
      rcases hf old v hv with htoken | hmem
      · rw [htoken, hlookup]
      · exact h.found _ old hold v hmem
    · exact h.found i old hold v hv
  | none =>
    dsimp only
    split_ifs with hroom
    · refine ⟨fun t i hi => ?_, fun i node hnode v hv => ?_⟩
      · rw [length_append, length_singleton]
        rw [lookup_cons] at hi
        split at hi
        · rw [← some.inj hi]
          omega
        · have := h.bounded t i hi
          omega
      · dsimp only at hnode ⊢
        rw [getElem?_append] at hnode
        split_ifs at hnode with hi
        · have hfound := h.found i node hnode v hv
          have hne : v.token ≠ token := by
            rintro heq
            rw [heq, hlookup] at hfound
            cases hfound
          rw [lookup_cons, show (v.token == token) = false by simpa using hne]
          exact hfound
        · rw [getElem?_singleton] at hnode
          split_ifs at hnode with hzero
          obtain rfl := some.inj hnode
          rcases hf [] v hv with htoken | hmem
          · rw [lookup_cons, htoken, beq_self_eq_true]
            exact congrArg some (by omega)
          · simp at hmem
    · exact h

theorem Step.stored_modifyNode {v : Value α} (new : Value α → Prop)
    (hf : ∀ node v, v ∈ f node → new v ∨ v ∈ node)
    (h : (step.modifyNode token f).Stored v) : new v ∨ step.Stored v := by
  obtain ⟨node, hnode, hv⟩ := h
  unfold modifyNode at hnode
  cases hlookup : step.index.lookup token with
  | some index =>
    rw [hlookup] at hnode
    obtain ⟨i, hi⟩ := getElem?_of_mem hnode
    rw [getElem?_modify] at hi
    obtain ⟨old, hold, rfl⟩ := map_eq_some_iff.mp hi
    have hmem := mem_of_getElem? hold
    split_ifs at hv
    · exact (hf old v hv).imp_right fun hin => ⟨old, hmem, hin⟩
    · exact Or.inr ⟨old, hmem, hv⟩
  | none =>
    rw [hlookup] at hnode
    dsimp only at hnode
    split_ifs at hnode with hroom
    · rcases mem_append.mp hnode with hold | hnew
      · exact Or.inr ⟨node, hold, hv⟩
      · rw [mem_singleton.mp hnew] at hv
        exact (hf [] v hv).imp_right fun hin => by simp at hin
    · exact Or.inr ⟨node, hnode, hv⟩

end Steps

/-! ## What a pass keeps -/

section Sound

variable {ε α β : Type} (ops : FloatOps α β) (constraints : Option ConstraintStore)
  (seeds : List PhraseToken) (bound : Nat)

/-- The spans the constraints let start at a position : none inside a forced run, the forced
one at its start, and elsewhere those that end before the next forced interior. -/
def Allowed (start stop : Nat) (token : PhraseToken) : Prop :=
  isNoSearch constraints start = false ∧
  match cellAt constraints start with
  | some (.oneStep forced forcedStop _) => stop = forcedStop ∧ token = forced
  | _ => ∀ i, start < i → i ≤ stop → isNoSearch constraints i = false

/-- A record of the pass is well made, and its reference names its predecessor. -/
structure Trellis.Refers (trellis : Trellis α) (r : Built α) : Prop where
  forward : r.start < r.stop
  inside : r.stop ≤ bound
  token : r.value.token = r.entry.token
  from_ : r.value.from_ = r.start
  notSeed : r.start < seedStep
  length : r.value.length = satAdd32 r.predecessor.length r.entry.chars
  keys : r.value.keys = satAdd32 r.predecessor.keys r.entry.keys
  reference : trellis.valueAt r.start r.value.prevToken r.value.sub = some r.predecessor

/-- The state of the pass at position `p` : what is stored is a seed or was built, and what
was built started at or before `p`. -/
structure Trellis.Sound (p : Nat) (trellis : Trellis α) : Prop where
  length_steps : trellis.steps.length = bound + 1
  indexed : ∀ (q : Nat) (step : Step α), trellis.steps[q]? = some step → step.Indexed
  stored : ∀ (q : Nat) (step : Step α) (v : Value α), trellis.steps[q]? = some step →
    step.Stored v → (q = 0 ∧ v.token ∈ seeds ∧ v = Value.seed ops v.token) ∨
      ∃ r ∈ trellis.built, r.value = v ∧ r.stop = q
  refers : ∀ r ∈ trellis.built, trellis.Refers bound r
  behind : ∀ r ∈ trellis.built, r.start ≤ p
  allowed : ∀ r ∈ trellis.built, Allowed constraints r.start r.stop r.value.token

variable {ops constraints seeds bound} {trellis : Trellis α} {p : Nat}

variable {q : Nat}

theorem Trellis.Sound.mono (h : trellis.Sound ops constraints seeds bound p)
    (hpq : p ≤ q) : trellis.Sound ops constraints seeds bound q :=
  { h with behind := fun r hr => Nat.le_trans (h.behind r hr) hpq }

theorem Trellis.getElem?_insert (trellis : Trellis α) {position q : Nat} (value : Value α)
    (hne : q ≠ position) : (trellis.insert ops position value).steps[q]? = trellis.steps[q]? := by
  unfold insert
  rw [getElem?_modify]
  simp [hne.symm]

theorem Trellis.valueAt_congr {trellis trellis' : Trellis α}
    (h : trellis'.steps[q]? = trellis.steps[q]?) (token : PhraseToken) (slot : Nat) :
    trellis'.valueAt q token slot = trellis.valueAt q token slot := by
  unfold valueAt
  rw [h]

/-- Storing a new value ahead of the position keeps the pass sound. -/
theorem Trellis.Sound.insert (h : trellis.Sound ops constraints seeds bound p) {r : Built α}
    {texts : List (PhraseToken × KeyPath)} (hstart : r.start = p) (hrefers : trellis.Refers bound r)
    (hallowed : Allowed constraints r.start r.stop r.value.token) :
    (insert ops { trellis with texts := texts, built := trellis.built ++ [r] } r.stop
      r.value).Sound ops constraints seeds bound p := by
  have hget := fun q => @Trellis.getElem?_insert α β ops
    { trellis with texts := texts, built := trellis.built ++ [r] } r.stop q r.value
  have hrefers' : ∀ r' : Built α, r'.start ≤ p → trellis.Refers bound r' →
      (Trellis.insert ops { trellis with texts := texts, built := trellis.built ++ [r] } r.stop
        r.value).Refers bound r' := by
    intro r' hbehind hold
    have hne : r'.start ≠ r.stop := by
      have := hrefers.forward
      omega
    exact { hold with
      reference := (valueAt_congr (hget _ hne) _ _).trans hold.reference }
  refine ⟨?_, ?_, ?_, ?_, ?_, ?_⟩
  · simp only [Trellis.insert, length_modify]
    exact h.length_steps
  · intro q step hstep
    by_cases hq : q = r.stop
    · subst hq
      simp only [Trellis.insert, getElem?_modify, if_true] at hstep
      obtain ⟨old, hold, rfl⟩ := map_eq_some_iff.mp hstep
      refine (h.indexed _ old hold).modifyNode fun node v hv => ?_
      exact (mem_keep hv).imp_left fun heq => by rw [heq]
    · rw [hget q hq] at hstep
      exact h.indexed q step hstep
  · intro q step v hstep hv
    by_cases hq : q = r.stop
    · subst hq
      simp only [Trellis.insert, getElem?_modify, if_true] at hstep
      obtain ⟨old, hold, rfl⟩ := map_eq_some_iff.mp hstep
      rcases stored_modifyNode (· = r.value) (fun node v hv => mem_keep hv) hv with rfl | hin
      · exact Or.inr ⟨r, mem_append_right _ (mem_singleton_self r), rfl, rfl⟩
      · refine (h.stored _ old v hold hin).imp_right ?_
        rintro ⟨r', hr', heq⟩
        exact ⟨r', mem_append_left _ hr', heq⟩
    · rw [hget q hq] at hstep
      refine (h.stored q step v hstep hv).imp_right ?_
      rintro ⟨r', hr', heq⟩
      exact ⟨r', mem_append_left _ hr', heq⟩
  · intro r' hr'
    rcases mem_append.mp hr' with hold | hnew
    · exact hrefers' r' (h.behind r' hold) (h.refers r' hold)
    · rw [mem_singleton.mp hnew]
      exact hrefers' r hstart.le hrefers
  · intro r' hr'
    rcases mem_append.mp hr' with hold | hnew
    · exact h.behind r' hold
    · rw [mem_singleton.mp hnew]
      exact hstart.le
  · intro r' hr'
    rcases mem_append.mp hr' with hold | hnew
    · exact h.allowed r' hold
    · rw [mem_singleton.mp hnew]
      exact hallowed

/-! ## One position -/

variable {path : Nat} {branch : Branch} {oneStep : Option PhraseToken}

variable {entry : SpanEntry} {stop : Nat} {predecessor : BeamEntry α} {ranges : PhraseIndexRanges Nat}

/-- The pass at position `p` : sound, with the steps up to `p` as it found them. -/
structure Trellis.At (ops : FloatOps α β) (constraints : Option ConstraintStore)
    (seeds : List PhraseToken) (bound p : Nat) (trellis before : Trellis α) : Prop where
  sound : trellis.Sound ops constraints seeds bound p
  frozen : ∀ q, q ≤ p → trellis.steps[q]? = before.steps[q]?

/-- An entry of the beam is the value its slot holds. -/
def Trellis.Holds (trellis : Trellis α) (p : Nat) (entry : BeamEntry α) : Prop :=
  trellis.valueAt p entry.value.token entry.slot = some entry.value

theorem Trellis.Sound.holds_candidates (h : trellis.Sound ops constraints seeds bound p) {entry : BeamEntry α}
    (hentry : entry ∈ trellis.candidates q) :
    trellis.Holds q entry := by
  unfold candidates at hentry
  obtain ⟨⟨⟨v, slot⟩, batch⟩, hmem, rfl⟩ := List.mem_map.mp hentry
  have hin := fst_mem_of_mem_zipIdx hmem
  obtain ⟨node, hnode, hslot⟩ := mem_flatMap.mp hin
  have hv := mem_zipIdx_iff_getElem?.mp hslot
  obtain ⟨i, hi⟩ := getElem?_of_mem hnode
  unfold Trellis.Holds valueAt
  dsimp only at hv ⊢
  rw [getD_eq_getElem?_getD] at hi
  cases hstep : trellis.steps[q]? with
  | none =>
    rw [hstep] at hi
    simp [Step.empty] at hi
  | some step =>
    rw [hstep, getD_some] at hi
    have hlookup := (h.indexed q step hstep).found i node hi v (mem_of_getElem? hv)
    simp only [bind_some, Step.node, hlookup, hi, hv]

theorem mem_selectTop {entries : List (BeamEntry α)} {count nstore : Nat} {entry : BeamEntry α}
    (h : entry ∈ selectTop ops entries count nstore) : entry ∈ entries :=
  (mergeSort_perm _ _).mem_iff.mp (mem_of_mem_take h)

variable {dictionary : Dictionary ε} {model : LanguageModel ε α β} {paths : List KeyPath}
  {view : GenerationView} {before trellis' : Trellis α}

theorem price_token {token : PhraseToken}
    (h : price dictionary paths path token = .ok (some entry)) : entry.token = token := by
  unfold price at h
  dsimp only at h
  split at h
  · cases h
  · obtain ⟨item, _, rfl⟩ := map_eq_some_iff.mp (ok.inj h)
    rfl

theorem priceEligible_token {slot : PhraseToken × Nat}
    (h : priceEligible dictionary paths slot = .ok (some entry)) : entry.token = slot.1 := by
  obtain ⟨priced, hprice, hfilter⟩ := map_eq_ok h
  obtain ⟨hsome, _⟩ := filter_eq_some_iff.mp hfilter
  rw [hsome] at hprice
  exact price_token hprice

theorem firstPriced_token {token : PhraseToken} : ∀ {tokens : List (PhraseToken × Nat)}
    {entry : SpanEntry}, firstPriced dictionary paths token tokens = .ok (some entry) →
    entry.token = token
  | [], _, h => by cases h
  | (ranged, path) :: rest, entry, h => by
    unfold firstPriced at h
    split_ifs at h
    · split at h
      · cases h
      · rename_i hprice
        cases h
        exact price_token hprice
      · exact firstPriced_token h
    · exact firstPriced_token h

/-- One step of the pass. -/
theorem Trellis.At.expandOne (h : trellis.At ops constraints seeds bound p before)
    (hholds : before.Holds p predecessor) (hstop : p < stop) (hbound : stop ≤ bound)
    (hallowed : Allowed constraints p stop entry.token)
    (hrun : Oxpinyin.expandOne ops model paths p stop predecessor branch trellis entry =
      .ok trellis') : trellis'.At ops constraints seeds bound p before := by
  unfold Oxpinyin.expandOne at hrun
  dsimp only at hrun
  split at hrun
  · cases hrun
  · split_ifs at hrun with hskip hseed
    · obtain rfl := ok.inj hrun
      exact h
    · split at hrun
      · obtain rfl := ok.inj hrun
        exact h
      · obtain rfl := ok.inj hrun
        have hreference := (valueAt_congr (h.frozen p (Nat.le_refl p))
          predecessor.value.token predecessor.slot).trans hholds
        refine ⟨h.sound.insert rfl ⟨hstop, hbound, rfl, rfl, hseed, rfl, rfl, hreference⟩ hallowed, fun q hq => ?_⟩
        rw [getElem?_insert _ _ (by omega)]
        exact h.frozen q hq
    · split at hrun
      · obtain rfl := ok.inj hrun
        exact h
      · cases hrun

/-- A loop of steps, each over an entry the constraints allow. -/
theorem Trellis.At.expandTokens
    {tokens : List (PhraseToken × Nat)} (h : trellis.At ops constraints seeds bound p before)
    (hholds : before.Holds p predecessor) (hstop : p < stop) (hbound : stop ≤ bound)
    (hallowed : ∀ slot ∈ tokens, Allowed constraints p stop slot.1)
    (hrun : Oxpinyin.expandTokens ops dictionary model paths p stop predecessor branch tokens
      trellis = .ok trellis') : trellis'.At ops constraints seeds bound p before := by
  refine @foldlM_inv _ _ _ _ (fun t : Trellis α => t.At ops constraints seeds bound p before)
    _ _ _ (fun t slot next hslot ht hnext => ?_) h hrun
  obtain ⟨entry, hprice, hnext⟩ := bind_eq_ok hnext
  cases entry with
  | none =>
    obtain rfl := ok.inj hnext
    exact ht
  | some entry =>
    refine ht.expandOne hholds hstop hbound ?_ hnext
    rw [priceEligible_token hprice]
    exact hallowed slot hslot

/-- A constrained row has only its token. -/
theorem rowEntries_token {token prev : PhraseToken} {gram : MergedGram} {selected : List (SpanEntry × (Nat × Nat))}
    (h : rowEntries dictionary paths ranges (some token) prev gram = .ok selected) :
    ∀ chosen ∈ selected, chosen.1.token = token := by
  unfold rowEntries at h
  cases hfault : gram.fault with
  | some fault =>
    rw [hfault] at h
    cases h
  | none =>
    rw [hfault] at h
    obtain ⟨freq, _, h⟩ := bind_eq_ok h
    cases freq with
    | none =>
      obtain rfl := ok.inj h
      simp
    | some freq =>
      obtain ⟨total, _, h⟩ := bind_eq_ok h
      refine @foldlM_inv _ _ _ _
        (fun selected : List (SpanEntry × (Nat × Nat)) =>
          ∀ chosen ∈ selected, chosen.1.token = token)
        _ _ _ (fun selected slot next hslot hinv hnext => ?_) (by simp) h
      obtain ⟨entry, hprice, rfl⟩ := map_eq_ok hnext
      intro chosen hchosen
      rcases mem_append.mp hchosen with hold | hnew
      · exact hinv chosen hold
      · obtain ⟨found, hfound, rfl⟩ := List.mem_map.mp hnew
        rw [mem_toList] at hfound
        rw [hfound] at hprice
        rw [priceEligible_token hprice]
        exact beq_iff_eq.mp (mem_filter.mp hslot).2

/-- Every ranged token of a span, and every token at all where the span is free, is
allowed. -/
def AllowedSpan (constraints : Option ConstraintStore) (start stop : Nat)
    (oneStep : Option PhraseToken) : Prop :=
  match oneStep with
  | some token => Allowed constraints start stop token
  | none => ∀ token, Allowed constraints start stop token

/-- A bigram step between sound positions. -/
theorem Trellis.At.expandBigram (h : trellis.At ops constraints seeds bound p before)
    (hholds : before.Holds p predecessor) (hstop : p < stop) (hbound : stop ≤ bound)
    (hspan : AllowedSpan constraints p stop oneStep)
    (hallowed : ∀ slot ∈ ranges.walkTokens, Allowed constraints p stop slot.1)
    (hrun : Oxpinyin.expandBigram ops dictionary model paths ranges oneStep p stop trellis
      predecessor = .ok trellis') : trellis'.At ops constraints seeds bound p before := by
  unfold Oxpinyin.expandBigram at hrun
  dsimp only at hrun
  split at hrun
  · cases hrun
  · obtain rfl := ok.inj hrun
    exact h
  · obtain ⟨selected, hselected, hrun⟩ := bind_eq_ok hrun
    refine @foldlM_inv _ _ _ _ (fun t : Trellis α => t.At ops constraints seeds bound p before)
      _ _ _ (fun t chosen next hchosen ht hnext => ?_) h hrun
    refine ht.expandOne hholds hstop hbound ?_ hnext
    cases oneStep with
    | none => exact hspan _
    | some token =>
      rw [rowEntries_token hselected chosen hchosen]
      exact hspan
  · exact h.expandTokens hholds hstop hbound hallowed hrun

/-- The beam extended over one span. -/
theorem Trellis.At.expandEntries {beam : List (BeamEntry α)}
    (h : trellis.At ops constraints seeds bound p before)
    (hholds : ∀ entry ∈ beam, before.Holds p entry) (hstop : p < stop) (hbound : stop ≤ bound)
    (hspan : AllowedSpan constraints p stop oneStep)
    (hallowed : ∀ slot ∈ ranges.walkTokens, Allowed constraints p stop slot.1)
    (hrun : Oxpinyin.expandEntries ops dictionary model paths ranges beam p stop oneStep trellis =
      .ok trellis') : trellis'.At ops constraints seeds bound p before := by
  unfold Oxpinyin.expandEntries at hrun
  split_ifs at hrun
  · obtain rfl := ok.inj hrun
    exact h
  · obtain ⟨middle, hmiddle, hrun⟩ := bind_eq_ok hrun
    have hat : middle.At ops constraints seeds bound p before := by
      refine @foldlM_inv _ _ _ _ (fun t : Trellis α => t.At ops constraints seeds bound p before)
        _ _ _ (fun t entry next hentry ht hnext => ?_) h hmiddle
      exact ht.expandBigram (hholds entry hentry) hstop hbound hspan hallowed hnext
    cases beam with
    | nil =>
      obtain rfl := ok.inj hrun
      exact hat
    | cons predecessor rest =>
      exact hat.expandTokens (hholds predecessor mem_cons_self) hstop hbound hallowed hrun

/-! ## The forced token -/

theorem mem_iter_push_empty {range found : PhraseIndexRange}
    (h : found ∈ ((PhraseIndexRanges.empty : PhraseIndexRanges Nat).push range).iter) : found = range := by
  obtain ⟨library, hlibrary, hfound⟩ := mem_flatten.mp h
  obtain ⟨i, hi⟩ := getElem?_of_mem hlibrary
  rw [PhraseIndexRanges.push, getElem?_modify, PhraseIndexRanges.empty, getElem?_replicate] at hi
  split_ifs at hi
  · rw [← some.inj hi] at hfound
    simpa using hfound
  · cases hi
  · rw [← some.inj hi] at hfound
    simp at hfound
  · cases hi

/-- Ranges made of one token hold that token only. -/
theorem walkTokens_convert_singleton {token : PhraseToken} :
    ∀ slot ∈ ((PhraseIndexRanges.empty : PhraseIndexRanges Nat).convert
      [(token, some path)]).walkTokens, slot.1 = token := by
  intro slot hslot
  unfold PhraseIndexRanges.walkTokens at hslot
  obtain ⟨range, hrange, hslot⟩ := mem_flatMap.mp hslot
  have heq : range = ⟨token, token, 0⟩ := mem_iter_push_empty hrange
  rw [heq] at hslot
  obtain ⟨n, hn, hsome⟩ := mem_filterMap.mp hslot
  obtain ⟨found, _, rfl⟩ := map_eq_some_iff.mp hsome
  rw [mem_range'_1] at hn
  dsimp only at hn ⊢
  rw [show n = token.toNat by omega, BitVec.ofNat_toNat, BitVec.setWidth_eq]

theorem walkTokens_forced {token : PhraseToken} {entry : Option SpanEntry}
    (htoken : ∀ found, entry = some found → found.token = token) :
    ∀ slot ∈ ((PhraseIndexRanges.empty : PhraseIndexRanges Nat).convert
      (entry.toList.map fun entry => (entry.token, some entry.path))).walkTokens,
      slot.1 = token := by
  intro slot hslot
  cases entry with
  | none =>
    exfalso
    unfold PhraseIndexRanges.walkTokens at hslot
    obtain ⟨range, hrange, _⟩ := mem_flatMap.mp hslot
    obtain ⟨library, hlibrary, hfound⟩ := mem_flatten.mp hrange
    rw [eq_of_mem_replicate (show library ∈ List.replicate phraseIndexLibraryCount [] from hlibrary)] at hfound
    simp at hfound
  | some found =>
    rw [walkTokens_convert_singleton slot hslot]
    exact htoken found rfl

/-! ## The loop over positions -/

theorem allowed_of_free {start : Nat} {token : PhraseToken} (hstart : isNoSearch constraints start = false)
    (hcell : ∀ forced forcedStop text,
      cellAt constraints start ≠ some (.oneStep forced forcedStop text))
    (hfree : ∀ i, start < i → i ≤ stop → isNoSearch constraints i = false) :
    Allowed constraints start stop token := by
  refine ⟨hstart, ?_⟩
  cases hget : cellAt constraints start with
  | none => exact hfree
  | some cell =>
    cases cell with
    | free => exact hfree
    | oneStep forced forcedStop text => exact absurd hget (hcell forced forcedStop text)
    | noSearch s => exact hfree

/-- The free spans of a position. -/
theorem Trellis.At.widen {beam : List (BeamEntry α)} (hholds : ∀ entry ∈ beam, before.Holds p entry)
    (hstart : isNoSearch constraints p = false) (hcell : ∀ forced forcedStop text,
      cellAt constraints p ≠ some (.oneStep forced forcedStop text)) :
    ∀ {fuel stop : Nat} {trellis trellis' : Trellis α},
      trellis.At ops constraints seeds bound p before → p < stop →
      (∀ i, p < i → i < stop → isNoSearch constraints i = false) →
      Oxpinyin.widen ops dictionary model view bound constraints p beam fuel stop trellis =
        .ok trellis' → trellis'.At ops constraints seeds bound p before
  | 0, _, _, _, h, _, _, hrun => by
    obtain rfl := ok.inj hrun
    exact h
  | fuel + 1, stop, trellis, trellis', h, hstop, hfree, hrun => by
    unfold Oxpinyin.widen at hrun
    split_ifs at hrun with hbreak
    · obtain rfl := ok.inj hrun
      exact h
    · rw [not_or, Nat.not_lt, Bool.not_eq_true] at hbreak
      have hfree' : ∀ i, p < i → i ≤ stop → isNoSearch constraints i = false := by
        intro i hi hle
        rcases Nat.lt_or_eq_of_le hle with hlt | rfl
        · exact hfree i hi hlt
        · exact hbreak.2
      have hspan : ∀ token, Allowed constraints p stop token := fun _ => allowed_of_free hstart hcell hfree'
      obtain ⟨⟨found, widening⟩, _, hrun⟩ := bind_eq_ok hrun
      obtain ⟨middle, hmiddle, hrun⟩ := bind_eq_ok hrun
      have hat : middle.At ops constraints seeds bound p before :=
        h.expandEntries hholds hstop hbreak.1 (show AllowedSpan constraints p stop none from hspan)
          (fun slot _ => hspan slot.1) hmiddle
      split_ifs at hrun
      · exact Trellis.At.widen hholds hstart hcell hat (by omega) (fun i hi hlt => hfree' i hi (by omega)) hrun
      · obtain rfl := ok.inj hrun
        exact hat

/-- The pass at one position leaves the steps up to it. -/
theorem Trellis.Sound.forwardStep (h : trellis.Sound ops constraints seeds bound p)
    (hrun : Oxpinyin.forwardStep ops dictionary model view bound constraints trellis p =
      .ok trellis') : trellis'.At ops constraints seeds bound p trellis := by
  have hat : trellis.At ops constraints seeds bound p trellis := ⟨h, fun _ _ => rfl⟩
  have hholds : ∀ entry ∈ trellis.beam ops p, trellis.Holds p entry :=
    fun entry hentry => h.holds_candidates (mem_selectTop hentry)
  unfold Oxpinyin.forwardStep at hrun
  dsimp only at hrun
  split_ifs at hrun with hinside hempty
  · obtain rfl := ok.inj hrun
    exact hat
  · obtain rfl := ok.inj hrun
    exact hat
  · rw [Bool.not_eq_true] at hinside
    split at hrun
    · rename_i token stop text hcell
      unfold forcedSpan at hrun
      split_ifs at hrun with hfits
      · obtain ⟨⟨found, widening⟩, _, hrun⟩ := bind_eq_ok hrun
        obtain ⟨entry, hentry, hrun⟩ := bind_eq_ok hrun
        dsimp only at hrun
        have hspan : Allowed constraints p stop token := ⟨hinside, by rw [hcell]; exact ⟨rfl, rfl⟩⟩
        have hforced := @walkTokens_forced token entry fun found hfound => by
          rw [hfound] at hentry
          exact firstPriced_token hentry
        split_ifs at hrun
        · obtain rfl := ok.inj hrun
          exact hat
        · refine hat.expandEntries hholds hfits.1 hfits.2
            (show AllowedSpan constraints p stop (some token) from hspan)
            (fun slot hslot => ?_) hrun
          rw [hforced slot hslot]
          exact hspan
      · obtain rfl := ok.inj hrun
        exact hat
    · rename_i hcell
      exact Trellis.At.widen hholds hinside hcell hat (Nat.lt_succ_self p) (fun i hi hlt => by omega) hrun

/-- The trellis of the seeds is sound. -/
theorem sound_withSeeds (ops : FloatOps α β) (constraints : Option ConstraintStore)
    (seeds : List PhraseToken) (bound : Nat) (shape : NbestShape) :
    (withSeeds ops bound seeds shape).Sound ops constraints seeds bound 0 := by
  have hseeds : ∀ (l : List PhraseToken) (step : Step α), l ⊆ seeds → step.Indexed →
      (∀ v, step.Stored v → v.token ∈ seeds ∧ v = seed ops v.token) →
      (l.foldl (fun step token => step.modifyNode token fun _ => [seed ops token])
        step).Indexed ∧
      ∀ v, (l.foldl (fun step token => step.modifyNode token fun _ => [seed ops token])
        step).Stored v → v.token ∈ seeds ∧ v = seed ops v.token := by
    intro l
    induction l with
    | nil => exact fun step _ hindexed hstored => ⟨hindexed, hstored⟩
    | cons token l ih =>
      intro step hsub hindexed hstored
      refine ih _ (fun t ht => hsub (mem_cons_of_mem _ ht)) (hindexed.modifyNode ?_) ?_
      · intro node v hv
        rw [mem_singleton.mp hv]
        exact Or.inl rfl
      · intro v hv
        rcases stored_modifyNode (· = seed ops token)
          (fun node v hv => Or.inl (mem_singleton.mp hv)) hv with rfl | hold
        · exact ⟨hsub mem_cons_self, rfl⟩
        · exact hstored v hold
  obtain ⟨hindexed, hstored⟩ := hseeds seeds empty (fun _ h => h) indexed_empty
    (by rintro v ⟨node, hnode, _⟩; simp [empty] at hnode)
  have hget : ∀ (q : Nat) (step : Step α),
      (withSeeds ops bound seeds shape).steps[q]? = some step →
      (q = 0 ∧ step = seeds.foldl
        (fun step token => step.modifyNode token fun _ => [seed ops token]) empty) ∨
      step = empty := by
    intro q step hstep
    unfold withSeeds at hstep
    dsimp only at hstep
    rw [getElem?_modify, getElem?_replicate] at hstep
    split_ifs at hstep with hzero
    · exact Or.inl ⟨hzero.symm, (some.inj hstep).symm⟩
    · cases hstep
    · exact Or.inr (some.inj hstep).symm
    · cases hstep
  refine ⟨by simp [withSeeds], fun q step hstep => ?_, fun q step v hstep hv => ?_,
    by simp [withSeeds], by simp [withSeeds], by simp [withSeeds]⟩
  · rcases hget q step hstep with ⟨_, rfl⟩ | rfl
    · exact hindexed
    · exact indexed_empty
  · rcases hget q step hstep with ⟨hq, rfl⟩ | rfl
    · exact Or.inl ⟨hq, hstored v hv⟩
    · obtain ⟨node, hnode, _⟩ := hv
      simp [empty] at hnode

/-- The pass is sound before every position. -/
theorem sound_forward_upTo {shape : NbestShape} : ∀ {n : Nat} {trellis : Trellis α},
    (List.range n).foldlM (Oxpinyin.forwardStep ops dictionary model view bound constraints)
      (withSeeds ops bound seeds shape) = .ok trellis →
    trellis.Sound ops constraints seeds bound n
  | 0, trellis, h => by
    obtain rfl := ok.inj h
    exact sound_withSeeds ops constraints seeds bound shape
  | n + 1, trellis, h => by
    rw [range_succ, foldlM_append] at h
    obtain ⟨middle, hmiddle, h⟩ := bind_eq_ok h
    rw [foldlM_cons] at h
    obtain ⟨last, hlast, h⟩ := bind_eq_ok h
    obtain rfl := ok.inj h
    exact ((sound_forward_upTo hmiddle).forwardStep hlast).sound.mono (Nat.le_succ n)

theorem sound_forward {shape : NbestShape}
    (h : forward ops dictionary model view bound constraints seeds shape = .ok trellis) :
    trellis.Sound ops constraints seeds bound bound :=
  sound_forward_upTo h

/-! ## Chains -/

variable {v : Value α} {rs : List (Built α)}

/-- The records of a chain from a seed to `v` at a position : each extends the value the one
before it built. -/
inductive Trellis.ChainTo (ops : FloatOps α β) (seeds : List PhraseToken) (trellis : Trellis α) :
    List (Built α) → Value α → Nat → Prop
  | seed {token : PhraseToken} : token ∈ seeds →
      Trellis.ChainTo ops seeds trellis [] (Value.seed ops token) 0
  | snoc {rs : List (Built α)} {r : Built α} :
      Trellis.ChainTo ops seeds trellis rs r.predecessor r.start → r ∈ trellis.built →
      Trellis.ChainTo ops seeds trellis (rs ++ [r]) r.value r.stop

theorem Trellis.stored_of_valueAt {slot : Nat} {token : PhraseToken} (h : trellis.valueAt q token slot = some v) :
    ∃ step, trellis.steps[q]? = some step ∧ step.Stored v := by
  unfold valueAt at h
  obtain ⟨node, hnode, hv⟩ := bind_eq_some_iff.mp h
  obtain ⟨step, hstep, hnode⟩ := bind_eq_some_iff.mp hnode
  obtain ⟨i, _, hi⟩ := bind_eq_some_iff.mp hnode
  exact ⟨step, hstep, node, mem_of_getElem? hi, mem_of_getElem? hv⟩

/-- Every stored value has a chain. -/
theorem Trellis.Sound.exists_chain (h : trellis.Sound ops constraints seeds bound p) :
    ∀ (q : Nat) {step : Step α} {v : Value α}, trellis.steps[q]? = some step → step.Stored v →
      ∃ rs, trellis.ChainTo ops seeds rs v q := by
  intro q
  induction q using Nat.strongRecOn with
  | ind q ih =>
    intro step v hstep hv
    rcases h.stored q step v hstep hv with ⟨rfl, hseed, heq⟩ | ⟨r, hr, rfl, rfl⟩
    · refine ⟨[], ?_⟩
      rw [heq]
      exact .seed hseed
    · have hrefers := h.refers r hr
      obtain ⟨step', hstep', hstored⟩ := stored_of_valueAt hrefers.reference
      obtain ⟨rs, hrs⟩ := ih r.start hrefers.forward hstep' hstored
      exact ⟨rs ++ [r], .snoc hrs hr⟩

/-- Spans that follow each other from `a` to `b`. -/
inductive Tiled : Nat → Nat → List (Built α) → Prop
  | nil (a : Nat) : Tiled a a []
  | cons {r : Built α} {b : Nat} {rs : List (Built α)} : r.start < r.stop → Tiled r.stop b rs →
      Tiled r.start b (r :: rs)

theorem Tiled.snoc {a : Nat} {rs : List (Built α)} {r : Built α} (h : Tiled a r.start rs)
    (hforward : r.start < r.stop) : Tiled a r.stop (rs ++ [r]) := by
  generalize hb : r.start = b at h
  induction h with
  | nil a =>
    subst hb
    exact .cons hforward (.nil _)
  | cons hlt _ ih => exact .cons hlt (ih hb)

theorem Tiled.sum_widths {a b : Nat} (h : Tiled a b rs) : a + (rs.map fun r => r.stop - r.start).sum = b := by
  induction h with
  | nil a => rfl
  | cons hforward _ ih =>
    rw [map_cons, sum_cons]
    omega

theorem Trellis.ChainTo.mem_built (h : trellis.ChainTo ops seeds rs v q) : ∀ r ∈ rs, r ∈ trellis.built := by
  induction h with
  | seed _ => simp
  | snoc _ hr ih =>
    intro r' hr'
    rcases mem_append.mp hr' with hold | hnew
    · exact ih r' hold
    · rw [mem_singleton.mp hnew]
      exact hr

theorem Trellis.Sound.tiled (h : trellis.Sound ops constraints seeds bound p)
    (hchain : trellis.ChainTo ops seeds rs v q) :
    Tiled 0 q rs := by
  induction hchain with
  | seed _ => exact .nil 0
  | snoc _ hr ih => exact ih.snoc (h.refers _ hr).forward

/-- Walking the references spells the chain. -/
theorem Trellis.Sound.chain_eq (h : trellis.Sound ops constraints seeds bound p)
    (hchain : trellis.ChainTo ops seeds rs v q) :
    ∀ {fuel : Nat}, q < fuel →
      trellis.chain fuel v = (rs.map fun r => (r.start, r.value.token)).reverse := by
  induction hchain with
  | seed _ =>
    intro fuel hfuel
    obtain ⟨fuel, rfl⟩ := Nat.exists_eq_add_of_lt hfuel
    rfl
  | @snoc rs r _ hr ih =>
    intro fuel hfuel
    have hrefers := h.refers r hr
    obtain ⟨fuel, rfl⟩ := Nat.exists_eq_add_of_lt hfuel
    have hforward := hrefers.forward
    unfold chain
    rw [hrefers.from_, if_neg hrefers.notSeed.ne, hrefers.reference]
    dsimp only
    rw [ih (by omega), map_append, reverse_append]
    rfl

theorem satAdd32_min (a b : Nat) : satAdd32 (min a (2 ^ 32 - 1)) b = min (a + b) (2 ^ 32 - 1) := by
  unfold satAdd32
  omega

/-- The counts of a value are those of its chain, up to saturation. -/
theorem Trellis.Sound.counts (h : trellis.Sound ops constraints seeds bound p)
    (hchain : trellis.ChainTo ops seeds rs v q) :
    v.keys = min ((rs.map (·.entry.keys)).sum) (2 ^ 32 - 1) ∧
    v.length = min ((rs.map (·.entry.chars)).sum) (2 ^ 32 - 1) := by
  induction hchain with
  | seed _ => exact ⟨rfl, rfl⟩
  | snoc _ hr ih =>
    have hrefers := h.refers _ hr
    rw [hrefers.keys, hrefers.length, ih.1, ih.2, satAdd32_min, satAdd32_min]
    simp

/-! ## The finished pass -/

variable {tail : Value α}

theorem Trellis.mem_tails (h : tail ∈ trellis.tails ops) :
    ∃ entry ∈ trellis.candidates (trellis.steps.length - 1), entry.value = tail := by
  obtain ⟨entry, hentry, heq⟩ := List.mem_map.mp ((mergeSort_perm _ _).mem_iff.mp h)
  exact ⟨entry, mem_selectTop hentry, heq⟩

/-- The chain of a tail : its records, from a seed to the last position. -/
theorem Trellis.Sound.chain_of_tail (h : trellis.Sound ops constraints seeds bound p)
    (htail : tail ∈ trellis.tails ops) :
    ∃ rs, trellis.ChainTo ops seeds rs tail bound ∧
      trellis.extract tail = rs.map fun r => (r.start, r.value.token) := by
  obtain ⟨entry, hentry, rfl⟩ := mem_tails htail
  rw [h.length_steps, Nat.add_sub_cancel] at hentry
  obtain ⟨step, hstep, hstored⟩ := stored_of_valueAt (h.holds_candidates hentry)
  obtain ⟨rs, hrs⟩ := h.exists_chain bound hstep hstored
  refine ⟨rs, hrs, ?_⟩
  unfold extract
  rw [h.length_steps, h.chain_eq hrs (Nat.lt_succ_self bound), reverse_reverse]

/-- When the tails are extracted, a stored value is a seed or was built at an earlier
position, and its reference names the value it was built from. The chain of every tail ends
at a seed, tiles the input, and its counts add up, saturating at `u32::MAX`. -/
theorem forward_references {shape : NbestShape}
    (h : forward ops dictionary model view bound constraints seeds shape = .ok trellis) :
    (∀ (q : Nat) (step : Step α) (v : Value α), trellis.steps[q]? = some step → step.Stored v →
      (q = 0 ∧ v.token ∈ seeds ∧ v = Value.seed ops v.token) ∨
        (v.from_ < q ∧ ∃ r ∈ trellis.built, r.value = v ∧ r.stop = q)) ∧
    (∀ r ∈ trellis.built, r.value.from_ = r.start ∧
      trellis.valueAt r.value.from_ r.value.prevToken r.value.sub = some r.predecessor) ∧
    (∀ tail ∈ trellis.tails ops, ∃ rs, trellis.ChainTo ops seeds rs tail bound ∧
      trellis.extract tail = (rs.map fun r => (r.start, r.value.token)) ∧
      Tiled 0 bound rs ∧
      tail.keys = min ((rs.map (·.entry.keys)).sum) (2 ^ 32 - 1) ∧
      tail.length = min ((rs.map (·.entry.chars)).sum) (2 ^ 32 - 1)) := by
  have hsound := sound_forward h
  refine ⟨fun q step v hstep hv => ?_, fun r hr => ?_, fun tail htail => ?_⟩
  · refine (hsound.stored q step v hstep hv).imp_right ?_
    rintro ⟨r, hr, rfl, rfl⟩
    have hrefers := hsound.refers r hr
    exact ⟨by rw [hrefers.from_]; exact hrefers.forward, r, hr, rfl, rfl⟩
  · have hrefers := hsound.refers r hr
    exact ⟨hrefers.from_, by rw [hrefers.from_]; exact hrefers.reference⟩
  · obtain ⟨rs, hrs, hextract⟩ := hsound.chain_of_tail htail
    exact ⟨rs, hrs, hextract, hsound.tiled hrs, hsound.counts hrs⟩

end Sound

/-! ## Counts at the limit -/

/-- Fixed point with 23 fractional bits. The logarithm of one, the only probability met
below, is zero. -/
def fixedPoint : FloatOps Int Int where
  zero := 0
  one := 2 ^ 23
  epsilon := 1
  lt a b := decide (a < b)
  isNaN _ := false
  adjust poss length := poss - 1529426 * length
  ratio matched total := 2 ^ 23 * matched / total
  scale x factor := x * factor / 2 ^ 23
  advance poss _ := poss

/-- One phrase a single key, of `chars` characters. -/
def singleKeyDictionary (chars : Nat) : Dictionary Unit where
  trellisRangesContinued keys _ :=
    .ok (PhraseIndexRanges.empty.convert
      (if keys.length = 1 then [(7#32, some ())] else []), false)
  trellisItem _ _ _ := .ok (some ⟨chars, none⟩)
  trellisText _ _ _ := .ok (some (.scalar ['a']))

/-- A model without rows that finds every token certain. -/
def evenModel : LanguageModel Unit Int Int where
  successors _ := .ok (some .miss)
  itemCosts _ _ _ := .ok ⟨none, some (2 ^ 23), 2 ^ 23⟩

/-- The key of the first inventory id. -/
def firstKey : SyllableKey := ⟨0, by decide +kernel⟩

/-- The columns of `aa`. -/
def twoColumns : GenerationView :=
  ⟨[[⟨firstKey, 0, 1, 0, false, 0⟩], [⟨firstKey, 1, 2, 1, false, 0⟩], []], [false, false, true]⟩

/-- The pass over `aa` with phrases as long as a count can say. -/
def twoColumnsPass : Except (EngineError Unit) (Trellis Int) :=
  forward fixedPoint (singleKeyDictionary (2 ^ 32 - 1)) evenModel twoColumns 2 none [sentenceStart]
    .pinyin

theorem twoColumnsPass_eq : ∃ trellis, twoColumnsPass = .ok trellis ∧
    (trellis.tails fixedPoint).map (·.length) = [2 ^ 32 - 1] ∧
    trellis.built.map (fun r => (r.start, r.stop, r.entry.chars)) =
      [(0, 1, 2 ^ 32 - 1), (1, 2, 2 ^ 32 - 1)] := by
  have hrun : (twoColumnsPass.toOption.map fun trellis =>
      ((trellis.tails fixedPoint).map (·.length),
        trellis.built.map fun r => (r.start, r.stop, r.entry.chars))) =
      some ([2 ^ 32 - 1], [(0, 1, 2 ^ 32 - 1), (1, 2, 2 ^ 32 - 1)]) := by decide +kernel
  obtain ⟨trellis, hpass, hreads⟩ := map_eq_some_iff.mp hrun
  exact ⟨trellis, eq_ok_of_toOption hpass, (Prod.mk.inj hreads).1, (Prod.mk.inj hreads).2⟩

/-- The pass over `aa` has a tail, and its chain tiles the two bytes. -/
theorem forward_references_twoColumns : ∃ trellis, twoColumnsPass = .ok trellis ∧
    ∃ tail ∈ trellis.tails fixedPoint, ∃ rs,
      trellis.ChainTo fixedPoint [sentenceStart] rs tail 2 ∧ Tiled 0 2 rs := by
  obtain ⟨trellis, hpass, htails, _⟩ := twoColumnsPass_eq
  obtain ⟨_, _, hchains⟩ := forward_references hpass
  obtain ⟨tail, htail, _⟩ := List.mem_map.mp (htails ▸ mem_singleton_self (2 ^ 32 - 1))
  obtain ⟨rs, hrs, _, htiled, _⟩ := hchains tail htail
  exact ⟨trellis, hpass, tail, htail, rs, hrs, htiled⟩

/-- Two phrases of `u32::MAX` characters : the length of the extracted tail is not the sum
over its chain. -/
theorem forward_length_saturates : ∃ trellis, twoColumnsPass = .ok trellis ∧
    ∃ tail ∈ trellis.tails fixedPoint, ∃ rs,
      trellis.ChainTo fixedPoint [sentenceStart] rs tail 2 ∧
      trellis.extract tail = (rs.map fun r => (r.start, r.value.token)) ∧
      tail.length ≠ (rs.map (·.entry.chars)).sum := by
  obtain ⟨trellis, hpass, htails, hbuilt⟩ := twoColumnsPass_eq
  have hsound := sound_forward hpass
  obtain ⟨tail, htail, hlength⟩ := List.mem_map.mp (htails ▸ mem_singleton_self (2 ^ 32 - 1))
  obtain ⟨rs, hrs, hextract⟩ := hsound.chain_of_tail htail
  refine ⟨trellis, hpass, tail, htail, rs, hrs, hextract, ?_⟩
  have hrecord : ∀ r ∈ rs, r.stop = r.start + 1 ∧ r.entry.chars = 2 ^ 32 - 1 := by
    intro r hr
    have hmem := List.mem_map_of_mem (f := fun r : Built Int => (r.start, r.stop, r.entry.chars))
      (hrs.mem_built r hr)
    rw [hbuilt] at hmem
    simp only [mem_cons, Prod.mk.injEq, not_mem_nil, or_false] at hmem
    omega
  have htwo : rs.length = 2 := by
    have hwidths := (hsound.tiled hrs).sum_widths
    rwa [map_congr_left (g := fun _ => 1) fun r hr => by have := (hrecord r hr).1; omega,
      map_const', sum_replicate_nat, Nat.mul_one, Nat.zero_add] at hwidths
  rw [map_congr_left fun r hr => (hrecord r hr).2, map_const', sum_replicate_nat, htwo, hlength]
  decide

end Oxpinyin
