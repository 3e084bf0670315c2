import Mathlib.Data.List.SplitBy
import Oxpinyin.Generation

/-!
# Ranges of tokens and their slots

A search call brings items, tokens with what they resolved to. `PhraseIndexRanges` files the maximal
runs of consecutive tokens of a call as ranges by library, and keeps what the items resolved to in one
flat table of slots. `Holds` : the slots are those of all runs in order of arrival, and the ranges of a
library are those of its runs, each at the offset of its run. `convert` adds the runs of a call
(`Holds.convert`), `appendFrom` rebases the runs of another structure (`Holds.appendFrom`).

`ranges_list_items` : then every way to read the ranges lists the same items, by library and in order
of arrival.
-/

namespace Oxpinyin

open List Option Or PhraseIndexRanges Prod

namespace PhraseIndexRanges

variable {α β : Type}

/-! ## The other readers -/

/-- The number of tokens of a range. -/
def count (range : PhraseIndexRange) : Nat := range.last.toNat - range.first.toNat + 1

/-- The resolved entries of a range, by token. -/
def entries (ranges : PhraseIndexRanges α) (range : PhraseIndexRange) : List α :=
  ((ranges.slots.drop range.slot).take (count range)).filterMap id

/-- Every resolved entry, in the order of `iter`. -/
def walk (ranges : PhraseIndexRanges α) : List α :=
  ranges.iter.flatMap ranges.entries

/-- Moves the entries of a range out of the slots. -/
def takeEntries (state : List (Option α) × List α) (range : PhraseIndexRange) :
    List (Option α) × List α :=
  (state.1.mapIdx fun i slot => if range.slot ≤ i ∧ i < range.slot + count range then none else slot,
    state.2 ++ ((state.1.drop range.slot).take (count range)).filterMap id)

/-- The resolved entries in the order of `iter`, moved out. -/
def intoWalkEntries (ranges : PhraseIndexRanges α) : List α :=
  (ranges.iter.foldl takeEntries (ranges.slots, [])).2

/-! ## Runs -/

/-- An item of a search call: a token with what it resolved to. -/
abbrev Item (α : Type) := PhraseToken × Option α

/-- The next item extends the range of this one. -/
def follows (item next : Item α) : Bool :=
  item.1.toNat + 1 == next.1.toNat && phraseIndexLibrary item.1 == phraseIndexLibrary next.1

/-- The maximal runs of a call. -/
def runsOf (items : List (Item α)) : List (List (Item α)) := items.splitBy follows

/-- Consecutive tokens of one library. -/
structure IsRun (run : List (Item α)) : Prop where
  nonempty : run ≠ []
  chain : run.IsChain fun item next => follows item next = true

/-- The range of a run whose first slot is given. -/
def rangeOf (slot : Nat) : List (Item α) → PhraseIndexRange
  | [] => ⟨0, 0, slot⟩
  | item :: rest => ⟨item.1, (rest.getLast?.getD item).1, slot⟩

/-- The ranges of runs that fill the slots from the given one on. -/
def rangesOf : Nat → List (List (Item α)) → List PhraseIndexRange
  | _, [] => []
  | slot, run :: runs => rangeOf slot run :: rangesOf (slot + run.length) runs

/-- What the tokens of an item resolved to. -/
def resolved (item : Item α) : Option (PhraseToken × α) := item.2.map fun found => (item.1, found)

theorem phraseIndexLibrary_lt (token : PhraseToken) : phraseIndexLibrary token < phraseIndexLibraryCount := by
  rw [phraseIndexLibrary, phraseIndexLibraryCount, BitVec.toNat_and]
  exact Nat.lt_of_le_of_lt Nat.and_le_right (by decide)

variable {item : Item α}

theorem follows_iff {next : Item α} : follows item next = true ↔
    item.1.toNat + 1 = next.1.toNat ∧ phraseIndexLibrary item.1 = phraseIndexLibrary next.1 := by
  simp [follows]

variable {items : List (Item α)}

theorem isRun_of_mem_runsOf {run : List (Item α)} (h : run ∈ runsOf items) : IsRun run :=
  ⟨ne_nil_of_mem_splitBy h, isChain_of_mem_splitBy h⟩

variable {rest : List (Item α)}

/-- The tokens of a run count up from the first, in its library. -/
theorem IsRun.token (h : IsRun (item :: rest)) {n : Nat} {found : Item α} (hn : (item :: rest)[n]? = some found) :
    found.1.toNat = item.1.toNat + n ∧ phraseIndexLibrary found.1 = phraseIndexLibrary item.1 := by
  obtain ⟨-, hchain⟩ := h
  induction rest generalizing item n with
  | nil =>
    cases n with
    | zero =>
      obtain rfl := some.inj hn
      exact ⟨rfl, rfl⟩
    | succ n => simp at hn
  | cons next rest ih =>
    cases n with
    | zero =>
      obtain rfl := some.inj hn
      exact ⟨rfl, rfl⟩
    | succ n =>
      obtain ⟨hnext, hlib⟩ := follows_iff.mp hchain.rel
      obtain ⟨htoken, hsame⟩ := ih hn hchain.tail
      exact ⟨by omega, hsame.trans hlib.symm⟩

theorem last_eq (item : Item α) (rest : List (Item α)) :
    (item :: rest)[rest.length]? = some (rest.getLast?.getD item) := by
  rw [← getLast?_cons, getLast?_eq_getElem?]
  simp

theorem IsRun.last {item : Item α} {rest : List (Item α)} (h : IsRun (item :: rest)) :
    (rest.getLast?.getD item).1.toNat = item.1.toNat + rest.length ∧
      phraseIndexLibrary (rest.getLast?.getD item).1 = phraseIndexLibrary item.1 :=
  h.token (last_eq item rest)

theorem IsRun.tokens (h : IsRun (item :: rest)) :
    (item :: rest).map (fun found => found.1.toNat) = range' item.1.toNat (rest.length + 1) := by
  refine ext_getElem? fun n => ?_
  rw [getElem?_map]
  rcases hn : (item :: rest)[n]? with _ | found
  · have hlen := getElem?_eq_none_iff.mp hn
    exact (getElem?_eq_none (by simpa using hlen)).symm
  · have hlt := (List.getElem?_eq_some_iff.mp hn).1
    rw [getElem?_range' (by simpa using hlt), map_some, (h.token hn).1, Nat.one_mul]

theorem count_rangeOf {run : List (Item α)} (h : IsRun run) (slot : Nat) : count (rangeOf slot run) = run.length := by
  cases run with
  | nil => exact absurd rfl h.nonempty
  | cons item rest =>
    have hlast := h.last.1
    rw [count, rangeOf, hlast]
    dsimp only
    rw [length_cons]
    omega

@[simp] theorem slot_rangeOf (slot : Nat) (run : List (Item α)) : (rangeOf slot run).slot = slot := by
  cases run <;> rfl

theorem rangesOf_append (slot : Nat) (front back : List (List (Item α))) :
    rangesOf slot (front ++ back) = rangesOf slot front ++ rangesOf (slot + front.flatten.length) back := by
  induction front generalizing slot with
  | nil => simp [rangesOf]
  | cons run front ih => simp [rangesOf, ih, Nat.add_assoc]

/-- A range is that of one of the runs, at the offset of the run. -/
theorem mem_rangesOf {slot : Nat} {runs : List (List (Item α))} {range : PhraseIndexRange} :
    range ∈ rangesOf slot runs ↔
      ∃ front run back, runs = front ++ run :: back ∧ range = rangeOf (slot + front.flatten.length) run := by
  induction runs generalizing slot with
  | nil => simp [rangesOf]
  | cons first runs ih =>
    rw [rangesOf, mem_cons, ih]
    constructor
    · rintro (rfl | ⟨front, run, back, rfl, rfl⟩)
      · exact ⟨[], first, runs, rfl, rfl⟩
      · refine ⟨first :: front, run, back, rfl, ?_⟩
        rw [flatten_cons, length_append, Nat.add_assoc]
    · rintro ⟨front, run, back, hruns, rfl⟩
      cases front with
      | nil =>
        obtain ⟨rfl, rfl⟩ := cons.inj hruns
        exact inl rfl
      | cons _ front =>
        obtain ⟨rfl, rfl⟩ := cons.inj hruns
        refine inr ⟨front, run, back, rfl, ?_⟩
        rw [flatten_cons, length_append, Nat.add_assoc]

/-! ## The structure holds its runs -/

/-- The slots and the ranges are those of the runs. -/
structure Holds (ranges : PhraseIndexRanges α) (runs : List (List (Item α))) : Prop where
  slots : ranges.slots = runs.flatten.map Prod.snd
  libraries : ranges.libraries = (List.range phraseIndexLibraryCount).map fun library =>
    (rangesOf 0 runs).filter fun range => phraseIndexLibrary range.first = library
  run : ∀ run ∈ runs, IsRun run

theorem holds_empty : Holds (empty : PhraseIndexRanges α) [] where
  slots := rfl
  libraries := rfl
  run _ h := by cases h

theorem Holds.length_slots {ranges : PhraseIndexRanges α} {runs : List (List (Item α))}
    (h : Holds ranges runs) : ranges.slots.length = runs.flatten.length := by
  rw [h.slots, length_map]

/-- Filing the range of one more run, its slots appended. -/
theorem Holds.push {ranges : PhraseIndexRanges α} {runs : List (List (Item α))} {run : List (Item α)}
    (h : Holds ranges runs) (hrun : IsRun run) :
    Holds (push { ranges with slots := ranges.slots ++ run.map snd }
      (rangeOf ranges.slots.length run)) (runs ++ [run]) where
  slots := by
    rw [PhraseIndexRanges.push, h.slots, flatten_append, flatten_singleton, map_append]
  libraries := by
    have hnew : rangesOf 0 (runs ++ [run]) = rangesOf 0 runs ++ [rangeOf ranges.slots.length run] := by
      rw [rangesOf_append, h.length_slots, Nat.zero_add]
      rfl
    rw [PhraseIndexRanges.push, hnew, h.libraries]
    dsimp only
    refine ext_getElem? fun i => ?_
    rw [getElem?_modify, getElem?_map, getElem?_map]
    rcases hi : (range phraseIndexLibraryCount)[i]? with _ | library
    · rfl
    · obtain rfl : i = library := by
        obtain ⟨hlt, heq⟩ := List.getElem?_eq_some_iff.mp hi
        rwa [getElem_range] at heq
      by_cases hlib : phraseIndexLibrary (rangeOf ranges.slots.length run).first = i
      · simp [hlib, filter_append]
      · simp [hlib, filter_append]
  run later hlater := by
    rcases mem_append.mp hlater with hold | hnew
    · exact h.run later hold
    · rw [mem_singleton.mp hnew]
      exact hrun

/-! ## Converting a call -/

variable {state : PhraseIndexRanges α × Option PhraseIndexRange} {token : PhraseToken}

/-- The ranges with the open one filed. -/
def close (state : PhraseIndexRanges α × Option PhraseIndexRange) : PhraseIndexRanges α :=
  match state.2 with
  | some opened => state.1.push opened
  | none => state.1

theorem convert_eq (ranges : PhraseIndexRanges α) (items : List (Item α)) :
    ranges.convert items = close (items.foldl convertItem (ranges, none)) := rfl

@[simp] theorem slots_close (state : PhraseIndexRanges α × Option PhraseIndexRange) :
    (close state).slots = state.1.slots := by
  unfold close
  cases state.2 <;> rfl

/-- A token is in one of the ranges. -/
def Files (ranges : PhraseIndexRanges α) (token : PhraseToken) : Prop :=
  ∃ range ∈ ranges.iter, range.first ≤ token ∧ token ≤ range.last

theorem not_files_empty (token : PhraseToken) : ¬(empty : PhraseIndexRanges α).Files token := by
  rintro ⟨range, hrange, _⟩
  obtain ⟨group, hgroup, hmem⟩ := mem_flatten.mp hrange
  rw [eq_of_mem_replicate hgroup] at hmem
  cases hmem

theorem mem_iter_push {ranges : PhraseIndexRanges α} {range opened : PhraseIndexRange}
    (h : range ∈ (ranges.push opened).iter) : range ∈ ranges.iter ∨ range = opened := by
  obtain ⟨group, hgroup, hmem⟩ := mem_flatten.mp h
  obtain ⟨i, hi⟩ := mem_iff_getElem?.mp hgroup
  rw [push, getElem?_modify] at hi
  obtain ⟨before, hbefore, heq⟩ := map_eq_some_iff.mp hi
  have hold : before ∈ ranges.libraries := mem_iff_getElem?.mpr ⟨i, hbefore⟩
  split_ifs at heq
  · rw [← heq] at hmem
    rcases mem_append.mp hmem with hmem | hmem
    · exact inl (mem_flatten.mpr ⟨before, hold, hmem⟩)
    · exact inr (mem_singleton.mp hmem)
  · rw [← heq] at hmem
    exact inl (mem_flatten.mpr ⟨before, hold, hmem⟩)

/-- A token is in a filed range or in the open one. -/
def Reaches (state : PhraseIndexRanges α × Option PhraseIndexRange) (token : PhraseToken) : Prop :=
  state.1.Files token ∨ ∃ opened, state.2 = some opened ∧ opened.first ≤ token ∧ token ≤ opened.last

theorem Reaches.of_close (h : (close state).Files token) : Reaches state token := by
  obtain ⟨ranges, opened⟩ := state
  cases opened with
  | none => exact inl h
  | some opened =>
    obtain ⟨range, hrange, hwithin⟩ := h
    rcases mem_iter_push hrange with hmem | rfl
    · exact inl ⟨range, hmem, hwithin⟩
    · exact inr ⟨range, rfl, hwithin⟩

/-- One item brings its own token alone. -/
theorem Reaches.of_convertItem (h : Reaches (convertItem state item) token) :
    Reaches state token ∨ token = item.1 := by
  have hself : ∀ {slot : Nat}, (∃ opened, some (⟨item.1, item.1, slot⟩ : PhraseIndexRange) = some opened ∧
      opened.first ≤ token ∧ token ≤ opened.last) → token = item.1 := by
    rintro slot ⟨opened, heq, hfirst, hlast⟩
    obtain rfl := some.inj heq
    exact BitVec.le_antisymm hlast hfirst
  obtain ⟨ranges, _ | opened⟩ := state
  · rcases h with hfiled | hopened
    · exact inl (inl hfiled)
    · exact inr (hself hopened)
  · rw [convertItem] at h
    dsimp only at h
    split_ifs at h with hnext
    · rcases h with hfiled | ⟨grown, heq, hfirst, hlast⟩
      · exact inl (inl hfiled)
      · obtain rfl := some.inj heq
        by_cases hold : token ≤ opened.last
        · exact inl (inr ⟨opened, rfl, hfirst, hold⟩)
        · -- the range grew by one
          refine inr (BitVec.eq_of_toNat_eq ?_)
          have hgrown : token.toNat ≤ item.1.toNat := hlast
          have hpast : opened.last.toNat < token.toNat := by simpa [BitVec.le_def] using hold
          omega
    · rcases h with ⟨range, hrange, hwithin⟩ | hopened
      · rcases mem_iter_push hrange with hmem | rfl
        · exact inl (inl ⟨range, hmem, hwithin⟩)
        · exact inl (inr ⟨range, rfl, hwithin⟩)
      · exact inr (hself hopened)

/-- A call files the tokens of its items alone. -/
theorem Files.of_convert {ranges : PhraseIndexRanges α}
    (h : (ranges.convert items).Files token) : ranges.Files token ∨ token ∈ items.map fst := by
  rw [convert_eq] at h
  have hrun : ∀ (items : List (Item α)) (state : PhraseIndexRanges α × Option PhraseIndexRange),
      Reaches (items.foldl convertItem state) token → Reaches state token ∨ token ∈ items.map fst := by
    intro items
    induction items with
    | nil => exact fun _ => inl
    | cons item items ih =>
      intro state hreach
      rw [map_cons, mem_cons]
      rcases ih _ hreach with hitem | hmem
      · rcases hitem.of_convertItem with hstate | heq
        · exact inl hstate
        · exact inr (inl heq)
      · exact inr (inr hmem)
  rcases hrun items _ (Reaches.of_close h) with hstate | hmem
  · rcases hstate with hfiled | ⟨_, hnone, _⟩
    · exact inl hfiled
    · cases hnone
  · exact inr hmem

/-- The items of a run behind its first extend the open range. -/
theorem foldl_extend (ranges : PhraseIndexRanges α) (opened : PhraseIndexRange) (hrun : IsRun (item :: rest))
    (hlast : opened.last = item.1)
    (hlib : phraseIndexLibrary opened.first = phraseIndexLibrary item.1) :
    rest.foldl convertItem (ranges, some opened) =
      ({ ranges with slots := ranges.slots ++ rest.map snd },
        some { opened with last := (rest.getLast?.getD item).1 }) := by
  induction rest generalizing ranges opened item with
  | nil =>
    rw [foldl_nil, map_nil, append_nil]
    cases opened
    cases hlast
    rfl
  | cons next rest ih =>
    obtain ⟨hnext, hsame⟩ := follows_iff.mp hrun.chain.rel
    have htail : IsRun (next :: rest) := ⟨cons_ne_nil _ _, hrun.chain.tail⟩
    have hstep : convertItem (ranges, some opened) next =
        ({ ranges with slots := ranges.slots ++ [next.2] }, some { opened with last := next.1 }) := by
      simp only [convertItem]
      rw [if_pos ⟨by rw [hlast]; exact hnext, hlib.trans hsame⟩]
    rw [foldl_cons, hstep, ih { ranges with slots := ranges.slots ++ [next.2] }
      { opened with last := next.1 } htail rfl (hlib.trans hsame), getLast?_cons]
    simp [append_assoc]

/-- The first item of a run does not extend the range that is open. -/
def Breaks (state : PhraseIndexRanges α × Option PhraseIndexRange) (item : Item α) : Prop :=
  ∀ opened, state.2 = some opened → ¬(opened.last.toNat + 1 = item.1.toNat ∧
    phraseIndexLibrary opened.first = phraseIndexLibrary item.1)

/-- A run closes the open range and opens its own. -/
theorem foldl_run (hrun : IsRun (item :: rest)) (hbreaks : Breaks state item)
    (hfits : state.1.slots.length < 2 ^ 32) :
    (item :: rest).foldl convertItem state =
      ({ close state with slots := (close state).slots ++ (item :: rest).map snd },
        some (rangeOf (close state).slots.length (item :: rest))) := by
  have hstep : convertItem state item =
      ({ close state with slots := (close state).slots ++ [item.2] },
        some ⟨item.1, item.1, (close state).slots.length⟩) := by
    obtain ⟨ranges, opened⟩ := state
    have hslot : min ranges.slots.length (2 ^ 32 - 1) = ranges.slots.length := by
      dsimp only at hfits
      omega
    cases opened with
    | none =>
      simp only [convertItem, close]
      rw [hslot]
    | some opened =>
      simp only [convertItem, close]
      rw [if_neg (hbreaks opened rfl), hslot]
      rfl
  rw [foldl_cons, hstep, foldl_extend { close state with slots := (close state).slots ++ [item.2] }
    ⟨item.1, item.1, (close state).slots.length⟩ hrun rfl rfl]
  simp only [rangeOf, map_cons, append_assoc, cons_append, nil_append]

/-- The runs of a call one after the other. -/
theorem close_foldl_runs {runs : List (List (Item α))} (hrun : ∀ run ∈ runs, IsRun run)
    (hchain : runs.IsChain fun run next => ∃ hr hn, follows (run.getLast hr) (next.head hn) = false)
    {before : List (List (Item α))}
    (hholds : Holds (close state) before) (hbreaks : ∀ run ∈ runs.head?, ∀ item ∈ run.head?, Breaks state item)
    (hfits : before.flatten.length + runs.flatten.length ≤ 2 ^ 32) :
    Holds (close (runs.flatten.foldl convertItem state)) (before ++ runs) := by
  induction runs generalizing state before with
  | nil => simpa using hholds
  | cons run runs ih =>
    have hthis := hrun run mem_cons_self
    obtain ⟨item, rest, rfl⟩ := exists_cons_of_ne_nil hthis.nonempty
    have hlen := hholds.length_slots
    rw [slots_close] at hlen
    simp only [flatten_cons, length_append, length_cons] at hfits
    have hfold := foldl_run hthis (hbreaks _ rfl item rfl) (by omega)
    have hnext : Holds (close ((item :: rest).foldl convertItem state)) (before ++ [item :: rest]) := by
      rw [hfold]
      exact hholds.push hthis
    rw [flatten_cons, foldl_append]
    have hmore := ih (fun later hlater => hrun later (mem_cons_of_mem _ hlater)) hchain.tail hnext
      ?_ (by simp only [flatten_append, flatten_singleton, length_append,
        length_cons]; omega)
    · rwa [append_assoc] at hmore
    · -- the boundary between two runs is where the range does not go on
      intro later hlater first hfirst opened hopened hgoes
      obtain ⟨later', runs, rfl⟩ : ∃ l r, runs = l :: r := by
        cases runs with
        | nil => cases hlater
        | cons l r => exact ⟨l, r, rfl⟩
      obtain rfl := some.inj hlater
      obtain ⟨hne, hne', hbreak⟩ := hchain.rel
      rw [hfold] at hopened
      obtain rfl := some.inj hopened
      have hhead : later'.head hne' = first := by
        rw [head?_eq_some_head hne'] at hfirst
        exact some.inj hfirst
      have hlast : (item :: rest).getLast hne = rest.getLast?.getD item := by
        have := getLast?_eq_some_getLast hne
        rw [getLast?_cons] at this
        exact (some.inj this).symm
      rw [hhead, hlast] at hbreak
      refine Bool.false_ne_true (hbreak.symm.trans (follows_iff.mpr ⟨hgoes.1, ?_⟩))
      exact hthis.last.2.trans hgoes.2

/-- A call adds its maximal runs. -/
theorem Holds.convert {ranges : PhraseIndexRanges α} {runs : List (List (Item α))}
    (h : Holds ranges runs) (hfits : runs.flatten.length + items.length ≤ 2 ^ 32) :
    Holds (ranges.convert items) (runs ++ runsOf items) := by
  have hflat : (runsOf items).flatten = items := flatten_splitBy _ _
  rw [convert_eq]
  conv in items.foldl _ _ => rw [← hflat]
  refine close_foldl_runs (fun run hrun => isRun_of_mem_runsOf hrun)
    (isChain_getLast_head_splitBy _ _) h ?_ (by rw [hflat]; exact hfits)
  intro _ _ _ _ opened hopened
  cases hopened

/-! ## Appending another structure -/

/-- An item with what it resolved to mapped. -/
def mapItem (map : β → α) (item : Item β) : Item α := (item.1, item.2.map map)

theorem follows_mapItem (map : β → α) (item next : Item β) :
    follows (mapItem map item) (mapItem map next) = follows item next := rfl

theorem IsRun.map {run : List (Item β)} (h : IsRun run) (map : β → α) : IsRun (run.map (mapItem map)) where
  nonempty := fun hnil => h.nonempty (map_eq_nil_iff.mp hnil)
  chain := (isChain_map _).mpr h.chain

theorem runsOf_map (map : β → α) (items : List (Item β)) :
    runsOf (items.map (mapItem map)) = (runsOf items).map (List.map (mapItem map)) := by
  obtain ⟨hflat, hnil, hchain, hbreak⟩ := splitBy_eq_iff.mp (rfl : items.splitBy follows = runsOf items)
  refine splitBy_eq_iff.mpr ⟨?_, ?_, ?_, ?_⟩
  · rw [← map_flatten]
    exact congrArg _ hflat
  · intro hmem
    obtain ⟨run, hrun, heq⟩ := mem_map.mp hmem
    exact hnil (map_eq_nil_iff.mp heq ▸ hrun)
  · intro run hrun
    obtain ⟨run, hin, rfl⟩ := mem_map.mp hrun
    exact (isChain_map _).mpr (hchain run hin)
  · refine (isChain_map _).mpr (hbreak.imp fun run next hboundary => ?_)
    obtain ⟨hr, hn, hstop⟩ := hboundary
    refine ⟨fun h => hr (map_eq_nil_iff.mp h), fun h => hn (map_eq_nil_iff.mp h), ?_⟩
    rw [getLast_map, head_map, follows_mapItem]
    exact hstop

theorem rangeOf_map (map : β → α) (slot : Nat) (run : List (Item β)) :
    rangeOf slot (run.map (mapItem map)) = rangeOf slot run := by
  cases run with
  | nil => rfl
  | cons item rest =>
    rw [map_cons, rangeOf, rangeOf, getLast?_map]
    cases rest.getLast? <;> rfl

theorem rangesOf_map (map : β → α) (slot : Nat) (runs : List (List (Item β))) :
    rangesOf slot (runs.map (List.map (mapItem map))) = rangesOf slot runs := by
  induction runs generalizing slot with
  | nil => rfl
  | cons run runs ih => rw [map_cons, rangesOf, rangesOf, rangeOf_map, length_map, ih]

/-- The ranges of runs placed further on. -/
theorem rangesOf_rebase (slot base : Nat) (runs : List (List (Item β))) :
    (rangesOf slot runs).map (fun range => { range with slot := range.slot + base }) =
      rangesOf (base + slot) runs := by
  induction runs generalizing slot with
  | nil => rfl
  | cons run runs ih =>
    rw [rangesOf, map_cons, ih, rangesOf, Nat.add_assoc]
    congr 1
    cases run <;> simp [rangeOf, Nat.add_comm]

theorem length_flatten_map (map : β → α) (runs : List (List (Item β))) :
    (runs.map (List.map (mapItem map))).flatten.length = runs.flatten.length := by
  rw [← map_flatten, length_map]

/-- Appending adds the runs of the other structure behind. -/
theorem Holds.appendFrom {ranges : PhraseIndexRanges α} {other : PhraseIndexRanges β}
    {runs : List (List (Item α))} {added : List (List (Item β))} (h : Holds ranges runs)
    (h' : Holds other added) (map : β → α) (hfits : runs.flatten.length + added.flatten.length ≤ 2 ^ 32) :
    Holds (ranges.appendFrom other map) (runs ++ added.map (List.map (mapItem map))) where
  slots := by
    rw [PhraseIndexRanges.appendFrom, h.slots, h'.slots, flatten_append, map_append,
      ← map_flatten, List.map_map, List.map_map]
    rfl
  libraries := by
    have hrebase : (rangesOf 0 added).map (fun range =>
        ({ range with
          slot := min (range.slot + min ranges.slots.length (2 ^ 32 - 1)) (2 ^ 32 - 1) } : PhraseIndexRange)) =
        rangesOf runs.flatten.length (added.map (List.map (mapItem map))) := by
      rw [rangesOf_map, ← Nat.add_zero runs.flatten.length, ← rangesOf_rebase]
      refine map_congr_left fun range hrange => ?_
      obtain ⟨front, run, back, rfl, rfl⟩ := mem_rangesOf.mp hrange
      have hrun := (h'.run run (by simp)).nonempty
      have hpos := length_pos_iff.mpr hrun
      simp only [flatten_append, flatten_cons, length_append] at hfits
      rw [slot_rangeOf, h.length_slots, Nat.min_eq_left (by omega), Nat.min_eq_left (by omega)]
    rw [PhraseIndexRanges.appendFrom, h.libraries, h'.libraries, rangesOf_append, Nat.zero_add, ← hrebase]
    dsimp only
    rw [zipWith_map, zipWith_self]
    refine map_congr_left fun library _ => ?_
    rw [filter_append, List.filter_map]
    rfl
  run run hrun := by
    rcases mem_append.mp hrun with hold | hnew
    · exact h.run run hold
    · obtain ⟨run, hin, rfl⟩ := mem_map.mp hnew
      exact (h'.run run hin).map map

/-! ## Reading the runs back -/

section

variable {ranges : PhraseIndexRanges α} {runs front back : List (List (Item α))} {run : List (Item α)}

section

variable (h : Holds ranges (front ++ run :: back))
include h

/-- The slots of a run's range. -/
theorem Holds.window : (ranges.slots.drop front.flatten.length).take run.length = run.map snd := by
  rw [h.slots, flatten_append, flatten_cons, map_append, map_append,
    drop_left' (length_map _), take_left' (length_map _)]

theorem Holds.isRun : IsRun run :=
  h.run run (by simp)

theorem Holds.entries : ranges.entries (rangeOf front.flatten.length run) = run.filterMap snd := by
  rw [PhraseIndexRanges.entries, slot_rangeOf, count_rangeOf h.isRun, h.window, filterMap_map]
  rfl

/-- The place of a token in the range of its run. -/
theorem Holds.entry {n : Nat} {item : Item α} (hn : run[n]? = some item) :
    ranges.entry (rangeOf front.flatten.length run) item.1 = item.2 ∧
      item.1.toNat = (rangeOf front.flatten.length run).first.toNat + n := by
  have hrun := h.isRun
  have hlt := (List.getElem?_eq_some_iff.mp hn).1
  have hslot : ranges.slots[front.flatten.length + n]? = some item.2 := by
    rw [h.slots, getElem?_map, flatten_append, flatten_cons,
      getElem?_append_right (by omega), Nat.add_sub_cancel_left, getElem?_append_left hlt, hn]
    rfl
  cases run with
  | nil => simp at hn
  | cons first rest =>
    have htoken := (hrun.token hn).1
    have hlast := hrun.last.1
    rw [length_cons] at hlt
    refine ⟨?_, htoken⟩
    rw [entry, if_neg, slot_rangeOf]
    · simp only [rangeOf]
      rw [htoken, Nat.add_sub_cancel_left, hslot]
      rfl
    · simp only [rangeOf, BitVec.lt_def]
      omega

/-- The tokens of a run's range with their entries. -/
theorem Holds.walkTokens_run :
    (range' (rangeOf front.flatten.length run).first.toNat
      ((rangeOf front.flatten.length run).last.toNat + 1 -
        (rangeOf front.flatten.length run).first.toNat)).filterMap (fun n =>
      (ranges.entry (rangeOf front.flatten.length run) (BitVec.ofNat 32 n)).map fun found =>
        (BitVec.ofNat 32 n, found)) = run.filterMap resolved := by
  have hrun := h.isRun
  obtain ⟨item, rest, rfl⟩ := exists_cons_of_ne_nil hrun.nonempty
  have htokens : range' (rangeOf front.flatten.length (item :: rest)).first.toNat
      ((rangeOf front.flatten.length (item :: rest)).last.toNat + 1 -
        (rangeOf front.flatten.length (item :: rest)).first.toNat) =
      (item :: rest).map fun found => found.1.toNat := by
    have hlast := hrun.last.1
    rw [hrun.tokens]
    simp only [rangeOf, hlast]
    congr 1
    omega
  rw [htokens, filterMap_map]
  refine filterMap_congr fun found hfound => ?_
  obtain ⟨n, hn⟩ := mem_iff_getElem?.mp hfound
  rw [Function.comp_apply, BitVec.ofNat_toNat, BitVec.setWidth_eq, (h.entry hn).1]
  rfl

end

/-- What each range reads off its run, read range by range, is read off the items of each library in
order of arrival. -/
theorem flatMap_iter {γ : Type} {f : PhraseIndexRange → List γ} {p : Item α → Option γ} (h : Holds ranges runs)
    (hf : ∀ front run back, runs = front ++ run :: back →
      f (rangeOf front.flatten.length run) = run.filterMap p) :
    ranges.iter.flatMap f = (range phraseIndexLibraryCount).flatMap fun library =>
      (runs.flatten.filter fun item => phraseIndexLibrary item.1 = library).filterMap p := by
  have hlibrary : ∀ (library : Nat) (later : List (List (Item α))) (slot : Nat),
      (∀ run ∈ later, IsRun run) →
      (∀ front run back, later = front ++ run :: back →
        f (rangeOf (slot + front.flatten.length) run) = run.filterMap p) →
      ((rangesOf slot later).filter fun range => phraseIndexLibrary range.first = library).flatMap f =
        (later.flatten.filter fun item => phraseIndexLibrary item.1 = library).filterMap p := by
    intro library later
    induction later with
    | nil => exact fun _ _ _ => rfl
    | cons run later ih =>
      intro slot hruns hread
      have hrun := hruns run mem_cons_self
      have hrest := ih (slot + run.length) (fun r hr => hruns r (mem_cons_of_mem _ hr))
        fun front r back heq => by
          have := hread (run :: front) r back (by rw [heq]; rfl)
          rwa [flatten_cons, length_append, ← Nat.add_assoc] at this
      have hhead := hread [] run later rfl
      rw [flatten_nil, length_nil, Nat.add_zero] at hhead
      obtain ⟨item, rest, rfl⟩ := exists_cons_of_ne_nil hrun.nonempty
      -- a run lies in one library
      have hsame : ∀ found ∈ item :: rest, phraseIndexLibrary found.1 = phraseIndexLibrary item.1 := by
        intro found hfound
        obtain ⟨n, hn⟩ := mem_iff_getElem?.mp hfound
        exact (hrun.token hn).2
      rw [rangesOf, flatten_cons, filter_append, filterMap_append, ← hrest]
      by_cases hlib : phraseIndexLibrary item.1 = library
      · have hall : (item :: rest).filter (fun found => phraseIndexLibrary found.1 = library) = item :: rest :=
          filter_eq_self.mpr fun found hfound => decide_eq_true ((hsame found hfound).trans hlib)
        have hkeep : decide (phraseIndexLibrary (rangeOf slot (item :: rest)).first = library) = true :=
          decide_eq_true hlib
        rw [hall, filter_cons, if_pos hkeep, flatMap_cons, hhead]
      · have hnone : (item :: rest).filter (fun found => phraseIndexLibrary found.1 = library) = [] :=
          filter_eq_nil_iff.mpr fun found hfound htrue =>
            hlib ((hsame found hfound).symm.trans (of_decide_eq_true htrue))
        have hdrop : ¬decide (phraseIndexLibrary (rangeOf slot (item :: rest)).first = library) = true :=
          fun htrue => hlib (of_decide_eq_true htrue)
        rw [hnone, filter_cons, if_neg hdrop]
        rfl
  rw [iter, h.libraries, flatten_eq_flatMap, flatMap_map, flatMap_assoc]
  refine flatMap_congr fun library _ => ?_
  refine hlibrary library runs 0 h.run fun front run back heq => ?_
  rw [Nat.zero_add]
  exact hf front run back heq

/-! ## Moving the entries out -/

/-- Two ranges share no slot. -/
def Apart (range later : PhraseIndexRange) : Prop :=
  range.slot + count range ≤ later.slot ∨ later.slot + count later ≤ range.slot

theorem pairwise_rangesOf {slot : Nat} (hruns : ∀ run ∈ runs, IsRun run) :
    (rangesOf slot runs).Pairwise fun range later => range.slot + count range ≤ later.slot := by
  induction runs generalizing slot with
  | nil => exact .nil
  | cons run runs ih =>
    refine pairwise_cons.mpr ⟨fun later hlater => ?_,
      ih fun r hr => hruns r (mem_cons_of_mem _ hr)⟩
    obtain ⟨front, next, back, -, rfl⟩ := mem_rangesOf.mp hlater
    rw [slot_rangeOf, slot_rangeOf, count_rangeOf (hruns run mem_cons_self)]
    omega

/-- The ranges of all libraries share no slot. -/
theorem Holds.pairwise_iter (h : Holds ranges runs) : ranges.iter.Pairwise Apart := by
  have hsorted := @pairwise_rangesOf α runs 0 h.run
  have hsymm : Std.Symm Apart := ⟨fun _ _ hapart => hapart.symm⟩
  have hapart : (rangesOf 0 runs).Pairwise Apart := hsorted.imp fun hle => inl hle
  have hall := hapart.forall
  rw [iter, h.libraries, pairwise_flatten]
  constructor
  · intro filed hfiled
    obtain ⟨library, -, rfl⟩ := mem_map.mp hfiled
    exact (hsorted.filter _).imp fun hle => inl hle
  · rw [pairwise_map]
    refine nodup_range.imp fun {library later} hne range hrange other hother => ?_
    obtain ⟨hrange, hlib⟩ := mem_filter.mp hrange
    obtain ⟨hother, hlib'⟩ := mem_filter.mp hother
    refine hall hrange hother fun heq => hne ?_
    rw [← of_decide_eq_true hlib, heq, of_decide_eq_true hlib']

/-- Emptying the slots of one range leaves those of the others. -/
theorem window_takeEntries {state : List (Option α) × List α} {range later : PhraseIndexRange}
    (h : Apart range later) :
    ((takeEntries state range).1.drop later.slot).take (count later) =
      (state.1.drop later.slot).take (count later) := by
  refine ext_getElem? fun n => ?_
  rw [getElem?_take, getElem?_take]
  split
  · rw [getElem?_drop, getElem?_drop, takeEntries, getElem?_mapIdx]
    have hout : ¬(range.slot ≤ later.slot + n ∧ later.slot + n < range.slot + count range) := by
      unfold Apart at h
      omega
    simp only [hout, if_false]
    cases state.1[later.slot + n]? <;> rfl
  · rfl

theorem foldl_takeEntries {list : List PhraseIndexRange} (h : list.Pairwise Apart)
    (state : List (Option α) × List α) :
    (list.foldl takeEntries state).2 = state.2 ++ list.flatMap fun range =>
      ((state.1.drop range.slot).take (count range)).filterMap id := by
  induction list generalizing state with
  | nil => simp
  | cons range list ih =>
    obtain ⟨hapart, hrest⟩ := pairwise_cons.mp h
    rw [foldl_cons, ih hrest, flatMap_cons, ← append_assoc]
    congr 1
    refine flatMap_congr fun later hlater => ?_
    rw [window_takeEntries (hapart later hlater)]

theorem Holds.intoWalkEntries (h : Holds ranges runs) : ranges.intoWalkEntries = ranges.walk := by
  rw [PhraseIndexRanges.intoWalkEntries, foldl_takeEntries h.pairwise_iter, nil_append]
  rfl

end

/-! ## Sequences of calls -/

/-- What a sequence of calls builds, with the items of the search calls in order of arrival. -/
inductive Built : ∀ {α : Type}, PhraseIndexRanges α → List (List (Item α)) → Prop
  | empty {α : Type} : Built (PhraseIndexRanges.empty : PhraseIndexRanges α) []
  | convert {α : Type} {ranges : PhraseIndexRanges α} {calls : List (List (Item α))}
      (items : List (Item α)) : Built ranges calls → Built (ranges.convert items) (calls ++ [items])
  | appendFrom {α β : Type} {ranges : PhraseIndexRanges α} {other : PhraseIndexRanges β}
      {calls : List (List (Item α))} {added : List (List (Item β))} (map : β → α) :
      Built ranges calls → Built other added →
      Built (ranges.appendFrom other map) (calls ++ added.map (List.map (mapItem map)))

/-- Items by library, in order of arrival. -/
def grouped (items : List (PhraseToken × α)) : List (PhraseToken × α) :=
  (List.range phraseIndexLibraryCount).flatMap fun library =>
    items.filter fun item => phraseIndexLibrary item.1 = library

theorem flatten_runsOf (items : List (Item α)) : (runsOf items).flatten = items :=
  flatten_splitBy _ _

theorem flatten_flatMap_runsOf (calls : List (List (Item α))) : (calls.flatMap runsOf).flatten = calls.flatten := by
  induction calls with
  | nil => rfl
  | cons items calls ih =>
    rw [flatMap_cons, flatten_append, flatten_runsOf, ih, flatten_cons]

/-- Whatever the calls, the ranges hold the maximal runs of each. -/
theorem Built.holds {α : Type} {ranges : PhraseIndexRanges α} {calls : List (List (Item α))}
    (h : Built ranges calls) (hfits : calls.flatten.length ≤ 2 ^ 32) : Holds ranges (calls.flatMap runsOf) := by
  induction h with
  | empty => exact holds_empty
  | convert items _ ih =>
    rw [flatten_append, flatten_singleton, length_append] at hfits
    rw [flatMap_append, flatMap_singleton]
    refine (ih (by omega)).convert ?_
    rw [flatten_flatMap_runsOf]
    exact hfits
  | appendFrom map _ _ ih ih' =>
    rw [flatten_append, length_append, length_flatten_map] at hfits
    rw [flatMap_append, flatMap_map]
    simp only [runsOf_map]
    rw [← map_flatMap]
    refine (ih (by omega)).appendFrom (ih' (by omega)) map ?_
    rw [flatten_flatMap_runsOf, flatten_flatMap_runsOf]
    exact hfits

/-- Grouping by library loses and repeats nothing. -/
theorem grouped_perm (items : List (PhraseToken × α)) : (grouped items).Perm items := by
  have hbelow : ∀ n, ((List.range n).flatMap fun library =>
      items.filter fun item => phraseIndexLibrary item.1 = library).Perm
      (items.filter fun item => phraseIndexLibrary item.1 < n) := by
    intro n
    induction n with
    | zero => simp
    | succ n ih =>
      rw [range_succ, flatMap_append, flatMap_singleton]
      have hsplit := filter_append_perm (fun item : PhraseToken × α => phraseIndexLibrary item.1 < n)
        (items.filter fun item => phraseIndexLibrary item.1 < n + 1)
      rw [List.filter_filter, List.filter_filter] at hsplit
      have hlow : items.filter (fun item => decide (phraseIndexLibrary item.1 < n) &&
          decide (phraseIndexLibrary item.1 < n + 1)) =
          items.filter fun item => phraseIndexLibrary item.1 < n := by
        refine filter_congr fun item _ => ?_
        simp only [← Bool.decide_and, decide_eq_decide]
        omega
      have hhigh : items.filter (fun item => !decide (phraseIndexLibrary item.1 < n) &&
          decide (phraseIndexLibrary item.1 < n + 1)) =
          items.filter fun item => phraseIndexLibrary item.1 = n := by
        refine filter_congr fun item _ => ?_
        simp only [← decide_not, ← Bool.decide_and, decide_eq_decide]
        omega
      rw [hlow, hhigh] at hsplit
      exact (ih.append_right _).trans hsplit
  refine (hbelow _).trans (Perm.of_eq ?_)
  exact filter_eq_self.mpr fun item _ => decide_eq_true (phraseIndexLibrary_lt item.1)

/-- Every way to read the ranges lists the resolved items of the calls, each once, grouped by library
and in order of arrival. A library's ranges are those of the maximal runs of the calls, every slot of a
range holds the item of its token, and every item is in the range of its slot. -/
theorem ranges_list_items {ranges : PhraseIndexRanges α} {calls : List (List (Item α))}
    (h : Built ranges calls) (hfits : calls.flatten.length < 2 ^ 32) :
    ranges.walkTokens = grouped (calls.flatten.filterMap resolved) ∧
    ranges.walk = ranges.walkTokens.map Prod.snd ∧
    ranges.intoWalkEntries = ranges.walkTokens.map Prod.snd ∧
    (grouped (calls.flatten.filterMap resolved)).Perm (calls.flatten.filterMap resolved) ∧
    (ranges.libraries = (List.range phraseIndexLibraryCount).map fun library =>
      (rangesOf 0 (calls.flatMap runsOf)).filter fun range => phraseIndexLibrary range.first = library) ∧
    (∀ range ∈ ranges.iter, ∀ n < count range, ∃ item, calls.flatten[range.slot + n]? = some item ∧
      item.1.toNat = range.first.toNat + n ∧ ranges.entry range item.1 = item.2) ∧
    ∀ i item, calls.flatten[i]? = some item → ∃ range ∈ ranges.iter,
      range.slot ≤ i ∧ i < range.slot + count range ∧ item.1.toNat = range.first.toNat + (i - range.slot) ∧
      ranges.entry range item.1 = item.2 := by
  have hholds := h.holds (Nat.le_of_lt hfits)
  have hflat := flatten_flatMap_runsOf calls
  have hmem : ∀ range, range ∈ ranges.iter ↔ range ∈ rangesOf 0 (calls.flatMap runsOf) := by
    intro range
    rw [iter, hholds.libraries, mem_flatten]
    constructor
    · rintro ⟨filed, hfiled, hrange⟩
      obtain ⟨library, -, rfl⟩ := List.mem_map.mp hfiled
      exact (mem_filter.mp hrange).1
    · intro hrange
      exact ⟨_, List.mem_map.mpr ⟨phraseIndexLibrary range.first,
        mem_range.mpr (phraseIndexLibrary_lt range.first), rfl⟩,
        mem_filter.mpr ⟨hrange, decide_eq_true rfl⟩⟩
  have htokens : ranges.walkTokens = grouped (calls.flatten.filterMap resolved) := by
    rw [walkTokens, flatMap_iter hholds fun front run back heq => (heq ▸ hholds).walkTokens_run, hflat, grouped]
    refine flatMap_congr fun library _ => ?_
    rw [filterMap_filter, filter_filterMap]
    refine filterMap_congr fun item _ => ?_
    obtain ⟨token, found⟩ := item
    cases found <;> by_cases hlib : phraseIndexLibrary token = library <;> simp [resolved, hlib, Option.filter]
  have hwalk : ranges.walk = ranges.walkTokens.map Prod.snd := by
    rw [walk, flatMap_iter hholds fun front run back heq => (heq ▸ hholds).entries, walkTokens,
      flatMap_iter hholds fun front run back heq => (heq ▸ hholds).walkTokens_run, map_flatMap]
    refine flatMap_congr fun library _ => ?_
    rw [map_filterMap]
    refine filterMap_congr fun item _ => ?_
    obtain ⟨token, found⟩ := item
    cases found <;> rfl
  refine ⟨htokens, hwalk, hholds.intoWalkEntries.trans hwalk, grouped_perm _, hholds.libraries,
    fun range hrange n hn => ?_, fun i item hitem => ?_⟩
  · obtain ⟨front, run, back, heq, rfl⟩ := mem_rangesOf.mp ((hmem range).mp hrange)
    rw [heq] at hholds
    rw [Nat.zero_add] at hn ⊢
    rw [count_rangeOf hholds.isRun] at hn
    refine ⟨run[n], ?_, (hholds.entry (getElem?_eq_getElem hn)).2,
      (hholds.entry (getElem?_eq_getElem hn)).1⟩
    rw [slot_rangeOf, ← hflat, heq, flatten_append, flatten_cons,
      getElem?_append_right (by omega), Nat.add_sub_cancel_left, getElem?_append_left hn,
      getElem?_eq_getElem hn]
  · -- the run that holds the place
    rw [← hflat] at hitem
    have hplace : ∀ (runs : List (List (Item α))) (i : Nat), runs.flatten[i]? = some item →
        ∃ front run back n, runs = front ++ run :: back ∧ i = front.flatten.length + n ∧
          run[n]? = some item := by
      intro runs
      induction runs with
      | nil => intro i hi; simp at hi
      | cons run runs ih =>
        intro i hi
        rw [flatten_cons] at hi
        rcases Nat.lt_or_ge i run.length with hlt | hge
        · rw [getElem?_append_left hlt] at hi
          exact ⟨[], run, runs, i, rfl, by simp, hi⟩
        · rw [getElem?_append_right hge] at hi
          obtain ⟨front, found, back, n, rfl, hn, hrun⟩ := ih _ hi
          refine ⟨run :: front, found, back, n, rfl, ?_, hrun⟩
          rw [flatten_cons, length_append]
          omega
    obtain ⟨front, run, back, n, heq, rfl, hn⟩ := hplace _ _ hitem
    refine ⟨rangeOf front.flatten.length run,
      (hmem _).mpr (mem_rangesOf.mpr ⟨front, run, back, heq, by rw [Nat.zero_add]⟩), ?_⟩
    rw [heq] at hholds
    have hlt := (List.getElem?_eq_some_iff.mp hn).1
    rw [slot_rangeOf, count_rangeOf hholds.isRun, Nat.add_sub_cancel_left]
    exact ⟨by omega, by omega, (hholds.entry hn).2, (hholds.entry hn).1⟩

theorem ranges_list_items_pair :
    (((PhraseIndexRanges.empty : PhraseIndexRanges Nat).convert [(5, some 50), (6, none),
      (0x01000002, some 20)]).appendFrom
      ((PhraseIndexRanges.empty : PhraseIndexRanges Nat).convert [(7, some 7)]) (· * 10)).walkTokens =
      [(5, 50), (7, 70), (0x01000002, 20)] := by
  have hbuilt := (Built.empty.convert [((5 : PhraseToken), some 50), (6, none), (0x01000002, some 20)]).appendFrom
    (· * 10) (Built.empty.convert [((7 : PhraseToken), some 7)])
  refine (ranges_list_items hbuilt (by decide)).1.trans ?_
  decide

/-- Consecutive tokens of one call are two ranges where the second is of the next library, and where
an item of another library came between. -/
theorem not_ranges_maximal :
    (¬∀ (call : List (Item Nat)) (i : Nat) (item next : Item Nat), call[i]? = some item →
      call[i + 1]? = some next → item.1.toNat + 1 = next.1.toNat →
      ∃ range ∈ ((PhraseIndexRanges.empty : PhraseIndexRanges Nat).convert call).iter,
        range.slot ≤ i ∧ i + 1 < range.slot + count range) ∧
    ((PhraseIndexRanges.empty : PhraseIndexRanges Nat).convert
      [(0x02000005, some 5), (0x01000007, some 7), (0x02000006, some 6)]).libraries[2]? =
      some [⟨0x02000005, 0x02000005, 0⟩, ⟨0x02000006, 0x02000006, 2⟩] := by
  refine ⟨fun hall => ?_, by decide⟩
  obtain ⟨range, hrange, hfrom, hto⟩ := hall [(0x00ffffff, some 0), (0x01000000, some 1)] 0
    (0x00ffffff, some 0) (0x01000000, some 1) rfl rfl (by decide)
  have hiter : ((PhraseIndexRanges.empty : PhraseIndexRanges Nat).convert
      [(0x00ffffff, some 0), (0x01000000, some 1)]).iter =
      [⟨0x00ffffff, 0x00ffffff, 0⟩, ⟨0x01000000, 0x01000000, 1⟩] := by decide
  rw [hiter] at hrange
  rcases mem_cons.mp hrange with rfl | hrange
  · exact absurd hto (by decide)
  · rw [mem_singleton.mp hrange] at hfrom
    exact absurd hfrom (by decide)

end PhraseIndexRanges

end Oxpinyin
