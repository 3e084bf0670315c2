import Oxpinyin.GraphBuild
import Oxpinyin.Lib.Lightest
import Oxpinyin.Lib.Search

/-!
# Indexed full-pinyin schemes

Luoma and secondary zhuyin are read through a table from spellings to canonical pinyin. A dynamic
program over the positions of the input takes keys of the table, hops over apostrophes, and keeps for
each position the way with the fewest keys. `parseIndex_spec` : the parse goes as far as keys and
apostrophes reach, and no other keys lead there in a smaller number.
-/

namespace Oxpinyin

open List Option Sweep Cuts Lightest Search

/-! ## Tables -/

/-- A string in a blob, by its offset and its length. -/
structure StringSpan where
  /-- Where the string begins. -/
  offset : UInt16
  /-- How long it is. -/
  length : UInt16
  deriving DecidableEq, Repr

/-- A table of two columns of strings in one blob. -/
structure StringTable where
  /-- The text of all strings. -/
  blob : Bytes
  /-- The two strings of each row. -/
  rows : List (StringSpan × StringSpan)
  deriving DecidableEq, Repr

namespace StringTable

/-- `str::is_char_boundary`. -/
def isCharBoundary (blob : Bytes) (i : Nat) : Bool :=
  match blob[i]? with
  | some byte => i == 0 || byte < 128 || 192 ≤ byte
  | none => i == blob.length

/-- The string of a span, or the empty one when the span is none of the blob. -/
def resolve (table : StringTable) (span : StringSpan) : Bytes :=
  let start := span.offset.toNat
  let stop := start + span.length.toNat
  if stop ≤ table.blob.length && isCharBoundary table.blob start && isCharBoundary table.blob stop then
    slice table.blob start span.length.toNat
  else []

/-- The bytes of a span, without a look at the boundaries of characters. -/
def probe (table : StringTable) (span : StringSpan) : Bytes :=
  if span.offset.toNat + span.length.toNat ≤ table.blob.length then
    slice table.blob span.offset.toNat span.length.toNat
  else []

/-- The row of a spelling in a table sorted by its first column. -/
def position (table : StringTable) (spelling : Bytes) : Option Nat :=
  let position := partitionPoint (fun row => decide (table.probe row.1 < spelling)) table.rows
  (table.rows[position]?).bind fun row => if table.resolve row.1 = spelling then some position else none

end StringTable

/-- An indexed full-pinyin spelling table. -/
structure FullPinyinIndex where
  /-- Spellings and canonical pinyin. -/
  table : StringTable
  deriving DecidableEq, Repr

/-- Canonical pinyin for an exact input spelling. -/
def FullPinyinIndex.canonical (index : FullPinyinIndex) (spelling : Bytes) : Option Bytes :=
  (index.table.position spelling).bind fun position =>
    (index.table.rows[position]?).map fun row => index.table.resolve row.2

namespace FullPinyinIndex

/-- Longest spelling in either index. -/
def maxIndexSpellingLen : Nat := 6

/-- Lookahead of the parser, the tone digit included. -/
def maxLookahead : Nat := 7

/-! ## One key -/

/-- One parsed key. -/
structure FullPinyinIndexKey where
  /-- The canonical spelling. -/
  canonical : Bytes
  /-- Where its text begins. -/
  start : Nat
  /-- Where its text ends, the tone digit included. -/
  stop : Nat
  /-- The tone, or zero. -/
  tone : Nat
  deriving DecidableEq, Repr

/-- `core::str::from_utf8` accepts the bytes. -/
def isUtf8 (bytes : Bytes) : Bool := ByteArray.validateUTF8 ⟨bytes.toArray⟩

/-- The length of the spelling of a slice and its tone, when a trailing digit is one. -/
def splitTone (input : Bytes) (hasTone : Bool) : Nat × Nat :=
  match input.getLast? with
  | some digit =>
    if hasTone && (49 ≤ digit && digit ≤ 53) then (input.length - 1, digit.toNat - 48) else (input.length, 0)
  | none => (input.length, 0)

/-- The key that a whole slice spells, with its tone digit. -/
def parseOneIndexKey (input : Bytes) (options : OptionBits) (index : FullPinyinIndex) : Option FullPinyinIndexKey :=
  let hasTone := options.contains useTone
  let (parsedLen, tone) := splitTone input hasTone
  if parsedLen == 0 || (hasTone && options.contains forceTone && tone == 0) then none
  else if isUtf8 (input.take parsedLen) then
    (index.canonical (input.take parsedLen)).map fun canonical =>
      ⟨canonical, 0, if hasTone && tone != 0 then parsedLen + 1 else parsedLen, tone⟩
  else none

/-! ## The dynamic program -/

/-- The best way found to a position. -/
structure Step where
  /-- Whether there is one. -/
  reached : Bool
  /-- The position before. -/
  last : Nat
  /-- Its number of keys. -/
  numKeys : Nat
  /-- The bytes it covers. -/
  parsedLen : Nat
  /-- Its last key, none after an apostrophe. -/
  key : Option FullPinyinIndexKey
  deriving DecidableEq, Repr

/-- A position without a way to it. -/
def unreached : Step := ⟨false, 0, 0, 0, none⟩

/-- The best way to a position. -/
def stepAt (steps : List Step) (position : Nat) : Step := steps.getD position unreached

/-- Takes a way to a position when it covers more than the one that is there, or as much with fewer keys. -/
def relax (steps : List Step) (position : Nat) (value : Step) : List Step :=
  let next := stepAt steps position
  if !next.reached || next.parsedLen < value.parsedLen ||
      (value.parsedLen == next.parsedLen && value.numKeys < next.numKeys) then steps.set position value
  else steps

/-- The key between two positions, if the bytes between them spell one. -/
def indexSpan (input : Bytes) (options : OptionBits) (index : FullPinyinIndex) (position : Nat) (steps : List Step)
    (stop : Nat) : List Step :=
  match parseOneIndexKey (slice input position (stop - position)) options index with
  | none => steps
  | some key =>
    let previous := stepAt steps position
    if previous.reached then
      relax steps stop ⟨true, position, previous.numKeys + 1, previous.parsedLen + (stop - position),
        some ⟨key.canonical, position, stop, key.tone⟩⟩
    else steps

/-- The ends tried at a position : up to the next apostrophe, and no further than the lookahead. -/
def triedEnds (input : Bytes) (position : Nat) : List Nat :=
  let tryEnd := min (position + maxLookahead) (runEnd (· != apostrophe) input position)
  List.range' (position + 1) (tryEnd - position)

/-- The program at one position. -/
def indexNode (input : Bytes) (options : OptionBits) (index : FullPinyinIndex) (steps : List Step) (position : Nat) :
    List Step :=
  if input[position]? = some apostrophe then
    let previous := stepAt steps position
    if previous.reached then
      relax steps (position + 1) ⟨true, position, previous.numKeys, previous.parsedLen + 1, none⟩
    else steps
  else (triedEnds input position).foldl (indexSpan input options index position) steps

/-- The longest covered prefix, at most `position`. -/
def coveredPrefix (steps : List Step) : Nat → Nat
  | 0 => 0
  | position + 1 =>
    if (stepAt steps (position + 1)).reached &&
      (stepAt steps (position + 1)).parsedLen == position + 1 then position + 1
    else coveredPrefix steps position

/-- The keys on the way to a position, last one first. A way comes from an earlier position, so the
position bounds the walk. -/
def traceKeys (steps : List Step) : Nat → Nat → List FullPinyinIndexKey
  | 0, _ => []
  | fuel + 1, cursor =>
    if cursor = 0 then []
    else (stepAt steps cursor).key.toList ++ traceKeys steps fuel (stepAt steps cursor).last

/-- Result of one index parse. -/
structure FullPinyinIndexParse where
  /-- The keys in input order. -/
  keys : List FullPinyinIndexKey
  /-- The bytes consumed. -/
  consumed : Nat
  deriving DecidableEq, Repr

/-- The steps before the first position. -/
def startSteps (input : Bytes) : List Step :=
  (List.replicate (input.length + 1) unreached).set 0 { unreached with reached := true }

/-- `parse_index`. -/
def parseIndex (input : Bytes) (options : OptionBits) (index : FullPinyinIndex) : FullPinyinIndexParse :=
  let steps := (List.range input.length).foldl (indexNode input options index) (startSteps input)
  let best := coveredPrefix steps input.length
  ⟨(traceKeys steps best best).reverse, best⟩

/-! ## What a parse says -/

section Parse

variable (input : Bytes) (options : OptionBits) (index : FullPinyinIndex)

/-- A key of the index in the input : its bytes hold no apostrophe and spell it. -/
structure KeyAt (key : FullPinyinIndexKey) : Prop where
  nonempty : key.start < key.stop
  inside : key.stop ≤ input.length
  ahead : key.stop ≤ key.start + maxLookahead
  segment : ∀ i, key.start ≤ i → i < key.stop → input[i]? ≠ some apostrophe
  spelled : ∃ found, parseOneIndexKey (slice input key.start (key.stop - key.start)) options index = some found ∧
    key.canonical = found.canonical ∧ key.tone = found.tone

/-- A key of the index, or an apostrophe, takes the parse on. -/
def Hop (p q : Nat) : Prop :=
  (input[p]? = some apostrophe ∧ q = p + 1) ∨ ∃ key, KeyAt input options index key ∧ key.start = p ∧ key.stop = q

/-- Keys that, with the apostrophes hopped over, cover the bytes between two positions. -/
inductive Tiles : Nat → List FullPinyinIndexKey → Nat → Prop
  | done (p : Nat) : Tiles p [] p
  | hop {p t : Nat} {keys : List FullPinyinIndexKey} : input[p]? = some apostrophe → Tiles (p + 1) keys t →
      Tiles p keys t
  | key {t : Nat} {key : FullPinyinIndexKey} {keys : List FullPinyinIndexKey} : KeyAt input options index key →
      Tiles key.stop keys t → Tiles key.start (key :: keys) t

/-- What a parse of the input is to be. -/
structure Parsed (parse : FullPinyinIndexParse) : Prop where
  reached : Reach (Hop input options index) parse.consumed
  furthest : ∀ n, Reach (Hop input options index) n → n ≤ parse.consumed
  tiles : Tiles input options index 0 parse.keys parse.consumed
  fewest : ∀ keys, Tiles input options index 0 keys parse.consumed → parse.keys.length ≤ keys.length
  ordered : parse.keys.Pairwise fun key next => key.stop ≤ next.start
  covered : ∀ i, i < parse.consumed →
    (input[i]? ≠ some apostrophe ↔ ∃ key ∈ parse.keys, key.start ≤ i ∧ i < key.stop)

end Parse

/-! ## The edges of the program -/

section Edges

variable {input : Bytes} {options : OptionBits} {index : FullPinyinIndex} {n p t : Nat}

/-- A hop of the program, with its key if it has one. -/
structure IndexEdge where
  /-- Where it begins. -/
  src : Nat
  /-- Where it ends. -/
  dst : Nat
  /-- The key it takes. -/
  key : Option FullPinyinIndexKey

/-- The keys of a hop. -/
def IndexEdge.cost (edge : IndexEdge) : Nat := if edge.key.isSome then 1 else 0

/-- The hops of an input. -/
def Allowed (input : Bytes) (options : OptionBits) (index : FullPinyinIndex) (edge : IndexEdge) : Prop :=
  match edge.key with
  | none => input[edge.src]? = some apostrophe ∧ edge.dst = edge.src + 1
  | some key => KeyAt input options index key ∧ key.start = edge.src ∧ key.stop = edge.dst

/-- Hops from one position to another. -/
abbrev Hops (input : Bytes) (options : OptionBits) (index : FullPinyinIndex) : Nat → Nat → List IndexEdge → Prop :=
  Route IndexEdge.src IndexEdge.dst (Allowed input options index)

theorem Allowed.forward (edge : IndexEdge) (h : Allowed input options index edge) : edge.src < edge.dst := by
  unfold Allowed at h
  split at h
  · omega
  · obtain ⟨hkey, hstart, hstop⟩ := h
    have := hkey.nonempty
    omega

theorem Allowed.inside (edge : IndexEdge) (h : Allowed input options index edge) : edge.dst ≤ input.length := by
  unfold Allowed at h
  split at h
  · obtain ⟨hlt, _⟩ := List.getElem?_eq_some_iff.mp h.1
    omega
  · obtain ⟨hkey, _, hstop⟩ := h
    have := hkey.inside
    omega

variable {es : List IndexEdge}

theorem Hops.le_length (h : Hops input options index p t es) (hp : p ≤ input.length) :
    t ≤ input.length := by
  induction h with
  | nil => exact hp
  | cons hallowed _ _ ih => exact ih (hallowed.inside _)

theorem hop_iff : Hop input options index p t ↔
    ∃ edge, Allowed input options index edge ∧ edge.src = p ∧ edge.dst = t := by
  constructor
  · rintro (⟨happ, rfl⟩ | ⟨key, hkey, hstart, hstop⟩)
    · exact ⟨⟨p, p + 1, none⟩, ⟨happ, rfl⟩, rfl, rfl⟩
    · exact ⟨⟨p, t, some key⟩, ⟨hkey, hstart, hstop⟩, rfl, rfl⟩
  · rintro ⟨⟨src, dst, key⟩, hallowed, rfl, rfl⟩
    cases key with
    | none => exact Or.inl hallowed
    | some key => exact Or.inr ⟨key, hallowed⟩

/-- Positions are reached by hops. -/
theorem reach_iff_hops : Reach (Hop input options index) n ↔ ∃ es, Hops input options index 0 n es := by
  constructor
  · intro h
    induction h with
    | zero => exact ⟨[], .nil 0⟩
    | step _ hhop ih =>
      obtain ⟨es, hes⟩ := ih
      obtain ⟨edge, hallowed, hsrc, rfl⟩ := hop_iff.mp hhop
      exact ⟨es ++ [edge], hes.concat hallowed hsrc⟩
  · rintro ⟨es, hes⟩
    have hwalk : ∀ {a t : Nat} {es : List IndexEdge}, Hops input options index a t es →
        Reach (Hop input options index) a → Reach (Hop input options index) t := by
      intro a t es h
      induction h with
      | nil => exact id
      | cons hallowed hsrc _ ih => exact fun ha => ih (.step ha (hop_iff.mpr ⟨_, hallowed, hsrc, rfl⟩))
    exact hwalk hes .zero

theorem total_cost (es : List IndexEdge) : total IndexEdge.cost es = (es.filterMap (·.key)).length := by
  induction es with
  | nil => rfl
  | cons edge es ih =>
    rw [total_cons, ih, IndexEdge.cost]
    cases hkey : edge.key with
    | none => rw [filterMap_cons_none hkey, if_neg (by simp), Nat.zero_add]
    | some key => rw [filterMap_cons_some hkey, length_cons, isSome_some, if_pos rfl, Nat.add_comm]

/-- The keys of hops tile what the hops cover. -/
theorem tiles_of_hops (h : Hops input options index p t es) :
    Tiles input options index p (es.filterMap (·.key)) t := by
  induction h with
  | nil n => exact .done n
  | @cons n t edge es hallowed hsrc _ ih =>
    obtain ⟨src, dst, key⟩ := edge
    subst hsrc
    cases key with
    | none =>
      obtain ⟨happ, hdst⟩ := hallowed
      dsimp only at happ hdst ih
      subst hdst
      exact .hop happ ih
    | some key =>
      obtain ⟨hkey, hstart, hstop⟩ := hallowed
      dsimp only at hstart hstop ih
      subst hstart hstop
      exact .key hkey ih

variable {keys : List FullPinyinIndexKey}

section

variable (h : Tiles input options index p keys t)
include h

theorem exists_hops_of_tiles : ∃ es, Hops input options index p t es ∧ es.filterMap (·.key) = keys := by
  induction h with
  | done p => exact ⟨[], .nil p, rfl⟩
  | @hop p t keys happ _ ih =>
    obtain ⟨es, hes, hkeys⟩ := ih
    exact ⟨⟨p, p + 1, none⟩ :: es, .cons ⟨happ, rfl⟩ rfl hes, hkeys⟩
  | @key t key keys hkey _ ih =>
    obtain ⟨es, hes, hkeys⟩ := ih
    exact ⟨⟨key.start, key.stop, some key⟩ :: es, .cons ⟨hkey, rfl, rfl⟩ rfl hes, congrArg (List.cons key) hkeys⟩

/-- What tiles cover. -/
theorem Tiles.spans :
    (∀ key ∈ keys, p ≤ key.start) ∧ (keys.Pairwise fun key next => key.stop ≤ next.start) ∧
      ∀ i, p ≤ i → i < t → (input[i]? ≠ some apostrophe ↔ ∃ key ∈ keys, key.start ≤ i ∧ i < key.stop) := by
  induction h with
  | done p => exact ⟨by simp, .nil, fun i hlow hhigh => by omega⟩
  | @hop p t keys happ _ ih =>
    obtain ⟨hbehind, hordered, hcovered⟩ := ih
    refine ⟨fun key hkey => Nat.le_of_succ_le (hbehind key hkey), hordered, fun i hlow hhigh => ?_⟩
    rcases Nat.eq_or_lt_of_le hlow with rfl | hlt
    · -- the apostrophe is before all keys
      refine ⟨fun hne => absurd happ hne, ?_⟩
      rintro ⟨key, hkey, hstart, _⟩
      have := hbehind key hkey
      omega
    · exact hcovered i hlt hhigh
  | @key t key keys hkey _ ih =>
    obtain ⟨hbehind, hordered, hcovered⟩ := ih
    have hlt := hkey.nonempty
    refine ⟨?_, pairwise_cons.mpr ⟨hbehind, hordered⟩, fun i hlow hhigh => ?_⟩
    · intro other hother
      rcases mem_cons.mp hother with rfl | hother
      · exact Nat.le_refl _
      · have := hbehind other hother
        omega
    · rcases Nat.lt_or_ge i key.stop with hin | hout
      · exact ⟨fun _ => ⟨key, mem_cons_self, hlow, hin⟩, fun _ => hkey.segment i hlow hin⟩
      · rw [hcovered i hout hhigh]
        constructor
        · rintro ⟨other, hother, hspan⟩
          exact ⟨other, mem_cons_of_mem _ hother, hspan⟩
        · rintro ⟨other, hother, hstart, hstop⟩
          rcases mem_cons.mp hother with rfl | hother
          · omega
          · exact ⟨other, hother, hstart, hstop⟩

/-- The keys of tiles end before the tiles do. -/
theorem Tiles.ends : p ≤ t ∧ ∀ key ∈ keys, KeyAt input options index key ∧ key.stop ≤ t := by
  induction h with
  | done p => exact ⟨Nat.le_refl p, forall_mem_nil _⟩
  | hop _ _ ih => exact ⟨Nat.le_of_succ_le ih.1, ih.2⟩
  | key hkey _ ih => exact ⟨Nat.le_trans (Nat.le_of_lt hkey.nonempty) ih.1, forall_mem_cons.mpr ⟨⟨hkey, ih.1⟩, ih.2⟩⟩

/-- A key of tiles ends before the next one does. -/
theorem Tiles.ascending : keys.Pairwise fun key later => key.stop < later.stop := by
  obtain ⟨_, hordered, _⟩ := h.spans
  refine hordered.imp_of_mem fun {key later} _ hlater hle => ?_
  exact Nat.lt_of_le_of_lt hle (h.ends.2 later hlater).1.nonempty

end

variable {key : FullPinyinIndexKey}

/-- The canonical spelling of a key is that of the text before its tone. -/
theorem canonical_of_parseOneIndexKey {text : Bytes}
    (h : parseOneIndexKey text options index = some key) :
    index.canonical (text.take (splitTone text (options.contains useTone)).1) = some key.canonical := by
  unfold parseOneIndexKey at h
  dsimp only at h
  split_ifs at h
  all_goals
    obtain ⟨canonical, hcanonical, rfl⟩ := map_eq_some_iff.mp h
    exact hcanonical

/-- The canonical spelling of a key is one of a row. -/
theorem KeyAt.row (h : KeyAt input options index key) :
    ∃ row ∈ index.table.rows, key.canonical = index.table.resolve row.2 := by
  obtain ⟨found, hfound, hcanonical, _⟩ := h.spelled
  obtain ⟨position, _, hrow⟩ := bind_eq_some_iff.mp (canonical_of_parseOneIndexKey hfound)
  obtain ⟨row, hget, hresolve⟩ := map_eq_some_iff.mp hrow
  exact ⟨row, mem_of_getElem? hget, hcanonical.trans hresolve.symm⟩

end Edges

/-! ## The steps -/

section Steps

variable {input : Bytes} {options : OptionBits} {index : FullPinyinIndex} {steps : List Step} {k n r : Nat}

/-- The entries of the steps by position. The start has none. -/
def entries (steps : List Step) (n : Nat) : Option (Nat × IndexEdge) :=
  if n ≠ 0 ∧ (stepAt steps n).reached = true then
    some ((stepAt steps n).numKeys, ⟨(stepAt steps n).last, n, (stepAt steps n).key⟩)
  else none

/-- The steps of a run of the program : each reached one covers all bytes before it. -/
structure Held (input : Bytes) (steps : List Step) : Prop where
  length : steps.length = input.length + 1
  root : stepAt steps 0 = { unreached with reached := true }
  covers : ∀ n, (stepAt steps n).reached = true → (stepAt steps n).parsedLen = n

theorem stepAt_set (value : Step) (hn : n < steps.length) (m : Nat) :
    stepAt (steps.set n value) m = if n = m then value else stepAt steps m := by
  unfold stepAt
  rw [getD_eq_getElem?_getD, getD_eq_getElem?_getD]
  split_ifs with heq
  · subst heq
    rw [getElem?_set_self hn]
    rfl
  · rw [getElem?_set_ne heq]

theorem Held.rank_eq (h : Held input steps) (n : Nat) :
    rank (entries steps) n = if (stepAt steps n).reached then some (stepAt steps n).numKeys else none := by
  unfold rank entries
  by_cases hzero : n = 0
  · subst hzero
    rw [if_pos rfl, h.root]
    rfl
  · rw [if_neg hzero]
    by_cases hreached : (stepAt steps n).reached = true
    · rw [if_pos ⟨hzero, hreached⟩, if_pos hreached]
      rfl
    · rw [if_neg fun hboth => hreached hboth.2, if_neg hreached]
      rfl

theorem Held.start : Held input (startSteps input) := by
  have hget : ∀ n, stepAt (startSteps input) n = if 0 = n then { unreached with reached := true } else unreached := by
    intro n
    rw [startSteps, stepAt_set _ (by simp)]
    split_ifs
    · rfl
    · rw [stepAt, getD_eq_getElem?_getD, getElem?_replicate]
      split_ifs
      · rfl
      · rfl
  refine ⟨by simp [startSteps], ?_, fun n hn => ?_⟩
  · rw [hget, if_pos rfl]
  · rw [hget] at hn ⊢
    split_ifs at hn ⊢ with hzero
    · exact hzero
    · cases hn

theorem entries_start : entries (startSteps input) = fun _ => none := by
  funext n
  unfold entries
  rw [if_neg]
  rintro ⟨hzero, hreached⟩
  rw [startSteps, stepAt_set _ (by simp), if_neg (Ne.symm hzero), stepAt, getD_eq_getElem?_getD,
    getElem?_replicate] at hreached
  split_ifs at hreached
  · cases hreached
  · cases hreached

/-- The way to a position that a hop ends. -/
def hopStep (r : Nat) (edge : IndexEdge) : Step := ⟨true, edge.src, r + edge.cost, edge.dst, edge.key⟩

theorem entries_eq_some_iff {edge : IndexEdge} {old : Nat × IndexEdge} (hpos : edge.dst ≠ 0) :
    entries steps edge.dst = some old ↔ (stepAt steps edge.dst).reached = true ∧
      old = ((stepAt steps edge.dst).numKeys, ⟨(stepAt steps edge.dst).last, edge.dst,
        (stepAt steps edge.dst).key⟩) := by
  unfold entries
  split_ifs with hboth
  · rw [Option.some.injEq, eq_comm]
    exact (and_iff_right hboth.2).symm
  · exact ⟨fun hnone => (by cases hnone), fun hnew => absurd ⟨hpos, hnew.1⟩ hboth⟩

/-- The bytes covered are the same on both sides, so that the keys decide. -/
theorem Held.relax_eq (h : Held input steps) {edge : IndexEdge} (hpos : edge.dst ≠ 0) :
    ((∀ old, entries steps edge.dst = some old → r + edge.cost < old.1) →
      relax steps edge.dst (hopStep r edge) = steps.set edge.dst (hopStep r edge)) ∧
    (¬ (∀ old, entries steps edge.dst = some old → r + edge.cost < old.1) →
      relax steps edge.dst (hopStep r edge) = steps) := by
  have htaken : (!(stepAt steps edge.dst).reached || decide ((stepAt steps edge.dst).parsedLen < edge.dst) ||
      (edge.dst == (stepAt steps edge.dst).parsedLen && decide
        (r + edge.cost < (stepAt steps edge.dst).numKeys))) = true ↔
      ∀ old, entries steps edge.dst = some old → r + edge.cost < old.1 := by
    by_cases hreached : (stepAt steps edge.dst).reached = true
    · rw [hreached, h.covers edge.dst hreached]
      simp [entries_eq_some_iff hpos, hreached]
    · simp [entries_eq_some_iff hpos, hreached]
  unfold relax
  exact ⟨fun hbetter => if_pos (htaken.mpr hbetter), fun hworse => if_neg fun hpos => hworse (htaken.mp hpos)⟩

/-- Taking a way to a position is the offer of its last hop. -/
theorem Held.relax (h : Held input steps) {edge : IndexEdge} (hlt : edge.src < edge.dst)
    (hin : edge.dst ≤ input.length) (r : Nat) :
    Held input (relax steps edge.dst (hopStep r edge)) ∧
      Offer IndexEdge.dst IndexEdge.cost input.length r edge (entries steps)
        (entries (relax steps edge.dst (hopStep r edge))) ∧
      stepAt (FullPinyinIndex.relax steps edge.dst (hopStep r edge)) edge.src = stepAt steps edge.src := by
  have hpos : edge.dst ≠ 0 := by omega
  have hset := @stepAt_set steps edge.dst (hopStep r edge) (by rw [h.length]; omega)
  obtain ⟨htake, hkeep⟩ := @Held.relax_eq input steps r h edge hpos
  by_cases hbetter : ∀ old, entries steps edge.dst = some old → r + edge.cost < old.1
  · rw [htake hbetter]
    refine ⟨⟨by rw [length_set, h.length], ?_, fun n hn => ?_⟩,
      ⟨fun _ _ => ?_, fun old hold hle => ?_, fun hout => ?_,
      fun n hn => ?_⟩, ?_⟩
    · rw [hset, if_neg hpos, h.root]
    · rw [hset] at hn ⊢
      by_cases hat : edge.dst = n
      · rw [if_pos hat]
        exact hat
      · rw [if_neg hat] at hn ⊢
        exact h.covers n hn
    · unfold entries
      rw [hset, if_pos rfl, if_pos ⟨hpos, rfl⟩]
      rfl
    · have := hbetter old hold
      omega
    · exact absurd hout (Nat.not_lt.mpr hin)
    · have hother : stepAt (steps.set edge.dst (hopStep r edge)) n = stepAt steps n := by
        rw [hset, if_neg (Ne.symm hn)]
      unfold entries
      rw [hother]
    · rw [hset, if_neg (by omega)]
  · rw [hkeep hbetter]
    exact ⟨h, ⟨fun _ hall => absurd hall hbetter, fun _ _ _ => rfl, fun _ => rfl, fun _ _ => rfl⟩, rfl⟩

/-- The hop that a key between two positions is. -/
def spanHop (input : Bytes) (options : OptionBits) (index : FullPinyinIndex) (position stop : Nat) :
    Option IndexEdge :=
  (parseOneIndexKey (slice input position (stop - position)) options index).map fun key =>
    ⟨position, stop, some ⟨key.canonical, position, stop, key.tone⟩⟩

/-- The keys of a position are the offers of their hops. -/
theorem spans_offers : ∀ (ends : List Nat) {steps : List Step}, Held input steps → (stepAt steps k).reached = true →
    (stepAt steps k).numKeys = r → (∀ stop ∈ ends, k < stop ∧ stop ≤ input.length) →
    Held input (ends.foldl (indexSpan input options index k) steps) ∧
      Offers IndexEdge.dst IndexEdge.cost input.length r (ends.filterMap (spanHop input options index k))
        (entries steps) (entries (ends.foldl (indexSpan input options index k) steps))
  | [], steps, h, _, _, _ => ⟨h, .nil⟩
  | stop :: ends, steps, h, hreached, hkeys, hends => by
    obtain ⟨hlt, hle⟩ := hends stop mem_cons_self
    have hrest := fun other hother => hends other (mem_cons_of_mem stop hother)
    rw [foldl_cons]
    cases hparse : parseOneIndexKey (slice input k (stop - k)) options index with
    | none =>
      have hspan : spanHop input options index k stop = none := by rw [spanHop, hparse]; rfl
      have hstep : indexSpan input options index k steps stop = steps := by rw [indexSpan, hparse]
      rw [hstep, filterMap_cons_none hspan]
      exact spans_offers ends h hreached hkeys hrest
    | some key =>
      have hspan : spanHop input options index k stop =
          some ⟨k, stop, some ⟨key.canonical, k, stop, key.tone⟩⟩ := by rw [spanHop, hparse]; rfl
      have hstep : indexSpan input options index k steps stop =
          relax steps stop (hopStep r ⟨k, stop, some ⟨key.canonical, k, stop, key.tone⟩⟩) := by
        rw [indexSpan, hparse]
        dsimp only
        rw [if_pos hreached, h.covers k hreached, hkeys, Nat.add_sub_cancel' (Nat.le_of_lt hlt)]
        rfl
      obtain ⟨hheld, hoffer, hsame⟩ :=
        @Held.relax input steps h ⟨k, stop, some ⟨key.canonical, k, stop, key.tone⟩⟩ hlt hle r
      obtain ⟨hdone, hoffers⟩ := spans_offers ends hheld (by rw [hsame]; exact hreached)
        (by rw [hsame]; exact hkeys) hrest
      rw [hstep, filterMap_cons_some hspan]
      exact ⟨hdone, hoffers.cons hoffer⟩

theorem not_apostrophe_of_lt_runEnd {i : Nat} (hk : k ≤ i) (hi : i < runEnd (· != apostrophe) input k) :
    ∃ byte, input[i]? = some byte ∧ byte ≠ apostrophe := by
  have hbyte := byteIs_of_lt_runEnd hk hi
  rw [byteIs] at hbyte
  cases hget : input[i]? with
  | none =>
    rw [hget] at hbyte
    cases hbyte
  | some byte =>
    rw [hget, any_some, bne_iff_ne] at hbyte
    exact ⟨byte, rfl, hbyte⟩

/-- The ends tried at a position are those of the texts without an apostrophe that the lookahead holds. -/
theorem mem_triedEnds {stop : Nat} : stop ∈ triedEnds input k ↔ k < stop ∧ stop ≤ input.length ∧
    stop ≤ k + maxLookahead ∧ ∀ i, k ≤ i → i < stop → input[i]? ≠ some apostrophe := by
  have hmem : stop ∈ triedEnds input k ↔ k < stop ∧ stop ≤ k + maxLookahead ∧
    stop ≤ runEnd (· != apostrophe) input k := by
    unfold triedEnds
    rw [mem_range'_1]
    omega
  rw [hmem]
  constructor
  · rintro ⟨hlt, hahead, hle⟩
    obtain ⟨_, hget, _⟩ := @not_apostrophe_of_lt_runEnd input k (stop - 1) (by omega) (by omega)
    obtain ⟨hin, _⟩ := List.getElem?_eq_some_iff.mp hget
    refine ⟨hlt, by omega, hahead, fun i hlow hhigh happ => ?_⟩
    obtain ⟨byte, hbyte, hne⟩ := @not_apostrophe_of_lt_runEnd input k i hlow (by omega)
    exact hne (some.inj (hbyte.symm.trans happ))
  · rintro ⟨hlt, hin, hahead, hsegment⟩
    refine ⟨hlt, hahead, ?_⟩
    by_contra hgt
    -- the byte that ends the run would be inside the text, and is an apostrophe
    have hend := @byteIs_runEnd (· != apostrophe) input k
    have hget := getElem?_eq_getElem (show runEnd (· != apostrophe) input k < input.length by omega)
    rw [byteIs, hget, any_some, bne_eq_false_iff_eq] at hend
    rw [hend] at hget
    exact hsegment _ le_runEnd (by omega) hget

theorem allowed_apostrophe (hk : input[k]? = some apostrophe) (edge : IndexEdge) :
    edge ∈ [(⟨k, k + 1, none⟩ : IndexEdge)] ↔ Allowed input options index edge ∧ edge.src = k := by
  rw [mem_singleton]
  constructor
  · rintro rfl
    exact ⟨⟨hk, rfl⟩, rfl⟩
  · rintro ⟨hallowed, rfl⟩
    obtain ⟨src, dst, key⟩ := edge
    cases key with
    | none =>
      obtain ⟨_, hdst⟩ := hallowed
      dsimp only at hdst
      rw [hdst]
    | some key =>
      obtain ⟨hkey, hstart, _⟩ := hallowed
      exact absurd (hstart ▸ hk) (hkey.segment key.start (Nat.le_refl _) hkey.nonempty)

theorem allowed_span (hk : input[k]? ≠ some apostrophe) (edge : IndexEdge) :
    edge ∈ (triedEnds input k).filterMap (spanHop input options index k) ↔
      Allowed input options index edge ∧ edge.src = k := by
  rw [mem_filterMap]
  constructor
  · rintro ⟨stop, htried, hspan⟩
    obtain ⟨hlt, hin, hahead, hsegment⟩ := mem_triedEnds.mp htried
    obtain ⟨found, hfound, rfl⟩ := map_eq_some_iff.mp hspan
    exact ⟨⟨⟨hlt, hin, hahead, hsegment, found, hfound, rfl, rfl⟩, rfl, rfl⟩, rfl⟩
  · rintro ⟨hallowed, rfl⟩
    obtain ⟨src, dst, key⟩ := edge
    cases key with
    | none => exact absurd hallowed.1 hk
    | some key =>
      obtain ⟨⟨hlt, hin, hahead, hsegment, found, hfound, hcanonical, htone⟩, hstart, hstop⟩ := hallowed
      obtain ⟨canonical, start, stop, tone⟩ := key
      dsimp only at hstart hstop hlt hin hahead hsegment hfound hcanonical htone
      subst hstart hstop hcanonical htone
      exact ⟨stop, mem_triedEnds.mpr ⟨hlt, hin, hahead, hsegment⟩, by rw [spanHop, hfound]; rfl⟩

/-- The program at a position is a visit. -/
theorem Held.indexNode (h : Held input steps) (hk : k < input.length) :
    Held input (indexNode input options index steps k) ∧
      Visit IndexEdge.src IndexEdge.dst IndexEdge.cost (Allowed input options index) input.length k (entries steps)
        (entries (indexNode input options index steps k)) := by
  have hrank := h.rank_eq k
  unfold FullPinyinIndex.indexNode
  by_cases happ : input[k]? = some apostrophe
  · rw [if_pos happ]
    dsimp only
    by_cases hreached : (stepAt steps k).reached = true
    · rw [if_pos hreached] at hrank ⊢
      obtain ⟨hheld, hoffer, _⟩ := @Held.relax input steps h ⟨k, k + 1, none⟩ (Nat.lt_succ_self k) hk
        (stepAt steps k).numKeys
      rw [h.covers k hreached]
      exact ⟨hheld, (Offers.nil.cons hoffer).visit hrank (allowed_apostrophe happ)⟩
    · rw [if_neg hreached] at hrank ⊢
      exact ⟨h, .unreached hrank⟩
  · rw [if_neg happ]
    by_cases hreached : (stepAt steps k).reached = true
    · rw [if_pos hreached] at hrank
      obtain ⟨hheld, hoffers⟩ := @spans_offers input options index k _ (triedEnds input k) steps h hreached rfl
        fun stop hstop => by
          obtain ⟨hlt, hin, _⟩ := mem_triedEnds.mp hstop
          exact ⟨hlt, hin⟩
      exact ⟨hheld, hoffers.visit hrank (allowed_span happ)⟩
    · rw [if_neg hreached] at hrank
      have hsame : (triedEnds input k).foldl (indexSpan input options index k) steps = steps := by
        refine foldl_fixed' (fun stop => ?_) _
        rw [indexSpan]
        split
        · rfl
        · exact if_neg hreached
      rw [hsame]
      exact ⟨h, .unreached hrank⟩

/-- The steps before position `k`. -/
def stepsBefore (input : Bytes) (options : OptionBits) (index : FullPinyinIndex) (k : Nat) : List Step :=
  (List.range k).foldl (indexNode input options index) (startSteps input)

theorem stepsBefore_spec : ∀ k, k ≤ input.length → Held input (stepsBefore input options index k) ∧
    Lightest.Table IndexEdge.src IndexEdge.dst IndexEdge.cost (Allowed input options index) input.length k
      (entries (stepsBefore input options index k))
  | 0, _ => by
    refine ⟨.start, ?_⟩
    rw [stepsBefore, range_zero, foldl_nil, entries_start]
    exact .start
  | k + 1, hk => by
    obtain ⟨hheld, htable⟩ := stepsBefore_spec k (by omega)
    obtain ⟨hnext, hvisit⟩ := @Held.indexNode input options index _ k hheld (Nat.lt_of_succ_le hk)
    rw [stepsBefore, range_succ, foldl_append, foldl_cons, foldl_nil, ← stepsBefore]
    exact ⟨hnext, htable.step Allowed.forward hvisit⟩

theorem Held.coveredPrefix_spec (h : Held input steps) : ∀ position,
    coveredPrefix steps position ≤ position ∧ (stepAt steps (coveredPrefix steps position)).reached = true ∧
      ∀ n, n ≤ position → (stepAt steps n).reached = true → n ≤ coveredPrefix steps position
  | 0 => by
    refine ⟨Nat.le_refl 0, ?_, fun n hn _ => hn⟩
    rw [coveredPrefix, h.root]
  | position + 1 => by
    obtain ⟨hle, hreached, hmost⟩ := h.coveredPrefix_spec position
    rw [coveredPrefix]
    by_cases hnext : (stepAt steps (position + 1)).reached = true
    · rw [if_pos (by rw [hnext, h.covers _ hnext]; simp)]
      exact ⟨Nat.le_refl _, hnext, fun n hn _ => hn⟩
    · rw [if_neg (by simp [hnext])]
      refine ⟨Nat.le_succ_of_le hle, hreached, fun n hn hat => ?_⟩
      rcases Nat.lt_or_eq_of_le hn with hlt | rfl
      · exact hmost n (Nat.le_of_lt_succ hlt) hat
      · exact absurd hat hnext

/-- The keys read back are those of the recorded hops. -/
theorem traceKeys_eq (htable : Lightest.Table IndexEdge.src IndexEdge.dst IndexEdge.cost (Allowed input options index)
    input.length k (entries steps)) : ∀ {fuel n r : Nat}, n ≤ fuel → rank (entries steps) n = some r →
      traceKeys steps fuel n = ((trace IndexEdge.src (entries steps) fuel n).filterMap (·.key)).reverse
  | 0, _, _, _, _ => rfl
  | fuel + 1, n, r, hn, hrank => by
    unfold traceKeys trace
    by_cases hzero : n = 0
    · rw [if_pos hzero, if_pos hzero]
      rfl
    rw [rank, if_neg hzero] at hrank
    obtain ⟨⟨w, edge⟩, hentry, _⟩ := map_eq_some_iff.mp hrank
    obtain ⟨hallowed, _, hdst, r', hr', _⟩ := htable.entry n w edge hentry
    have hlt := Allowed.forward edge hallowed
    have hrest := traceKeys_eq htable (show edge.src ≤ fuel by omega) hr'
    have hedge : edge = ⟨(stepAt steps n).last, n, (stepAt steps n).key⟩ := by
      unfold entries at hentry
      split_ifs at hentry
      exact ((Prod.mk.inj (some.inj hentry)).2).symm
    rw [if_neg hzero, if_neg hzero, hentry]
    dsimp only
    rw [filterMap_append, reverse_append, ← hrest, hedge]
    dsimp only
    cases (stepAt steps n).key with
    | none => rfl
    | some key => rfl

end Steps

/-! ## The parse -/

/-- No spelling of the table is longer than the longest in either index. -/
def Short (index : FullPinyinIndex) : Prop :=
  ∀ row ∈ index.table.rows, (index.table.resolve row.1).length ≤ maxIndexSpellingLen

/-- The tone digit is one byte. -/
theorem length_le_splitTone (text : Bytes) (hasTone : Bool) : text.length ≤ (splitTone text hasTone).1 + 1 := by
  unfold splitTone
  split
  · split_ifs
    · dsimp only
      omega
    · exact Nat.le_succ _
  · exact Nat.le_succ _

/-- The lookahead holds every text that spells a key. -/
theorem Short.length_le {index : FullPinyinIndex} (h : index.Short) {text : Bytes} {options : OptionBits}
    (hkey : (parseOneIndexKey text options index).isSome = true) : text.length ≤ maxLookahead := by
  obtain ⟨key, hkey⟩ := isSome_iff_exists.mp hkey
  have hspelling : ∀ spelling canonical, index.canonical spelling = some canonical →
      spelling.length ≤ maxIndexSpellingLen := by
    intro spelling canonical hcanonical
    obtain ⟨position, hposition, _⟩ := bind_eq_some_iff.mp hcanonical
    obtain ⟨row, hrow, hfound⟩ := bind_eq_some_iff.mp hposition
    split_ifs at hfound with hresolve
    rw [← hresolve]
    exact h row (mem_of_getElem? hrow)
  have hsplit := length_le_splitTone text (options.contains useTone)
  have hlength := hspelling _ _ (canonical_of_parseOneIndexKey hkey)
  rw [length_take] at hlength
  unfold maxIndexSpellingLen at hlength
  unfold maxLookahead
  omega

/-- The program finds what a parse is to be. -/
theorem parsed_parseIndex (input : Bytes) (options : OptionBits) (index : FullPinyinIndex) :
    Parsed input options index (parseIndex input options index) := by
  obtain ⟨hheld, htable⟩ := @stepsBefore_spec input options index input.length (Nat.le_refl _)
  obtain ⟨hin, hreached, hmost⟩ := hheld.coveredPrefix_spec input.length
  set steps := stepsBefore input options index input.length
  set best := coveredPrefix steps input.length
  have hrank := hheld.rank_eq best
  rw [if_pos hreached] at hrank
  obtain ⟨hroute, htotal⟩ := htable.trace_spec Allowed.forward (Nat.le_refl best) hrank
  have hparse : parseIndex input options index =
      ⟨(trace IndexEdge.src (entries steps) best best).filterMap (·.key), best⟩ := by
    rw [← reverse_reverse (List.filterMap _ _), ← traceKeys_eq htable (Nat.le_refl best) hrank]
    rfl
  have hreach : ∀ n es, Hops input options index 0 n es →
      (stepAt steps n).reached = true ∧ (stepAt steps n).numKeys ≤ (es.filterMap (·.key)).length := by
    intro n es hes
    obtain ⟨r, hr, hle⟩ := htable.le_total Allowed.forward hes (hes.le_length (Nat.zero_le _))
    rw [hheld.rank_eq] at hr
    split_ifs at hr with hat
    obtain rfl := some.inj hr
    rw [total_cost] at hle
    exact ⟨hat, hle⟩
  rw [hparse]
  rw [total_cost] at htotal
  have htiles := tiles_of_hops hroute
  obtain ⟨_, hordered, hcovered⟩ := htiles.spans
  refine ⟨reach_iff_hops.mpr ⟨_, hroute⟩, fun n hn => ?_, htiles, fun keys hkeys => ?_, hordered,
    fun i hi => hcovered i (Nat.zero_le i) hi⟩
  · obtain ⟨es, hes⟩ := reach_iff_hops.mp hn
    exact hmost n (hes.le_length (Nat.zero_le _)) (hreach n es hes).1
  · obtain ⟨es, hes, rfl⟩ := exists_hops_of_tiles hkeys
    dsimp only
    rw [htotal]
    exact (hreach best es hes).2

/-- A parse goes as far as keys and apostrophes reach, with the fewest keys, whose spans and the
apostrophes between them cover what is consumed. A table of short spellings has no key that the
lookahead leaves out. -/
theorem parseIndex_spec (input : Bytes) (options : OptionBits) (index : FullPinyinIndex) :
    Parsed input options index (parseIndex input options index) ∧
      (index.Short → ∀ text, (parseOneIndexKey text options index).isSome = true → text.length ≤ maxLookahead) :=
  ⟨parsed_parseIndex input options index, fun hshort _ hkey => hshort.length_le hkey⟩

/-- An index of one spelling. -/
def aIndex : FullPinyinIndex := ⟨⟨ascii "a", [(⟨0, 1⟩, ⟨0, 1⟩)]⟩⟩

/-- Two keys, an apostrophe between them. -/
theorem parse_aIndex : parseIndex (ascii "a'a") ⟨0⟩ aIndex = ⟨[⟨ascii "a", 0, 1, 0⟩, ⟨ascii "a", 2, 3, 0⟩], 3⟩ := by
  with_unfolding_all rfl

theorem parseIndex_spec_aa :
    Parsed (ascii "a'a") ⟨0⟩ aIndex ⟨[⟨ascii "a", 0, 1, 0⟩, ⟨ascii "a", 2, 3, 0⟩], 3⟩ ∧
      ∀ text, (parseOneIndexKey text ⟨0⟩ aIndex).isSome = true → text.length ≤ maxLookahead := by
  obtain ⟨hparsed, hshort⟩ := parseIndex_spec (ascii "a'a") ⟨0⟩ aIndex
  exact ⟨parse_aIndex ▸ hparsed, hshort (by unfold Short; decide)⟩

end FullPinyinIndex

end Oxpinyin
