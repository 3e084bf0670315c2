import Mathlib.Algebra.Group.Nat.Defs
import Oxpinyin.ChunkFile
import Oxpinyin.Lib.Search
import Oxpinyin.Lib.SortedMap

/-!
# A table of records

The user pinyin index and the user phrase table keep their records alike : those loaded in
one arena, behind sorted offsets, and those a session wrote in an overlay by key. Reads merge
the two. `answers` : on a table whose offsets are sorted by distinct keys, every read is that
of one finite map, the overlay's value of a key before the arena's.
-/

namespace Oxpinyin

open List Option LittleEndian Search FiniteMap ChunkFile Run Prod List.Sublist

/-- Records in an arena, each under its offset, and records over them. -/
structure RecordTable where
  arena : Bytes
  offsets : List (BitVec 32)
  overlay : SortedMap Bytes Bytes

/-- The length words of a record. -/
def recordHeader : Nat := 8

/-- The key of the record at an offset. -/
def keyAt (arena : Bytes) (offset : BitVec 32) : Bytes :=
  let at_ := offset.toNat
  let len := ((word32At arena at_).getD 0).toNat
  (range? arena (at_ + recordHeader) (at_ + recordHeader + len)).getD []

/-- The value of the record at an offset. -/
def valueAt (arena : Bytes) (offset : BitVec 32) : Bytes :=
  let at_ := offset.toNat
  let keyLen := ((word32At arena at_).getD 0).toNat
  let valueLen := ((word32At arena (at_ + 4)).getD 0).toNat
  (range? arena (at_ + recordHeader + keyLen) (at_ + recordHeader + keyLen + valueLen)).getD []

/-- One record : its lengths, its key and its value. -/
def recordBytes (key value : Bytes) : Bytes :=
  le32 (u32OrMax key.length) ++ le32 (u32OrMax value.length) ++ key ++ value

/-- Appends one record and its offset. -/
def appendRecord (rows : Bytes × List (BitVec 32)) (key value : Bytes) : Bytes × List (BitVec 32) :=
  (rows.1 ++ recordBytes key value, rows.2 ++ [u32OrMax rows.1.length])

namespace RecordTable

/-- The table with no record. -/
def empty : RecordTable := ⟨[], [], .empty⟩

/-- Appends one loaded record. -/
def pushRecord (table : RecordTable) (key value : Bytes) : RecordTable :=
  let rows := appendRecord (table.arena, table.offsets) key value
  { table with arena := rows.1, offsets := rows.2 }

/-- Sorts the offsets by key. -/
def finishLoad (table : RecordTable) : RecordTable :=
  { table with
    offsets := table.offsets.mergeSort fun a b =>
      !decide (keyAt table.arena b < keyAt table.arena a) }

/-- The table of the rows of a file. -/
def fromEntries (entries : List (Bytes × Bytes)) : RecordTable :=
  (entries.foldl (fun table entry => table.pushRecord entry.1 entry.2) empty).finishLoad

/-- Where a key is searched among the offsets. -/
def searchArena (table : RecordTable) (key : Bytes) : Except Nat Nat :=
  binarySearchBy (fun offset => compareOfLessAndEq (keyAt table.arena offset) key) table.offsets

/-- The value the arena has under a key. -/
def arenaRecord (table : RecordTable) (key : Bytes) : Option Bytes :=
  match table.searchArena key with
  | .ok at_ => (table.offsets[at_]?).map (valueAt table.arena)
  | .error _ => none

/-- The value stored under a key. -/
def record (table : RecordTable) (key : Bytes) : Option Bytes :=
  match table.overlay.get? key with
  | some value => some value
  | none => table.arenaRecord key

def containsKey (table : RecordTable) (key : Bytes) : Bool :=
  (table.overlay.get? key).isSome || (table.arenaRecord key).isSome

def containsArenaKey (table : RecordTable) (key : Bytes) : Bool :=
  match table.searchArena key with
  | .ok _ => true
  | .error _ => false

/-- Writes a record over the table. -/
def put (table : RecordTable) (key value : Bytes) : RecordTable :=
  { table with overlay := table.overlay.insert key value }

section Visit

variable {σ ε : Type} (visit : σ → Bytes → Bytes → Except ε σ)

/-- Visits the records of the overlay below a key. Those left come back. -/
def visitBelow (key : Bytes) : List (Bytes × Bytes) → σ → Except ε (σ × List (Bytes × Bytes))
  | [], state => .ok (state, [])
  | entry :: rest, state =>
    if entry.1 < key then (visit state entry.1 entry.2).bind fun state => visitBelow key rest state
    else .ok (state, entry :: rest)

/-- Visits the records from an offset on, merged with those of the overlay. -/
def visitMerged (arena : Bytes) : List (BitVec 32) → List (Bytes × Bytes) → σ → Except ε σ
  | [], overlay, state => overlay.foldlM (fun state entry => visit state entry.1 entry.2) state
  | offset :: offsets, overlay, state =>
    let key := keyAt arena offset
    (visitBelow visit key overlay state).bind fun reached =>
      match reached.2 with
      | entry :: rest =>
        if entry.1 = key then
          (visit reached.1 entry.1 entry.2).bind fun state => visitMerged arena offsets rest state
        else
          (visit reached.1 key (valueAt arena offset)).bind fun state =>
            visitMerged arena offsets (entry :: rest) state
      | [] =>
        (visit reached.1 key (valueAt arena offset)).bind fun state => visitMerged arena offsets [] state

/-- Visits every record in key order. -/
def forEachRecord (table : RecordTable) (state : σ) : Except ε σ :=
  visitMerged visit table.arena table.offsets table.overlay.entries state

end Visit

/-- Every key, in order. -/
def keys (table : RecordTable) : List Bytes :=
  (table.offsets.map (keyAt table.arena) ++
    (table.overlay.entries.map Prod.fst).filter fun key => !table.containsArenaKey key).mergeSort
      fun a b => !decide (b < a)

/-- The keys that extend one. -/
def keysStartingWith (table : RecordTable) (lead : Bytes) : List Bytes :=
  let start := partitionPoint (fun offset => decide (keyAt table.arena offset < lead)) table.offsets
  let loaded := ((table.offsets.drop start).map (keyAt table.arena)).takeWhile fun key => lead.isPrefixOf key
  let written := ((table.overlay.entries.map Prod.fst).dropWhile fun key => decide (key < lead)).takeWhile
    fun key => lead.isPrefixOf key
  (loaded ++ written.filter fun key => !table.containsArenaKey key).mergeSort fun a b => !decide (b < a)

/-- Every record, in key order. -/
def rows (table : RecordTable) : List (Bytes × Bytes) :=
  (table.offsets.map (fun offset =>
      let key := keyAt table.arena offset
      (key, (table.overlay.get? key).getD (valueAt table.arena offset))) ++
    table.overlay.entries.filter fun entry => !table.containsArenaKey entry.1).mergeSort
      fun a b => !decide (b.1 < a.1)

/-- One pass over every record in key order, each written under its key into a new arena with
what a rewrite makes of it. Nothing is left in the overlay. -/
def rewriteRecords {τ : Type} (table : RecordTable) (rewrite : τ → Bytes → Bytes → τ × Bytes) (state : τ) :
    τ × RecordTable :=
  let visit : τ × Bytes × List (BitVec 32) → Bytes → Bytes → Except Empty (τ × Bytes × List (BitVec 32)) :=
    fun state key value =>
      let next := rewrite state.1 key value
      .ok (next.1, appendRecord state.2 key next.2)
  match table.forEachRecord visit (state, [], []) with
  | .ok (state, arena, offsets) => (state, ⟨arena, offsets, .empty⟩)

/-- Adds the records of another table this one does not hold. -/
def mergeMissing (table other : RecordTable) : RecordTable :=
  other.rows.foldl (fun table entry =>
    if table.containsKey entry.1 then table else table.put entry.1 entry.2) table

/-- Empty markers under the leads of a key, from so many units down, up to the first lead the
table holds. -/
def createPrefixes (unit : Nat) (key : Bytes) : Nat → RecordTable → RecordTable
  | 0, table => table
  | units + 1, table =>
    let lead := key.take (unit * (units + 1))
    if table.containsKey lead then table else createPrefixes unit key units (table.put lead [])

/-! ## Reading the arena -/

variable {a b key value : Bytes}

/-- The loaded records, in the order of the offsets. -/
def arenaRows (table : RecordTable) : List (Bytes × Bytes) :=
  table.offsets.map fun offset => (keyAt table.arena offset, valueAt table.arena offset)

variable {table : RecordTable} {loaded : Bytes → Option Bytes}

theorem map_keyAt (table : RecordTable) : table.offsets.map (keyAt table.arena) = table.arenaRows.map fst := by
  rw [arenaRows, List.map_map]
  rfl

theorem compare_lt (h : a < b) : compareOfLessAndEq a b = .lt := if_pos h

theorem compare_self (a : Bytes) : compareOfLessAndEq a a = .eq := by
  rw [compareOfLessAndEq, if_neg (Std.Irrefl.irrefl a), if_pos rfl]

theorem compare_gt (h : b < a) : compareOfLessAndEq a b = .gt := by
  rw [compareOfLessAndEq, if_neg (fun hab => lt_asymm hab h), if_neg (ne_of_lt h).symm]

/-- The search of a key among the loaded records. -/
theorem searchArena_spec (h : Lists table.arenaRows loaded) (key : Bytes) :
    ∃ front back, table.arenaRows = front ++ ((loaded key).map (Prod.mk key)).toList ++ back ∧
      table.searchArena key =
        if (loaded key).isSome then .ok front.length else .error front.length := by
  obtain ⟨front, back, hrows, hfront, hback⟩ := h.split key
  have hsearch := @binarySearchBy_spec _ (fun row : Bytes × Bytes => compareOfLessAndEq row.1 key) front
    ((loaded key).map (Prod.mk key)) back (fun row hrow => compare_lt (hfront row hrow))
    (fun row hrow => by
      obtain ⟨value, _, rfl⟩ := map_eq_some_iff.mp hrow
      exact compare_self key)
    fun row hrow => compare_gt (hback row hrow)
  rw [← hrows, arenaRows, binarySearchBy_map, isSome_map] at hsearch
  exact ⟨front, back, hrows, hsearch⟩

theorem arenaRecord_eq (h : Lists table.arenaRows loaded) (key : Bytes) : table.arenaRecord key = loaded key := by
  obtain ⟨front, back, hrows, hsearch⟩ := searchArena_spec h key
  rw [arenaRecord, hsearch]
  cases hget : loaded key with
  | none => rfl
  | some value =>
    have hat : table.arenaRows[front.length]? = some (key, value) := by
      rw [hrows, hget]
      simp
    rw [arenaRows, getElem?_map] at hat
    obtain ⟨offset, hoffset, hrow⟩ := map_eq_some_iff.mp hat
    rw [isSome_some, if_pos rfl]
    dsimp only
    rw [hoffset, map_some, (Prod.mk.inj hrow).2]

/-- What the arena has under a key is one of its rows, sorted or not. -/
theorem mem_of_arenaRecord (h : table.arenaRecord key = some value) :
    ∃ row ∈ table.arenaRows, row.2 = value := by
  unfold arenaRecord at h
  split at h
  · rename_i at_ _
    obtain ⟨offset, hoffset, rfl⟩ := map_eq_some_iff.mp h
    exact ⟨_, mem_map_of_mem (mem_of_getElem? hoffset), rfl⟩
  · cases h

theorem containsArenaKey_eq (h : Lists table.arenaRows loaded) (key : Bytes) :
    table.containsArenaKey key = (loaded key).isSome := by
  obtain ⟨front, _, _, hsearch⟩ := searchArena_spec h key
  rw [containsArenaKey, hsearch]
  cases loaded key with
  | none => rfl
  | some value => rfl

theorem record_eq (h : Lists table.arenaRows loaded) (key : Bytes) :
    table.record key = (table.overlay.get? key).or (loaded key) := by
  rw [record, arenaRecord_eq h]
  cases table.overlay.get? key with
  | none => rfl
  | some value => rfl

theorem containsKey_eq (table : RecordTable) (key : Bytes) : table.containsKey key = (table.record key).isSome := by
  rw [containsKey, record]
  cases table.overlay.get? key with
  | none => rw [isSome_none, Bool.false_or]
  | some value => rw [isSome_some, Bool.true_or]

/-! ## The merged walk -/

section Visit

variable {σ ε : Type} (visit : σ → Bytes → Bytes → Except ε σ)

/-- The records of a table, the overlay's value of a key before the arena's. -/
def merged (table : RecordTable) : List (Bytes × Bytes) :=
  mergeWith (fun _ newest => newest) table.arenaRows table.overlay.entries

theorem visitMerged_cons_below {arena : Bytes} {offset : BitVec 32} {entry : Bytes × Bytes}
    (h : entry.1 < keyAt arena offset) (offsets : List (BitVec 32)) (overlay : List (Bytes × Bytes)) (state : σ) :
    visitMerged visit arena (offset :: offsets) (entry :: overlay) state =
      (visit state entry.1 entry.2).bind fun state =>
        visitMerged visit arena (offset :: offsets) overlay state := by
  rw [visitMerged, visitBelow, if_pos h]
  cases visit state entry.1 entry.2 with
  | error error => rfl
  | ok state =>
    dsimp only [Except.bind]
    rw [visitMerged]
    rfl

/-- The hand-written merge visits the records of the merged list. -/
theorem visitMerged_eq (arena : Bytes) :
    ∀ (offsets : List (BitVec 32)) (overlay : List (Bytes × Bytes)) (state : σ),
      visitMerged visit arena offsets overlay state =
        (mergeWith (fun _ newest => newest)
          (offsets.map fun offset => (keyAt arena offset, valueAt arena offset)) overlay).foldlM
            (fun state entry => visit state entry.1 entry.2) state
  | [], overlay, state => by
    rw [visitMerged, map_nil, mergeWith]
  | offset :: offsets, [], state => by
    rw [visitMerged, visitBelow, mergeWith_nil, map_cons, foldlM_cons]
    dsimp only [Except.bind]
    refine congrArg (Except.bind _) (funext fun state => ?_)
    rw [visitMerged_eq arena offsets [] state, mergeWith_nil]
  | offset :: offsets, entry :: overlay, state => by
    by_cases hbelow : entry.1 < keyAt arena offset
    · have hnot : ¬keyAt arena offset < entry.1 := lt_asymm hbelow
      rw [visitMerged_cons_below visit hbelow, map_cons, mergeWith, if_neg hnot, if_pos hbelow, foldlM_cons]
      refine congrArg (Except.bind _) (funext fun state => ?_)
      rw [visitMerged_eq arena (offset :: offsets) overlay state, map_cons]
    · rw [visitMerged, visitBelow, if_neg hbelow]
      dsimp only [Except.bind]
      by_cases hsame : entry.1 = keyAt arena offset
      · have hnot : ¬keyAt arena offset < entry.1 := by
          rw [hsame]
          exact Std.Irrefl.irrefl _
        rw [if_pos hsame, map_cons, mergeWith, if_neg hnot, if_neg hbelow, foldlM_cons, ← hsame]
        refine congrArg (Except.bind _) (funext fun state => ?_)
        exact visitMerged_eq arena offsets overlay state
      · have habove : keyAt arena offset < entry.1 := by
          rcases lt_or_eq_or_gt (keyAt arena offset) entry.1 with hlt | heq | hgt
          · exact hlt
          · exact absurd heq.symm hsame
          · exact absurd hgt hbelow
        rw [if_neg hsame, map_cons, mergeWith, if_pos habove, foldlM_cons]
        refine congrArg (Except.bind _) (funext fun state => ?_)
        exact visitMerged_eq arena offsets (entry :: overlay) state
termination_by offsets overlay => offsets.length + overlay.length

theorem forEachRecord_eq (table : RecordTable) (state : σ) :
    table.forEachRecord visit state =
      table.merged.foldlM (fun state entry => visit state entry.1 entry.2) state :=
  visitMerged_eq visit table.arena table.offsets table.overlay.entries state

end Visit

section

variable (h : Lists table.arenaRows loaded)
include h

/-- The merged list is that of the records. -/
theorem lists_merged : Lists table.merged table.record := by
  have hmerged := h.mergeWith (fun _ newest => newest) table.overlay.lists
  have hmap : (fun key => Option.merge (fun _ newest => newest) (loaded key) (table.overlay.get? key)) =
      table.record := by
    ext1 key
    rw [record_eq h]
    cases loaded key with
    | none => cases table.overlay.get? key <;> rfl
    | some value => cases table.overlay.get? key <;> rfl
  rwa [hmap] at hmerged

/-! ## Collected reads -/

/-- Keys of the arena, then those only the overlay has, are distinct. -/
theorem nodup_keys {xs ys : List Bytes} (hxs : xs.Sublist (table.arenaRows.map fst))
    (hys : ys.Sublist (table.overlay.entries.map fst)) :
    (xs ++ ys.filter fun key => !table.containsArenaKey key).Nodup := by
  have harena : (table.arenaRows.map fst).Nodup :=
    pairwise_map.mpr (h.ascending.imp fun hab => FiniteMap.ne_of_lt hab)
  have hoverlay : (table.overlay.entries.map fst).Nodup :=
    pairwise_map.mpr (table.overlay.ascending.imp fun hab => FiniteMap.ne_of_lt hab)
  refine nodup_append.mpr ⟨harena.sublist hxs, (hoverlay.sublist hys).filter _, ?_⟩
  rintro key hkey _ hother rfl
  obtain ⟨row, hrow, rfl⟩ := mem_map.mp (hxs.subset hkey)
  have habsent := (mem_filter.mp hother).2
  rw [containsArenaKey_eq h, (h.mem row.1 row.2).mp hrow] at habsent
  cases habsent

/-- The keys with a record are those of the arena and those only the overlay has. -/
theorem isSome_record_iff (key : Bytes) :
    (table.record key).isSome ↔ key ∈ table.arenaRows.map fst ∨
      key ∈ table.overlay.entries.map fst ∧ table.containsArenaKey key = false := by
  rw [h.mem_keys, table.overlay.lists.mem_keys, record_eq h, containsArenaKey_eq h, isSome_or]
  cases (loaded key).isSome with
  | true => simp
  | false => simp

/-- The rows list what is stored. -/
theorem rows_eq : Lists table.rows table.record := by
  have hnew : (table.overlay.entries.filter fun entry => !table.containsArenaKey entry.1).map fst =
      (table.overlay.entries.map fst).filter fun key => !table.containsArenaKey key := by
    rw [List.filter_map]
    rfl
  refine lists_mergeSort ?_ fun key value => ?_
  · have hold : (table.offsets.map fun offset =>
        (keyAt table.arena offset, (table.overlay.get? (keyAt table.arena offset)).getD
          (valueAt table.arena offset))).map fst = table.arenaRows.map fst := by
      rw [List.map_map, ← map_keyAt]
      rfl
    rw [map_append, hold, hnew]
    exact nodup_keys h (refl _) (refl _)
  · rw [mem_append, mem_filter, table.overlay.lists.mem, containsArenaKey_eq h, record_eq h, List.mem_map]
    -- a row of the arena has the overlay's value where it has one
    have hold : (∃ offset ∈ table.offsets, (keyAt table.arena offset,
        (table.overlay.get? (keyAt table.arena offset)).getD (valueAt table.arena offset)) = (key, value)) ↔
        ∃ stored, loaded key = some stored ∧ (table.overlay.get? key).getD stored = value := by
      constructor
      · rintro ⟨offset, hoffset, heq⟩
        obtain ⟨rfl, rfl⟩ := Prod.mk.inj heq
        exact ⟨valueAt table.arena offset, (h.mem _ _).mp (mem_map_of_mem hoffset), rfl⟩
      · rintro ⟨stored, hstored, rfl⟩
        obtain ⟨offset, hoffset, heq⟩ := mem_map.mp ((h.mem key stored).mpr hstored)
        obtain ⟨rfl, rfl⟩ := Prod.mk.inj heq
        exact ⟨offset, hoffset, rfl⟩
    rw [hold]
    cases table.overlay.get? key with
    | some newest =>
      cases loaded key with
      | none => simp
      | some stored => simp
    | none =>
      cases loaded key with
      | none => simp
      | some stored => simp

theorem keys_eq : table.keys = table.rows.map fst := by
  have hrows := rows_eq h
  rw [keys, map_keyAt]
  refine @eq_of_ascending _ _ _ _ _ _ id _ _ (pairwise_mergeSort_key ?_)
    (pairwise_map.mpr hrows.ascending) fun key => ?_
  · rw [List.map_id]
    exact nodup_keys h (refl _) (refl _)
  · rw [hrows.mem_keys, isSome_record_iff h, mem_mergeSort, mem_append, mem_filter, Bool.not_eq_true']

end

/-! ## Keys with a lead -/

variable {l : List Bytes}

/-- A list between a lead and one of its extensions extends the lead. -/
theorem extends_of_between : ∀ {lead a b : Bytes}, ¬a < lead → a < b → lead <+: b → lead <+: a
  | [], _, _, _, _, _ => nil_prefix
  | x :: lead, a, b, hlow, hlt, hb => by
    obtain ⟨more, rfl⟩ := hb
    match a with
    | [] => exact absurd (nil_lt_cons x lead) hlow
    | y :: a =>
      rw [cons_append, cons_lt_cons_iff] at hlt
      rw [cons_lt_cons_iff] at hlow
      rcases hlt with hyx | ⟨rfl, hlt⟩
      · exact absurd (Or.inl hyx) hlow
      · have hrest := extends_of_between (fun hless => hlow (Or.inr ⟨rfl, hless⟩)) hlt (prefix_append lead more)
        exact cons_prefix_cons.mpr ⟨rfl, hrest⟩

theorem not_lt_of_extends : ∀ {lead b : Bytes}, lead <+: b → ¬b < lead
  | [], _, _, hlt => absurd hlt (not_lt_nil _)
  | x :: lead, b, hb, hlt => by
    obtain ⟨more, rfl⟩ := hb
    rw [cons_append, cons_lt_cons_iff] at hlt
    rcases hlt with hlt | ⟨_, hlt⟩
    · exact Std.Irrefl.irrefl x hlt
    · exact not_lt_of_extends (prefix_append lead more) hlt

/-- The run of an ascending list behind its keys below a lead is that of the lead's extensions. -/
theorem takeWhile_extends (h : l.Pairwise (· < ·)) (lead : Bytes) :
    ((l.filter fun key => !decide (key < lead)).takeWhile fun key => lead.isPrefixOf key) =
      l.filter fun key => lead.isPrefixOf key := by
  rw [takeWhile_eq_filter, List.filter_filter]
  · refine filter_congr fun key _ => ?_
    cases hlead : lead.isPrefixOf key with
    | false => rfl
    | true =>
      rw [Bool.true_and, decide_eq_false (not_lt_of_extends (List.isPrefixOf_iff_prefix.mp hlead))]
      rfl
  · refine (h.filter _).imp_of_mem fun {a b} ha _ hab hb => ?_
    have hlow : ¬a < lead := by simpa using (mem_filter.mp ha).2
    exact isPrefixOf_iff_prefix.mpr (extends_of_between hlow hab (List.isPrefixOf_iff_prefix.mp hb))

theorem pairwise_below (h : l.Pairwise (· < ·)) (lead : Bytes) :
    l.Pairwise fun a b => decide (b < lead) = true → decide (a < lead) = true :=
  h.imp fun {a b} hab hb => by
    rw [decide_eq_true_iff] at hb ⊢
    exact Trans.trans hab hb

/-- The keys that begin with a lead. -/
theorem keysStartingWith_eq (h : Lists table.arenaRows loaded) (lead : Bytes) :
    table.keysStartingWith lead = table.keys.filter fun key => lead.isPrefixOf key := by
  have harena : (table.arenaRows.map fst).Pairwise (· < ·) := pairwise_map.mpr h.ascending
  have hoverlay : (table.overlay.entries.map fst).Pairwise (· < ·) := pairwise_map.mpr table.overlay.ascending
  have hloaded : ((table.offsets.drop (partitionPoint
      (fun offset => decide (keyAt table.arena offset < lead)) table.offsets)).map (keyAt table.arena)).takeWhile
        (fun key => lead.isPrefixOf key) =
      (table.arenaRows.map fst).filter fun key => lead.isPrefixOf key := by
    have hpoint := partitionPoint_map (fun key : Bytes => decide (key < lead)) (keyAt table.arena) table.offsets
    obtain ⟨hcount, hcut⟩ := partitionPoint_cut (pairwise_below harena lead)
    have hdrop : (table.arenaRows.map fst).drop
        ((table.arenaRows.map fst).takeWhile fun key => decide (key < lead)).length =
        (table.arenaRows.map fst).filter fun key => !decide (key < lead) :=
      (congrArg (drop _) hcut).trans drop_left
    rw [map_keyAt, hcount] at hpoint
    rw [map_drop, map_keyAt, show partitionPoint (fun offset => decide (keyAt table.arena offset < lead))
      table.offsets = _ from hpoint.symm, hdrop, takeWhile_extends harena]
  have hwritten : ((table.overlay.entries.map fst).dropWhile fun key => decide (key < lead)).takeWhile
      (fun key => lead.isPrefixOf key) =
      (table.overlay.entries.map fst).filter fun key => lead.isPrefixOf key := by
    rw [dropWhile_eq_filter (pairwise_below hoverlay lead), takeWhile_extends hoverlay]
  rw [keysStartingWith, hloaded, hwritten, keys, map_keyAt]
  refine @eq_of_ascending _ _ _ _ _ _ id _ _ (pairwise_mergeSort_key ?_)
    ((pairwise_mergeSort_key ?_).filter _) fun key => ?_
  · rw [List.map_id]
    exact nodup_keys h filter_sublist filter_sublist
  · rw [List.map_id]
    exact nodup_keys h (refl _) (refl _)
  · simp only [mem_mergeSort, mem_append, mem_filter]
    tauto

/-- A table answers as one finite map. -/
structure Answers (table : RecordTable) (m : Bytes → Option Bytes) : Prop where
  record : ∀ key, table.record key = m key
  containsKey : ∀ key, table.containsKey key = (m key).isSome
  rows : Lists table.rows m
  visits : ∀ {σ ε : Type} (visit : σ → Bytes → Bytes → Except ε σ) (state : σ),
    table.forEachRecord visit state = table.rows.foldlM (fun state entry => visit state entry.1 entry.2) state
  keys : table.keys = table.rows.map Prod.fst
  startingWith : ∀ lead, table.keysStartingWith lead = table.keys.filter fun key => lead.isPrefixOf key

/-- The offsets are sorted by distinct keys. -/
def Sorted (table : RecordTable) : Prop :=
  table.arenaRows.Pairwise fun a b => a.1 < b.1

/-- A sorted table answers as the map of its records. -/
theorem answers (h : table.Sorted) : table.Answers table.record := by
  obtain ⟨loaded, hloaded⟩ := exists_lists h
  refine ⟨fun _ => rfl, containsKey_eq table, rows_eq hloaded, fun visit state => ?_, keys_eq hloaded,
    keysStartingWith_eq hloaded⟩
  rw [forEachRecord_eq, (lists_merged hloaded).unique (rows_eq hloaded)]

/-! ## Writing the arena -/

variable {arena : Bytes}

/-- An arena holds rows, each at its offset. -/
def Stored (arena : Bytes) (offsets : List (BitVec 32)) (rows : List (Bytes × Bytes)) : Prop :=
  List.Forall₂ (fun offset row => ∃ front back, arena = front ++ recordBytes row.1 row.2 ++ back ∧
    front.length = offset.toNat ∧ row.1.length < 2 ^ 32 ∧ row.2.length < 2 ^ 32) offsets rows

theorem length_recordBytes (key value : Bytes) :
    (recordBytes key value).length = recordHeader + key.length + value.length := by
  simp [recordBytes, recordHeader]
  omega

theorem toNat_u32OrMax {n : Nat} (h : n < 2 ^ 32) : (u32OrMax n).toNat = n := by
  rw [u32OrMax, if_pos h, BitVec.toNat_ofNat, Nat.mod_eq_of_lt h]

/-- A record is read where it lies. -/
theorem at_recordBytes {front back : Bytes} {offset : BitVec 32}
    (harena : arena = front ++ recordBytes key value ++ back) (hfront : front.length = offset.toNat)
    (hkey : key.length < 2 ^ 32) (hvalue : value.length < 2 ^ 32) :
    keyAt arena offset = key ∧ valueAt arena offset = value := by
  have hkeyLen : word32At arena offset.toNat = some (u32OrMax key.length) := by
    refine @word32At_eq _ front (le32 (u32OrMax value.length) ++ key ++ value ++ back) _ _ ?_ hfront.symm
    simp [harena, recordBytes]
  have hvalueLen : word32At arena (offset.toNat + 4) = some (u32OrMax value.length) := by
    refine @word32At_eq _ (front ++ le32 (u32OrMax key.length)) (key ++ value ++ back) _ _ ?_ ?_
    · simp [harena, recordBytes]
    · rw [length_append, length_le32, hfront]
  set header := front ++ le32 (u32OrMax key.length) ++ le32 (u32OrMax value.length) with hheader
  have hlength : offset.toNat + recordHeader = header.length := by
    rw [hheader, length_append, length_append, length_le32, length_le32, hfront, recordHeader]
  have hkeyRange : range? arena (offset.toNat + recordHeader) (offset.toNat + recordHeader + key.length) =
      some key := by
    rw [show arena = header ++ key ++ (value ++ back) by simp [harena, hheader, recordBytes]]
    exact range?_append _ _ _ hlength (by rw [hlength])
  have hvalueRange : range? arena (offset.toNat + recordHeader + key.length)
      (offset.toNat + recordHeader + key.length + value.length) = some value := by
    rw [show arena = (header ++ key) ++ value ++ back by simp [harena, hheader, recordBytes]]
    have hstart : offset.toNat + recordHeader + key.length = (header ++ key).length := by
      rw [length_append, ← hlength]
    exact range?_append _ _ _ hstart (by rw [hstart])
  refine ⟨?_, ?_⟩
  · rw [keyAt, hkeyLen, getD_some, toNat_u32OrMax hkey, hkeyRange, getD_some]
  · rw [valueAt, hkeyLen, hvalueLen, getD_some, getD_some, toNat_u32OrMax hkey,
      toNat_u32OrMax hvalue, hvalueRange, getD_some]

theorem Stored.read {offsets : List (BitVec 32)} {rows : List (Bytes × Bytes)}
    (h : Stored arena offsets rows) :
    offsets.map (fun offset => (keyAt arena offset, valueAt arena offset)) = rows := by
  induction h with
  | nil => rfl
  | cons hrow _ ih =>
    obtain ⟨front, back, harena, hfront, hkey, hvalue⟩ := hrow
    obtain ⟨hkeyAt, hvalueAt⟩ := at_recordBytes harena hfront hkey hvalue
    rw [map_cons, ih, hkeyAt, hvalueAt]

theorem Stored.append {state : Bytes × List (BitVec 32)} {rows : List (Bytes × Bytes)}
    (h : Stored state.1 state.2 rows) (key value : Bytes) (hroom : (appendRecord state key value).1.length < 2 ^ 32) :
    Stored (appendRecord state key value).1 (appendRecord state key value).2 (rows ++ [(key, value)]) := by
  rw [appendRecord, length_append, length_recordBytes] at hroom
  refine rel_append ?_ (List.Forall₂.cons ?_ List.Forall₂.nil)
  · refine h.imp fun offset row hrow => ?_
    obtain ⟨front, back, harena, hfront, hlengths⟩ := hrow
    exact ⟨front, back ++ recordBytes key value, by rw [appendRecord, harena]; simp, hfront, hlengths⟩
  · refine ⟨state.1, [], by rw [append_nil]; rfl, ?_, ?_, ?_⟩
    · exact (toNat_u32OrMax (by omega)).symm
    · dsimp only
      omega
    · dsimp only
      omega

section Pass

variable {τ : Type} (rewrite : τ → Bytes → Bytes → τ × Bytes)

/-- One record of a pass that writes each record anew. -/
def passStep (state : τ × Bytes × List (BitVec 32)) (entry : Bytes × Bytes) : τ × Bytes × List (BitVec 32) :=
  ((rewrite state.1 entry.1 entry.2).1, appendRecord state.2 entry.1 (rewrite state.1 entry.1 entry.2).2)

theorem length_foldl_passStep : ∀ (entries : List (Bytes × Bytes)) (state : τ × Bytes × List (BitVec 32)),
    state.2.1.length ≤ (entries.foldl (passStep rewrite) state).2.1.length
  | [], _ => Nat.le_refl _
  | entry :: entries, state => by
    refine Nat.le_trans ?_ (length_foldl_passStep entries (passStep rewrite state entry))
    rw [passStep, appendRecord, length_append]
    exact Nat.le_add_right _ _

/-- The records a pass writes. -/
def passRows : τ → List (Bytes × Bytes) → List (Bytes × Bytes)
  | _, [] => []
  | state, entry :: entries =>
    (entry.1, (rewrite state entry.1 entry.2).2) :: passRows (rewrite state entry.1 entry.2).1 entries

theorem keys_passRows : ∀ (state : τ) (entries : List (Bytes × Bytes)),
    (passRows rewrite state entries).map fst = entries.map fst
  | _, [] => rfl
  | state, entry :: entries => by
    rw [passRows, map_cons, map_cons, keys_passRows]

/-- A pass writes its records one behind the other. -/
theorem arena_foldl_passStep : ∀ (entries : List (Bytes × Bytes)) (state : τ × Bytes × List (BitVec 32)),
    (entries.foldl (passStep rewrite) state).2.1 =
      state.2.1 ++ (passRows rewrite state.1 entries).flatMap fun row => recordBytes row.1 row.2
  | [], state => by rw [foldl_nil, passRows, flatMap_nil, append_nil]
  | entry :: entries, state => by
    rw [foldl_cons, arena_foldl_passStep entries (passStep rewrite state entry), passRows, flatMap_cons]
    exact append_assoc ..

/-- A pass that stays within the offsets' width stores the records it writes. -/
theorem Stored.pass : ∀ {entries : List (Bytes × Bytes)} {state : τ × Bytes × List (BitVec 32)}
    {rows : List (Bytes × Bytes)}, Stored state.2.1 state.2.2 rows →
    (entries.foldl (passStep rewrite) state).2.1.length < 2 ^ 32 →
    Stored (entries.foldl (passStep rewrite) state).2.1 (entries.foldl (passStep rewrite) state).2.2
      (rows ++ passRows rewrite state.1 entries)
  | [], _, rows, h, _ => by rwa [passRows, append_nil]
  | entry :: entries, state, rows, h, hroom => by
    have hstep := h.append entry.1 (rewrite state.1 entry.1 entry.2).2
      (Nat.lt_of_le_of_lt (length_foldl_passStep rewrite entries (passStep rewrite state entry)) hroom)
    have hstored := @Stored.pass entries (passStep rewrite state entry) _ hstep hroom
    rwa [append_assoc] at hstored

theorem rewriteRecords_eq (table : RecordTable) (state : τ) :
    table.rewriteRecords rewrite state =
      ((table.merged.foldl (passStep rewrite) (state, [], [])).1,
        ⟨(table.merged.foldl (passStep rewrite) (state, [], [])).2.1,
          (table.merged.foldl (passStep rewrite) (state, [], [])).2.2, .empty⟩) := by
  have hpass : table.forEachRecord (ε := Empty)
      (fun (state : τ × Bytes × List (BitVec 32)) key value =>
        .ok ((rewrite state.1 key value).1, appendRecord state.2 key (rewrite state.1 key value).2))
      (state, [], []) = .ok (table.merged.foldl (passStep rewrite) (state, [], [])) := by
    rw [forEachRecord_eq]
    exact foldlM_pure
  rw [rewriteRecords, hpass]

/-- A table written anew holds what the pass made of its records. -/
theorem arenaRows_rewriteRecords (table : RecordTable) (state : τ)
    (hroom : (table.rewriteRecords rewrite state).2.arena.length < 2 ^ 32) :
    (table.rewriteRecords rewrite state).2.arenaRows = passRows rewrite state table.merged := by
  rw [rewriteRecords_eq] at hroom ⊢
  exact (@Stored.pass _ rewrite table.merged (state, [], []) [] List.Forall₂.nil hroom).read

theorem Sorted.rewriteRecords (h : table.Sorted) (state : τ)
    (hroom : (table.rewriteRecords rewrite state).2.arena.length < 2 ^ 32) :
    (table.rewriteRecords rewrite state).2.Sorted := by
  obtain ⟨loaded, hloaded⟩ := exists_lists h
  refine pairwise_map.mp ?_
  rw [arenaRows_rewriteRecords rewrite table state hroom, keys_passRows]
  exact pairwise_map.mpr (lists_merged hloaded).ascending

end Pass

/-! ## Loading -/

variable {entries : List (Bytes × Bytes)}

/-- A load writes each row as it is. -/
theorem foldl_pushRecord (entries : List (Bytes × Bytes)) : ∀ table : RecordTable,
    entries.foldl (fun table entry => table.pushRecord entry.1 entry.2) table =
      { table with
        arena := (entries.foldl (passStep fun _ _ value => ((), value)) ((), table.arena, table.offsets)).2.1
        offsets := (entries.foldl (passStep fun _ _ value => ((), value)) ((), table.arena,
          table.offsets)).2.2 } := by
  induction entries with
  | nil => exact fun _ => rfl
  | cons entry entries ih => exact fun table => ih (table.pushRecord entry.1 entry.2)

theorem passRows_id : ∀ entries : List (Bytes × Bytes), passRows (fun _ _ value => ((), value)) () entries = entries
  | [] => rfl
  | entry :: entries => by rw [passRows, passRows_id entries]

/-- The loaded rows are those of the file, sorted by key. -/
theorem arenaRows_fromEntries (hroom : (fromEntries entries).arena.length < 2 ^ 32) :
    (fromEntries entries).arenaRows = entries.mergeSort fun a b => !decide (b.1 < a.1) := by
  rw [fromEntries, foldl_pushRecord] at hroom ⊢
  have hread := (@Stored.pass _ (fun _ _ value => ((), value)) entries ((), [], []) [] List.Forall₂.nil hroom).read
  rw [passRows_id, nil_append] at hread
  refine Eq.trans ?_ (congrArg (mergeSort · _) hread)
  rw [arenaRows, finishLoad]
  exact (map_mergeSort fun a _ b _ => rfl)

/-- A table of rows with distinct keys is sorted, and its map is that of the rows. -/
theorem lists_fromEntries (hkeys : (entries.map fst).Nodup)
    (hroom : (fromEntries entries).arena.length < 2 ^ 32) :
    (fromEntries entries).Sorted ∧
      ∀ key value, (fromEntries entries).record key = some value ↔ (key, value) ∈ entries := by
  have hsorted : (fromEntries entries).Sorted := by
    rw [Sorted, arenaRows_fromEntries hroom]
    exact pairwise_mergeSort_key hkeys
  obtain ⟨loaded, hloaded⟩ := exists_lists hsorted
  refine ⟨hsorted, fun key value => ?_⟩
  have hget : (fromEntries entries).overlay.get? key = none := by
    rw [fromEntries, foldl_pushRecord]
    rfl
  rw [record_eq hloaded, hget, none_or, ← hloaded.mem, arenaRows_fromEntries hroom, mem_mergeSort]

/-! ## Edits over the arena -/

variable {base : RecordTable}

/-- A table has the loaded records of another. -/
def Over (base table : RecordTable) : Prop :=
  table.arena = base.arena ∧ table.offsets = base.offsets

theorem Over.refl (table : RecordTable) : Over table table := ⟨rfl, rfl⟩

theorem Over.trans {first second third : RecordTable} (h : Over first second) (h' : Over second third) :
    Over first third :=
  ⟨h'.1.trans h.1, h'.2.trans h.2⟩

theorem Over.arenaRows (h : Over base table) : table.arenaRows = base.arenaRows := by
  rw [RecordTable.arenaRows, RecordTable.arenaRows, h.1, h.2]

theorem Sorted.over (h : base.Sorted) (hover : Over base table) : table.Sorted := by
  rw [Sorted, hover.arenaRows]
  exact h

theorem over_put (table : RecordTable) (key value : Bytes) : Over table (table.put key value) := ⟨rfl, rfl⟩

theorem over_createPrefixes (unit : Nat) (key : Bytes) : ∀ (units : Nat) (table : RecordTable),
    Over table (createPrefixes unit key units table)
  | 0, table => Over.refl table
  | units + 1, table => by
    rw [createPrefixes]
    split
    · exact Over.refl table
    · exact (over_put table _ _).trans (over_createPrefixes unit key units _)

theorem over_mergeMissing (table other : RecordTable) : Over table (table.mergeMissing other) := by
  rw [mergeMissing]
  generalize other.rows = rows
  induction rows generalizing table with
  | nil => exact Over.refl table
  | cons entry rows ih =>
    rw [foldl_cons]
    split
    · exact ih table
    · exact (over_put table entry.1 entry.2).trans (ih _)

/-! ## Leads of keys -/

theorem record_put (table : RecordTable) (key value other : Bytes) :
    (table.put key value).record other = if other = key then some value else table.record other := by
  rw [record, put, SortedMap.get?_insert, Function.update_apply]
  by_cases hother : other = key
  · rw [if_pos hother, if_pos hother]
  · rw [if_neg hother, if_neg hother]
    rfl

theorem containsKey_put (table : RecordTable) (key value other : Bytes) :
    (table.put key value).containsKey other = true ↔ other = key ∨ table.containsKey other = true := by
  rw [containsKey_eq, containsKey_eq, record_put]
  split
  · rename_i h
    simp [h]
  · rename_i h
    simp [h]

/-- Markers change no record that is there. -/
theorem getD_record_createPrefixes (unit : Nat) (key other : Bytes) : ∀ (units : Nat) (table : RecordTable),
    ((createPrefixes unit key units table).record other).getD [] = (table.record other).getD []
  | 0, _ => rfl
  | units + 1, table => by
    rw [createPrefixes]
    split
    · rfl
    · rename_i habsent
      rw [getD_record_createPrefixes unit key other units, record_put]
      split
      · rename_i hother
        rw [containsKey_eq, ← hother, Bool.not_eq_true, isSome_eq_false_iff, isNone_iff_eq_none] at habsent
        rw [habsent]
        rfl
      · rfl

theorem containsKey_createPrefixes_of_containsKey {unit : Nat} {key other : Bytes} : ∀ {units : Nat}
    {table : RecordTable}, table.containsKey other = true →
    (createPrefixes unit key units table).containsKey other = true
  | 0, _, h => h
  | units + 1, table, h => by
    rw [createPrefixes]
    split
    · exact h
    · exact containsKey_createPrefixes_of_containsKey ((containsKey_put _ _ _ _).mpr (Or.inr h))

/-- The markers made are leads of the key. -/
theorem lead_of_containsKey_createPrefixes {unit : Nat} {key other : Bytes} : ∀ {units : Nat} {table : RecordTable},
    (createPrefixes unit key units table).containsKey other = true →
    table.containsKey other = true ∨ ∃ n, 0 < n ∧ n ≤ units ∧ other = key.take (unit * n)
  | 0, _, h => Or.inl h
  | units + 1, table, h => by
    rw [createPrefixes] at h
    split at h
    · exact Or.inl h
    · rcases lead_of_containsKey_createPrefixes h with hput | ⟨n, hpos, hn, rfl⟩
      · rcases (containsKey_put _ _ _ _).mp hput with rfl | hold
        · exact Or.inr ⟨units + 1, Nat.succ_pos units, Nat.le_refl _, rfl⟩
        · exact Or.inl hold
      · exact Or.inr ⟨n, hpos, Nat.le_succ_of_le hn, rfl⟩

/-- A key's proper leads, in whole units, are keys. -/
def LeadsHeld (unit : Nat) (table : RecordTable) (key : Bytes) : Prop :=
  ∀ n, 0 < n → unit * n < key.length → table.containsKey (key.take (unit * n)) = true

/-- Every key's proper leads are keys. -/
def LeadClosed (unit : Nat) (table : RecordTable) : Prop :=
  ∀ key, table.containsKey key = true → table.LeadsHeld unit key

/-- Each key is closed under leads, or it is a lead of one key whose own leads are there down to
so many units. -/
def ClosedDownTo (unit : Nat) (key : Bytes) (units : Nat) (table : RecordTable) : Prop :=
  ∀ other, table.containsKey other = true → table.LeadsHeld unit other ∨
    ∃ m, units < m ∧ unit * m ≤ key.length ∧ other = key.take (unit * m) ∧
      ∀ n, units < n → n < m → table.containsKey (key.take (unit * n)) = true

theorem LeadsHeld.mono {unit : Nat} {table later : RecordTable} (h : table.LeadsHeld unit key)
    (hlater : ∀ other, table.containsKey other = true → later.containsKey other = true) : later.LeadsHeld unit key :=
  fun n hpos hn => hlater _ (h n hpos hn)

/-- The walk that stops at the first lead it meets closes the table. -/
theorem leadClosed_createPrefixes {unit : Nat} (hunit : 0 < unit) (key : Bytes) : ∀ {units : Nat}
    {table : RecordTable},
    unit * units < key.length → ClosedDownTo unit key units table →
    (createPrefixes unit key units table).LeadClosed unit
  | 0, table, _, h => by
    intro other hother
    rcases h other hother with hheld | ⟨m, _, hm, rfl, hleads⟩
    · exact hheld
    · intro n hpos hn
      rw [length_take, Nat.min_eq_left hm] at hn
      have hnm : n < m := Nat.lt_of_mul_lt_mul_left hn
      rw [take_take, Nat.min_eq_left (Nat.le_of_lt hn)]
      exact hleads n hpos hnm
  | units + 1, table, hunits, h => by
    rw [createPrefixes]
    by_cases hlead : table.containsKey (key.take (unit * (units + 1))) = true
    · rw [if_pos hlead]
      -- the lead met first is older than the walk, so its own leads are all there
      have hheld : table.LeadsHeld unit (key.take (unit * (units + 1))) := by
        rcases h _ hlead with hheld | ⟨m, hm, hlength, heq, _⟩
        · exact hheld
        · have hlengths := congrArg length heq
          rw [length_take, length_take, Nat.min_eq_left (Nat.le_of_lt hunits), Nat.min_eq_left hlength] at hlengths
          exact absurd (Nat.eq_of_mul_eq_mul_left hunit hlengths) (Nat.ne_of_lt hm)
      intro other hother
      rcases h other hother with hother | ⟨m, hm, hlength, rfl, hleads⟩
      · exact hother
      · intro n hpos hn
        rw [length_take, Nat.min_eq_left hlength] at hn
        have hnm : n < m := Nat.lt_of_mul_lt_mul_left hn
        rw [take_take, Nat.min_eq_left (Nat.le_of_lt hn)]
        rcases Nat.lt_trichotomy n (units + 1) with hlt | rfl | hgt
        · have hmul : unit * n < unit * (units + 1) := Nat.mul_lt_mul_of_pos_left hlt hunit
          have hmem := hheld n hpos (by rwa [length_take, Nat.min_eq_left (Nat.le_of_lt hunits)])
          rwa [take_take, Nat.min_eq_left (Nat.le_of_lt hmul)] at hmem
        · exact hlead
        · exact hleads n hgt hnm
    · rw [if_neg hlead]
      have hlater : ∀ other, table.containsKey other = true →
          (table.put (key.take (unit * (units + 1))) []).containsKey other = true :=
        fun other hother => (containsKey_put _ _ _ _).mpr (Or.inr hother)
      refine leadClosed_createPrefixes hunit key (Nat.lt_trans
        (Nat.mul_lt_mul_of_pos_left (Nat.lt_succ_self units) hunit) hunits) ?_
      intro other hother
      rcases (containsKey_put _ _ _ _).mp hother with rfl | hother
      · exact Or.inr ⟨units + 1, Nat.lt_succ_self units, Nat.le_of_lt hunits, rfl, fun n hn hn' => by omega⟩
      · rcases h other hother with hheld | ⟨m, hm, hlength, rfl, hleads⟩
        · exact Or.inl (hheld.mono hlater)
        · refine Or.inr ⟨m, by omega, hlength, rfl, fun n hn hn' => ?_⟩
          rcases Nat.lt_or_eq_of_le (Nat.succ_le_of_lt hn) with hlt | rfl
          · exact hlater _ (hleads n hlt hn')
          · exact (containsKey_put _ _ _ _).mpr (Or.inl rfl)

/-- A new record with its leads keeps a closed table closed. -/
theorem LeadClosed.put_createPrefixes {unit : Nat} (hunit : 0 < unit) {table : RecordTable}
    (h : table.LeadClosed unit) {key : Bytes} {units : Nat} (hkey : key.length = unit * (units + 1)) (value : Bytes) :
    ((table.put key value).createPrefixes unit key units).LeadClosed unit := by
  refine leadClosed_createPrefixes hunit key ?_ fun other hother => ?_
  · rw [hkey]
    exact Nat.mul_lt_mul_of_pos_left (Nat.lt_succ_self units) hunit
  · rcases (containsKey_put _ _ _ _).mp hother with rfl | hother
    · exact Or.inr ⟨units + 1, Nat.lt_succ_self units, Nat.le_of_eq hkey.symm,
        by rw [← hkey, take_length], fun n hn hn' => by omega⟩
    · exact Or.inl ((h other hother).mono fun other hother => (containsKey_put _ _ _ _).mpr (Or.inr hother))

/-- Writing over a record keeps a closed table closed. -/
theorem LeadClosed.put {unit : Nat} {table : RecordTable} (h : table.LeadClosed unit) {key : Bytes}
    (hkey : table.containsKey key = true) (value : Bytes) : (table.put key value).LeadClosed unit := by
  intro other hother
  have hold : table.containsKey other = true := by
    rcases (containsKey_put _ _ _ _).mp hother with rfl | hother
    · exact hkey
    · exact hother
  exact (h other hold).mono fun other hother => (containsKey_put _ _ _ _).mpr (Or.inr hother)

end RecordTable

end Oxpinyin
