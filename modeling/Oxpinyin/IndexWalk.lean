import Oxpinyin.ChewingTable
import Oxpinyin.RecordTable

/-!
# Walking the extensions of a query

A suggestion reads every record whose key extends that of the query, as the range from the key up to
the bound above all its extensions (`prefixUpperBound_spec`). A key word is never that of an initial
and of a whole key alike, so a range stays in one of the two key spaces, and the items of the records
walked that begin with the query are those of the table that do (`walkSuggestions_spec`).
-/

set_option linter.unusedSectionVars false

namespace Oxpinyin

open List LittleEndian FiniteMap ChewingTable

/-! ## The bound -/

/-- `rposition` : the last index whose element passes a test. -/
def rposition {α : Type} (p : α → Bool) : List α → Option Nat
  | [] => none
  | x :: rest =>
    match rposition p rest with
    | some index => some (index + 1)
    | none => if p x then some 0 else none

/-- The least bytes above every extension of a lead. There are none where all bytes are the last. -/
def prefixUpperBound (lead : Bytes) : Option Bytes :=
  (rposition (· != 0xff) lead).map fun last => (lead.take (last + 1)).modify last (· + 1)

theorem prefixUpperBound_cons (byte : UInt8) (lead : Bytes) :
    prefixUpperBound (byte :: lead) =
      match prefixUpperBound lead with
      | some bound => some (byte :: bound)
      | none => if byte = 0xff then none else some [byte + 1] := by
  rw [prefixUpperBound, prefixUpperBound, rposition]
  cases rposition (· != 0xff) lead with
  | some last => rfl
  | none =>
    by_cases hbyte : byte = 0xff
    · simp [hbyte]
    · simp [hbyte]

theorem lt_succ_iff {a b : UInt8} (hb : b ≠ 0xff) : a < b + 1 ↔ ¬b < a := by
  rw [UInt8.lt_iff_toNat_lt, UInt8.lt_iff_toNat_lt, UInt8.toNat_add]
  have hmax : b.toNat ≠ 255 := fun h => hb (UInt8.toNat_inj.mp h)
  have hlt := b.toNat_lt
  rw [Nat.mod_eq_of_lt (by change b.toNat + 1 < 2 ^ 8; omega)]
  change a.toNat < b.toNat + 1 ↔ _
  omega

/-- A key extends a lead where it is not below the lead and below the bound. -/
theorem prefixUpperBound_spec : ∀ lead key : Bytes, lead <+: key ↔
    ¬key < lead ∧ ∀ bound, prefixUpperBound lead = some bound → key < bound
  | [], key => by simp [prefixUpperBound, rposition]
  | byte :: lead, [] => by simp
  | byte :: lead, first :: key => by
    have ih := prefixUpperBound_spec lead key
    rw [cons_prefix_cons, ih, cons_lt_cons_iff, prefixUpperBound_cons]
    cases prefixUpperBound lead with
    | some bound =>
      simp only [Option.some.injEq, forall_eq', cons_lt_cons_iff]
      constructor
      · rintro ⟨rfl, hlow, hhigh⟩
        exact ⟨fun hbelow => hlow (hbelow.resolve_left (UInt8.lt_irrefl _)).2, Or.inr ⟨rfl, hhigh⟩⟩
      · rintro ⟨hlow, hhigh⟩
        obtain ⟨rfl, hrest⟩ := hhigh.resolve_left fun hlt => hlow (Or.inl hlt)
        exact ⟨rfl, fun hlt => hlow (Or.inr ⟨rfl, hlt⟩), hrest⟩
    | none =>
      by_cases hbyte : byte = 0xff
      · have hmax : ¬byte < first := by
          rw [hbyte, UInt8.lt_iff_toNat_lt]
          have hlt := first.toNat_lt
          change ¬255 < first.toNat
          omega
        simp only [hbyte, if_true, reduceCtorEq, false_implies, implies_true, and_true] at hmax ⊢
        constructor
        · rintro ⟨rfl, hlow⟩ hbelow
          exact hlow (hbelow.resolve_left (UInt8.lt_irrefl _)).2
        · intro hlow
          have hfirst : (0xff : UInt8) = first := by
            rcases lt_or_eq_or_gt first 0xff with hlt | heq | hgt
            · exact absurd (Or.inl hlt) hlow
            · exact heq.symm
            · exact absurd hgt hmax
          exact ⟨hfirst, fun hlt => hlow (Or.inr ⟨hfirst.symm, hlt⟩)⟩
      · have hbound : first :: key < [byte + 1] ↔ ¬byte < first := by
          rw [cons_lt_cons_iff, lt_succ_iff hbyte]
          exact or_iff_left fun h => not_lt_nil _ h.2
        simp only [hbyte, if_false, Option.some.injEq, forall_eq', hbound, reduceCtorEq, false_implies,
          implies_true, and_true]
        constructor
        · rintro ⟨rfl, hlow⟩
          exact ⟨fun hbelow => hlow (hbelow.resolve_left (UInt8.lt_irrefl _)).2, UInt8.lt_irrefl _⟩
        · rintro ⟨hlow, hhigh⟩
          have hfirst : byte = first := by
            rcases lt_or_eq_or_gt first byte with hlt | heq | hgt
            · exact absurd (Or.inl hlt) hlow
            · exact heq.symm
            · exact absurd hgt hhigh
          exact ⟨hfirst, fun hlt => hlow (Or.inr ⟨hfirst.symm, hlt⟩)⟩

/-! ## The walks -/

section Walk

variable {σ : Type}

/-- Visits records until the visitor stops. -/
def visitRecords (visit : σ → Bytes → Bytes → Except DictError (σ × Bool)) :
    List (Bytes × Bytes) → σ → Except DictError σ
  | [], state => .ok state
  | record :: rest, state =>
    (visit state record.1 record.2).bind fun reached =>
      if reached.2 then .ok reached.1 else visitRecords visit rest reached.1

/-- Visits the records from one key on and below another, in order. -/
def walk (dbm : SortedMap Bytes Bytes) (low : Bytes) (high : Option Bytes)
    (visit : σ → Bytes → Bytes → Except DictError (σ × Bool)) (state : σ) : Except DictError σ :=
  visitRecords visit (dbm.entries.filter fun record =>
    !decide (record.1 < low) && high.all fun high => decide (record.1 < high)) state

/-- The most words a key of the index holds. -/
def maxIndexKeyWords : Nat := 16

namespace ChewingTable

variable (dbm : SortedMap Bytes Bytes) (keys : List ChewingKey)
  (visit : σ → Nat → List PinyinIndexItem → Except DictError (σ × Bool)) (state : σ)

/-- Visits the items of every record that extends the key of a query, and says whether the visitor
stopped. -/
def walkExtensions : Except DictError (σ × Bool) :=
  if keys.isEmpty then .ok (state, false)
  else
    let encoded := indexKey keys
    walk dbm encoded (prefixUpperBound encoded) (fun reached key value =>
      if value.isEmpty ∨ key.length % 2 ≠ 0 then .ok (reached, false)
      else
        let phraseLength := key.length / 2
        (decodeItems value phraseLength).bind fun items =>
          (visit reached.1 phraseLength items).map fun visited => (visited, visited.2)) (state, false)

/-- Whether a record that extends the key of a query has a key of too many words. -/
def hasOverlongExtension : Except DictError Bool :=
  if keys.isEmpty then .ok false
  else
    let encoded := indexKey keys
    walk dbm encoded (prefixUpperBound encoded) (fun _ key _ =>
      let found := decide (maxIndexKeyWords < key.length / 2)
      .ok (found, found)) false

/-- Visits the items of every record that extends the key of a query, when there is a record of that
key, and says whether a key of too many words stopped it. -/
def walkSuggestions : Except DictError (σ × Bool) :=
  if !keyExists dbm keys then .ok (state, false)
  else
    let encoded := indexKey keys
    walk dbm encoded (prefixUpperBound encoded) (fun reached key value =>
      let overlong := decide (maxIndexKeyWords < key.length / 2)
      if overlong then .ok ((reached.1, overlong), true)
      else if value.isEmpty ∨ key.length % 2 ≠ 0 then .ok ((reached.1, overlong), false)
      else
        let length := key.length / 2
        (decodeItems value length).bind fun items =>
          (visit reached.1 length items).map fun visited => ((visited.1, overlong), visited.2)) (state, false)

end ChewingTable

/-- The records of a table that extend a key and are not empty. -/
def extensions (dbm : SortedMap Bytes Bytes) (lead : Bytes) : List (Bytes × Bytes) :=
  dbm.entries.filter fun record => lead.isPrefixOf record.1 && !record.2.isEmpty

/-- The items a walk hands over of a record. -/
def handed (record : Bytes × Bytes) : List PinyinIndexItem :=
  (decodeItems record.2 (record.1.length / 2)).toOption.getD []

/-- The range from a key to its bound is that of its extensions. -/
theorem range_eq_extensions (dbm : SortedMap Bytes Bytes) (lead : Bytes) :
    (dbm.entries.filter fun record =>
      !decide (record.1 < lead) && (prefixUpperBound lead).all fun high => decide (record.1 < high)) =
      dbm.entries.filter fun record => lead.isPrefixOf record.1 := by
  refine filter_congr fun record _ => ?_
  rw [Bool.eq_iff_iff, isPrefixOf_iff_prefix, prefixUpperBound_spec, Bool.and_eq_true, Bool.not_eq_true',
    decide_eq_false_iff_not, Option.all_eq_true]
  simp only [decide_eq_true_eq]

variable {records : List (Bytes × Bytes)}

/-- A walk whose visitor skips the empty records and never stops. -/
theorem visitRecords_handed {visit : σ × Bool → Bytes → Bytes → Except DictError ((σ × Bool) × Bool)}
    {hand : σ → Bytes × Bytes → σ}
    (hvisit : ∀ record ∈ records, ∀ state, visit (state, false) record.1 record.2 =
      .ok ((if record.2.isEmpty then state else hand state record, false), false)) : ∀ state,
    visitRecords visit records (state, false) =
      .ok ((records.filter fun record => !record.2.isEmpty).foldl hand state, false) := by
  induction records with
  | nil => exact fun state => rfl
  | cons record records ih =>
    intro state
    obtain ⟨hhead, hrest⟩ := forall_mem_cons.mp hvisit
    rw [visitRecords, hhead]
    dsimp only [Except.bind]
    rw [if_neg Bool.false_ne_true, ih hrest]
    cases hempty : record.2.isEmpty with
    | true => simp [hempty]
    | false => simp [hempty]

/-- A walk whose visitor keeps its state and never stops. -/
theorem visitRecords_still {visit : σ → Bytes → Bytes → Except DictError (σ × Bool)} {state : σ}
    (hvisit : ∀ record ∈ records, visit state record.1 record.2 = .ok (state, false)) :
    visitRecords visit records state = .ok state := by
  induction records with
  | nil => rfl
  | cons record records ih =>
    obtain ⟨hhead, hrest⟩ := forall_mem_cons.mp hvisit
    rw [visitRecords, hhead]
    exact ih hrest

end Walk

/-! ## Key spaces -/

section Spaces

variable {rows : List PinyinIndexItem} {query : List ChewingKey}

/-- The key of keys in the space of a query. -/
def spaceKey (query keys : List ChewingKey) : Bytes :=
  if containsIncomplete query then encodeIncompleteKey keys else encodeCompleteKey keys

theorem take_spaceKey (query keys : List ChewingKey) (n : Nat) :
    (spaceKey query keys).take (2 * n) = spaceKey query (keys.take n) := by
  rw [spaceKey, spaceKey]
  split_ifs
  · exact take_encodeIncompleteKey keys n
  · exact take_encodeCompleteKey keys n

variable {stored : List ChewingKey}

theorem prefixKeysMatch_iff : prefixKeysMatch query stored = true ↔
    query.length ≤ stored.length ∧ Matching query (stored.take query.length) := by
  rw [prefixKeysMatch, matching_iff]
  by_cases hshort : stored.length < query.length
  · simp [hshort]
  · have hle : query.length ≤ stored.length := Nat.le_of_not_lt hshort
    have hzip : query.zip stored = query.zip (stored.take query.length) := by
      rw [zip_eq_zip_take_min, Nat.min_eq_left hle, take_length]
    rw [if_neg hshort, ← hzip, length_take, Nat.min_eq_left hle]
    exact ⟨fun h => ⟨hle, rfl, h⟩, fun h => h.2.2⟩

/-- Keys that begin with a query begin with its key in its space. -/
theorem take_spaceKey_of_match (hstored : ∀ key ∈ stored, ¬key.InitialOnly)
    (h : prefixKeysMatch query stored = true) : spaceKey query (stored.take query.length) = indexKey query := by
  obtain ⟨_, hmatch⟩ := prefixKeysMatch_iff.mp h
  rw [spaceKey, indexKey]
  by_cases hincomplete : containsIncomplete query = true
  · rw [if_pos hincomplete, if_pos hincomplete]
    exact encodeIncompleteKey_congr hmatch.initials
  · rw [if_neg hincomplete, if_neg hincomplete, encodeCompleteKey_eq, encodeCompleteKey_eq, hmatch.tonelesses]
    · exact fun key hkey honly => hincomplete (containsIncomplete_iff.mpr ⟨key, hkey, honly⟩)
    · exact fun key hkey => hstored key (mem_of_mem_take hkey)

/-- The two keys of complete keys have no lead in common. -/
theorem not_extends_both {keys : List ChewingKey} (hkeys : ∀ key ∈ keys, key.Fits ∧ ¬key.InitialOnly) {lead : Bytes}
    (hlead : lead.length = 2 * query.length) (hquery : query ≠ []) (hincomplete : lead <+: encodeIncompleteKey keys)
    (hcomplete : lead <+: encodeCompleteKey keys) : False := by
  have hpos := length_pos_iff.mpr hquery
  have hle := hcomplete.length_le
  rw [hlead, length_encodeCompleteKey] at hle
  have hinitials := prefix_iff_eq_take.mp hincomplete
  have hrhymes := prefix_iff_eq_take.mp hcomplete
  rw [hlead, take_encodeIncompleteKey] at hinitials
  rw [hlead, take_encodeCompleteKey, hinitials] at hrhymes
  have hfits : ∀ key ∈ keys.take query.length, key.Fits := fun key hkey => (hkeys key (mem_of_mem_take hkey)).1
  obtain ⟨key, hkey⟩ := exists_mem_of_length_pos (l := keys.take query.length) (by rw [length_take]; omega)
  exact (hkeys key (mem_of_mem_take hkey)).2 (initialOnly_of_encode_eq hfits hfits hrhymes key hkey)

/-- Among the items under a key that extends a query's, those that begin with the query. -/
theorem filter_under (hrows : ∀ row ∈ rows, ∀ key ∈ row.keys, key.Fits ∧ ¬key.InitialOnly) (hquery : query ≠ [])
    {key : Bytes} (hkey : indexKey query <+: key) :
    (((mergedSpaces rows).get? key).getD []).filter (fun row => prefixKeysMatch query row.keys) =
      (rows.filter fun row => prefixKeysMatch query row.keys).filter fun row => spaceKey query row.keys = key := by
  -- an item that begins with the query is not under a key of the other space
  have hother : ∀ row ∈ rows, prefixKeysMatch query row.keys = true →
      (if containsIncomplete query then encodeCompleteKey row.keys else encodeIncompleteKey row.keys) ≠ key := by
    rintro row hrow hmatch rfl
    have hspace : indexKey query <+: spaceKey query row.keys := by
      rw [← take_spaceKey_of_match (fun key hkey => (hrows row hrow key hkey).2) hmatch, ← take_spaceKey]
      exact take_prefix _ _
    rw [spaceKey] at hspace
    by_cases hincomplete : containsIncomplete query = true
    · rw [if_pos hincomplete] at hkey hspace
      exact not_extends_both (hrows row hrow) (length_indexKey query) hquery hspace hkey
    · rw [if_neg hincomplete] at hkey hspace
      exact not_extends_both (hrows row hrow) (length_indexKey query) hquery hkey hspace
  rw [getD_mergedSpaces, filter_append]
  by_cases hincomplete : containsIncomplete query = true
  · simp only [hincomplete, if_true] at hother
    have hnone : (rows.filter fun row => encodeCompleteKey row.keys = key).filter
        (fun row => prefixKeysMatch query row.keys) = [] := by
      refine filter_eq_nil_iff.mpr fun row hrow hmatch => ?_
      obtain ⟨hin, hunder⟩ := mem_filter.mp hrow
      exact hother row hin hmatch (of_decide_eq_true hunder)
    rw [hnone, append_nil, filter_comm]
    simp only [spaceKey, hincomplete, if_true]
  · simp only [hincomplete, Bool.false_eq_true, if_false] at hother
    have hnone : (rows.filter fun row => encodeIncompleteKey row.keys = key).filter
        (fun row => prefixKeysMatch query row.keys) = [] := by
      refine filter_eq_nil_iff.mpr fun row hrow hmatch => ?_
      obtain ⟨hin, hunder⟩ := mem_filter.mp hrow
      exact hother row hin hmatch (of_decide_eq_true hunder)
    rw [hnone, nil_append, filter_comm]
    simp only [spaceKey, hincomplete, Bool.false_eq_true, if_false]

/-- Elements grouped by a key are all those with one of the keys. -/
theorem flatMap_filter_perm {α κ : Type} [DecidableEq κ] (f : α → κ) (l : List α) : ∀ {keys : List κ}, keys.Nodup →
    (keys.flatMap fun key => l.filter fun x => f x = key).Perm (l.filter fun x => f x ∈ keys)
  | [], _ => by simp
  | key :: keys, hkeys => by
    obtain ⟨hnotin, hkeys⟩ := nodup_cons.mp hkeys
    have ih := flatMap_filter_perm f l hkeys
    have hhead : l.filter (fun x => f x = key) =
        (l.filter fun x => f x ∈ key :: keys).filter fun x => f x = key := by
      rw [filter_filter]
      refine filter_congr fun x _ => ?_
      by_cases hx : f x = key
      · simp [hx]
      · simp [hx]
    have hrest : l.filter (fun x => f x ∈ keys) =
        (l.filter fun x => f x ∈ key :: keys).filter fun x => !decide (f x = key) := by
      rw [filter_filter]
      refine filter_congr fun x _ => ?_
      by_cases hx : f x = key
      · simp [hx, hnotin]
      · simp [hx]
    rw [flatMap_cons, hhead]
    refine (ih.append_left _).trans ?_
    rw [hrest]
    exact filter_append_perm _ _

end Spaces

/-! ## What is handed over -/

section Handed

variable {rows : List PinyinIndexItem} {query : List ChewingKey}

theorem mem_buildDbm_iff (rows : List PinyinIndexItem) (key value : Bytes) :
    (key, value) ∈ (buildDbm rows).entries ↔
      ∃ items, (mergedSpaces rows).get? key = some items ∧ writeRow items = value := by
  rw [(buildDbm rows).lists.mem, get?_buildDbm, Option.map_eq_some_iff]

/-- The keys of the table have whole words, and no more than the items have keys. -/
theorem length_of_mem_buildDbm (hrows : ∀ row ∈ rows, row.keys.length ≤ 16) {record : Bytes × Bytes}
    (h : record ∈ (buildDbm rows).entries) : ∃ n, n ≤ 16 ∧ record.1.length = 2 * n := by
  obtain ⟨items, hitems, _⟩ := (mem_buildDbm_iff rows record.1 record.2).mp h
  obtain ⟨row, hrow, n, _, hn, hkey⟩ := (isSome_mergedSpaces_iff rows record.1).mp (by rw [hitems]; rfl)
  refine ⟨n, Nat.le_trans hn (hrows row hrow), ?_⟩
  rcases hkey with hkey | hkey
  · rw [hkey, take_encodeIncompleteKey, length_encodeIncompleteKey, length_take, Nat.min_eq_left hn]
  · rw [hkey, take_encodeCompleteKey, length_encodeCompleteKey, length_take, Nat.min_eq_left hn]

/-- A record of the table is read as the items under its key. -/
theorem decodeItems_of_mem_buildDbm (hfits : ∀ row ∈ rows, ∀ key ∈ row.keys, key.Fits) {record : Bytes × Bytes}
    (h : record ∈ (buildDbm rows).entries) {n : Nat} (hlength : record.1.length = 2 * n) (hn : n ≠ 0) :
    decodeItems record.2 n = .ok (handed record) ∧
      (handed record).Perm (((mergedSpaces rows).get? record.1).getD []) := by
  obtain ⟨items, hitems, hvalue⟩ := (mem_buildDbm_iff rows record.1 record.2).mp h
  have hread := decodeItems_writeRow hfits hlength hn hitems
  have hhalf : record.1.length / 2 = n := by omega
  rw [handed, hhalf, ← hvalue, hread, hitems]
  exact ⟨rfl, mergeSort_perm items _⟩

/-- A record that extends a query's key has the query's key as a lead. -/
theorem keyExists_of_extends {record : Bytes × Bytes} (h : record ∈ (buildDbm rows).entries)
    (hquery : query ≠ []) (hextends : indexKey query <+: record.1) :
    keyExists (buildDbm rows) query = true := by
  have hpos := length_pos_iff.mpr hquery
  obtain ⟨items, hitems, _⟩ := (mem_buildDbm_iff rows record.1 record.2).mp h
  obtain ⟨row, hrow, n, _, hn, hkey⟩ := (isSome_mergedSpaces_iff rows record.1).mp (by rw [hitems]; rfl)
  have hlead := prefix_iff_eq_take.mp hextends
  have hle := hextends.length_le
  rw [length_indexKey] at hlead hle
  rw [keyExists, if_neg fun hempty => hquery (List.isEmpty_iff.mp hempty), get?_buildDbm, Option.isSome_map,
    isSome_mergedSpaces_iff]
  refine ⟨row, hrow, query.length, Or.inl hpos, ?_, ?_⟩
  · rcases hkey with hkey | hkey
    · rw [hkey, length_take, length_encodeIncompleteKey] at hle
      omega
    · rw [hkey, length_take, length_encodeCompleteKey] at hle
      omega
  · rcases hkey with hkey | hkey
    · rw [hkey, length_take] at hle
      rw [hkey, take_take, Nat.min_eq_left (by omega)] at hlead
      exact Or.inl hlead
    · rw [hkey, length_take] at hle
      rw [hkey, take_take, Nat.min_eq_left (by omega)] at hlead
      exact Or.inr hlead

variable {record : Bytes × Bytes}

/-- A record in the range of a query has a key of whole words, between one and the most. -/
theorem length_of_mem_range (hrows : ∀ row ∈ rows, row.keys.length ≤ 16) (hquery : query ≠ [])
    (h : record ∈ (buildDbm rows).entries.filter fun record => (indexKey query).isPrefixOf record.1) :
    ∃ n, n ≠ 0 ∧ n ≤ 16 ∧ record.1.length = 2 * n := by
  obtain ⟨hentry, hextends⟩ := mem_filter.mp h
  obtain ⟨n, hn, hlength⟩ := length_of_mem_buildDbm hrows hentry
  have hpos := length_pos_iff.mpr hquery
  have hle := (List.isPrefixOf_iff_prefix.mp hextends).length_le
  rw [length_indexKey] at hle
  exact ⟨n, by omega, hn, hlength⟩

theorem mem_extensions_iff (dbm : SortedMap Bytes Bytes) (lead : Bytes) :
    record ∈ extensions dbm lead ↔
      record ∈ (dbm.entries.filter fun record => lead.isPrefixOf record.1) ∧ record.2.isEmpty = false := by
  rw [extensions, mem_filter, mem_filter, Bool.and_eq_true, Bool.not_eq_true', and_assoc]

theorem extensions_eq (dbm : SortedMap Bytes Bytes) (lead : Bytes) :
    ((dbm.entries.filter fun record => lead.isPrefixOf record.1).filter fun record => !record.2.isEmpty) =
      extensions dbm lead := by
  rw [extensions, filter_filter]
  exact filter_congr fun record _ => Bool.and_comm _ _

variable (hrows : ∀ row ∈ rows, row.keys.length ≤ 16 ∧ ∀ key ∈ row.keys, key.Fits ∧ ¬key.InitialOnly)
  (hquery : query ≠ [])

include hrows hquery

theorem decodeItems_of_mem_range
    (h : record ∈ (buildDbm rows).entries.filter fun record => (indexKey query).isPrefixOf record.1) :
    decodeItems record.2 (record.1.length / 2) = .ok (handed record) ∧
      (handed record).Perm (((mergedSpaces rows).get? record.1).getD []) := by
  obtain ⟨n, hn, _, hlength⟩ := length_of_mem_range (fun row hrow => (hrows row hrow).1) hquery h
  have hhalf : record.1.length / 2 = n := by omega
  rw [hhalf]
  exact decodeItems_of_mem_buildDbm (fun row hrow key hkey => ((hrows row hrow).2 key hkey).1)
    (mem_filter.mp h).1 hlength hn

section Visitor

variable {σ : Type} (hand : σ → Nat → List PinyinIndexItem → σ) (state : σ)

theorem walkExtensions_eq :
    walkExtensions (buildDbm rows) query (fun state n items => .ok (hand state n items, false)) state =
      .ok ((extensions (buildDbm rows) (indexKey query)).foldl
        (fun state record => hand state (record.1.length / 2) (handed record)) state, false) := by
  rw [walkExtensions, if_neg fun hempty => hquery (List.isEmpty_iff.mp hempty)]
  dsimp only
  rw [walk, range_eq_extensions, ← extensions_eq]
  refine visitRecords_handed (fun record hrecord state => ?_) state
  obtain ⟨n, _, _, hlength⟩ := length_of_mem_range (fun row hrow => (hrows row hrow).1) hquery hrecord
  have heven : record.1.length % 2 = 0 := by omega
  cases hempty : record.2.isEmpty with
  | true => simp
  | false => simp [heven, (decodeItems_of_mem_range hrows hquery hrecord).1, Except.bind, Except.map]

/-- The walk hands over every extension. -/
theorem walkSuggestions_eq :
    walkSuggestions (buildDbm rows) query (fun state n items => .ok (hand state n items, false)) state =
      .ok ((extensions (buildDbm rows) (indexKey query)).foldl
        (fun state record => hand state (record.1.length / 2) (handed record)) state, false) := by
  rw [walkSuggestions]
  by_cases hexists : keyExists (buildDbm rows) query = true
  · rw [hexists, Bool.not_true, if_neg Bool.false_ne_true]
    dsimp only
    rw [walk, range_eq_extensions, ← extensions_eq]
    refine visitRecords_handed (fun record hrecord state => ?_) state
    obtain ⟨n, _, hn, hlength⟩ := length_of_mem_range (fun row hrow => (hrows row hrow).1) hquery hrecord
    have heven : record.1.length % 2 = 0 := by omega
    have hwords : ¬maxIndexKeyWords < record.1.length / 2 := by
      rw [maxIndexKeyWords]
      omega
    cases hempty : record.2.isEmpty with
    | true => simp [hwords]
    | false => simp [hwords, heven, (decodeItems_of_mem_range hrows hquery hrecord).1, Except.bind, Except.map]
  · -- without a record of the query's key none extends it
    have hnone : extensions (buildDbm rows) (indexKey query) = [] := by
      refine eq_nil_iff_forall_not_mem.mpr fun record hrecord => hexists ?_
      obtain ⟨hentry, hextends⟩ := mem_filter.mp ((mem_extensions_iff _ _).mp hrecord).1
      exact keyExists_of_extends hentry hquery (List.isPrefixOf_iff_prefix.mp hextends)
    rw [Bool.not_eq_true] at hexists
    rw [hexists, hnone, Bool.not_false, if_pos rfl]
    rfl

end Visitor

theorem hasOverlongExtension_eq : hasOverlongExtension (buildDbm rows) query = .ok false := by
  rw [hasOverlongExtension, if_neg fun hempty => hquery (List.isEmpty_iff.mp hempty)]
  dsimp only
  rw [walk, range_eq_extensions]
  refine visitRecords_still fun record hrecord => ?_
  obtain ⟨n, _, hn, hlength⟩ := length_of_mem_range (fun row hrow => (hrows row hrow).1) hquery hrecord
  have hwords : ¬maxIndexKeyWords < record.1.length / 2 := by
    rw [maxIndexKeyWords]
    omega
  rw [decide_eq_false hwords]

/-- The items handed over that begin with the query are those of the table that do, each once. -/
theorem filter_handed_perm :
    (((extensions (buildDbm rows) (indexKey query)).flatMap handed).filter fun item =>
      prefixKeysMatch query item.keys).Perm (rows.filter fun row => prefixKeysMatch query row.keys) := by
  have hcomplete : ∀ row ∈ rows, ∀ key ∈ row.keys, key.Fits ∧ ¬key.InitialOnly := fun row hrow => (hrows row hrow).2
  have hascending : ((extensions (buildDbm rows) (indexKey query)).map Prod.fst).Nodup :=
    pairwise_map.mpr (((buildDbm rows).ascending.filter _).imp fun hab => FiniteMap.ne_of_lt hab)
  have hgroups : (((extensions (buildDbm rows) (indexKey query)).flatMap handed).filter fun item =>
      prefixKeysMatch query item.keys).Perm
      (((extensions (buildDbm rows) (indexKey query)).map Prod.fst).flatMap fun key =>
        (rows.filter fun row => prefixKeysMatch query row.keys).filter fun row => spaceKey query row.keys = key) := by
    rw [filter_flatMap, flatMap_map]
    refine Perm.flatMap_left _ fun record hrecord => ?_
    have hrange := ((mem_extensions_iff _ _).mp hrecord).1
    have hextends := isPrefixOf_iff_prefix.mp (mem_filter.mp hrange).2
    rw [← filter_under hcomplete hquery hextends]
    exact (decodeItems_of_mem_range hrows hquery hrange).2.filter _
  refine hgroups.trans ((flatMap_filter_perm (fun row : PinyinIndexItem =>
    spaceKey query row.keys) _ hascending).trans ?_)
  refine Perm.of_eq (filter_eq_self.mpr fun row hrow => ?_)
  simp only [decide_eq_true_eq]
  -- the record of a row that begins with the query is walked
  obtain ⟨hin, hmatch⟩ := mem_filter.mp hrow
  have hextends : indexKey query <+: spaceKey query row.keys := by
    rw [← take_spaceKey_of_match (fun key hkey => (hcomplete row hin key hkey).2) hmatch, ← take_spaceKey]
    exact take_prefix _ _
  have hunder : row ∈ (((mergedSpaces rows).get? (spaceKey query row.keys)).getD []).filter
      (fun row => prefixKeysMatch query row.keys) := by
    rw [filter_under hcomplete hquery hextends]
    exact mem_filter.mpr ⟨hrow, decide_eq_true rfl⟩
  cases hitems : (mergedSpaces rows).get? (spaceKey query row.keys) with
  | none =>
    rw [hitems] at hunder
    cases hunder
  | some items =>
    rw [hitems] at hunder
    refine mem_map.mpr ⟨(spaceKey query row.keys, writeRow items), (mem_extensions_iff _ _).mpr ⟨?_, ?_⟩, rfl⟩
    · exact mem_filter.mpr ⟨(mem_buildDbm_iff rows _ _).mpr ⟨items, hitems, rfl⟩, isPrefixOf_iff_prefix.mpr hextends⟩
    · refine Bool.not_eq_true _ ▸ fun hempty => ?_
      rw [writeRow_eq_nil hempty] at hunder
      cases hunder

end Handed

/-- A key extends a lead where it is in the range up to the lead's bound. Over a table built from items
with complete keys, the walks of a query hand over the records that are not empty and extend its key,
each once, in ascending order. None is overlong, and the items handed over that begin with the query
are those of the table that do. -/
theorem walkSuggestions_spec {rows : List PinyinIndexItem}
    (hrows : ∀ row ∈ rows, row.keys.length ≤ 16 ∧ ∀ key ∈ row.keys, key.Fits ∧ ¬key.InitialOnly)
    {query : List ChewingKey} (hquery : query ≠ []) :
    (∀ lead key : Bytes, lead <+: key ↔ ¬key < lead ∧ ∀ bound, prefixUpperBound lead = some bound → key < bound) ∧
      ((extensions (buildDbm rows) (indexKey query)).Pairwise fun a b => a.1 < b.1) ∧
      (∀ key value, (key, value) ∈ extensions (buildDbm rows) (indexKey query) ↔
        (buildDbm rows).get? key = some value ∧ indexKey query <+: key ∧ value ≠ []) ∧
      (∀ record ∈ extensions (buildDbm rows) (indexKey query),
        decodeItems record.2 (record.1.length / 2) = .ok (handed record)) ∧
      (∀ {σ : Type} (hand : σ → Nat → List PinyinIndexItem → σ) (state : σ),
        ChewingTable.walkExtensions (buildDbm rows) query (fun state n items =>
          .ok (hand state n items, false)) state =
            .ok ((extensions (buildDbm rows) (indexKey query)).foldl
              (fun state record => hand state (record.1.length / 2) (handed record)) state, false) ∧
          ChewingTable.walkSuggestions (buildDbm rows) query (fun state n items =>
            .ok (hand state n items, false)) state =
            .ok ((extensions (buildDbm rows) (indexKey query)).foldl
              (fun state record => hand state (record.1.length / 2) (handed record)) state, false)) ∧
      ChewingTable.hasOverlongExtension (buildDbm rows) query = .ok false ∧
      (((extensions (buildDbm rows) (indexKey query)).flatMap handed).filter fun item =>
        prefixKeysMatch query item.keys).Perm (rows.filter fun row => prefixKeysMatch query row.keys) := by
  refine ⟨prefixUpperBound_spec, (buildDbm rows).ascending.filter _, fun key value => ?_, fun record hrecord => ?_,
    fun hand state => ⟨walkExtensions_eq hrows hquery hand state, walkSuggestions_eq hrows hquery hand state⟩,
    hasOverlongExtension_eq hrows hquery, filter_handed_perm hrows hquery⟩
  · rw [mem_extensions_iff, mem_filter, (buildDbm rows).lists.mem, isPrefixOf_iff_prefix,
      isEmpty_eq_false_iff, and_assoc]
  · exact (decodeItems_of_mem_range hrows hquery ((mem_extensions_iff _ _).mp hrecord).1).1

/-- Of two items one begins with the initials asked for. -/
theorem walkSuggestions_niHao :
    (((extensions (buildDbm [⟨7, [⟨11, 1, 0, 3⟩, ⟨6, 0, 5, 0⟩]⟩, ⟨8, [⟨6, 0, 5, 0⟩]⟩])
      (indexKey [⟨11, 0, 0, 0⟩])).flatMap
      handed).filter fun item => prefixKeysMatch [⟨11, 0, 0, 0⟩] item.keys).Perm
        [⟨7, [⟨11, 1, 0, 3⟩, ⟨6, 0, 5, 0⟩]⟩] :=
  (@walkSuggestions_spec [⟨7, [⟨11, 1, 0, 3⟩, ⟨6, 0, 5, 0⟩]⟩, ⟨8, [⟨6, 0, 5, 0⟩]⟩] (by decide) [⟨11, 0, 0, 0⟩]
    (by decide)).2.2.2.2.2.2

end Oxpinyin
