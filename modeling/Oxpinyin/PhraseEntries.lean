import Oxpinyin.TextLookup

/-!
# Building the phrase index

`phraseIndexEntries` builds the rows of a phrase index from phrases with their tokens in one pass :
each phrase marks all its leads, and a token is put at its place. The phrase table adds one row at a
time, and marks the leads of a new phrase up to the first that is there. What either holds depends
on which rows were given and on nothing else (`PhraseRecords.unique`), so both hold the same
(`phraseIndexEntries_spec`).
-/

namespace Oxpinyin

open List Option LittleEndian FiniteMap Search SortedMap PhraseTableEntry RecordTable

/-- A phrase with one of its tokens. -/
abbrev PhraseRow := List (BitVec 32) × BitVec 32

/-- The tokens of a record. -/
def encodeTokens (tokens : List (BitVec 32)) : Bytes := tokens.flatMap le32

/-- Puts a token where the search of it ends, unless it is there. -/
def insertToken (tokens : List (BitVec 32)) (token : BitVec 32) : List (BitVec 32) :=
  match binarySearchBy (fun existing => compareOfLessAndEq existing token) tokens with
  | .ok _ => tokens
  | .error position => insertAt tokens position [token]

/-- Tokens under each key. -/
abbrev TokenMap := SortedMap Bytes (List (BitVec 32))

/-- One row : markers for the proper leads of its phrase, and its token. -/
def TokenMap.addRow (map : TokenMap) (row : PhraseRow) : TokenMap :=
  let key := encodeUcs4KeyScalars row.1
  let marked := (List.range' 1 (row.1.length - 1)).foldl
    (fun map lead => SortedMap.orInsert map (key.take (4 * lead)) []) map
  let entered := SortedMap.orInsert marked key []
  SortedMap.insert entered key (insertToken ((SortedMap.get? entered key).getD []) row.2)

/-- The rows of a phrase index, by ascending key. -/
def phraseIndexEntries (rows : List PhraseRow) : List (Bytes × Bytes) :=
  (rows.foldl TokenMap.addRow .empty).entries.map fun entry => (entry.1, encodeTokens entry.2)

/-- The phrase table the rows are added to, one by one, from the empty one on. -/
def UserPhraseTable.addRows (rows : List PhraseRow) : Except StoreError UserPhraseTable :=
  rows.foldlM (fun phrases row =>
    let added := phrases.add row.1 row.2
    added.2.map fun _ => added.1) ⟨.empty⟩

/-! ## Keys and tokens -/

variable {a b : List (BitVec 32)}

theorem take_keyUcs4 : ∀ (words : List (BitVec 32)) (n : Nat), (keyUcs4 words).take (4 * n) = keyUcs4 (words.take n)
  | [], n => by simp [keyUcs4]
  | word :: words, 0 => by simp [keyUcs4]
  | word :: words, n + 1 => by
    have hrest := take_keyUcs4 words n
    rw [keyUcs4] at hrest ⊢
    rw [flatMap_cons, Nat.mul_succ, Nat.add_comm, ← length_le32 word, take_length_add_append,
      length_le32, hrest, take_succ_cons, keyUcs4, keyUcs4, flatMap_cons]

theorem length_keyUcs4 (words : List (BitVec 32)) : (keyUcs4 words).length = 4 * words.length := by
  rw [keyUcs4, length_flatMap_le32, Nat.mul_comm]

theorem keyUcs4_injective (h : keyUcs4 a = keyUcs4 b) : a = b := by
  rw [← map_word32_chunks a, ← map_word32_chunks b]
  exact congrArg (fun bytes => (chunks 4 bytes).map word32) h

theorem encodeTokens_injective (h : encodeTokens a = encodeTokens b) : a = b :=
  keyUcs4_injective h

section Tokens

variable {tokens front back : List (BitVec 32)} {equal : Option (BitVec 32)} {token : BitVec 32}

/-- A token cuts ascending tokens : those below it, itself if it is there, and those above. -/
theorem exists_around (h : tokens.Pairwise (· < ·)) (token : BitVec 32) :
    ∃ (front : List (BitVec 32)) (equal : Option (BitVec 32)) (back : List (BitVec 32)),
      tokens = front ++ equal.toList ++ back ∧ (∀ x ∈ front, x < token) ∧ (∀ x ∈ equal, x = token) ∧
        ∀ x ∈ back, token < x := by
  induction tokens with
  | nil => exact ⟨[], none, [], rfl, by simp, by simp, by simp⟩
  | cons x rest ih =>
    obtain ⟨habove, hrest⟩ := pairwise_cons.mp h
    rcases lt_or_eq_or_gt x token with hlt | rfl | hgt
    · obtain ⟨front, equal, back, rfl, hfront, hequal, hback⟩ := ih hrest
      exact ⟨x :: front, equal, back, by simp, forall_mem_cons.mpr ⟨hlt, hfront⟩, hequal, hback⟩
    · exact ⟨[], some x, rest, rfl, by simp, by simp, habove⟩
    · exact ⟨[], none, x :: rest, rfl, by simp, by simp,
        forall_mem_cons.mpr ⟨hgt, fun y hy => Trans.trans hgt (habove y hy)⟩⟩

section

variable (hfront : ∀ x ∈ front, x < token)
include hfront

theorem insertToken_eq (hequal : ∀ x ∈ equal, x = token) (hback : ∀ x ∈ back, token < x) :
    insertToken (front ++ equal.toList ++ back) token = front ++ token :: back := by
  have hsearch := @binarySearchBy_spec _ (fun existing => compareOfLessAndEq existing token) front equal back
    (fun x hx => if_pos (hfront x hx))
    (fun x hx => by simp [compareOfLessAndEq, hequal x hx])
    (fun x hx => by
      have hge : ¬x < token := lt_asymm (hback x hx)
      simp [compareOfLessAndEq, hge, (ne_of_lt (hback x hx)).symm])
  rw [insertToken, hsearch]
  cases equal with
  | none => simp [insertAt]
  | some x => simp [hequal x rfl]

theorem addOffset_append : ∀ index : Nat,
    addOffset token (front ++ back) index =
      addOffset token back (index + front.length) := by
  induction front with
  | nil => exact fun index => rfl
  | cons x front ih =>
    intro index
    obtain ⟨hx, hfront⟩ := forall_mem_cons.mp hfront
    have hne : x ≠ token := ne_of_lt hx
    have hge : ¬token < x := lt_asymm hx
    rw [cons_append, addOffset, if_neg hne, if_neg hge, ih hfront, length_cons]
    congr 1
    omega

/-- A token is added in its place. -/
theorem bytes_addIndex_eq (hequal : ∀ x ∈ equal, x = token) (hback : ∀ x ∈ back, token < x) :
    (addIndex ⟨encodeTokens (front ++ equal.toList ++ back)⟩ token).1.bytes =
      encodeTokens (front ++ token :: back) := by
  have hread : tokens ⟨encodeTokens (front ++ equal.toList ++ back)⟩ =
      front ++ (equal.toList ++ back) := by
    rw [tokens, encodeTokens, map_word32_chunks, append_assoc]
  rw [addIndex, hread, addOffset_append hfront]
  cases equal with
  | some x =>
    obtain rfl : x = token := hequal x rfl
    simp [addOffset]
  | none =>
    -- the token goes to the end, or before the first greater one
    have hput : insertAt (encodeTokens (front ++ back)) (front.length * 4) (le32 token) =
        encodeTokens (front ++ token :: back) := by
      rw [encodeTokens, encodeTokens, flatMap_append, flatMap_append, flatMap_cons,
        ← length_flatMap_le32, insertAt_append, append_assoc]
    cases back with
    | nil =>
      have hstop : (encodeTokens front).length = front.length * 4 := length_flatMap_le32 front
      rw [append_nil] at hput
      simpa [addOffset, hstop] using hput
    | cons x back =>
      have hx := hback x mem_cons_self
      have hne : x ≠ token := (ne_of_lt hx).symm
      simpa [addOffset, hne, hx] using hput

end

section

variable (h : tokens.Pairwise (· < ·))
include h

/-- The two builders put a token at the same place of ascending tokens. -/
theorem bytes_addIndex (token : BitVec 32) :
    (addIndex ⟨encodeTokens tokens⟩ token).1.bytes = encodeTokens (insertToken tokens token) := by
  obtain ⟨front, equal, back, rfl, hfront, hequal, hback⟩ := exists_around h token
  rw [bytes_addIndex_eq hfront hequal hback, insertToken_eq hfront hequal hback]

theorem pairwise_insertToken (token : BitVec 32) :
    (insertToken tokens token).Pairwise (· < ·) := by
  obtain ⟨front, equal, back, rfl, hfront, hequal, hback⟩ := exists_around h token
  rw [insertToken_eq hfront hequal hback]
  obtain ⟨hfrontEqual, hbackPairs, _⟩ := pairwise_append.mp h
  refine pairwise_append.mpr ⟨(pairwise_append.mp hfrontEqual).1,
    pairwise_cons.mpr ⟨hback, hbackPairs⟩, fun a ha b hb => ?_⟩
  rcases mem_cons.mp hb with rfl | hb
  · exact hfront a ha
  · exact Trans.trans (hfront a ha) (hback b hb)

theorem mem_insertToken {token x : BitVec 32} :
    x ∈ insertToken tokens token ↔ x ∈ tokens ∨ x = token := by
  obtain ⟨front, equal, back, rfl, hfront, hequal, hback⟩ := exists_around h token
  rw [insertToken_eq hfront hequal hback]
  cases equal with
  | none =>
    simp only [toList_none, append_nil, mem_append, mem_cons]
    tauto
  | some y =>
    obtain rfl : y = token := hequal y rfl
    simp only [toList_some, mem_append, mem_cons, not_mem_nil, or_false]
    tauto

end

end Tokens

/-! ## What the rows hold -/

/-- The records of rows : the keys of the leads of their phrases, and under each key the tokens of
its phrase, ascending. -/
structure PhraseRecords (rows : List PhraseRow) (records : Bytes → Option Bytes) : Prop where
  keys : ∀ key, (records key).isSome = true ↔
    ∃ row ∈ rows, ∃ n, 0 < n ∧ n ≤ row.1.length ∧ key = keyUcs4 (row.1.take n)
  tokens : ∀ key, ∃ tokens : List (BitVec 32), (records key).getD [] = encodeTokens tokens ∧
    tokens.Pairwise (· < ·) ∧ ∀ token, token ∈ tokens ↔ ∃ words, (words, token) ∈ rows ∧ key = keyUcs4 words

namespace PhraseRecords

variable {rows others : List PhraseRow} {records later : Bytes → Option Bytes} {row : PhraseRow}

theorem empty : PhraseRecords [] fun _ => none :=
  ⟨by simp, fun _ => ⟨[], rfl, List.Pairwise.nil, by simp⟩⟩

section

variable (h : PhraseRecords rows records)
include h

/-- The records depend only on which rows there are. -/
theorem unique (h' : PhraseRecords others later)
    (hsame : ∀ row, row ∈ others ↔ row ∈ rows) : later = records := by
  ext1 key
  have hkeys : (later key).isSome = true ↔ (records key).isSome = true := by
    rw [h.keys, h'.keys]
    simp only [hsame]
  obtain ⟨tokens, hbytes, hascending, hmem⟩ := h.tokens key
  obtain ⟨tokens', hbytes', hascending', hmem'⟩ := h'.tokens key
  have htokens : tokens' = tokens := @eq_of_ascending _ _ _ _ _ _ id _ _ hascending' hascending fun token => by
    rw [hmem, hmem']
    simp only [hsame]
  rw [← htokens, ← hbytes'] at hbytes
  cases hrecord : records key with
  | none => simpa [hrecord] using hkeys
  | some value =>
    obtain ⟨value', hvalue'⟩ := isSome_iff_exists.mp (hkeys.mpr (by rw [hrecord]; rfl))
    rw [hvalue', hrecord, getD_some, getD_some] at hbytes
    rw [hvalue', hbytes]

/-- The leads of a phrase that is a key are keys. -/
theorem lead {words : List (BitVec 32)}
    (hkey : (records (keyUcs4 words)).isSome = true) {n : Nat} (hpos : 0 < n) (hn : n ≤ words.length) :
    (records (keyUcs4 (words.take n))).isSome = true := by
  obtain ⟨row, hrow, m, _, hm, hwords⟩ := (h.keys _).mp hkey
  obtain rfl := keyUcs4_injective hwords
  rw [length_take, Nat.min_eq_left hm] at hn
  rw [take_take, Nat.min_eq_left hn]
  exact (h.keys _).mpr ⟨row, hrow, n, hpos, Nat.le_trans hn hm, rfl⟩

/-- One more row : the leads of its phrase, and its token under the phrase. -/
theorem add (hkeys : ∀ key, (later key).isSome = true ↔
      (records key).isSome = true ∨ ∃ n, 0 < n ∧ n ≤ row.1.length ∧ key = keyUcs4 (row.1.take n))
    (hothers : ∀ key, key ≠ keyUcs4 row.1 → (later key).getD [] = (records key).getD [])
    (hown : ∀ tokens : List (BitVec 32), tokens.Pairwise (· < ·) →
      (records (keyUcs4 row.1)).getD [] = encodeTokens tokens →
      (later (keyUcs4 row.1)).getD [] = encodeTokens (insertToken tokens row.2)) :
    PhraseRecords (rows ++ [row]) later := by
  refine ⟨fun key => ?_, fun key => ?_⟩
  · rw [hkeys, h.keys]
    simp only [mem_append, mem_singleton, or_and_right, exists_or, exists_eq_left]
  · obtain ⟨tokens, hbytes, hascending, hmem⟩ := h.tokens key
    by_cases hkey : key = keyUcs4 row.1
    · subst hkey
      refine ⟨insertToken tokens row.2, hown tokens hascending hbytes, pairwise_insertToken hascending _,
        fun token => ?_⟩
      rw [mem_insertToken hascending, hmem]
      simp only [mem_append, mem_singleton, or_and_right, exists_or]
      refine or_congr_right ⟨?_, ?_⟩
      · rintro rfl
        exact ⟨row.1, rfl, rfl⟩
      · rintro ⟨words, rfl, _⟩
        rfl
    · refine ⟨tokens, (hothers key hkey).trans hbytes, hascending, fun token => ?_⟩
      rw [hmem]
      simp only [mem_append, mem_singleton, or_and_right, exists_or]
      refine (or_iff_left ?_).symm
      rintro ⟨words, rfl, hwords⟩
      exact hkey hwords

end

end PhraseRecords

/-! ## The batch -/

section Batch

variable {rows : List PhraseRow} {map : TokenMap} {row : PhraseRow}

/-- The records of a map. -/
def TokenMap.records (map : TokenMap) (key : Bytes) : Option Bytes :=
  (SortedMap.get? map key).map encodeTokens

/-- The keys a row enters : the proper leads of its phrase and the phrase. -/
def leadKeys (words : List (BitVec 32)) : List Bytes :=
  ((List.range' 1 (words.length - 1)).map fun lead => (keyUcs4 words).take (4 * lead)) ++ [keyUcs4 words]

theorem mem_leadKeys {words : List (BitVec 32)} (hwords : words ≠ []) {key : Bytes} :
    key ∈ leadKeys words ↔ ∃ n, 0 < n ∧ n ≤ words.length ∧ key = keyUcs4 (words.take n) := by
  have hlength := length_pos_iff.mpr hwords
  simp only [leadKeys, mem_append, List.mem_map, mem_range'_1, mem_singleton, take_keyUcs4]
  constructor
  · rintro (⟨n, hn, rfl⟩ | rfl)
    · exact ⟨n, by omega, by omega, rfl⟩
    · exact ⟨words.length, hlength, Nat.le_refl _, by rw [take_length]⟩
  · rintro ⟨n, hpos, hn, rfl⟩
    rcases Nat.lt_or_eq_of_le hn with hlt | rfl
    · exact Or.inl ⟨n, by omega, rfl⟩
    · exact Or.inr (by rw [take_length])

/-- The map with the keys of a row entered. -/
def TokenMap.enter (map : TokenMap) (words : List (BitVec 32)) : TokenMap :=
  (leadKeys words).foldl (fun map key => SortedMap.orInsert map key []) map

theorem TokenMap.addRow_eq (map : TokenMap) (row : PhraseRow) :
    map.addRow row = insert (map.enter row.1) (keyUcs4 row.1)
      (insertToken ((get? (map.enter row.1) (keyUcs4 row.1)).getD []) row.2) := by
  rw [TokenMap.enter, leadKeys, foldl_append, foldl_map]
  rfl

theorem records_enter (map : TokenMap) (words : List (BitVec 32)) (key : Bytes) :
    ((map.enter words).records key).isSome = ((map.records key).isSome || decide (key ∈ leadKeys words)) ∧
      ((map.enter words).records key).getD [] = (map.records key).getD [] := by
  rw [TokenMap.records, TokenMap.records, TokenMap.enter, get?_foldl_orInsert]
  cases hget : get? map key with
  | some tokens => simp [hget]
  | none =>
    by_cases hkey : key ∈ leadKeys words
    · simp [hget, hkey, encodeTokens]
    · simp [hget, hkey]

theorem getD_records (map : TokenMap) (key : Bytes) :
    (map.records key).getD [] = encodeTokens ((get? map key).getD []) := by
  rw [TokenMap.records]
  cases get? map key with
  | none => rfl
  | some tokens => rfl

theorem records_addRow (map : TokenMap) (row : PhraseRow) (key : Bytes) :
    (map.addRow row).records key =
      if key = keyUcs4 row.1 then
        some (encodeTokens (insertToken ((get? (map.enter row.1) (keyUcs4 row.1)).getD []) row.2))
      else (map.enter row.1).records key := by
  rw [TokenMap.addRow_eq, TokenMap.records, get?_insert, Function.update_apply]
  split_ifs
  · rfl
  · rfl

theorem PhraseRecords.addRow (h : PhraseRecords rows map.records) (hrow : row.1 ≠ []) :
    PhraseRecords (rows ++ [row]) (map.addRow row).records := by
  refine h.add (fun key => ?_) (fun key hkey => ?_) fun tokens _ htokens => ?_
  · rw [← mem_leadKeys hrow, records_addRow]
    split_ifs with hkey
    · simp [hkey, leadKeys]
    · simp [(records_enter map row.1 key).1]
  · rw [records_addRow, if_neg hkey, (records_enter map row.1 key).2]
  · rw [← (records_enter map row.1 _).2, getD_records] at htokens
    rw [records_addRow, if_pos rfl, getD_some, encodeTokens_injective htokens]

/-- The batch holds the records of its rows. -/
theorem lists_phraseIndexEntries (hrows : ∀ row ∈ rows, row.1 ≠ []) :
    ∃ records, PhraseRecords rows records ∧ Lists (phraseIndexEntries rows) records := by
  have hrecords : ∀ (done : List PhraseRow), (∀ row ∈ done, row.1 ≠ []) →
      PhraseRecords done (done.foldl TokenMap.addRow .empty).records := by
    intro done
    induction done using List.reverseRecOn with
    | nil => exact fun _ => PhraseRecords.empty
    | append_singleton done row ih =>
      intro hdone
      rw [foldl_append]
      exact (ih fun row hrow => hdone row (mem_append_left _ hrow)).addRow
        (hdone row (mem_append_right _ mem_cons_self))
  have hlists := lists (rows.foldl TokenMap.addRow .empty)
  refine ⟨_, hrecords rows hrows, pairwise_map.mpr hlists.ascending, fun key value => ?_⟩
  rw [phraseIndexEntries, List.mem_map, TokenMap.records, map_eq_some_iff]
  constructor
  · rintro ⟨entry, hentry, heq⟩
    obtain ⟨rfl, rfl⟩ := Prod.mk.inj heq
    exact ⟨entry.2, (hlists.mem _ _).mp hentry, rfl⟩
  · rintro ⟨tokens, htokens, rfl⟩
    exact ⟨(key, tokens), (hlists.mem _ _).mpr htokens, rfl⟩

end Batch

/-! ## One by one -/

namespace UserPhraseTable

variable {rows : List PhraseRow} {phrases : UserPhraseTable} {row : PhraseRow}

theorem leadClosed_of_records (h : PhraseRecords rows phrases.table.record) : phrases.table.LeadClosed 4 := by
  intro key hkey n hpos hn
  rw [containsKey_eq] at hkey ⊢
  obtain ⟨row, _, m, _, hm, rfl⟩ := (h.keys key).mp hkey
  rw [length_keyUcs4] at hn
  rw [take_keyUcs4]
  exact h.lead hkey hpos (by omega)

/-- The keys after a new phrase : those there were, and its leads. -/
theorem isSome_record_createPrefixes {table : RecordTable} {words : List (BitVec 32)} (h : table.LeadClosed 4)
    (hwords : words ≠ []) (value key : Bytes) :
    (((table.put (keyUcs4 words) value).createPrefixes 4 (keyUcs4 words) (words.length - 1)).record
      key).isSome = true ↔
      (table.record key).isSome = true ∨ ∃ n, 0 < n ∧ n ≤ words.length ∧ key = keyUcs4 (words.take n) := by
  have hlength := length_pos_iff.mpr hwords
  have hown : ((table.put (keyUcs4 words) value).createPrefixes 4 (keyUcs4 words)
      (words.length - 1)).containsKey (keyUcs4 words) = true :=
    containsKey_createPrefixes_of_containsKey
      ((containsKey_put _ _ _ _).mpr (Or.inl rfl))
  rw [← containsKey_eq, ← containsKey_eq]
  constructor
  · intro hkey
    rcases lead_of_containsKey_createPrefixes hkey with hput | ⟨n, hpos, hn, rfl⟩
    · rcases (containsKey_put _ _ _ _).mp hput with rfl | hold
      · exact Or.inr ⟨words.length, hlength, Nat.le_refl _, by rw [take_length]⟩
      · exact Or.inl hold
    · exact Or.inr ⟨n, hpos, by omega, take_keyUcs4 words n⟩
  · rintro (hold | ⟨n, hpos, hn, rfl⟩)
    · exact containsKey_createPrefixes_of_containsKey
        ((containsKey_put _ _ _ _).mpr (Or.inr hold))
    · rcases Nat.lt_or_eq_of_le hn with hlt | rfl
      · have hclosed := @RecordTable.LeadClosed.put_createPrefixes 4 (by omega) table h (keyUcs4 words)
          (words.length - 1) (by rw [length_keyUcs4]; omega) value
        have hlead := hclosed _ hown n hpos (by rw [length_keyUcs4]; omega)
        rwa [take_keyUcs4] at hlead
      · rw [take_length]
        exact hown

/-- A row added to the table that holds the records of others. -/
theorem records_add (h : PhraseRecords rows phrases.table.record) (hrow : row.1 ≠ []) :
    (∃ code, (phrases.add row.1 row.2).2 = .ok code) ∧
      PhraseRecords (rows ++ [row]) (phrases.add row.1 row.2).1.table.record := by
  have hnonempty : (keyUcs4 row.1).isEmpty = false := by
    have hlength := length_keyUcs4 row.1
    have hpos := length_pos_iff.mpr hrow
    rw [isEmpty_eq_false_iff]
    exact length_pos_iff.mp (by omega)
  obtain ⟨tokens, hbytes, hascending, _⟩ := h.tokens (keyUcs4 row.1)
  have hown : ∀ other : List (BitVec 32), (phrases.table.record (keyUcs4 row.1)).getD [] = encodeTokens other →
      other = tokens := fun other hother => encodeTokens_injective (hother.symm.trans hbytes)
  rw [add, hnonempty]
  dsimp only
  rw [if_neg Bool.false_ne_true]
  cases hrecord : phrases.table.record (keyUcs4 row.1) with
  | some bytes =>
    obtain rfl : bytes = encodeTokens tokens := by rwa [hrecord] at hbytes
    have hwhole : fromBytes (encodeTokens tokens) = .ok ⟨encodeTokens tokens⟩ := by
      rw [fromBytes, validate, encodeTokens, length_flatMap_le32, if_neg (by omega)]
      rfl
    dsimp only
    rw [hwhole]
    dsimp only
    refine ⟨⟨_, rfl⟩, h.add (fun key => ?_) (fun key hkey => ?_) fun other _ hother => ?_⟩
    · rw [record_put]
      have hleads : (∃ n, 0 < n ∧ n ≤ row.1.length ∧ key = keyUcs4 (row.1.take n)) →
          (phrases.table.record key).isSome = true := by
        rintro ⟨n, hpos, hn, rfl⟩
        exact h.lead (by rw [hrecord]; rfl) hpos hn
      split_ifs with hkey
      · simp [hkey, hrecord]
      · exact (or_iff_left_of_imp hleads).symm
    · rw [record_put, if_neg hkey]
    · rw [record_put, if_pos rfl, getD_some, bytes_addIndex hascending, hown other hother]
  | none =>
    obtain rfl : tokens = [] := by
      rw [hrecord, getD_none] at hbytes
      exact (encodeTokens_injective (a := []) hbytes).symm
    refine ⟨⟨_, rfl⟩, h.add (fun key => ?_) (fun key hkey => ?_) fun other _ hother => ?_⟩
    · exact isSome_record_createPrefixes (leadClosed_of_records h) hrow _ key
    · dsimp only
      rw [getD_record_createPrefixes, record_put, if_neg hkey]
    · dsimp only
      rw [getD_record_createPrefixes, record_put, if_pos rfl, getD_some, hown other hother]
      exact bytes_addIndex hascending row.2

/-- The table of rows added one by one holds their records. -/
theorem lists_addRows (hrows : ∀ row ∈ rows, row.1 ≠ []) :
    ∃ phrases, addRows rows = .ok phrases ∧ PhraseRecords rows phrases.table.record ∧ phrases.table.Sorted := by
  induction rows using List.reverseRecOn with
  | nil => exact ⟨⟨.empty⟩, rfl, PhraseRecords.empty, List.Pairwise.nil⟩
  | append_singleton rows row ih =>
    obtain ⟨phrases, hphrases, hrecords, hsorted⟩ := ih fun row hrow => hrows row (mem_append_left _ hrow)
    obtain ⟨⟨code, hcode⟩, hlater⟩ := records_add hrecords (hrows row (mem_append_right _ mem_cons_self))
    refine ⟨(phrases.add row.1 row.2).1, ?_, hlater, hsorted.over (over_add phrases row.1 row.2)⟩
    rw [addRows] at hphrases ⊢
    rw [foldlM_append, hphrases]
    change ((phrases.add row.1 row.2).2.map fun _ => (phrases.add row.1 row.2).1) >>= pure = _
    rw [hcode]
    rfl

end UserPhraseTable

/-- The batch lists the records of the table its rows are added to in any order, however often.
They are the leads of the phrases, each with the tokens of its own phrase, ascending. -/
theorem phraseIndexEntries_spec {rows added : List PhraseRow} (hrows : ∀ row ∈ rows, row.1 ≠ [])
    (hsame : ∀ row, row ∈ added ↔ row ∈ rows) :
    (∃ phrases, UserPhraseTable.addRows added = .ok phrases ∧ phraseIndexEntries rows = phrases.table.rows) ∧
      phraseIndexEntries added = phraseIndexEntries rows ∧
      (∀ key, key ∈ (phraseIndexEntries rows).map Prod.fst ↔
        ∃ row ∈ rows, ∃ lead, lead ≠ [] ∧ lead <+: row.1 ∧ key = keyUcs4 lead) ∧
      (∀ words lead, keyUcs4 words ∈ (phraseIndexEntries rows).map Prod.fst → lead ≠ [] → lead <+: words →
        keyUcs4 lead ∈ (phraseIndexEntries rows).map Prod.fst) ∧
      ∀ key value, (key, value) ∈ phraseIndexEntries rows → ∃ tokens : List (BitVec 32),
        value = encodeTokens tokens ∧ tokens.Pairwise (· < ·) ∧
          ∀ token, token ∈ tokens ↔ ∃ words, (words, token) ∈ rows ∧ key = keyUcs4 words := by
  have hadded : ∀ row ∈ added, row.1 ≠ [] := fun row hrow => hrows row ((hsame row).mp hrow)
  obtain ⟨records, hrecords, hlists⟩ := lists_phraseIndexEntries hrows
  obtain ⟨again, hagain, hlistsAgain⟩ := lists_phraseIndexEntries hadded
  obtain ⟨phrases, hphrases, htable, hsorted⟩ := UserPhraseTable.lists_addRows hadded
  have hkeys : ∀ key, key ∈ (phraseIndexEntries rows).map Prod.fst ↔
      ∃ row ∈ rows, ∃ lead, lead ≠ [] ∧ lead <+: row.1 ∧ key = keyUcs4 lead := by
    intro key
    rw [hlists.mem_keys, hrecords.keys]
    refine exists_congr fun row => and_congr_right fun _ => ⟨?_, ?_⟩
    · rintro ⟨n, hpos, hn, rfl⟩
      refine ⟨row.1.take n, fun hnil => ?_, take_prefix n row.1, rfl⟩
      have hlength := congrArg List.length hnil
      rw [length_take, length_nil] at hlength
      omega
    · rintro ⟨lead, hlead, hprefix, rfl⟩
      exact ⟨lead.length, length_pos_iff.mpr hlead, hprefix.length_le,
        by rw [← prefix_iff_eq_take.mp hprefix]⟩
  refine ⟨⟨phrases, hphrases, ?_⟩, ?_, hkeys, fun words lead hwords hlead hprefix => ?_, fun key value hentry => ?_⟩
  · have hsameRecords := hrecords.unique htable hsame
    exact hlists.unique (hsameRecords ▸ (RecordTable.answers hsorted).rows)
  · have hsameRecords := hrecords.unique hagain hsame
    exact hlistsAgain.unique (hsameRecords ▸ hlists)
  · obtain ⟨row, hrow, whole, _, hwhole, heq⟩ := (hkeys _).mp hwords
    obtain rfl := keyUcs4_injective heq
    exact (hkeys _).mpr ⟨row, hrow, lead, hlead, hprefix.trans hwhole, rfl⟩
  · obtain ⟨tokens, hbytes, hascending, hmem⟩ := hrecords.tokens key
    rw [(hlists.mem key value).mp hentry, getD_some] at hbytes
    exact ⟨tokens, hbytes, hascending, hmem⟩

/-- Two characters with two tokens and the first character with its own, added backwards and one twice. -/
theorem phraseIndexEntries_niHao :
    (∃ phrases, UserPhraseTable.addRows [([0x4f60], 5), ([0x4f60, 0x597d], 2), ([0x4f60, 0x597d], 9),
        ([0x4f60, 0x597d], 2)] = .ok phrases ∧
      phraseIndexEntries [([0x4f60, 0x597d], 9), ([0x4f60, 0x597d], 2), ([0x4f60], 5)] = phrases.table.rows) ∧
      phraseIndexEntries [([0x4f60, 0x597d], 9), ([0x4f60, 0x597d], 2), ([0x4f60], 5)] =
        [(keyUcs4 [0x4f60], encodeTokens [5]), (keyUcs4 [0x4f60, 0x597d], encodeTokens [2, 9])] := by
  refine ⟨(phraseIndexEntries_spec ?_ ?_).1, by decide +kernel⟩
  · simp
  · intro row
    simp only [mem_cons, not_mem_nil, or_false]
    tauto

end Oxpinyin
