import Mathlib.Data.List.Destutter
import Oxpinyin.UserIndex

/-!
# The user phrase table

Tokens under raw text, in the same arena and overlay as the pinyin index. An entry is an array
of tokens, neither sorted nor without duplicates. `tables_answer` : the index and the table
answer as finite maps in every state of a run.
-/

namespace Oxpinyin

open LittleEndian FiniteMap Run RecordTable

/-! ## Entries -/

/-- Why an operation fails. -/
inductive StoreError where
  | invalidInput (message : String)

/-- The text of a refused write. -/
def StoreError.message : StoreError → String
  | invalidInput message => s!"invalid store input: {message}"

def errorOk : Int := 0

def errorInsertItemExists : Int := 1

def errorRemoveItemDonotExists : Int := 2

/-- Raw words as a table key. -/
def keyUcs4 (words : List (BitVec 32)) : Bytes :=
  words.flatMap le32

/-- A record is an array of whole tokens. -/
def validate (bytes : Bytes) : Except StoreError Unit :=
  if bytes.length % 4 ≠ 0 then .error (.invalidInput "phrase table value contains an incomplete token")
  else .ok ()

/-- A raw array of tokens. -/
structure PhraseTableEntry where
  bytes : Bytes

namespace PhraseTableEntry

/-- The entry of a record. -/
def fromBytes (bytes : Bytes) : Except StoreError PhraseTableEntry :=
  (validate bytes).map fun _ => ⟨bytes⟩

/-- The tokens, in order. -/
def tokens (entry : PhraseTableEntry) : List (BitVec 32) :=
  (chunks 4 entry.bytes).map word32

/-- Where a token goes : before the first greater one, from an index on. Nothing when it is met
first. -/
def addOffset (token : BitVec 32) : List (BitVec 32) → Nat → Option (Option Nat)
  | [], _ => some none
  | existing :: rest, index =>
    if existing = token then none
    else if token < existing then some (some (index * 4))
    else addOffset token rest (index + 1)

/-- Adds a token before the first greater one. Equality is seen only before it. -/
def addIndex (entry : PhraseTableEntry) (token : BitVec 32) : PhraseTableEntry × Int :=
  match addOffset token entry.tokens 0 with
  | none => (entry, errorInsertItemExists)
  | some offset => (⟨insertAt entry.bytes (offset.getD entry.bytes.length) (le32 token)⟩, errorOk)

/-- Removes the first occurrence of a token. -/
def removeIndex (entry : PhraseTableEntry) (token : BitVec 32) : PhraseTableEntry × Int :=
  match entry.tokens.findIdx? (· == token) with
  | none => (entry, errorRemoveItemDonotExists)
  | some index => (⟨removeRange entry.bytes (index * 4) (index * 4 + 4)⟩, errorOk)

/-- Removes the tokens with a value under a mask, with so many tokens left to test. -/
def maskFrom (mask value : BitVec 32) : Nat → Nat → Bytes → Bytes
  | 0, _, bytes => bytes
  | left + 1, offset, bytes =>
    if (word32At bytes offset).getD 0 &&& mask = value then
      maskFrom mask value left offset (removeRange bytes offset (offset + 4))
    else maskFrom mask value left (offset + 4) bytes

def maskOut (entry : PhraseTableEntry) (mask value : BitVec 32) : PhraseTableEntry :=
  ⟨maskFrom mask value (entry.bytes.length / 4) 0 entry.bytes⟩

/-- Copies a record over the entry. A longer entry keeps its tail. -/
def setContent (entry : PhraseTableEntry) (bytes : Bytes) : Except StoreError PhraseTableEntry :=
  (validate bytes).map fun _ =>
    ⟨overwrite (if entry.bytes.length < bytes.length then resize entry.bytes bytes.length 0 else entry.bytes)
      0 bytes⟩

end PhraseTableEntry

/-! ## The table -/

/-- The user phrase table. -/
structure UserPhraseTable where
  table : RecordTable

namespace UserPhraseTable

/-- The table of the rows of a file. -/
def fromEntries (entries : List (Bytes × Bytes)) : UserPhraseTable :=
  ⟨.fromEntries entries⟩

/-- Adds a token under its text, with markers under the text's leads when the text is new. -/
def add (phrases : UserPhraseTable) (words : List (BitVec 32)) (token : BitVec 32) :
    UserPhraseTable × Except StoreError Int :=
  let key := keyUcs4 words
  if key.isEmpty then (phrases, .error (.invalidInput "phrase table text is empty"))
  else
    match phrases.table.record key with
    | some bytes =>
      match PhraseTableEntry.fromBytes bytes with
      | .error error => (phrases, .error error)
      | .ok entry =>
        let added := entry.addIndex token
        (⟨phrases.table.put key added.1.bytes⟩, .ok added.2)
    | none =>
      let added := PhraseTableEntry.addIndex ⟨[]⟩ token
      (⟨(phrases.table.put key added.1.bytes).createPrefixes 4 key (words.length - 1)⟩, .ok added.2)

/-- Removes the first occurrence of a token under a text. -/
def remove (phrases : UserPhraseTable) (words : List (BitVec 32)) (token : BitVec 32) :
    UserPhraseTable × Except StoreError Int :=
  let key := keyUcs4 words
  match phrases.table.record key with
  | none => (phrases, .ok errorRemoveItemDonotExists)
  | some bytes =>
    match PhraseTableEntry.fromBytes bytes with
    | .error error => (phrases, .error error)
    | .ok entry =>
      let removed := entry.removeIndex token
      (⟨phrases.table.put key removed.1.bytes⟩, .ok removed.2)

/-- The state of a mask walk : the entry the records share, and the error that stopped it. -/
structure Walk where
  reused : PhraseTableEntry
  failed : Option StoreError

/-- One record of a mask walk. After an error every record keeps its bytes. -/
def maskRecord (reuse : Bool) (mask value : BitVec 32) (walk : Walk) (_key bytes : Bytes) : Walk × Bytes :=
  match walk.failed with
  | some _ => (walk, bytes)
  | none =>
    match if reuse then walk.reused.setContent bytes else PhraseTableEntry.fromBytes bytes with
    | .error error => ({ walk with failed := some error }, bytes)
    | .ok entry =>
      let masked := entry.maskOut mask value
      (if reuse then { walk with reused := masked } else walk, masked.bytes)

/-- The mask walk. -/
def mask (reuse : Bool) (phrases : UserPhraseTable) (mask value : BitVec 32) :
    UserPhraseTable × Except StoreError Unit :=
  let walked := phrases.table.rewriteRecords (maskRecord reuse mask value) ⟨⟨[]⟩, none⟩
  (⟨walked.2⟩, match walked.1.failed with
    | some error => .error error
    | none => .ok ())

/-- The keys that extend one, with equal neighbours dropped. -/
def keysStartingWith (phrases : UserPhraseTable) (lead : Bytes) : List Bytes :=
  (phrases.table.keysStartingWith lead).destutter (· ≠ ·)

/-! ## Runs -/

variable {phrases : UserPhraseTable}

/-- An operation on the table. -/
inductive Op where
  | add (words : List (BitVec 32)) (token : BitVec 32)
  | remove (words : List (BitVec 32)) (token : BitVec 32)
  | mask (mask value : BitVec 32)

/-- The table after an operation. -/
def step (reuse : Bool) (phrases : UserPhraseTable) : Op → UserPhraseTable
  | .add words token => (phrases.add words token).1
  | .remove words token => (phrases.remove words token).1
  | .mask mask value => (phrases.mask reuse mask value).1

theorem over_add (phrases : UserPhraseTable) (words : List (BitVec 32)) (token : BitVec 32) :
    phrases.table.Over (phrases.add words token).1.table := by
  rw [add]
  dsimp only
  split
  · exact RecordTable.Over.refl _
  · split
    · split
      · exact RecordTable.Over.refl _
      · exact over_put _ _ _
    · exact (over_put _ _ _).trans (over_createPrefixes _ _ _ _)

theorem over_remove (phrases : UserPhraseTable) (words : List (BitVec 32)) (token : BitVec 32) :
    phrases.table.Over (phrases.remove words token).1.table := by
  rw [remove]
  dsimp only
  split
  · exact RecordTable.Over.refl _
  · split
    · exact RecordTable.Over.refl _
    · exact over_put _ _ _

/-- An operation keeps the offsets sorted, while they reach the arena. -/
theorem sorted_step {reuse : Bool} (h : phrases.table.Sorted) (op : Op)
    (hroom : (phrases.step reuse op).table.arena.length < 2 ^ 32) : (phrases.step reuse op).table.Sorted :=
  match op with
  | .add words token => h.over (over_add phrases words token)
  | .remove words token => h.over (over_remove phrases words token)
  | .mask _ _ => h.rewriteRecords _ _ hroom

theorem sorted_run {reuse : Bool} (h : phrases.table.Sorted) {ops : List Op}
    (hroom : ∀ reached ∈ states (step reuse) phrases ops, reached.table.arena.length < 2 ^ 32) :
    ∀ reached ∈ states (step reuse) phrases ops, reached.table.Sorted :=
  @forall_states _ _ (step reuse) (fun phrases => phrases.table.Sorted)
    (fun phrases op => (phrases.step reuse op).table.arena.length < 2 ^ 32)
    (fun _ op h hroom => sorted_step h op hroom) ops phrases h
    (@along_of_states _ _ _ (fun phrases => phrases.table.arena.length < 2 ^ 32) ops phrases hroom)

/-- The keys that extend one are met once each. -/
theorem keysStartingWith_eq (h : phrases.table.Sorted) (lead : Bytes) :
    phrases.keysStartingWith lead =
      (phrases.table.rows.map Prod.fst).filter fun key => lead.isPrefixOf key := by
  have hanswers := answers h
  have hascending : (phrases.table.rows.map Prod.fst).Pairwise (· < ·) :=
    List.pairwise_map.mpr hanswers.rows.ascending
  rw [keysStartingWith, hanswers.startingWith, hanswers.keys]
  refine List.destutter_of_isChain _ _ (List.Pairwise.isChain ?_)
  exact (hascending.filter _).imp fun hab => FiniteMap.ne_of_lt hab

end UserPhraseTable

/-- An index and a phrase table loaded from rows with distinct keys answer as finite maps in
every state of a run whose arenas the offsets reach. -/
theorem tables_answer {entries : List (Bytes × Bytes)} (hkeys : (entries.map Prod.fst).Nodup)
    (entryPerLength : Bool) :
    (∀ ops : List UserIndex.Op,
      (∀ index ∈ states (UserIndex.step entryPerLength) (.fromEntries entries) ops,
        index.table.arena.length < 2 ^ 32) →
      ∀ index ∈ states (UserIndex.step entryPerLength) (.fromEntries entries) ops,
        index.table.Answers index.table.record) ∧
    (∀ ops : List UserPhraseTable.Op,
      (∀ phrases ∈ states (UserPhraseTable.step entryPerLength) (.fromEntries entries) ops,
        phrases.table.arena.length < 2 ^ 32) →
      ∀ phrases ∈ states (UserPhraseTable.step entryPerLength) (.fromEntries entries) ops,
        phrases.table.Answers phrases.table.record ∧
        ∀ lead, phrases.keysStartingWith lead =
          (phrases.table.rows.map Prod.fst).filter fun key => lead.isPrefixOf key) := by
  refine ⟨fun ops hroom index hindex => ?_, fun ops hroom phrases hphrases => ?_⟩
  · have hloaded : (UserIndex.fromEntries entries).table.Sorted :=
      (RecordTable.lists_fromEntries hkeys (hroom (.fromEntries entries) (mem_states_self _ ops))).1
    exact RecordTable.answers (UserIndex.sorted_run hloaded hroom index hindex)
  · have hloaded : (UserPhraseTable.fromEntries entries).table.Sorted :=
      (RecordTable.lists_fromEntries hkeys (hroom (.fromEntries entries) (mem_states_self _ ops))).1
    have hsorted := UserPhraseTable.sorted_run hloaded hroom phrases hphrases
    exact ⟨RecordTable.answers hsorted, UserPhraseTable.keysStartingWith_eq hsorted⟩

/-- Two rows in descending order. -/
def descendingRows : List (Bytes × Bytes) := [([2, 0], [7, 0, 0, 0]), ([1, 0], [])]

theorem fromEntries_descendingRows : fromEntries descendingRows =
    ⟨[2, 0, 0, 0, 4, 0, 0, 0, 2, 0, 7, 0, 0, 0, 2, 0, 0, 0, 0, 0, 0, 0, 1, 0], [14, 0], .empty⟩ := by
  have hpushed : fromEntries descendingRows = finishLoad
      ⟨[2, 0, 0, 0, 4, 0, 0, 0, 2, 0, 7, 0, 0, 0, 2, 0, 0, 0, 0, 0, 0, 0, 1, 0], [0, 14], .empty⟩ := rfl
  rw [hpushed, finishLoad]
  simp [List.mergeSort, List.merge]
  decide

theorem tables_answer_descending :
    (∀ index ∈ states (UserIndex.step true) (.fromEntries descendingRows)
        [.add [⟨1, 1, 1, 0⟩] 7, .mask 7 7, .add [⟨1, 0, 0, 0⟩, ⟨1, 1, 1, 0⟩] 8, .mergeMissing .new,
          .remove [⟨1, 1, 1, 0⟩] 7],
      index.table.Answers index.table.record) ∧
    ∀ phrases ∈ states (UserPhraseTable.step true) (.fromEntries descendingRows)
        [.add [1, 2] 7, .mask 7 7, .remove [1, 2] 7],
      phrases.table.Answers phrases.table.record ∧
      ∀ lead, phrases.keysStartingWith lead =
        (phrases.table.rows.map Prod.fst).filter fun key => lead.isPrefixOf key := by
  refine ⟨(@tables_answer descendingRows (by decide) true).1 _ ?_,
    (@tables_answer descendingRows (by decide) true).2 _ ?_⟩
  · rw [UserIndex.fromEntries, fromEntries_descendingRows]
    decide +kernel
  · rw [UserPhraseTable.fromEntries, fromEntries_descendingRows]
    decide +kernel

end Oxpinyin
