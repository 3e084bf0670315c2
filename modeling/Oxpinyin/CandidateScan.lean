import Oxpinyin.WindowLength
import Oxpinyin.ParsedCells
import Oxpinyin.GenerationPaths

/-!
# The expanding window scan

Candidates of an anchor come from windows that begin there and end further and further on.
`scanParsedPaths` follows the key paths of one window through the parsed matrix, `searchScanPath`
asks the dictionary for one of them, and `collectWindowScan` widens the window until nothing longer
can match, past ends that are apostrophes.

A window is the fold of one visit after the other (`scanParsedPaths_eq`), and a visit adds what the
same search finds on its own (`searchScanPath_eq`).
-/

namespace Oxpinyin

open List SegmentGraph Or Except

/-! ## Completions of initial-only keys -/

/-- The longest initial-only key in front of a text. -/
def syllableInitial (text : Bytes) : Option Bytes :=
  (incompletePinyinKeys.filter (·.isPrefixOf text)).foldl (fun longest key =>
    if (longest.getD []).length ≤ key.length then some key else longest) none

/-- The initial by which keys are completed. -/
def phoneticInitial (text : Bytes) : Option Bytes :=
  if text = ascii "ng" then none else syllableInitial text

/-- The complete keys an initial-only key stands for. -/
def completions (key : SyllableKey) : List SyllableKey :=
  if key.completeness = .Complete then [key]
  else
    (((fullPinyinSyllables.filter fun syllable => key.text.isPrefixOf syllable).filter fun syllable =>
      phoneticInitial syllable == some key.text).filterMap SyllableKey.fromText)

/-- The choices of every key, unless there are too many combinations or none. -/
def expandChoices (limit : Nat) : Nat → List SyllableKey → Option (List (List SyllableKey))
  | _, [] => some []
  | product, key :: keys =>
    let choices := completions key
    if choices = [] ∨ limit < product * choices.length then none
    else (expandChoices limit (product * choices.length) keys).map (choices :: ·)

/-- The complete keys that a sequence can stand for, none if they are more than the limit. -/
def expandKeys (keys : List SyllableKey) (limit : Nat) : List (List SyllableKey) :=
  if limit < 1 then []
  else
    match expandChoices limit 1 keys with
    | some alternatives =>
      alternatives.foldl (fun sequences choices =>
        sequences.flatMap fun front => choices.map fun choice => front ++ [choice]) [[]]
    | none => []

/-- The most sequences a scan tries for one path. -/
def scanExpansionLimit : Nat := 4096

/-! ## Rows -/

/-- Where a candidate comes from. -/
inductive CandidateKind where
  | phrase
  | addon
  | sentence
  | fallback
  deriving DecidableEq

/-- A count of a candidate, at most what its field holds. -/
def narrow (count : Nat) : Nat := if 2 ^ 32 - 1 < count then 2 ^ 32 - 1 else count

/-- One offered conversion. -/
structure Candidate where
  text : PhraseText
  kind : CandidateKind
  consumedKeys : Nat
  consumedBytes : Nat
  cost : Nat
  token : Option PhraseToken
  nbestIndex : Option Nat
  spanStart : Nat
  liveUnigram : Option (BitVec 32)

/-- A new candidate. -/
def Candidate.new (text : PhraseText) (kind : CandidateKind) (keys bytes cost : Nat) (token : Option PhraseToken)
    (nbestIndex : Option Nat) : Candidate :=
  ⟨text, kind, narrow keys, narrow bytes, cost, token, nbestIndex, 0, none⟩

/-- A phrase that a dictionary finds. -/
structure CandidateEntry where
  text : PhraseText
  token : PhraseToken
  liveUnigram : Option (BitVec 32)

/-- Adds the phrases that one search returned. -/
def appendScanEntries (entries : List CandidateEntry) (keys stop : Nat) (kind : CandidateKind)
    (into : List Candidate) : List Candidate :=
  into ++ entries.map fun entry =>
    { Candidate.new entry.text kind keys stop 0 (some entry.token) none with liveUnigram := entry.liveUnigram }

/-- Whether every row of a window has a token greater than the one before it. -/
def windowTokensAreStrictlyIncreasing (previous : Option PhraseToken) : List Candidate → Bool
  | [] => true
  | row :: rows =>
    match row.token with
    | none => false
    | some token =>
      if previous.any fun previous => token ≤ previous then false
      else windowTokensAreStrictlyIncreasing (some token) rows

/-- The first row of each token. -/
def firstOfToken (seen : List PhraseToken) : List Candidate → List Candidate
  | [] => []
  | row :: rows =>
    match row.token with
    | some token =>
      if seen.contains token then firstOfToken seen rows else row :: firstOfToken (token :: seen) rows
    | none => row :: firstOfToken seen rows

/-- The library of a row in the order of a window. -/
def windowLibrary (row : Candidate) : Nat :=
  match row.token with
  | some token => (token >>> 24).toNat
  | none => 2 ^ 32 - 1

/-- Puts the rows of a window by library, one row a token. -/
def sortDedupWindowTail (into : List Candidate) (start : Nat) : List Candidate :=
  into.take start ++ firstOfToken [] ((into.drop start).mergeSort fun a b => windowLibrary a ≤ windowLibrary b)

/-- Orders the rows from `start` on. -/
def orderWindowTail (into : List Candidate) (start : Nat) : List Candidate :=
  if windowTokensAreStrictlyIncreasing none (into.drop start) then into else sortDedupWindowTail into start

/-- Adds a batch of rows, ordered. -/
def flushWindowBatch (batch into : List Candidate) : List Candidate :=
  orderWindowTail (into ++ batch) into.length

/-! ## Searches -/

/-- What the scan asks of a dictionary. -/
structure CandidateDictionary (ε : Type) where
  /-- The phrases of a path with its tones, whether an item was unreadable and whether a longer path exists, where
  one search answers all. -/
  candidateSearchInto : List SyllableKey → List Nat → Except ε (Option (List CandidateEntry × Bool × Bool))
  /-- The phrases of a path, and whether an item was unreadable. -/
  lookupCandidatesInto : List SyllableKey → Except ε (List CandidateEntry × Bool)
  /-- The records of a path with its tones. -/
  trellisRecords : List SyllableKey → List Nat → Except ε (List CandidateEntry)
  /-- The addon phrases of a path. -/
  lookupAddonCandidatesInto : List SyllableKey → Except ε (List CandidateEntry)
  /-- Whether a longer path exists. -/
  phrasePrefixExists : List SyllableKey → Except ε Bool
  /-- Whether a longer addon path exists. -/
  phrasePrefixExistsAddon : List SyllableKey → Except ε Bool
  /-- Whether initial-only keys are looked up as they are. -/
  handlesPartialKeys : Bool

/-- What a window has found. -/
structure ScanBuf where
  system : List Candidate
  addon : List Candidate
  continued : Bool
  unreadable : Bool

section Scan

variable {ε : Type} (dictionary : CandidateDictionary ε) (explicit : Bool) (matrix : ParsedMatrix) (anchor : Nat)

/-- Looks a sequence of keys up. Where a tone was typed, a phrase needs a record of these tones. -/
def lookupAndAppend (sequence : List SyllableKey) (tones : List Nat) (stop : Nat) (buf : ScanBuf) :
    Except (EngineError ε) ScanBuf := do
  let (entries, unreadable) ← (dictionary.lookupCandidatesInto sequence).mapError .dictionary
  let entries ←
    if tones.any (· != 0) then do
      let toned ← (dictionary.trellisRecords sequence tones).mapError .dictionary
      pure (entries.filter fun entry => toned.any (·.token == entry.token))
    else pure entries
  let system := appendScanEntries entries sequence.length stop .phrase buf.system
  let entries ← (dictionary.lookupAddonCandidatesInto sequence).mapError .dictionary
  let addon := appendScanEntries entries sequence.length stop .addon buf.addon
  pure { buf with system, addon, unreadable := buf.unreadable || unreadable }

/-- Looks a path up, with initial-only keys completed where the dictionary does not take them. -/
def lookUpPath (path : KeyPath) (stop : Nat) (buf : ScanBuf) : Except (EngineError ε) ScanBuf :=
  let hasIncomplete := path.keys.any fun key => key.completeness = .Partial
  if hasIncomplete && !dictionary.handlesPartialKeys then
    (expandKeys path.keys scanExpansionLimit).foldlM (fun buf sequence =>
      lookupAndAppend dictionary sequence path.tones stop buf) buf
  else lookupAndAppend dictionary path.keys path.tones stop buf

/-- The search of one path, and whether a longer one exists. -/
def searchDictionary (path : KeyPath) (stop : Nat) (buf : ScanBuf) : Except (EngineError ε) ScanBuf := do
  match ← (dictionary.candidateSearchInto path.keys path.tones).mapError .dictionary with
  | some (entries, failedItem, extends_) =>
    let system := appendScanEntries entries path.keys.length stop .phrase buf.system
    let entries ← (dictionary.lookupAddonCandidatesInto path.keys).mapError .dictionary
    let addon := appendScanEntries entries path.keys.length stop .addon buf.addon
    let addonExtends ← (dictionary.phrasePrefixExistsAddon path.keys).mapError .dictionary
    pure ⟨system, addon, buf.continued || extends_ || addonExtends, buf.unreadable || failedItem⟩
  | none =>
    let buf ← lookUpPath dictionary path stop buf
    let canExtend ← (dictionary.phrasePrefixExists path.keys).mapError .dictionary
    let addonExtend ← (dictionary.phrasePrefixExistsAddon path.keys).mapError .dictionary
    pure { buf with continued := buf.continued || (canExtend || addonExtend) }

/-- Searches one path. An explicit guess refuses a toned initial-only key first. -/
def searchScanPath (path : KeyPath) (stop : Nat) (buf : ScanBuf) : Except (EngineError ε) ScanBuf :=
  if explicit then (checkTonedIncomplete path).bind fun _ => searchDictionary dictionary path (stop - anchor) buf
  else searchDictionary dictionary path (stop - anchor) buf

/-- Whether a key or a zero key stands at a position. -/
def ParsedMatrix.hasCell (matrix : ParsedMatrix) (p : Nat) : Bool :=
  !(matrix.columns.getD p []).isEmpty || matrix.zeros.getD p false

/-- Follows the paths from `node` to `stop` and searches each. -/
def scanParsedPaths (stop node : Nat) (path : KeyPath) (buf : ScanBuf) : Except (EngineError ε) ScanBuf :=
  if !matrix.hasCell stop then .ok buf
  else if h : node < stop ∧ matrix.zeros.getD node false = true then scanParsedPaths stop (node + 1) path buf
  else
    (matrix.columns.getD node []).foldlM (fun buf key =>
      if stop < key.to_ then .ok { buf with continued := true }
      else
        let longer : KeyPath := ⟨path.keys ++ [key.key], path.tones ++ [key.tone]⟩
        if key.to_ = stop then searchScanPath dictionary explicit anchor longer stop buf
        else if _hroom : longer.keys.length < maxPhraseLength then scanParsedPaths stop key.to_ longer buf
        else .ok buf) buf
termination_by (maxPhraseLength - path.keys.length, stop - node)
decreasing_by
  · exact Prod.Lex.right _ (by omega)
  · refine Prod.Lex.left _ _ ?_
    rw [List.length_append, List.length_singleton] at _hroom ⊢
    omega

/-- The next end that is not an apostrophe. -/
def skipSeparators (input : Bytes) (bound stop : Nat) : Nat :=
  if stop ≤ bound ∧ input[stop - 1]? = some apostrophe then skipSeparators input bound (stop + 1) else stop
termination_by bound + 1 - stop

theorem le_skipSeparators (input : Bytes) (bound stop : Nat) : stop ≤ skipSeparators input bound stop := by
  rw [skipSeparators]
  split_ifs with h
  · exact Nat.le_of_succ_le (le_skipSeparators input bound (stop + 1))
  · exact Nat.le_refl stop
termination_by bound + 1 - stop

/-- The windows from an end on. A window that has matched and cannot continue is the last. -/
def collectWindows (input : Bytes) (bound stop : Nat) (into : List Candidate) (unreadable : Bool) :
    Except (EngineError ε) (List Candidate × Bool) :=
  if _hstop : stop ≤ bound then
    match scanParsedPaths dictionary explicit matrix anchor (anchor + stop) anchor ⟨[], []⟩
        ⟨into, [], (matrix.columns.getD (anchor + stop) []).isEmpty, unreadable⟩ with
    | .error e => .error e
    | .ok buf =>
      let rows := flushWindowBatch buf.addon (orderWindowTail buf.system into.length)
      if !buf.continued && rows.length != into.length then .ok (rows, buf.unreadable)
      else collectWindows input bound (skipSeparators input bound (stop + 1)) rows buf.unreadable
  else .ok (into, unreadable)
termination_by bound + 1 - stop
decreasing_by
  have := le_skipSeparators input bound (stop + 1)
  omega

/-- The scan of all windows of a suffix, over the retained matrix of the whole buffer. -/
def collectWindowScan (retained : Option ParsedMatrix) (raw input : Bytes) (into : List Candidate)
    (unreadable : Bool) : Except (EngineError ε) (List Candidate × Bool) :=
  match retained with
  | none => .ok (into, unreadable)
  | some matrix =>
    let anchor := raw.length - input.length
    collectWindows dictionary explicit matrix anchor input (matrix.bound - anchor) 1 into unreadable

end Scan

/-! ## What a search adds -/

namespace ScanBuf

/-- A window before its first search. -/
def empty : ScanBuf := ⟨[], [], false, false⟩

/-- A window and what was found behind it. -/
def append (buf found : ScanBuf) : ScanBuf :=
  ⟨buf.system ++ found.system, buf.addon ++ found.addon, buf.continued || found.continued,
    buf.unreadable || found.unreadable⟩

theorem append_empty (buf : ScanBuf) : buf.append empty = buf := by
  simp [append, empty]

theorem append_assoc (a b c : ScanBuf) : (a.append b).append c = a.append (b.append c) := by
  simp [append, Bool.or_assoc]

/-- A loop whose steps add what they find on their own. -/
theorem foldlM_append {ε ι : Type} {f : ScanBuf → ι → Except ε ScanBuf}
    (hf : ∀ buf i, f buf i = (f empty i).map buf.append) :
    ∀ (l : List ι) (buf : ScanBuf), l.foldlM f buf = (l.foldlM f empty).map buf.append
  | [], buf => congrArg ok (append_empty buf).symm
  | i :: l, buf => by
    rw [foldlM_cons, foldlM_cons, hf buf i]
    cases hstep : f empty i with
    | error e => rfl
    | ok found =>
      change l.foldlM f (buf.append found) = (l.foldlM f found).map buf.append
      rw [foldlM_append hf l (buf.append found), foldlM_append hf l found]
      cases l.foldlM f empty with
      | error e => rfl
      | ok rest => exact congrArg ok (append_assoc buf found rest)

end ScanBuf

section Frame

variable {ε : Type} {dictionary : CandidateDictionary ε} {explicit : Bool} {matrix : ParsedMatrix} {anchor stop : Nat}

theorem lookupAndAppend_eq (sequence : List SyllableKey) (tones : List Nat) (stop : Nat) (buf : ScanBuf) :
    lookupAndAppend dictionary sequence tones stop buf =
      (lookupAndAppend dictionary sequence tones stop .empty).map buf.append := by
  unfold lookupAndAppend
  cases dictionary.lookupCandidatesInto sequence with
  | error e => rfl
  | ok found =>
    cases tones.any (· != 0) with
    | false =>
      cases dictionary.lookupAddonCandidatesInto sequence with
      | error e => rfl
      | ok addon =>
        refine congrArg ok ?_
        simp [ScanBuf.append, ScanBuf.empty, appendScanEntries]
    | true =>
      cases dictionary.trellisRecords sequence tones with
      | error e => rfl
      | ok toned =>
        cases dictionary.lookupAddonCandidatesInto sequence with
        | error e => rfl
        | ok addon =>
          refine congrArg ok ?_
          simp [ScanBuf.append, ScanBuf.empty, appendScanEntries]

theorem lookUpPath_eq (path : KeyPath) (stop : Nat) (buf : ScanBuf) :
    lookUpPath dictionary path stop buf = (lookUpPath dictionary path stop .empty).map buf.append := by
  unfold lookUpPath
  dsimp only
  split_ifs
  · exact ScanBuf.foldlM_append (fun buf sequence => lookupAndAppend_eq sequence path.tones stop buf) _ buf
  · exact lookupAndAppend_eq path.keys path.tones stop buf

/-- A search appends to what was found. -/
theorem searchDictionary_eq (path : KeyPath) (stop : Nat) (buf : ScanBuf) :
    searchDictionary dictionary path stop buf = (searchDictionary dictionary path stop .empty).map buf.append := by
  unfold searchDictionary
  cases dictionary.candidateSearchInto path.keys path.tones with
  | error e => rfl
  | ok answer =>
    cases answer with
    | some found =>
      cases dictionary.lookupAddonCandidatesInto path.keys with
      | error e => rfl
      | ok addon =>
        cases dictionary.phrasePrefixExistsAddon path.keys with
        | error e => rfl
        | ok addonExtends =>
          refine congrArg ok ?_
          simp [ScanBuf.append, ScanBuf.empty, appendScanEntries, Bool.or_assoc]
    | none =>
      change (lookUpPath dictionary path stop buf >>= _) = Except.map _ (lookUpPath dictionary path stop .empty >>= _)
      rw [lookUpPath_eq path stop buf]
      cases lookUpPath dictionary path stop .empty with
      | error e => rfl
      | ok found =>
        cases dictionary.phrasePrefixExists path.keys with
        | error e => rfl
        | ok canExtend =>
          cases dictionary.phrasePrefixExistsAddon path.keys with
          | error e => rfl
          | ok addonExtend =>
            refine congrArg ok ?_
            simp [ScanBuf.append, Bool.or_assoc]

/-- A search adds what it finds on its own. -/
theorem searchScanPath_eq (path : KeyPath) (stop : Nat) (buf : ScanBuf) :
    searchScanPath dictionary explicit anchor path stop buf =
      (searchScanPath dictionary explicit anchor path stop .empty).map buf.append := by
  unfold searchScanPath
  cases explicit with
  | false => exact searchDictionary_eq path _ buf
  | true =>
    rw [if_pos rfl, if_pos rfl]
    cases @checkTonedIncomplete ε path with
    | error e => rfl
    | ok _ => exact searchDictionary_eq path _ buf

end Frame

/-! ## The visits of a window -/

/-- What the walk of a window meets : a key that crosses its end, or a path. -/
inductive Visit where
  | crosses
  | path (path : KeyPath)
  deriving DecidableEq

section Visits

variable {ε : Type} (dictionary : CandidateDictionary ε) (explicit : Bool) (matrix : ParsedMatrix) (anchor : Nat)

/-- The visits of a window, in order. -/
def scanVisits (stop node : Nat) (path : KeyPath) : List Visit :=
  if h : node < stop ∧ matrix.zeros.getD node false = true then scanVisits stop (node + 1) path
  else
    (matrix.columns.getD node []).flatMap fun key =>
      if stop < key.to_ then [.crosses]
      else
        let longer : KeyPath := ⟨path.keys ++ [key.key], path.tones ++ [key.tone]⟩
        if key.to_ = stop then [.path longer]
        else if _hroom : longer.keys.length < maxPhraseLength then scanVisits stop key.to_ longer
        else []
termination_by (maxPhraseLength - path.keys.length, stop - node)
decreasing_by
  · exact Prod.Lex.right _ (by omega)
  · refine Prod.Lex.left _ _ ?_
    rw [List.length_append, List.length_singleton] at _hroom ⊢
    omega

/-- One visit. -/
def visit (stop : Nat) (buf : ScanBuf) : Visit → Except (EngineError ε) ScanBuf
  | .crosses => .ok { buf with continued := true }
  | .path path => searchScanPath dictionary explicit anchor path stop buf

variable {dictionary explicit matrix anchor}

theorem foldlM_flatMap {α β σ δ : Type} {f : σ → β → Except δ σ} {g : α → List β} :
    ∀ (l : List α) (s : σ), (l.flatMap g).foldlM f s = l.foldlM (fun s a => (g a).foldlM f s) s
  | [], s => rfl
  | a :: l, s => by
    rw [flatMap_cons, foldlM_append, foldlM_cons]
    exact congrArg _ (funext fun s => foldlM_flatMap l s)

/-- The scan is a fold over its visits. -/
theorem visits_eq (stop : Nat) : ∀ (node : Nat) (path : KeyPath) (buf : ScanBuf), matrix.hasCell stop = true →
    scanParsedPaths dictionary explicit matrix anchor stop node path buf =
      (scanVisits matrix stop node path).foldlM (visit dictionary explicit anchor stop) buf := by
  intro node path
  induction node, path using scanVisits.induct matrix stop with
  | case1 node path h ih =>
    intro buf hcell
    rw [scanParsedPaths, scanVisits, dif_pos h, dif_pos h, hcell]
    exact ih buf hcell
  | case2 node path h ih =>
    intro buf hcell
    rw [scanParsedPaths, scanVisits, dif_neg h, dif_neg h, hcell, foldlM_flatMap]
    refine congrArg (fun step => List.foldlM step buf (matrix.columns.getD node [])) (funext₂ fun buf key => ?_)
    by_cases hcross : stop < key.to_
    · rw [if_pos hcross, if_pos hcross]
      rfl
    rw [if_neg hcross, if_neg hcross]
    dsimp only
    by_cases hend : key.to_ = stop
    · rw [if_pos hend, if_pos hend, foldlM_cons]
      exact (bind_pure _).symm
    rw [if_neg hend, if_neg hend]
    split_ifs with hroom
    · exact ih key hroom buf hcell
    · rfl

/-- The visits of a window without a cell at its end are none that the walk makes. -/
theorem scanParsedPaths_of_not_hasCell {stop node : Nat} {path : KeyPath} {buf : ScanBuf}
    (hcell : matrix.hasCell stop = false) :
    scanParsedPaths dictionary explicit matrix anchor stop node path buf = .ok buf := by
  rw [scanParsedPaths, hcell]
  rfl

/-! ## Key paths of a window -/

variable {last : ScanKey → Prop} {p : Nat}

/-- Keys one behind the other over zero cells, all but the last ending before `stop`. -/
inductive Leads (matrix : ParsedMatrix) (stop : Nat) (last : ScanKey → Prop) : Nat → List ScanKey → Prop
  | zero {p : Nat} {keys : List ScanKey} : p < stop → matrix.zeros.getD p false = true →
      Leads matrix stop last (p + 1) keys → Leads matrix stop last p keys
  | last {p : Nat} {key : ScanKey} : key ∈ matrix.columns.getD p [] → last key → Leads matrix stop last p [key]
  | key {p : Nat} {key : ScanKey} {keys : List ScanKey} : key ∈ matrix.columns.getD p [] → key.to_ < stop →
      Leads matrix stop last key.to_ keys → Leads matrix stop last p (key :: keys)

/-- The key paths from a position to `stop`. -/
def Spans (matrix : ParsedMatrix) (stop : Nat) : Nat → List ScanKey → Prop :=
  Leads matrix stop fun key => key.to_ = stop

/-- The key paths from a position to a key that crosses `stop`. -/
def Crosses (matrix : ParsedMatrix) (stop : Nat) : Nat → List ScanKey → Prop :=
  Leads matrix stop fun key => stop < key.to_

/-- No key stands at a zero cell before the bound. -/
def ParsedMatrix.Blank (matrix : ParsedMatrix) : Prop :=
  ∀ p, p < matrix.bound → matrix.zeros.getD p false = true → matrix.columns.getD p [] = []

theorem Leads.ne_nil {stop : Nat} {keys : List ScanKey} (h : Leads matrix stop last p keys) : keys ≠ [] := by
  induction h with
  | zero _ _ _ ih => exact ih
  | last => exact cons_ne_nil _ _
  | key => exact cons_ne_nil _ _

theorem leads_zero_iff {stop : Nat} (hp : p < stop)
    (hzero : matrix.zeros.getD p false = true) (hempty : matrix.columns.getD p [] = []) (keys : List ScanKey) :
    Leads matrix stop last p keys ↔ Leads matrix stop last (p + 1) keys := by
  constructor
  · intro h
    cases h with
    | zero _ _ hrest => exact hrest
    | last hkey =>
      rw [hempty] at hkey
      cases hkey
    | key hkey =>
      rw [hempty] at hkey
      cases hkey
  · exact Leads.zero hp hzero

theorem leads_key_iff {stop : Nat} (hzero : ¬(p < stop ∧ matrix.zeros.getD p false = true)) (keys : List ScanKey) :
    Leads matrix stop last p keys ↔ ∃ key ∈ matrix.columns.getD p [], (last key ∧ keys = [key]) ∨
      (key.to_ < stop ∧ ∃ rest, Leads matrix stop last key.to_ rest ∧ keys = key :: rest) := by
  constructor
  · intro h
    cases h with
    | zero hp hcell => exact absurd ⟨hp, hcell⟩ hzero
    | last hkey hlast => exact ⟨_, hkey, inl ⟨hlast, rfl⟩⟩
    | key hkey hto hrest => exact ⟨_, hkey, inr ⟨hto, _, hrest, rfl⟩⟩
  · rintro ⟨key, hkey, ⟨hlast, rfl⟩ | ⟨hto, rest, hrest, rfl⟩⟩
    · exact .last hkey hlast
    · exact .key hkey hto hrest

/-- What a visit is of : a key path to the end of the window, or to a key that crosses it. -/
def Visits (matrix : ParsedMatrix) (stop node : Nat) (path : KeyPath) (keys : List ScanKey) (found : Visit) : Prop :=
  Spans matrix stop node keys ∧ found = .path (path.extend keys) ∨ Crosses matrix stop node keys ∧ found = .crosses

theorem visits_key_iff {stop node : Nat} (hzero : ¬(node < stop ∧ matrix.zeros.getD node false = true))
    (path : KeyPath) (keys : List ScanKey) (found : Visit) :
    Visits matrix stop node path keys found ↔ ∃ key ∈ matrix.columns.getD node [],
      (keys = [key] ∧ (key.to_ = stop ∧ found = .path (path.extend [key]) ∨ stop < key.to_ ∧ found = .crosses)) ∨
      (key.to_ < stop ∧ ∃ rest, keys = key :: rest ∧ Visits matrix stop key.to_ (path.extend [key]) rest found) := by
  unfold Visits Spans Crosses
  rw [leads_key_iff hzero, leads_key_iff hzero]
  constructor
  · rintro (⟨⟨key, hkey, ⟨hlast, rfl⟩ | ⟨hto, rest, hrest, rfl⟩⟩, rfl⟩ |
      ⟨⟨key, hkey, ⟨hlast, rfl⟩ | ⟨hto, rest, hrest, rfl⟩⟩, rfl⟩)
    · exact ⟨key, hkey, inl ⟨rfl, inl ⟨hlast, rfl⟩⟩⟩
    · exact ⟨key, hkey, inr ⟨hto, rest, rfl, inl ⟨hrest, congrArg Visit.path (KeyPath.extend_cons path key rest)⟩⟩⟩
    · exact ⟨key, hkey, inl ⟨rfl, inr ⟨hlast, rfl⟩⟩⟩
    · exact ⟨key, hkey, inr ⟨hto, rest, rfl, inr ⟨hrest, rfl⟩⟩⟩
  · rintro ⟨key, hkey, ⟨rfl, ⟨hto, rfl⟩ | ⟨hto, rfl⟩⟩ | ⟨hto, rest, rfl, ⟨hrest, rfl⟩ | ⟨hrest, rfl⟩⟩⟩
    · exact inl ⟨⟨key, hkey, inl ⟨hto, rfl⟩⟩, rfl⟩
    · exact inr ⟨⟨key, hkey, inl ⟨hto, rfl⟩⟩, rfl⟩
    · exact inl ⟨⟨key, hkey, inr ⟨hto, rest, hrest, rfl⟩⟩,
        congrArg Visit.path (KeyPath.extend_cons path key rest).symm⟩
    · exact inr ⟨⟨key, hkey, inr ⟨hto, rest, hrest, rfl⟩⟩, rfl⟩

/-- The visits of a window are its key paths of at most the longest phrase. -/
theorem mem_scanVisits {stop : Nat} (hblank : matrix.Blank) (hstop : stop ≤ matrix.bound) (found : Visit) :
    ∀ (node : Nat) (path : KeyPath), path.keys.length < maxPhraseLength →
      (found ∈ scanVisits matrix stop node path ↔ ∃ keys, path.keys.length + keys.length ≤ maxPhraseLength ∧
        Visits matrix stop node path keys found) := by
  intro node path
  induction node, path using scanVisits.induct matrix stop with
  | case1 node path h ih =>
    intro hroom
    have hempty := hblank node (by omega) h.2
    rw [scanVisits, dif_pos h, ih hroom]
    simp only [Visits, Spans, Crosses, leads_zero_iff h.1 h.2 hempty]
  | case2 node path h ih =>
    intro hroom
    rw [scanVisits, dif_neg h, mem_flatMap]
    simp only [visits_key_iff h]
    constructor
    · rintro ⟨key, hkey, hfound⟩
      split_ifs at hfound with hcross hend hlong
      · obtain rfl := mem_singleton.mp hfound
        exact ⟨[key], hroom, key, hkey, inl ⟨rfl, inr ⟨hcross, rfl⟩⟩⟩
      · obtain rfl := mem_singleton.mp hfound
        exact ⟨[key], hroom, key, hkey, inl ⟨rfl, inl ⟨hend, rfl⟩⟩⟩
      · obtain ⟨rest, hlen, hvisits⟩ := (ih key hlong hlong).mp hfound
        refine ⟨key :: rest, ?_, key, hkey, inr ⟨by omega, rest, rfl, hvisits⟩⟩
        rw [length_append, length_singleton] at hlen
        rw [length_cons]
        omega
      · cases hfound
    · rintro ⟨keys, hlen, key, hkey, ⟨rfl, ⟨hto, rfl⟩ | ⟨hto, rfl⟩⟩ | ⟨hto, rest, rfl, hvisits⟩⟩
      · refine ⟨key, hkey, ?_⟩
        rw [if_neg (by omega), if_pos hto]
        exact mem_singleton.mpr rfl
      · refine ⟨key, hkey, ?_⟩
        rw [if_pos hto]
        exact mem_singleton.mpr rfl
      · have hpositive : 0 < rest.length := by
          rw [length_pos_iff]
          rcases hvisits with ⟨hrest, _⟩ | ⟨hrest, _⟩
          · exact hrest.ne_nil
          · exact hrest.ne_nil
        rw [length_cons] at hlen
        have hlong : (path.keys ++ [key.key]).length < maxPhraseLength := by
          rw [length_append, length_singleton]
          omega
        refine ⟨key, hkey, ?_⟩
        rw [if_neg (by omega), if_neg (by omega), dif_pos hlong]
        refine (ih key hlong hlong).mpr ⟨rest, ?_, hvisits⟩
        rw [length_append, length_singleton]
        omega

end Visits

end Oxpinyin
