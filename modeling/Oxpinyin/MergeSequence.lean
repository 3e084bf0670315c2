import Oxpinyin.ShortestSegment
import Oxpinyin.ToolText
import Mathlib.Data.List.Forall2
import Mathlib.Data.List.Induction

/-!
# Merging segmented text

`feedLine` queues the token of a line and its characters. Sixteen characters or a line of the null token
drain the queue : the longest prefix of it that the search finds becomes one token (`mergeSequence`), and
the first token is printed with its characters (`popFirstToken`).

The queue and the buffer of characters are edited apart. `Backed` says that the characters are the texts
of the queued tokens one behind the other, and `feedLines_spec` that no run of well-formed lines loses,
repeats or reorders a character, and that the loops end. Only a search of more than four tokens aborts.
-/

namespace Oxpinyin.MergeSequence

open List ShortestSegment Tool Run Or

/-! ## Words as text -/

/-- A word in one to six bytes. -/
def unicharToUtf8 (word : BitVec 32) : Bytes :=
  let c := word.toNat
  if c < 0x80 then [UInt8.ofNat c]
  else
    let (first, count) :=
      if c < 0x800 then (0xc0, 1) else if c < 0x10000 then (0xe0, 2) else if c < 0x200000 then (0xf0, 3)
      else if c < 0x4000000 then (0xf8, 4) else (0xfc, 5)
    UInt8.ofNat (first + c / 64 ^ count) ::
      (List.range count).reverse.map fun i => UInt8.ofNat (0x80 + c / 64 ^ i % 64)

/-- The words that a conversion reads, up to the first zero. -/
def outward (words : List (BitVec 32)) : List (BitVec 32) := words.takeWhile (· != 0)

/-- `g_ucs4_to_utf8`. A word with the top bit has no encoding. -/
def ucs4ToUtf8 (words : List (BitVec 32)) : Option Bytes :=
  if (outward words).all (· < 0x80000000) then some ((outward words).flatMap unicharToUtf8) else none

/-- The bytes before the first zero. -/
def cString (bytes : Bytes) : Bytes := bytes.takeWhile (· != 0)

/-- The text of words as `%s` reads it. -/
def textOf (words : List (BitVec 32)) : Option Bytes := (ucs4ToUtf8 words).map cString

/-! ## The merger -/

/-- A phrase item : its words and its declared length. -/
structure Item where
  words : List (BitVec 32)
  length : Nat

/-- The phrase table and the items of the loaded libraries. -/
structure PhraseSearch where
  search : List (BitVec 32) → Found
  item : PhraseToken → Option Item

/-- A queued token and its number of characters. -/
structure TokenInfo where
  token : PhraseToken
  tokenLen : Nat

structure Merger where
  unichars : List (BitVec 32)
  queue : List TokenInfo

/-- A printed line. -/
inductive Printed where
  /-- A token and its text, none where there is no conversion. -/
  | token (token : PhraseToken) (text : Option Bytes)
  /-- A line echoed. -/
  | text (line : Bytes)

/-- How a run stops short. -/
inductive Stop where
  /-- An assertion of the pin. -/
  | pinAssert
  /-- The assertion on the number of tokens. -/
  | manyTokens
  /-- The refusal of a token without a text. -/
  | exit
  /-- A slice or a subtraction out of range. -/
  | panic
  /-- A loop that takes more turns than the queue has tokens. -/
  | diverges
  deriving DecidableEq

/-- The token that opens a sentence. -/
def sentenceStart : PhraseToken := 1

def maxPhraseLength : Nat := 16

namespace Merger

def new : Merger := ⟨[], []⟩

/-- The number of characters of the queued tokens. -/
def sequenceLength (merger : Merger) : Nat := (merger.queue.map TokenInfo.tokenLen).sum

end Merger

section Feed

variable (search : PhraseSearch)

/-- The longest prefix of the queue that the search finds : its token, its characters and the number of
its tokens. -/
def longestPrefix (merger : Merger) : Nat → Nat → Except Stop (Option (PhraseToken × Nat × Nat))
  | index, seqLen =>
    if seqLen = 0 then .ok none
    else if merger.unichars.length < seqLen then .error .panic
    else
      let found := search.search (merger.unichars.take seqLen)
      if found.ok then
        match found.firstToken with
        | none => .error .manyTokens
        | some token => .ok (some (token, seqLen, index))
      else
        match index with
        | 0 => .error .panic
        | index + 1 =>
          match merger.queue[index]? with
          | none => .error .panic
          | some info =>
            if seqLen < info.tokenLen then .error .panic
            else longestPrefix merger index (seqLen - info.tokenLen)

/-- One token in place of the longest prefix that the search finds. -/
def mergeSequence (merger : Merger) : Except Stop Merger :=
  if merger.queue = [] then .error .pinAssert
  else
    (longestPrefix search merger merger.queue.length merger.sequenceLength).map fun merged =>
      match merged with
      | some (token, tokenLen, index) => { merger with queue := ⟨token, tokenLen⟩ :: merger.queue.drop index }
      | none => merger

/-- Prints the first token with its characters. -/
def popFirstToken (merger : Merger) : Except Stop (Merger × Printed) :=
  match merger.queue with
  | [] => .error .pinAssert
  | info :: queue =>
    if merger.unichars.length < info.tokenLen then .error .panic
    else
      let bytes := ucs4ToUtf8 (merger.unichars.take info.tokenLen)
      if bytes.isNone ∧ info.tokenLen ≠ 0 then .error .pinAssert
      else .ok (⟨merger.unichars.drop info.tokenLen, queue⟩, .token info.token (bytes.map cString))

/-- The merger and what it has printed. -/
structure State where
  merger : Merger
  output : List Printed

/-- Merges and pops while the condition holds. -/
def drainWhile (more : Merger → Bool) : Nat → State → Except Stop State
  | fuel, state =>
    if more state.merger then
      match fuel with
      | 0 => .error .diverges
      | fuel + 1 => do
        let merged ← mergeSequence search state.merger
        let popped ← popFirstToken merged
        drainWhile more fuel ⟨popped.1, state.output ++ [popped.2]⟩
    else .ok state

/-- The text of a token. The token of a sentence's start has one of its own. -/
def tokenText (token : PhraseToken) : Option Bytes :=
  if token >>> 24 &&& 0x0F = 0 then if token = sentenceStart then some (ascii "<start>") else none
  else (search.item token).bind fun item => textOf item.words

/-- The token and the phrase of a line. -/
def lineParts (line : Bytes) : Except Stop (PhraseToken × Bytes) :=
  if line = [] then .ok (nullToken, [])
  else
    match strsplitSet line (ascii " \t") 2 with
    | [token, phrase] => .ok (atoi (cString token), cString phrase)
    | _ => .error .pinAssert

/-- The words and the length of a token's item, none of a special token. -/
def itemOf (token : PhraseToken) : Item := (search.item token).getD ⟨[], 0⟩

/-- Reads one line. -/
def feedLine (state : State) (line : Bytes) : Except Stop State := do
  let (token, phrase) ← lineParts line
  if token = nullToken then
    let state ← drainWhile search (fun merger => !merger.queue.isEmpty) state.merger.queue.length state
    if state.merger.unichars ≠ [] ∨ state.merger.queue ≠ [] then .error .pinAssert
    else .ok { state with output := state.output ++ [.text line] }
  else
    match tokenText search token with
    | none => .error .exit
    | some text =>
      if text ≠ phrase then .error .pinAssert
      else
        let item := itemOf search token
        let merger : Merger :=
          ⟨state.merger.unichars ++ item.words, state.merger.queue ++ [⟨token, item.length⟩]⟩
        drainWhile search (fun merger => maxPhraseLength ≤ merger.sequenceLength) merger.queue.length
          ⟨merger, state.output⟩

/-- Reads lines. -/
def feedLines (lines : List Bytes) : Except Stop State := lines.foldlM (feedLine search) ⟨.new, []⟩

end Feed

/-! ## Conversions -/

/-- The conversion reaches the first zero. -/
def Convertible (words : List (BitVec 32)) : Prop := ∀ word ∈ outward words, word < 0x80000000

theorem isSome_ucs4ToUtf8 {words : List (BitVec 32)} : (ucs4ToUtf8 words).isSome ↔ Convertible words := by
  unfold ucs4ToUtf8 Convertible
  simp only [all_eq_true, decide_eq_true_eq]
  split_ifs with h
  · exact ⟨fun _ => h, fun _ => rfl⟩
  · exact ⟨fun hnone => (Bool.false_ne_true hnone).elim, fun hall => absurd hall h⟩

theorem Convertible.append {front back : List (BitVec 32)} (hfront : Convertible front)
    (hback : Convertible back) : Convertible (front ++ back) := by
  intro word hword
  unfold outward at hword
  rw [takeWhile_append] at hword
  split_ifs at hword with hall
  · have hsame : front.takeWhile (· != 0) = front := (List.takeWhile_prefix _).eq_of_length hall
    rcases mem_append.mp hword with hword | hword
    · exact hfront word (by rw [outward, hsame]; exact hword)
    · exact hback word hword
  · exact hfront word hword

theorem Convertible.flatten {texts : List (List (BitVec 32))} (h : ∀ text ∈ texts, Convertible text) :
    Convertible texts.flatten := by
  induction texts with
  | nil => simp [Convertible, outward]
  | cons text texts ih =>
    rw [flatten_cons]
    exact (h text mem_cons_self).append (ih fun later hlater => h later (mem_cons_of_mem _ hlater))

section Facts

variable {search : PhraseSearch} {merger : Merger} {texts : List (List (BitVec 32))}

/-! ## What the queue stands for -/

variable (search) in
/-- A queued token with its text : the words of its item, or what the search found it for. -/
structure Owns (info : TokenInfo) (text : List (BitVec 32)) : Prop where
  length : info.tokenLen = text.length
  convertible : Convertible text
  named : text = (itemOf search info.token).words ∨
    (search.search text).ok = true ∧ (search.search text).firstToken = some info.token

variable (search) in
/-- The characters are the texts of the queued tokens. -/
structure Backed (merger : Merger) (texts : List (List (BitVec 32))) : Prop where
  owns : List.Forall₂ (Owns search) merger.queue texts
  chars : merger.unichars = texts.flatten

variable (search) in
/-- Some words have more than four tokens. -/
def HasMany : Prop := ∃ words, 4 < (search.search words).tokens.length

section

variable (h : Backed search merger texts)
include h

theorem Backed.sequenceLength : merger.sequenceLength = merger.unichars.length := by
  rw [Merger.sequenceLength, h.chars, length_flatten]
  congr 1
  have hmap : ∀ {queue : List TokenInfo} {texts : List (List (BitVec 32))},
      List.Forall₂ (Owns search) queue texts → queue.map TokenInfo.tokenLen = texts.map List.length := by
    intro queue texts howns
    induction howns with
    | nil => rfl
    | cons hown _ ih => rw [map_cons, map_cons, ih, hown.length]
  exact hmap h.owns

theorem Backed.convertible : ∀ text ∈ texts, Convertible text := by
  intro text htext
  obtain ⟨i, hi, rfl⟩ := mem_iff_getElem.mp htext
  obtain ⟨hlength, howns⟩ := forall₂_iff_get.mp h.owns
  exact (howns i (by omega) hi).convertible

theorem Backed.take (index : Nat) :
    merger.unichars.take ((texts.take index).flatten.length) = (texts.take index).flatten := by
  have hsplit : merger.unichars = (texts.take index).flatten ++ (texts.drop index).flatten := by
    rw [h.chars, ← flatten_append, take_append_drop]
  rw [hsplit, take_left]

theorem Backed.drop (index : Nat) :
    merger.unichars.drop ((texts.take index).flatten.length) = (texts.drop index).flatten := by
  have hsplit : merger.unichars = (texts.take index).flatten ++ (texts.drop index).flatten := by
    rw [h.chars, ← flatten_append, take_append_drop]
  rw [hsplit, drop_left]

/-- The prefixes of the queue are tried from the longest on, by induction on their number of tokens. -/
theorem Backed.longestPrefix : ∀ index, index ≤ texts.length →
    longestPrefix search merger index (texts.take index).flatten.length = .ok none ∨
    (longestPrefix search merger index (texts.take index).flatten.length = .error .manyTokens ∧
      HasMany search) ∨
    ∃ token shorter, 0 < shorter ∧ shorter ≤ index ∧
      (search.search (texts.take shorter).flatten).ok = true ∧
      (search.search (texts.take shorter).flatten).firstToken = some token ∧
      longestPrefix search merger index (texts.take index).flatten.length =
        .ok (some (token, (texts.take shorter).flatten.length, shorter)) := by
  intro index
  induction index with
  | zero =>
    intro _
    left
    rw [MergeSequence.longestPrefix]
    rfl
  | succ index ih =>
    intro hle
    have hlt : index < texts.length := hle
    have hroom : ¬ merger.unichars.length < (texts.take (index + 1)).flatten.length := by
      have hlength := congrArg List.length (h.take (index + 1))
      rw [length_take] at hlength
      omega
    rw [MergeSequence.longestPrefix, h.take, if_neg hroom]
    dsimp only
    split_ifs with hzero hfound
    · exact inl rfl
    · cases hfirst : (search.search (texts.take (index + 1)).flatten).firstToken with
      | none =>
        refine inr (inl ⟨rfl, (texts.take (index + 1)).flatten, ?_⟩)
        unfold Found.firstToken at hfirst
        split_ifs at hfirst with hmany
        exact hmany
      | some token =>
        exact inr (inr ⟨token, index + 1, Nat.succ_pos _, Nat.le_refl _, hfound, hfirst, rfl⟩)
    · obtain ⟨hqueue, howns⟩ := forall₂_iff_get.mp h.owns
      have hget : merger.queue[index]? = some merger.queue[index] := getElem?_eq_getElem (by omega)
      have hown := howns index (by omega) hlt
      have hsum : (texts.take (index + 1)).flatten.length =
          (texts.take index).flatten.length + texts[index].length := by
        rw [take_succ_eq_append_getElem hlt, flatten_append, length_append, flatten_singleton]
      have htoken : (merger.queue[index]).tokenLen = texts[index].length := hown.length
      rw [hget]
      dsimp only
      rw [if_neg (by omega), htoken, hsum, Nat.add_sub_cancel]
      rcases ih (by omega) with hnone | hmany | ⟨token, shorter, hpos, hshorter, hok, hfirst, hsome⟩
      · exact inl hnone
      · exact inr (inl hmany)
      · exact inr (inr ⟨token, shorter, hpos, Nat.le_succ_of_le hshorter, hok, hfirst, hsome⟩)

/-- Merging replaces tokens by one with their characters. -/
theorem Backed.mergeSequence (hqueue : merger.queue ≠ []) :
    (mergeSequence search merger = .error .manyTokens ∧ HasMany search) ∨
    ∃ merged texts', mergeSequence search merger = .ok merged ∧ Backed search merged texts' ∧
      merged.unichars = merger.unichars ∧ merged.queue ≠ [] ∧ merged.queue.length ≤ merger.queue.length := by
  have hcount := h.owns.length_eq
  have hall : merger.sequenceLength = (texts.take merger.queue.length).flatten.length := by
    rw [h.sequenceLength, h.chars, hcount, take_length]
  unfold MergeSequence.mergeSequence
  rw [if_neg hqueue, hall]
  rcases h.longestPrefix merger.queue.length (Nat.le_of_eq hcount) with hnone | ⟨hmany, hlong⟩ | hsome
  · right
    rw [hnone]
    exact ⟨merger, texts, rfl, h, rfl, hqueue, Nat.le_refl _⟩
  · left
    rw [hmany]
    exact ⟨rfl, hlong⟩
  · obtain ⟨token, shorter, hpos, hshorter, hok, hfirst, hsame⟩ := hsome
    right
    rw [hsame]
    refine ⟨_, (texts.take shorter).flatten :: texts.drop shorter, rfl, ⟨?_, ?_⟩, rfl, by simp, ?_⟩
    · exact .cons ⟨rfl, Convertible.flatten fun text htext => h.convertible text (mem_of_mem_take htext),
        inr ⟨hok, hfirst⟩⟩ (forall₂_drop shorter h.owns)
    · dsimp only
      rw [h.chars, flatten_cons, ← flatten_append, take_append_drop]
    · dsimp only
      rw [length_cons, length_drop]
      omega

/-- The first token is printed with its text, and its characters leave the buffer. -/
theorem Backed.popFirstToken (hqueue : merger.queue ≠ []) :
    ∃ info queue text texts', merger.queue = info :: queue ∧ texts = text :: texts' ∧ Owns search info text ∧
      popFirstToken merger = .ok (⟨texts'.flatten, queue⟩, .token info.token (textOf text)) ∧
      Backed search ⟨texts'.flatten, queue⟩ texts' := by
  obtain ⟨info, queue, hcons⟩ := exists_cons_of_ne_nil hqueue
  have howns := h.owns
  rw [hcons] at howns
  cases howns with
  | @cons _ text _ texts' hown hrest =>
    have htake := h.take 1
    have hdrop := h.drop 1
    simp only [take_succ_cons, take_zero, flatten_singleton, drop_succ_cons, drop_zero] at htake hdrop
    have hsome := isSome_ucs4ToUtf8.mpr hown.convertible
    have hroom : ¬ merger.unichars.length < text.length := by
      have hlength := congrArg List.length htake
      rw [length_take] at hlength
      omega
    refine ⟨info, queue, text, texts', hcons, rfl, hown, ?_, ⟨hrest, rfl⟩⟩
    unfold MergeSequence.popFirstToken
    rw [hcons]
    dsimp only
    rw [hown.length, if_neg hroom, htake, hdrop, if_neg fun hnone => ?_]
    · rfl
    · rw [Option.isNone_iff_eq_none.mp hnone.1] at hsome
      cases hsome

end

/-! ## Runs -/

/-- The token and the text of a printed token line. -/
def Printed.tokenLine : Printed → Option (PhraseToken × Option Bytes)
  | .token handle phrase => some (handle, phrase)
  | .text _ => none

variable (search) in
/-- A printed line with the characters it stands for. -/
structure Prints (line : PhraseToken × Option Bytes) (words : List (BitVec 32)) : Prop where
  text : line.2 = textOf words
  owns : Owns search ⟨line.1, words.length⟩ words

variable (search) in
/-- What has been printed, and then the queue, is what has been fed. -/
structure Follows (fed : List (BitVec 32)) (state : State) : Prop where
  backed : ∃ texts, Backed search state.merger texts
  printed : ∃ texts, List.Forall₂ (Prints search) (state.output.filterMap Printed.tokenLine) texts ∧
    texts.flatten ++ state.merger.unichars = fed

variable {fed : List (BitVec 32)} {state : State}

theorem follows_new : Follows search [] ⟨.new, []⟩ where
  backed := ⟨[], .nil, rfl⟩
  printed := ⟨[], .nil, rfl⟩

/-- One turn of a draining loop takes a token off the queue. -/
theorem Follows.turn (h : Follows search fed state) (hqueue : state.merger.queue ≠ []) :
    (mergeSequence search state.merger = .error .manyTokens ∧ HasMany search) ∨
    ∃ merged popped, mergeSequence search state.merger = .ok merged ∧ popFirstToken merged = .ok popped ∧
      Follows search fed ⟨popped.1, state.output ++ [popped.2]⟩ ∧
      popped.1.queue.length < state.merger.queue.length := by
  obtain ⟨texts, hbacked⟩ := h.backed
  rcases hbacked.mergeSequence hqueue with hmany | ⟨merged, texts', hmerge, hmerged, hchars, hne, hshort⟩
  · exact inl hmany
  · obtain ⟨info, queue, text, rest, hcons, rfl, hown, hpop, hrest⟩ := hmerged.popFirstToken hne
    obtain ⟨printed, hprinted, hfed⟩ := h.printed
    refine inr ⟨merged, _, hmerge, hpop, ⟨⟨rest, hrest⟩, printed ++ [text], ?_, ?_⟩, ?_⟩
    · rw [filterMap_append]
      refine rel_append hprinted (.cons ⟨rfl, ?_⟩ .nil)
      rw [← hown.length]
      exact hown
    · have hsplit := hmerged.chars
      rw [hchars, flatten_cons] at hsplit
      dsimp only
      rw [flatten_append, flatten_singleton, append_assoc, ← hsplit, hfed]
    · rw [hcons] at hshort
      exact hshort

/-- A draining loop ends, when what it waits for needs a queue. -/
theorem Follows.drainWhile {more : Merger → Bool} (hmore : ∀ merger, more merger = true → merger.queue ≠ []) :
    ∀ {fuel : Nat} {state : State}, Follows search fed state → state.merger.queue.length ≤ fuel →
      (drainWhile search more fuel state = .error .manyTokens ∧ HasMany search) ∨
      ∃ after, drainWhile search more fuel state = .ok after ∧ Follows search fed after ∧
        more after.merger = false := by
  intro fuel
  induction fuel with
  | zero =>
    intro state h hfuel
    have hnil : state.merger.queue = [] := length_eq_zero_iff.mp (Nat.le_zero.mp hfuel)
    have hstop : more state.merger = false := by
      rw [← Bool.not_eq_true]
      exact fun hgo => hmore _ hgo hnil
    rw [MergeSequence.drainWhile, if_neg (by rw [hstop]; exact Bool.false_ne_true)]
    exact inr ⟨state, rfl, h, hstop⟩
  | succ fuel ih =>
    intro state h hfuel
    rw [MergeSequence.drainWhile]
    by_cases hgo : more state.merger = true
    · rw [if_pos hgo]
      rcases h.turn (hmore _ hgo) with ⟨hmany, hlong⟩ | ⟨merged, popped, hmerge, hpop, hnext, hless⟩
      · rw [hmany]
        exact inl ⟨rfl, hlong⟩
      · simp only [hmerge, hpop, bind, Except.bind]
        exact ih hnext (Nat.le_of_lt_succ (Nat.lt_of_lt_of_le hless hfuel))
    · rw [if_neg hgo]
      exact inr ⟨state, rfl, h, by simpa using hgo⟩

/-! ## Lines -/

variable {token : PhraseToken}

variable (search) in
/-- The characters that a line feeds. -/
def lineWords (line : Bytes) : List (BitVec 32) :=
  match lineParts line with
  | .ok (token, _) => if token = nullToken then [] else (itemOf search token).words
  | .error _ => []

variable (search) in
/-- A line of the null token, or of a token whose text is the phrase of the line and whose item has as many
words as it declares. The item of the token of a sentence's start, which is validated by another text, is
none or has a text. -/
def WellFormed (line : Bytes) : Prop :=
  ∃ token phrase, lineParts line = .ok (token, phrase) ∧
    (token ≠ nullToken → tokenText search token = some phrase ∧
      (itemOf search token).words.length = (itemOf search token).length ∧
      (token = sentenceStart → Convertible (itemOf search token).words))

/-- A token that has a text has convertible words. -/
theorem convertible_of_tokenText {text : Bytes} (h : tokenText search token = some text)
    (hstart : token = sentenceStart → Convertible (itemOf search token).words) :
    Convertible (itemOf search token).words := by
  unfold tokenText at h
  split_ifs at h with hspecial htoken
  · exact hstart htoken
  · obtain ⟨item, hitem, htext⟩ := Option.bind_eq_some_iff.mp h
    obtain ⟨bytes, hbytes, _⟩ := Option.map_eq_some_iff.mp htext
    rw [itemOf, hitem, Option.getD_some]
    exact isSome_ucs4ToUtf8.mp (Option.isSome_iff_exists.mpr ⟨bytes, hbytes⟩)

/-- A token behind the queue, with its words behind the characters. -/
theorem Follows.push (h : Follows search fed state)
    (hlength : (itemOf search token).words.length = (itemOf search token).length)
    (hconvertible : Convertible (itemOf search token).words) :
    Follows search (fed ++ (itemOf search token).words)
      ⟨⟨state.merger.unichars ++ (itemOf search token).words,
        state.merger.queue ++ [⟨token, (itemOf search token).length⟩]⟩, state.output⟩ := by
  obtain ⟨texts, hbacked⟩ := h.backed
  obtain ⟨printed, hprinted, hfed⟩ := h.printed
  refine ⟨⟨texts ++ [(itemOf search token).words], rel_append hbacked.owns (.cons ?_ .nil), ?_⟩,
    printed, hprinted, ?_⟩
  · exact ⟨hlength.symm, hconvertible, inl rfl⟩
  · dsimp only
    rw [hbacked.chars, flatten_append, flatten_singleton]
  · dsimp only
    rw [← hfed, append_assoc]

/-- Draining all leaves neither tokens nor characters. -/
theorem Follows.drained (h : Follows search fed state) (hqueue : state.merger.queue = []) :
    state.merger.unichars = [] := by
  obtain ⟨texts, howns, hchars⟩ := h.backed
  rw [hqueue] at howns
  cases howns
  rw [hchars]
  rfl

/-- One line. -/
theorem Follows.feedLine (h : Follows search fed state) {line : Bytes} (hline : WellFormed search line) :
    (feedLine search state line = .error .manyTokens ∧ HasMany search) ∨
    ∃ after, feedLine search state line = .ok after ∧ Follows search (fed ++ lineWords search line) after ∧
      after.merger.sequenceLength < maxPhraseLength := by
  obtain ⟨token, phrase, hparts, htoken⟩ := hline
  unfold MergeSequence.feedLine lineWords
  rw [hparts]
  simp only [bind, Except.bind]
  by_cases hnull : token = nullToken
  · rw [if_pos hnull, if_pos hnull, append_nil]
    have hmore : ∀ merger : Merger, (!merger.queue.isEmpty) = true → merger.queue ≠ [] := by
      intro merger hsome hnil
      rw [hnil] at hsome
      cases hsome
    rcases h.drainWhile hmore (Nat.le_refl _) with ⟨hmany, hlong⟩ | ⟨after, hdrain, hafter, hstop⟩
    · rw [hmany]
      exact inl ⟨rfl, hlong⟩
    · rw [hdrain]
      have hqueue : after.merger.queue = [] := by simpa using hstop
      have hchars := hafter.drained hqueue
      have hclean : ¬ (after.merger.unichars ≠ [] ∨ after.merger.queue ≠ []) := by simp [hqueue, hchars]
      obtain ⟨printed, hprinted, hfed⟩ := hafter.printed
      dsimp only
      rw [if_neg hclean]
      refine inr ⟨_, rfl, ⟨hafter.backed, printed, ?_, hfed⟩, ?_⟩
      · rw [filterMap_append]
        exact (append_nil _).symm ▸ hprinted
      · dsimp only
        rw [Merger.sequenceLength, hqueue]
        decide
  · obtain ⟨htext, hlength, hstart⟩ := htoken hnull
    rw [if_neg hnull, if_neg hnull, htext]
    dsimp only
    rw [if_neg fun hne => hne rfl]
    have hmore : ∀ merger : Merger, decide (maxPhraseLength ≤ merger.sequenceLength) = true →
        merger.queue ≠ [] := by
      intro merger hlong hnil
      rw [decide_eq_true_eq, Merger.sequenceLength, hnil] at hlong
      exact absurd hlong (by decide)
    rcases (h.push hlength (convertible_of_tokenText htext hstart)).drainWhile hmore (Nat.le_refl _) with
      hmany | ⟨after, hdrain, hafter, hstop⟩
    · exact inl hmany
    · exact inr ⟨after, hdrain, hafter, Nat.lt_of_not_le (of_decide_eq_false hstop)⟩

/-- After every run of well-formed lines the pending characters are the texts of the queued tokens, fewer
than sixteen, and they follow, behind the characters of the printed texts, as the characters fed. The run
aborts only at a search of more than four tokens : no other assertion fires, and both loops end. -/
theorem feedLines_spec (search : PhraseSearch) (lines : List Bytes) (h : ∀ line ∈ lines, WellFormed search line) :
    (∃ state, feedLines search lines = .ok state ∧
      (∃ texts, List.Forall₂ (Owns search) state.merger.queue texts ∧ state.merger.unichars = texts.flatten) ∧
      state.merger.unichars.length < maxPhraseLength ∧
      ∃ texts, List.Forall₂ (Prints search) (state.output.filterMap Printed.tokenLine) texts ∧
        texts.flatten ++ state.merger.unichars = lines.flatMap (lineWords search)) ∨
    feedLines search lines = .error .manyTokens ∧ HasMany search := by
  have hrun : feedLines search lines = .error .manyTokens ∧ HasMany search ∨
      ∃ state, feedLines search lines = .ok state ∧
        Follows search (lines.flatMap (lineWords search)) state ∧
        state.merger.sequenceLength < maxPhraseLength := by
    induction lines using List.reverseRecOn with
    | nil => exact Or.inr ⟨_, rfl, follows_new, by decide⟩
    | append_singleton lines line ih =>
      have hlast := h line (mem_append_right _ mem_cons_self)
      unfold feedLines at ih ⊢
      rw [foldlM_append]
      rcases ih fun l hl => h l (mem_append_left _ hl) with ⟨hmany, hlong⟩ | ⟨state, hstate, hfollows, _⟩
      · rw [hmany]
        exact Or.inl ⟨rfl, hlong⟩
      · rw [hstate, flatMap_append, flatMap_singleton]
        simp only [bind, Except.bind, foldlM_cons, foldlM_nil]
        rcases hfollows.feedLine hlast with ⟨hmany, hlong⟩ | ⟨after, hafter, hnext, hshort⟩
        · rw [hmany]
          exact Or.inl ⟨rfl, hlong⟩
        · rw [hafter]
          exact Or.inr ⟨after, rfl, hnext, hshort⟩
  rcases hrun with hmany | ⟨state, hstate, hfollows, hshort⟩
  · exact Or.inr hmany
  · obtain ⟨texts, hbacked⟩ := hfollows.backed
    rw [hbacked.sequenceLength] at hshort
    exact Or.inl ⟨state, hstate, ⟨texts, hbacked.owns, hbacked.chars⟩, hshort, hfollows.printed⟩

/-- Two phrases of one character, and what the search answers about the text of both. -/
def twoPhrases (both : List PhraseToken) : PhraseSearch where
  search words := if words = [20320, 22909] then ⟨true, both⟩ else ⟨true, []⟩
  item token :=
    if token = 0x01000001 then some ⟨[20320], 1⟩ else if token = 0x01000002 then some ⟨[22909], 1⟩ else none

/-- The lines of the two phrases, and the line that ends the input. -/
def twoLines : List Bytes :=
  [ascii "16777217 " ++ [0xe4, 0xbd, 0xa0], ascii "16777218 " ++ [0xe5, 0xa5, 0xbd], ascii "0 "]

theorem wellFormed_twoLines (both : List PhraseToken) : ∀ line ∈ twoLines, WellFormed (twoPhrases both) line := by
  intro line hline
  simp only [twoLines, mem_cons, not_mem_nil, or_false] at hline
  rcases hline with rfl | rfl | rfl
  · exact ⟨0x01000001, [0xe4, 0xbd, 0xa0], by decide, fun _ => ⟨rfl, rfl, fun heq => absurd heq (by decide)⟩⟩
  · exact ⟨0x01000002, [0xe5, 0xa5, 0xbd], by decide, fun _ => ⟨rfl, rfl, fun heq => absurd heq (by decide)⟩⟩
  · exact ⟨0, [], by decide, fun hne => absurd rfl hne⟩

/-- The two become the phrase of both. -/
theorem feedLines_both : ∃ state texts, feedLines (twoPhrases [0x01000003]) twoLines = .ok state ∧
    List.Forall₂ (Prints (twoPhrases [0x01000003])) (state.output.filterMap Printed.tokenLine) texts ∧
    texts.flatten ++ state.merger.unichars = [20320, 22909] := by
  rcases feedLines_spec (twoPhrases [0x01000003]) twoLines (wellFormed_twoLines _) with
    ⟨state, hrun, _, _, texts, hprinted, hfed⟩ | ⟨_, words, hmany⟩
  · exact ⟨state, texts, hrun, hprinted, hfed.trans (by decide)⟩
  · simp only [twoPhrases] at hmany
    split_ifs at hmany
    · exact absurd hmany (by decide)
    · exact absurd hmany (by decide)

/-- Five tokens of both abort. -/
theorem feedLines_five : ¬ ∀ (search : PhraseSearch) (lines : List Bytes),
    (∀ line ∈ lines, WellFormed search line) → ∃ state, feedLines search lines = .ok state := by
  intro h
  obtain ⟨state, hrun⟩ := h (twoPhrases [0x01000003, 0x02000001, 0x03000001, 0x04000001, 0x05000001]) twoLines
    (wellFormed_twoLines _)
  have hstop : (feedLines (twoPhrases [0x01000003, 0x02000001, 0x03000001, 0x04000001, 0x05000001])
      twoLines).isOk = false := by decide
  rw [hrun] at hstop
  cases hstop

end Facts

end Oxpinyin.MergeSequence
