import Oxpinyin.KmmContainer
import Oxpinyin.ToolText

/-!
# The tools of the k mixture model

A document is counted into tables of its own, by word and by pair, and folded into the container.
A pair that occurs too often in it is left out and taken off the word's count. Containers are
merged record by record, and a prune drops pairs by their counts. The order a table or a
container lists its keys in is arbitrary, and so is the choice of a prune.
-/

namespace Oxpinyin.Kmm

open FiniteMap Tool

/-- How a tool ends early. -/
inductive Halt where
  | abort
  | exit (code : Nat)
  deriving DecidableEq

def eoverflow : Nat := 75

def enodata : Nat := 61

/-! ## Phrases -/

/-- What the phrase index answers for a token. -/
structure PhraseIndex where
  tokenToString : BitVec 32 → Option Bytes

/-- A text as C reads it, up to its first NUL. -/
def cText (bytes : Bytes) : Bytes := bytes.takeWhile (· != 0)

def PhraseIndex.validateTokenWithString (phrases : PhraseIndex) (token : BitVec 32) (text : Bytes) : Bool :=
  (phrases.tokenToString token).any fun answer => cText answer == text

/-! ## Generating -/

def nullToken : BitVec 32 := 0

def sentenceStart : BitVec 32 := 1

/-- The options. The cap by an earlier maximum is computed in floating point. -/
structure GenerateParams where
  maxOccurs : BitVec 32
  ceilMul : BitVec 32 → BitVec 32
  trainPiGram : Bool

/-- Counts by token. -/
abbrev Table := SortedMap (BitVec 32) (BitVec 32)

/-- The tables of a document : the pairs by their first word, and the words. -/
structure Document where
  pairs : SortedMap (BitVec 32) Table
  unigram : Table

def Document.new : Document := ⟨.empty, .empty⟩

def Document.secondWords (document : Document) (token1 : BitVec 32) : Table :=
  (document.pairs.get? token1).getD .empty

/-- The orders a document's tables are walked in. -/
structure HashOrder where
  pairs : Walk
  seconds : BitVec 32 → Walk
  unigram : Walk

def Table.keys (table : Table) (order : Walk) : List (BitVec 32) := order.keys (table.entries.map Prod.fst)

/-- One more of a token. -/
def Table.count (table : Table) (token : BitVec 32) : Table :=
  table.insert token ((table.get? token).getD 0 + 1)

/-- The token of a line of a segmented text. A blank line has none. -/
def parseSegmentedLine (phrases : PhraseIndex) (line : Bytes) : Except Halt (BitVec 32) :=
  if line = [] then .ok nullToken
  else
    match strsplitSet line [32, 9] 2 with
    | [tokenText, phrase] =>
      let token := atoi tokenText
      if token ≠ nullToken ∧ !phrases.validateTokenWithString token phrase then .error .abort else .ok token
    | _ => .error .abort

/-- A token counted behind the last one. -/
def readToken (trainPiGram : Bool) (state : Document × BitVec 32) (token : BitVec 32) : Document × BitVec 32 :=
  if token = nullToken then (state.1, token)
  else
    let document := { state.1 with unigram := state.1.unigram.count token }
    if state.2 = nullToken ∧ !trainPiGram then (document, token)
    else
      let last := if state.2 = nullToken then sentenceStart else state.2
      ({ document with pairs := document.pairs.insert last ((document.secondWords last).count token) }, token)

def readDocument (phrases : PhraseIndex) (lines : List Bytes) (trainPiGram : Bool) : Except Halt Document :=
  (lines.foldlM (fun state line => (parseSegmentedLine phrases line).map (readToken trainPiGram state))
    (Document.new, nullToken)).map Prod.fst

/-- Takes a pair's count off the word. -/
def subtractFromUnigram (unigram : Table) (token2 count : BitVec 32) : Except Halt Table :=
  match unigram.get? token2 with
  | none => .error .abort
  | some freq => .ok (if 0 < freq - count then unigram.insert token2 (freq - count) else unigram.erase token2)

/-- The most a pair may occur in a document. -/
def maximumOccursAllowed (params : GenerateParams) : Option ArrayItem → BitVec 32
  | some item => if params.maxOccurs ≤ params.ceilMul item.mr then params.ceilMul item.mr else params.maxOccurs
  | none => params.maxOccurs

/-- The item of a pair behind a document. -/
def trainedItem (count : BitVec 32) : Option ArrayItem → ArrayItem
  | some item => ⟨item.wc + count, item.nn0 + 1, if count = 1 then item.n1 + 1 else item.n1,
      if item.mr ≤ count then count else item.mr⟩
  | none => ⟨count, 1, if count = 1 then 1 else 0, count⟩

/-- The item of an accepted pair, set where there is one and inserted where there is none. -/
def writeItem (gram : KmmGram) (token2 count : BitVec 32) : Option ArrayItem → Option KmmGram
  | some item => gram.setArrayItem token2 (trainedItem count (some item))
  | none => gram.insertArrayItem token2 (trainedItem count none)

/-- One pair of a document. -/
def trainWordPair (params : GenerateParams) (state : Table × KmmGram) (token2 count : BitVec 32) :
    Except Halt (Table × KmmGram) :=
  let item := state.2.getArrayItem token2
  if maximumOccursAllowed params item < count then
    (subtractFromUnigram state.1 token2 count).map fun unigram => (unigram, state.2)
  else
    match writeItem state.2 token2 count item with
    | none => .error .abort
    | some gram => .ok (state.1, { gram with header := { gram.header with wc := gram.header.wc + count } })

/-- The pairs of a first word. The gram is stored where its count changed. -/
def trainSecondWord (params : GenerateParams) (order : Walk) (seconds : Table) (token1 : BitVec 32)
    (state : Table × Container) : Except Halt (Table × Container) := do
  let loaded := (state.2.load token1).getD newGram
  let (unigram, gram) ← (seconds.keys order).foldlM
    (fun trained token2 => trainWordPair params trained token2 ((seconds.get? token2).getD 0)) (state.1, loaded)
  let delta := gram.header.wc - loaded.header.wc
  if delta = 0 then return (unigram, state.2)
  else
    let stored := state.2.store token1 gram
    let magic := stored.getMagicHeader.getD .zeroed
    -- the overflow is reported, and the magic header stays
    if magic.wc + delta < magic.wc then return (unigram, stored)
    else return (unigram, stored.setMagicHeader { magic with wc := magic.wc + delta })

/-- A word's count into its array header, and into the total. -/
def addWord (unigram : Table) (state : Container × BitVec 32) (token : BitVec 32) : Container × BitVec 32 :=
  let freq := (unigram.get? token).getD 0
  let header := (state.1.getArrayHeader token).getD .zeroed
  (state.1.setArrayHeader token { header with freq := header.freq + freq }, state.2 + freq)

/-- The words that are left. -/
def postProcessingUnigram (order : Walk) (unigram : Table) (container : Container) : Except Halt Container :=
  let state := (unigram.keys order).foldl (addWord unigram) (container, 0)
  match state.1.getMagicHeader with
  | none => .error .abort
  | some magic =>
    -- the overflow is reported, and the magic header stays
    if magic.totalFreq + state.2 < magic.totalFreq then .ok state.1
    else .ok (state.1.setMagicHeader { magic with totalFreq := magic.totalFreq + state.2 })

/-- One document into the container. -/
def trainDocument (params : GenerateParams) (order : HashOrder) (document : Document) (container : Container) :
    Except Halt Container := do
  let (unigram, trained) ← (order.pairs.keys (document.pairs.entries.map Prod.fst)).foldlM
    (fun state token1 => trainSecondWord params (order.seconds token1) (document.secondWords token1) token1 state)
    (document.unigram, container)
  match trained.getMagicHeader with
  | none => throw .abort
  | some magic => postProcessingUnigram order.unigram unigram (trained.setMagicHeader { magic with n := magic.n + 1 })

/-- The documents one by one, each with the order its tables are walked in. -/
def generate (params : GenerateParams) (phrases : PhraseIndex) (documents : List (List Bytes × HashOrder))
    (container : Container) : Except Halt Container :=
  documents.foldlM (fun container document => do
    let read ← readDocument phrases document.1 params.trainPiGram
    trainDocument params document.2 read container) container

/-! ## Merging -/

def mergedItem (first second : ArrayItem) : ArrayItem :=
  ⟨first.wc + second.wc, first.nn0 + second.nn0, first.n1 + second.n1,
    if first.mr ≤ second.mr then second.mr else first.mr⟩

/-- Two ascending arrays as one. -/
def mergeTwoPhraseArray (first second : List (BitVec 32 × ArrayItem)) : List (BitVec 32 × ArrayItem) :=
  mergeWith mergedItem first second

/-- One gram of the source. -/
def mergeRow (source : Container) (target : Container) (token : BitVec 32) : Except Halt Container :=
  match source.load token with
  | none => .error .abort
  | some new =>
    match target.load token with
    | none => .ok (target.store token new)
    | some old =>
      let header : ArrayHeader := ⟨old.header.wc + new.header.wc, old.header.freq + new.header.freq⟩
      let merged := (mergeTwoPhraseArray old.items new.items).foldl
        (fun gram entry => gram.bind fun gram => gram.insertArrayItem entry.1 entry.2) (some newGram)
      match merged with
      | none => .error .abort
      | some gram => .ok (target.store token { gram with header := header })

def mergeArrayItems (order : Walk) (target source : Container) : Except Halt Container :=
  (source.getAllItems order).foldlM (mergeRow source) target

/-- The magic headers as one. There is no answer where a sum overflows. -/
def mergeMagicHeader (target source : Container) : Except Halt (Option Container) :=
  let old := target.getMagicHeader.getD .zeroed
  match source.getMagicHeader with
  | none => .error .abort
  | some new =>
    if old.wc + new.wc < (if old.wc ≤ new.wc then new.wc else old.wc) then .ok none
    else if old.totalFreq + new.totalFreq <
      (if old.totalFreq ≤ new.totalFreq then new.totalFreq else old.totalFreq) then
      .ok none
    else .ok (some (target.setMagicHeader ⟨old.wc + new.wc, old.n + new.n, old.totalFreq + new.totalFreq⟩))

/-- One source into the target. -/
def mergeTwoKMixtureModel (order : Walk) (target source : Container) : Except Halt Container := do
  let merged ← mergeArrayItems order target source
  match ← mergeMagicHeader merged source with
  | none => throw (.exit eoverflow)
  | some container => return container

/-! ## Pruning -/

/-- One item : dropped by the choice, or kept. -/
def pruneItem (drop : BitVec 32 → ArrayItem → Bool) (state : MagicHeader × KmmGram × List (BitVec 32 × ArrayItem))
    (entry : BitVec 32 × ArrayItem) : Except Halt (MagicHeader × KmmGram × List (BitVec 32 × ArrayItem)) :=
  let (magic, gram, removed) := state
  if drop magic.n entry.2 then
    match gram.removeArrayItem entry.1 with
    | none => .error .abort
    | some (item, gram) =>
      .ok ({ magic with wc := magic.wc - item.wc, totalFreq := magic.totalFreq - item.wc },
        { gram with header := { gram.header with wc := gram.header.wc - item.wc } }, removed ++ [(entry.1, item)])
  else .ok state

def pruneKMixtureModel (drop : BitVec 32 → ArrayItem → Bool) (magic : MagicHeader) (gram : KmmGram) :
    Except Halt (MagicHeader × KmmGram × List (BitVec 32 × ArrayItem)) :=
  gram.items.foldlM (pruneItem drop) (magic, gram, [])

/-- Takes a dropped pair's count off its second word. -/
def subtractFreq (container : Container) (removed : BitVec 32 × ArrayItem) : Except Halt Container :=
  match container.getArrayHeader removed.1 with
  | none => .error .abort
  | some header => .ok (container.setArrayHeader removed.1 { header with freq := header.freq - removed.2.wc })

/-- One gram. -/
def pruneRow (drop : BitVec 32 → ArrayItem → Bool) (state : MagicHeader × Container) (token : BitVec 32) :
    Except Halt (MagicHeader × Container) :=
  match state.2.load token with
  | none => .error .abort
  | some loaded => do
    let (magic, gram, removed) ← pruneKMixtureModel drop state.1 loaded
    let container ← removed.foldlM subtractFreq (state.2.store token gram)
    return (magic, container)

/-- A gram with nothing left is removed. -/
def removeEmpty (container : Container) (token : BitVec 32) : Except Halt Container :=
  match container.getArrayHeader token with
  | none => .error .abort
  | some header =>
    if header.wc = 0 ∧ header.freq = 0 then
      match container.remove token with
      | none => .error .abort
      | some left => .ok left
    else .ok container

def prune (drop : BitVec 32 → ArrayItem → Bool) (order : Walk) (container : Container) : Except Halt Container :=
  match container.getMagicHeader with
  | none => .error (.exit enodata)
  | some magic => do
    let items := container.getAllItems order
    let (magic, pruned) ← items.foldlM (pruneRow drop) (magic, container)
    items.foldlM removeEmpty (pruned.setMagicHeader magic)

/-! ## Validating -/

/-- A header into the sums. -/
def addHeader (container : Container) (state : BitVec 32 × BitVec 32) (token : BitVec 32) :
    Except Halt (BitVec 32 × BitVec 32) :=
  match container.getArrayHeader token with
  | none => .error .abort
  | some header => .ok (state.1 + header.wc, state.2 + header.freq)

def validateUnigram (order : Walk) (container : Container) : Except Halt Bool :=
  match container.getMagicHeader with
  | none => .ok false
  | some magic =>
    if magic.wc = 0 then .ok false
    else if magic.totalFreq = 0 then .ok false
    else if magic.wc ≠ magic.totalFreq then .ok false
    else do
      let sums ← (container.getAllItems order).foldlM (addHeader container) (0, 0)
      return decide (sums.1 = magic.wc) && decide (sums.2 = magic.totalFreq)

/-- The counts of some items. -/
def wcSum : List (BitVec 32 × ArrayItem) → BitVec 32
  | [] => 0
  | entry :: rest => entry.2.wc + wcSum rest

/-- One gram : its items under a zero count, a header of zeros, and the sum of its items. -/
def validGram (gram : KmmGram) : Bool :=
  if gram.header.wc = 0 then gram.items.isEmpty && gram.header.freq ≠ 0 else wcSum gram.items = gram.header.wc

/-- A gram into the result. -/
def checkGram (container : Container) (result : Bool) (token : BitVec 32) : Except Halt Bool :=
  match container.load token with
  | none => .error .abort
  | some gram => .ok (result && validGram gram)

def validateBigram (order : Walk) (container : Container) : Except Halt Bool :=
  (container.getAllItems order).foldlM (checkGram container) true

end Oxpinyin.Kmm
