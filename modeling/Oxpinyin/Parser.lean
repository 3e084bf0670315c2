import Oxpinyin.Lib.Backtrack
import Oxpinyin.Lib.Cuts
import Oxpinyin.Syllables

/-!
# The full-pinyin parser

`parseInput` is `parse_input` of `parser.rs` : it splits the input into lowercase
groups at apostrophes and cuts each group into syllables. Every group is counted
before it is enumerated. `countCompletePaths` and `countFallbackPaths` are dynamic
programs that stop at one over the limit. The two enumerators are depth-first
searches on an explicit stack (`Backtrack.run`), and each asserts that it found as
many paths as were counted.

A call ends with results, with the too-many error, or in a panic of one of the two
assertions (`ParseFault`). The stack loops and the loop over groups take fuel, and
`ParseFault.diverged` says a loop did not stop within it.
-/

namespace Oxpinyin

open List Cuts Backtrack

/-! ## Data -/

/-- Maximum number of parse alternatives materialized by one call. -/
def maxParseResults : Nat := 4096

/-- The cap of the counters. -/
def overLimit : Nat := maxParseResults + 1

/-- One syllable segment and its byte range in the input. -/
structure ParsedSyllable where
  /-- Lowercase syllable text. -/
  syllable : Bytes
  /-- Byte offset where the segment begins. -/
  start : Nat
  /-- Byte offset after the segment. -/
  stop : Nat
  /-- Whether the segment is complete. -/
  completeness : Completeness
  deriving DecidableEq, Repr

/-- One ordered parse alternative. -/
structure ParseResult where
  /-- Parsed syllables in input order. -/
  syllables : List ParsedSyllable
  /-- Input suffix from the first unconsumed byte. -/
  remainder : Bytes
  deriving DecidableEq, Repr

/-- Failure to represent the complete path set. -/
inductive ParseError where
  /-- The path set exceeds the limit. -/
  | tooManyAlternatives (limit : Nat)
  deriving DecidableEq, Repr

/-- The ways a call ends without results. -/
inductive ParseFault where
  /-- The error is returned to the caller. -/
  | error (e : ParseError)
  /-- A count-versus-enumeration assertion panicked. -/
  | panicked (message : String)
  /-- A loop did not stop within its fuel. -/
  | diverged
  deriving DecidableEq, Repr

/-- Paths of one group. -/
structure GroupPaths where
  /-- The alternatives of the group. -/
  paths : List (List ParsedSyllable)
  /-- Bytes of the group they consume. -/
  consumed : Nat
  /-- Whether they cut the whole group into complete syllables. -/
  complete : Bool
  deriving DecidableEq, Repr

/-- `&bytes[start..start + length]`. -/
def slice (bytes : Bytes) (start length : Nat) : Bytes :=
  (bytes.drop start).take length

/-- The end of the run of bytes satisfying `p` at `start`. -/
def runEnd (p : UInt8 → Bool) (input : Bytes) (start : Nat) : Nat :=
  start + ((input.drop start).takeWhile p).length

/-- The `ParseError` of the limit. -/
def tooManyAlternatives : ParseFault :=
  .error (.tooManyAlternatives maxParseResults)

/-- Addition that stops at `overLimit`, after the saturation of 64-bit `usize`. -/
def boundedAdd (left right : Nat) : Nat :=
  let sum := min (left + right) (2 ^ 64 - 1)
  if overLimit < sum then overLimit else sum

/-! ## Syllables of a slice -/

/-- The canonical text of a slice that is a complete syllable under `options`. Every
spelling that resolves is ASCII, so `from_utf8` refuses no slice that would. -/
def completeSyllable (bytes : Bytes) (options : OptionBits) : Option Bytes :=
  (SyllableKey.fromOptionText bytes options).bind fun key =>
    if key.completeness = .Complete then some key.text else none

/-- A proper beginning of a full syllable that is not itself one. -/
def isPartialOnly (bytes : Bytes) : Bool :=
  (completeSyllable bytes default).isNone &&
    fullPinyinSyllables.any fun syllable =>
      bytes.length < syllable.length && bytes.isPrefixOf syllable

/-- Length of the longest beginning of `bytes` that is partial only. -/
def longestPartialPrefix (bytes : Bytes) : Nat :=
  ((longestFirst (min maxSyllableLen bytes.length)).find? fun length =>
    isPartialOnly (bytes.take length)).getD 0

/-! ## Counters -/

/-- Number of cuts of the group into complete syllables, stopped at `overLimit`. -/
def countCompletePaths (group : Bytes) (options : OptionBits) : Nat :=
  let counts := (List.replicate (group.length + 1) 0).set group.length 1
  let counts := (List.range group.length).reverse.foldl (fun counts cursor =>
    (longestFirst (min maxSyllableLen (group.length - cursor))).foldl (fun counts length =>
      if (completeSyllable (slice group cursor length) options).isSome then
        counts.set cursor (boundedAdd (counts.getD cursor 0) (counts.getD (cursor + length) 0))
      else counts) counts) counts
  counts.getD 0 0

/-- The furthest end of complete syllables from the start, with or without one
terminal partial after them. -/
def maximalFallbackEnd (group : Bytes) (options : OptionBits) : Nat :=
  let reachable := (List.replicate (group.length + 1) false).set 0 true
  ((List.range group.length).foldl (fun (state : List Bool × Nat) cursor =>
    if !state.1.getD cursor false then state
    else
      let target := max state.2 (cursor + longestPartialPrefix (group.drop cursor))
      (List.range' 1 (min maxSyllableLen (group.length - cursor))).foldl
        (fun (state : List Bool × Nat) length =>
          if (completeSyllable (slice group cursor length) options).isSome then
            (state.1.set (cursor + length) true, max state.2 (cursor + length))
          else state) (state.1, target)) (reachable, 0)).2

/-- Number of fallback paths to `target`, stopped at `overLimit`. -/
def countFallbackPaths (group : Bytes) (target : Nat) (options : OptionBits) : Nat :=
  let ways := (List.replicate (target + 1) 0).set 0 1
  let ways := (List.range target).foldl (fun ways cursor =>
    if ways.getD cursor 0 = 0 then ways
    else
      (List.range' 1 (min maxSyllableLen (target - cursor))).foldl (fun ways length =>
        if (completeSyllable (slice group cursor length) options).isSome then
          ways.set (cursor + length)
            (boundedAdd (ways.getD (cursor + length) 0) (ways.getD cursor 0))
        else ways) ways) ways
  (List.range target).foldl (fun count cursor =>
    if isPartialOnly (slice group cursor (target - cursor)) then
      boundedAdd count (ways.getD cursor 0)
    else count) (ways.getD target 0)

/-! ## Enumerators -/

/-- A cursor and the longest block length not yet tried there. -/
structure Frame where
  /-- Offset in the group. -/
  cursor : Nat
  /-- Lengths up to this one are still to be tried. -/
  nextLength : Nat
  deriving DecidableEq, Repr

/-- A fresh frame : every length up to `stop` is to be tried. -/
def Frame.new (cursor stop : Nat) : Frame :=
  ⟨cursor, min maxSyllableLen (stop - cursor)⟩

/-- The first complete syllable at `cursor`, longest length first. -/
def nextComplete (group : Bytes) (options : OptionBits) (cursor : Nat) :
    Nat → Option (Bytes × Nat)
  | 0 => none
  | length + 1 =>
    match completeSyllable (slice group cursor (length + 1)) options with
    | some syllable => some (syllable, length + 1)
    | none => nextComplete group options cursor length

/-- One turn of the loop of `enumerate_complete_paths` at its top frame. -/
def expandComplete (group : Bytes) (absoluteStart : Nat) (options : OptionBits)
    (_path : List ParsedSyllable) (frame : Frame) : Outcome Frame ParsedSyllable :=
  if frame.cursor = group.length then .leave [[]]
  else
    match nextComplete group options frame.cursor frame.nextLength with
    | some (syllable, length) =>
      .enter [] ⟨frame.cursor, length - 1⟩
        ⟨syllable, absoluteStart + frame.cursor, absoluteStart + frame.cursor + length, .Complete⟩
        (Frame.new (frame.cursor + length) group.length)
    | none => .leave []

/-- Turns the search of a group of `length` bytes is given. -/
def enumerationFuel (length : Nat) : Nat :=
  2 ^ (7 * length + 7)

/-- The results of an enumeration loop, checked against the count. -/
def assertCount (results : Option (List (List ParsedSyllable))) (expected : Nat)
    (message : String) : Except ParseFault (List (List ParsedSyllable)) :=
  match results with
  | none => .error .diverged
  | some results => if results.length = expected then .ok results else .error (.panicked message)

/-- The loop of `enumerate_complete_paths`, before its assertion. -/
def searchComplete (group : Bytes) (absoluteStart : Nat) (options : OptionBits) :
    Option (List (List ParsedSyllable)) :=
  run (expandComplete group absoluteStart options) (enumerationFuel group.length)
    ⟨[], [], [Frame.new 0 group.length]⟩

/-- The cuts of the group into complete syllables. -/
def enumerateCompletePaths (group : Bytes) (absoluteStart expected : Nat)
    (options : OptionBits) : Except ParseFault (List (List ParsedSyllable)) :=
  assertCount (searchComplete group absoluteStart options) expected
    "complete path enumeration under-counted or over-counted"

section

variable (group : Bytes) (absoluteStart target : Nat) (options : OptionBits)

/-- The inner loop of `enumerate_fallback_paths` : the terminal partials pushed on the
way to the next complete syllable, and that syllable. -/
def scanFallback (cursor : Nat) : Nat → List (List ParsedSyllable) × Option (Bytes × Nat)
  | 0 => ([], none)
  | length + 1 =>
    let stop := cursor + (length + 1)
    let bytes := slice group cursor (length + 1)
    match completeSyllable bytes options with
    | some syllable => ([], some (syllable, length + 1))
    | none =>
      let rest := scanFallback cursor length
      if stop = target ∧ isPartialOnly bytes then
        ([⟨bytes, absoluteStart + cursor, absoluteStart + stop, .Partial⟩] :: rest.1, rest.2)
      else rest

/-- One turn of the loop of `enumerate_fallback_paths` at its top frame. A frame that
did not descend is still the top one, so it is popped. -/
def expandFallback (_path : List ParsedSyllable) (frame : Frame) : Outcome Frame ParsedSyllable :=
  if frame.cursor = target then .leave [[]]
  else
    let scan := scanFallback group absoluteStart target options frame.cursor frame.nextLength
    match scan.2 with
    | some (syllable, length) =>
      .enter scan.1 ⟨frame.cursor, length - 1⟩
        ⟨syllable, absoluteStart + frame.cursor, absoluteStart + frame.cursor + length, .Complete⟩
        (Frame.new (frame.cursor + length) target)
    | none => .leave scan.1

/-- The loop of `enumerate_fallback_paths`, before its assertion. -/
def searchFallback : Option (List (List ParsedSyllable)) :=
  run (expandFallback group absoluteStart target options) (enumerationFuel target)
    ⟨[], [], [Frame.new 0 target]⟩

end

/-- The paths of complete syllables to `target`, the last block possibly partial. -/
def enumerateFallbackPaths (group : Bytes) (absoluteStart target expected : Nat)
    (options : OptionBits) : Except ParseFault (List (List ParsedSyllable)) :=
  assertCount (searchFallback group absoluteStart target options) expected
    "fallback path enumeration under-counted or over-counted"

/-! ## Groups and input -/

/-- The paths of one lowercase group. -/
def parseGroup (group : Bytes) (absoluteStart : Nat) (options : OptionBits) :
    Except ParseFault GroupPaths :=
  let completeCount := countCompletePaths group options
  if maxParseResults < completeCount then .error tooManyAlternatives
  else if completeCount ≠ 0 then do
    let paths ← enumerateCompletePaths group absoluteStart completeCount options
    pure ⟨paths, group.length, true⟩
  else
    let target := maximalFallbackEnd group options
    let fallbackCount := countFallbackPaths group target options
    if maxParseResults < fallbackCount then .error tooManyAlternatives
    else do
      let paths ← enumerateFallbackPaths group absoluteStart target fallbackCount options
      pure ⟨paths, target, false⟩

/-- Every left path followed by every right path. `checked_mul` fails only past `usize`,
which is past the limit. -/
def combine (left right : List (List ParsedSyllable)) :
    Except ParseFault (List (List ParsedSyllable)) :=
  if maxParseResults < left.length * right.length then .error tooManyAlternatives
  else .ok (left.flatMap fun leftPath => right.map fun rightPath => leftPath ++ rightPath)

/-- The alternatives with the input from `remainderStart` on as their remainder. -/
def finish (paths : List (List ParsedSyllable)) (input : Bytes) (remainderStart : Nat) :
    List ParseResult :=
  paths.map fun syllables => ⟨syllables, input.drop remainderStart⟩

/-- Whether byte `i` of the input is there and satisfies `p`. -/
def byteIs (p : UInt8 → Bool) (input : Bytes) (i : Nat) : Bool :=
  (input[i]?).any p

/-- The loop of `parse_input` over groups. -/
def parseLoop (input : Bytes) (options : OptionBits) :
    Nat → List (List ParsedSyllable) → Nat → Option Nat → Except ParseFault (List ParseResult)
  | 0, _, _, _ => .error .diverged
  | fuel + 1, accumulated, groupStart, pendingSeparator =>
    let groupEnd := runEnd isAsciiLowercase input groupStart
    if groupStart = groupEnd then
      .ok (finish accumulated input (pendingSeparator.getD groupStart))
    else do
      let group ← parseGroup (slice input groupStart (groupEnd - groupStart)) groupStart options
      if group.consumed = 0 then
        pure (finish accumulated input (pendingSeparator.getD groupStart))
      else
        let accumulated ← combine accumulated group.paths
        if !group.complete then
          pure (finish accumulated input (groupStart + group.consumed))
        else if groupEnd = input.length then
          pure (finish accumulated input groupEnd)
        else if !byteIs (· == apostrophe) input groupEnd then
          pure (finish accumulated input groupEnd)
        else
          let cursor := runEnd (· == apostrophe) input groupEnd
          if cursor = input.length ∨ !byteIs isAsciiLowercase input cursor then
            pure (finish accumulated input groupEnd)
          else parseLoop input options fuel accumulated cursor (some groupEnd)

/-- `parse_input`. A leading apostrophe run is skipped when a lowercase byte follows. -/
def parseInput (input : Bytes) (options : OptionBits) : Except ParseFault (List ParseResult) :=
  if byteIs (· == apostrophe) input 0 then
    let cursor := runEnd (· == apostrophe) input 0
    if cursor = input.length ∨ !byteIs isAsciiLowercase input cursor then
      .ok (finish [[]] input 0)
    else parseLoop input options (input.length + 1) [[]] cursor (some 0)
  else parseLoop input options (input.length + 1) [[]] 0 none

namespace FullPinyinParser

/-- `FullPinyinParser::parse_with_options`. -/
def parseWithOptions (input : Bytes) (options : OptionBits) :
    Except ParseFault (List ParseResult) :=
  parseInput input options

/-- `InputParser::parse` : the default options. -/
def parse (input : Bytes) : Except ParseFault (List ParseResult) :=
  parseInput input default

end FullPinyinParser

end Oxpinyin
