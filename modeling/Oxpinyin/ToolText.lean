import Oxpinyin.Inventory

/-!
# Text as the training tools read it

The conversions of the C library and of GLib behind the tools : a number at the start of a
string, and the pieces between delimiters.
-/

namespace Oxpinyin.Tool

/-- A blank of the C locale. -/
def isSpace (c : UInt8) : Bool := c == 32 || (9 ≤ c && c ≤ 13)

def isDigit (c : UInt8) : Bool := 48 ≤ c && c ≤ 57

/-- The value of decimal digits. -/
def digitsValue (digits : Bytes) : Nat :=
  digits.foldl (fun value c => 10 * value + (c.toNat - 48)) 0

/-- The digits at the start of a string. -/
def leadingValue (text : Bytes) : Nat := digitsValue (text.takeWhile isDigit)

/-- The number at the start of a string, behind blanks and a sign. -/
def leadingNumber (text : Bytes) : Int :=
  match text.dropWhile isSpace with
  | 45 :: rest => -(leadingValue rest : Int)
  | 43 :: rest => leadingValue rest
  | rest => leadingValue rest

/-- `strtol` in base ten : a number past a `long` is the nearest one. -/
def strtol (text : Bytes) : Int := max (-9223372036854775808) (min 9223372036854775807 (leadingNumber text))

def atol (text : Bytes) : BitVec 64 := BitVec.ofInt 64 (strtol text)

def atoi (text : Bytes) : BitVec 32 := BitVec.ofInt 32 (strtol text)

/-- The pieces of a string between delimiters, the rest of it in the last of `n + 1`. -/
def splitTokens (isDelimiter : UInt8 → Bool) : Nat → Bytes → List Bytes
  | 0, string => [string]
  | n + 1, string =>
    let piece := string.takeWhile fun c => !isDelimiter c
    match string.drop piece.length with
    | [] => [piece]
    | _ :: rest => piece :: splitTokens isDelimiter n rest

/-- `g_strsplit_set`. There is no limit below one, and no piece of an empty string. -/
def strsplitSet (string delimiters : Bytes) (maxTokens : Int) : List Bytes :=
  if string = [] then []
  else splitTokens delimiters.contains (if maxTokens < 1 then string.length else maxTokens.toNat - 1) string

end Oxpinyin.Tool
