import Mathlib.Data.List.Basic

/-!
# Parser and decoder option bits

The option word is the raw 32-bit word of `options.rs`. The default word is zero.
-/

namespace Oxpinyin

/-- Initial-only keys are admitted. -/
def pinyinIncomplete : BitVec 32 := 1#32 <<< 3

/-- A trailing digit is a tone. -/
def useTone : BitVec 32 := 1#32 <<< 5

/-- Under `useTone`, a key without a tone is refused. -/
def forceTone : BitVec 32 := 1#32 <<< 6

/-- The divided alternates are in the lookup inventory. -/
def useDividedTable : BitVec 32 := 1#32 <<< 7

/-- The resplit alternates are in the lookup inventory. -/
def useResplitTable : BitVec 32 := 1#32 <<< 8

def pinyinAmbCCh : BitVec 32 := 1#32 <<< 10
def pinyinAmbSSh : BitVec 32 := 1#32 <<< 11
def pinyinAmbZZh : BitVec 32 := 1#32 <<< 12
def pinyinAmbFH : BitVec 32 := 1#32 <<< 13
def pinyinAmbGK : BitVec 32 := 1#32 <<< 14
def pinyinAmbLN : BitVec 32 := 1#32 <<< 15
def pinyinAmbLR : BitVec 32 := 1#32 <<< 16
def pinyinAmbAnAng : BitVec 32 := 1#32 <<< 17
def pinyinAmbEnEng : BitVec 32 := 1#32 <<< 18
def pinyinAmbInIng : BitVec 32 := 1#32 <<< 19

def pinyinCorrectGnNg : BitVec 32 := 1#32 <<< 21
def pinyinCorrectMgNg : BitVec 32 := 1#32 <<< 22
def pinyinCorrectIouIu : BitVec 32 := 1#32 <<< 23
def pinyinCorrectUeiUi : BitVec 32 := 1#32 <<< 24
def pinyinCorrectUenUn : BitVec 32 := 1#32 <<< 25
def pinyinCorrectUeVe : BitVec 32 := 1#32 <<< 26
def pinyinCorrectVU : BitVec 32 := 1#32 <<< 27
def pinyinCorrectOnOng : BitVec 32 := 1#32 <<< 28

/-- All eight correction bits. -/
def pinyinCorrectAll : BitVec 32 := 0xff#32 <<< 21

/-- A bit set of parser and decoder options. -/
structure OptionBits where
  /-- The raw option word. -/
  bits : BitVec 32
  deriving DecidableEq, Repr

namespace OptionBits

/-- `OptionBits::default` : every bit off. -/
instance : Inhabited OptionBits := ⟨⟨0⟩⟩

/-- Whether `bit` is set. -/
def contains (options : OptionBits) (bit : BitVec 32) : Bool :=
  options.bits &&& bit != 0

/-- Whether `pinyinIncomplete` is set. -/
def hasIncomplete (options : OptionBits) : Bool :=
  options.contains pinyinIncomplete

/-- Whether `useDividedTable` is set. -/
def hasDividedTable (options : OptionBits) : Bool :=
  options.contains useDividedTable

/-- Whether `useResplitTable` is set. -/
def hasResplitTable (options : OptionBits) : Bool :=
  options.contains useResplitTable

@[simp] theorem default_bits : (default : OptionBits).bits = 0 := rfl

/-- The default word has no bit set. -/
@[simp] theorem contains_default (bit : BitVec 32) : (default : OptionBits).contains bit = false := by
  simp [contains]

end OptionBits

end Oxpinyin
