import Oxpinyin.Parser

/-!
# Zhuyin keyboards

The keys of the zhuyin keyboards with their symbols and tones, and the tones a syllable may have.
-/

namespace Oxpinyin.Zhuyin

/-- Keys with their symbols. A key may have two rows. -/
abbrev SymbolTable := List (UInt8 × List Char)

/-- Keys with their tones. -/
abbrev ToneTable := List (UInt8 × Nat)

def symbolRows (keys symbols : String) : SymbolTable := (ascii keys).zip (symbols.toList.map ([·]))

def toneRows (keys : String) (tones : List Nat) : ToneTable := (ascii keys).zip tones

/-! ## Keys -/

def standardSymbols : SymbolTable := symbolRows ",-./012589;abcdefghijklmnopqrstuvwxyz"
    "ㄝㄦㄡㄥㄢㄅㄉㄓㄚㄞㄤㄇㄖㄏㄎㄍㄑㄕㄘㄛㄨㄜㄠㄩㄙㄟㄣㄆㄐㄋㄔㄧㄒㄊㄌㄗㄈ"

def standardTones : ToneTable := toneRows " 3467" [1, 3, 4, 2, 5]

def ibmSymbols : SymbolTable := symbolRows "-0123456789;abcdefghijklnopqrstuvwxyz"
    "ㄏㄎㄅㄆㄇㄈㄉㄊㄋㄌㄍㄠㄧㄥㄣㄩㄒㄚㄛㄜㄗㄝㄞㄟㄦㄘㄙㄐㄓㄨㄔㄖㄤㄑㄢㄕㄡ"

def ibmTones : ToneTable := toneRows " ,./m" [1, 3, 4, 5, 2]

def ginyiehSymbols : SymbolTable := symbolRows "',-./023689;=[bcdefghijklmnoprstuvwxy"
    "ㄥㄚㄣㄞㄢㄟㄅㄉㄓㄧㄛㄡㄦㄤㄒㄌㄋㄊㄎㄑㄕㄨㄘㄩㄝㄙㄖㄜㄠㄍㄇㄐㄗㄏㄆㄈㄔ"

def ginyiehTones : ToneTable := toneRows " 1aqz" [1, 5, 3, 2, 4]

def etenSymbols : SymbolTable := symbolRows "',-./0789;=abcdefghijklmnopqrstuvwxyz"
    "ㄘㄓㄥㄔㄕㄤㄑㄢㄣㄗㄦㄚㄅㄒㄉㄧㄈㄐㄏㄞㄖㄎㄌㄇㄋㄛㄆㄟㄜㄙㄊㄩㄍㄝㄨㄡㄠ"

def etenTones : ToneTable := toneRows " 1234" [1, 5, 2, 3, 4]

def hsuInitials : SymbolTable := symbolRows "abccdfghjjklmnprstvvz" "ㄘㄅㄒㄕㄉㄈㄍㄏㄐㄓㄎㄌㄇㄋㄆㄖㄙㄊㄑㄔㄗ"

def hsuMiddles : SymbolTable := symbolRows "eux" "ㄧㄩㄨ"

def hsuFinals : SymbolTable := symbolRows "aeghikllmnowy" "ㄟㄝㄜㄛㄞㄤㄥㄦㄢㄣㄡㄠㄚ"

def hsuTones : ToneTable := toneRows " dfjs" [1, 2, 3, 4, 5]

def eten26Initials : SymbolTable := symbolRows "bccdfgghjklmnpqstvvwy" "ㄅㄒㄕㄉㄈㄐㄓㄏㄖㄎㄌㄇㄋㄆㄗㄙㄊㄍㄑㄘㄔ"

def eten26Middles : SymbolTable := symbolRows "eux" "ㄧㄩㄨ"

def eten26Finals : SymbolTable := symbolRows "ahilmnopqrtwz" "ㄚㄦㄞㄥㄢㄣㄛㄡㄟㄜㄤㄝㄠ"

def eten26Tones : ToneTable := toneRows " dfjk" [1, 5, 2, 3, 4]

def hsuDvorakInitials : SymbolTable := symbolRows "abccdfghjjklmnprstvvz" "ㄘㄅㄒㄕㄉㄈㄍㄏㄐㄓㄎㄌㄇㄋㄆㄖㄙㄊㄑㄔㄗ"

def hsuDvorakMiddles : SymbolTable := symbolRows "eux" "ㄧㄩㄨ"

def hsuDvorakFinals : SymbolTable := symbolRows "aeghikllmnowy" "ㄟㄝㄜㄛㄞㄤㄥㄦㄢㄣㄡㄠㄚ"

def hsuDvorakTones : ToneTable := toneRows " dfjs" [1, 2, 3, 4, 5]

def cp26Initials : SymbolTable := symbolRows "abcdefghnqqrsttvwwxyz" "ㄇㄖㄏㄎㄍㄑㄕㄘㄙㄅㄆㄐㄋㄓㄔㄒㄉㄊㄌㄗㄈ"

def cp26Middles : SymbolTable := symbolRows "jmu" "ㄨㄩㄧ"

def cp26Finals : SymbolTable := symbolRows "biikllmnooppu" "ㄝㄛㄞㄜㄠㄤㄡㄥㄟㄢㄣㄦㄚ"

def cp26Tones : ToneTable := toneRows " dery" [1, 4, 2, 3, 5]

/-! ## Tones -/

/-- `VALID_ZHUYIN_TONES` : a bit for each tone of a syllable, by the syllable's index. -/
def validZhuyinTones : List (BitVec 8) :=
  [
    0x3f, 0x3f, 0x1f, 0x1f, 0x1f, 0x3f, 0x1f, 0x1b, 0x1b, 0x1f, 0x3b, 0x1b, 0x1f, 0x1f, 0x1b, 0x1b, 0x1f, 0x1b,
    0x1b, 0x3f, 0x3f, 0x1b, 0x1f, 0x1f, 0x1f, 0x1f, 0x11, 0x07, 0x1f, 0x1f, 0x1f, 0x11, 0x17, 0x17, 0x1f, 0x1f,
    0x1f, 0x1f, 0x1f, 0x1f, 0x1f, 0x1f, 0x1b, 0x1f, 0x1f, 0x1f, 0x1f, 0x1f, 0x3f, 0x1d, 0x1f, 0x1f, 0x17, 0x0f,
    0x13, 0x3f, 0x1b, 0x1b, 0x3b, 0x1f, 0x25, 0x09, 0x1b, 0x3f, 0x00, 0x1b, 0x1b, 0x37, 0x1b, 0x03, 0x1b, 0x1b,
    0x3f, 0x1b, 0x1b, 0x1b, 0x3f, 0x1f, 0x13, 0x1b, 0x1f, 0x1f, 0x1f, 0x3f, 0x1f, 0x1f, 0x1f, 0x05, 0x1f, 0x1f,
    0x3f, 0x1b, 0x1b, 0x1b, 0x1b, 0x3f, 0x09, 0x1f, 0x1b, 0x3b, 0x1b, 0x1f, 0x1b, 0x1b, 0x1b, 0x1b, 0x1b, 0x19,
    0x3f, 0x0f, 0x1f, 0x1f, 0x1f, 0x1f, 0x17, 0x0b, 0x1d, 0x37, 0x1f, 0x3f, 0x1f, 0x17, 0x15, 0x1f, 0x3f, 0x1f,
    0x1f, 0x3f, 0x1f, 0x3f, 0x1b, 0x1b, 0x1f, 0x3f, 0x1b, 0x1b, 0x1b, 0x3b, 0x1f, 0x1b, 0x1f, 0x1b, 0x1b, 0x1b,
    0x1b, 0x1f, 0x1b, 0x1f, 0x19, 0x0b, 0x1b, 0x1b, 0x1b, 0x1b, 0x1b, 0x0b, 0x1f, 0x1f, 0x1b, 0x19, 0x3f, 0x1d,
    0x1d, 0x3f, 0x1f, 0x31, 0x1f, 0x1d, 0x3f, 0x09, 0x1d, 0x1d, 0x1f, 0x1f, 0x1d, 0x1f, 0x3f, 0x21, 0x1d, 0x3f,
    0x3f, 0x1d, 0x1f, 0x1f, 0x1d, 0x11, 0x3f, 0x1d, 0x1d, 0x0d, 0x1f, 0x21, 0x3d, 0x3f, 0x1f, 0x1f, 0x1d, 0x1f,
    0x13, 0x0d, 0x1d, 0x13, 0x3f, 0x1d, 0x1d, 0x3d, 0x1d, 0x1f, 0x3d, 0x1f, 0x37, 0x19, 0x11, 0x1d, 0x1d, 0x1d,
    0x15, 0x19, 0x17, 0x0d, 0x1d, 0x1f, 0x00, 0x3d, 0x1d, 0x1d, 0x09, 0x1d, 0x19, 0x11, 0x0f, 0x1f, 0x37, 0x1f,
    0x1f, 0x1f, 0x1f, 0x1f, 0x1f, 0x1f, 0x1f, 0x1f, 0x1f, 0x1b, 0x1f, 0x1f, 0x1f, 0x0f, 0x1f, 0x1f, 0x1b, 0x1f,
    0x1f, 0x1f, 0x1f, 0x1f, 0x1f, 0x0f, 0x0f, 0x3f, 0x1f, 0x17, 0x07, 0x0d, 0x1f, 0x1d, 0x19, 0x1d, 0x1f, 0x13,
    0x1d, 0x1d, 0x1d, 0x0d, 0x1d, 0x17, 0x11, 0x3b, 0x13, 0x1b, 0x1b, 0x1b, 0x11, 0x03, 0x03, 0x1b, 0x1f, 0x1b,
    0x17, 0x1b, 0x1f, 0x1b, 0x3f, 0x1f, 0x1b, 0x1b, 0x3b, 0x1f, 0x1f, 0x05, 0x3f, 0x1f, 0x3f, 0x1f, 0x3f, 0x1b,
    0x1b, 0x13, 0x1b, 0x1d, 0x19, 0x13, 0x3b, 0x17, 0x1f, 0x1f, 0x3f, 0x11, 0x05, 0x1f, 0x1f, 0x1f, 0x1b, 0x1f,
    0x1f, 0x3f, 0x1f, 0x1f, 0x1f, 0x1f, 0x1f, 0x3f, 0x1b, 0x1f, 0x1f, 0x1f, 0x1f, 0x1b, 0x1b, 0x1f, 0x3f, 0x1f,
    0x1f, 0x1f, 0x1f, 0x3f, 0x1f, 0x1f, 0x17, 0x1b, 0x1f, 0x1f, 0x1f, 0x17, 0x3f, 0x1f, 0x3f, 0x1f, 0x3f, 0x1f,
    0x1f, 0x1f, 0x23, 0x1f, 0x1f, 0x1f, 0x1f, 0x13, 0x1f, 0x0f, 0x3b, 0x1f, 0x1b, 0x1f, 0x1d, 0x05, 0x19, 0x13,
    0x3b, 0x1b, 0x1b, 0x1f, 0x1b, 0x1b, 0x1b, 0x1f, 0x3f, 0x1f, 0x1b, 0x1b, 0x1f, 0x3f, 0x1b, 0x1b, 0x1f, 0x1b,
    0x1f, 0x1f, 0x0b, 0x1b, 0x1b, 0x1b, 0x1b, 0x1b, 0x17, 0x00, 0x00, 0x00, 0x00, 0x00, 0x00, 0x00, 0x00, 0x00,
    0x00, 0x00, 0x00, 0x00, 0x00, 0x00, 0x00, 0x00, 0x00, 0x00, 0x00, 0x00, 0x00, 0x00, 0x03, 0x15, 0x0b, 0x11,
    0x00, 0x00, 0x00, 0x00, 0x05, 0x00, 0x05, 0x11
  ]

end Oxpinyin.Zhuyin
