import Oxpinyin.Syllables

/-!
# Chewing keys

A `ChewingKey` is a key by its initial, middle and final. The content table has one row a
spelling, and a spelling's fields are those of its row. `fuzzyChewingAlternatives` swaps an
initial, then a final, for what an ambiguity bit confuses it with. `fuzzyAlternatives` reads
the swaps back as keys. `completeness_of_mem_fuzzyAlternatives` : the alternates of a
complete syllable are complete.
-/

namespace Oxpinyin

open List Option

/-! ## The content table -/

/-- One row of the content table : a spelling and its fields. -/
structure ContentItem where
  pinyin : Bytes
  initial : Nat
  middle : Nat
  final : Nat

/-- The content table, by row. The first row is the zero key's. -/
def contentTable : List ContentItem :=
  [
    ("", 0, 0, 0), ("a", 0, 0, 1), ("ai", 0, 0, 2), ("an", 0, 0, 3), ("ang", 0, 0, 4), ("ao", 0, 0, 5),
    ("b", 1, 0, 0), ("ba", 1, 0, 1), ("bai", 1, 0, 2), ("ban", 1, 0, 3), ("bang", 1, 0, 4),
    ("bao", 1, 0, 5), ("bei", 1, 0, 8), ("ben", 1, 0, 9), ("beng", 1, 0, 10), ("bi", 1, 1, 0),
    ("bian", 1, 1, 3), ("biao", 1, 1, 5), ("bie", 1, 1, 6), ("bin", 1, 0, 16), ("bing", 1, 0, 17),
    ("bo", 1, 0, 13), ("bu", 1, 2, 0), ("c", 2, 0, 0), ("ca", 2, 0, 1), ("cai", 2, 0, 2),
    ("can", 2, 0, 3), ("cang", 2, 0, 4), ("cao", 2, 0, 5), ("ce", 2, 0, 6), ("cen", 2, 0, 9),
    ("ceng", 2, 0, 10), ("ch", 3, 0, 0), ("cha", 3, 0, 1), ("chai", 3, 0, 2), ("chan", 3, 0, 3),
    ("chang", 3, 0, 4), ("chao", 3, 0, 5), ("che", 3, 0, 6), ("chen", 3, 0, 9),
    ("cheng", 3, 0, 10), ("chi", 3, 1, 0), ("chong", 3, 0, 14), ("chou", 3, 0, 15),
    ("chu", 3, 2, 0), ("chua", 3, 2, 1), ("chuai", 3, 2, 2), ("chuan", 3, 2, 3),
    ("chuang", 3, 2, 4), ("chui", 3, 2, 8), ("chun", 3, 2, 9), ("chuo", 3, 2, 13),
    ("ci", 2, 1, 0), ("cong", 2, 0, 14), ("cou", 2, 0, 15), ("cu", 2, 2, 0), ("cuan", 2, 2, 3),
    ("cui", 2, 2, 8), ("cun", 2, 2, 9), ("cuo", 2, 2, 13), ("d", 4, 0, 0), ("da", 4, 0, 1),
    ("dai", 4, 0, 2), ("dan", 4, 0, 3), ("dang", 4, 0, 4), ("dao", 4, 0, 5), ("de", 4, 0, 6),
    ("dei", 4, 0, 8), ("den", 4, 0, 9), ("deng", 4, 0, 10), ("di", 4, 1, 0), ("dia", 4, 1, 1),
    ("dian", 4, 1, 3), ("diao", 4, 1, 5), ("die", 4, 1, 6), ("din", 4, 0, 16), ("ding", 4, 0, 17),
    ("diu", 4, 1, 15), ("dong", 4, 0, 14), ("dou", 4, 0, 15), ("du", 4, 2, 0), ("duan", 4, 2, 3),
    ("dui", 4, 2, 8), ("dun", 4, 2, 9), ("duo", 4, 2, 13), ("e", 0, 0, 6), ("ei", 0, 0, 8),
    ("en", 0, 0, 9), ("eng", 0, 0, 10), ("er", 0, 0, 11), ("f", 5, 0, 0), ("fa", 5, 0, 1),
    ("fan", 5, 0, 3), ("fang", 5, 0, 4), ("fe", 5, 0, 6), ("fei", 5, 0, 8), ("fen", 5, 0, 9),
    ("feng", 5, 0, 10), ("fo", 5, 0, 13), ("fou", 5, 0, 15), ("fu", 5, 2, 0), ("g", 7, 0, 0),
    ("ga", 7, 0, 1), ("gai", 7, 0, 2), ("gan", 7, 0, 3), ("gang", 7, 0, 4), ("gao", 7, 0, 5),
    ("ge", 7, 0, 6), ("gei", 7, 0, 8), ("gen", 7, 0, 9), ("geng", 7, 0, 10), ("gong", 7, 0, 14),
    ("gou", 7, 0, 15), ("gu", 7, 2, 0), ("gua", 7, 2, 1), ("guai", 7, 2, 2), ("guan", 7, 2, 3),
    ("guang", 7, 2, 4), ("gui", 7, 2, 8), ("gun", 7, 2, 9), ("guo", 7, 2, 13), ("h", 6, 0, 0),
    ("ha", 6, 0, 1), ("hai", 6, 0, 2), ("han", 6, 0, 3), ("hang", 6, 0, 4), ("hao", 6, 0, 5),
    ("he", 6, 0, 6), ("hei", 6, 0, 8), ("hen", 6, 0, 9), ("heng", 6, 0, 10), ("hong", 6, 0, 14),
    ("hou", 6, 0, 15), ("hu", 6, 2, 0), ("hua", 6, 2, 1), ("huai", 6, 2, 2), ("huan", 6, 2, 3),
    ("huang", 6, 2, 4), ("hui", 6, 2, 8), ("hun", 6, 2, 9), ("huo", 6, 2, 13), ("j", 9, 0, 0),
    ("ji", 9, 1, 0), ("jia", 9, 1, 1), ("jian", 9, 1, 3), ("jiang", 9, 1, 4), ("jiao", 9, 1, 5),
    ("jie", 9, 1, 6), ("jin", 9, 0, 16), ("jing", 9, 0, 17), ("jiong", 9, 1, 14),
    ("jiu", 9, 1, 15), ("ju", 9, 3, 0), ("juan", 9, 3, 3), ("jue", 9, 3, 6), ("jun", 9, 3, 9),
    ("k", 8, 0, 0), ("ka", 8, 0, 1), ("kai", 8, 0, 2), ("kan", 8, 0, 3), ("kang", 8, 0, 4),
    ("kao", 8, 0, 5), ("ke", 8, 0, 6), ("kei", 8, 0, 8), ("ken", 8, 0, 9), ("keng", 8, 0, 10),
    ("kong", 8, 0, 14), ("kou", 8, 0, 15), ("ku", 8, 2, 0), ("kua", 8, 2, 1), ("kuai", 8, 2, 2),
    ("kuan", 8, 2, 3), ("kuang", 8, 2, 4), ("kui", 8, 2, 8), ("kun", 8, 2, 9), ("kuo", 8, 2, 13),
    ("l", 12, 0, 0), ("la", 12, 0, 1), ("lai", 12, 0, 2), ("lan", 12, 0, 3), ("lang", 12, 0, 4),
    ("lao", 12, 0, 5), ("le", 12, 0, 6), ("lei", 12, 0, 8), ("len", 12, 0, 9),
    ("leng", 12, 0, 10), ("li", 12, 1, 0), ("lia", 12, 1, 1), ("lian", 12, 1, 3),
    ("liang", 12, 1, 4), ("liao", 12, 1, 5), ("lie", 12, 1, 6), ("lin", 12, 0, 16),
    ("ling", 12, 0, 17), ("liu", 12, 1, 15), ("lo", 12, 0, 13), ("long", 12, 0, 14),
    ("lou", 12, 0, 15), ("lu", 12, 2, 0), ("luan", 12, 2, 3), ("lun", 12, 2, 9),
    ("luo", 12, 2, 13), ("lv", 12, 3, 0), ("lve", 12, 3, 6), ("m", 10, 0, 0), ("ma", 10, 0, 1),
    ("mai", 10, 0, 2), ("man", 10, 0, 3), ("mang", 10, 0, 4), ("mao", 10, 0, 5), ("me", 10, 0, 6),
    ("mei", 10, 0, 8), ("men", 10, 0, 9), ("meng", 10, 0, 10), ("mi", 10, 1, 0),
    ("mian", 10, 1, 3), ("miao", 10, 1, 5), ("mie", 10, 1, 6), ("min", 10, 0, 16),
    ("ming", 10, 0, 17), ("miu", 10, 1, 15), ("mo", 10, 0, 13), ("mou", 10, 0, 15),
    ("mu", 10, 2, 0), ("n", 11, 0, 0), ("na", 11, 0, 1), ("nai", 11, 0, 2), ("nan", 11, 0, 3),
    ("nang", 11, 0, 4), ("nao", 11, 0, 5), ("ne", 11, 0, 6), ("nei", 11, 0, 8), ("nen", 11, 0, 9),
    ("neng", 11, 0, 10), ("ng", 0, 0, 12), ("ni", 11, 1, 0), ("nia", 11, 1, 1),
    ("nian", 11, 1, 3), ("niang", 11, 1, 4), ("niao", 11, 1, 5), ("nie", 11, 1, 6),
    ("nin", 11, 0, 16), ("ning", 11, 0, 17), ("niu", 11, 1, 15), ("nong", 11, 0, 14),
    ("nou", 11, 0, 15), ("nu", 11, 2, 0), ("nuan", 11, 2, 3), ("nun", 11, 2, 9),
    ("nuo", 11, 2, 13), ("nv", 11, 3, 0), ("nve", 11, 3, 6), ("o", 0, 0, 13), ("ou", 0, 0, 15),
    ("p", 14, 0, 0), ("pa", 14, 0, 1), ("pai", 14, 0, 2), ("pan", 14, 0, 3), ("pang", 14, 0, 4),
    ("pao", 14, 0, 5), ("pei", 14, 0, 8), ("pen", 14, 0, 9), ("peng", 14, 0, 10),
    ("pi", 14, 1, 0), ("pian", 14, 1, 3), ("piao", 14, 1, 5), ("pie", 14, 1, 6),
    ("pin", 14, 0, 16), ("ping", 14, 0, 17), ("po", 14, 0, 13), ("pou", 14, 0, 15),
    ("pu", 14, 2, 0), ("q", 15, 0, 0), ("qi", 15, 1, 0), ("qia", 15, 1, 1), ("qian", 15, 1, 3),
    ("qiang", 15, 1, 4), ("qiao", 15, 1, 5), ("qie", 15, 1, 6), ("qin", 15, 0, 16),
    ("qing", 15, 0, 17), ("qiong", 15, 1, 14), ("qiu", 15, 1, 15), ("qu", 15, 3, 0),
    ("quan", 15, 3, 3), ("que", 15, 3, 6), ("qun", 15, 3, 9), ("r", 13, 0, 0), ("ran", 13, 0, 3),
    ("rang", 13, 0, 4), ("rao", 13, 0, 5), ("re", 13, 0, 6), ("ren", 13, 0, 9),
    ("reng", 13, 0, 10), ("ri", 13, 1, 0), ("rong", 13, 0, 14), ("rou", 13, 0, 15),
    ("ru", 13, 2, 0), ("rua", 13, 2, 1), ("ruan", 13, 2, 3), ("rui", 13, 2, 8), ("run", 13, 2, 9),
    ("ruo", 13, 2, 13), ("s", 16, 0, 0), ("sa", 16, 0, 1), ("sai", 16, 0, 2), ("san", 16, 0, 3),
    ("sang", 16, 0, 4), ("sao", 16, 0, 5), ("se", 16, 0, 6), ("sen", 16, 0, 9),
    ("seng", 16, 0, 10), ("sh", 17, 0, 0), ("sha", 17, 0, 1), ("shai", 17, 0, 2),
    ("shan", 17, 0, 3), ("shang", 17, 0, 4), ("shao", 17, 0, 5), ("she", 17, 0, 6),
    ("shei", 17, 0, 8), ("shen", 17, 0, 9), ("sheng", 17, 0, 10), ("shi", 17, 1, 0),
    ("shou", 17, 0, 15), ("shu", 17, 2, 0), ("shua", 17, 2, 1), ("shuai", 17, 2, 2),
    ("shuan", 17, 2, 3), ("shuang", 17, 2, 4), ("shui", 17, 2, 8), ("shun", 17, 2, 9),
    ("shuo", 17, 2, 13), ("si", 16, 1, 0), ("song", 16, 0, 14), ("sou", 16, 0, 15),
    ("su", 16, 2, 0), ("suan", 16, 2, 3), ("sui", 16, 2, 8), ("sun", 16, 2, 9),
    ("suo", 16, 2, 13), ("t", 18, 0, 0), ("ta", 18, 0, 1), ("tai", 18, 0, 2), ("tan", 18, 0, 3),
    ("tang", 18, 0, 4), ("tao", 18, 0, 5), ("te", 18, 0, 6), ("teng", 18, 0, 10),
    ("ti", 18, 1, 0), ("tian", 18, 1, 3), ("tiao", 18, 1, 5), ("tie", 18, 1, 6),
    ("ting", 18, 0, 17), ("tong", 18, 0, 14), ("tou", 18, 0, 15), ("tu", 18, 2, 0),
    ("tuan", 18, 2, 3), ("tui", 18, 2, 8), ("tun", 18, 2, 9), ("tuo", 18, 2, 13), ("w", 19, 0, 0),
    ("wa", 19, 2, 1), ("wai", 19, 2, 2), ("wan", 19, 2, 3), ("wang", 19, 2, 4), ("wei", 19, 2, 8),
    ("wen", 19, 2, 9), ("weng", 19, 0, 14), ("wo", 19, 2, 13), ("wu", 19, 2, 0), ("x", 20, 0, 0),
    ("xi", 20, 1, 0), ("xia", 20, 1, 1), ("xian", 20, 1, 3), ("xiang", 20, 1, 4),
    ("xiao", 20, 1, 5), ("xie", 20, 1, 6), ("xin", 20, 0, 16), ("xing", 20, 0, 17),
    ("xiong", 20, 1, 14), ("xiu", 20, 1, 15), ("xu", 20, 3, 0), ("xuan", 20, 3, 3),
    ("xue", 20, 3, 6), ("xun", 20, 3, 9), ("y", 21, 0, 0), ("ya", 21, 1, 1), ("yai", 21, 1, 2),
    ("yan", 21, 1, 3), ("yang", 21, 1, 4), ("yao", 21, 1, 5), ("ye", 21, 1, 6), ("yi", 21, 1, 0),
    ("yin", 21, 0, 16), ("ying", 21, 0, 17), ("yo", 21, 1, 13), ("yong", 21, 1, 14),
    ("you", 21, 1, 15), ("yu", 21, 3, 0), ("yuan", 21, 3, 3), ("yue", 21, 3, 6),
    ("yun", 21, 3, 9), ("z", 22, 0, 0), ("za", 22, 0, 1), ("zai", 22, 0, 2), ("zan", 22, 0, 3),
    ("zang", 22, 0, 4), ("zao", 22, 0, 5), ("ze", 22, 0, 6), ("zei", 22, 0, 8), ("zen", 22, 0, 9),
    ("zeng", 22, 0, 10), ("zh", 23, 0, 0), ("zha", 23, 0, 1), ("zhai", 23, 0, 2),
    ("zhan", 23, 0, 3), ("zhang", 23, 0, 4), ("zhao", 23, 0, 5), ("zhe", 23, 0, 6),
    ("zhei", 23, 0, 8), ("zhen", 23, 0, 9), ("zheng", 23, 0, 10), ("zhi", 23, 1, 0),
    ("zhong", 23, 0, 14), ("zhou", 23, 0, 15), ("zhu", 23, 2, 0), ("zhua", 23, 2, 1),
    ("zhuai", 23, 2, 2), ("zhuan", 23, 2, 3), ("zhuang", 23, 2, 4), ("zhui", 23, 2, 8),
    ("zhun", 23, 2, 9), ("zhuo", 23, 2, 13), ("zi", 22, 1, 0), ("zong", 22, 0, 14),
    ("zou", 22, 0, 15), ("zu", 22, 2, 0), ("zuan", 22, 2, 3), ("zui", 22, 2, 8),
    ("zun", 22, 2, 9), ("zuo", 22, 2, 13)
  ].map fun row : String × Nat × Nat × Nat => ⟨ascii row.1, row.2.1, row.2.2.1, row.2.2.2⟩

/-- A key by its fields. -/
structure ChewingKey where
  initial : Nat
  middle : Nat
  final : Nat
  tone : Nat
  deriving DecidableEq

namespace ChewingKey

/-- The zero key. -/
def zero : ChewingKey := ⟨0, 0, 0, 0⟩

/-- The key with its tone set. -/
def withTone (key : ChewingKey) (tone : Nat) : ChewingKey :=
  { key with tone := tone }

/-- The row with these fields, zero where there is none. The table it is read from is the
inverse of the content table. -/
def tableIndex (key : ChewingKey) : Nat :=
  (contentTable.findIdx? fun row =>
    row.initial == key.initial && row.middle == key.middle && row.final == key.final).getD 0

/-- The spelling of the key's row. -/
def pinyinSpelling (key : ChewingKey) : Bytes :=
  ((contentTable[key.tableIndex]?).map (·.pinyin)).getD []

/-- The key of a spelling, tone zero. -/
def fromPinyin (text : Bytes) : Option ChewingKey :=
  (contentTable.find? fun row => row.pinyin == text).map fun row =>
    ⟨row.initial, row.middle, row.final, 0⟩

/-- The packed form : the low bits of the fields, side by side. -/
def toPacked (key : ChewingKey) : BitVec 16 :=
  (BitVec.ofNat 16 key.initial &&& 0x1f) ||| ((BitVec.ofNat 16 key.middle &&& 0x3) <<< 5) |||
    ((BitVec.ofNat 16 key.final &&& 0x1f) <<< 7) ||| ((BitVec.ofNat 16 key.tone &&& 0x7) <<< 12)

/-- The key of a packed form. Its top bit is dropped. -/
def fromPacked (bits : BitVec 16) : ChewingKey :=
  ⟨(bits &&& 0x1f).toNat, ((bits >>> 5) &&& 0x3).toNat, ((bits >>> 7) &&& 0x1f).toNat,
    ((bits >>> 12) &&& 0x7).toNat⟩

end ChewingKey

open ChewingKey

/-- The fields of a key's spelling. -/
def SyllableKey.chewingKey (key : SyllableKey) : ChewingKey :=
  (ChewingKey.fromPinyin key.text).getD .zero

/-- The key a chewing key names, its tone ignored. -/
def SyllableKey.fromChewingKey (key : ChewingKey) : Option SyllableKey :=
  if key.tableIndex = 0 then none else SyllableKey.fromCanonicalText key.pinyinSpelling

/-! ## Fuzzy alternates -/

/-- The initials an ambiguity bit confuses. -/
def fuzzyInitials : List (BitVec 32 × String × String) :=
  [(pinyinAmbCCh, "c", "ch"), (pinyinAmbZZh, "z", "zh"), (pinyinAmbSSh, "s", "sh"),
    (pinyinAmbLR, "l", "r"), (pinyinAmbLN, "l", "n"), (pinyinAmbFH, "f", "h"),
    (pinyinAmbGK, "g", "k")]

/-- The finals an ambiguity bit confuses. -/
def fuzzyFinals : List (BitVec 32 × String × String) :=
  [(pinyinAmbAnAng, "an", "ang"), (pinyinAmbEnEng, "en", "eng"), (pinyinAmbInIng, "in", "ing")]

/-- The swaps of one field that the options admit, both ways. -/
def fuzzySwaps (field : ChewingKey → Nat) (pairs : List (BitVec 32 × String × String))
    (options : OptionBits) : List (Nat × Nat) :=
  pairs.flatMap fun (bit, a, b) =>
    if options.contains bit then
      match ChewingKey.fromPinyin (ascii a), ChewingKey.fromPinyin (ascii b) with
      | some a, some b => [(field a, field b), (field b, field a)]
      | _, _ => []
    else []

/-- Initials swapped where the swap has a row, then finals of the key and of those. -/
def fuzzyChewingAlternatives (key : ChewingKey) (options : OptionBits) : List ChewingKey :=
  let initials := (fuzzySwaps (·.initial) fuzzyInitials options).filterMap fun (from_, to_) =>
    if key.initial = from_ then
      let alternate := { key with initial := to_ }
      if alternate.tableIndex ≠ 0 then some alternate else none
    else none
  initials ++ (key :: initials).flatMap fun source =>
    (fuzzySwaps (·.final) fuzzyFinals options).filterMap fun (from_, to_) =>
      if source.final = from_ then some { source with final := to_ } else none

/-- The alternates of a key. -/
def SyllableKey.fuzzyAlternatives (key : SyllableKey) (options : OptionBits) : List SyllableKey :=
  (fuzzyChewingAlternatives key.chewingKey options).filterMap SyllableKey.fromChewingKey

/-! ## Complete alternates -/

variable {options : OptionBits}

/-- A key with a middle or a final. -/
def ChewingKey.HasRhyme (key : ChewingKey) : Prop :=
  key.middle ≠ 0 ∨ key.final ≠ 0

theorem incompletePinyinKeys_length_le : ∀ text ∈ incompletePinyinKeys, text.length ≤ 2 := by
  decide +kernel

/-- The rows of the initial-only keys have an initial only. -/
theorem contentTable_incomplete : ∀ row ∈ contentTable, row.pinyin.length ≤ 2 →
    row.pinyin ∈ incompletePinyinKeys → row.middle = 0 ∧ row.final = 0 := by
  decide +kernel

/-- A row with an initial only is the zero key's or an initial-only key's. -/
theorem contentTable_initialOnly : ∀ row ∈ contentTable, row.middle = 0 → row.final = 0 →
    row.pinyin ∈ [] :: incompletePinyinKeys := by
  decide +kernel

theorem fuzzyInitials_ne_zero : ∀ pair ∈ fuzzyInitials,
    (fromPinyin (ascii pair.2.1)).all (fun key => key.initial != 0) ∧
    (fromPinyin (ascii pair.2.2)).all fun key => key.initial != 0 := by
  decide +kernel

theorem fuzzyFinals_ne_zero : ∀ pair ∈ fuzzyFinals,
    (fromPinyin (ascii pair.2.1)).all (fun key => key.final != 0) ∧
    (fromPinyin (ascii pair.2.2)).all fun key => key.final != 0 := by
  decide +kernel

theorem fuzzySwaps_ne_zero {field : ChewingKey → Nat} {pairs : List (BitVec 32 × String × String)}
    (hpairs : ∀ pair ∈ pairs,
      (fromPinyin (ascii pair.2.1)).all (fun key => field key != 0) ∧
      (fromPinyin (ascii pair.2.2)).all fun key => field key != 0) {swap : Nat × Nat} (h :
      swap ∈ fuzzySwaps field pairs options) :
    swap.1 ≠ 0 ∧ swap.2 ≠ 0 := by
  obtain ⟨⟨bit, a, b⟩, hpair, hswap⟩ := mem_flatMap.mp h
  obtain ⟨ha, hb⟩ := hpairs _ hpair
  dsimp only at hswap ha hb
  split_ifs at hswap
  · split at hswap
    · rename_i keyA keyB hkeyA hkeyB
      rw [hkeyA] at ha
      rw [hkeyB] at hb
      simp only [all_some, bne_iff_ne, ne_eq] at ha hb
      simp only [mem_cons, not_mem_nil, or_false] at hswap
      rcases hswap with rfl | rfl
      · exact ⟨ha, hb⟩
      · exact ⟨hb, ha⟩
    · simp at hswap
  · simp at hswap

/-- An alternate keeps the rhyme or swaps it for another, and the zero key has none. -/
theorem hasRhyme_of_mem_fuzzy {key alternate : ChewingKey} (hkey : key = .zero ∨ key.HasRhyme)
    (h : alternate ∈ fuzzyChewingAlternatives key options) : alternate.HasRhyme := by
  have hinitial : ∀ found ∈ (fuzzySwaps (·.initial) fuzzyInitials options).filterMap
      (fun swap => if key.initial = swap.1 then
        (if ({ key with initial := swap.2 } : ChewingKey).tableIndex ≠ 0 then
          some { key with initial := swap.2 } else none) else none), found.HasRhyme := by
    intro found hfound
    obtain ⟨swap, hswap, hsome⟩ := mem_filterMap.mp hfound
    have hne := fuzzySwaps_ne_zero fuzzyInitials_ne_zero hswap
    split_ifs at hsome with hfrom
    · rw [← some.inj hsome]
      refine hkey.resolve_left ?_
      rintro rfl
      exact hne.1 hfrom.symm
  unfold fuzzyChewingAlternatives at h
  rcases mem_append.mp h with h | h
  · exact hinitial alternate h
  · obtain ⟨source, _, h⟩ := mem_flatMap.mp h
    obtain ⟨swap, hswap, hsome⟩ := mem_filterMap.mp h
    have hne := fuzzySwaps_ne_zero fuzzyFinals_ne_zero hswap
    dsimp only at hsome
    split_ifs at hsome
    rw [← some.inj hsome]
    exact Or.inr hne.2

namespace SyllableKey

variable {key : SyllableKey}

theorem text_of_complete (h : key.completeness = .Complete) : key.text ∉ [] :: incompletePinyinKeys := by
  have hothers : ∀ text ∈ optionOnlyCompleteSyllables ++ zhuyinOnlyCompleteSyllables,
      text ∉ [] :: incompletePinyinKeys := by decide +kernel
  unfold completeness at h
  split_ifs at h with hindex
  rcases hindex with hfull | hlate
  · have hget := getElem?_eq_getElem hfull
    rw [text_of_full hget]
    have hmem := getElem_mem hfull
    intro hin
    rcases mem_cons.mp hin with hnil | hin
    · exact (fullPinyinSyllables_wellSpelled _ hmem).1 hnil
    · exact incompletePinyinKeys_disjoint _ hin hmem
  · refine hothers _ (mem_append.mpr ?_)
    have hlt := key.index_lt
    unfold syllableKeyCount at hlt
    rcases Nat.lt_or_ge (key.index - (fullPinyinSyllables.length + incompletePinyinKeys.length))
      optionOnlyCompleteSyllables.length with hoption | hzhuyin
    · left
      rw [@text_of_optionOnly key _ (key.index - (fullPinyinSyllables.length +
        incompletePinyinKeys.length)) (by omega) (getElem?_eq_getElem hoption)]
      exact getElem_mem hoption
    · right
      unfold SyllableKey.text
      rw [getElem?_eq_none (by omega), getElem?_eq_none (by omega)]
      dsimp only
      rw [getElem?_eq_none (by omega)]
      dsimp only
      rw [getElem?_eq_getElem (by omega), getD_some]
      exact getElem_mem _

/-- The key of a syllable has no tone. -/
theorem chewingKey_withTone_zero (key : SyllableKey) : key.chewingKey.withTone 0 = key.chewingKey := by
  unfold chewingKey fromPinyin
  cases contentTable.find? fun row => row.pinyin == key.text with
  | none => rfl
  | some row => rfl

theorem chewingKey_of_complete (h : key.completeness = .Complete) :
    key.chewingKey = .zero ∨ key.chewingKey.HasRhyme := by
  unfold chewingKey fromPinyin
  cases hrow : contentTable.find? fun row => row.pinyin == key.text with
  | none => exact Or.inl rfl
  | some row =>
    right
    have htext : row.pinyin = key.text := by simpa using find?_some hrow
    by_contra hno
    unfold ChewingKey.HasRhyme at hno
    simp only [map_some, getD_some, not_or, not_not] at hno
    refine text_of_complete h ?_
    rw [← htext]
    exact contentTable_initialOnly row (mem_of_find?_eq_some hrow) hno.1 hno.2

theorem fromCanonicalText_partial {text : Bytes}
    (h : fromCanonicalText text = some key) (hpart : key.completeness = .Partial) : text ∈ incompletePinyinKeys := by
  have hindex : fullPinyinSyllables.length ≤ key.index ∧
      key.index < fullPinyinSyllables.length + incompletePinyinKeys.length := by
    unfold completeness at hpart
    split_ifs at hpart with hrange
    omega
  unfold fromCanonicalText at h
  split at h
  · rename_i index hidx
    have := fromIndex_eq_some h
    have := (getElem?_of_idxOf? hidx).2
    omega
  · split at h
    · rename_i index hidx
      exact mem_of_getElem? (getElem?_of_idxOf? hidx).1
    · dsimp only at h
      split at h
      · have := fromIndex_eq_some h
        omega
      · obtain ⟨index, _, hkey⟩ := bind_eq_some_iff.mp h
        have := fromIndex_eq_some hkey
        omega

/-- A chewing key with a rhyme names a complete syllable. -/
theorem completeness_of_fromChewingKey {chewing : ChewingKey}
    (h : fromChewingKey chewing = some key) (hrhyme : chewing.HasRhyme) : key.completeness = .Complete := by
  cases hcase : key.completeness with
  | Complete => rfl
  | Partial =>
    exfalso
    unfold fromChewingKey at h
    split_ifs at h with hrow
    have hmem := fromCanonicalText_partial h hcase
    unfold pinyinSpelling tableIndex at hmem
    unfold tableIndex at hrow
    cases hfind : contentTable.findIdx? fun row => row.initial == chewing.initial &&
        row.middle == chewing.middle && row.final == chewing.final with
    | none => exact hrow (by rw [hfind]; rfl)
    | some index =>
      obtain ⟨hlt, hfields, _⟩ := findIdx?_eq_some_iff_getElem.mp hfind
      rw [hfind, getD_some, getElem?_eq_getElem hlt, map_some, getD_some] at hmem
      have hzero := contentTable_incomplete _ (getElem_mem hlt) (incompletePinyinKeys_length_le _ hmem) hmem
      simp only [Bool.and_eq_true, beq_iff_eq] at hfields
      rcases hrhyme with hmiddle | hfinal
      · exact hmiddle (hfields.1.2.symm.trans hzero.1)
      · exact hfinal (hfields.2.symm.trans hzero.2)

/-- The alternates of a complete syllable are complete. -/
theorem completeness_of_mem_fuzzyAlternatives {alternate : SyllableKey} {options : OptionBits}
    (hkey : key.completeness = .Complete) (h : alternate ∈ key.fuzzyAlternatives options) :
    alternate.completeness = .Complete := by
  obtain ⟨chewing, hmem, hname⟩ := mem_filterMap.mp h
  exact completeness_of_fromChewingKey hname (hasRhyme_of_mem_fuzzy (chewingKey_of_complete hkey) hmem)

end SyllableKey

end Oxpinyin
