import Oxpinyin.KmmText

/-!
# The lines of a k mixture model

An export lists the lines of a container, whatever order its grams are walked in
(`exportText_eq`) : the headline, the headers of the grams and their items, each line words with
blanks between them.
-/

namespace Oxpinyin.Kmm

open List FiniteMap Tool

/-! ## Lines -/

/-- The text of a token as it is printed. -/
def textOf (phrases : PhraseIndex) (token : BitVec 32) : Bytes :=
  ((phrases.tokenToString token).map cText).getD []

/-- The words of a header's line. -/
def headerWords (phrases : PhraseIndex) (token : BitVec 32) (header : ArrayHeader) : List Bytes :=
  [decimal token.toInt, textOf phrases token, ascii "count", decimal header.wc.toInt, ascii "freq",
    decimal header.freq.toInt]

/-- The words of an item's line. -/
def itemWords (phrases : PhraseIndex) (token1 token2 : BitVec 32) (item : ArrayItem) : List Bytes :=
  [decimal token1.toInt, textOf phrases token1, decimal token2.toInt, textOf phrases token2,
    ascii "count", decimal item.wc.toInt, ascii "T", decimal item.wc.toInt, ascii "N_n_0",
    decimal item.nn0.toInt, ascii "n_1", decimal item.n1.toInt, ascii "Mr", decimal item.mr.toInt]

/-- The words of the magic header behind its quoted text. -/
def magicWords (header : MagicHeader) : List Bytes :=
  [ascii "count", decimal header.wc.toInt, ascii "N", decimal header.n.toInt, ascii "total_freq",
    decimal header.totalFreq.toInt]

def headline (header : MagicHeader) : Bytes :=
  ascii "\\data" ++ 32 :: (ascii "model" ++ 32 :: 34 :: (ascii "k mixture model" ++ 34 :: 32 ::
    joinWords (magicWords header)))

def itemLine (words : List Bytes) : Bytes := joinWords (ascii "\\item" :: words)

theorem dataHeader_eq (header : MagicHeader) :
    dataHeader header.wc.toInt header.n.toInt header.totalFreq.toInt = headline header ++ [10] := by
  have hopen : ascii "\\data model \"k mixture model\" count " = ascii "\\data" ++ 32 :: (ascii "model" ++
      32 :: 34 :: (ascii "k mixture model" ++ 34 :: 32 :: (ascii "count" ++ [32]))) := by simp [ascii]
  have hn : ascii " N " = 32 :: (ascii "N" ++ [32]) := by simp [ascii]
  have htotal : ascii " total_freq " = 32 :: (ascii "total_freq" ++ [32]) := by simp [ascii]
  unfold dataHeader headline magicWords
  rw [hopen, hn, htotal]
  simp [joinWords]

theorem unigramItem_eq {phrases : PhraseIndex} {token : BitVec 32} {phrase : Bytes}
    (hphrase : phrases.tokenToString token = some phrase) (header : ArrayHeader) :
    unigramItem token.toInt (cText phrase) header.wc.toInt header.freq.toInt =
      itemLine (headerWords phrases token header) ++ [10] := by
  have hitem : ascii "\\item " = ascii "\\item" ++ [32] := by simp [ascii]
  have hblank : ascii " " = [32] := by simp [ascii]
  have hcount : ascii " count " = 32 :: (ascii "count" ++ [32]) := by simp [ascii]
  have hfreq : ascii " freq " = 32 :: (ascii "freq" ++ [32]) := by simp [ascii]
  unfold unigramItem itemLine headerWords textOf
  rw [hitem, hblank, hcount, hfreq, hphrase]
  simp [joinWords]

theorem printArrayItem_eq {phrases : PhraseIndex} {token : BitVec 32} {entry : BitVec 32 × ArrayItem}
    (htext : (phrases.tokenToString token).isSome) (htext' : (phrases.tokenToString entry.1).isSome) :
    printArrayItem phrases token entry = itemLine (itemWords phrases token entry.1 entry.2) ++ [10] := by
  obtain ⟨phrase, hphrase⟩ := Option.isSome_iff_exists.mp htext
  obtain ⟨phrase', hphrase'⟩ := Option.isSome_iff_exists.mp htext'
  have hitem : ascii "\\item " = ascii "\\item" ++ [32] := by simp [ascii]
  have hblank : ascii " " = [32] := by simp [ascii]
  have hcount : ascii " count " = 32 :: (ascii "count" ++ [32]) := by simp [ascii]
  have ht : ascii " T " = 32 :: (ascii "T" ++ [32]) := by simp [ascii]
  have hnn0 : ascii " N_n_0 " = 32 :: (ascii "N_n_0" ++ [32]) := by simp [ascii]
  have hn1 : ascii " n_1 " = 32 :: (ascii "n_1" ++ [32]) := by simp [ascii]
  have hmr : ascii " Mr " = 32 :: (ascii "Mr" ++ [32]) := by simp [ascii]
  unfold printArrayItem itemLine itemWords textOf
  rw [hphrase, hphrase']
  dsimp only
  unfold bigramItem
  rw [hitem, hblank, hcount, ht, hnn0, hn1, hmr]
  simp [joinWords]

/-! ## What an export writes -/

/-- A token's text is one run of graph characters. -/
def HasText (glib : Glib) (phrases : PhraseIndex) (token : BitVec 32) : Prop :=
  (phrases.tokenToString token).isSome ∧ Word glib (textOf phrases token)

/-- Every token of a container has a text. -/
def Resolves (glib : Glib) (phrases : PhraseIndex) (container : Container) : Prop :=
  ∀ token gram, container.load token = some gram →
    HasText glib phrases token ∧ ∀ entry ∈ gram.items, HasText glib phrases entry.1

/-- The lines of the headers of some tokens. -/
def headerLines (phrases : PhraseIndex) (container : Container) (rows : List (BitVec 32)) : List Bytes :=
  rows.map fun token => itemLine (headerWords phrases token (container.grams token).header)

/-- The lines of the items of some tokens. -/
def itemLines (phrases : PhraseIndex) (container : Container) (rows : List (BitVec 32)) : List Bytes :=
  rows.flatMap fun token => (container.grams token).items.map fun entry =>
    itemLine (itemWords phrases token entry.1 entry.2)

/-- The items of some tokens, with their predecessors. -/
def rowEntries (source : Container) (rows : List (BitVec 32)) : List (BitVec 32 × BitVec 32 × ArrayItem) :=
  rows.flatMap fun token => (source.grams token).items.map fun entry => (token, entry.1, entry.2)

/-- The lines of some items. -/
def entryLines (phrases : PhraseIndex) (entries : List (BitVec 32 × BitVec 32 × ArrayItem)) : List Bytes :=
  entries.map fun entry => itemLine (itemWords phrases entry.1 entry.2.1 entry.2.2)

section

variable (phrases : PhraseIndex) (container : Container)

theorem itemLines_eq (rows : List (BitVec 32)) :
    itemLines phrases container rows = entryLines phrases (rowEntries container rows) := by
  unfold itemLines entryLines rowEntries
  rw [map_flatMap]
  simp only [map_map]
  rfl

/-- The lines of a text. -/
def textLines (magic : MagicHeader) (rows : List (BitVec 32)) : List Bytes :=
  headline magic :: ascii "\\1-gram" :: headerLines phrases container rows ++
    ascii "\\2-gram" :: itemLines phrases container rows ++ [ascii "\\end"]

/-- The lines behind the headline. -/
def bodyLines (rows : List (BitVec 32)) : List Bytes :=
  ascii "\\1-gram" :: headerLines phrases container rows ++ ascii "\\2-gram" :: itemLines phrases container rows ++
    [ascii "\\end"]

theorem textLines_eq (magic : MagicHeader) (rows : List (BitVec 32)) :
    textLines phrases container magic rows = headline magic :: bodyLines phrases container rows := rfl

end

theorem foldlM_append {α : Type} {f : α → Except Halt Bytes} {g : α → Bytes} {rows : List α}
    (h : ∀ row ∈ rows, f row = .ok (g row)) (start : Bytes) :
    rows.foldlM (fun output row => (f row).map (output ++ ·)) start = .ok (start ++ rows.flatMap g) := by
  induction rows generalizing start with
  | nil => rw [flatMap_nil, append_nil]; rfl
  | cons row rows ih =>
    rw [foldlM_cons, h row mem_cons_self, flatMap_cons, ← append_assoc]
    exact ih (fun other hother => h other (mem_cons_of_mem _ hother)) (start ++ g row)

section Export

variable {glib : Glib} {phrases : PhraseIndex} {container : Container} {magic : MagicHeader}

/-- The text lists the lines, whatever the order of the grams. -/
theorem exportText_eq (hmagic : container.magic = some magic) (htexts : Resolves glib phrases container)
    (order : Walk) : exportText phrases container order =
      .ok ((textLines phrases container magic (container.getAllItems order)).flatMap (· ++ [10])) := by
  have hload : ∀ token ∈ container.getAllItems order, container.load token = some (container.grams token) := by
    intro token htoken
    obtain ⟨gram, hgram⟩ := Option.isSome_iff_exists.mp ((container.mem_getAllItems token order).mp htoken)
    rw [Container.grams, hgram]
    rfl
  have hheaders : printArrayHeaders phrases container order =
      .ok (gram1 ++ (headerLines phrases container (container.getAllItems order)).flatMap (· ++ [10])) := by
    unfold printArrayHeaders headerLines
    rw [flatMap_map]
    refine foldlM_append (fun token htoken => ?_) gram1
    obtain ⟨⟨hsome, _⟩, _⟩ := htexts token _ (hload token htoken)
    obtain ⟨phrase, hphrase⟩ := Option.isSome_iff_exists.mp hsome
    unfold printArrayHeader Container.getArrayHeader
    rw [hload token htoken, hphrase]
    exact congrArg Except.ok (unigramItem_eq hphrase _)
  have hitems : printArrayItems phrases container order =
      .ok (gram2 ++ (itemLines phrases container (container.getAllItems order)).flatMap (· ++ [10])) := by
    unfold printArrayItems itemLines
    rw [flatMap_assoc]
    refine foldlM_append (fun token htoken => ?_) gram2
    obtain ⟨⟨hsome, _⟩, hentries⟩ := htexts token _ (hload token htoken)
    unfold printSingleGram
    rw [hload token htoken, flatMap_map]
    refine congrArg Except.ok (flatMap_congr fun entry hentry => ?_)
    exact printArrayItem_eq hsome (hentries entry hentry).1
  unfold exportText printMagicHeader Container.getMagicHeader
  rw [hmagic, hheaders, hitems]
  change Except.ok (dataHeader _ _ _ ++ _ ++ _ ++ _) = _
  rw [dataHeader_eq]
  unfold textLines gram1 gram2 endLine
  simp [flatMap_append]

end Export

end Oxpinyin.Kmm
