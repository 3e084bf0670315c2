import Oxpinyin.KmmLines

/-!
# Reading the lines of a k mixture model

An import reads every line as it was meant. The headline sets the magic header, a round of the
headers writes one (`unigramLoop_rows`), a round of the items adds one (`bigramLoop_entries`), and
the sections follow each other up to the end (`parseBody_text`).
-/

namespace Oxpinyin.Kmm

open List FiniteMap Tool TagLib Converter

/-! ## What an import reads -/

/-- The registrations of a headline. -/
def headLib : TagLib :=
  TagLib.init.addTag beginLine (ascii "\\data") 0 (ascii "model:count:N:total_freq") []

/-- The registrations of the sections. -/
def bodyLib : TagLib :=
  ((headLib.pushState.addTag endLineType (ascii "\\end") 0 [] []).addTag
    gram1Line (ascii "\\1-gram") 0 [] []).addTag gram2Line (ascii "\\2-gram") 0 [] []

/-- The registrations of the headers. -/
def unigramLib : TagLib :=
  bodyLib.pushState.addTag gram1ItemLine (ascii "\\item") 2 (ascii "count:freq") []

/-- The registrations of the items. -/
def bigramLib : TagLib :=
  bodyLib.pushState.addTag gram2ItemLine (ascii "\\item") 4 (ascii "count:T:N_n_0:n_1:Mr") []

def headEntry : TagEntry :=
  ⟨beginLine, ascii "\\data", 0, [ascii "model", ascii "count", ascii "N", ascii "total_freq"], []⟩

def unigramEntry : TagEntry := ⟨gram1ItemLine, ascii "\\item", 2, [ascii "count", ascii "freq"], []⟩

def bigramEntry : TagEntry :=
  ⟨gram2ItemLine, ascii "\\item", 4, [ascii "count", ascii "T", ascii "N_n_0", ascii "n_1", ascii "Mr"], []⟩

/-- The entry of a section's line. -/
def sectionEntry (lineType : Int) (lineTag : Bytes) : TagEntry := ⟨lineType, lineTag, 0, [], []⟩

theorem find_headEntry : (headLib.top.find? fun entry => entry.lineTag == ascii "\\data") = some headEntry := rfl

theorem find_unigramEntry :
    (unigramLib.top.find? fun entry => entry.lineTag == ascii "\\item") = some unigramEntry := rfl

theorem find_bigramEntry : (bigramLib.top.find? fun entry => entry.lineTag == ascii "\\item") =
    some bigramEntry := rfl

/-- The lines of the sections are known in every state behind the headline. -/
theorem find_sectionEntry : ∀ lib ∈ [bodyLib, unigramLib, bigramLib],
    ∀ line ∈ [(gram1Line, ascii "\\1-gram"), (gram2Line, ascii "\\2-gram"), (endLineType, ascii "\\end")],
      (lib.top.find? fun entry => entry.lineTag == line.2) = some (sectionEntry line.1 line.2) := by
  intro lib hlib line hline
  simp only [mem_cons, not_mem_nil, or_false] at hlib hline
  rcases hlib with rfl | rfl | rfl
  all_goals
    rcases hline with rfl | rfl | rfl
    all_goals rfl

theorem popState_unigramLib : unigramLib.popState = bodyLib := rfl

theorem popState_bigramLib : bigramLib.popState = bodyLib := rfl

section Import

variable {glib : Glib} {phrases : PhraseIndex}

section

variable (h : glib.Documented)
include h

/-- A word of printable ASCII, by inspection. -/
theorem word_of_ascii {text : Bytes} (hne : text ≠ []) (hquote : text.headD 0 ≠ 34)
    (hascii : text.all (fun b => 33 ≤ b && b ≤ 126) = true) : Word glib text := by
  cases text with
  | nil => exact absurd rfl hne
  | cons first rest =>
    refine word_ascii h hquote fun b hb => ?_
    simpa using all_eq_true.mp hascii b hb

theorem word_tag : ∀ tag ∈ ["\\data", "\\1-gram", "\\2-gram", "\\end", "\\item", "model", "count",
    "N", "total_freq", "freq", "T", "N_n_0", "n_1", "Mr"], Word glib (ascii tag) := by
  have hall : ∀ tag ∈ ["\\data", "\\1-gram", "\\2-gram", "\\end", "\\item", "model", "count",
      "N", "total_freq", "freq", "T", "N_n_0", "n_1", "Mr"], ascii tag ≠ [] ∧ (ascii tag).headD 0 ≠ 34 ∧
        (ascii tag).all (fun b => 33 ≤ b && b ≤ 126) = true := by
    simp [ascii]
  intro tag htag
  obtain ⟨hne, hquote, hascii⟩ := hall tag htag
  exact word_of_ascii h hne hquote hascii

/-- The line of a section is read as its kind. -/
theorem read_section {lib : TagLib} (hlib : lib ∈ [bodyLib, unigramLib, bigramLib]) {line : Int × Bytes}
    (hline : line ∈ [(gram1Line, ascii "\\1-gram"), (gram2Line, ascii "\\2-gram"), (endLineType, ascii "\\end")])
    (lineType : Int) : lib.read glib line.2 lineType = .ok (true, ⟨line.1, [], fun _ => none⟩) := by
  have hword : Word glib line.2 := by
    simp only [mem_cons, not_mem_nil, or_false] at hline
    rcases hline with rfl | rfl | rfl
    · exact word_tag h _ (by decide)
    · exact word_tag h _ (by decide)
    · exact word_tag h _ (by decide)
  exact read_words (splitFrom_last h hword) (find_sectionEntry lib hlib line hline) (Nat.zero_le _) rfl
    (by simp [sectionEntry]) lineType

/-- A line of values and tags is read by its registration. -/
theorem read_item {lib : TagLib} {entry : TagEntry} {values : List Bytes} {pairs : List (Bytes × Bytes)}
    (hfind : (lib.top.find? fun entry => entry.lineTag == ascii "\\item") = some entry)
    (hwords : ∀ word ∈ values ++ pairs.flatMap fun pair => [pair.1, pair.2], Word glib word)
    (hvalues : values.length = entry.numOfValues) (htags : pairs.map Prod.fst = entry.requiredTags)
    (hnodup : entry.requiredTags.Nodup) (hignored : entry.ignoredTags = []) (lineType : Int) :
    ∃ required, lib.read glib (itemLine (values ++ pairs.flatMap fun pair => [pair.1, pair.2])) lineType =
        .ok (true, ⟨entry.lineType, values, required⟩) ∧ ∀ {key value}, (key, value) ∈ pairs →
          required key = some value := by
  have hsplit := @splitFrom_joinWords glib h
    (ascii "\\item" :: (values ++ pairs.flatMap fun pair => [pair.1, pair.2])) (cons_ne_nil _ _) (by
      intro word hword
      rcases mem_cons.mp hword with rfl | hword
      · exact word_tag h _ (by decide)
      · exact hwords word hword)
  obtain ⟨required, hread, hpairs, _⟩ := readTags_pairs entry pairs (fun _ => none) (fun pair hpair => by
    rw [hignored, ← htags]
    exact ⟨rfl, contains_iff_mem.mpr (mem_map_of_mem hpair)⟩) (by rw [htags]; exact hnodup)
  refine ⟨required, ?_, hpairs _⟩
  have hline := read_words hsplit hfind (by rw [length_append]; omega)
    (by rw [← hvalues, drop_left]; exact hread) (fun tag htag => by
      rw [← htags] at htag
      obtain ⟨pair, hpair, rfl⟩ := mem_map.mp htag
      rw [hpairs pair hpair]
      rfl) lineType
  rw [← hvalues, take_left] at hline
  exact hline

theorem no_control_itemLine {words : List Bytes} (hwords : ∀ word ∈ words, Word glib word) :
    ∀ b ∈ itemLine words, 32 ≤ b := by
  refine no_control_joinWords fun word hword => ?_
  rcases mem_cons.mp hword with rfl | hword
  · exact (word_tag h _ (by decide)).no_control h
  · exact (hwords word hword).no_control h

end

variable {token : BitVec 32}

theorem validate_textOf (h : HasText glib phrases token) :
    phrases.validateTokenWithString token (textOf phrases token) = true := by
  obtain ⟨phrase, hphrase⟩ := Option.isSome_iff_exists.mp h.1
  unfold PhraseIndex.validateTokenWithString textOf
  rw [hphrase]
  exact beq_self_eq_true _

/-- The tags of a header's line with their numbers. -/
def headerPairs (header : ArrayHeader) : List (Bytes × Bytes) :=
  [(ascii "count", decimal header.wc.toInt), (ascii "freq", decimal header.freq.toInt)]

/-- The tags of an item's line with their numbers. -/
def itemPairs (item : ArrayItem) : List (Bytes × Bytes) :=
  [(ascii "count", decimal item.wc.toInt), (ascii "T", decimal item.wc.toInt),
    (ascii "N_n_0", decimal item.nn0.toInt),
    (ascii "n_1", decimal item.n1.toInt), (ascii "Mr", decimal item.mr.toInt)]

theorem word_headerWords (h : glib.Documented) (htext : HasText glib phrases token)
    (header : ArrayHeader) : ∀ word ∈ headerWords phrases token header, Word glib word := by
  intro word hword
  simp only [headerWords, mem_cons, not_mem_nil, or_false] at hword
  rcases hword with rfl | rfl | rfl | rfl | rfl | rfl
  · exact word_decimal h _
  · exact htext.2
  · exact word_tag h _ (by decide)
  · exact word_decimal h _
  · exact word_tag h _ (by decide)
  · exact word_decimal h _

theorem word_itemWords (h : glib.Documented) {token1 token2 : BitVec 32} (htext1 : HasText glib phrases token1)
    (htext2 : HasText glib phrases token2) (item : ArrayItem) :
    ∀ word ∈ itemWords phrases token1 token2 item, Word glib word := by
  have hnumber : ∀ n : Int, Word glib (decimal n) := fun n => word_decimal h n
  intro word hword
  simp only [itemWords, mem_cons, not_mem_nil, or_false] at hword
  rcases hword with rfl | rfl | rfl | rfl | rfl | rfl | rfl | rfl | rfl | rfl | rfl | rfl | rfl | rfl
  · exact hnumber _
  · exact htext1.2
  · exact hnumber _
  · exact htext2.2
  · exact word_tag h _ (by decide)
  · exact hnumber _
  · exact word_tag h _ (by decide)
  · exact hnumber _
  · exact word_tag h _ (by decide)
  · exact hnumber _
  · exact word_tag h _ (by decide)
  · exact hnumber _
  · exact word_tag h _ (by decide)
  · exact hnumber _

/-- The tags of a headline with what is behind them. -/
def magicPairs (header : MagicHeader) : List (Bytes × Bytes) :=
  [(ascii "model", ascii "k mixture model"), (ascii "count", decimal header.wc.toInt),
    (ascii "N", decimal header.n.toInt),
    (ascii "total_freq", decimal header.totalFreq.toInt)]

section

variable (h : glib.Documented)
include h

section

variable (header : MagicHeader)
include header

theorem word_magicWords : ∀ word ∈ magicWords header, Word glib word := by
  intro word hword
  simp only [magicWords, mem_cons, not_mem_nil, or_false] at hword
  rcases hword with rfl | rfl | rfl | rfl | rfl | rfl
  · exact word_tag h _ (by decide)
  · exact word_decimal h _
  · exact word_tag h _ (by decide)
  · exact word_decimal h _
  · exact word_tag h _ (by decide)
  · exact word_decimal h _

theorem no_control_headline : ∀ b ∈ headline header, 32 ≤ b := by
  have hmodel : ∀ b ∈ ascii "k mixture model", 32 ≤ b := by simp [ascii]
  have hwords := no_control_joinWords fun word hword => (word_magicWords h header word hword).no_control h
  intro b hb
  unfold headline at hb
  simp only [mem_append, mem_cons] at hb
  rcases hb with hb | rfl | hb | rfl | rfl | hb | rfl | rfl | hb
  · exact (word_tag h "\\data" (by decide)).no_control h b hb
  · decide
  · exact (word_tag h "model" (by decide)).no_control h b hb
  · decide
  · decide
  · exact hmodel b hb
  · decide
  · decide
  · exact hwords b hb

/-- A headline's words, its model's name one of them. -/
theorem splitLine_headline :
    splitLine glib (headline header) =
      .ok (some (ascii "\\data" :: (magicPairs header).flatMap fun pair => [pair.1, pair.2])) := by
  have hmodel : ∀ b ∈ ascii "k mixture model", 32 ≤ b ∧ b ≤ 126 ∧ b ≠ 34 ∧ b ≠ 92 := by simp [ascii]
  have hwords := @splitFrom_joinWords glib h (magicWords header) (cons_ne_nil _ _) (word_magicWords h header)
  unfold splitLine headline
  rw [append_assoc, cons_append, splitFrom_word h (word_tag h "\\data" (by decide)), append_assoc,
    cons_append, splitFrom_word h (word_tag h "model" (by decide)), cons_append, append_assoc,
    cons_append, cons_append, splitFrom_quoted h hmodel, hwords]
  rfl

theorem read_headline (lineType : Int) :
    ∃ required, headLib.read glib (headline header) lineType = .ok (true, ⟨beginLine, [], required⟩) ∧
      ∀ {key value}, (key, value) ∈ magicPairs header → required key = some value := by
  have htags : (magicPairs header).map Prod.fst = headEntry.requiredTags := rfl
  obtain ⟨required, hread, hpairs, _⟩ := readTags_pairs headEntry (magicPairs header) (fun _ => none)
    (fun pair hpair => by
      rw [← htags]
      exact ⟨rfl, contains_iff_mem.mpr (mem_map_of_mem hpair)⟩) (by rw [htags]; simp [headEntry, ascii])
  refine ⟨required, ?_, hpairs _⟩
  exact read_words (splitLine_headline h header) find_headEntry (Nat.zero_le _) hread (fun tag htag => by
    rw [← htags] at htag
    obtain ⟨pair, hpair, rfl⟩ := mem_map.mp htag
    rw [hpairs pair hpair]
    rfl) lineType

end

/-- No line of a text has a control character. -/
theorem no_control_section {line : Int × Bytes}
    (hline : line ∈ [(gram1Line, ascii "\\1-gram"), (gram2Line, ascii "\\2-gram"), (endLineType, ascii "\\end")]) :
    ∀ b ∈ line.2, 32 ≤ b := by
  simp only [mem_cons, not_mem_nil, or_false] at hline
  rcases hline with rfl | rfl | rfl
  · exact (word_tag h "\\1-gram" (by decide)).no_control h
  · exact (word_tag h "\\2-gram" (by decide)).no_control h
  · exact (word_tag h "\\end" (by decide)).no_control h

variable {rows : List (BitVec 32)}

theorem no_control_headerLines (container : Container)
    (htexts : ∀ token ∈ rows, HasText glib phrases token) :
    ∀ line ∈ headerLines phrases container rows, ∀ b ∈ line, 32 ≤ b := by
  intro line hline
  obtain ⟨token, htoken, rfl⟩ := mem_map.mp hline
  exact no_control_itemLine h (word_headerWords h (htexts token htoken) _)

theorem no_control_entryLines {entries : List (BitVec 32 × BitVec 32 × ArrayItem)}
    (htexts : ∀ entry ∈ entries, HasText glib phrases entry.1 ∧ HasText glib phrases entry.2.1) :
    ∀ line ∈ entryLines phrases entries, ∀ b ∈ line, 32 ≤ b := by
  intro line hline
  obtain ⟨entry, hentry, rfl⟩ := mem_map.mp hline
  obtain ⟨htext1, htext2⟩ := htexts entry hentry
  exact no_control_itemLine h (word_itemWords h htext1 htext2 _)

theorem no_control_bodyLines (container : Container)
    (htexts : ∀ token ∈ rows, HasText glib phrases token)
    (htexts' : ∀ entry ∈ rowEntries container rows, HasText glib phrases entry.1 ∧ HasText glib phrases entry.2.1) :
    ∀ line ∈ bodyLines phrases container rows, ∀ b ∈ line, 32 ≤ b := by
  intro line hline
  unfold bodyLines at hline
  rw [itemLines_eq] at hline
  simp only [cons_append, mem_cons, mem_append, not_mem_nil, or_false] at hline
  rcases hline with rfl | (hline | rfl | hline) | rfl
  · exact (word_tag h "\\1-gram" (by decide)).no_control h
  · exact no_control_headerLines h container htexts line hline
  · exact (word_tag h "\\2-gram" (by decide)).no_control h
  · exact no_control_entryLines h htexts' line hline
  · exact (word_tag h "\\end" (by decide)).no_control h

end

namespace Converter

/-- A line that its state knows is read. -/
theorem checkRead_eq {bigram : Container} {lib : TagLib} {line : Bytes} {lines : List Bytes} {before after : TagLine}
    (hline : ∀ b ∈ line, 32 ≤ b) (hread : lib.read glib line before.lineType = .ok (true, after)) :
    checkRead glib ⟨bigram, readerOf (line :: lines), lib, before⟩ =
      .ok ⟨bigram, readerOf (line :: lines), lib, after⟩ := by
  unfold checkRead read
  dsimp only
  rw [cStr_readerOf hline, hread]
  rfl

variable {lines : List Bytes}

theorem myGetline_rest {bigram : Container} {lib : TagLib} {tagLine : TagLine} {line : Bytes}
    (hne : lines ≠ []) (hlines : ∀ next ∈ lines, ∀ b ∈ next, 32 ≤ b) :
    myGetline ⟨bigram, readerOf (line :: lines), lib, tagLine⟩ = (true, ⟨bigram, readerOf lines, lib, tagLine⟩) := by
  unfold myGetline
  dsimp only
  rw [getline_rest hne hlines]

/-- The headline reads back. -/
theorem parseHeadline_eq (h : glib.Documented) (header : MagicHeader) (bigram : Container) (lines : List Bytes)
    (before : TagLine) :
    ∃ after, parseHeadline glib ⟨bigram, readerOf (headline header :: lines), init, before⟩ =
      .ok (true, ⟨bigram.setMagicHeader header, readerOf (headline header :: lines), headLib, after⟩) := by
  obtain ⟨required, hread, hpairs⟩ := read_headline h header before.lineType
  have hmodel : required (ascii "model") = some (ascii "k mixture model") := hpairs (by simp [magicPairs])
  have hcount : required (ascii "count") = some (decimal header.wc.toInt) := hpairs (by simp [magicPairs])
  have hn : required (ascii "N") = some (decimal header.n.toInt) := hpairs (by simp [magicPairs])
  have htotal : required (ascii "total_freq") = some (decimal header.totalFreq.toInt) := hpairs (by simp [magicPairs])
  refine ⟨⟨beginLine, [], required⟩, ?_⟩
  unfold parseHeadline read
  dsimp only
  rw [cStr_readerOf (no_control_headline h header), ← headLib, hread]
  unfold number tagValue
  dsimp only
  simp only [hmodel, hcount, hn, htotal, Option.getD_some, atol_decimal, bne_self_eq_false, Bool.not_true,
    Bool.or_self, Bool.false_eq_true, ↓reduceIte]

variable {before read_ next : Converter}

variable {after : Converter}

/-- A round of the headers that reads a header with a line behind it. -/
theorem unigramLoop_next (hcheck : before.checkRead glib = .ok read_)
    (hitem : read_.line.lineType = gram1ItemLine) (hheader : read_.readHeader phrases = .ok next)
    (hgetline : next.myGetline = (true, after)) (fuel : Nat) :
    unigramLoop glib phrases (fuel + 1) before = unigramLoop glib phrases fuel after := by
  rw [unigramLoop, hcheck]
  simp only [bind, Except.bind]
  rw [if_pos hitem, hheader]
  dsimp only
  rw [hgetline]
  rfl

/-- A round of the headers that meets the line of a section. -/
theorem unigramLoop_section (hcheck : before.checkRead glib = .ok read_)
    (hitem : read_.line.lineType ≠ gram1ItemLine) (hsection : isSectionLine read_.line.lineType = true) (fuel : Nat) :
    unigramLoop glib phrases (fuel + 1) before = .ok read_ := by
  rw [unigramLoop, hcheck]
  simp only [bind, Except.bind]
  rw [if_neg hitem, if_pos hsection]

variable {pending : Pending}

theorem bigramLoop_next {pending' : Pending}
    (hcheck : before.checkRead glib = .ok read_) (hitem : read_.line.lineType = gram2ItemLine)
    (hread : read_.readItem phrases pending = .ok (next, pending')) (hgetline : next.myGetline = (true, after))
    (fuel : Nat) :
    bigramLoop glib phrases (fuel + 1) before pending = bigramLoop glib phrases fuel after pending' := by
  rw [bigramLoop, hcheck]
  simp only [bind, Except.bind]
  rw [if_pos hitem, hread]
  dsimp only
  rw [hgetline]
  rfl

theorem bigramLoop_section (hcheck : before.checkRead glib = .ok read_)
    (hitem : read_.line.lineType ≠ gram2ItemLine) (hsection : isSectionLine read_.line.lineType = true) (fuel : Nat) :
    bigramLoop glib phrases (fuel + 1) before pending = .ok (read_, pending) := by
  rw [bigramLoop, hcheck]
  simp only [bind, Except.bind]
  rw [if_neg hitem, if_pos hsection]

section

variable (h : glib.Documented)
include h

/-- The round of a header's line. -/
theorem unigramLoop_header {token : BitVec 32} (htext : HasText glib phrases token) (header : ArrayHeader)
    (bigram : Container) (hne : lines ≠ []) (hlines : ∀ next ∈ lines, ∀ b ∈ next, 32 ≤ b) (before : TagLine)
    (fuel : Nat) :
    ∃ after, unigramLoop glib phrases (fuel + 1)
        ⟨bigram, readerOf (itemLine (headerWords phrases token header) :: lines), unigramLib, before⟩ =
      unigramLoop glib phrases fuel ⟨bigram.setArrayHeader token header, readerOf lines, unigramLib, after⟩ := by
  have hwords := word_headerWords h htext header
  obtain ⟨required, hread, hpairs⟩ := @read_item glib h unigramLib unigramEntry
    [decimal token.toInt, textOf phrases token] (headerPairs header) find_unigramEntry hwords rfl rfl
    (by simp [unigramEntry, ascii]) rfl before.lineType
  have hcheck := @checkRead_eq glib bigram unigramLib _ lines before _ (no_control_itemLine h hwords) hread
  have hcount : required (ascii "count") = some (decimal header.wc.toInt) := hpairs (by simp [headerPairs])
  have hfreq : required (ascii "freq") = some (decimal header.freq.toInt) := hpairs (by simp [headerPairs])
  have hheader : ∀ reader, readHeader phrases ⟨bigram, reader, unigramLib,
      ⟨gram1ItemLine, [decimal token.toInt, textOf phrases token], required⟩⟩ =
      .ok ⟨bigram.setArrayHeader token header, reader, unigramLib,
        ⟨gram1ItemLine, [decimal token.toInt, textOf phrases token], required⟩⟩ := by
    intro reader
    unfold readHeader Converter.token Converter.value number tagValue
    dsimp only
    rw [getD_cons_zero, getD_cons_succ, getD_cons_zero, atoi_decimal, validate_textOf htext, hcount, hfreq,
      Option.getD_some, Option.getD_some, atol_decimal, atol_decimal]
    rfl
  exact ⟨_, unigramLoop_next hcheck rfl (hheader _) (myGetline_rest hne hlines) fuel⟩

/-- The round of an item's line. -/
theorem bigramLoop_item {token1 token2 : BitVec 32} (htext1 : HasText glib phrases token1)
    (htext2 : HasText glib phrases token2) (item : ArrayItem) (bigram : Container) (hne : lines ≠ [])
    (hlines : ∀ next ∈ lines, ∀ b ∈ next, 32 ≤ b) (before : TagLine) {state : Container × Pending}
    (hadd : addItem (bigram, pending) token1 token2 item = .ok state) (fuel : Nat) :
    ∃ after, bigramLoop glib phrases (fuel + 1)
        ⟨bigram, readerOf (itemLine (itemWords phrases token1 token2 item) :: lines), bigramLib, before⟩ pending =
      bigramLoop glib phrases fuel ⟨state.1, readerOf lines, bigramLib, after⟩ state.2 := by
  have hwords := word_itemWords h htext1 htext2 item
  obtain ⟨required, hread, hpairs⟩ := @read_item glib h bigramLib bigramEntry
    [decimal token1.toInt, textOf phrases token1, decimal token2.toInt, textOf phrases token2] (itemPairs item)
    find_bigramEntry hwords rfl rfl (by simp [bigramEntry, ascii]) rfl before.lineType
  have hcheck := @checkRead_eq glib bigram bigramLib _ lines before _ (no_control_itemLine h hwords) hread
  have hcount : required (ascii "count") = some (decimal item.wc.toInt) := hpairs (by simp [itemPairs])
  have htotal : required (ascii "T") = some (decimal item.wc.toInt) := hpairs (by simp [itemPairs])
  have hnn0 : required (ascii "N_n_0") = some (decimal item.nn0.toInt) := hpairs (by simp [itemPairs])
  have hn1 : required (ascii "n_1") = some (decimal item.n1.toInt) := hpairs (by simp [itemPairs])
  have hmr : required (ascii "Mr") = some (decimal item.mr.toInt) := hpairs (by simp [itemPairs])
  have hitem : ∀ reader, readItem phrases ⟨bigram, reader, bigramLib,
      ⟨gram2ItemLine, [decimal token1.toInt, textOf phrases token1, decimal token2.toInt, textOf phrases token2],
        required⟩⟩ pending = .ok (⟨state.1, reader, bigramLib,
      ⟨gram2ItemLine, [decimal token1.toInt, textOf phrases token1, decimal token2.toInt, textOf phrases token2],
        required⟩⟩, state.2) := by
    intro reader
    unfold readItem token value number tagValue
    dsimp only
    simp only [getD_cons_zero, getD_cons_succ]
    rw [atoi_decimal, atoi_decimal, validate_textOf htext1, validate_textOf htext2, hcount, htotal, hnn0, hn1, hmr]
    simp only [Option.getD_some, atol_decimal, Bool.not_true, Bool.false_eq_true, ↓reduceIte, ne_eq,
      not_true_eq_false]
    rw [hadd]
    rfl
  exact ⟨_, bigramLoop_next hcheck rfl (hitem _) (myGetline_rest hne hlines) fuel⟩

/-- The rounds of the headers' lines, up to the line of the items. -/
theorem unigramLoop_rows (container : Container) {rest : List Bytes} (hrest : ∀ next ∈ rest, ∀ b ∈ next, 32 ≤ b) :
    ∀ (rows : List (BitVec 32)) (bigram : Container) (before : TagLine)
    {fuel : Nat}, rows.length < fuel → (∀ token ∈ rows, HasText glib phrases token) →
    unigramLoop glib phrases fuel
        ⟨bigram, readerOf (headerLines phrases container rows ++ ascii "\\2-gram" :: rest), unigramLib, before⟩ =
      .ok ⟨rows.foldl (fun bigram token => bigram.setArrayHeader token (container.grams token).header) bigram,
        readerOf (ascii "\\2-gram" :: rest), unigramLib, ⟨gram2Line, [], fun _ => none⟩⟩
  | _, _, _, 0, hfuel, _ => absurd hfuel (Nat.not_lt_zero _)
  | [], bigram, before, fuel + 1, _, _ => by
    have hread := @read_section glib h unigramLib (by simp) (gram2Line, ascii "\\2-gram") (by simp) before.lineType
    have hcheck := @checkRead_eq glib bigram unigramLib (ascii "\\2-gram") rest before _
      ((word_tag h "\\2-gram" (by decide)).no_control h) hread
    exact unigramLoop_section hcheck (show gram2Line ≠ gram1ItemLine by decide) rfl fuel
  | token :: rows, bigram, before, fuel + 1, hfuel, htexts => by
    have hlines : ∀ next ∈ headerLines phrases container rows ++ ascii "\\2-gram" :: rest, ∀ b ∈ next, 32 ≤ b := by
      intro next hnext
      rcases mem_append.mp hnext with hnext | hnext
      · exact no_control_headerLines h container (fun other hother =>
          htexts other (mem_cons_of_mem _ hother)) next hnext
      · rcases mem_cons.mp hnext with rfl | hnext
        · exact (word_tag h "\\2-gram" (by decide)).no_control h
        · exact hrest next hnext
    obtain ⟨after, hround⟩ := unigramLoop_header h (htexts token mem_cons_self) (container.grams token).header bigram
      (by simp) hlines before fuel
    have hnext := unigramLoop_rows container hrest rows (bigram.setArrayHeader token
      (container.grams token).header) after
      (Nat.lt_of_succ_lt_succ hfuel) fun other hother => htexts other (mem_cons_of_mem _ hother)
    exact hround.trans hnext

/-- The rounds of the items' lines, up to the end. -/
theorem bigramLoop_entries : ∀ (entries : List (BitVec 32 × BitVec 32 × ArrayItem))
    {state final : Container × Pending} (before : TagLine) {fuel : Nat}, entries.length < fuel →
    (∀ entry ∈ entries, HasText glib phrases entry.1 ∧ HasText glib phrases entry.2.1) →
    entries.foldlM (fun state entry => addItem state entry.1 entry.2.1 entry.2.2) state = .ok final →
    bigramLoop glib phrases fuel
        ⟨state.1, readerOf (entryLines phrases entries ++ [ascii "\\end"]), bigramLib, before⟩ state.2 =
      .ok (⟨final.1, readerOf [ascii "\\end"], bigramLib, ⟨endLineType, [], fun _ => none⟩⟩, final.2)
  | _, _, _, _, 0, hfuel, _, _ => absurd hfuel (Nat.not_lt_zero _)
  | [], state, final, before, fuel + 1, _, _, hfold => by
    obtain rfl := Except.ok.inj hfold
    have hread := @read_section glib h bigramLib (by simp) (endLineType, ascii "\\end") (by simp) before.lineType
    have hcheck := @checkRead_eq glib state.1 bigramLib (ascii "\\end") [] before _
      ((word_tag h "\\end" (by decide)).no_control h) hread
    exact bigramLoop_section hcheck (show endLineType ≠ gram2ItemLine by decide) rfl fuel
  | entry :: entries, state, final, before, fuel + 1, hfuel, htexts, hfold => by
    rw [foldlM_cons] at hfold
    obtain ⟨next, hadd, hrest⟩ := Run.bind_eq_ok hfold
    have hlines : ∀ line ∈ entryLines phrases entries ++ [ascii "\\end"], ∀ b ∈ line, 32 ≤ b := by
      intro line hline
      rcases mem_append.mp hline with hline | hline
      · exact no_control_entryLines h (fun other hother => htexts other (mem_cons_of_mem _ hother)) line hline
      · rw [mem_singleton.mp hline]
        exact (word_tag h "\\end" (by decide)).no_control h
    obtain ⟨htext1, htext2⟩ := htexts entry mem_cons_self
    obtain ⟨after, hround⟩ := bigramLoop_item h htext1 htext2 entry.2.2 state.1 (by simp) hlines before hadd fuel
    have hnext := bigramLoop_entries entries after (Nat.lt_of_succ_lt_succ hfuel)
      (fun other hother => htexts other (mem_cons_of_mem _ hother)) hrest
    exact hround.trans hnext

variable {fuel : Nat}

/-- The section of the headers. -/
theorem parseUnigram_rows (container : Container) {rest : List Bytes} (hrest : ∀ next ∈ rest, ∀ b ∈ next, 32 ≤ b)
    {rows : List (BitVec 32)} (bigram : Container) (before : TagLine) (hfuel : rows.length < fuel)
    (htexts : ∀ token ∈ rows, HasText glib phrases token) :
    parseUnigram glib phrases fuel
        ⟨bigram, readerOf (headerLines phrases container rows ++ ascii "\\2-gram" :: rest), bodyLib, before⟩ =
      .ok ⟨rows.foldl (fun bigram token => bigram.setArrayHeader token (container.grams token).header) bigram,
        readerOf (ascii "\\2-gram" :: rest), bodyLib, ⟨gram2Line, [], fun _ => none⟩⟩ := by
  have hloop := unigramLoop_rows h container hrest rows bigram before hfuel htexts
  unfold parseUnigram
  dsimp only
  rw [← unigramLib, hloop]
  simp only [bind, Except.bind]
  rw [popState_unigramLib]

/-- The section of the items. -/
theorem parseBigram_entries {entries : List (BitVec 32 × BitVec 32 × ArrayItem)} (bigram : Container)
    {final : Container × Pending} (before : TagLine) (hfuel : entries.length < fuel)
    (htexts : ∀ entry ∈ entries, HasText glib phrases entry.1 ∧ HasText glib phrases entry.2.1)
    (hfold : entries.foldlM (fun state entry => addItem state entry.1 entry.2.1 entry.2.2) (bigram,
      ⟨nullToken, none⟩) = .ok final) :
    parseBigram glib phrases fuel
        ⟨bigram, readerOf (entryLines phrases entries ++ [ascii "\\end"]), bodyLib, before⟩ =
      .ok ⟨flush final.1 final.2, readerOf [ascii "\\end"], bodyLib, ⟨endLineType, [], fun _ => none⟩⟩ := by
  have hloop := bigramLoop_entries h entries before hfuel htexts hfold
  unfold parseBigram
  dsimp only
  rw [← bigramLib, hloop]
  simp only [bind, Except.bind]
  rw [popState_bigramLib]

end

section

variable (hcheck : before.checkRead glib = .ok read_)
include hcheck

/-- A round that ends at the last line. -/
theorem bodyLoop_end
    (htype : read_.line.lineType = endLineType) (lines fuel : Nat) :
    bodyLoop glib phrases lines (fuel + 1) before = .ok read_ := by
  rw [bodyLoop, hcheck]
  simp only [bind, Except.bind]
  rw [if_pos htype]

theorem bodyLoop_gram1 {lines : Nat}
    (htype : read_.line.lineType = gram1Line)
    (hparse : parseUnigram glib phrases lines read_.myGetline.2 = .ok next) (fuel : Nat) :
    bodyLoop glib phrases lines (fuel + 1) before = bodyLoop glib phrases lines fuel next := by
  rw [bodyLoop, hcheck]
  simp only [bind, Except.bind]
  rw [htype, if_neg (by decide), if_pos rfl, hparse]

theorem bodyLoop_gram2 {lines : Nat}
    (htype : read_.line.lineType = gram2Line)
    (hparse : parseBigram glib phrases lines read_.myGetline.2 = .ok next) (fuel : Nat) :
    bodyLoop glib phrases lines (fuel + 1) before = bodyLoop glib phrases lines fuel next := by
  rw [bodyLoop, hcheck]
  simp only [bind, Except.bind]
  rw [htype, if_neg (by decide), if_neg (by decide), if_pos rfl, hparse]

end

/-- A line of the sections is read in the state of the body. -/
theorem checkRead_section (h : glib.Documented) {line : Int × Bytes}
    (hline : line ∈ [(gram1Line, ascii "\\1-gram"), (gram2Line, ascii "\\2-gram"), (endLineType, ascii "\\end")])
    (bigram : Container) (lines : List Bytes) (before : TagLine) :
    checkRead glib ⟨bigram, readerOf (line.2 :: lines), bodyLib, before⟩ =
      .ok ⟨bigram, readerOf (line.2 :: lines), bodyLib, ⟨line.1, [], fun _ => none⟩⟩ := by
  exact checkRead_eq (no_control_section h hline) (read_section h (by simp) hline before.lineType)

/-- The body of a text, line by line. -/
theorem parseBody_text (h : glib.Documented) (container : Container) {rows : List (BitVec 32)} (bigram : Container)
    (before : TagLine) {final : Container × Pending} {lines : Nat}
    (hlines : 3 ≤ lines) (hrows : rows.length < lines) (hentries : (rowEntries container rows).length < lines)
    (htexts : ∀ token ∈ rows, HasText glib phrases token)
    (htexts' : ∀ entry ∈ rowEntries container rows, HasText glib phrases entry.1 ∧ HasText glib phrases entry.2.1)
    (hfold : (rowEntries container rows).foldlM (fun state entry => addItem state entry.1 entry.2.1 entry.2.2)
      (rows.foldl (fun bigram token => bigram.setArrayHeader token (container.grams token).header) bigram,
        ⟨nullToken, none⟩) = .ok final) :
    (parseBody glib phrases lines
      ⟨bigram, readerOf (bodyLines phrases container rows), headLib, before⟩).map (·.bigram) =
      .ok (flush final.1 final.2) := by
  obtain ⟨rest, rfl⟩ : ∃ rest, lines = rest + 3 := ⟨lines - 3, by omega⟩
  have hall := no_control_bodyLines h container htexts htexts'
  have hbody : bodyLines phrases container rows = ascii "\\1-gram" :: (headerLines phrases container rows ++
      ascii "\\2-gram" :: (itemLines phrases container rows ++ [ascii "\\end"])) := by
    unfold bodyLines
    rw [cons_append, cons_append, append_assoc, cons_append]
  have hheaders : ∀ line ∈ headerLines phrases container rows ++
      ascii "\\2-gram" :: (itemLines phrases container rows ++ [ascii "\\end"]), ∀ b ∈ line, 32 ≤ b := by
    intro line hline
    refine hall line ?_
    rw [hbody]
    exact mem_cons_of_mem _ hline
  have hitems : ∀ line ∈ itemLines phrases container rows ++ [ascii "\\end"], ∀ b ∈ line, 32 ≤ b :=
    fun line hline => hheaders line (mem_append_right _ (mem_cons_of_mem _ hline))
  have hbodyLib : ((headLib.pushState.addTag endLineType (ascii "\\end") 0 [] []).addTag
    gram1Line (ascii "\\1-gram") 0 [] []).addTag gram2Line (ascii "\\2-gram") 0 [] [] = bodyLib := rfl
  have hone := checkRead_section h (show (gram1Line, ascii "\\1-gram") ∈ _ by simp) bigram
    (headerLines phrases container rows ++ ascii "\\2-gram" :: (itemLines phrases container rows ++
      [ascii "\\end"])) before
  have hunigram := parseUnigram_rows h container hitems bigram ⟨gram1Line, [], fun _ => none⟩
    hrows htexts
  have htwo := checkRead_section h (show (gram2Line, ascii "\\2-gram") ∈ _ by simp)
    (rows.foldl (fun bigram token => bigram.setArrayHeader token (container.grams token).header) bigram)
    (itemLines phrases container rows ++ [ascii "\\end"]) ⟨gram2Line, [], fun _ => none⟩
  have hbigram := parseBigram_entries h _ ⟨gram2Line, [], fun _ => none⟩
    hentries htexts' hfold
  rw [← itemLines_eq] at hbigram
  have hlast := checkRead_section h (show (endLineType, ascii "\\end") ∈ _ by simp) (flush final.1 final.2) []
    ⟨endLineType, [], fun _ => none⟩
  have hloop : bodyLoop glib phrases (rest + 3) (rest + 3) ⟨bigram, readerOf (ascii "\\1-gram" ::
      (headerLines phrases container rows ++ ascii "\\2-gram" :: (itemLines phrases container rows ++
        [ascii "\\end"]))),
      bodyLib, before⟩ = .ok ⟨flush final.1 final.2, readerOf [ascii "\\end"], bodyLib,
        ⟨endLineType, [], fun _ => none⟩⟩ := by
    rw [bodyLoop_gram1 hone rfl (by rw [myGetline_rest (by simp) hheaders]; exact hunigram)]
    rw [bodyLoop_gram2 htwo rfl (by rw [myGetline_rest (by simp) hitems]; exact hbigram)]
    exact bodyLoop_end hlast rfl _ _
  unfold parseBody
  dsimp only
  rw [hbodyLib, hbody, hloop]
  rfl

end Converter

end Import

end Oxpinyin.Kmm
