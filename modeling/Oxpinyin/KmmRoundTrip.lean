import Oxpinyin.KmmReading

/-!
# A container and its text

The headers come first and make a bare gram for each token. The items come gram by gram, ascending,
so each is inserted behind the others (`addItem_row`), and the gram that is kept is stored with the
next token or at the end. A container whose tokens have texts of graph characters comes back from
its own text (`importText_exportText`).
-/

namespace Oxpinyin.Kmm

open Function List Option FiniteMap Tool Container

/-! ## The grams that are rebuilt -/

section Rebuild

open Converter

variable {source bigram : Container} {state : Container × Pending} {token : BitVec 32} {item : ArrayItem}
  {gram : KmmGram} {magic : MagicHeader}

/-- Containers with the same grams are equal. -/
theorem Container.ext_load {container other : Container} (hmagic : container.magic = other.magic)
    (hload : container.load = other.load) : container = other := by
  have hget : container.rows.get? = other.rows.get? := hload
  have hlists := container.rows.lists
  rw [hget] at hlists
  have hentries := hlists.unique other.rows.lists
  obtain ⟨magic, rows⟩ := container
  obtain ⟨magic', rows'⟩ := other
  obtain rfl : magic = magic' := hmagic
  exact congrArg (mk magic) (SortedMap.ext hentries)

/-- Every gram of a container lists its items ascending. -/
def Container.Ascending (container : Container) : Prop :=
  ∀ token gram, container.load token = some gram → gram.Ascending

/-- An item behind all others is appended. -/
theorem insertArrayItem_last (h : ∀ entry ∈ gram.items, entry.1 < token) (item : ArrayItem) :
    gram.insertArrayItem token item = some ⟨gram.header, gram.items ++ [(token, item)]⟩ := by
  have hbound : SingleGram.lowerBound gram.items token = gram.items.length := by
    have hpart := @Search.partitionPoint_append _ gram.items [] (fun entry => decide (entry.1 < token))
      (fun entry hentry => decide_eq_true (h entry hentry)) (by simp)
    rwa [append_nil] at hpart
  unfold SingleGram.insertArrayItem
  dsimp only
  rw [hbound, drop_length, take_length]
  rfl

/-- The items of the gram that is kept are inserted behind each other. -/
theorem addItem_row (token : BitVec 32) : ∀ (items : List (BitVec 32 × ArrayItem)) (gram : KmmGram),
    ((gram.items ++ items).Pairwise fun a b => a.1 < b.1) →
    items.foldlM (fun state entry => addItem state token entry.1 entry.2) (bigram, ⟨token, some gram⟩) =
      .ok (bigram, ⟨token, some ⟨gram.header, gram.items ++ items⟩⟩)
  | [], gram, _ => by
    rw [foldlM_nil, append_nil]
    rfl
  | entry :: items, gram, hascending => by
    have hbefore : ∀ other ∈ gram.items, other.1 < entry.1 := fun other hother =>
      (pairwise_append.mp hascending).2.2 other hother entry mem_cons_self
    have hadd : addItem (bigram, ⟨token, some gram⟩) token entry.1 entry.2 =
        .ok (bigram, ⟨token, some ⟨gram.header, gram.items ++ [entry]⟩⟩) := by
      unfold addItem
      dsimp only
      rw [if_neg (not_not.mpr rfl)]
      dsimp only
      rw [insertArrayItem_last hbefore entry.2]
    have hrest := addItem_row token items ⟨gram.header, gram.items ++ [entry]⟩ (by simpa using hascending)
    rw [foldlM_cons, hadd]
    rw [append_assoc, singleton_append] at hrest
    exact hrest

/-- The headers of tokens make a bare gram each. -/
theorem load_foldl_setArrayHeader (source : Container) : ∀ (rows : List (BitVec 32)) (bigram : Container),
    (∀ token gram, bigram.load token = some gram → gram.items = []) → ∀ token,
    (rows.foldl (fun bigram token => bigram.setArrayHeader token (source.grams token).header) bigram).load token =
      if token ∈ rows then some ⟨(source.grams token).header, []⟩ else bigram.load token
  | [], bigram, _, token => by
    rw [foldl_nil, if_neg not_mem_nil]
  | first :: rows, bigram, hbare, token => by
    have hnew : (bigram.setArrayHeader first (source.grams first).header).load =
        update bigram.load first (some ⟨(source.grams first).header, []⟩) := by
      unfold setArrayHeader
      rw [load_store]
      cases hload : bigram.load first with
      | none => rfl
      | some gram => rw [map_some, getD_some, hbare first gram hload]
    have hrest := load_foldl_setArrayHeader source rows (bigram.setArrayHeader first (source.grams first).header)
      (fun other gram hgram => by
        rw [hnew, update_apply] at hgram
        split_ifs at hgram
        · rw [← some.inj hgram]
        · exact hbare other gram hgram) token
    rw [foldl_cons, hrest, hnew, update_apply]
    by_cases hfirst : token = first
    · subst hfirst
      rw [if_pos rfl, if_pos mem_cons_self, ite_self]
    · simp [hfirst]

theorem magic_foldl_setArrayHeader (source : Container) : ∀ (rows : List (BitVec 32)) (bigram : Container),
    (rows.foldl (fun bigram token => bigram.setArrayHeader token (source.grams token).header) bigram).magic =
      bigram.magic
  | [], _ => rfl
  | _ :: rows, _ => magic_foldl_setArrayHeader source rows _

/-- The grams of the tokens that are done are the source's, and those of the others are bare. -/
structure Rebuilt (source : Container) (done : List (BitVec 32)) (state : Container × Pending) : Prop where
  magic : (flush state.1 state.2).magic = source.magic
  grams : ∀ token, (flush state.1 state.2).load token =
    if token ∈ done then source.load token else (source.load token).map fun gram => ⟨gram.header, []⟩
  pending : state.2.lastToken = nullToken ∨ state.2.lastToken ∈ done

/-- The items of a token that is not done rebuild its gram. -/
theorem Rebuilt.row {done : List (BitVec 32)} (h : Rebuilt source done state) (hnew : token ∉ done)
    (hnull : token ≠ nullToken) (hload : source.load token = some gram) (hascending : gram.Ascending) :
    ∃ final, gram.items.foldlM (fun state entry => addItem state token entry.1 entry.2) state = .ok final ∧
      Rebuilt source (done ++ [token]) final := by
  have hbare := h.grams token
  rw [if_neg hnew, hload, map_some] at hbare
  have hlast : state.2.lastToken ≠ token := by
    rintro rfl
    rcases h.pending with hpending | hpending
    · exact hnull hpending
    · exact hnew hpending
  cases hitems : gram.items with
  | nil =>
    refine ⟨state, rfl, h.magic, fun other => ?_, h.pending.imp_right fun hin => mem_append_left _ hin⟩
    rw [h.grams other]
    by_cases hother : other = token
    · subst hother
      rw [if_neg hnew, if_pos (by simp), hload, map_some, ← hitems]
    · simp [hother]
  | cons entry items =>
    -- the pending gram is stored, and the token's bare gram is kept in its place
    have hfirst : addItem state token entry.1 entry.2 =
        .ok (flush state.1 state.2, ⟨token, some ⟨gram.header, [entry]⟩⟩) := by
      unfold addItem
      dsimp only
      rw [if_pos hlast]
      dsimp only
      rw [hbare, getD_some, insertArrayItem_last (by simp) entry.2]
      rfl
    have hrow := @addItem_row (flush state.1 state.2) token items ⟨gram.header, [entry]⟩ (by
      unfold SingleGram.Ascending at hascending
      rw [hitems] at hascending
      exact hascending)
    refine ⟨(flush state.1 state.2, ⟨token, some ⟨gram.header, entry :: items⟩⟩), ?_, ?_⟩
    · rw [foldlM_cons, hfirst]
      exact hrow
    · have hflush : flush (flush state.1 state.2) ⟨token, some ⟨gram.header, entry :: items⟩⟩ =
          (flush state.1 state.2).store token gram := by
        unfold flush
        dsimp only
        rw [if_pos hnull, ← hitems]
      refine ⟨?_, fun other => ?_, Or.inr (by simp)⟩
      · dsimp only
        rw [hflush]
        exact h.magic
      · dsimp only
        rw [hflush, load_store, update_apply, h.grams other]
        by_cases hother : other = token
        · subst hother
          rw [if_pos rfl, if_pos (by simp), hload]
        · simp [hother]

/-- The rows are rebuilt one by one. -/
theorem Rebuilt.rows (hascending : source.Ascending) : ∀ (rows done : List (BitVec 32)) {state : Container × Pending},
    Rebuilt source done state → rows.Nodup →
    (∀ token ∈ rows, token ∉ done ∧ token ≠ nullToken ∧ (source.load token).isSome) →
    ∃ final, (rowEntries source rows).foldlM (fun state entry => addItem state entry.1 entry.2.1 entry.2.2) state =
        .ok final ∧ Rebuilt source (done ++ rows) final
  | [], done, state, h, _, _ => ⟨state, rfl, by rw [append_nil]; exact h⟩
  | token :: rows, done, state, h, hnodup, hrows => by
    obtain ⟨hfirst, hrest⟩ := nodup_cons.mp hnodup
    obtain ⟨hnew, hnull, hsome⟩ := hrows token mem_cons_self
    obtain ⟨gram, hload⟩ := isSome_iff_exists.mp hsome
    obtain ⟨next, hrow, hnext⟩ := h.row hnew hnull hload (hascending token gram hload)
    obtain ⟨final, hfold, hfinal⟩ := Rebuilt.rows hascending rows (done ++ [token]) hnext hrest fun other hother => by
      obtain ⟨hout, hothers⟩ := hrows other (mem_cons_of_mem _ hother)
      refine ⟨fun hin => ?_, hothers⟩
      rcases mem_append.mp hin with hin | hin
      · exact hout hin
      · exact hfirst (mem_singleton.mp hin ▸ hother)
    rw [append_assoc, singleton_append] at hfinal
    refine ⟨final, ?_, hfinal⟩
    have hgram : source.grams token = gram := by rw [Container.grams, hload]; rfl
    rw [rowEntries, flatMap_cons, ← rowEntries, List.foldlM_append, hgram, foldlM_map]
    rw [hrow]
    exact hfold

/-- The container behind the headers' section has the magic header and bare grams. -/
theorem rebuilt_headers (hmagic : source.magic = some magic) (order : Walk) :
    Rebuilt source [] ((source.getAllItems order).foldl
      (fun bigram token => bigram.setArrayHeader token (source.grams token).header)
      (empty.setMagicHeader magic), ⟨nullToken, none⟩) := by
  refine ⟨?_, fun token => ?_, Or.inl rfl⟩
  · exact (magic_foldl_setArrayHeader source _ _).trans hmagic.symm
  · have hload := load_foldl_setArrayHeader source (source.getAllItems order) (empty.setMagicHeader magic)
      (fun token gram hgram => by cases hgram) token
    refine hload.trans ?_
    rw [if_neg not_mem_nil]
    cases hsource : source.load token with
    | none =>
      rw [if_neg fun hin => by simpa [hsource] using (source.mem_getAllItems token order).mp hin]
      rfl
    | some gram =>
      rw [if_pos ((source.mem_getAllItems token order).mpr (by rw [hsource]; rfl)), grams, hsource]
      rfl

/-- The items of all grams rebuild the container. -/
theorem rebuilt_all (hmagic : source.magic = some magic)
    (hnull : ∀ token gram, source.load token = some gram → token ≠ nullToken) (hascending : source.Ascending)
    (order : Walk) :
    ∃ final, (rowEntries source (source.getAllItems order)).foldlM
        (fun state entry => addItem state entry.1 entry.2.1 entry.2.2) ((source.getAllItems order).foldl
          (fun bigram token => bigram.setArrayHeader token (source.grams token).header)
          (empty.setMagicHeader magic), ⟨nullToken, none⟩) = .ok final ∧
      flush final.1 final.2 = source := by
  obtain ⟨final, hfold, hfinal⟩ := Rebuilt.rows hascending (source.getAllItems order) []
    (rebuilt_headers hmagic order)
    (source.nodup_getAllItems order) fun token htoken => by
      have hsome := (source.mem_getAllItems token order).mp htoken
      obtain ⟨gram, hgram⟩ := isSome_iff_exists.mp hsome
      exact ⟨not_mem_nil, hnull token gram hgram, hsome⟩
  refine ⟨final, hfold, ext_load hfinal.magic (funext fun token => ?_)⟩
  rw [hfinal.grams token, nil_append]
  split_ifs with hin
  · rfl
  · rw [source.mem_getAllItems token order, not_isSome_iff_eq_none] at hin
    rw [hin]
    rfl

end Rebuild

/-! ## The round trip -/

/-- A text has a byte for each of its lines. -/
theorem length_lines_le (lines : List Bytes) : lines.length ≤ (lines.flatMap (· ++ [10])).length := by
  induction lines with
  | nil => exact Nat.le_refl 0
  | cons line lines ih =>
    rw [flatMap_cons, length_append, length_append, length_cons]
    exact Nat.le_trans (Nat.succ_le_succ ih) (by simp only [length_singleton]; omega)

/-- A container comes back from its own text, whatever order its grams are listed in. One without a magic
header has no text. -/
theorem importText_exportText {glib : Glib} {phrases : PhraseIndex} {container : Container} (h : glib.Documented)
    (htexts : Resolves glib phrases container)
    (hnull : ∀ token gram, container.load token = some gram → token ≠ nullToken)
    (hascending : container.Ascending) (order : Walk) :
    (container.magic = none ∧ exportText phrases container order = .error (.exit enodata)) ∨
      ∃ text, exportText phrases container order = .ok text ∧
        importText glib phrases .empty text = .ok container := by
  cases hmagic : container.magic with
  | none =>
    refine Or.inl ⟨rfl, ?_⟩
    unfold exportText printMagicHeader Container.getMagicHeader
    rw [hmagic]
    rfl
  | some magic =>
    have hlength := length_lines_le (textLines phrases container magic (container.getAllItems order))
    refine Or.inr ⟨_, exportText_eq hmagic htexts order, ?_⟩
    generalize hrows : container.getAllItems order = rows at hlength ⊢
    obtain ⟨final, hfold, hfinal⟩ := rebuilt_all hmagic hnull hascending order
    rw [hrows] at hfold
    have hrow : ∀ token ∈ rows, HasText glib phrases token ∧
        ∀ entry ∈ (container.grams token).items, HasText glib phrases entry.1 := by
      intro token htoken
      rw [← hrows] at htoken
      obtain ⟨gram, hgram⟩ := isSome_iff_exists.mp ((container.mem_getAllItems token order).mp htoken)
      rw [Container.grams, hgram]
      exact htexts token gram hgram
    have hentry : ∀ entry ∈ rowEntries container rows, HasText glib phrases entry.1 ∧
      HasText glib phrases entry.2.1 := by
      intro entry hentry
      obtain ⟨token, htoken, hin⟩ := mem_flatMap.mp hentry
      obtain ⟨item, hitem, rfl⟩ := List.mem_map.mp hin
      exact ⟨(hrow token htoken).1, (hrow token htoken).2 item hitem⟩
    -- the first line is read before the loop, and each round takes one of the others
    have hcount : (textLines phrases container magic rows).length = rows.length +
      (rowEntries container rows).length + 4 := by
      unfold textLines headerLines
      rw [itemLines_eq]
      simp only [entryLines, length_append, length_cons, length_map, length_nil]
      omega
    have hbody := no_control_bodyLines h container (fun token htoken => (hrow token htoken).1) hentry
    have hfirst : Converter.myGetline ⟨.empty, LineReader.fromBytes
        ((textLines phrases container magic rows).flatMap (· ++ [10])), TagLib.init, ⟨0, [], fun _ => none⟩⟩ =
        (true, ⟨.empty, readerOf (textLines phrases container magic rows), TagLib.init, ⟨0, [], fun _ => none⟩⟩) := by
      unfold Converter.myGetline
      dsimp only
      rw [textLines_eq, getline_fromBytes (no_control_headline h magic)]
    obtain ⟨after, hhead⟩ := Converter.parseHeadline_eq h magic .empty (bodyLines phrases container rows)
      ⟨0, [], fun _ => none⟩
    have hparse := Converter.parseBody_text h container (Container.empty.setMagicHeader magic) after
      (show 3 ≤ ((textLines phrases container magic rows).flatMap (· ++ [10])).length + 1 by omega)
      (by omega) (by omega) (fun token htoken => (hrow token htoken).1) hentry hfold
    unfold importText
    dsimp only
    rw [hfirst, textLines_eq]
    dsimp only
    rw [hhead]
    dsimp only
    rw [Converter.myGetline_rest (by simp [bodyLines]) hbody, ← textLines_eq]
    rw [hfinal] at hparse
    exact hparse

/-- The library over UTF-8, its graph characters the printable ASCII and the ideographs. -/
def utf8Glib : Glib where
  getChar bytes := ((bytes.toByteArray.utf8DecodeChar? 0).map Char.toNat).getD 0
  isSpace n := n == 32 || (9 ≤ n && n ≤ 13)
  isGraph n := (33 ≤ n && n ≤ 126) || (0x4E00 ≤ n && n ≤ 0x9FFF)

theorem utf8Glib_documented : utf8Glib.Documented where
  getChar_encode c rest := by
    unfold utf8Glib
    dsimp only
    rw [toByteArray_append, ByteArray.utf8DecodeChar?_utf8EncodeChar_append]
    rfl
  isSpace_blank := rfl
  isGraph_ascii n hlow hhigh := by simp [utf8Glib, hlow, hhigh]
  isGraph_control n hle := by
    simp only [utf8Glib, Bool.or_eq_false_iff, Bool.and_eq_false_iff, decide_eq_false_iff_not]
    omega
  isSpace_ascii n hlow hhigh := by
    simp only [utf8Glib, Bool.or_eq_false_iff, Bool.and_eq_false_iff, decide_eq_false_iff_not, beq_eq_false_iff_ne]
    omega

/-- Two words of ideographs behind the start of a sentence. -/
def nihaoPhrases : PhraseIndex where
  tokenToString token :=
    if token = sentenceStart then some (ascii "<start>")
    else if token = 16777217 then some (encodeChars ['你', '好'])
    else none

def nihaoContainer : Container :=
  ((Container.empty.setMagicHeader ⟨2, 4294967295, 2⟩).store sentenceStart
    ⟨⟨2147483648, 1⟩, [(16777217, ⟨1, 1, 1, 4294967295⟩)]⟩).store 16777217 ⟨⟨0, 3⟩, []⟩

theorem hasText_nihao : HasText utf8Glib nihaoPhrases sentenceStart ∧ HasText utf8Glib nihaoPhrases 16777217 := by
  have hstart : textOf nihaoPhrases sentenceStart = ascii "<start>" := rfl
  have hnihao : textOf nihaoPhrases 16777217 = encodeChars ['你', '好'] := rfl
  refine ⟨⟨rfl, ?_⟩, rfl, ?_⟩
  · rw [hstart]
    exact word_of_ascii utf8Glib_documented (by simp [ascii]) (by simp [ascii]) (by simp [ascii])
  · rw [hnihao]
    exact ⟨'你', ['好'], rfl, by simp, by simp [utf8Glib]⟩

theorem load_nihao (token : BitVec 32) (gram : KmmGram) (h : nihaoContainer.load token = some gram) :
    (token = sentenceStart ∧ gram = ⟨⟨2147483648, 1⟩, [(16777217, ⟨1, 1, 1, 4294967295⟩)]⟩) ∨
      (token = 16777217 ∧ gram = ⟨⟨0, 3⟩, []⟩) := by
  unfold nihaoContainer at h
  rw [load_store, load_store, update_apply, update_apply] at h
  split_ifs at h with h1 h2
  · exact Or.inr ⟨h1, (some.inj h).symm⟩
  · exact Or.inl ⟨h2, (some.inj h).symm⟩
  · cases h

/-- The words come back, listed in whichever order. -/
theorem importText_exportText_nihao : ∃ text,
    exportText nihaoPhrases nihaoContainer ⟨List.reverse, fun listed => listed.reverse_perm⟩ = .ok text ∧
      importText utf8Glib nihaoPhrases .empty text = .ok nihaoContainer := by
  have hloads := load_nihao
  refine (importText_exportText utf8Glib_documented ?_ ?_ ?_ _).resolve_left fun hnone => by cases hnone.1
  · intro token gram hgram
    rcases hloads token gram hgram with ⟨rfl, rfl⟩ | ⟨rfl, rfl⟩
    · refine ⟨hasText_nihao.1, fun entry hentry => ?_⟩
      rw [mem_singleton.mp hentry]
      exact hasText_nihao.2
    · exact ⟨hasText_nihao.2, by simp⟩
  · intro token gram hgram
    rcases hloads token gram hgram with ⟨rfl, rfl⟩ | ⟨rfl, rfl⟩
    · decide
    · decide
  · intro token gram hgram
    rcases hloads token gram hgram with ⟨rfl, rfl⟩ | ⟨rfl, rfl⟩
    · exact pairwise_singleton _ _
    · exact List.Pairwise.nil

end Oxpinyin.Kmm
