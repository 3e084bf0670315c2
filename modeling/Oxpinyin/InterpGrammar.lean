import Oxpinyin.KmmRoundTrip

/-!
# The lines of the interpolation model

The import reads a line of the model export as it goes : a token, the values of its tag, and the rest
in pairs. The training tools split the whole line first and read the same grammar from registered tags.
Over the characters of the import both accept the same lines and read the same from them
(`read_agrees`), and every line runs out of tokens.
-/

set_option linter.unusedSectionVars false

namespace Oxpinyin.InterpGrammar

open List Option Tool Or TagLib

/-! ## Characters -/

/-- `char::is_whitespace`. -/
def isWhitespace (c : Char) : Bool :=
  let n := c.toNat
  n == 32 || (9 ≤ n && n ≤ 13) || n == 0x85 || n == 0xa0 || n == 0x1680 || (0x2000 ≤ n && n ≤ 0x200a) ||
    n == 0x2028 || n == 0x2029 || n == 0x202f || n == 0x205f || n == 0x3000

/-- `char::is_control`. -/
def isControl (c : Char) : Bool :=
  c.toNat < 32 || (127 ≤ c.toNat && c.toNat ≤ 159)

/-- Neither whitespace nor a control character. -/
def isGraph (c : Char) : Bool := !isWhitespace c && !isControl c

/-! ## Tags -/

/-- The tag of a line. -/
inductive Tag where
  | data
  | oneGram
  | twoGram
  | stop
  | item
  deriving DecidableEq

open Tag

/-- What a line starts with. -/
def Tag.literal : Tag → List Char
  | .data => "\\data".toList
  | .oneGram => "\\1-gram".toList
  | .twoGram => "\\2-gram".toList
  | .stop => "\\end".toList
  | .item => "\\item".toList

def modelTag : List Char := "model".toList

def countTag : List Char := "count".toList

/-- A line that was read. -/
inductive Line where
  | data (model : List Char)
  | oneGram
  | twoGram
  | stop
  | item (count : List Char)

/-- Why a line is refused. -/
inductive GrammarError where
  | unknownTag (tag : List Char)
  | missingValue (index : Nat)
  | danglingKey (key : List Char)
  | missingRequiredTag (tag : List Char)
  | emptyLine
  | unterminatedEscape

/-! ## Tokens -/

/-- The text up to a closing quote, or up to the end. An escape takes the next character along, and
there is no text where none is left. -/
def quoted : List Char → Option (List Char × List Char)
  | [] => some ([], [])
  | c :: rest =>
    if c.toNat = 92 then
      match rest with
      | [] => none
      | escaped :: rest => (quoted rest).map fun found => (c :: escaped :: found.1, found.2)
    else if c.toNat = 34 then some ([], c :: rest)
    else (quoted rest).map fun found => (c :: found.1, found.2)

/-- The next token of a line, and what is left behind what stopped it. -/
def next (rest : List Char) : Option (Except GrammarError (List Char) × List Char) :=
  match rest.dropWhile isWhitespace with
  | [] => none
  | first :: more =>
    if first.toNat = 34 then
      match quoted more with
      | none => some (.error .unterminatedEscape, [])
      | some (token, after) => some (.ok token, after.tail)
    else
      let token := (first :: more).takeWhile isGraph
      some (.ok token, ((first :: more).drop token.length).tail)

theorem quoted_append : ∀ {rest token after : List Char}, quoted rest = some (token, after) → rest = token ++ after
  | [], token, after, h => by
    rw [quoted] at h
    cases h
    rfl
  | c :: rest, token, after, h => by
    rw [quoted.eq_def] at h
    dsimp only at h
    split_ifs at h
    · match rest with
      | [] => cases h
      | escaped :: rest =>
        dsimp only at h
        obtain ⟨found, hfound, heq⟩ := map_eq_some_iff.mp h
        cases heq
        rw [quoted_append hfound]
        rfl
    · cases h
      rfl
    · obtain ⟨found, hfound, heq⟩ := map_eq_some_iff.mp h
      cases heq
      rw [quoted_append hfound]
      rfl

/-- A token takes at least one character. -/
theorem length_next {rest after : List Char} {answer : Except GrammarError (List Char)}
    (h : next rest = some (answer, after)) : after.length < rest.length := by
  have hskip := (dropWhile_suffix isWhitespace (l := rest)).length_le
  rw [next] at h
  cases hrest : rest.dropWhile isWhitespace with
  | nil =>
    rw [hrest] at h
    cases h
  | cons first more =>
    rw [hrest] at h hskip
    dsimp only at h
    rw [length_cons] at hskip
    split_ifs at h
    · cases hquoted : quoted more with
      | none =>
        rw [hquoted] at h
        cases h
        rw [length_nil]
        omega
      | some found =>
        rw [hquoted] at h
        cases h
        have hlength := congrArg length (quoted_append hquoted)
        rw [length_append] at hlength
        rw [length_tail]
        omega
    · cases h
      rw [length_tail, length_drop, length_cons]
      omega

/-- A quoted text, with the escape that can end it. -/
theorem next_quote {c : Char} {rest : List Char} (hspace : isWhitespace c = false) (hquote : c.toNat = 34) :
    next (c :: rest) = match quoted rest with
      | none => some (.error .unterminatedEscape, [])
      | some (token, after) => some (.ok token, after.tail) := by
  rw [next, dropWhile_cons_of_neg (by simp [hspace])]
  dsimp only
  rw [if_pos hquote]

/-- A run of graph characters. -/
theorem next_run {c : Char} {rest : List Char} (hspace : isWhitespace c = false) (hquote : c.toNat ≠ 34) :
    next (c :: rest) = some (.ok ((c :: rest).takeWhile isGraph), ((c :: rest).dropWhile isGraph).tail) := by
  have hdrop : (c :: rest).drop ((c :: rest).takeWhile isGraph).length = (c :: rest).dropWhile isGraph :=
    (congrArg (drop _) (@List.takeWhile_append_dropWhile _ isGraph (c :: rest)).symm).trans drop_left
  rw [next, dropWhile_cons_of_neg (by simp [hspace])]
  dsimp only
  rw [if_neg hquote, hdrop]

/-- The line behind the next token. -/
def advance (rest : List Char) : List Char := ((next rest).map Prod.snd).getD []

/-- Every line runs out of tokens. -/
theorem next_advance_eq_none : ∀ (n : Nat) (line : List Char), line.length ≤ n → next (advance^[n] line) = none
  | 0, line, h => by
    rw [length_eq_zero_iff.mp (Nat.le_zero.mp h)]
    rfl
  | n + 1, line, h => by
    rw [Function.iterate_succ_apply]
    refine next_advance_eq_none n _ ?_
    rw [advance]
    cases hnext : next line with
    | none => exact Nat.zero_le _
    | some found =>
      have hlt := @length_next line found.2 found.1 hnext
      rw [map_some, getD_some]
      omega

/-! ## Reading a line -/

/-- Fills the slots with a token each. The line left comes back. -/
def readValues : List (List Char) → Nat → List Char → Except GrammarError (List Char) × List (List Char)
  | [], _, rest => (.ok rest, [])
  | slot :: slots, index, rest =>
    match next rest with
    | none => (.error (.missingValue index), slot :: slots)
    | some (.error error, _) => (.error error, slot :: slots)
    | some (.ok value, rest) =>
      let filled := readValues slots (index + 1) rest
      (filled.1, value :: filled.2)

/-- Reads the tail in pairs, and keeps the value last met behind the required tag. -/
def readTail (required : Option (List Char)) (rest : List Char) (found : Option (List Char)) :
    Except GrammarError (Option (List Char)) :=
  match _hkey : next rest with
  | none => .ok found
  | some (.error error, _) => .error error
  | some (.ok key, more) =>
    match _hvalue : next more with
    | none => if required = some key then .error (.danglingKey key) else .ok found
    | some (.error error, _) => .error error
    | some (.ok value, after) => readTail required after (if required = some key then some value else found)
termination_by rest.length
decreasing_by exact Nat.lt_trans (length_next _hvalue) (length_next _hkey)

/-- The tag a line of a kind must have. -/
def Tag.required : Tag → Option (List Char)
  | .data => some modelTag
  | .item => some countTag
  | .oneGram | .twoGram | .stop => none

/-- The line of a tag with the value of its required tag. -/
def Tag.line (found : Option (List Char)) : Tag → Except GrammarError Line
  | .oneGram => .ok .oneGram
  | .twoGram => .ok .twoGram
  | .stop => .ok .stop
  | .data => match found with
    | some model => .ok (.data model)
    | none => .error (.missingRequiredTag modelTag)
  | .item => match found with
    | some count => .ok (.item count)
    | none => .error (.missingRequiredTag countTag)

/-- Reads what is behind the tag of a line. The slots are those of an item, and every other line leaves
them as they are. -/
def readTagged (tag : Tag) (rest : List Char) (values : List (List Char)) :
    Except GrammarError Line × List (List Char) :=
  let wanted := if tag = .item then values.length else 0
  let filled := readValues (values.take wanted) 0 rest
  let slots := filled.2 ++ values.drop wanted
  match filled.1 with
  | .error error => (.error error, slots)
  | .ok rest =>
    match readTail tag.required rest none with
    | .error error => (.error error, slots)
    | .ok found => (tag.line found, slots)

/-- Reads a line into the slots of its values. -/
def read (line : List Char) (values : List (List Char)) : Except GrammarError Line × List (List Char) :=
  match next line with
  | none => (.error .emptyLine, values)
  | some (.error error, _) => (.error error, values)
  | some (.ok tagToken, rest) =>
    match [Tag.data, .oneGram, .twoGram, .stop, .item].find? fun candidate => candidate.literal == tagToken with
    | none => (.error (.unknownTag tagToken), values)
    | some tag => readTagged tag rest values

/-! ## The whole line first -/

/-- All tokens of a line, if no escape ends it. -/
def tokens (rest : List Char) : Option (List (List Char)) :=
  match _h : next rest with
  | none => some []
  | some (.error _, _) => none
  | some (.ok token, after) => (tokens after).map (token :: ·)
termination_by rest.length
decreasing_by exact length_next _h

theorem tokens_of_none {rest : List Char} (h : next rest = none) : tokens rest = some [] := by
  rw [tokens]
  split
  · rfl
  · rename_i he
    rw [h] at he
    cases he
  · rename_i he
    rw [h] at he
    cases he

theorem tokens_of_error {rest after : List Char} {error : GrammarError} (h : next rest = some (.error error, after)) :
    tokens rest = none := by
  rw [tokens]
  split
  · rename_i he
    rw [h] at he
    cases he
  · rfl
  · rename_i he
    rw [h] at he
    cases he

theorem tokens_of_ok {rest token after : List Char} (h : next rest = some (.ok token, after)) :
    tokens rest = (tokens after).map (token :: ·) := by
  rw [tokens]
  split
  · rename_i he
    rw [h] at he
    cases he
  · rename_i he
    rw [h] at he
    cases he
  · rename_i he
    rw [h] at he
    cases he
    rfl

/-! ## The bytes of a line -/

/-- The library's characters are those of the import. -/
structure OfChars (glib : Glib) : Prop where
  getChar_encode : ∀ (c : Char) (rest : Bytes), glib.getChar (String.utf8EncodeChar c ++ rest) = c.toNat
  isSpace_eq : ∀ c : Char, glib.isSpace c.toNat = isWhitespace c
  isGraph_eq : ∀ c : Char, glib.isGraph c.toNat = isGraph c

theorem encodeChars_append (a b : List Char) : encodeChars (a ++ b) = encodeChars a ++ encodeChars b :=
  flatMap_append

section Bytes

variable {glib : Glib} (h : OfChars glib)

include h

/-- The first character of a text with no NUL, by its bytes. -/
theorem uncons_encode {c : Char} (hc : c.toNat ≠ 0) (rest : List Char) (stop : Bytes) :
    ∃ first tail, encodeChars (c :: rest) ++ stop = first :: tail ∧ first ≠ 0 ∧
      nextChar (first :: tail) = encodeChars rest ++ stop ∧ glib.getChar (first :: tail) = c.toNat := by
  obtain ⟨first, tail, hencode, _, hne⟩ := utf8EncodeChar_cons c
  have hsplit : encodeChars (c :: rest) ++ stop = String.utf8EncodeChar c ++ (encodeChars rest ++ stop) := by
    rw [encodeChars, flatMap_cons, append_assoc]
    rfl
  have hbytes : String.utf8EncodeChar c ++ (encodeChars rest ++ stop) = first ::
    (tail ++ (encodeChars rest ++ stop)) := by
    rw [hencode, cons_append]
  refine ⟨first, _, hsplit.trans hbytes, hne hc, ?_, ?_⟩
  · rw [← hbytes, nextChar_encode]
  · rw [← hbytes, h.getChar_encode]

theorem encodeChars_injective : ∀ {a b : List Char}, (∀ c ∈ a, c.toNat ≠ 0) → encodeChars a = encodeChars b → a = b
  | [], [], _, _ => rfl
  | [], d :: b, _, heq => by
    obtain ⟨first, tail, hencode, _⟩ := utf8EncodeChar_cons d
    rw [encodeChars, encodeChars, flatMap_nil, flatMap_cons, hencode] at heq
    cases heq
  | c :: a, [], _, heq => by
    obtain ⟨first, tail, hencode, _⟩ := utf8EncodeChar_cons c
    rw [encodeChars, encodeChars, flatMap_nil, flatMap_cons, hencode] at heq
    cases heq
  | c :: a, d :: b, ha, heq => by
    have hc := h.getChar_encode c (encodeChars a)
    have hd := h.getChar_encode d (encodeChars b)
    rw [encodeChars, encodeChars, flatMap_cons, flatMap_cons] at heq
    rw [encodeChars] at hc hd
    rw [heq, hd] at hc
    obtain rfl : d = c := Char.toNat_inj.mp hc
    rw [encodeChars_injective (fun c hc => ha c (mem_cons_of_mem _ hc)) (append_cancel_left heq)]

/-- A run of graph characters ends where it does in the text. -/
theorem graphEnd_encode_nul : ∀ {chars : List Char}, (∀ c ∈ chars, c.toNat ≠ 0) →
    graphEnd glib (encodeChars chars ++ [0]) = .ok (encodeChars (chars.dropWhile isGraph) ++ [0])
  | [], _ => by
    rw [encodeChars, flatMap_nil, nil_append, graphEnd, if_pos rfl]
    rfl
  | c :: rest, hchars => by
    obtain ⟨hc, hrest⟩ := forall_mem_cons.mp hchars
    obtain ⟨first, tail, hbytes, hne, hnext, hget⟩ := uncons_encode h hc rest [0]
    rw [hbytes, graphEnd, if_neg hne, hget, h.isGraph_eq, hnext]
    cases hgraph : isGraph c with
    | true => rw [if_pos rfl, dropWhile_cons_of_pos hgraph, graphEnd_encode_nul hrest]
    | false => rw [if_neg Bool.false_ne_true, dropWhile_cons_of_neg (by simp [hgraph]), hbytes]

/-- A quoted text ends where it does in the text. -/
theorem quoteEnd_encode_nul : ∀ {chars : List Char}, (∀ c ∈ chars, c.toNat ≠ 0) →
    quoteEnd glib (encodeChars chars ++ [0]) = .ok ((quoted chars).map fun found => encodeChars found.2 ++ [0])
  | [], _ => by
    rw [encodeChars, flatMap_nil, nil_append, quoteEnd, if_pos rfl]
    rfl
  | c :: rest, hchars => by
    obtain ⟨hc, hrest⟩ := forall_mem_cons.mp hchars
    obtain ⟨first, tail, hbytes, hne, hnext, hget⟩ := uncons_encode h hc rest [0]
    rw [hbytes, quoteEnd, if_neg hne, hget, hnext, quoted.eq_def]
    dsimp only
    by_cases hescape : c.toNat = 92
    · rw [if_pos hescape, if_pos hescape, if_neg (by simp)]
      cases rest with
      | nil => rfl
      | cons escaped rest =>
        obtain ⟨hd, hrest⟩ := forall_mem_cons.mp hrest
        obtain ⟨second, more, hbytes', hne', hnext', _⟩ := uncons_encode h hd rest [0]
        rw [hbytes', headD_cons, if_neg hne', hnext', quoteEnd_encode_nul hrest]
        dsimp only
        rw [Option.map_map]
        rfl
    · rw [if_neg hescape, if_neg hescape]
      by_cases hquote : c.toNat = 34
      · rw [if_pos hquote, if_pos hquote, map_some, hbytes]
      · rw [if_neg hquote, if_neg hquote, quoteEnd_encode_nul hrest, Option.map_map]
        rfl

/-- What a token and what stops it are in the bytes. -/
theorem splitFrom_stopped {c : UInt8} {rest : Bytes} {token after : List Char} (hne : c ≠ 0)
    (hspace : glib.isSpace (glib.getChar (c :: rest)) = false) (hafter : ∀ c ∈ after, c.toNat ≠ 0)
    (hread : readToken glib (c :: rest) = .ok (some (encodeChars token, encodeChars after ++ [0])))
    (ih : splitFrom glib (encodeChars after.tail ++ [0]) = .ok ((tokens after.tail).map (map encodeChars))) :
    splitFrom glib (c :: rest) =
      .ok (((tokens after.tail).map (token :: ·)).map (map encodeChars)) := by
  cases after with
  | nil =>
    rw [splitFrom_token hne hspace hread, if_pos rfl, tail_nil, tokens_of_none rfl]
    rfl
  | cons d after =>
    obtain ⟨hd, _⟩ := forall_mem_cons.mp hafter
    obtain ⟨second, more, hbytes, hne', hnext, _⟩ := uncons_encode h hd after [0]
    rw [hbytes] at hread
    rw [tail_cons] at ih ⊢
    rw [splitFrom_token hne hspace hread, if_neg hne', hnext, ih]
    cases tokens after with
    | none => rfl
    | some rest => rfl

/-- The whole line is split into the tokens the import takes one by one. -/
theorem splitFrom_encode (chars : List Char) (hchars : ∀ c ∈ chars, c.toNat ≠ 0) :
    splitFrom glib (encodeChars chars ++ [0]) = .ok ((tokens chars).map (map encodeChars)) := by
  induction hn : chars.length using Nat.strongRecOn generalizing chars with
  | ind n ih =>
    subst hn
    cases chars with
    | nil =>
      rw [tokens_of_none rfl, encodeChars, flatMap_nil, nil_append, splitFrom, if_pos rfl]
      rfl
    | cons c rest =>
      obtain ⟨hc, hrest⟩ := forall_mem_cons.mp hchars
      obtain ⟨first, tail, hbytes, hne, hnext, hget⟩ := uncons_encode h hc rest [0]
      cases hspace : isWhitespace c with
      | true =>
        have hskip : tokens (c :: rest) = tokens rest := by
          rw [tokens.eq_def, tokens.eq_def, next, next, dropWhile_cons_of_pos hspace]
        rw [hbytes, splitFrom, if_neg hne, hget, h.isSpace_eq, hspace, if_pos rfl, hnext, hskip]
        exact ih rest.length (Nat.lt_succ_self _) rest hrest rfl
      | false =>
        have hbyteSpace : glib.isSpace (glib.getChar (first :: tail)) = false := by
          rw [hget, h.isSpace_eq, hspace]
        -- a token and the bytes behind it are those the import takes
        have hbehind : ∀ {token after : List Char}, (∀ c ∈ after, c.toNat ≠ 0) →
            next (c :: rest) = some (.ok token, after.tail) →
            readToken glib (first :: tail) = .ok (some (encodeChars token, encodeChars after ++ [0])) →
            splitFrom glib (first :: tail) = .ok ((tokens (c :: rest)).map (map encodeChars)) := by
          intro token after hafter hstep hread
          rw [tokens_of_ok hstep]
          exact splitFrom_stopped h hne hbyteSpace hafter hread
            (ih _ (length_next hstep) _ (fun c hc => hafter c (mem_of_mem_tail hc)) rfl)
        rw [hbytes]
        by_cases hquote : c.toNat = 34
        · have hread : readToken glib (first :: tail) = .ok ((quoted rest).map fun found =>
              (tokenBefore (encodeChars rest ++ [0]) (encodeChars found.2 ++ [0]), encodeChars found.2 ++ [0])) := by
            rw [readToken, hget, if_pos hquote, hnext, quoteEnd_encode_nul h hrest, Except.map, Option.map_map]
            rfl
          have hstep := @next_quote c rest hspace hquote
          cases hfound : quoted rest with
          | none =>
            rw [hfound] at hread hstep
            rw [splitFrom_none hne hbyteSpace hread, tokens_of_error hstep]
            rfl
          | some found =>
            rw [hfound] at hstep
            have hsplit := @quoted_append rest found.1 found.2 hfound
            refine hbehind (fun c hc => hrest c (hsplit ▸ mem_append_right found.1 hc)) hstep ?_
            rw [hread, hfound, map_some, hsplit, encodeChars_append, append_assoc, tokenBefore_append]
        · have hsplit := @List.takeWhile_append_dropWhile _ isGraph (c :: rest)
          refine hbehind (fun c hc => hchars c ((dropWhile_suffix isGraph).subset hc)) (next_run hspace hquote) ?_
          rw [readToken, hget, if_neg hquote, ← hbytes, graphEnd_encode_nul h hchars, Except.map]
          refine congrArg (fun token => Except.ok (some (token,
            encodeChars ((c :: rest).dropWhile isGraph) ++ [0]))) ?_
          rw [← tokenBefore_append (encodeChars ((c :: rest).takeWhile isGraph))
            (encodeChars ((c :: rest).dropWhile isGraph) ++ [0]), ← append_assoc, ← encodeChars_append, hsplit]

end Bytes

/-! ## The tail -/

/-- The tail of a line that was split. -/
def pairsTail (required : Option (List Char)) :
    List (List Char) → Option (List Char) → Except GrammarError (Option (List Char))
  | [], found => .ok found
  | [key], found => if required = some key then .error (.danglingKey key) else .ok found
  | key :: value :: rest, found => pairsTail required rest (if required = some key then some value else found)

section Tail

variable {required : Option (List Char)} {rest key more : List Char} {found : Option (List Char)}

/-- One pair of the tail. -/
theorem readTail_eq (required : Option (List Char)) (rest : List Char) (found : Option (List Char)) :
    readTail required rest found =
      match next rest with
      | none => .ok found
      | some (.error error, _) => .error error
      | some (.ok key, more) =>
        match next more with
        | none => if required = some key then .error (.danglingKey key) else .ok found
        | some (.error error, _) => .error error
        | some (.ok value, after) => readTail required after (if required = some key then some value else found) := by
  conv_lhs => rw [readTail]
  split
  · rename_i hkey
    rw [hkey]
  · rename_i hkey
    rw [hkey]
  · rename_i hkey
    rw [hkey]
    dsimp only
    split
    · rename_i hvalue
      rw [hvalue]
    · rename_i hvalue
      rw [hvalue]
    · rename_i hvalue
      rw [hvalue]

/-- The tail read as it goes is that of its tokens. -/
theorem readTail_tokens (required : Option (List Char)) (rest : List Char) (found : Option (List Char)) :
    (∀ all, tokens rest = some all → readTail required rest found = pairsTail required all found) ∧
      (tokens rest = none → ∃ error, readTail required rest found = .error error) := by
  induction hn : rest.length using Nat.strongRecOn generalizing rest found with
  | ind n ih =>
    subst hn
    rw [readTail_eq]
    match hkey : next rest with
    | none =>
      rw [tokens_of_none hkey]
      refine ⟨fun all hall => ?_, fun hnone => ?_⟩
      · cases hall
        rfl
      · cases hnone
    | some (.error error, more) =>
      rw [tokens_of_error hkey]
      refine ⟨fun all hall => ?_, fun _ => ⟨error, rfl⟩⟩
      cases hall
    | some (.ok key, more) =>
      rw [tokens_of_ok hkey]
      dsimp only
      match hvalue : next more with
      | none =>
        rw [tokens_of_none hvalue]
        refine ⟨fun all hall => ?_, fun hnone => ?_⟩
        · cases hall
          rfl
        · cases hnone
      | some (.error error, after) =>
        rw [tokens_of_error hvalue]
        refine ⟨fun all hall => ?_, fun _ => ⟨error, rfl⟩⟩
        cases hall
      | some (.ok value, after) =>
        obtain ⟨hread, hrefused⟩ := ih _ (Nat.lt_trans (length_next hvalue) (length_next hkey)) after
          (if required = some key then some value else found) rfl
        rw [tokens_of_ok hvalue, Option.map_map]
        refine ⟨fun all hall => ?_, fun hnone => hrefused (map_eq_none_iff.mp hnone)⟩
        obtain ⟨others, hothers, rfl⟩ := map_eq_some_iff.mp hall
        exact hread others hothers

/-- The slots filled as the line goes are filled with its first tokens. -/
theorem readValues_tokens : ∀ (slots : List (List Char)) (index : Nat) (rest : List Char),
    (∀ all, tokens rest = some all → if slots.length ≤ all.length then
      ∃ after, readValues slots index rest = (.ok after, all.take slots.length) ∧
        tokens after = some (all.drop slots.length)
      else ∃ error, (readValues slots index rest).1 = .error error) ∧
      (tokens rest = none → (∃ error, (readValues slots index rest).1 = .error error) ∨
        ∃ after, (readValues slots index rest).1 = .ok after ∧ tokens after = none)
  | [], index, rest => by
    refine ⟨fun all hall => ?_, fun hnone => inr ⟨rest, rfl, hnone⟩⟩
    rw [length_nil, if_pos (Nat.zero_le _)]
    exact ⟨rest, rfl, hall⟩
  | slot :: slots, index, rest => by
    rw [readValues]
    match hvalue : next rest with
    | none =>
      rw [tokens_of_none hvalue]
      refine ⟨fun all hall => ?_, fun hnone => ?_⟩
      · cases hall
        rw [if_neg (by simp)]
        exact ⟨_, rfl⟩
      · cases hnone
    | some (.error error, more) =>
      rw [tokens_of_error hvalue]
      refine ⟨fun all hall => ?_, fun _ => inl ⟨error, rfl⟩⟩
      cases hall
    | some (.ok value, more) =>
      obtain ⟨hread, hrefused⟩ := readValues_tokens slots (index + 1) more
      rw [tokens_of_ok hvalue]
      refine ⟨fun all hall => ?_, fun hnone => hrefused (map_eq_none_iff.mp hnone)⟩
      obtain ⟨others, hothers, rfl⟩ := map_eq_some_iff.mp hall
      have hfill := hread others hothers
      rw [length_cons, length_cons]
      split_ifs at hfill with hlength
      · obtain ⟨after, hfilled, hafter⟩ := hfill
        rw [if_pos (Nat.succ_le_succ hlength)]
        refine ⟨after, ?_, hafter⟩
        dsimp only
        rw [hfilled]
        rfl
      · rw [if_neg fun hle => hlength (Nat.le_of_succ_le_succ hle)]
        exact hfill

end Tail

/-! ## The registered tags -/

/-- The number a tag is registered under. -/
def Tag.lineType : Tag → Int
  | .data => 0
  | .oneGram => 1
  | .twoGram => 2
  | .stop => 3
  | .item => 4

/-- The tags of the model, registered with so many values of an item. -/
def interpTags (numOfValues : Nat) : TagLib :=
  ((((TagLib.init.addTag 0 (ascii "\\data") 0 (ascii "model") []).addTag 1 (ascii "\\1-gram") 0 [] []).addTag 2
    (ascii "\\2-gram") 0 [] []).addTag 3 (ascii "\\end") 0 [] []).addTag 4 (ascii "\\item") numOfValues
      (ascii "count") []

/-- The tag of a line that was read. -/
def Line.tag : Line → Tag
  | .data _ => .data
  | .oneGram => .oneGram
  | .twoGram => .twoGram
  | .stop => .stop
  | .item _ => .item

/-- The value of its required tag. -/
def Line.value : Line → Option (List Char)
  | .data model => some model
  | .item count => some count
  | .oneGram | .twoGram | .stop => none

/-- The values of required tags a read of the line leaves. -/
def requiredValues (required found : Option (List Char)) (tag : Bytes) : Option Bytes :=
  if required.map encodeChars = some tag then found.map encodeChars else none

/-- What the training tools read where the import reads a line and its slots. -/
def tagLineOf (line : Line) (slots : List (List Char)) : TagLine :=
  ⟨line.tag.lineType, (if line.tag = .item then slots else []).map encodeChars,
    requiredValues line.tag.required line.value⟩

/-- The registration of a tag. -/
def entryOf (numOfValues : Nat) (tag : Tag) : TagEntry :=
  ⟨tag.lineType, encodeChars tag.literal, if tag = .item then numOfValues else 0,
    (tag.required.map encodeChars).toList, []⟩

theorem top_interpTags (numOfValues : Nat) :
    (interpTags numOfValues).top = [data, .oneGram, .twoGram, .stop, .item].map (entryOf numOfValues) := by
  rfl

/-- The literals of the grammar hold no NUL. -/
theorem literal_ne_zero (tag : Tag) :
    (∀ c ∈ tag.literal, c.toNat ≠ 0) ∧ ∀ key ∈ tag.required, ∀ c ∈ key, c.toNat ≠ 0 := by
  constructor
  · cases tag
    all_goals
      unfold literal
      dsimp only
      simp
  · cases tag
    all_goals simp [required, modelTag, countTag]

section Read

variable {glib : Glib} {tag : Tag} {numOfValues : Nat}

theorem requiredValues_none (required : Option (List Char)) : requiredValues required none = fun _ => none := by
  ext1 tag
  rw [requiredValues, map_none, ite_self]

/-- A key is looked for where it is the required tag. -/
theorem contains_required (h : OfChars glib) (key : List Char) :
    (entryOf numOfValues tag).requiredTags.contains (encodeChars key) = decide (tag.required = some key) := by
  rw [entryOf]
  dsimp only
  cases hrequired : tag.required with
  | none => rfl
  | some needed =>
    have hneeded := (literal_ne_zero tag).2 needed hrequired
    rw [Bool.eq_iff_iff, contains_iff_mem, decide_eq_true_iff, map_some, toList_some,
      mem_singleton, Option.some.injEq]
    refine ⟨fun heq => encodeChars_injective h hneeded heq.symm, fun heq => ?_⟩
    rw [heq]

/-- The value met last is kept. -/
theorem update_requiredValues {key : List Char} (hkey : tag.required = some key) (found : Option (List Char))
    (value : List Char) :
    Function.update (requiredValues tag.required found) (encodeChars key) (some (encodeChars value)) =
      requiredValues tag.required (some value) := by
  ext1 other
  rw [Function.update_apply, requiredValues, requiredValues, hkey, map_some, map_some]
  by_cases hother : other = encodeChars key
  · simp [hother]
  · have hother' : ¬encodeChars key = other := Ne.symm hother
    simp [hother, hother']

/-- The two readers walk the pairs of a tail alike. -/
theorem readTags_encode (h : OfChars glib) : ∀ (all : List (List Char)) (found : Option (List Char)),
    (∀ kept, pairsTail tag.required all found = .ok kept →
      readTags (entryOf numOfValues tag) (all.map encodeChars) (requiredValues tag.required found) =
        (true, requiredValues tag.required kept)) ∧
      ∀ error, pairsTail tag.required all found = .error error →
        (readTags (entryOf numOfValues tag) (all.map encodeChars)
          (requiredValues tag.required found)).1 = false
  | [], found => by
    refine ⟨fun kept hkept => ?_, fun error herror => ?_⟩
    · cases hkept
      rfl
    · cases herror
  | key :: rest, found => by
    have hcontains := @contains_required glib tag numOfValues h key
    have hignored : (entryOf numOfValues tag).ignoredTags.contains (encodeChars key) = false := rfl
    match rest with
    | [] =>
      rw [pairsTail, map_cons, map_nil, readTags, hignored, hcontains, Bool.false_or]
      by_cases hkey : tag.required = some key
      · rw [if_pos hkey, decide_eq_true hkey]
        refine ⟨fun kept hkept => ?_, fun _ _ => rfl⟩
        cases hkept
      · rw [if_neg hkey, decide_eq_false hkey]
        refine ⟨fun kept hkept => ?_, fun error herror => ?_⟩
        · cases hkept
          rfl
        · cases herror
    | value :: rest =>
      have ih := readTags_encode h rest (if tag.required = some key then some value else found)
      rw [pairsTail, map_cons, map_cons, readTags, hignored, hcontains, Bool.false_or]
      by_cases hkey : tag.required = some key
      · have hwrite := update_requiredValues hkey found value
        rw [if_pos hkey] at ih ⊢
        rw [decide_eq_true hkey, Bool.not_true, if_neg Bool.false_ne_true, hwrite]
        exact ih
      · rw [if_neg hkey] at ih ⊢
        rw [decide_eq_false hkey, Bool.not_false, if_pos rfl]
        exact ih

/-- A line has its required tag where the registration finds it. -/
theorem line_of_required (tag : Tag) (found : Option (List Char)) :
    (∃ result, tag.line found = .ok result ∧ result.tag = tag ∧
        ((entryOf numOfValues tag).requiredTags.all fun key =>
          (requiredValues tag.required found key).isSome) = true ∧
        requiredValues tag.required found = requiredValues result.tag.required result.value) ∨
      ∃ error, tag.line found = .error error ∧
        ((entryOf numOfValues tag).requiredTags.all fun key =>
          (requiredValues tag.required found key).isSome) = false := by
  cases tag with
  | data =>
    cases found with
    | none => exact inr ⟨_, rfl, by simp [entryOf, required, requiredValues]⟩
    | some model => exact inl ⟨_, rfl, rfl, by simp [entryOf, required, requiredValues], rfl⟩
  | item =>
    cases found with
    | none => exact inr ⟨_, rfl, by simp [entryOf, required, requiredValues]⟩
    | some count => exact inl ⟨_, rfl, rfl, by simp [entryOf, required, requiredValues], rfl⟩
  | oneGram => exact inl ⟨_, rfl, rfl, rfl, rfl⟩
  | twoGram => exact inl ⟨_, rfl, rfl, rfl, rfl⟩
  | stop => exact inl ⟨_, rfl, rfl, rfl, rfl⟩

/-- The first token selects the same tag. -/
theorem find?_interpTags (h : OfChars glib) (numOfValues : Nat) (tagToken : List Char) :
    ((interpTags numOfValues).top.find? fun entry => entry.lineTag == encodeChars tagToken) =
      ([data, .oneGram, .twoGram, .stop, .item].find? fun candidate => candidate.literal == tagToken).map
        (entryOf numOfValues) := by
  rw [top_interpTags, find?_map]
  refine congrArg (Option.map _) (congrFun (congrArg find? (funext fun candidate => ?_)) _)
  rw [Bool.eq_iff_iff, beq_iff_eq]
  change (encodeChars candidate.literal == encodeChars tagToken) = true ↔ _
  rw [beq_iff_eq]
  refine ⟨encodeChars_injective h (literal_ne_zero candidate).1, fun heq => ?_⟩
  rw [heq]

/-- A line whose split fails is refused behind its tag. -/
theorem readTagged_of_tokens_none {rest : List Char} (hrest : tokens rest = none) (values : List (List Char)) :
    ∃ error, (readTagged tag rest values).1 = .error error := by
  rw [readTagged]
  rcases (readValues_tokens (values.take (if tag = .item then values.length else 0)) 0 rest).2 hrest with
    ⟨error, herror⟩ | ⟨after, hafter, hnone⟩
  · rw [herror]
    exact ⟨error, rfl⟩
  · obtain ⟨error, herror⟩ := (readTail_tokens tag.required after none).2 hnone
    rw [hafter]
    dsimp only
    rw [herror]
    exact ⟨error, rfl⟩

/-- Behind the tag of a line both readers accept and read the same, or neither does. -/
theorem readTagged_or_refuse (h : OfChars glib) (tag : Tag) {rest : List Char} {all : List (List Char)}
    (hall : tokens rest = some all) (values : List (List Char)) {entry : TagEntry}
    (hentry : entry = entryOf values.length tag) {tags : Bool × (Bytes → Option Bytes)}
    (htags : tags = readTags entry ((all.map encodeChars).drop entry.numOfValues) fun _ => none) :
    (∃ result, (readTagged tag rest values).1 = .ok result ∧ ¬(all.map encodeChars).length < entry.numOfValues ∧
        (tags.1 && entry.requiredTags.all fun key => (tags.2 key).isSome) = true ∧
        (⟨entry.lineType, (all.map encodeChars).take entry.numOfValues, tags.2⟩ : TagLine) =
          tagLineOf result (readTagged tag rest values).2 ∧
        (result.tag ≠ .item → (readTagged tag rest values).2 = values)) ∨
      (∃ error, (readTagged tag rest values).1 = .error error) ∧
        ((all.map encodeChars).length < entry.numOfValues ∨
          (tags.1 && entry.requiredTags.all fun key => (tags.2 key).isSome) = false) := by
  have hwanted : entry.numOfValues = if tag = .item then values.length else 0 := by rw [hentry]; rfl
  have hslots : (values.take entry.numOfValues).length = entry.numOfValues := by
    rw [length_take, hwanted]
    split_ifs
    · exact Nat.min_self _
    · exact Nat.zero_min _
  have hfill := (readValues_tokens (values.take entry.numOfValues) 0 rest).1 all hall
  rw [hslots] at hfill
  rw [readTagged, ← hwanted, length_map]
  split_ifs at hfill with hlength
  · obtain ⟨after, hfilled, hafter⟩ := hfill
    obtain ⟨hpairs, hrefuse⟩ := @readTags_encode glib tag values.length h (all.drop entry.numOfValues) none
    rw [requiredValues_none, ← hentry, map_drop, ← htags] at hpairs hrefuse
    rw [hfilled]
    dsimp only
    rw [(readTail_tokens tag.required after none).1 _ hafter]
    match hkept : pairsTail tag.required (all.drop entry.numOfValues) none with
    | .error error =>
      refine inr ⟨⟨error, rfl⟩, inr ?_⟩
      rw [hrefuse error hkept, Bool.false_and]
    | .ok kept =>
      have hread := hpairs kept hkept
      dsimp only
      rcases @line_of_required values.length tag kept with
        ⟨result, hline, rfl, hrequired, hvalues⟩ | ⟨error, hline, hrequired⟩
      · refine inl ⟨result, hline, Nat.not_lt.mpr hlength, ?_, ?_, fun htag => ?_⟩
        · rw [hread, hentry, Bool.true_and]
          exact hrequired
        · rw [tagLineOf, hread, ← hvalues, hwanted, ← map_take]
          split_ifs with htag
          · rw [drop_length, append_nil, hentry]
            rfl
          · rw [take_zero, hentry]
            rfl
        · rw [hwanted, if_neg htag]
          rfl
      · refine inr ⟨⟨error, hline⟩, inr ?_⟩
        rw [hread, hentry, Bool.true_and]
        exact hrequired
  · obtain ⟨error, herror⟩ := hfill
    rw [herror]
    exact inr ⟨⟨error, rfl⟩, inl (Nat.lt_of_not_le hlength)⟩

/-- Either both readers accept a line and read the same from it, or neither does. -/
theorem read_or_refuse (h : OfChars glib) {line : List Char} (hline : ∀ c ∈ line, c.toNat ≠ 0)
    (values : List (List Char)) (lineType : Int) :
    (∃ result, (read line values).1 = .ok result ∧
        (interpTags values.length).read glib (encodeChars line) lineType =
          .ok (true, tagLineOf result (read line values).2) ∧
        (result.tag ≠ .item → (read line values).2 = values)) ∨ (∃ error, (read line values).1 = .error error) ∧
        ∀ tagLine, (interpTags values.length).read glib (encodeChars line) lineType ≠ .ok (true, tagLine) := by
  rw [TagLib.read, splitLine, splitFrom_encode h line hline]
  match hnext : next line with
  | none =>
    rw [tokens_of_none hnext]
    refine inr ⟨⟨.emptyLine, by rw [read, hnext]⟩, fun tagLine heq => ?_⟩
    cases heq
  | some (.error error, rest) =>
    rw [tokens_of_error hnext]
    refine inr ⟨⟨error, by rw [read, hnext]⟩, fun tagLine heq => ?_⟩
    cases heq
  | some (.ok tagToken, rest) =>
    rw [tokens_of_ok hnext, read, hnext]
    dsimp only
    cases hall : tokens rest with
    | none =>
      refine inr ⟨?_, fun tagLine heq => by cases heq⟩
      cases [data, .oneGram, .twoGram, .stop, .item].find? fun candidate => candidate.literal == tagToken with
      | none => exact ⟨_, rfl⟩
      | some tag => exact readTagged_of_tokens_none hall values
    | some all =>
      rw [map_some, map_some, map_cons]
      dsimp only
      rw [find?_interpTags h]
      cases [data, .oneGram, .twoGram, .stop, .item].find? fun candidate => candidate.literal == tagToken with
      | none =>
        refine inr ⟨⟨_, rfl⟩, fun tagLine heq => ?_⟩
        cases heq
      | some tag =>
        dsimp only [map_some]
        rcases readTagged_or_refuse h tag hall values rfl rfl with
          ⟨result, hresult, hlength, haccept, htagLine, hslots⟩ | ⟨herror, hrefuse⟩
        · refine inl ⟨result, hresult, ?_, hslots⟩
          rw [if_neg hlength, haccept, htagLine]
        · refine inr ⟨herror, fun tagLine heq => ?_⟩
          split_ifs at heq with hlength
          · cases heq
          · rw [hrefuse.resolve_left hlength] at heq
            cases heq

end Read

/-- The import and the training tools accept the same lines and read the same from them, for every
number of slots of an item, and every line runs out of tokens. -/
theorem read_agrees {glib : Glib} (h : OfChars glib) {line : List Char} (hline : ∀ c ∈ line, c.toNat ≠ 0)
    (values : List (List Char)) (lineType : Int) :
    ((∃ result, (read line values).1 = .ok result) ↔
      ∃ tagLine, (interpTags values.length).read glib (encodeChars line) lineType = .ok (true, tagLine)) ∧
    (∀ result tagLine, (read line values).1 = .ok result →
      (interpTags values.length).read glib (encodeChars line) lineType = .ok (true, tagLine) →
      tagLine = tagLineOf result (read line values).2 ∧
        (result.tag ≠ .item → (read line values).2 = values)) ∧
    ∀ n, line.length ≤ n → next (advance^[n] line) = none := by
  refine ⟨?_, fun result tagLine hresult htagLine => ?_, fun n hn => next_advance_eq_none n line hn⟩
  · rcases read_or_refuse h hline values lineType with ⟨result, hresult, htagLine, _⟩ | ⟨⟨error, herror⟩, hrefuse⟩
    · exact ⟨fun _ => ⟨_, htagLine⟩, fun _ => ⟨result, hresult⟩⟩
    · refine ⟨fun ⟨result, hresult⟩ => ?_, fun ⟨tagLine, htagLine⟩ => absurd htagLine (hrefuse tagLine)⟩
      rw [herror] at hresult
      cases hresult
  · rcases read_or_refuse h hline values lineType with ⟨accepted, haccepted, hread, hslots⟩ | ⟨_, hrefuse⟩
    · rw [haccepted] at hresult
      cases hresult
      rw [hread] at htagLine
      cases htagLine
      exact ⟨rfl, hslots⟩
    · exact absurd htagLine (hrefuse tagLine)

/-- The library with the characters of the import. -/
def charGlib : Glib where
  getChar := Kmm.utf8Glib.getChar
  isSpace n := isWhitespace (Char.ofNat n)
  isGraph n := isGraph (Char.ofNat n)

theorem ofChars_charGlib : OfChars charGlib where
  getChar_encode := Kmm.utf8Glib_documented.getChar_encode
  isSpace_eq c := congrArg isWhitespace (Char.ofNat_toNat c)
  isGraph_eq c := congrArg isGraph (Char.ofNat_toNat c)

theorem read_item : read "\\item 10 甲 count 5".toList [[], []] =
    (.ok (.item "5".toList), ["10".toList, "甲".toList]) := by
  have htag : next "\\item 10 甲 count 5".toList = some (.ok "\\item".toList, "10 甲 count 5".toList) := rfl
  have hfind : ([data, .oneGram, .twoGram, .stop, .item].find? fun candidate =>
      candidate.literal == "\\item".toList) = some .item := rfl
  have hvalues : readValues [[], []] 0 "10 甲 count 5".toList = (.ok "count 5".toList,
    ["10".toList, "甲".toList]) := rfl
  have hkey : next "count 5".toList = some (.ok countTag, "5".toList) := rfl
  have hvalue : next "5".toList = some (.ok "5".toList, []) := rfl
  have htail : readTail (some countTag) "count 5".toList none = .ok (some "5".toList) := by
    rw [readTail_eq, hkey]
    dsimp only
    rw [hvalue]
    dsimp only
    rw [if_pos rfl, readTail_eq]
    rfl
  rw [read, htag]
  dsimp only
  rw [hfind]
  dsimp only
  rw [readTagged, if_pos rfl, take_length, hvalues]
  dsimp only
  rw [required, htail]
  rfl

theorem read_agrees_item : ∃ tagLine,
    (interpTags 2).read charGlib (encodeChars "\\item 10 甲 count 5".toList) 0 = .ok (true, tagLine) := by
  exact (read_agrees ofChars_charGlib (by simp) [[], []] 0).1.mp ⟨.item "5".toList, congrArg Prod.fst read_item⟩

end Oxpinyin.InterpGrammar
