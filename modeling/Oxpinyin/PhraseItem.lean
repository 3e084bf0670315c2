import Oxpinyin.ChunkFile

/-!
# Phrase items

An item is read in its bytes through `PhraseItemView`. A byte string holds a whole item at
its start exactly when it starts with `bodyBytes` of one (`fromBytes_eq_some`), and a view of
these bytes shows the item (`shows_bodyBytes`).
-/

namespace Oxpinyin

open Option List LittleEndian Run

namespace ChunkFile

/-- One pronunciation of an item, as stored. -/
structure PronunciationView where
  keys : Bytes
  freq : BitVec 32
  deriving DecidableEq

/-- An item in its bytes. -/
structure PhraseItemView where
  bytes : Bytes
  deriving DecidableEq

namespace PhraseItemView

section

variable (view : PhraseItemView)

def phraseLength : Nat := ((view.bytes[0]?).getD 0).toNat

def nPronunciations : Nat := ((view.bytes[1]?).getD 0).toNat

def unigram : BitVec 32 := (word32At view.bytes 2).getD 0

/-- The stored characters, none where the bytes end before one. -/
def phraseCodes : List (Option (BitVec 32)) :=
  (List.range view.phraseLength).map fun index => word32At view.bytes (itemHeaderSize + 4 * index)

/-- One pronunciation. -/
def pronunciation (index : Nat) : Option PronunciationView :=
  if view.nPronunciations ≤ index then none
  else
    let stride := chewingKeySize * view.phraseLength + 4
    let start := itemHeaderSize + 4 * view.phraseLength + index * stride
    (range? view.bytes start (start + chewingKeySize * view.phraseLength)).bind fun keys =>
      (word32At view.bytes (start + stride - 4)).map fun freq => ⟨keys, freq⟩

/-- Every pronunciation, in stored order. -/
def pronunciations : List PronunciationView :=
  (List.range view.nPronunciations).map fun index => (view.pronunciation index).getD ⟨[], 0⟩

/-- The length the header claims. -/
def totalSize : Nat :=
  itemHeaderSize + 4 * view.phraseLength +
    (chewingKeySize * view.phraseLength + 4) * view.nPronunciations

end

/-- The item at the start of a byte string, if it is whole. -/
def fromBytes (bytes : Bytes) : Option PhraseItemView :=
  match validatePhraseItem bytes with
  | .error _ => none
  | .ok () => (range? bytes 0 (totalSize ⟨bytes⟩)).map PhraseItemView.mk

/-- A view answers as an item. -/
structure Shows (view : PhraseItemView) (item : ChunkItem) : Prop where
  bytes : view.bytes = bodyBytes item
  phraseLength : view.phraseLength = item.phrase.length
  phraseCodes : view.phraseCodes = item.phrase.map some
  unigram : view.unigram = item.unigram
  nPronunciations : view.nPronunciations = item.prons.length
  pronunciations : view.pronunciations = item.prons.map fun pron => ⟨pron.1.flatMap le16, pron.2⟩

end PhraseItemView

open PhraseItemView

/-! ## The bytes of an item -/

variable {item : ChunkItem} {bytes : Bytes}

theorem length_pronBytes (pron : List (BitVec 16) × BitVec 32) : (pronBytes pron).length = pron.1.length * 2 + 4 := by
  rw [pronBytes, length_append, length_flatMap_le16, length_le32]

theorem length_flatMap_pronBytes {prons : List (List (BitVec 16) × BitVec 32)} {length : Nat}
    (h : ∀ pron ∈ prons, pron.1.length = length) :
    (prons.flatMap pronBytes).length = prons.length * (length * 2 + 4) := by
  rw [flatMap_def, length_flatten_const, length_map]
  intro block hblock
  obtain ⟨pron, hpron, rfl⟩ := mem_map.mp hblock
  rw [length_pronBytes, h pron hpron]

theorem length_bodyBytes (h : item.Fits) :
    (bodyBytes item).length =
      itemHeaderSize + 4 * item.phrase.length +
        (chewingKeySize * item.phrase.length + 4) * item.prons.length := by
  have hprons := length_flatMap_pronBytes h.keys
  have hmul : item.prons.length * (item.phrase.length * 2 + 4) =
      (chewingKeySize * item.phrase.length + 4) * item.prons.length := by
    rw [Nat.mul_comm, chewingKeySize, Nat.mul_comm 2]
  rw [bodyBytes, length_cons, length_cons, length_append, length_append, length_le32,
    length_flatMap_le32, hprons, hmul, itemHeaderSize]
  omega

theorem totalSize_bodyBytes (h : item.Fits) (back : Bytes) :
    totalSize ⟨bodyBytes item ++ back⟩ = (bodyBytes item).length := by
  rw [length_bodyBytes h]
  have hphrase := toNat_ofNat_of_le h.phrase
  have hprons := toNat_ofNat_of_le h.prons
  simp [totalSize, phraseLength, nPronunciations,
    bodyBytes, hphrase, hprons]

/-- A word of a run of words. -/
theorem word32At_flatMap {bytes front back : Bytes} {words : List (BitVec 32)}
    (h : bytes = front ++ words.flatMap le32 ++ back) {i : Nat} {word : BitVec 32}
    (hword : words[i]? = some word) : word32At bytes (front.length + 4 * i) = some word := by
  obtain ⟨hlt, heq⟩ := List.getElem?_eq_some_iff.mp hword
  have hcut : words = words.take i ++ word :: words.drop (i + 1) := by
    rw [← heq, getElem_cons_drop, take_append_drop]
  refine @word32At_eq _ (front ++ (words.take i).flatMap le32) ((words.drop (i + 1)).flatMap le32 ++ back) _ _ ?_ ?_
  · rw [h]
    conv_lhs => rw [hcut]
    simp
  · rw [length_append, length_flatMap_le32, length_take]
    omega

/-- One pronunciation of an item, in its bytes. -/
theorem pronunciation_bodyBytes (h : item.Fits) {i : Nat}
    {pron : List (BitVec 16) × BitVec 32} (hpron : item.prons[i]? = some pron) :
    pronunciation ⟨bodyBytes item⟩ i = some ⟨pron.1.flatMap le16, pron.2⟩ := by
  obtain ⟨hlt, heq⟩ := List.getElem?_eq_some_iff.mp hpron
  have hkeys := h.keys pron (heq ▸ getElem_mem hlt)
  have hphrase := toNat_ofNat_of_le h.phrase
  have hcount := toNat_ofNat_of_le h.prons
  have hlength : phraseLength ⟨bodyBytes item⟩ = item.phrase.length := hphrase
  have hprons : nPronunciations ⟨bodyBytes item⟩ = item.prons.length := hcount
  set front : Bytes := UInt8.ofNat item.phrase.length :: UInt8.ofNat item.prons.length ::
    (le32 item.unigram ++ item.phrase.flatMap le32 ++ (item.prons.take i).flatMap pronBytes) with hfront
  have hcut : item.prons = item.prons.take i ++ pron :: item.prons.drop (i + 1) := by
    rw [← heq, getElem_cons_drop, take_append_drop]
  have hbytes : bodyBytes item = front ++ pron.1.flatMap le16 ++
      (le32 pron.2 ++ (item.prons.drop (i + 1)).flatMap pronBytes) := by
    have hflat : item.prons.flatMap pronBytes = (item.prons.take i).flatMap pronBytes ++
        (pronBytes pron ++ (item.prons.drop (i + 1)).flatMap pronBytes) := by
      conv_lhs => rw [hcut]
      rw [flatMap_append, flatMap_cons]
    rw [bodyBytes, hfront, hflat]
    simp [pronBytes]
  have hat : front.length = itemHeaderSize + 4 * item.phrase.length +
      i * (chewingKeySize * item.phrase.length + 4) := by
    have htake := @length_flatMap_pronBytes (item.prons.take i) item.phrase.length
      fun p hp => h.keys p (mem_of_mem_take hp)
    rw [hfront, length_cons, length_cons, length_append, length_append, length_le32,
      length_flatMap_le32, htake, length_take, Nat.min_eq_left (Nat.le_of_lt hlt), itemHeaderSize,
      chewingKeySize, Nat.mul_comm _ 2]
    omega
  have hrange : range? (bodyBytes item) front.length
      (front.length + chewingKeySize * item.phrase.length) = some (pron.1.flatMap le16) := by
    rw [hbytes]
    refine range?_append front _ _ rfl ?_
    rw [length_flatMap_le16, hkeys, chewingKeySize, Nat.mul_comm]
  have hword := @word32At_eq (bodyBytes item) (front ++ pron.1.flatMap le16)
    ((item.prons.drop (i + 1)).flatMap pronBytes) pron.2
    (front.length + (chewingKeySize * item.phrase.length + 4) - 4) (by simp [hbytes])
    (by rw [length_append, length_flatMap_le16, hkeys, chewingKeySize]; omega)
  rw [pronunciation, hprons, hlength, if_neg (by omega)]
  dsimp only
  rw [← hat, hrange, bind_some, hword, map_some]

/-- The view of an item's bytes shows it. -/
theorem shows_bodyBytes (h : item.Fits) : PhraseItemView.Shows ⟨bodyBytes item⟩ item := by
  have hphrase := toNat_ofNat_of_le h.phrase
  have hprons := toNat_ofNat_of_le h.prons
  have hlength : phraseLength ⟨bodyBytes item⟩ = item.phrase.length := hphrase
  have hcount : nPronunciations ⟨bodyBytes item⟩ = item.prons.length := hprons
  refine ⟨rfl, hlength, ?_, ?_, hcount, ?_⟩
  · rw [phraseCodes, hlength]
    refine ext_getElem (by simp) fun i _ hi => ?_
    rw [length_map] at hi
    rw [getElem_map, getElem_range, getElem_map]
    exact @word32At_flatMap _ (UInt8.ofNat item.phrase.length :: UInt8.ofNat item.prons.length ::
      le32 item.unigram) (item.prons.flatMap pronBytes) item.phrase (by simp [bodyBytes]) i _
      (getElem?_eq_getElem hi)
  · have hunigram := @word32At_eq (bodyBytes item) [UInt8.ofNat item.phrase.length,
      UInt8.ofNat item.prons.length] (item.phrase.flatMap le32 ++ item.prons.flatMap pronBytes)
      item.unigram 2 (by simp [bodyBytes]) rfl
    rw [unigram, hunigram, getD_some]
  · rw [pronunciations, hcount]
    refine ext_getElem (by simp) fun i _ hi => ?_
    rw [length_map] at hi
    rw [getElem_map, getElem_range, getElem_map, pronunciation_bodyBytes h (getElem?_eq_getElem hi), getD_some]

theorem validatePhraseItem_eq_ok :
    validatePhraseItem bytes = .ok () ↔ itemHeaderSize ≤ bytes.length ∧
      totalSize ⟨bytes⟩ ≤ bytes.length := by
  match bytes with
  | [] => simp [validatePhraseItem, itemHeaderSize]
  | [_] => simp [validatePhraseItem, itemHeaderSize]
  | length :: prons :: rest =>
    have hsize : totalSize ⟨length :: prons :: rest⟩ =
        itemHeaderSize + 4 * length.toNat + (chewingKeySize * length.toNat + 4) * prons.toNat := rfl
    rw [hsize, Nat.mul_comm (chewingKeySize * length.toNat + 4)]
    simp only [validatePhraseItem, getElem?_cons_zero, getElem?_cons_succ]
    generalize prons.toNat * (chewingKeySize * length.toNat + 4) = rows
    generalize (length :: prons :: rest).length = total
    split_ifs with hheader htext hrows
    · exact ⟨fun h => (by cases h), fun h => absurd h.1 (by omega)⟩
    · exact ⟨fun h => (by cases h), fun h => absurd h.2 (by omega)⟩
    · exact ⟨fun h => (by cases h), fun h => absurd h.2 (by omega)⟩
    · exact ⟨fun _ => by omega, fun _ => rfl⟩

/-- The pronunciation of one row of stored keys and a frequency. -/
def rowPron (length : Nat) (row : Bytes) : List (BitVec 16) × BitVec 32 :=
  ((chunks 2 (row.take (2 * length))).map word16, word32 (row.drop (2 * length)))

theorem pronBytes_rowPron {length : Nat} {row : Bytes} (h : row.length = 2 * length + 4) :
    (rowPron length row).1.length = length ∧ pronBytes (rowPron length row) = id row := by
  have hkeys : (row.take (2 * length)).length = length * 2 := by
    rw [length_take]
    omega
  have hfreq : (row.drop (2 * length)).length = 4 := by
    rw [length_drop]
    omega
  refine ⟨?_, ?_⟩
  · rw [rowPron, length_map, length_chunks, hkeys, Nat.mul_div_cancel _ (by omega)]
  · rw [pronBytes, rowPron, flatMap_le16_chunks hkeys, le32_word32 hfreq, take_append_drop, id]

/-- The item a byte string with room for one starts with. -/
theorem exists_bodyBytes {bytes : Bytes} (hheader : itemHeaderSize ≤ bytes.length)
    (hsize : totalSize ⟨bytes⟩ ≤ bytes.length) :
    ∃ item : ChunkItem, item.Fits ∧ ∃ back, bytes = bodyBytes item ++ back := by
  match bytes with
  | [] => simp [itemHeaderSize] at hheader
  | [_] => simp [itemHeaderSize] at hheader
  | length :: prons :: rest =>
    have hwide : itemHeaderSize + 4 * length.toNat +
        (chewingKeySize * length.toNat + 4) * prons.toNat ≤ rest.length + 2 := hsize
    rw [itemHeaderSize, chewingKeySize, Nat.mul_comm (2 * length.toNat + 4)] at hwide
    have hunigram : (rest.take 4).length = 4 := by
      rw [length_take]
      omega
    have htext : ((rest.drop 4).take (length.toNat * 4)).length = length.toNat * 4 := by
      rw [length_take, length_drop]
      omega
    have hrows : (((rest.drop 4).drop (length.toNat * 4)).take
        (prons.toNat * (2 * length.toNat + 4))).length = prons.toNat * (2 * length.toNat + 4) := by
      rw [length_take, length_drop, length_drop]
      omega
    set unigram := rest.take 4
    set text := (rest.drop 4).take (length.toNat * 4)
    set rows := ((rest.drop 4).drop (length.toNat * 4)).take (prons.toNat * (2 * length.toNat + 4))
    have hlength : ((chunks 4 text).map word32).length = length.toNat := by
      rw [length_map, length_chunks, htext, Nat.mul_div_cancel _ (by omega)]
    have hprons : ((chunks (2 * length.toNat + 4) rows).map (rowPron length.toNat)).length =
        prons.toNat := by
      rw [length_map, length_chunks, hrows, Nat.mul_div_cancel _ (by omega)]
    refine ⟨⟨(chunks 4 text).map word32, word32 unigram,
      (chunks (2 * length.toNat + 4) rows).map (rowPron length.toNat)⟩, ⟨?_, ?_, ?_⟩,
      ((rest.drop 4).drop (length.toNat * 4)).drop (prons.toNat * (2 * length.toNat + 4)), ?_⟩
    · have := length.toNat_lt
      dsimp only
      omega
    · have := prons.toNat_lt
      dsimp only
      omega
    · intro pron hpron
      obtain ⟨row, hrow, rfl⟩ := mem_map.mp hpron
      dsimp only
      rw [hlength, (pronBytes_rowPron (length_of_mem_chunks hrow)).1]
    · have hpronBytes : ((chunks (2 * length.toNat + 4) rows).map (rowPron length.toNat)).flatMap
          pronBytes = rows := by
        calc ((chunks (2 * length.toNat + 4) rows).map (rowPron length.toNat)).flatMap pronBytes
            = (chunks (2 * length.toNat + 4) rows).flatMap fun row => pronBytes (rowPron length.toNat row) :=
              flatMap_map _ _ _
          _ = (chunks (2 * length.toNat + 4) rows).flatMap id :=
              flatMap_congr fun row hrow => (pronBytes_rowPron (length_of_mem_chunks hrow)).2
          _ = rows := by rw [flatMap_id, flatten_chunks_of_length (by omega) hrows]
      rw [bodyBytes]
      dsimp only
      rw [hlength, hprons, hpronBytes, flatMap_le32_chunks htext, le32_word32 hunigram,
        UInt8.ofNat_toNat, UInt8.ofNat_toNat]
      simp only [cons_append, append_assoc, unigram, text, rows, take_append_drop]

/-- A whole item is viewed whatever is behind it. -/
theorem fromBytes_bodyBytes (h : item.Fits) (back : Bytes) :
    fromBytes (bodyBytes item ++ back) = some ⟨bodyBytes item⟩ := by
  have hsize := totalSize_bodyBytes h back
  have hlength := length_bodyBytes h
  have hvalid : validatePhraseItem (bodyBytes item ++ back) = .ok () := by
    rw [validatePhraseItem_eq_ok, hsize, length_append]
    omega
  have hrange : range? (bodyBytes item ++ back) 0 (bodyBytes item).length = some (bodyBytes item) :=
    range?_append [] (bodyBytes item) back rfl (by rw [length_nil, Nat.zero_add])
  rw [fromBytes, hvalid]
  dsimp only
  rw [hsize, hrange, map_some]

theorem decodeProns_bounds {bytes : Bytes} {phraseLength : Nat} :
    ∀ {count offset : Nat} {prons : List (List (BitVec 16) × BitVec 32)}, offset ≤ bytes.length →
      decodeProns bytes phraseLength count offset = .ok prons →
      offset + count * (chewingKeySize * phraseLength + 4) ≤ bytes.length
  | 0, offset, _, hin, _ => by
    rw [Nat.zero_mul]
    exact hin
  | count + 1, offset, prons, hin, h => by
    obtain ⟨area, _, h⟩ := bind_eq_ok h
    obtain ⟨freq, hfreq, h⟩ := bind_eq_ok h
    obtain ⟨rest, hrest, _⟩ := bind_eq_ok h
    have hword : offset + chewingKeySize * phraseLength + 4 ≤ bytes.length := by
      obtain ⟨part, hpart, _⟩ := map_eq_some_iff.mp (okOr_eq_ok hfreq)
      exact (range?_bounds hpart).2
    have hnext := decodeProns_bounds hword hrest
    rw [Nat.succ_mul]
    omega

/-- The decoder reads an item exactly where its bytes are. -/
theorem decodePhraseItem_eq_ok :
    decodePhraseItem bytes = .ok item ↔ item.Fits ∧ ∃ back, bytes = bodyBytes item ++ back := by
  constructor
  · intro h
    have hcopy := h
    obtain ⟨length, hlength, h⟩ := bind_eq_ok h
    obtain ⟨count, hcount, h⟩ := bind_eq_ok h
    obtain ⟨unigram, _, h⟩ := bind_eq_ok h
    obtain ⟨area, harea, h⟩ := bind_eq_ok h
    obtain ⟨prons, hprons, _⟩ := bind_eq_ok h
    have htext : itemHeaderSize + 4 * length ≤ bytes.length := (range?_bounds (okOr_eq_ok harea)).2
    have hrows := decodeProns_bounds htext hprons
    have hsize : totalSize ⟨bytes⟩ =
        itemHeaderSize + 4 * length + count * (chewingKeySize * length + 4) := by
      match bytes with
      | [] => cases hlength
      | [_] => cases hcount
      | l :: c :: rest =>
        obtain rfl : l.toNat = length := Except.ok.inj hlength
        obtain rfl : c.toNat = count := Except.ok.inj hcount
        rw [Nat.mul_comm c.toNat]
        rfl
    obtain ⟨item', hfits, back, rfl⟩ := @exists_bodyBytes bytes (by omega) (by omega)
    rw [decodePhraseItem_bodyBytes hfits] at hcopy
    obtain rfl := Except.ok.inj hcopy
    exact ⟨hfits, back, rfl⟩
  · rintro ⟨hfits, back, rfl⟩
    exact decodePhraseItem_bodyBytes hfits back

theorem fromBytes_eq_some {view : PhraseItemView} :
    fromBytes bytes = some view ↔
      ∃ item : ChunkItem, item.Fits ∧ view = ⟨bodyBytes item⟩ ∧ ∃ back, bytes = bodyBytes item ++ back := by
  constructor
  · intro h
    cases hvalid : validatePhraseItem bytes with
    | error error =>
      rw [fromBytes, hvalid] at h
      cases h
    | ok u =>
      obtain ⟨hheader, hsize⟩ := validatePhraseItem_eq_ok.mp hvalid
      obtain ⟨item, hfits, back, rfl⟩ := exists_bodyBytes hheader hsize
      rw [fromBytes_bodyBytes hfits] at h
      exact ⟨item, hfits, (some.inj h).symm, back, rfl⟩
  · rintro ⟨item, hfits, rfl, back, rfl⟩
    exact fromBytes_bodyBytes hfits back

/-- The decoder and the view take the same items. -/
theorem fromBytes_eq_decode (bytes : Bytes) :
    fromBytes bytes =
      (decodePhraseItem bytes).toOption.map fun item => ⟨bodyBytes item⟩ := by
  refine ext fun view => ?_
  rw [fromBytes_eq_some, map_eq_some_iff]
  constructor
  · rintro ⟨item, hfits, rfl, hback⟩
    exact ⟨item, by rw [decodePhraseItem_eq_ok.mpr ⟨hfits, hback⟩]; rfl, rfl⟩
  · rintro ⟨item, hitem, rfl⟩
    obtain ⟨hfits, hback⟩ := decodePhraseItem_eq_ok.mp (eq_ok_of_toOption hitem)
    exact ⟨item, hfits, rfl, hback⟩

end ChunkFile

end Oxpinyin
