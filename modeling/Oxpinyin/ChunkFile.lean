import Oxpinyin.Inventory
import Oxpinyin.Lib.LittleEndian
import Oxpinyin.Lib.Run

/-!
# Chunk files

A chunk file is a length and a checksum over a payload. The payload of a phrase index holds
a total, an array of offsets by slot and the items the offsets name, each section closed by
a separator. `buildChunk` writes one. `decodeSubPhraseIndex` reads every item at once.

`indexBytes` is the layout by its parts and `bodyBytes` that of one item. Both readers and
both writers are stated over them.
-/

namespace Oxpinyin

open List LittleEndian Run BitVec

namespace ChunkFile

/-! ## The format -/

/-- The slot bits of a token. -/
def phraseMask : BitVec 32 := 0x00FFFFFF

def separator : UInt8 := 35

def chunkHeaderSize : Nat := 8

/-- Where the offset array starts. -/
def indexOne : Nat := 17

/-- Where the first item of the entry area starts. -/
def firstItemOffset : Nat := 8

def itemHeaderSize : Nat := 6

def chewingKeySize : Nat := 2

/-- The words of the payload under exclusive or, the bytes of a partial one in its place. -/
def chunkChecksum (payload : Bytes) : BitVec 32 :=
  let words := (chunks 4 payload).foldl (fun checksum word => checksum ^^^ word32 word) 0
  ((payload.drop (payload.length / 4 * 4)).foldl
    (fun state byte => (state.1 ^^^ byte.toBitVec.setWidth 32 <<< state.2, state.2 + 8))
    (words, 0)).1

/-- A payload its length field cannot hold. -/
structure ChunkFrameError where
  length : Nat
  deriving DecidableEq

/-- The file of a payload. -/
def buildMemoryChunk (payload : Bytes) : Except ChunkFrameError Bytes :=
  if payload.length < 2 ^ 32 then
    .ok (le32 (BitVec.ofNat 32 payload.length) ++ le32 (chunkChecksum payload) ++ payload)
  else .error ⟨payload.length⟩

inductive ChunkReadError where
  | shortHeader
  | truncatedPayload
  | checksumMismatch
  deriving DecidableEq

/-- The payload of a file. The size is narrowed to the width of the length field. -/
def readChunkPayload (bytes : Bytes) : Except ChunkReadError Bytes :=
  match word32At bytes 0, word32At bytes 4 with
  | some length, some checksum =>
    if length ≠ BitVec.ofNat 32 (bytes.length - chunkHeaderSize) then .error .truncatedPayload
    else
      match range? bytes chunkHeaderSize (chunkHeaderSize + length.toNat) with
      | none => .error .truncatedPayload
      | some payload =>
        if chunkChecksum payload ≠ checksum then .error .checksumMismatch else .ok payload
  | _, _ => .error .shortHeader

/-- A chunk file reads back its payload. -/
theorem readChunkPayload_buildMemoryChunk {payload file : Bytes}
    (h : buildMemoryChunk payload = .ok file) : readChunkPayload file = .ok payload := by
  unfold buildMemoryChunk at h
  split_ifs at h with hlength
  obtain rfl := Except.ok.inj h
  set length : BitVec 32 := BitVec.ofNat 32 payload.length with hword
  have hnat : length.toNat = payload.length := by
    rw [hword, toNat_ofNat, Nat.mod_eq_of_lt hlength]
  have hfirst := @word32At_eq _ [] (le32 (chunkChecksum payload) ++ payload) length 0
    (show le32 length ++ le32 (chunkChecksum payload) ++ payload = _ by simp) rfl
  have hsecond := @word32At_eq _ (le32 length) payload (chunkChecksum payload) 4 rfl (by simp)
  have hsize : (le32 length ++ le32 (chunkChecksum payload) ++ payload).length - chunkHeaderSize =
      payload.length := by
    simp [chunkHeaderSize]
    omega
  have hpayload : range? (le32 length ++ le32 (chunkChecksum payload) ++ payload) chunkHeaderSize
      (chunkHeaderSize + length.toNat) = some payload := by
    have hrange := range?_append (le32 length ++ le32 (chunkChecksum payload)) payload []
      (show chunkHeaderSize = _ by simp [chunkHeaderSize])
      (show chunkHeaderSize + length.toNat = _ by simp [chunkHeaderSize, hnat])
    rwa [append_nil] at hrange
  rw [readChunkPayload, hfirst, hsecond]
  simp only [hsize, hpayload, ← hword, ne_eq, not_true_eq_false, if_false]

/-! ## Items -/

variable {α : Type} {message : String}

/-- One phrase entry : its text, its frequency, and its pronunciations with theirs. -/
structure ChunkItem where
  phrase : List (BitVec 32)
  unigram : BitVec 32
  prons : List (List (BitVec 16) × BitVec 32)
  deriving DecidableEq

/-- Why a chunk is not written or read. -/
structure ChunkWriteError where
  message : String
  deriving DecidableEq

/-- The bytes of a pronunciation. -/
def pronBytes (pron : List (BitVec 16) × BitVec 32) : Bytes :=
  pron.1.flatMap le16 ++ le32 pron.2

/-- The bytes of an item. -/
def bodyBytes (item : ChunkItem) : Bytes :=
  UInt8.ofNat item.phrase.length :: UInt8.ofNat item.prons.length ::
    (le32 item.unigram ++ item.phrase.flatMap le32 ++ item.prons.flatMap pronBytes)

/-- The items with such bytes : both counts fit one byte and each reading has a key for
each character. -/
structure ChunkItem.Fits (item : ChunkItem) : Prop where
  phrase : item.phrase.length ≤ 255
  prons : item.prons.length ≤ 255
  keys : ∀ pron ∈ item.prons, pron.1.length = item.phrase.length

/-- `ok_or_else` : what was read, or the message. -/
def okOr {α : Type} (read : Option α) (message : String) : Except ChunkWriteError α :=
  match read with
  | some a => .ok a
  | none => .error ⟨message⟩

@[simp] theorem okOr_some (a : α) (message : String) : okOr (some a) message = .ok a := rfl

theorem okOr_eq_ok {read : Option α} {a : α}
    (h : okOr read message = .ok a) : read = some a := by
  cases read with
  | none => cases h
  | some b => exact congrArg some (Except.ok.inj h)

/-- The pronunciations from an offset on. -/
def decodeProns (bytes : Bytes) (phraseLength : Nat) : Nat → Nat →
    Except ChunkWriteError (List (List (BitVec 16) × BitVec 32))
  | 0, _ => .ok []
  | count + 1, offset => do
    let keysEnd := offset + chewingKeySize * phraseLength
    let keysArea ← okOr (range? bytes offset keysEnd) "phrase item: pronunciation keys truncated"
    let freq ← okOr (word32At bytes keysEnd) "phrase item: pronunciation freq truncated"
    let rest ← decodeProns bytes phraseLength count (keysEnd + 4)
    return ((chunks 2 keysArea).map word16, freq) :: rest

/-- The item at the start of a byte string. -/
def decodePhraseItem (bytes : Bytes) : Except ChunkWriteError ChunkItem := do
  let phraseLength ← okOr (bytes[0]?.map UInt8.toNat) "phrase item: no phrase length byte"
  let nProns ← okOr (bytes[1]?.map UInt8.toNat) "phrase item: no pronunciation count byte"
  let unigram ← okOr (word32At bytes 2) "phrase item: no unigram"
  let phraseEnd := itemHeaderSize + 4 * phraseLength
  let phraseArea ← okOr (range? bytes itemHeaderSize phraseEnd) "phrase item: phrase text truncated"
  let prons ← decodeProns bytes phraseLength nProns phraseEnd
  return ⟨(chunks 4 phraseArea).map word32, unigram, prons⟩

/-- Checks that a byte string holds what the decoder reads. -/
def validatePhraseItem (bytes : Bytes) : Except ChunkWriteError Unit :=
  match bytes[0]?, bytes[1]? with
  | none, _ => .error ⟨"phrase item: no phrase length byte"⟩
  | some _, none => .error ⟨"phrase item: no pronunciation count byte"⟩
  | some length, some prons =>
    let textEnd := itemHeaderSize + 4 * length.toNat
    let keys := chewingKeySize * length.toNat
    let row := keys + 4
    let remaining := bytes.length - textEnd
    if bytes.length < itemHeaderSize then .error ⟨"phrase item: no unigram"⟩
    else if bytes.length < textEnd then .error ⟨"phrase item: phrase text truncated"⟩
    else if remaining < prons.toNat * row then
      .error ⟨if remaining % row < keys then "phrase item: pronunciation keys truncated"
        else "phrase item: pronunciation freq truncated"⟩
    else .ok ()

/-- The readings of a body decode. -/
theorem decodeProns_eq {bytes : Bytes} {phraseLength : Nat} :
    ∀ {prons : List (List (BitVec 16) × BitVec 32)} {front back : Bytes},
      bytes = front ++ prons.flatMap pronBytes ++ back →
      (∀ pron ∈ prons, pron.1.length = phraseLength) →
      decodeProns bytes phraseLength prons.length front.length = .ok prons
  | [], _, _, _, _ => rfl
  | pron :: prons, front, back, hbytes, hkeys => by
    have hlength : (pron.1.flatMap le16).length = chewingKeySize * phraseLength := by
      rw [length_flatMap_le16, hkeys pron mem_cons_self, chewingKeySize, Nat.mul_comm]
    have harea : range? bytes front.length (front.length + chewingKeySize * phraseLength) =
        some (pron.1.flatMap le16) := by
      rw [hbytes, flatMap_cons, pronBytes]
      rw [show front ++ (pron.1.flatMap le16 ++ le32 pron.2 ++ prons.flatMap pronBytes) ++ back =
        front ++ pron.1.flatMap le16 ++ (le32 pron.2 ++ prons.flatMap pronBytes ++ back) by simp]
      exact range?_append _ _ _ rfl (by rw [hlength])
    have hfreq := @word32At_eq bytes (front ++ pron.1.flatMap le16) (prons.flatMap pronBytes ++ back)
      pron.2 (front.length + chewingKeySize * phraseLength) (by simp [hbytes, pronBytes])
      (by rw [length_append, hlength])
    have hrest := @decodeProns_eq bytes phraseLength prons (front ++ pronBytes pron) back
      (by simp [hbytes]) fun p hp => hkeys p (mem_cons_of_mem _ hp)
    have hnext : (front ++ pronBytes pron).length =
        front.length + chewingKeySize * phraseLength + 4 := by
      rw [pronBytes, length_append, length_append, hlength, length_le32, Nat.add_assoc]
    rw [hnext] at hrest
    simp only [length_cons, decodeProns, harea, hfreq, hrest, okOr_some, bind, Except.bind, pure,
      Except.pure, map_word16_chunks]

theorem toNat_ofNat_of_le {n : Nat} (h : n ≤ 255) : (UInt8.ofNat n).toNat = n := by
  rw [UInt8.toNat_ofNat', Nat.mod_eq_of_lt (by omega)]

variable {item : ChunkItem}

/-- The fields of an item at the start of a byte string. -/
theorem body_parts (h : item.Fits) (back : Bytes) :
    (bodyBytes item ++ back)[0]? = some (UInt8.ofNat item.phrase.length) ∧
    (bodyBytes item ++ back)[1]? = some (UInt8.ofNat item.prons.length) ∧
    word32At (bodyBytes item ++ back) 2 = some item.unigram ∧
    range? (bodyBytes item ++ back) itemHeaderSize (itemHeaderSize + 4 * (UInt8.ofNat item.phrase.length).toNat) =
        some (item.phrase.flatMap le32) ∧
    decodeProns (bodyBytes item ++ back) (UInt8.ofNat item.phrase.length).toNat
      (UInt8.ofNat item.prons.length).toNat
      (itemHeaderSize + 4 * (UInt8.ofNat item.phrase.length).toNat) = .ok item.prons := by
  rw [toNat_ofNat_of_le h.phrase, toNat_ofNat_of_le h.prons]
  refine ⟨rfl, rfl, ?_, ?_, ?_⟩
  · exact @word32At_eq _ [UInt8.ofNat item.phrase.length, UInt8.ofNat item.prons.length]
      (item.phrase.flatMap le32 ++ item.prons.flatMap pronBytes ++ back) _ _ (by simp [bodyBytes]) rfl
  · have hcut : bodyBytes item ++ back =
        (UInt8.ofNat item.phrase.length :: UInt8.ofNat item.prons.length :: le32 item.unigram) ++
          item.phrase.flatMap le32 ++ (item.prons.flatMap pronBytes ++ back) := by simp [bodyBytes]
    rw [hcut]
    exact range?_append _ _ _ (by simp [itemHeaderSize]) (by simp [itemHeaderSize]; omega)
  · have hcut : bodyBytes item ++ back =
        (UInt8.ofNat item.phrase.length :: UInt8.ofNat item.prons.length ::
          (le32 item.unigram ++ item.phrase.flatMap le32)) ++ item.prons.flatMap pronBytes ++ back := by
      simp [bodyBytes]
    have hprons := decodeProns_eq hcut h.keys
    have hat : (UInt8.ofNat item.phrase.length :: UInt8.ofNat item.prons.length ::
        (le32 item.unigram ++ item.phrase.flatMap le32)).length =
        itemHeaderSize + 4 * item.phrase.length := by
      simp [itemHeaderSize]
      omega
    rwa [hat] at hprons

/-- An item is read back from its bytes, whatever is behind them. -/
theorem decodePhraseItem_bodyBytes (h : item.Fits) (back : Bytes) :
    decodePhraseItem (bodyBytes item ++ back) = .ok item := by
  obtain ⟨hfirst, hsecond, hunigram, hphrase, hprons⟩ := body_parts h back
  have hphraseArea : (chunks 4 (item.phrase.flatMap le32)).map word32 = item.phrase := map_word32_chunks item.phrase
  simp only [decodePhraseItem, hfirst, hsecond, hunigram, hphrase, hprons, hphraseArea,
    Option.map_some, okOr_some, bind, Except.bind, pure, Except.pure]

/-! ## Writing -/

/-- A slot as the messages print it. -/
def hex (x : BitVec 32) : String := "0x" ++ x.toHex

/-- What the writer has so far. -/
structure ChunkBuild where
  content : Bytes
  offsets : List (BitVec 32)
  total : Nat
  lastSlot : Option (BitVec 32)

/-- Appends the pronunciations of an item. -/
def pushProns (slot : BitVec 32) (phraseLength : Nat) (content : Bytes)
    (prons : List (List (BitVec 16) × BitVec 32)) : Except ChunkWriteError Bytes :=
  prons.foldlM (fun content pron =>
    if pron.1.length ≠ phraseLength then
      .error ⟨s!"chunk slot {hex slot} pronunciation has {pron.1.length} keys for a {phraseLength}-character phrase"⟩
    else .ok (content ++ pron.1.flatMap le16 ++ le32 pron.2)) content

/-- Refuses what fails a check. -/
def require (check : Prop) [Decidable check] (message : String) : Except ChunkWriteError Unit :=
  if check then .ok () else .error ⟨message⟩

theorem require_eq_ok {check : Prop} [Decidable check] {u : Unit}
    (h : require check message = .ok u) : check := by
  unfold require at h
  split_ifs at h with hcheck
  exact hcheck

/-- Refuses a slot not above the last one. -/
def requireAscending (lastSlot : Option (BitVec 32)) (slot : BitVec 32) : Except ChunkWriteError Unit :=
  match lastSlot.filter fun prev => decide (slot ≤ prev) with
  | some prev => .error ⟨s!"chunk slots not ascending: {hex slot} after {hex prev}"⟩
  | none => .ok ()

/-- The entry area, its first bytes reserved with the first item. -/
def reserve (content : Bytes) : Bytes :=
  if content = [] then List.replicate firstItemOffset 0 else content

/-- One entry of the writer's list. -/
def pushItem (build : ChunkBuild) (entry : BitVec 32 × ChunkItem) :
    Except ChunkWriteError ChunkBuild := do
  let slot := entry.1
  let item := entry.2
  let phraseLen := item.phrase.length
  require (slot ≤ phraseMask) s!"chunk slot {hex slot} exceeds PHRASE_MASK"
  requireAscending build.lastSlot slot
  require (phraseLen ≠ 0 ∧ phraseLen ≤ 255)
    s!"chunk slot {hex slot} phrase length {phraseLen} out of range"
  require (item.prons.length ≤ 255) s!"chunk slot {hex slot} has {item.prons.length} pronunciations"
  let content := reserve build.content
  require (content.length < 2 ^ 32) s!"chunk slot {hex slot} offset overflows u32"
  let offsets := (resize build.offsets (slot.toNat + 1) 0).set slot.toNat
    (BitVec.ofNat 32 content.length)
  let pushed ← pushProns slot phraseLen
    (content ++ [UInt8.ofNat phraseLen, UInt8.ofNat item.prons.length] ++ le32 item.unigram ++
      item.phrase.flatMap le32) item.prons
  return ⟨pushed, offsets, build.total + item.unigram.toNat, some slot⟩

/-- A length as a word, the largest where it does not fit. -/
def u32OrMax (n : Nat) : BitVec 32 := if n < 2 ^ 32 then BitVec.ofNat 32 n else BitVec.allOnes 32

/-- The chunk file of a list of items, ascending by slot. -/
def buildChunk (items : List (BitVec 32 × ChunkItem)) : Except ChunkWriteError Bytes := do
  let build ← items.foldlM pushItem ⟨[], [], 0, none⟩
  if 2 ^ 32 ≤ build.total then .error ⟨"chunk total_freq overflows u32"⟩
  else
    let indexTwo : BitVec 32 := BitVec.ofNat 32 indexOne + u32OrMax (build.offsets.length * 4) + 1
    let indexThree : BitVec 32 := indexTwo + u32OrMax build.content.length + 1
    let payload := le32 (BitVec.ofNat 32 build.total) ++ le32 (BitVec.ofNat 32 indexOne) ++
      le32 indexTwo ++ le32 indexThree ++ [separator] ++ build.offsets.flatMap le32 ++ [separator] ++
      build.content ++ [separator]
    match buildMemoryChunk payload with
    | .ok file => .ok file
    | .error error => .error ⟨s!"payload of {error.length} bytes exceeds the u32 length field"⟩

/-! ## Reading -/

/-- The total, the offset array and the entry area of a payload. -/
def subPhraseIndexSections (payload : Bytes) : Except ChunkWriteError (BitVec 32 × Bytes × Bytes) :=
  match word32At payload 0, word32At payload 4, word32At payload 8, word32At payload 12 with
  | some total, some one, some two, some three =>
    let indexTwo := two.toNat
    let indexThree := three.toNat
    if payload[indexOne - 1]? ≠ some separator then
      .error ⟨"sub phrase index: no lead separator"⟩
    else if one.toNat ≠ indexOne then
      .error ⟨s!"sub phrase index: index_one {one.toNat} is not the header end"⟩
    else if indexTwo = 0 ∨ payload[indexTwo - 1]? ≠ some separator then
      .error ⟨"sub phrase index: no offset separator"⟩
    else if indexThree = 0 ∨ payload[indexThree - 1]? ≠ some separator then
      .error ⟨"sub phrase index: no entry separator"⟩
    else if payload.length < indexThree then
      .error ⟨"sub phrase index: past the payload end"⟩
    else
      match range? payload one.toNat (indexTwo - 1), range? payload indexTwo (indexThree - 1) with
      | none, _ => .error ⟨"sub phrase index: no offset array"⟩
      | some _, none => .error ⟨"sub phrase index: no entry area"⟩
      | some offsetArray, some entryArea => .ok (total, offsetArray, entryArea)
  | _, _, _, _ => .error ⟨"sub phrase index: short header"⟩

/-- The item a slot's offset names, none for the empty slot. -/
def decodeSlot (entryArea : Bytes) (slot : Nat) (window : Bytes) :
    Except ChunkWriteError (Option (BitVec 32 × ChunkItem)) :=
  let offset := (word32 window).toNat
  if offset = 0 then .ok none
  else if entryArea.length < offset then
    .error ⟨s!"sub phrase index: slot {slot} offset out of range"⟩
  else
    match decodePhraseItem (entryArea.drop offset) with
    | .ok item => .ok (some (BitVec.ofNat 32 slot, item))
    | .error error =>
      .error ⟨s!"sub phrase index: slot {slot}: chunk write error: {error.message}"⟩

/-- The total and the items of a payload, ascending by slot. -/
def decodeSubPhraseIndex (payload : Bytes) :
    Except ChunkWriteError (BitVec 32 × List (BitVec 32 × ChunkItem)) := do
  let sections ← subPhraseIndexSections payload
  let items ← (chunks 4 sections.2.1).zipIdx.foldlM (fun items window =>
    (decodeSlot sections.2.2 window.2 window.1).map fun found => items ++ found.toList) []
  return (sections.1, items)

/-! ## The layout -/

/-- A payload by its parts. -/
def indexBytes (total : BitVec 32) (offsetArray entryArea : Bytes) : Bytes :=
  le32 total ++ le32 (BitVec.ofNat 32 indexOne) ++
    le32 (BitVec.ofNat 32 (indexOne + offsetArray.length + 1)) ++
    le32 (BitVec.ofNat 32 (indexOne + offsetArray.length + 1 + entryArea.length + 1)) ++
    [separator] ++ offsetArray ++ [separator] ++ entryArea ++ [separator]

theorem length_indexBytes (total : BitVec 32) (offsets area : Bytes) :
    (indexBytes total offsets area).length = indexOne + offsets.length + 1 + area.length + 1 := by
  simp [indexBytes, indexOne]
  omega

/-- What a reader meets in a payload : the header words, the separators and the sections. -/
structure Sections (payload : Bytes) (total : BitVec 32) (offsets area : Bytes) : Prop where
  totalWord : word32At payload 0 = some total
  one : word32At payload 4 = some (BitVec.ofNat 32 indexOne)
  two : ∃ two, word32At payload 8 = some two ∧ two.toNat = indexOne + offsets.length + 1
  three : ∃ three, word32At payload 12 = some three ∧
    three.toNat = indexOne + offsets.length + 1 + area.length + 1
  lead : payload[indexOne - 1]? = some separator
  middle : payload[indexOne + offsets.length]? = some separator
  last : payload[indexOne + offsets.length + 1 + area.length]? = some separator
  length : payload.length = indexOne + offsets.length + 1 + area.length + 1
  offsetRange : range? payload indexOne (indexOne + offsets.length) = some offsets
  areaRange : range? payload (indexOne + offsets.length + 1)
    (indexOne + offsets.length + 1 + area.length) = some area

/-- The sections of a built payload. -/
theorem sections_indexBytes {total : BitVec 32} {offsets area : Bytes}
    (h : (indexBytes total offsets area).length < 2 ^ 32) :
    Sections (indexBytes total offsets area) total offsets area := by
  have hlength := length_indexBytes total offsets area
  set two : BitVec 32 := BitVec.ofNat 32 (indexOne + offsets.length + 1) with htwo
  set three : BitVec 32 := BitVec.ofNat 32 (indexOne + offsets.length + 1 + area.length + 1) with hthree
  have hbytes : indexBytes total offsets area =
      le32 total ++ le32 (BitVec.ofNat 32 indexOne) ++ le32 two ++ le32 three ++ [separator] ++
        offsets ++ [separator] ++ area ++ [separator] := rfl
  refine ⟨?_, ?_, ⟨two, ?_, ?_⟩, ⟨three, ?_, ?_⟩, ?_, ?_, ?_, hlength, ?_, ?_⟩
  · exact @word32At_eq _ [] (le32 (BitVec.ofNat 32 indexOne) ++ le32 two ++ le32 three ++
      [separator] ++ offsets ++ [separator] ++ area ++ [separator]) _ _ (by simp [hbytes]) rfl
  · exact @word32At_eq _ (le32 total) (le32 two ++ le32 three ++ [separator] ++ offsets ++
      [separator] ++ area ++ [separator]) _ _ (by simp [hbytes]) (by simp)
  · exact @word32At_eq _ (le32 total ++ le32 (BitVec.ofNat 32 indexOne)) (le32 three ++ [separator] ++
      offsets ++ [separator] ++ area ++ [separator]) _ _ (by simp [hbytes]) (by simp)
  · rw [htwo, toNat_ofNat, Nat.mod_eq_of_lt (by omega)]
  · exact @word32At_eq _ (le32 total ++ le32 (BitVec.ofNat 32 indexOne) ++ le32 two) ([separator] ++
      offsets ++ [separator] ++ area ++ [separator]) _ _ (by simp [hbytes]) (by simp)
  · rw [hthree, toNat_ofNat, Nat.mod_eq_of_lt (by omega)]
  · exact getElem?_append_cons (le32 total ++ le32 (BitVec.ofNat 32 indexOne) ++ le32 two ++ le32 three)
      (offsets ++ [separator] ++ area ++ [separator]) (by simp [hbytes]) (by simp [indexOne])
  · exact getElem?_append_cons (le32 total ++ le32 (BitVec.ofNat 32 indexOne) ++ le32 two ++ le32 three ++
      [separator] ++ offsets) (area ++ [separator]) (by simp [hbytes]) (by simp [indexOne]; omega)
  · exact getElem?_append_cons (le32 total ++ le32 (BitVec.ofNat 32 indexOne) ++ le32 two ++ le32 three ++
      [separator] ++ offsets ++ [separator] ++ area) [] (by simp [hbytes]) (by simp [indexOne]; omega)
  · rw [hbytes]
    rw [show ∀ a b : Bytes, a ++ [separator] ++ offsets ++ [separator] ++ area ++ b =
      (a ++ [separator]) ++ offsets ++ ([separator] ++ area ++ b) by simp]
    exact range?_append _ _ _ (by simp [indexOne]) (by simp [indexOne])
  · rw [hbytes]
    exact range?_append _ _ _ (by simp [indexOne]; omega) (by simp [indexOne]; omega)

end ChunkFile

end Oxpinyin
