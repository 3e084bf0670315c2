import Oxpinyin.ItemEdits
import Oxpinyin.LiveDiff
import Oxpinyin.Lib.Margins
import Mathlib.Data.BitVec
import Mathlib.Data.FinEnum

/-!
# A live buffer as a map of items

A shelf is the items of a library by slot and their total, and every edit of a live buffer is an
edit of its shelf (`Shows.step`) : a new item, an item taken out, a delta on an item's frequency,
and a delta on its readings. Each touches one slot, wherever the buffer keeps its bytes. The total
is the sum of the readable frequencies, and the range ends behind the last item.
-/

namespace Oxpinyin.Replay

open List Option Function LittleEndian ChunkFile Run Margins ReplayedLibrary Content

namespace ReplayedLibrary

/-- The frequency of a slot's item. -/
def unigram (library : ReplayedLibrary) (slot : BitVec 32) : Option (BitVec 32) :=
  match library.content.visible slot with
  | .item offset _ =>
    match library.content.byte (offset + 2), library.content.byte (offset + 3), library.content.byte (offset + 4),
      library.content.byte (offset + 5) with
    | some b0, some b1, some b2, some b3 => some (word32 [b0, b1, b2, b3])
    | _, _, _, _ => none
  | _ => none

/-- The sum of the readable items' frequencies over the range. -/
def readableUnigramSum (library : ReplayedLibrary) : BitVec 32 :=
  (List.range' 1 (library.rangeEnd - 1)).foldl
    (fun sum slot => sum + (library.unigram (BitVec.ofNat 32 slot)).getD 0) 0

end ReplayedLibrary

/-! ## Items by slot -/

/-- The items of a library and their total. -/
structure Shelf where
  items : BitVec 32 → Option ChunkItem
  total : BitVec 32

namespace Shelf

/-- The readings of an item trained, query by query. -/
def trained (readings : List (List ChewingKey)) (delta : BitVec 32) (item : ChunkItem) : ChunkItem :=
  { item with prons := readings.foldl (fun prons query => trainReadings query delta 0 prons) item.prons }

/-- An edit of the items. -/
def apply (shelf : Shelf) : LiveOp → Shelf
  | .addItem slot payload =>
    let item := (decodePhraseItem payload).toOption
    ⟨Function.update shelf.items slot item, shelf.total + item.elim 0 ChunkItem.unigram⟩
  | .removeItem slot =>
    ⟨Function.update shelf.items slot none, shelf.total - (shelf.items slot).elim 0 ChunkItem.unigram⟩
  | .addUnigram slot delta =>
    match shelf.items slot with
    | none => shelf
    | some item =>
      if 2 ^ 32 ≤ shelf.total.toNat + delta.toNat then shelf
      else ⟨Function.update shelf.items slot (some { item with unigram := item.unigram + delta }),
        shelf.total + delta⟩
  | .train slot readings delta =>
    ⟨Function.update shelf.items slot ((shelf.items slot).map (trained readings delta)), shelf.total⟩

end Shelf

open Oxpinyin.Replay.Shelf

/-! ## The bytes of an item in a buffer -/

variable {item : ChunkItem}

theorem Shelf.fits_trained (readings : List (List ChewingKey)) (delta : BitVec 32) :
    ∀ {item : ChunkItem}, item.Fits → (trained readings delta item).Fits := by
  induction readings with
  | nil => exact fun h => h
  | cons reading rest ih =>
    intro item h
    exact ih (fits_of_keys h (trainReadings_keys reading delta 0 item.prons)).1

/-- A byte string that is as long as its header says is an item. -/
theorem Exact.exists_item {bytes : Bytes} (h : Exact bytes) :
    ∃ item : ChunkItem, item.Fits ∧ bodyBytes item = bytes := by
  obtain ⟨hroom, length, prons, hlength, hprons, hheader⟩ := h.header
  have hsize : PhraseItemView.totalSize ⟨bytes⟩ = bytes.length := by
    rw [totalSize_eq, hlength, hprons, getD_some, getD_some, hheader]
  obtain ⟨item, hfits, back, hbytes⟩ := exists_bodyBytes hroom hsize.le
  have hback : back = [] := by
    rw [hbytes, totalSize_bodyBytes hfits, length_append] at hsize
    exact eq_nil_of_length_eq_zero (by omega)
  rw [hback, append_nil] at hbytes
  exact ⟨item, hfits, hbytes.symm⟩

theorem exact_bodyBytes (h : item.Fits) : Exact (bodyBytes item) := by
  have hsize := totalSize_bodyBytes h []
  rw [append_nil, totalSize_eq] at hsize
  exact congrArg some hsize

theorem decode_bodyBytes (h : item.Fits) : (decodePhraseItem (bodyBytes item)).toOption = some item := by
  have hdecode := decodePhraseItem_bodyBytes h []
  rw [append_nil] at hdecode
  rw [hdecode]
  rfl

theorem rawUnigram_bodyBytes (h : item.Fits) : rawUnigram (bodyBytes item) = item.unigram := by
  obtain ⟨_, _, hword, _⟩ := body_parts h []
  rw [append_nil] at hword
  rw [rawUnigram, hword, getD_some]

theorem overwrite_unigram (item : ChunkItem) (unigram : BitVec 32) :
    LittleEndian.overwrite (bodyBytes item) 2 (le32 unigram) = bodyBytes { item with unigram := unigram } :=
  overwrite_append [UInt8.ofNat item.phrase.length, UInt8.ofNat item.prons.length] (le32 item.unigram)
    (item.phrase.flatMap le32 ++ item.prons.flatMap pronBytes) _ (by rw [length_le32, length_le32])

/-- Four bytes of a string and the word they make. -/
theorem exists_four {bytes : Bytes} {pos : Nat} (h : pos + 4 ≤ bytes.length) :
    ∃ b0 b1 b2 b3, bytes[pos]? = some b0 ∧ bytes[pos + 1]? = some b1 ∧ bytes[pos + 2]? = some b2 ∧
      bytes[pos + 3]? = some b3 ∧ word32At bytes pos = some (word32 [b0, b1, b2, b3]) := by
  refine ⟨_, _, _, _, getElem?_eq_getElem (by omega), getElem?_eq_getElem (by omega),
    getElem?_eq_getElem (by omega), getElem?_eq_getElem (by omega), ?_⟩
  rw [word32At_eq_wordOf h, wordOf]
  simp only [getElem?_eq_getElem (show pos < bytes.length by omega),
    getElem?_eq_getElem (show pos + 1 < bytes.length by omega),
    getElem?_eq_getElem (show pos + 2 < bytes.length by omega),
    getElem?_eq_getElem (show pos + 3 < bytes.length by omega), getD_some]

/-- A write that leaves the words, the sizes and the total. -/
structure Rewritten (before after : Content) : Prop where
  word : after.word = before.word
  dataLen : after.dataLen = before.dataLen
  slots : after.slots = before.slots
  total : after.total = before.total

theorem Rewritten.trans {a b c : Content} (hab : Rewritten a b) (hbc : Rewritten b c) : Rewritten a c :=
  ⟨hbc.word.trans hab.word, hbc.dataLen.trans hab.dataLen, hbc.slots.trans hab.slots, hbc.total.trans hab.total⟩

namespace Holds

variable {content : Content} {room : BitVec 32 → Nat} {m : BitVec 32 → Option Bytes} {slot : BitVec 32}

/-- A byte of an item. -/
theorem byte_eq (h : Holds content room m) {bytes : Bytes} (hslot : m slot = some bytes) {i : Nat}
    (hi : i < bytes.length) : content.byte ((content.word slot).toNat + i) = bytes[i]? := by
  have hfits := h.fits slot bytes hslot
  have hinside := h.inside slot bytes hslot
  have hcapacity := Nat.le_trans h.shaped.items.dataEnd_le h.shaped.items.length_le
  rw [dataLen] at hinside
  rw [byte, h.shaped.items.byte_eq, if_pos (by omega), h.span slot bytes hslot i hi]
  rfl

/-- Bytes written over a part of a slot's item. -/
theorem patch (h : Holds content room m) {old bytes : Bytes} (hold : m slot = some old) {pos : Nat}
    (hpos : pos + bytes.length ≤ old.length) (hexact : Exact (LittleEndian.overwrite old pos bytes)) :
    ∃ after, content.write ((content.word slot).toNat + pos) bytes = some after ∧ Rewritten content after ∧
      Holds after room (update m slot (some (LittleEndian.overwrite old pos bytes))) := by
  have hfits := h.fits slot old hold
  have hinside := h.inside slot old hold
  have hcapacity := Nat.le_trans h.shaped.items.dataEnd_le h.shaped.items.length_le
  have hlength := length_overwrite old bytes pos hpos
  obtain ⟨after, hwrite⟩ := @h.shaped.exists_write _ ((content.word slot).toNat + pos) bytes (by
    rw [dataLen] at hinside
    omega)
  obtain ⟨hshaped, hread, hword, hlen, _, _, htotal⟩ := h.shaped.write hwrite
  have hslots : after.slots = content.slots := by
    obtain ⟨written, _, rfl⟩ := map_eq_some_iff.mp hwrite
    rfl
  refine ⟨after, hwrite, ⟨hword, hlen, hslots, htotal⟩, ?_⟩
  have hput := @h.put _ _ _ slot after hshaped (LittleEndian.overwrite old pos bytes) (room slot)
    (fun other _ => by rw [hword]) (by rw [hword]; exact h.named slot old hold) hexact (by rw [hlength]; exact hfits)
    (by rw [hword, hlen]; exact hinside) hlen.ge
    (fun i hi => by
      rw [hlength] at hi
      rw [hword, hread, getElem?_overwrite hpos]
      split_ifs with hin
      · have hat : (content.word slot).toNat + i = (content.word slot).toNat + pos + (i - pos) := by omega
        rw [hat, splice_at (by omega), getElem?_eq_getElem (by omega), getD_some]
      · rw [h.span slot old hold i hi]
        rcases Nat.lt_or_ge i pos with hlt | hge
        · rw [splice_of_lt (by omega)]
        · rw [splice_of_le (by omega)])
    (fun other item hne hitem => by
      have hroom := h.fits other item hitem
      have hapart := h.apart slot other old item hne.symm hold hitem
      rw [hword]
      refine ⟨hapart, fun i hi => ?_⟩
      rw [hread]
      rcases hapart with hbefore | hbehind
      · exact splice_of_le (by omega)
      · exact splice_of_lt (by omega))
  rwa [update_eq_self] at hput

/-- Where one reading of a slot's item is, and what its bytes say. -/
theorem reading_at (h : Holds content room m) {item : ChunkItem} (hslot : m slot = some (bodyBytes item))
    (hfits : item.Fits) {done rest : List Pron} {pron : Pron} (hprons : item.prons = done ++ pron :: rest)
    {first keysAt : Nat} (hfirst : first = (content.word slot).toNat + phraseItemHeader + 4 * item.phrase.length)
    (hkeys : keysAt = first + done.length * (2 * item.phrase.length + 4)) :
    (content.byte (keysAt + 2 * item.phrase.length + 3)).isSome ∧
      word32 [(content.byte (keysAt + 2 * item.phrase.length)).getD 0,
        (content.byte (keysAt + 2 * item.phrase.length + 1)).getD 0,
        (content.byte (keysAt + 2 * item.phrase.length + 2)).getD 0,
        (content.byte (keysAt + 2 * item.phrase.length + 3)).getD 0] = pron.2 ∧
      (range item.phrase.length).map (fun key => word16 [(content.byte (keysAt + 2 * key)).getD 0,
        (content.byte (keysAt + 2 * key + 1)).getD 0]) = pron.1 := by
  obtain ⟨left, right, hleft, hwide, hbody, _⟩ := bodyBytes_around hfits hprons
  rw [itemHeaderSize] at hleft
  rw [phraseItemHeader] at hfirst
  have hlength : (bodyBytes item).length = left.length + 2 * item.phrase.length + 4 + right.length := by
    rw [hbody, length_append, length_append, length_append, hwide, length_le32]
  have hat : keysAt = (content.word slot).toNat + left.length := by omega
  have hbyte : ∀ {i : Nat}, i < 2 * item.phrase.length + 4 →
      content.byte (keysAt + i) = (bodyBytes item)[left.length + i]? := by
    intro i hi
    rw [hat, Nat.add_assoc]
    exact h.byte_eq hslot (by omega)
  have hword : word32At (bodyBytes item) (left.length + 2 * item.phrase.length) = some pron.2 :=
    @word32At_eq _ (left ++ pron.1.flatMap le16) right _ _ hbody (by rw [length_append, hwide])
  obtain ⟨b0, b1, b2, b3, h0, h1, h2, h3, hfour⟩ :=
    @exists_four (bodyBytes item) (left.length + 2 * item.phrase.length) (by omega)
  rw [hword] at hfour
  refine ⟨?_, ?_, ?_⟩
  · rw [Nat.add_assoc, hbyte (by omega), ← Nat.add_assoc, h3]
    rfl
  · rw [Nat.add_assoc _ _ 1, Nat.add_assoc _ _ 2, Nat.add_assoc _ _ 3, hbyte (by omega), hbyte (by omega),
      hbyte (by omega), hbyte (by omega), ← Nat.add_assoc, ← Nat.add_assoc, ← Nat.add_assoc, h0, h1, h2, h3]
    exact (some.inj hfour).symm
  · have hchunks := map_word16_chunks pron.1
    rw [chunks, hwide, Nat.mul_div_cancel_left _ (by omega), List.map_map] at hchunks
    refine Eq.trans (map_congr_left fun key hkey => ?_) hchunks
    have hlt := mem_range.mp hkey
    have hget : ∀ {i : Nat}, i < 2 * item.phrase.length → (bodyBytes item)[left.length + i]? =
        (pron.1.flatMap le16)[i]? := by
      intro i hi
      rw [hbody, append_assoc, append_assoc, getElem?_append_right (by omega), Nat.add_sub_cancel_left,
        getElem?_append_left (by rw [hwide]; exact hi)]
    rw [Nat.add_assoc, hbyte (by omega), hbyte (by omega), hget (by omega), hget (by omega), comp_apply,
      Nat.mul_comm key 2]
    have hpair : ((pron.1.flatMap le16).drop (2 * key)).take 2 =
        [((pron.1.flatMap le16)[2 * key]?).getD 0, ((pron.1.flatMap le16)[2 * key + 1]?).getD 0] := by
      rw [getElem?_eq_getElem (by rw [hwide]; omega), getElem?_eq_getElem (by rw [hwide]; omega),
        drop_eq_getElem_cons (by rw [hwide]; omega), drop_eq_getElem_cons (by rw [hwide]; omega)]
      rfl
    rw [hpair]

/-- One query over the readings of a slot's item, from a place on. -/
theorem trainEntries (query : List ChewingKey) (delta : BitVec 32) {first : Nat} :
    ∀ (rest done : List Pron) {item : ChunkItem} (sum : BitVec 32) {content : Content} {m : BitVec 32 → Option Bytes},
      Holds content room m → m slot = some (bodyBytes item) → item.Fits → item.prons = done ++ rest →
      first = (content.word slot).toNat + phraseItemHeader + 4 * item.phrase.length →
      Rewritten content (trainEntries query delta first item.phrase.length rest.length done.length sum
          content) ∧
        Holds (trainEntries query delta first item.phrase.length rest.length done.length sum content)
          room (update m slot
            (some (bodyBytes { item with prons := done ++ trainReadings query delta sum rest })))
  | [], done, item, sum, content, m, h, hslot, _, hprons, _ => by
    rw [length_nil, ReplayedLibrary.trainEntries, trainReadings, ← hprons, ← hslot, update_eq_self]
    exact ⟨⟨rfl, rfl, rfl, rfl⟩, h⟩
  | pron :: rest, done, item, sum, content, m, h, hslot, hfits, hprons, hfirst => by
    obtain ⟨hsome, hcount, hwords⟩ := h.reading_at hslot hfits hprons hfirst rfl
    rw [length_cons, ReplayedLibrary.trainEntries, trainReadings]
    dsimp only
    rw [if_neg (by rw [← not_isSome, hsome]; decide), hcount, hwords]
    by_cases hmatch : pronunciationMatches query pron.1 = true
    · rw [if_neg (by rw [hmatch]; decide), if_pos hmatch]
      by_cases hroom : (sum + pron.2).toNat + delta.toNat < 2 ^ 32
      · rw [if_neg (Nat.not_le.mpr hroom), if_pos hroom]
        obtain ⟨left, right, hleft, hwide, hbody, hedited⟩ := bodyBytes_around hfits hprons
        rw [itemHeaderSize] at hleft
        rw [phraseItemHeader] at hfirst
        have hfour := length_le32 (pron.2 + delta)
        have hlength : (bodyBytes item).length = left.length + 2 * item.phrase.length + 4 + right.length := by
          rw [hbody, length_append, length_append, length_append, hwide, length_le32]
        have hat : first + done.length * (2 * item.phrase.length + 4) + 2 * item.phrase.length =
            (content.word slot).toNat + (left.length + 2 * item.phrase.length) := by omega
        have hover : LittleEndian.overwrite (bodyBytes item) (left.length + 2 * item.phrase.length)
            (le32 (pron.2 + delta)) = bodyBytes { item with prons := done ++ (pron.1, pron.2 + delta) :: rest } := by
          have hplace : left.length + 2 * item.phrase.length = (left ++ pron.1.flatMap le16).length := by
            rw [length_append, hwide]
          rw [hedited, hbody, hplace]
          exact overwrite_append _ _ _ _ (by rw [length_le32, length_le32])
        have hnew := (@fits_of_keys item (done ++ (pron.1, pron.2 + delta) :: rest) hfits (by simp [hprons])).1
        obtain ⟨after, hwrite, hsame, hafter⟩ := @h.patch _ _ _ slot (bodyBytes item) (le32 (pron.2 + delta)) hslot
          (left.length + 2 * item.phrase.length) (by omega) (by rw [hover]; exact exact_bodyBytes hnew)
        rw [hover] at hafter
        rw [hat, hwrite, getD_some]
        have hnext := @trainEntries query delta first rest (done ++ [(pron.1, pron.2 + delta)])
          { item with prons := done ++ (pron.1, pron.2 + delta) :: rest } (sum + pron.2 + delta) after _ hafter
          (update_self _ _ _) hnew (by simp) (by rw [hsame.word]; exact hfirst)
        rw [length_append, length_singleton, update_idem] at hnext
        refine ⟨hsame.trans hnext.1, ?_⟩
        have hmap := hnext.2
        rw [append_assoc, singleton_append] at hmap
        exact hmap
      · rw [if_pos (Nat.not_lt.mp hroom), if_neg hroom, ← hprons, ← hslot, update_eq_self]
        exact ⟨⟨rfl, rfl, rfl, rfl⟩, h⟩
    · rw [if_pos (by rw [Bool.eq_false_of_not_eq_true hmatch]; rfl), if_neg hmatch]
      have hnext := @trainEntries query delta first rest (done ++ [pron]) item (sum + pron.2) content m h hslot hfits
        (by simp [hprons]) hfirst
      rw [length_append, length_singleton] at hnext
      refine ⟨hnext.1, ?_⟩
      have hmap := hnext.2
      rw [append_assoc, singleton_append] at hmap
      exact hmap

/-- All queries over the readings of a slot's item. -/
theorem trainAll (delta : BitVec 32) {first : Nat} :
    ∀ (readings : List (List ChewingKey)) {item : ChunkItem} {content : Content} {m : BitVec 32 → Option Bytes},
      Holds content room m → m slot = some (bodyBytes item) → item.Fits →
      first = (content.word slot).toNat + phraseItemHeader + 4 * item.phrase.length →
      Rewritten content (readings.foldl (fun content reading => ReplayedLibrary.trainEntries reading delta first
          item.phrase.length item.prons.length 0 0 content) content) ∧
        Holds (readings.foldl (fun content reading => ReplayedLibrary.trainEntries reading delta first
          item.phrase.length item.prons.length 0 0 content) content) room
          (update m slot (some (bodyBytes (trained readings delta item))))
  | [], item, content, m, h, hslot, _, _ => by
    rw [trained, foldl_nil, foldl_nil, ← hslot, update_eq_self]
    exact ⟨⟨rfl, rfl, rfl, rfl⟩, h⟩
  | reading :: rest, item, content, m, h, hslot, hfits, hfirst => by
    obtain ⟨hsame, hafter⟩ := @trainEntries room slot reading delta first item.prons
      [] item 0 content m h hslot hfits rfl
      hfirst
    rw [nil_append] at hafter
    have hkeys := trainReadings_keys reading delta 0 item.prons
    have hcount : (trainReadings reading delta 0 item.prons).length = item.prons.length := by
      simpa using congrArg length hkeys
    have hnext := @trainAll delta first rest
      { item with prons := trainReadings reading delta 0 item.prons } _ _ hafter
      (update_self _ _ _) (fits_of_keys hfits hkeys).1 (by rw [hsame.word]; exact hfirst)
    dsimp only at hnext
    rw [hcount, update_idem] at hnext
    rw [foldl_cons]
    exact ⟨hsame.trans hnext.1, hnext.2⟩

end Holds

/-! ## The shelf of a buffer -/

/-- The bytes of a shelf's items. -/
def Shelf.bytes (shelf : Shelf) (slot : BitVec 32) : Option Bytes := (shelf.items slot).map bodyBytes

theorem Shelf.bytes_eq {shelf : Shelf} {slot : BitVec 32} (hitem : shelf.items slot = some item) :
    shelf.bytes slot = some (bodyBytes item) := by
  rw [bytes, hitem, map_some]

theorem Shelf.bytes_update (items : BitVec 32 → Option ChunkItem) (slot : BitVec 32) (item : Option ChunkItem)
    (total total' : BitVec 32) :
    bytes ⟨update items slot item, total⟩ =
      update (bytes ⟨items, total'⟩) slot (item.map bodyBytes) := by
  funext other
  rw [bytes, update_apply]
  dsimp only
  rw [update_apply]
  split_ifs <;> rfl

/-- A buffer shows the items of a shelf. -/
structure Shows (live : ReplayedLibrary) (shelf : Shelf) : Prop where
  holds : ∃ room, Holds live.content room shelf.bytes
  fits : ∀ slot item, shelf.items slot = some item → item.Fits
  total : live.content.total = shelf.total
  size : live.content.dataLen < 2 ^ 32
  short : live.content.slots.dataEnd < 4 * 2 ^ 32

theorem content_noteAbsent (live : ReplayedLibrary) (slot : BitVec 32) :
    (live.noteAbsent slot).content = live.content := by
  rw [noteAbsent]
  split_ifs <;> rfl

theorem content_notePresent (live : ReplayedLibrary) (slot : BitVec 32) :
    (live.notePresent slot).content = live.content := by
  rw [notePresent]
  split_ifs <;> rfl

namespace Shows

variable {live : ReplayedLibrary} {shelf : Shelf} {slot : BitVec 32}

variable (h : Shows live shelf)
include h

theorem itemBytes (slot : BitVec 32) : live.itemBytes slot = shelf.bytes slot := by
  obtain ⟨room, hholds⟩ := h.holds
  exact hholds.itemBytes slot

/-- A slot has a word where it has an item. -/
theorem word_eq_zero : live.content.word slot = 0 ↔ shelf.items slot = none := by
  obtain ⟨room, hholds⟩ := h.holds
  cases hitem : shelf.items slot with
  | none =>
    have hbytes : shelf.bytes slot = none := by rw [bytes, hitem, map_none]
    exact ⟨fun _ => rfl, fun _ => hholds.empty slot hbytes⟩
  | some item =>
    have hbytes := bytes_eq hitem
    exact ⟨fun hword => absurd hword (hholds.named slot _ hbytes), fun hnone => absurd hnone (some_ne_none item)⟩

/-- Four bytes of a slot's item. -/
theorem four_bytes {item : ChunkItem} (hitem : shelf.items slot = some item) :
    ∃ b0 b1 b2 b3, live.content.byte ((live.content.word slot).toNat + 2) = some b0 ∧
      live.content.byte ((live.content.word slot).toNat + 3) = some b1 ∧
      live.content.byte ((live.content.word slot).toNat + 4) = some b2 ∧
      live.content.byte ((live.content.word slot).toNat + 5) = some b3 ∧ word32 [b0, b1, b2, b3] = item.unigram := by
  obtain ⟨room, hholds⟩ := h.holds
  have hfits := h.fits slot item hitem
  have hbytes := bytes_eq hitem
  have hroom := (exact_bodyBytes hfits).header.1
  rw [phraseItemHeader] at hroom
  obtain ⟨b0, b1, b2, b3, h0, h1, h2, h3, hfour⟩ := @exists_four (bodyBytes item) 2 (by omega)
  refine ⟨b0, b1, b2, b3, ?_, ?_, ?_, ?_, ?_⟩
  · rw [hholds.byte_eq hbytes (by omega), h0]
  · rw [hholds.byte_eq hbytes (by omega), h1]
  · rw [hholds.byte_eq hbytes (by omega), h2]
  · rw [hholds.byte_eq hbytes (by omega), h3]
  · have hunigram := rawUnigram_bodyBytes hfits
    rw [rawUnigram, hfour, getD_some] at hunigram
    exact hunigram

theorem unigram (slot : BitVec 32) : live.unigram slot = (shelf.items slot).map ChunkItem.unigram := by
  cases hitem : shelf.items slot with
  | none => rw [ReplayedLibrary.unigram, visible_eq, if_pos (h.word_eq_zero.mpr hitem), map_none]
  | some item =>
    obtain ⟨room, hholds⟩ := h.holds
    obtain ⟨b0, b1, b2, b3, h0, h1, h2, h3, hword⟩ := h.four_bytes hitem
    have hbytes := bytes_eq hitem
    rw [ReplayedLibrary.unigram, (hholds.visible hbytes).1]
    dsimp only
    rw [h0, h1, h2, h3, map_some, ← hword]

/-- A new item at a slot. -/
theorem addItem {payload : Bytes} (hexact : Exact payload) (hslot : slot.toNat + 1 < 2 ^ 32)
    (hsize : (live.addItem slot payload).1.content.dataLen < 2 ^ 32) :
    Shows (live.addItem slot payload).1 (shelf.apply (.addItem slot payload)) := by
  obtain ⟨room, hholds⟩ := h.holds
  obtain ⟨item, hfits, rfl⟩ := hexact.exists_item
  have hnoted : (if (live.itemBytes slot).isNone then live.noteAbsent slot else live).content = live.content := by
    split_ifs
    · exact content_noteAbsent live slot
    · rfl
  have hend := Chunk.setContent_dataEnd live.content.slots live.content.backing.offsets (slot.toNat * 4)
    (le32 (appendOffset live.content.dataLen))
  have hshort := h.short
  have happend := @hholds.append _ _ _ slot _ hexact h.size
  rw [apply, decode_bodyBytes hfits]
  refine ⟨⟨update room slot (bodyBytes item).length, ?_⟩, fun other found hfound => ?_, ?_, hsize, ?_⟩
  · rw [ReplayedLibrary.addItem, hnoted, bytes_update _ _ _ _ shelf.total, map_some]
    exact happend.withTotal _
  · dsimp only at hfound
    rw [update_apply] at hfound
    split_ifs at hfound with hsame
    · rw [← some.inj hfound]
      exact hfits
    · exact h.fits other found hfound
  · rw [ReplayedLibrary.addItem, hnoted]
    show live.content.total + rawUnigram (bodyBytes item) = shelf.total + item.unigram
    rw [rawUnigram_bodyBytes hfits, h.total]
  · rw [ReplayedLibrary.addItem, hnoted]
    show (live.content.slots.setContent live.content.backing.offsets (slot.toNat * 4)
      (le32 (appendOffset live.content.dataLen))).1.dataEnd < 4 * 2 ^ 32
    rw [hend, length_le32]
    omega

/-- The item of a slot taken out, if there is one. -/
theorem removeItem (slot : BitVec 32) : Shows (live.removeItem slot).1 (shelf.apply (.removeItem slot)) := by
  obtain ⟨room, hholds⟩ := h.holds
  have hitem := h.itemBytes slot
  rw [bytes] at hitem
  rw [ReplayedLibrary.removeItem, apply, hitem]
  cases hshelf : shelf.items slot with
  | none =>
    have hsame : update shelf.items slot none = shelf.items := by
      rw [← hshelf, update_eq_self]
    have hzero : shelf.total - (none : Option ChunkItem).elim 0 ChunkItem.unigram = shelf.total :=
      BitVec.sub_zero shelf.total
    rw [hsame, hzero]
    exact h
  | some item =>
    have hfits := h.fits slot item hshelf
    have hend := Chunk.setContent_dataEnd live.content.slots live.content.backing.offsets (slot.toNat * 4) (le32 0)
    have hslotEnd : slot.toNat * 4 + 4 ≤ live.content.slots.dataEnd := by
      by_contra hout
      have hzero : live.content.word slot = 0 := by
        rw [word, slotOffset_eq, if_pos (by omega), getD_none]
      rw [h.word_eq_zero, hshelf] at hzero
      exact some_ne_none item hzero
    dsimp only [map_some]
    rw [content_notePresent]
    refine ⟨⟨room, ?_⟩, fun other found hfound => ?_, ?_, h.size, ?_⟩
    · rw [bytes_update _ _ _ _ shelf.total, map_none]
      exact (hholds.clear slot).withTotal _
    · dsimp only at hfound
      rw [update_apply] at hfound
      split_ifs at hfound with hsame
      exact h.fits other found hfound
    · show live.content.total - rawUnigram (bodyBytes item) = shelf.total - item.unigram
      rw [rawUnigram_bodyBytes hfits, h.total]
    · show (live.content.slots.setContent live.content.backing.offsets (slot.toNat * 4) (le32 0)).1.dataEnd <
        4 * 2 ^ 32
      have hshort := h.short
      rw [hend, length_le32]
      omega

/-- What adding to a frequency does. -/
theorem addUnigram_cases (slot delta : BitVec 32) :
    shelf.items slot = none ∧ live.addUnigram slot delta = (live, .missing) ∨
    (∃ item, shelf.items slot = some item ∧ 2 ^ 32 ≤ shelf.total.toNat + delta.toNat ∧
      live.addUnigram slot delta = (live, .refused)) ∨
    ∃ item after room, shelf.items slot = some item ∧ ¬2 ^ 32 ≤ shelf.total.toNat + delta.toNat ∧
      Rewritten live.content after ∧
      Holds after room (update shelf.bytes slot
        (some (bodyBytes { item with unigram := item.unigram + delta }))) ∧
      live.addUnigram slot delta = ({ live with content := { after with total := shelf.total + delta } },
        .accepted) := by
  obtain ⟨room, hholds⟩ := h.holds
  cases hitem : shelf.items slot with
  | none =>
    have hword := h.word_eq_zero.mpr hitem
    have hnone : (live.content.slotOffset slot).filter (· ≠ 0) = none := by
      rw [word] at hword
      cases hoffset : live.content.slotOffset slot with
      | none => rfl
      | some offset =>
        rw [hoffset, getD_some] at hword
        rw [hword]
        rfl
    refine .inl ⟨rfl, ?_⟩
    rw [addUnigram, hnone]
  | some item =>
    have hfits := h.fits slot item hitem
    have hbytes := bytes_eq hitem
    have hne := hholds.named slot _ hbytes
    have hoffset : (live.content.slotOffset slot).filter (· ≠ 0) = some (live.content.word slot) := by
      rw [word] at hne ⊢
      cases hoffset : live.content.slotOffset slot with
      | none =>
        rw [hoffset] at hne
        exact absurd rfl hne
      | some offset =>
        rw [hoffset, getD_some] at hne
        rw [filter_some, if_pos (decide_eq_true hne), getD_some]
    have hroom := (exact_bodyBytes hfits).header.1
    have hinside := hholds.inside slot _ hbytes
    have hwithin := hholds.fits slot _ hbytes
    rw [phraseItemHeader] at hroom
    obtain ⟨b0, b1, b2, b3, h0, h1, h2, h3, hword⟩ := h.four_bytes hitem
    have hheader : live.content.header (live.content.word slot).toNat =
        .item (live.content.word slot).toNat (bodyBytes item).length := by
      have hvisible := (hholds.visible hbytes).1
      rwa [visible_eq, if_neg hne] at hvisible
    by_cases hover : 2 ^ 32 ≤ shelf.total.toNat + delta.toNat
    · refine .inr (.inl ⟨item, rfl, hover, ?_⟩)
      rw [addUnigram, hoffset]
      dsimp only
      rw [if_neg (by omega), h0, h1, h2, h3]
      dsimp only
      rw [h.total, if_pos hover]
    · have hnew : ChunkItem.Fits { item with unigram := item.unigram + delta } :=
        ⟨hfits.phrase, hfits.prons, hfits.keys⟩
      obtain ⟨after, hwrite, hsame, hpatched⟩ := @hholds.patch _ _ _ slot (bodyBytes item)
        (le32 (item.unigram + delta)) hbytes 2 (by rw [length_le32]; omega)
        (by rw [overwrite_unigram]; exact exact_bodyBytes hnew)
      rw [overwrite_unigram] at hpatched
      refine .inr (.inr ⟨item, after, room, rfl, hover, hsame, hpatched, ?_⟩)
      rw [addUnigram, hoffset]
      dsimp only
      rw [if_neg (by omega), h0, h1, h2, h3]
      dsimp only
      rw [h.total, if_neg hover, hheader, hword]
      dsimp only
      rw [hwrite, getD_some]

/-- A delta on the frequency of a slot's item. -/
theorem addUnigram (slot delta : BitVec 32) :
    Shows (live.addUnigram slot delta).1 (shelf.apply (.addUnigram slot delta)) := by
  obtain ⟨hnone, hrun⟩ | ⟨item, hitem, hover, hrun⟩ | ⟨item, after, room, hitem, hover, hsame, hpatched, hrun⟩ :=
    h.addUnigram_cases slot delta
  · rw [hrun, apply, hnone]
    exact h
  · rw [hrun, apply, hitem]
    dsimp only
    rw [if_pos hover]
    exact h
  · have hfits := h.fits slot item hitem
    rw [hrun, apply, hitem]
    dsimp only
    rw [if_neg hover]
    refine ⟨⟨room, ?_⟩, fun other found hfound => ?_, rfl, hsame.dataLen.trans_lt h.size, ?_⟩
    · rw [bytes_update _ _ _ _ shelf.total, map_some]
      exact hpatched.withTotal _
    · dsimp only at hfound
      rw [update_apply] at hfound
      split_ifs at hfound
      · rw [← some.inj hfound]
        exact ⟨hfits.phrase, hfits.prons, hfits.keys⟩
      · exact h.fits other found hfound
    · show after.slots.dataEnd < 4 * 2 ^ 32
      rw [hsame.slots]
      exact h.short

/-- A delta on the readings of a slot's item. -/
theorem train (slot : BitVec 32) (readings : List (List ChewingKey)) (delta : BitVec 32) :
    Shows (live.train slot readings delta).1 (shelf.apply (.train slot readings delta)) := by
  obtain ⟨room, hholds⟩ := h.holds
  rw [apply]
  cases hitem : shelf.items slot with
  | none =>
    rw [ReplayedLibrary.train, visible_eq, if_pos (h.word_eq_zero.mpr hitem), map_none, ← hitem,
      update_eq_self]
    exact h
  | some item =>
    have hfits := h.fits slot item hitem
    have hbytes := bytes_eq hitem
    obtain ⟨hvisible, hread⟩ := hholds.visible hbytes
    obtain ⟨hsame, htrained⟩ := @Holds.trainAll room slot delta _ readings item live.content shelf.bytes hholds hbytes
      hfits rfl
    have hrun : (live.train slot readings delta).1.content = readings.foldl (fun content reading =>
        trainEntries reading delta
          ((live.content.word slot).toNat + phraseItemHeader + 4 * item.phrase.length) item.phrase.length
          item.prons.length 0 0 content) live.content := by
      rw [ReplayedLibrary.train, hvisible]
      dsimp only
      rw [hread, bodyBytes]
      dsimp only
      rw [toNat_ofNat_of_le hfits.phrase, toNat_ofNat_of_le hfits.prons]
    rw [← hrun] at hsame htrained
    rw [map_some]
    refine ⟨⟨room, ?_⟩, fun other found hfound => ?_, hsame.total.trans h.total, hsame.dataLen.trans_lt h.size, ?_⟩
    · rw [bytes_update _ _ _ _ shelf.total, map_some]
      exact htrained
    · dsimp only at hfound
      rw [update_apply] at hfound
      split_ifs at hfound
      · rw [← some.inj hfound]
        exact fits_trained readings delta hfits
      · exact h.fits other found hfound
    · rw [hsame.slots]
      exact h.short

end Shows

/-! ## The total -/

namespace Shelf

/-- The frequency of a slot's item. The slot zero is in no range. -/
def weight (items : BitVec 32 → Option ChunkItem) (slot : BitVec 32) : Nat :=
  if slot = 0 then 0 else ((items slot).map fun item => item.unigram.toNat).getD 0

/-- The total is the sum of the frequencies. -/
def Balanced (shelf : Shelf) : Prop := shelf.total.toNat = (∑ slot, weight shelf.items slot) % 2 ^ 32

theorem weight_update (items : BitVec 32 → Option ChunkItem) {slot : BitVec 32} (h : slot ≠ 0)
    (item : Option ChunkItem) :
    weight (update items slot item) =
      update (weight items) slot ((item.map fun item => item.unigram.toNat).getD 0) := by
  funext other
  rw [weight, update_apply, update_apply]
  by_cases hsame : other = slot
  · rw [if_pos hsame, if_pos hsame, if_neg (hsame ▸ h)]
  · rw [if_neg hsame, if_neg hsame, weight]

/-- What an item's edit does to the sum. -/
theorem sum_weight_update (items : BitVec 32 → Option ChunkItem) {slot : BitVec 32} (h : slot ≠ 0)
    (item : Option ChunkItem) :
    (∑ other, weight (update items slot item) other) + ((items slot).map fun item => item.unigram.toNat).getD 0 =
      (∑ other, weight items other) + (item.map fun item => item.unigram.toNat).getD 0 := by
  have hsum := Margins.sum_update (weight items) slot ((item.map fun item => item.unigram.toNat).getD 0)
  have hweight : weight items slot = ((items slot).map fun item => item.unigram.toNat).getD 0 := by
    rw [weight, if_neg h]
  rw [← weight_update items h item, hweight] at hsum
  exact hsum

variable {shelf : Shelf} {slot : BitVec 32}

section

variable (h : Balanced shelf)
include h

theorem Balanced.addItem (hslot : slot ≠ 0) (hnone : shelf.items slot = none) (payload : Bytes) :
    Balanced (shelf.apply (.addItem slot payload)) := by
  have hsum := sum_weight_update shelf.items hslot (decodePhraseItem payload).toOption
  rw [hnone, map_none, getD_none, Nat.add_zero] at hsum
  rw [Balanced] at h
  rw [Balanced, apply]
  dsimp only
  rw [hsum]
  cases (decodePhraseItem payload).toOption with
  | none =>
    rw [map_none, getD_none, Nat.add_zero, ← h]
    exact congrArg BitVec.toNat (BitVec.add_zero shelf.total)
  | some item =>
    rw [map_some, getD_some, elim_some, BitVec.toNat_add, h]
    exact Nat.mod_add_mod _ _ _

theorem Balanced.removeItem (hslot : slot ≠ 0 ∨ shelf.items slot = none) :
    Balanced (shelf.apply (.removeItem slot)) := by
  rw [Balanced] at h
  rw [Balanced, apply]
  dsimp only
  cases hitem : shelf.items slot with
  | none =>
    rw [← hitem, update_eq_self, hitem, ← h]
    exact congrArg BitVec.toNat (BitVec.sub_zero shelf.total)
  | some item =>
    have hne := hslot.resolve_right fun hnone => some_ne_none item (hitem.symm.trans hnone)
    have hsum := sum_weight_update shelf.items hne none
    rw [hitem, map_some, getD_some, map_none, getD_none, Nat.add_zero] at hsum
    rw [elim_some, BitVec.toNat_sub]
    omega

theorem Balanced.addUnigram (hslot : slot ≠ 0 ∨ shelf.items slot = none) (delta : BitVec 32) :
    Balanced (shelf.apply (.addUnigram slot delta)) := by
  rw [apply]
  cases hitem : shelf.items slot with
  | none => exact h
  | some item =>
    dsimp only
    split_ifs with hover
    · exact h
    · have hne := hslot.resolve_right fun hnone => some_ne_none item (hitem.symm.trans hnone)
      have hsum := sum_weight_update shelf.items hne (some { item with unigram := item.unigram + delta })
      rw [hitem, map_some, map_some, getD_some, getD_some, BitVec.toNat_add] at hsum
      rw [Balanced] at h ⊢
      dsimp only
      rw [BitVec.toNat_add]
      omega

theorem Balanced.train (slot : BitVec 32) (readings : List (List ChewingKey))
    (delta : BitVec 32) :
    Balanced (shelf.apply (.train slot readings delta)) := by
  have hweight : weight (update shelf.items slot ((shelf.items slot).map (trained readings delta))) =
      weight shelf.items := by
    funext other
    rw [weight, weight, update_apply]
    by_cases hsame : other = slot
    · rw [if_pos hsame, hsame, Option.map_map]
      rfl
    · rw [if_neg hsame]
  rw [Balanced, apply]
  dsimp only
  rw [hweight]
  exact h

end

end Shelf

theorem toNat_foldl_add (f : Nat → BitVec 32) (slots : List Nat) (sum : BitVec 32) :
    (slots.foldl (fun sum slot => sum + f slot) sum).toNat =
      (sum.toNat + (slots.map fun slot => (f slot).toNat).sum) % 2 ^ 32 := by
  induction slots generalizing sum with
  | nil => exact (Nat.mod_eq_of_lt sum.isLt).symm
  | cons slot rest ih =>
    rw [foldl_cons, ih, BitVec.toNat_add, map_cons, sum_cons, Nat.mod_add_mod, Nat.add_assoc]

namespace Shows

variable {live : ReplayedLibrary} {shelf : Shelf}

/-- The range ends behind the last item. -/
theorem rangeEnd (h : Shows live shelf) : 1 ≤ live.rangeEnd ∧ live.rangeEnd < 2 ^ 32 ∧
    (∀ slot, live.rangeEnd ≤ slot.toNat → shelf.items slot = none) ∧
    (live.rangeEnd = 1 ∨ (shelf.items (BitVec.ofNat 32 (live.rangeEnd - 1))).isSome) := by
  have hshort := h.short
  obtain ⟨hle, hzero, hlast⟩ := trimEnd_spec live.content (live.content.slots.dataEnd / 4)
  have heq : live.rangeEnd = max (trimEnd live.content (live.content.slots.dataEnd / 4)) 1 := by
    rw [ReplayedLibrary.rangeEnd, Nat.min_eq_left (by omega)]
  refine ⟨by omega, by omega, fun slot hfrom => ?_, ?_⟩
  · rw [← h.word_eq_zero]
    rcases Nat.lt_or_ge slot.toNat (live.content.slots.dataEnd / 4) with hin | hout
    · exact hzero slot (by omega) hin
    · exact word_of_dataEnd hout
  · rcases hlast with hnone | hword
    · exact .inl (by omega)
    · rcases Nat.lt_or_ge (trimEnd live.content (live.content.slots.dataEnd / 4)) 1 with hbare | hsome
      · exact .inl (by omega)
      · rw [← Nat.max_eq_left hsome, ← heq] at hword
        rw [ne_eq, h.word_eq_zero, ← ne_eq, ne_none_iff_isSome] at hword
        exact .inr hword

/-- The sum over the range is the sum of the frequencies. -/
theorem readableUnigramSum (h : Shows live shelf) :
    live.readableUnigramSum.toNat = (∑ slot, weight shelf.items slot) % 2 ^ 32 := by
  obtain ⟨hone, hlt, hbehind, _⟩ := h.rangeEnd
  have hout : ∀ slot, slot ∉ (List.range' 1 (live.rangeEnd - 1)).map (BitVec.ofNat 32) →
      weight shelf.items slot = 0 := by
    intro slot hnot
    rw [weight]
    split_ifs with hzero
    · rfl
    · have hpos : 0 < slot.toNat := Nat.pos_of_ne_zero fun hnat => hzero (BitVec.eq_of_toNat_eq hnat)
      rw [hbehind slot ?_]
      · rfl
      by_contra hin
      exact hnot (mem_map.mpr ⟨slot.toNat, mem_range'_1.mpr (by omega),
        by rw [BitVec.ofNat_toNat, BitVec.setWidth_eq]⟩)
  have hzero : (0 : BitVec 32).toNat = 0 := rfl
  rw [ReplayedLibrary.readableUnigramSum, toNat_foldl_add, hzero, Nat.zero_add,
    ← sum_nodup (nodup_slotsBelow hlt.le) hout, List.map_map]
  congr 2
  refine map_congr_left fun slot hslot => ?_
  have hin := mem_range'_1.mp hslot
  have hne : BitVec.ofNat 32 slot ≠ 0 := fun heq => by
    have hnat := congrArg BitVec.toNat heq
    rw [BitVec.toNat_ofNat, Nat.mod_eq_of_lt (by omega), hzero] at hnat
    omega
  rw [comp_apply, weight, if_neg hne, h.unigram]
  cases shelf.items (BitVec.ofNat 32 slot) <;> rfl

end Shows

/-! ## Runs of edits -/

/-- The slot of an edit. -/
def LiveOp.slot : LiveOp → BitVec 32
  | .addItem slot _ => slot
  | .removeItem slot => slot
  | .addUnigram slot _ => slot
  | .train slot _ _ => slot

/-- An item comes whole to a slot without one, from one up and below the last, with the content
below `2 ^ 32` bytes behind it. An item is taken out or weighed at a slot from one up. -/
def ReplayedLibrary.Admits (live : ReplayedLibrary) : LiveOp → Prop
  | .addItem slot payload => slot ≠ 0 ∧ slot.toNat + 1 < 2 ^ 32 ∧ Exact payload ∧ live.itemBytes slot = none ∧
      (live.addItem slot payload).1.content.dataLen < 2 ^ 32
  | .removeItem slot => slot ≠ 0 ∨ live.itemBytes slot = none
  | .addUnigram slot _ => slot ≠ 0 ∨ live.itemBytes slot = none
  | .train _ _ _ => True

section

variable {live : ReplayedLibrary} {shelf : Shelf} (h : Shows live shelf)
include h

theorem Shows.items_eq_none {slot : BitVec 32} (hnone : live.itemBytes slot = none) : shelf.items slot = none := by
  rwa [h.itemBytes, bytes, map_eq_none_iff] at hnone

/-- An edit of a buffer is the edit of its shelf. -/
theorem Shows.step {op : LiveOp} (hop : live.Admits op) : Shows (live.step op) (shelf.apply op) := by
  cases op with
  | addItem slot payload =>
    obtain ⟨_, hlast, hexact, _, hsize⟩ := hop
    exact h.addItem hexact hlast hsize
  | removeItem slot => exact h.removeItem slot
  | addUnigram slot delta => exact h.addUnigram slot delta
  | train slot readings delta => exact h.train slot readings delta

theorem Shows.balanced_step (hbalanced : shelf.Balanced) {op : LiveOp} (hop : live.Admits op) :
    (shelf.apply op).Balanced := by
  cases op with
  | addItem slot payload =>
    obtain ⟨hslot, _, _, hnone, _⟩ := hop
    exact hbalanced.addItem hslot (h.items_eq_none hnone) payload
  | removeItem slot => exact hbalanced.removeItem (hop.imp_right h.items_eq_none)
  | addUnigram slot delta => exact hbalanced.addUnigram (hop.imp_right h.items_eq_none) delta
  | train slot readings delta => exact hbalanced.train slot readings delta

end

theorem Shows.run : ∀ {ops : List LiveOp} {live : ReplayedLibrary} {shelf : Shelf}, Shows live shelf →
    shelf.Balanced → Along ReplayedLibrary.step ReplayedLibrary.Admits live ops →
    Shows (ops.foldl ReplayedLibrary.step live) (ops.foldl apply shelf) ∧ (ops.foldl apply shelf).Balanced
  | [], _, _, h, hbalanced, _ => ⟨h, hbalanced⟩
  | _ :: _, _, _, h, hbalanced, hops => (h.step hops.1).run (h.balanced_step hbalanced hops.1) hops.2

/-- Other slots keep their items under an edit. -/
theorem Shelf.apply_of_ne (shelf : Shelf) (op : LiveOp) {other : BitVec 32} (h : other ≠ op.slot) :
    (shelf.apply op).bytes other = shelf.bytes other := by
  cases op with
  | addItem slot payload => exact congrArg (Option.map bodyBytes) (update_of_ne h _ _)
  | removeItem slot => exact congrArg (Option.map bodyBytes) (update_of_ne h _ _)
  | addUnigram slot delta =>
    rw [apply]
    cases shelf.items slot with
    | none => rfl
    | some item =>
      dsimp only
      split_ifs
      · rfl
      · exact congrArg (Option.map bodyBytes) (update_of_ne h _ _)
  | train slot readings delta => exact congrArg (Option.map bodyBytes) (update_of_ne h _ _)

variable {library : PhraseLibrary}

/-- The items of a loaded chunk. -/
def loadedShelf (library : PhraseLibrary) (total : BitVec 32) : Shelf :=
  ⟨fun slot => ((mappedBacking library).item slot).bind fun bytes => (decodePhraseItem bytes).toOption, total⟩

theorem Sound.shows (hsound : Sound library) (total : BitVec 32) :
    Shows (.fromMapping (mappedBacking library) total) (loadedShelf library total) := by
  have hholds := hsound.holds total
  have hexact := hholds.exact
  have hbytes : (loadedShelf library total).bytes = (mappedBacking library).item := by
    funext slot
    rw [bytes, loadedShelf]
    dsimp only
    cases hitem : (mappedBacking library).item slot with
    | none => rfl
    | some bytes =>
      obtain ⟨item, hfits, rfl⟩ := (hexact slot bytes hitem).exists_item
      rw [bind_some, decode_bodyBytes hfits, map_some]
  refine ⟨⟨_, hbytes ▸ hholds⟩, fun slot item hitem => ?_, rfl, hsound.length_content, ?_⟩
  · obtain ⟨bytes, hbytes, hdecode⟩ := bind_eq_some_iff.mp hitem
    obtain ⟨found, hfits, rfl⟩ := (hexact slot bytes hbytes).exists_item
    rw [decode_bodyBytes hfits] at hdecode
    rw [← some.inj hdecode]
    exact hfits
  · obtain ⟨payload, hload⟩ := hsound.loaded
    have hbounds := loaded_bounds hload
    obtain ⟨front, back, _, _, hstop⟩ := range?_eq_some_iff.mp hsound.sections.1
    show (mappedBacking library).offsets.length < 4 * 2 ^ 32
    omega

/-- A live buffer answers as the map of its items along every run of edits. -/
theorem liveItems_run (hsound : Sound library) {total : BitVec 32}
    (htotal : total = (ReplayedLibrary.fromMapping (mappedBacking library) total).readableUnigramSum)
    {ops : List LiveOp}
    (hops : Along ReplayedLibrary.step ReplayedLibrary.Admits (.fromMapping (mappedBacking library) total) ops) :
    ∃ live shelf, live = ops.foldl ReplayedLibrary.step (.fromMapping (mappedBacking library) total) ∧
      shelf = ops.foldl Shelf.apply (loadedShelf library total) ∧
      (∀ slot, live.itemBytes slot = (shelf.items slot).map bodyBytes) ∧
      (∀ op, live.Admits op → ∀ other, other ≠ op.slot → (live.step op).itemBytes other = live.itemBytes other) ∧
      live.content.total = shelf.total ∧ live.content.total = live.readableUnigramSum ∧
      (∀ slot delta, (live.addUnigram slot delta).2 ≠ .accepted → (live.addUnigram slot delta).1 = live) ∧
      1 ≤ live.rangeEnd ∧ (∀ slot, live.rangeEnd ≤ slot.toNat → live.itemBytes slot = none) ∧
      (live.rangeEnd = 1 ∨ (live.itemBytes (BitVec.ofNat 32 (live.rangeEnd - 1))).isSome) := by
  have hfirst := hsound.shows total
  have hbalanced : (loadedShelf library total).Balanced := by
    rw [Shelf.Balanced, ← hfirst.readableUnigramSum, ← htotal]
    rfl
  obtain ⟨hlast, hsum⟩ := hfirst.run hbalanced hops
  refine ⟨_, _, rfl, rfl, hlast.itemBytes, fun op hop other hne => ?_, hlast.total, ?_, fun slot delta hrefused => ?_,
    hlast.rangeEnd.1, fun slot hslot => ?_, ?_⟩
  · rw [(hlast.step hop).itemBytes, hlast.itemBytes, Shelf.apply_of_ne _ op hne]
  · refine BitVec.eq_of_toNat_eq ?_
    rw [hlast.total, hlast.readableUnigramSum]
    exact hsum
  · obtain ⟨_, hrun⟩ | ⟨_, _, _, hrun⟩ | ⟨_, _, _, _, _, _, _, hrun⟩ := hlast.addUnigram_cases slot delta
    · rw [hrun]
    · rw [hrun]
    · rw [hrun] at hrefused
      exact absurd rfl hrefused
  · rw [hlast.itemBytes, Shelf.bytes, hlast.rangeEnd.2.2.1 slot hslot]
    rfl
  · rw [hlast.itemBytes, Shelf.bytes, isSome_map]
    exact hlast.rangeEnd.2.2.2

/-- The first item of the pair taken out, a third one, and more of the second. -/
def pairRun : List LiveOp :=
  [.removeItem 1, .addItem 3 [1, 1, 4, 0, 0, 0, 7, 0, 0, 0, 0, 0, 1, 0, 0, 0], .addUnigram 2 5, .train 3 [] 1]

set_option maxRecDepth 8000 in
theorem liveItems_pairRun :
    (∀ slot, (pairRun.foldl ReplayedLibrary.step (.fromMapping (mappedBacking pairLibrary) 11)).itemBytes slot =
      ((pairRun.foldl Shelf.apply (loadedShelf pairLibrary 11)).items slot).map bodyBytes) ∧
    (pairRun.foldl ReplayedLibrary.step (.fromMapping (mappedBacking pairLibrary) 11)).content.total = 15 := by
  obtain ⟨live, shelf, rfl, rfl, hitems, _⟩ := @liveItems_run pairLibrary sound_pairLibrary 11 (by decide) pairRun
    ⟨.inl (by decide), ⟨by decide, by decide, rfl, by decide, by decide⟩, .inl (by decide), trivial, trivial⟩
  exact ⟨hitems, by decide⟩

/-- An item at the last slot is not in the range. -/
theorem Shows.rangeEnd_lastSlot {live : ReplayedLibrary} {shelf : Shelf} (h : Shows live shelf) {payload : Bytes}
    (hexact : Exact payload) :
    (live.addItem (BitVec.ofNat 32 (2 ^ 32 - 1)) payload).1.rangeEnd = 2 ^ 32 - 1 ∧
      (live.addItem (BitVec.ofNat 32 (2 ^ 32 - 1)) payload).1.itemBytes (BitVec.ofNat 32 (2 ^ 32 - 1)) =
        some payload := by
  obtain ⟨room, hholds⟩ := h.holds
  have hshort := h.short
  have hlast : (BitVec.ofNat 32 (2 ^ 32 - 1)).toNat = 2 ^ 32 - 1 := by decide
  generalize BitVec.ofNat 32 (2 ^ 32 - 1) = slot at hlast ⊢
  have hnoted : (if (live.itemBytes slot).isNone then live.noteAbsent slot else live).content = live.content := by
    split_ifs
    · exact content_noteAbsent live slot
    · rfl
  have happend := (@hholds.append _ _ _ slot _ hexact h.size).withTotal (live.content.total + rawUnigram payload)
  have hcontent : (live.addItem slot payload).1.content =
      { (live.content.append payload).1.setSlotOffset slot (live.content.append payload).2.offset with
        total := live.content.total + rawUnigram payload } := by
    rw [ReplayedLibrary.addItem, hnoted]
    rfl
  rw [← hcontent] at happend
  have hself : update shelf.bytes slot (some payload) slot = some payload := update_self _ _ _
  refine ⟨?_, (happend.itemBytes slot).trans hself⟩
  have hend : (live.addItem slot payload).1.content.slots.dataEnd = 4 * 2 ^ 32 := by
    rw [hcontent]
    show (live.content.slots.setContent live.content.backing.offsets (slot.toNat * 4)
      (le32 (appendOffset live.content.dataLen))).1.dataEnd = 4 * 2 ^ 32
    rw [Chunk.setContent_dataEnd, length_le32]
    omega
  obtain ⟨_, hzero, _⟩ := trimEnd_spec (live.addItem slot payload).1.content (4 * 2 ^ 32 / 4)
  have htrim : 2 ^ 32 - 1 < trimEnd (live.addItem slot payload).1.content (4 * 2 ^ 32 / 4) := by
    by_contra hle
    exact happend.named slot payload hself (hzero slot (by omega) (by omega))
  rw [ReplayedLibrary.rangeEnd, hend]
  omega

/-- A chunk with an item at slot one, and a word at slot two that names none. -/
def strayLibrary : PhraseLibrary :=
  writtenLibrary 5 (le32 0 ++ le32 8 ++ le32 200) (List.replicate 8 0 ++ [1, 0, 5, 0, 0, 0, 1, 0, 0, 0])

/-- A chunk with an item at slot zero. -/
def headLibrary : PhraseLibrary := writtenLibrary 0 (le32 8) (List.replicate 8 0 ++ [1, 0, 5, 0, 0, 0, 1, 0, 0, 0])

set_option maxRecDepth 8000 in
/-- The range goes on to a word that names no item, the total loses an item of slot zero that the
sum has not, and the range ends before the last slot. -/
theorem liveItems_outside :
    ((∃ payload, PhraseLibrary.fromPayload payload = .ok strayLibrary) ∧
      (∀ i j a m b n, i ≠ j → (mappedBacking strayLibrary).visible i = .item a m →
        (mappedBacking strayLibrary).visible j = .item b n → a + m ≤ b ∨ b + n ≤ a) ∧
      5 = (ReplayedLibrary.fromMapping (mappedBacking strayLibrary) 5).readableUnigramSum ∧
      (ReplayedLibrary.fromMapping (mappedBacking strayLibrary) 5).rangeEnd = 3 ∧
      (ReplayedLibrary.fromMapping (mappedBacking strayLibrary) 5).itemBytes 2 = none) ∧
    (Sound headLibrary ∧ 0 = (ReplayedLibrary.fromMapping (mappedBacking headLibrary) 0).readableUnigramSum ∧
      ((ReplayedLibrary.fromMapping (mappedBacking headLibrary) 0).removeItem 0).1.content.total ≠
        ((ReplayedLibrary.fromMapping (mappedBacking headLibrary) 0).removeItem 0).1.readableUnigramSum) ∧
    ((ReplayedLibrary.fromMapping (mappedBacking pairLibrary) 11).addItem (BitVec.ofNat 32 (2 ^ 32 - 1))
        [0, 0, 4, 0, 0, 0]).1.rangeEnd = 2 ^ 32 - 1 ∧
      ((ReplayedLibrary.fromMapping (mappedBacking pairLibrary) 11).addItem (BitVec.ofNat 32 (2 ^ 32 - 1))
        [0, 0, 4, 0, 0, 0]).1.itemBytes (BitVec.ofNat 32 (2 ^ 32 - 1)) = some [0, 0, 4, 0, 0, 0] := by
  refine ⟨⟨⟨_, fromPayload_indexBytes (by decide) (by decide)⟩, apart_written (by decide) (by decide) (by decide),
    by decide, by decide, by decide⟩, ⟨sound_written (by decide) (by decide) (by decide) (by decide), by decide,
    by decide⟩, (sound_pairLibrary.shows 11).rangeEnd_lastSlot rfl⟩

end Oxpinyin.Replay
