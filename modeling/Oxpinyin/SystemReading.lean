import Oxpinyin.LibraryTotals
import Oxpinyin.LiveBuffers

/-!
# A reading added to an item and to its bytes

The import of a system phrase edits the decoded rows of an item (`addSystemReading`), that of a user
phrase the packed bytes (`mergedReading`). Both look for the first reading with the keys, refuse a delta
that the frequencies up to it have no room for, and append a reading where none has them; the count of
readings is a byte and wraps in both. Where the unused bit of the keys is clear the bytes are the same
(`merged_addSystemReading`).
-/

namespace Oxpinyin

open List LittleEndian ChunkFile SessionState ChunkItem BitVec

/-- The unused bit of each key is clear. -/
def KeysClear (keys : List (BitVec 16)) : Prop := ∀ key ∈ keys, key.msb = false

instance (keys : List (BitVec 16)) : Decidable (KeysClear keys) :=
  inferInstanceAs (Decidable (∀ key ∈ keys, key.msb = false))

theorem and_of_clear {key : BitVec 16} (h : key.msb = false) : key &&& 0x7fff = key := by
  have hlt : key.toNat < 2 ^ 15 := by
    have := msb_eq_false_iff_two_mul_lt.mp h
    omega
  apply eq_of_toNat_eq
  rw [toNat_and]
  exact Nat.and_two_pow_sub_one_of_lt_two_pow hlt

/-- Clear keys agree when they are the same. -/
theorem keysAgree_iff : ∀ {stored keys : List (BitVec 16)}, stored.length = keys.length → KeysClear stored →
    KeysClear keys → (keysAgree stored keys = true ↔ stored = keys)
  | [], [], _, _, _ => by simp [keysAgree]
  | s :: stored, k :: keys, hlength, hstored, hkeys => by
    have hrest := keysAgree_iff (Nat.succ.inj hlength) (fun key hkey => hstored key (mem_cons_of_mem _ hkey))
      fun key hkey => hkeys key (mem_cons_of_mem _ hkey)
    have hhead : ((s &&& 0x7fff == k &&& 0x7fff) = true ↔ s = k) := by
      rw [and_of_clear (hstored s mem_cons_self), and_of_clear (hkeys k mem_cons_self), beq_iff_eq]
    unfold keysAgree at hrest ⊢
    rw [zip_cons_cons, all_cons, Bool.and_eq_true, hrest, hhead, cons.injEq]

/-- A sum has room for a delta when adding it does not come out smaller. -/
theorem room_iff (total delta : BitVec 32) :
    (delta = 0 ∨ total ≤ total + delta) ↔ total.toNat + delta.toNat < 2 ^ 32 := by
  have := total.isLt
  have := delta.isLt
  rw [← toNat_inj, le_def, toNat_add]
  simp only [ofNat_eq_ofNat, toNat_zero]
  omega

/-- The scan of the rows is the scan of the bytes. -/
theorem mergeInto_eq {keys : List (BitVec 16)} (hkeys : KeysClear keys) (delta : BitVec 32) :
    ∀ {total : BitVec 32} {prons : List Pron},
      (∀ pron ∈ prons, pron.1.length = keys.length ∧ KeysClear pron.1) →
      mergeInto keys delta total prons = addToReading keys delta total prons
  | _, [], _ => rfl
  | total, pron :: rest, h => by
    obtain ⟨hlength, hclear⟩ := h pron mem_cons_self
    rw [mergeInto, addToReading, mergeInto_eq hkeys delta fun other hother => h other (mem_cons_of_mem _ hother)]
    by_cases hsame : pron.1 = keys
    · rw [if_pos hsame, if_pos ((keysAgree_iff hlength hclear hkeys).mpr hsame)]
      by_cases hroom : (total + pron.2).toNat + delta.toNat < 2 ^ 32
      · rw [if_pos hroom, if_pos ((room_iff _ _).mpr hroom)]
      · rw [if_neg hroom, if_neg fun h => hroom ((room_iff _ _).mp h)]
    · rw [if_neg hsame, if_neg fun h => hsame ((keysAgree_iff hlength hclear hkeys).mp h)]

variable {item : ChunkItem} {keys : List (BitVec 16)}

/-- The bytes of an item with a reading more are those of the item with it. -/
theorem mergedReading_bodyBytes (h : item.Fits)
    (hlength : item.phrase.length = keys.length) (delta : BitVec 32) :
    mergedReading ⟨bodyBytes item⟩ keys delta = .ok (bodyBytes (item.addReading keys delta)) := by
  have hshows := shows_bodyBytes h
  rw [mergedReading, hshows.phraseLength, hshows.pronunciations, if_neg (not_not.mpr hlength),
    addReading, if_pos hlength]
  rcases findReading_eq keys delta item.prons 0 0 with
    ⟨hfind, hadd⟩ | ⟨front, pron, back, accepted, hprons, hfind, hadd⟩
  · rw [hfind, hadd]
    dsimp only
    rw [pushReading_bodyBytes h delta hlength]
  · rw [hfind, hadd]
    dsimp only
    cases accepted with
    | false => rw [if_neg Bool.false_ne_true, if_neg Bool.false_ne_true, ← hprons]
    | true =>
      have hover := overwrite_freq h hprons [] [] (pron.2 + delta) rfl
      rw [length_nil, nil_append, nil_append, append_nil, append_nil, Nat.zero_add] at hover
      rw [if_pos rfl, if_pos rfl, Nat.zero_add, ← hlength, hover]

theorem fits_addReading (h : item.Fits) (keys : List (BitVec 16)) (delta : BitVec 32) :
    (item.addReading keys delta).Fits := by
  rw [addReading]
  split_ifs with hlength
  · cases hadd : addToReading keys delta 0 item.prons with
    | none => exact fits_pushReading h delta hlength
    | some prons => exact (fits_of_keys h (addToReading_keys keys delta hadd)).1
  · exact h

theorem phrase_addReading (item : ChunkItem) (keys : List (BitVec 16)) (delta : BitVec 32) :
    (item.addReading keys delta).phrase = item.phrase := by
  rw [addReading]
  split_ifs
  · cases addToReading keys delta 0 item.prons <;> rfl
  · rfl

/-- The edit of the rows is the edit of the bytes. -/
theorem addSystemReading_eq
    (hlength : item.phrase.length = keys.length) (hkeys : KeysClear keys)
    (hprons : ∀ pron ∈ item.prons, pron.1.length = keys.length ∧ KeysClear pron.1) (delta : BitVec 32) :
    item.addSystemReading keys delta = item.addReading keys delta := by
  rw [addSystemReading, addReading, if_pos hlength, mergeInto_eq hkeys delta hprons]
  cases addToReading keys delta 0 item.prons with
  | some prons => rfl
  | none =>
    dsimp only [pushReading]
    split_ifs <;> rfl

/-- An item that encodes still encodes with a reading more, to the bytes that the merge of its own bytes
gives. -/
theorem merged_addSystemReading {item : ChunkItem} {bytes : Bytes} (hbytes : encodePhraseItem item = .ok bytes)
    {keys : List (BitVec 16)} (hlength : keys.length = item.phrase.length) (hkeys : KeysClear keys)
    (hprons : ∀ pron ∈ item.prons, KeysClear pron.1) (delta : BitVec 32) :
    ∃ edited, encodePhraseItem (item.addSystemReading keys delta) = .ok edited ∧
      mergedReading ⟨bytes⟩ keys delta = .ok edited := by
  obtain ⟨hne, hfits, rfl⟩ := encodePhraseItem_eq_ok.mp hbytes
  have heq := addSystemReading_eq hlength.symm hkeys
    (fun pron hpron => ⟨(hfits.keys pron hpron).trans hlength.symm, hprons pron hpron⟩) delta
  refine ⟨bodyBytes (item.addReading keys delta), ?_, mergedReading_bodyBytes hfits hlength.symm delta⟩
  rw [heq]
  exact encodePhraseItem_eq_ok.mpr ⟨by rw [phrase_addReading]; exact hne, fits_addReading hfits keys delta, rfl⟩

/-- An item that has as many readings as its count holds. -/
def fullItem : ChunkItem := ⟨[0x4F60], 7, List.replicate 255 ([0x1234], 1)⟩

/-- The 256th reading of an item leaves none, in its rows and in its bytes. -/
theorem merged_addSystemReading_wraps :
    ∃ edited, encodePhraseItem (fullItem.addSystemReading [0x1235] 2) = .ok edited ∧
      mergedReading ⟨bodyBytes fullItem⟩ [0x1235] 2 = .ok edited := by
  have hpron : ∀ pron ∈ fullItem.prons, pron = ([0x1234], 1) := fun pron => List.eq_of_mem_replicate
  have hfits : fullItem.Fits :=
    ⟨by decide, by rw [fullItem, List.length_replicate], fun pron h => by rw [hpron pron h]; rfl⟩
  have hbytes : encodePhraseItem fullItem = .ok (bodyBytes fullItem) :=
    encodePhraseItem_eq_ok.mpr ⟨List.cons_ne_nil _ _, hfits, rfl⟩
  have hclear : ∀ pron ∈ fullItem.prons, KeysClear pron.1 := by
    intro pron h key hkey
    rw [hpron pron h] at hkey
    rw [List.mem_singleton.mp hkey]
    rfl
  have hkeys : KeysClear [0x1235] := by
    intro key hkey
    rw [List.mem_singleton.mp hkey]
    rfl
  exact merged_addSystemReading hbytes rfl hkeys hclear 2

end Oxpinyin
