import Oxpinyin.UserLibrary

/-!
# Edits of an item

What the edits of a user library do to one item, and that the scans and writes in its bytes
do the same : `findReading_eq` and `overwrite_freq` for a delta on one reading,
`pushReading_bodyBytes` for a reading more, `trainLoop_eq` for the training loop.
-/

namespace Oxpinyin

open List LittleEndian ChunkFile UserLibrary

/-- A reading : its keys and its frequency. -/
abbrev Pron := List (BitVec 16) × BitVec 32

/-! ## Edits of an item -/

/-- Two lists of keys agree, the unused bit of each key apart. -/
def keysAgree (stored keys : List (BitVec 16)) : Bool :=
  (stored.zip keys).all fun pair => pair.1 &&& 0x7fff == pair.2 &&& 0x7fff

/-- The readings with a delta on the first that has the keys, if one has. The delta is left out
where the frequencies up to it have no room. -/
def addToReading (keys : List (BitVec 16)) (delta : BitVec 32) : BitVec 32 → List Pron → Option (List Pron)
  | _, [] => none
  | before, pron :: rest =>
    if keysAgree pron.1 keys then
      if (before + pron.2).toNat + delta.toNat < 2 ^ 32 then some ((pron.1, pron.2 + delta) :: rest)
      else some (pron :: rest)
    else (addToReading keys delta (before + pron.2) rest).map (pron :: ·)

/-- The readings with a delta on each that a query matches, until there is no room for one. -/
def trainReadings (query : List ChewingKey) (delta : BitVec 32) : BitVec 32 → List Pron → List Pron
  | _, [] => []
  | before, pron :: rest =>
    if pronunciationMatches query pron.1 then
      if (before + pron.2).toNat + delta.toNat < 2 ^ 32 then
        (pron.1, pron.2 + delta) :: trainReadings query delta (before + pron.2 + delta) rest
      else pron :: rest
    else pron :: trainReadings query delta (before + pron.2) rest

namespace ChunkFile.ChunkItem

/-- A reading more. A full item is left with none. -/
def pushReading (item : ChunkItem) (keys : List (BitVec 16)) (delta : BitVec 32) : ChunkItem :=
  { item with prons := if item.prons.length = 255 then [] else item.prons ++ [(keys, delta)] }

/-- A reading more, or a delta on the one with its keys. -/
def addReading (item : ChunkItem) (keys : List (BitVec 16)) (delta : BitVec 32) : ChunkItem :=
  if item.phrase.length = keys.length then
    match addToReading keys delta 0 item.prons with
    | some prons => { item with prons := prons }
    | none => item.pushReading keys delta
  else item

/-- One query trained. -/
def trainOne (delta : BitVec 32) (item : ChunkItem) (query : List ChewingKey) : ChunkItem :=
  if query.length = item.phrase.length then
    { item with prons := trainReadings query delta 0 item.prons }
  else item

end ChunkFile.ChunkItem

/-! ## Edits in the bytes of an item -/

section Bytes

variable {item : ChunkItem} {prons : List Pron}

/-- Other frequencies on the same keys. -/
theorem fits_of_keys (h : item.Fits) (hkeys : prons.map Prod.fst = item.prons.map Prod.fst) :
    ChunkItem.Fits { item with prons := prons } ∧
      (bodyBytes { item with prons := prons }).length = (bodyBytes item).length := by
  have hlength : prons.length = item.prons.length := by
    simpa using congrArg List.length hkeys
  have hfits : ChunkItem.Fits { item with prons := prons } := by
    refine ⟨h.phrase, hlength.trans_le h.prons, fun pron hpron => ?_⟩
    obtain ⟨other, hother, heq⟩ := mem_map.mp (hkeys ▸ mem_map_of_mem hpron)
    rw [← heq]
    exact h.keys other hother
  refine ⟨hfits, ?_⟩
  rw [length_bodyBytes hfits, length_bodyBytes h, hlength]

variable {front back : List Pron} {pron : Pron}

/-- One reading in the bytes of an item, whatever its frequency. -/
theorem bodyBytes_around (h : item.Fits)
    (hprons : item.prons = front ++ pron :: back) :
    ∃ left right, left.length = itemHeaderSize + 4 * item.phrase.length +
        front.length * (2 * item.phrase.length + 4) ∧
      (pron.1.flatMap le16).length = 2 * item.phrase.length ∧
      bodyBytes item = left ++ pron.1.flatMap le16 ++ le32 pron.2 ++ right ∧
      ∀ freq, bodyBytes { item with prons := front ++ (pron.1, freq) :: back } =
        left ++ pron.1.flatMap le16 ++ le32 freq ++ right := by
  have hfront : (front.flatMap pronBytes).length = front.length * (2 * item.phrase.length + 4) := by
    rw [length_flatMap_pronBytes fun p hp => h.keys p (by rw [hprons]; exact mem_append_left _ hp),
      Nat.mul_comm item.phrase.length]
  have hpron : pron.1.length = item.phrase.length := h.keys pron (by rw [hprons]; simp)
  have hbytes : ∀ freq, bodyBytes { item with prons := front ++ (pron.1, freq) :: back } =
      (UInt8.ofNat item.phrase.length :: UInt8.ofNat item.prons.length ::
        (le32 item.unigram ++ item.phrase.flatMap le32 ++ front.flatMap pronBytes)) ++
      pron.1.flatMap le16 ++ le32 freq ++ back.flatMap pronBytes := by
    intro freq
    simp [bodyBytes, pronBytes, hprons]
  refine ⟨_, _, ?_, ?_, ?_, hbytes⟩
  · rw [length_cons, length_cons, length_append, length_append, length_le32,
      length_flatMap_le32, hfront, itemHeaderSize]
    omega
  · rw [length_flatMap_le16, hpron, Nat.mul_comm]
  · have hsame : { item with prons := front ++ (pron.1, pron.2) :: back } = item := by
      rw [← hprons]
    rw [← hbytes pron.2, hsame]

/-- A frequency written over in the content. -/
theorem overwrite_freq (h : item.Fits)
    (hprons : item.prons = front ++ pron :: back) (before behind : Bytes) (freq : BitVec 32) {position : Nat}
    (hposition : position = before.length + itemHeaderSize + 4 * item.phrase.length +
      front.length * (2 * item.phrase.length + 4) + 2 * item.phrase.length) :
    overwrite (before ++ bodyBytes item ++ behind) position (le32 freq) =
      before ++ bodyBytes { item with prons := front ++ (pron.1, freq) :: back } ++ behind := by
  obtain ⟨left, right, hleft, hkeys, hbody, hedited⟩ := bodyBytes_around h hprons
  have hcut : before ++ bodyBytes item ++ behind =
      (before ++ left ++ pron.1.flatMap le16) ++ le32 pron.2 ++ (right ++ behind) := by
    rw [hbody]
    simp
  have hat : position = (before ++ left ++ pron.1.flatMap le16).length := by
    rw [length_append, length_append, hleft, hkeys, hposition]
    omega
  rw [hcut, hat, overwrite_append _ _ _ _ (by rw [length_le32, length_le32]), hedited]
  simp

theorem addToReading_keys (keys : List (BitVec 16)) (delta : BitVec 32) :
    ∀ {before : BitVec 32} {prons new : List Pron}, addToReading keys delta before prons = some new →
      new.map Prod.fst = prons.map Prod.fst
  | _, [], _, h => by cases h
  | before, pron :: rest, new, h => by
    rw [addToReading] at h
    split_ifs at h
    · rw [← Option.some.inj h]
      rfl
    · rw [← Option.some.inj h]
    · obtain ⟨tail, htail, rfl⟩ := Option.map_eq_some_iff.mp h
      rw [map_cons, map_cons, addToReading_keys keys delta htail]

theorem trainReadings_keys (query : List ChewingKey) (delta : BitVec 32) :
    ∀ (before : BitVec 32) (prons : List Pron),
      (trainReadings query delta before prons).map Prod.fst = prons.map Prod.fst
  | _, [] => rfl
  | before, pron :: rest => by
    rw [trainReadings]
    split_ifs
    · rw [map_cons, map_cons, trainReadings_keys query delta]
    · rfl
    · rw [map_cons, map_cons, trainReadings_keys query delta]

theorem sameKeys_flatMap (stored keys : List (BitVec 16)) :
    sameKeys (stored.flatMap le16) keys = keysAgree stored keys := by
  rw [sameKeys, map_word16_chunks, keysAgree]

/-- The scan of the stored readings finds the one that takes the delta. -/
theorem findReading_eq (keys : List (BitVec 16)) (delta : BitVec 32) :
    ∀ (prons : List Pron) (i : Nat) (before : BitVec 32),
      (findReading keys delta (prons.map fun pron => ⟨pron.1.flatMap le16, pron.2⟩) i before =
          none ∧ addToReading keys delta before prons = none) ∨
      ∃ front pron back accepted, prons = front ++ pron :: back ∧
        findReading keys delta (prons.map fun pron => ⟨pron.1.flatMap le16, pron.2⟩) i before =
          some (i + front.length, pron.2, accepted) ∧
        addToReading keys delta before prons =
          some (front ++ (if accepted then (pron.1, pron.2 + delta) else pron) :: back)
  | [], _, _ => Or.inl ⟨rfl, rfl⟩
  | pron :: rest, i, before => by
    rw [map_cons, findReading, addToReading]
    dsimp only
    rw [sameKeys_flatMap]
    by_cases hkeys : keysAgree pron.1 keys = true
    · rw [if_pos hkeys, if_pos hkeys]
      refine Or.inr ⟨[], pron, rest, _, rfl, rfl, ?_⟩
      by_cases hroom : (before + pron.2).toNat + delta.toNat < 2 ^ 32
      · rw [if_pos hroom, decide_eq_true hroom]
        rfl
      · rw [if_neg hroom, decide_eq_false hroom]
        rfl
    · rw [if_neg hkeys, if_neg hkeys]
      rcases findReading_eq keys delta rest (i + 1) (before + pron.2) with
        ⟨hfind, hadd⟩ | ⟨front, other, back, accepted, hrest, hfind, hadd⟩
      · exact Or.inl ⟨hfind, by rw [hadd]; rfl⟩
      · refine Or.inr ⟨pron :: front, other, back, accepted, by rw [hrest]; rfl, ?_, by rw [hadd]; rfl⟩
        rw [hfind, length_cons, Nat.add_assoc, Nat.add_comm 1]

/-- The readings of an item trained in its bytes. -/
theorem trainLoop_eq (query : List ChewingKey) (delta : BitVec 32) (before behind : Bytes) :
    ∀ (rest done : List Pron) (item : ChunkItem) (sum : BitVec 32), item.Fits → item.prons = done ++ rest →
      trainLoop query delta (before.length + itemHeaderSize + 4 * item.phrase.length)
          item.phrase.length rest.length done.length sum (before ++ bodyBytes item ++ behind) =
        before ++ bodyBytes { item with prons := done ++ trainReadings query delta sum rest } ++ behind
  | [], done, item, sum, _, hprons => by
    rw [trainReadings, ← hprons]
    rfl
  | pron :: rest, done, item, sum, hfits, hprons => by
    obtain ⟨left, right, hleft, hkeys, hbody, hedited⟩ := bodyBytes_around hfits hprons
    set position := before.length + itemHeaderSize + 4 * item.phrase.length +
      done.length * (2 * item.phrase.length + 4) with hposition
    have hat : position = (before ++ left).length := by
      rw [length_append, hleft]
      omega
    have hfreq : word32At (before ++ bodyBytes item ++ behind) (position + 2 * item.phrase.length) =
        some pron.2 := by
      refine @word32At_eq _ (before ++ left ++ pron.1.flatMap le16) (right ++ behind) _ _ ?_ ?_
      · rw [hbody]
        simp
      · rw [length_append, hkeys, hat]
    have hstored : range? (before ++ bodyBytes item ++ behind) position
        (position + 2 * item.phrase.length) = some (pron.1.flatMap le16) := by
      rw [show before ++ bodyBytes item ++ behind = (before ++ left) ++ pron.1.flatMap le16 ++
        (le32 pron.2 ++ right ++ behind) by rw [hbody]; simp]
      exact range?_append _ _ _ hat (by rw [hkeys, hat])
    have hover : overwrite (before ++ bodyBytes item ++ behind) (position + 2 * item.phrase.length)
        (le32 (pron.2 + delta)) =
        before ++ bodyBytes { item with prons := done ++ (pron.1, pron.2 + delta) :: rest } ++ behind :=
      overwrite_freq hfits hprons before behind _ rfl
    rw [length_cons, trainLoop, trainReadings, ← hposition, hfreq, hstored, Option.getD_some,
      Option.getD_some, map_word16_chunks]
    split_ifs with hmatch hroom
    · have hnext := trainLoop_eq query delta before behind rest (done ++ [(pron.1, pron.2 + delta)])
        { item with prons := done ++ (pron.1, pron.2 + delta) :: rest } (sum + pron.2 + delta)
        (fits_of_keys hfits (by simp [hprons])).1 (by simp)
      rw [hover]
      simpa using hnext
    · rw [← hprons]
    · have hnext := trainLoop_eq query delta before behind rest (done ++ [pron]) item (sum + pron.2) hfits
        (by simp [hprons])
      simpa using hnext

variable {keys : List (BitVec 16)}

/-- A reading more in the bytes of an item. -/
theorem pushReading_bodyBytes (h : item.Fits) (delta : BitVec 32)
    (hkeys : item.phrase.length = keys.length) :
    pushReading (bodyBytes item) keys delta = bodyBytes (item.pushReading keys delta) := by
  have hcount : UInt8.ofNat item.prons.length + 1 = UInt8.ofNat (item.prons.length + 1) := by
    rw [UInt8.ofNat_add]
    rfl
  have hbytes : (bodyBytes item).modify 1 (· + 1) =
      (UInt8.ofNat item.phrase.length :: UInt8.ofNat (item.prons.length + 1) ::
        (le32 item.unigram ++ item.phrase.flatMap le32)) ++ item.prons.flatMap pronBytes := by
    rw [← hcount]
    simp [bodyBytes]
  rw [pushReading, hbytes, ChunkItem.pushReading]
  by_cases hfull : item.prons.length = 255
  · rw [if_pos hfull, if_pos (by rw [hfull]; rfl), take_left' ?_, hfull]
    · simp [bodyBytes]
    · simp [itemHeaderSize, hkeys]
      omega
  · have hsmall : item.prons.length + 1 ≤ 255 := by
      have := h.prons
      omega
    have hne : UInt8.ofNat (item.prons.length + 1) ≠ 0 := by
      intro hzero
      have hnat := congrArg UInt8.toNat hzero
      rw [toNat_ofNat_of_le hsmall] at hnat
      simp at hnat
    rw [if_neg hfull, if_neg (by simpa using hne)]
    simp [bodyBytes, pronBytes]

theorem fits_pushReading (h : item.Fits) (delta : BitVec 32)
    (hkeys : item.phrase.length = keys.length) : (item.pushReading keys delta).Fits := by
  have hcount := h.prons
  refine ⟨h.phrase, ?_, fun pron hpron => ?_⟩
  · rw [ChunkItem.pushReading]
    split_ifs with hfull
    · simp
    · rw [length_append, length_singleton]
      omega
  · rw [ChunkItem.pushReading] at hpron
    split_ifs at hpron with hfull
    · cases hpron
    · rcases mem_append.mp hpron with hold | hnew
      · exact h.keys pron hold
      · rw [mem_singleton.mp hnew]
        exact hkeys.symm

end Bytes

end Oxpinyin
