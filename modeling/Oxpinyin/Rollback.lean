import Oxpinyin.Merge

/-!
# Taking a replay back

Every write of a replay to the mapping leaves an entry that restores the bytes it replaced,
and a write to a grown copy leaves none. Along any records, whatever their payloads and
whether they stop, the entries applied last first give back the mapping and the total the
replay started from (`Tracked`), so `rollback` returns the library as it was
(`rollback_applied`).
-/

namespace Oxpinyin.Replay

open Option List LittleEndian ChunkFile Merge Content Chunk Undo

/-! ## The entries over the mapping -/

variable {new old : Bytes} {backing : Backing} {total : BitVec 32}

/-- The mapping and the total of a content. -/
def Content.mapped (content : Content) : Backing × BitVec 32 := (content.backing, content.total)

/-- What an entry does to the mapping and the total. -/
def Undo.restore (mapped : Backing × BitVec 32) : Undo → Backing × BitVec 32
  | .offset slot old =>
    ({ mapped.1 with
        offsets := (pokeShipped mapped.1.offsets (slot.toNat * 4) (le32 old)).getD mapped.1.offsets }, mapped.2)
  | .total old => (mapped.1, old)
  | .content at_ old =>
    ({ mapped.1 with content := (pokeShipped mapped.1.content at_ old).getD mapped.1.content }, mapped.2)

theorem mapped_undoEntry (content : Content) (entry : Undo) :
    (undoEntry content entry).mapped = entry.restore content.mapped := by
  cases entry with
  | offset slot old =>
    simp only [undoEntry, restoreSlot, restore, mapped]
    cases pokeShipped content.backing.offsets (slot.toNat * 4) (le32 old) <;> rfl
  | total old => rfl
  | content offset old =>
    simp only [undoEntry, writeShipped, restore, mapped]
    cases pokeShipped content.backing.content offset old <;> rfl

theorem mapped_foldl_undoEntry (entries : List Undo) (content : Content) :
    (entries.foldl undoEntry content).mapped = entries.foldl restore content.mapped := by
  induction entries generalizing content with
  | nil => rfl
  | cons entry rest ih => rw [foldl_cons, ih, mapped_undoEntry, foldl_cons]

theorem pokeShipped_overwrite {shipped : Bytes} {offset : Nat}
    (hold : range? shipped offset (offset + old.length) = some old) (hnew : new.length = old.length) :
    pokeShipped (overwrite shipped offset new) offset old = some shipped := by
  have hle := (range?_bounds hold).2
  rw [pokeShipped, length_overwrite shipped new offset (by omega), if_pos hle, overwrite_overwrite hold hnew]

/-- A word written over in the offsets, and its entry. -/
theorem restore_offset {slot old : BitVec 32} (offset : BitVec 32)
    (hold : word32At backing.offsets (slot.toNat * 4) = some old) :
    restore ({ backing with offsets := overwrite backing.offsets (slot.toNat * 4) (le32 offset) }, total)
      (.offset slot old) = (backing, total) := by
  obtain ⟨part, hpart, rfl⟩ := map_eq_some_iff.mp hold
  have hlen : part.length = 4 := by
    obtain ⟨_, _, _, _, hstop⟩ := range?_eq_some_iff.mp hpart
    omega
  have hback : pokeShipped (overwrite backing.offsets (slot.toNat * 4) (le32 offset)) (slot.toNat * 4)
      (le32 (word32 part)) = some backing.offsets := by
    rw [le32_word32 hlen]
    exact pokeShipped_overwrite (by rw [hlen]; exact hpart) (by rw [length_le32, hlen])
  simp only [restore, hback, getD_some]

/-- Bytes written over in the content, and their entry. -/
theorem restore_content {offset : Nat}
    (hold : range? backing.content offset (offset + old.length) = some old) (hnew : new.length = old.length) :
    restore ({ backing with content := overwrite backing.content offset new }, total)
      (.content offset old) = (backing, total) := by
  simp only [restore, pokeShipped_overwrite hold hnew, getD_some]

/-! ## Writes of a chunk -/

namespace Chunk

variable {chunk : Chunk} {shipped bytes : Bytes} {offset : Nat}

/-- A write that grows lands in the mapping, over bytes it has, or in a copy. -/
theorem setContent_cases (h : chunk.Viewing shipped) (offset : Nat) (bytes : Bytes) :
    (chunk.hitsMapping offset bytes.length = true ∧ chunk.owned = none ∧
      chunk.setContent shipped offset bytes = (chunk, overwrite shipped offset bytes) ∧
      offset + bytes.length ≤ shipped.length) ∨ (chunk.hitsMapping offset bytes.length = false ∧
      (chunk.setContent shipped offset bytes).1.owned ≠ none ∧
      (chunk.setContent shipped offset bytes).2 = shipped) := by
  unfold setContent hitsMapping
  cases howned : chunk.owned with
  | some owned => exact Or.inr ⟨rfl, by simp, rfl⟩
  | none =>
    obtain ⟨hend, hcapacity⟩ := h howned
    by_cases hle : offset + bytes.length ≤ shipped.length
    · exact Or.inl ⟨by simpa [hcapacity] using hle, rfl, by simp [hend, hle], hle⟩
    · exact Or.inr ⟨by simpa [hcapacity] using hle, by simp [hend, hle], by simp [hend, hle]⟩

/-- A write with no growth lands in the mapping or in the copy. -/
theorem poke_cases {after : Chunk × Bytes} (hpoke : chunk.poke shipped offset bytes = some after) :
    (chunk.hitsMapping offset bytes.length = true ∧ chunk.owned = none ∧
      after = (chunk, overwrite shipped offset bytes) ∧ offset + bytes.length ≤ shipped.length) ∨
    (chunk.hitsMapping offset bytes.length = false ∧ after.1.owned ≠ none ∧ after.2 = shipped) := by
  unfold poke at hpoke
  unfold hitsMapping
  split_ifs at hpoke with hcapacity
  cases howned : chunk.owned with
  | some owned =>
    rw [howned] at hpoke
    obtain rfl := some.inj hpoke
    exact Or.inr ⟨rfl, by simp, rfl⟩
  | none =>
    rw [howned] at hpoke
    obtain ⟨written, hwritten, rfl⟩ := map_eq_some_iff.mp hpoke
    unfold pokeShipped at hwritten
    split_ifs at hwritten with hle
    obtain rfl := some.inj hwritten
    refine Or.inl ⟨?_, rfl, rfl, hle⟩
    simpa using Nat.not_lt.mp hcapacity

end Chunk

/-! ## The parts of a record -/

namespace Merge

/-- The entries of a replay lead back to where it started. -/
structure Tracked (start : Content × Provenance) (merge : Merge) : Prop where
  initial : merge.initialProvenance = start.2
  items : merge.content.items.Viewing merge.content.backing.content
  slots : merge.content.slots.Viewing merge.content.backing.offsets
  stale : ∀ offset len appends, merge.stale = .owned offset len appends → merge.content.items.owned ≠ none
  undone : merge.undo.foldl Undo.restore merge.content.mapped = start.1.mapped

variable {start : Content × Provenance} {merge : Merge}

/-- Notes change the two sets, the touched slots and the mark of an exceptional record alone. -/
def Notes (before after : Merge) : Prop :=
  ∃ exceptional provenance touched,
    after = { before with exceptional := exceptional, provenance := provenance, touched := touched }

theorem Notes.refl (merge : Merge) : Notes merge merge := ⟨merge.exceptional, merge.provenance, merge.touched, rfl⟩

theorem Notes.trans {a b c : Merge} (hab : Notes a b) (hbc : Notes b c) : Notes a c := by
  obtain ⟨_, _, _, rfl⟩ := hab
  obtain ⟨exceptional, provenance, touched, rfl⟩ := hbc
  exact ⟨exceptional, provenance, touched, rfl⟩

theorem Notes.content {after : Merge} (h : Notes merge after) : after.content = merge.content := by
  obtain ⟨_, _, _, rfl⟩ := h
  rfl

section

variable (merge : Merge)

theorem notes_noteAbsent (slot : BitVec 32) : Notes merge (merge.noteAbsent slot) := by
  unfold noteAbsent
  split_ifs
  · exact ⟨merge.exceptional, _, merge.touched, rfl⟩
  · exact .refl merge

theorem notes_notePresent (slot : BitVec 32) : Notes merge (merge.notePresent slot) := by
  unfold notePresent
  split_ifs
  · exact ⟨merge.exceptional, _, merge.touched, rfl⟩
  · exact .refl merge

theorem notes_backfill (token : BitVec 32) : Notes merge (merge.backfill token) := by
  have hnoted := merge.notes_notePresent (token &&& phraseMask)
  unfold backfill
  dsimp only
  split_ifs
  · obtain ⟨exceptional, provenance, touched, heq⟩ := hnoted
    rw [heq]
    exact ⟨exceptional, provenance, _, rfl⟩
  · exact hnoted

theorem notes_beginExceptional (prior : List (BitVec 32)) :
    Notes merge (merge.beginExceptional prior) := by
  have hbegun : Notes merge { merge with exceptional := true } := ⟨true, merge.provenance, merge.touched, rfl⟩
  unfold beginExceptional
  dsimp only
  split_ifs
  · exact .refl merge
  · exact foldlRecOn prior _ hbegun fun filled hfilled token _ => hfilled.trans (notes_backfill filled token)
  · exact hbegun

theorem notes_noteStale : Notes merge merge.noteStale := by
  unfold noteStale
  split
  · exact notes_notePresent merge _
  · exact .refl merge

/-- A MODIFY in place begins, logs what it writes over and writes. -/
theorem modifyInPlace_eq (token : BitVec 32) (offset len : Nat) (bytes oldItem newItem : Bytes)
    (prior : List (BitVec 32)) : ∃ begun undo,
      begun = (if sameHeader newItem bytes then merge else merge.beginExceptional prior) ∧
      merge.modifyInPlace token offset len bytes oldItem newItem prior =
        match begun.content.write offset newItem with
        | none => ({ begun with undo := undo }, some (.mismatch "MODIFY" token))
        | some content => (recordModify { begun with
            undo := undo
            content := content
            overreach := begun.overreach || !sameHeader newItem bytes && claimsMore newItem len }
            (token &&& phraseMask), none) := by
  unfold modifyInPlace
  dsimp only
  generalize (if sameHeader newItem bytes then merge else merge.beginExceptional prior) = begun
  split_ifs
  · exact ⟨begun, _, rfl, rfl⟩
  · exact ⟨begun, begun.undo, rfl, rfl⟩

end

namespace Tracked

theorem ofNotes {after : Merge} (h : Tracked start merge) (hnotes : Notes merge after) : Tracked start after := by
  obtain ⟨_, _, _, rfl⟩ := hnotes
  exact ⟨h.initial, h.items, h.slots, h.stale, h.undone⟩

variable (h : Tracked start merge)
include h

theorem setTotal (total : BitVec 32) : Tracked start (merge.setTotal total) := by
  refine ⟨h.initial, h.items, h.slots, h.stale, ?_⟩
  rw [← h.undone]
  rfl

theorem addTotal (delta : BitVec 32) : Tracked start (merge.addTotal delta) :=
  h.setTotal _

theorem subtractTotal (delta : BitVec 32) : Tracked start (merge.subtractTotal delta) :=
  h.setTotal _

/-- Naming a slot leads back. -/
theorem setOffset (slot offset : BitVec 32) : Tracked start (merge.setOffset slot offset) := by
  have hfour := length_le32 offset
  rcases setContent_cases h.slots (slot.toNat * 4) (le32 offset) with
    ⟨hhits, howned, hset, hle⟩ | ⟨hhits, howned, hset⟩
  · rw [hfour] at hhits hle
    obtain ⟨part, hpart, _⟩ := exists_range? hle
    have hword : word32At merge.content.backing.offsets (slot.toNat * 4) = some (word32 part) := by
      rw [word32At, hpart, map_some]
    have hold : merge.content.slotOffset slot = some (word32 part) := by
      rw [slotOffset, (h.slots howned).1, howned]
      dsimp only
      rw [if_neg (Nat.not_lt.mpr hle), hword]
    have hafter : merge.setOffset slot offset =
        { merge with
          touched := slot :: merge.touched
          undo := .offset slot (word32 part) :: merge.undo
          content := { merge.content with
            backing := { merge.content.backing with
              offsets := overwrite merge.content.backing.offsets (slot.toNat * 4) (le32 offset) } } } := by
      simp only [Merge.setOffset, slotWriteHitsMapping, hhits, if_true, hold, setSlotOffset, hset]
    rw [hafter]
    refine ⟨h.initial, h.items, fun hnone => ?_, h.stale, ?_⟩
    · rw [length_overwrite _ _ _ (by rw [hfour]; exact hle)]
      exact h.slots hnone
    · rw [← h.undone, foldl_cons, mapped, restore_offset offset hword]
      rfl
  · rw [hfour] at hhits
    have hafter : merge.setOffset slot offset =
        { merge with
          touched := slot :: merge.touched
          content := { merge.content with
            slots := (merge.content.slots.setContent merge.content.backing.offsets (slot.toNat * 4)
              (le32 offset)).1 } } := by
      simp only [Merge.setOffset, slotWriteHitsMapping, hhits, setSlotOffset, hset,
        Bool.false_eq_true, if_false]
    rw [hafter]
    exact ⟨h.initial, h.items, fun hnone => absurd hnone howned, h.stale, h.undone⟩

/-- An append leads back. -/
theorem appendLogged (payload : Bytes) : Tracked start (merge.appendLogged payload).1 := by
  set at_ := (appendOffset merge.content.dataLen).toNat with hat
  rcases setContent_cases h.items at_ payload with ⟨hhits, howned, hset, hle⟩ | ⟨hhits, howned, hset⟩
  · have hin : at_ + payload.length ≤ merge.content.dataLen := by
      rw [dataLen, (h.items howned).1]
      exact hle
    obtain ⟨part, hpart, hlen⟩ := exists_range? hle
    have hold : (merge.content.backing.content.drop at_).take payload.length = part := by
      rw [range?, if_pos ⟨Nat.le_add_right _ _, hle⟩, Nat.add_sub_cancel_left] at hpart
      exact some.inj hpart
    have hafter : (merge.appendLogged payload).1 =
        { merge with
          overreach := true
          undo := .content at_ part :: merge.undo
          content := { merge.content with
            backing := { merge.content.backing with
              content := overwrite merge.content.backing.content at_ payload } } } := by
      simp only [Merge.appendLogged, append, ← hat, hin, hhits, hold, hset, decide_true, Bool.and_self,
        if_true, Bool.or_true]
    rw [hafter]
    refine ⟨h.initial, fun hnone => ?_, h.slots, h.stale, ?_⟩
    · rw [length_overwrite _ _ _ hle]
      exact h.items hnone
    · rw [← hlen] at hpart
      rw [← h.undone, foldl_cons, mapped, restore_content hpart hlen.symm]
      rfl
  · have hafter : ∃ overreach appends, (merge.appendLogged payload).1 =
        { merge with
          overreach := overreach
          appends := appends
          content := { merge.content with
            items := (merge.content.items.setContent merge.content.backing.content at_ payload).1 } } := by
      refine ⟨(merge.appendLogged payload).1.overreach, (merge.appendLogged payload).1.appends, ?_⟩
      simp only [Merge.appendLogged, append, ← hat, hhits, hset, Bool.and_false, Bool.false_eq_true, if_false]
    obtain ⟨overreach, appends, hafter⟩ := hafter
    rw [hafter]
    exact ⟨h.initial, fun hnone => absurd hnone howned, h.slots, fun _ _ _ _ => howned, h.undone⟩

theorem add (token : BitVec 32) (payload : Bytes) (prior : List (BitVec 32)) :
    Tracked start (merge.add token payload prior).1 := by
  unfold Merge.add
  dsimp only
  split_ifs
  · exact h
  · have hbegun := h.ofNotes (notes_beginExceptional merge prior)
    refine ((appendLogged ?_ payload).setOffset _ _).addTotal _
    split
    · exact hbegun
    · exact hbegun.ofNotes (notes_noteAbsent _ _)

theorem remove (token : BitVec 32) (oldItem : Bytes) (prior : List (BitVec 32)) :
    Tracked start (merge.remove token oldItem prior).1 := by
  have hbegun := h.ofNotes (notes_beginExceptional merge prior)
  unfold Merge.remove
  dsimp only
  split
  · exact h
  · split_ifs
    · exact h
    · exact (hbegun.ofNotes (notes_noteAbsent _ _)).setOffset _ _
  · split
    · exact h
    · exact ((hbegun.ofNotes (notes_notePresent _ _)).setOffset _ _).subtractTotal _

variable {old : Bytes}

/-- An entry for a range of the mapping, and a write over it. -/
theorem writeMapped {offset : Nat} {new : Bytes}
    (hold : range? merge.content.backing.content offset (offset + old.length) = some old)
    (hnew : new.length = old.length) :
    Tracked start { merge with
      undo := .content offset old :: merge.undo
      content := { merge.content with
        backing := { merge.content.backing with
          content := overwrite merge.content.backing.content offset new } } } := by
  have hle := (range?_bounds hold).2
  refine ⟨h.initial, fun hnone => ?_, h.slots, h.stale, ?_⟩
  · rw [length_overwrite _ _ _ (by omega)]
    exact h.items hnone
  · rw [← h.undone, foldl_cons, mapped, restore_content hold hnew]
    rfl

/-- A write over the stale item leads back. -/
theorem staleWrite {place : Place} {bytes : Bytes} (hplace : merge.stalePlace = some place)
    (hread : merge.staleRead place = some old) (hsize : bytes.length ≤ merge.staleSize) :
    Tracked start (merge.staleWrite place bytes old).1 := by
  cases place with
  | default =>
    rw [Merge.staleWrite]
    split
    · exact ⟨h.initial, h.items, h.slots, fun _ _ _ hstale => (by cases hstale), h.undone⟩
    · exact h
  | shipped offset len =>
    have hrange : range? merge.content.backing.content offset (offset + len) = some old := hread
    have hlength : bytes.length ≤ len := by
      unfold stalePlace at hplace
      split at hplace
      · cases hplace
      · rename_i hstale
        obtain ⟨rfl, rfl⟩ := Place.shipped.inj (some.inj hplace)
        rw [staleSize, hstale] at hsize
        exact hsize
      · split_ifs at hplace
        cases hplace
    obtain ⟨hlen, hshort⟩ := range?_take hrange hlength
    have hfits : bytes.length ≤ old.length := by
      rw [← hlen, length_take]
      exact Nat.min_le_right _ _
    have hle : offset + bytes.length ≤ merge.content.backing.content.length := by
      rw [hlen] at hshort
      exact (range?_bounds hshort).2
    obtain ⟨exceptional, provenance, touched, hnoted⟩ := merge.notes_noteStale
    have hafter : (merge.staleWrite (.shipped offset len) bytes old).1 =
        { merge with
          exceptional := exceptional
          provenance := provenance
          touched := touched
          undo := .content offset (old.take bytes.length) :: merge.undo
          content := { merge.content with
            backing := { merge.content.backing with
              content := overwrite merge.content.backing.content offset bytes } } } := by
      simp only [Merge.staleWrite, hnoted, shippedHas, hle, hfits, decide_true, Bool.and_self, if_true,
        writeShipped, pokeShipped, map_some]
    have hwritten := (h.ofNotes ⟨exceptional, provenance, touched, rfl⟩).writeMapped hshort hlen.symm
    rw [hafter]
    exact hwritten
  | owned offset len =>
    have howned : merge.content.items.owned ≠ none := by
      unfold stalePlace at hplace
      split at hplace
      · cases hplace
      · cases hplace
      · rename_i hstale
        exact h.stale _ _ _ hstale
    obtain ⟨_, _, _, hnoted⟩ := merge.notes_noteStale
    simp only [Merge.staleWrite, hnoted]
    cases hwrite : merge.content.write offset bytes with
    | none => exact ⟨h.initial, h.items, h.slots, h.stale, h.undone⟩
    | some content =>
      obtain ⟨after, hpoke, rfl⟩ := map_eq_some_iff.mp hwrite
      rcases poke_cases hpoke with ⟨_, hnone, _⟩ | ⟨_, hafter, hsame⟩
      · exact absurd hnone howned
      · rw [hsame]
        exact ⟨h.initial, fun hnone => absurd hnone hafter, h.slots, fun _ _ _ _ => hafter, h.undone⟩

theorem modifyStale (token : BitVec 32) (oldItem newItem : Bytes) (prior : List (BitVec 32)) :
    Tracked start (merge.modifyStale token oldItem newItem prior).1 := by
  unfold Merge.modifyStale
  cases hplace : merge.stalePlace with
  | none => exact h
  | some place =>
    dsimp only
    cases hread : merge.staleRead place with
    | none => exact h
    | some bytes =>
      dsimp only
      by_cases hstop : bytes ≠ oldItem ∨ merge.staleSize < newItem.length
      · rw [if_pos hstop]
        exact h
      rw [if_neg hstop]
      rw [not_or, Decidable.not_not, Nat.not_lt] at hstop
      obtain ⟨rfl, hsize⟩ := hstop
      have hbegun := merge.notes_beginExceptional prior
      have hready := h.ofNotes hbegun
      obtain ⟨_, _, _, heq⟩ := hbegun
      rw [heq] at hready ⊢
      have hwritten := hready.staleWrite hplace hread hsize
      split_ifs
      · exact ⟨hwritten.initial, hwritten.items, hwritten.slots, hwritten.stale, hwritten.undone⟩
      · exact hwritten

theorem readInto (slot : BitVec 32) (offset len : Nat) : Tracked start (merge.readInto slot offset len) := by
  refine ⟨h.initial, h.items, h.slots, fun _ _ _ hstale => ?_, h.undone⟩
  simp only [Merge.readInto] at hstale
  split_ifs at hstale with howned
  exact isSome_iff_ne_none.mp howned

theorem modifyMove (slot : BitVec 32) (bytes newItem : Bytes) (prior : List (BitVec 32)) :
    Tracked start (merge.modifyMove slot bytes newItem prior) :=
  (((((h.ofNotes (notes_beginExceptional _ prior)).ofNotes (notes_notePresent _ slot)).subtractTotal _).addTotal
    _).appendLogged newItem).setOffset _ _

theorem recordModify (slot : BitVec 32) : Tracked start (merge.recordModify slot) := by
  unfold Merge.recordModify
  dsimp only
  split_ifs
  · have hnoted := h.ofNotes (merge.notes_notePresent slot)
    exact ⟨hnoted.initial, hnoted.items, hnoted.slots, hnoted.stale, hnoted.undone⟩
  · exact ⟨h.initial, h.items, h.slots, h.stale, h.undone⟩
  · exact ⟨h.initial, h.items, h.slots, h.stale, h.undone⟩

/-- The bytes a MODIFY compared are those it writes over. -/
theorem modifyInPlace (token : BitVec 32) {offset len : Nat} {oldItem newItem : Bytes} (prior : List (BitVec 32))
    (hread : merge.content.item offset len = some oldItem) (hfits : newItem.length ≤ len) :
    Tracked start (merge.modifyInPlace token offset len oldItem oldItem newItem prior).1 := by
  have hbegun : Notes merge (if sameHeader newItem oldItem then merge else merge.beginExceptional prior) := by
    split_ifs
    · exact .refl merge
    · exact notes_beginExceptional merge prior
  obtain ⟨exceptional, provenance, touched, hbegun⟩ := hbegun
  unfold Merge.modifyInPlace
  dsimp only
  rw [hbegun]
  dsimp only
  cases hhits : merge.content.items.hitsMapping offset newItem.length with
  | false =>
    rw [Bool.false_and, if_neg Bool.false_ne_true]
    cases hwrite : merge.content.write offset newItem with
    | none => exact ⟨h.initial, h.items, h.slots, h.stale, h.undone⟩
    | some content =>
      obtain ⟨after, hpoke, rfl⟩ := map_eq_some_iff.mp hwrite
      rcases poke_cases hpoke with ⟨htrue, _⟩ | ⟨_, hafter, hsame⟩
      · rw [hhits] at htrue
        cases htrue
      · dsimp only
        refine recordModify ?_ _
        refine ⟨h.initial, fun hnone => absurd hnone hafter, h.slots, fun _ _ _ _ => hafter, ?_⟩
        rw [← h.undone, mapped, hsame]
        rfl
  | true =>
    obtain ⟨howned, hcapacity⟩ := Bool.and_eq_true_iff.mp hhits
    rw [isNone_iff_eq_none] at howned
    rw [decide_eq_true_iff] at hcapacity
    have hrange : range? merge.content.backing.content offset (offset + len) = some oldItem := by
      unfold item at hread
      split_ifs at hread
      rw [howned] at hread
      exact hread
    obtain ⟨hlen, hshort⟩ := range?_take hrange hfits
    have hle : offset + newItem.length ≤ merge.content.backing.content.length := by
      rw [← hlen]
      exact (range?_bounds hshort).2
    have hwrite : merge.content.write offset newItem =
        some { merge.content with
          backing := { merge.content.backing with
            content := overwrite merge.content.backing.content offset newItem } } := by
      rw [write, poke, if_neg (Nat.not_lt.mpr hcapacity), howned]
      dsimp only
      rw [pokeShipped, if_pos hle]
      rfl
    have hold : newItem.length ≤ oldItem.length := by
      rw [← hlen, length_take]
      exact Nat.min_le_right _ _
    rw [decide_eq_true hold, Bool.and_self, if_pos rfl, hwrite]
    have hwritten := h.writeMapped hshort hlen.symm
    dsimp only
    refine recordModify ?_ _
    exact ⟨hwritten.initial, hwritten.items, hwritten.slots, hwritten.stale, hwritten.undone⟩

/-- A MODIFY leads back, whatever it finds. -/
theorem modify (token : BitVec 32) (oldItem newItem : Bytes) (prior : List (BitVec 32)) :
    Tracked start (merge.modify token oldItem newItem prior).1 := by
  unfold Merge.modify
  split
  · exact h
  · exact h.modifyStale token oldItem newItem prior
  · rename_i offset len _
    unfold modifyItem
    dsimp only
    have hread := h.readInto (token &&& phraseMask) offset len
    split
    · exact hread
    · rename_i bytes hbytes
      split_ifs with hold hlonger
      · exact hread
      · exact hread.modifyMove _ bytes newItem prior
      · obtain rfl := Decidable.not_not.mp hold
        exact hread.modifyInPlace token prior hbytes (Nat.not_lt.mp hlonger)

theorem applyBackfilling (record : LogRecord) (prior : List (BitVec 32)) :
    Tracked start (merge.applyBackfilling record prior).1 := by
  cases record with
  | add token newItem => exact h.add token newItem prior
  | remove token oldItem => exact h.remove token oldItem prior
  | modify token oldItem newItem => exact h.modify token oldItem newItem prior
  | modifyHeader oldTotal newTotal =>
    unfold Merge.applyBackfilling
    dsimp only
    split_ifs
    · exact h
    · exact h.setTotal newTotal

end Tracked

/-! ## Whole replays -/

/-- Records applied one after the other, each with the tokens its callback hands over, whether
or not they stop. -/
def applied (merge : Merge) (records : List (LogRecord × List (BitVec 32))) : Merge :=
  records.foldl (fun merge record => (merge.applyBackfilling record.1 record.2).1) merge

theorem Tracked.applied (h : Tracked start merge) (records : List (LogRecord × List (BitVec 32))) :
    Tracked start (merge.applied records) := by
  induction records generalizing merge with
  | nil => exact h
  | cons record rest ih => exact ih (h.applyBackfilling record.1 record.2)

theorem tracked_fromLive (original : Option SystemLibrary) (mapping : Backing) (total : BitVec 32) :
    Tracked (.new mapping total, ⟨[], []⟩) (fromLive original (.fromMapping mapping total)) :=
  ⟨rfl, viewing_shipped _, viewing_shipped _, fun _ _ _ hstale => (by cases hstale), rfl⟩

theorem Tracked.rollback {mapping : Backing} {total : BitVec 32}
    (h : Tracked (.new mapping total, ⟨[], []⟩) merge) : merge.rollback = .fromMapping mapping total := by
  have hmapped := (mapped_foldl_undoEntry _ _).trans h.undone
  have hbacking := congrArg Prod.fst hmapped
  have htotal := congrArg Prod.snd hmapped
  simp only [mapped] at hbacking htotal
  simp only [Merge.rollback, resetGrowth, hbacking, htotal, h.initial]
  rfl

/-- A replay leads back, whatever its records. -/
theorem Tracked.mergeFrom (h : Tracked start merge) (library : BitVec 8)
    (records : List (Except LogFault LogRecord)) (done : List (Except LogFault LogRecord)) :
    Tracked start (mergeFrom library done records merge).1 := by
  induction records generalizing done merge with
  | nil => exact h
  | cons item rest ih =>
    rcases item with (_ | _) | record
    · exact h
    · exact h
    · have hnext := h.applyBackfilling record (modifyTokens done)
      unfold Replay.mergeFrom
      dsimp only
      split
      · exact ih hnext _
      · exact hnext
      · exact hnext

/-- A mapping's live buffer is what it was behind any records once they are taken back. -/
theorem rollback_applied (original : Option SystemLibrary) (mapping : Backing) (total : BitVec 32)
    (records : List (LogRecord × List (BitVec 32))) :
    ((fromLive original (.fromMapping mapping total)).applied records).rollback =
      .fromMapping mapping total := by
  exact ((tracked_fromLive original mapping total).applied records).rollback

end Merge

end Oxpinyin.Replay
