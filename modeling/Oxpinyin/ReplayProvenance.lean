import Oxpinyin.Rollback

/-!
# What the buffer tells of the loaded chunk

A live buffer records only the exceptions : the slots a first write found without an item and
those it found with one and may have left without. For the other slots the offset word
answers. Along a log and the edits behind it the answers are those of the chunk as loaded
(`originallyHeld_run`), as long as no ADD, `addItem` or `addUnigram` comes to a slot of an
item that is not readable any more and that no write recorded : neither of them records the
item it finds, so a payload without a whole item leaves the slot looking empty to the next.
-/

namespace Oxpinyin.Replay

open Function List LittleEndian ChunkFile Run Content
open Bool hiding not_or
open ReplayedLibrary hiding itemBytes

/-! ## The chunk as loaded -/

variable {total : BitVec 32} {offsets area : Bytes}

namespace Backing

/-- The offset word of a slot of the loaded chunk. -/
def word (base : Backing) (slot : BitVec 32) : BitVec 32 := (Content.new base 0).word slot

/-- What the loaded chunk has at a slot. -/
def visible (base : Backing) (slot : BitVec 32) : Found := (Content.new base 0).visible slot

/-- The loaded chunk holds an item at a slot. -/
def held (base : Backing) (slot : BitVec 32) : Bool := ((Content.new base 0).itemBytes slot).isSome

/-- The slots of the offset array. -/
def slotCount (base : Backing) : Nat := base.offsets.length / 4

end Backing

/-- A loaded library whose offset words all name readable items, apart from each other. -/
structure Sound (library : PhraseLibrary) : Prop where
  loaded : ∃ payload, PhraseLibrary.fromPayload payload = .ok library
  readable : ∀ slot, (mappedBacking library).word slot ≠ 0 → (mappedBacking library).held slot = true
  apart : ∀ i j a m b n, i ≠ j → (mappedBacking library).visible i = .item a m →
    (mappedBacking library).visible j = .item b n → a + m ≤ b ∨ b + n ≤ a

/-- The offset array of a loaded library is whole words. -/
theorem offsetArray_aligned {payload : Bytes} {library : PhraseLibrary}
    (h : PhraseLibrary.fromPayload payload = .ok library) : 4 ∣ library.offsetArray.length := by
  have hsize : 4 ∣ library.offsets.2 - library.offsets.1 := by
    unfold PhraseLibrary.fromPayload at h
    dsimp only at h
    split_ifs at h
    · obtain rfl := Except.ok.inj h
      exact Nat.dvd_zero 4
    · split at h
      · split_ifs at h with _ _ _ _ _ haligned
        · obtain rfl := Except.ok.inj h
          exact Nat.dvd_zero 4
        · obtain rfl := Except.ok.inj h
          exact Nat.dvd_zero 4
        · obtain rfl := Except.ok.inj h
          dsimp only
          omega
      · cases h
  rw [PhraseLibrary.offsetArray, range?]
  split_ifs with hrange
  · rw [Option.getD_some, length_take, length_drop, Nat.min_eq_left (by omega)]
    exact hsize
  · exact Nat.dvd_zero 4

variable {library : PhraseLibrary}

theorem Sound.shaped (h : Sound library) (total : BitVec 32) : (new (mappedBacking library) total).Shaped := by
  obtain ⟨payload, hload⟩ := h.loaded
  exact shaped_new (offsetArray_aligned hload) total

/-- An item of the loaded chunk. -/
theorem Sound.held_iff (h : Sound library) (slot : BitVec 32) :
    (mappedBacking library).held slot = true ↔
      ∃ offset len, (mappedBacking library).visible slot = .item offset len := by
  rw [Backing.held, Option.isSome_iff_exists]
  constructor
  · rintro ⟨bytes, hbytes⟩
    obtain ⟨offset, len, hitem, _⟩ := (h.shaped 0).itemBytes_eq_some.mp hbytes
    exact ⟨offset, len, hitem⟩
  · rintro ⟨offset, len, hitem⟩
    exact ⟨_, (h.shaped 0).itemBytes_eq_some.mpr ⟨offset, len, hitem, rfl⟩⟩

theorem Sound.held_eq (h : Sound library) (slot : BitVec 32) :
    (mappedBacking library).held slot = true ↔ (mappedBacking library).word slot ≠ 0 := by
  refine ⟨fun hheld => ?_, h.readable slot⟩
  obtain ⟨offset, len, hitem⟩ := (h.held_iff slot).mp hheld
  exact ((h.shaped 0).visible_eq_item.mp hitem).1

/-- A slot with a word is one of the array. -/
theorem lt_slotCount {base : Backing} {slot : BitVec 32} (h : base.word slot ≠ 0) : slot.toNat < base.slotCount := by
  by_contra hge
  refine h ?_
  have hnone : (new base 0).slotOffset slot = none := by
    rw [slotOffset, if_pos]
    rw [Backing.slotCount] at hge
    show base.offsets.length < slot.toNat * 4 + 4
    omega
  rw [Backing.word, word, hnone, Option.getD_none]

/-- The extents of two items share no byte. -/
def Found.apart : Found → Found → Bool
  | .item a m, .item b n => decide (a + m ≤ b ∨ b + n ≤ a)
  | _, _ => true

theorem mappedBacking_written (hlength : (indexBytes total offsets area).length < 2 ^ 32) :
    mappedBacking (writtenLibrary total offsets area) = ⟨offsets, area⟩ := by
  obtain ⟨hoffsets, harea⟩ := sections_written hlength
  rw [mappedBacking, hoffsets, harea]

/-- The readable items of a written library are apart where those of its array are. -/
theorem apart_written (haligned : 4 ∣ offsets.length) (hlength : (indexBytes total offsets area).length < 2 ^ 32)
    (hapart : ∀ i < offsets.length / 4, ∀ j < offsets.length / 4, i ≠ j →
      (Backing.visible ⟨offsets, area⟩ (BitVec.ofNat 32 i)).apart
        (Backing.visible ⟨offsets, area⟩ (BitVec.ofNat 32 j)) = true) :
    ∀ i j a m b n, i ≠ j → (mappedBacking (writtenLibrary total offsets area)).visible i = .item a m →
      (mappedBacking (writtenLibrary total offsets area)).visible j = .item b n → a + m ≤ b ∨ b + n ≤ a := by
  have hlisted : ∀ {slot : BitVec 32} {offset len : Nat}, Backing.visible ⟨offsets, area⟩ slot = .item offset len →
      ∃ i < offsets.length / 4, slot = BitVec.ofNat 32 i := fun {slot offset len} h =>
    ⟨slot.toNat, lt_slotCount ((shaped_new haligned 0).visible_eq_item.mp h).1,
      by rw [BitVec.ofNat_toNat, BitVec.setWidth_eq]⟩
  rw [mappedBacking_written hlength]
  intro i j a m b n hne hvisible hvisible'
  obtain ⟨i, hi, rfl⟩ := hlisted hvisible
  obtain ⟨j, hj, rfl⟩ := hlisted hvisible'
  have hpair := hapart i hi j hj fun hij => hne (by rw [hij])
  rw [hvisible, hvisible'] at hpair
  exact of_decide_eq_true hpair

/-- A written library is sound where the slots of its array are. -/
theorem sound_written (haligned : 4 ∣ offsets.length) (hlength : (indexBytes total offsets area).length < 2 ^ 32)
    (hreadable : ∀ slot < offsets.length / 4, Backing.word ⟨offsets, area⟩ (BitVec.ofNat 32 slot) ≠ 0 →
      Backing.held ⟨offsets, area⟩ (BitVec.ofNat 32 slot) = true)
    (hapart : ∀ i < offsets.length / 4, ∀ j < offsets.length / 4, i ≠ j →
      (Backing.visible ⟨offsets, area⟩ (BitVec.ofNat 32 i)).apart
        (Backing.visible ⟨offsets, area⟩ (BitVec.ofNat 32 j)) = true) :
          Sound (writtenLibrary total offsets area) := by
  refine ⟨⟨_, fromPayload_indexBytes haligned hlength⟩, ?_, apart_written haligned hlength hapart⟩
  rw [mappedBacking_written hlength]
  intro slot hword
  have hself : BitVec.ofNat 32 slot.toNat = slot := by rw [BitVec.ofNat_toNat, BitVec.setWidth_eq]
  have hheld := hreadable slot.toNat (lt_slotCount hword)
  rw [hself] at hheld
  exact hheld hword

/-! ## The two sets -/

/-- A slot in one of the two sets. -/
def Provenance.Recorded (provenance : Provenance) (slot : BitVec 32) : Prop :=
  slot ∈ provenance.absent ∨ slot ∈ provenance.present

instance (provenance : Provenance) (slot : BitVec 32) : Decidable (provenance.Recorded slot) :=
  inferInstanceAs (Decidable (_ ∨ _))

section Note

variable (provenance : Provenance) (slot : BitVec 32)

theorem Provenance.noteAbsent_eq : provenance.noteAbsent slot =
    if provenance.Recorded slot then provenance else ⟨slot :: provenance.absent, provenance.present⟩ := by
  unfold noteAbsent isPresent isAbsent Recorded
  by_cases hpresent : slot ∈ provenance.present
  · simp [hpresent]
  · by_cases habsent : slot ∈ provenance.absent <;> simp [hpresent, habsent]

theorem Provenance.notePresent_eq : provenance.notePresent slot =
    if provenance.Recorded slot then provenance else ⟨provenance.absent, slot :: provenance.present⟩ := by
  unfold notePresent isPresent isAbsent Recorded
  by_cases hpresent : slot ∈ provenance.present
  · simp [hpresent]
  · by_cases habsent : slot ∈ provenance.absent <;> simp [hpresent, habsent]

theorem recorded_noteAbsent : (provenance.noteAbsent slot).Recorded slot := by
  rw [provenance.noteAbsent_eq]
  split_ifs with hrecorded
  · exact hrecorded
  · exact Or.inl mem_cons_self

theorem recorded_notePresent : (provenance.notePresent slot).Recorded slot := by
  rw [provenance.notePresent_eq]
  split_ifs with hrecorded
  · exact hrecorded
  · exact Or.inr mem_cons_self

end Note

/-- The sets only grow. -/
structure Provenance.Le (before after : Provenance) : Prop where
  absent : ∀ slot, slot ∈ before.absent → slot ∈ after.absent
  present : ∀ slot, slot ∈ before.present → slot ∈ after.present

namespace Provenance.Le

theorem refl (provenance : Provenance) : provenance.Le provenance := ⟨fun _ h => h, fun _ h => h⟩

theorem trans {a b c : Provenance} (hab : a.Le b) (hbc : b.Le c) : a.Le c :=
  ⟨fun slot h => hbc.absent slot (hab.absent slot h), fun slot h => hbc.present slot (hab.present slot h)⟩

theorem recorded {before after : Provenance} (h : before.Le after) {slot : BitVec 32}
    (hslot : before.Recorded slot) : after.Recorded slot :=
  hslot.imp (h.absent slot) (h.present slot)

theorem noteAbsent (provenance : Provenance) (slot : BitVec 32) : provenance.Le (provenance.noteAbsent slot) := by
  rw [provenance.noteAbsent_eq]
  split_ifs
  · exact refl provenance
  · exact ⟨fun _ h => mem_cons_of_mem _ h, fun _ h => h⟩

theorem notePresent (provenance : Provenance) (slot : BitVec 32) : provenance.Le (provenance.notePresent slot) := by
  rw [provenance.notePresent_eq]
  split_ifs
  · exact refl provenance
  · exact ⟨fun _ h => h, fun _ h => mem_cons_of_mem _ h⟩

end Provenance.Le

/-! ## The invariant of a buffer -/

/-- The sets are right, and the words of the other slots answer as those loaded. What is noted
absent was so only as long as the replay is exact. -/
structure Inferred (exact : Prop) (base : Backing) (content : Content) (provenance : Provenance) : Prop where
  shaped : content.Shaped
  loaded : content.loadedSlots = base.slotCount
  absent : exact → ∀ slot, slot ∈ provenance.absent → base.held slot = false
  present : ∀ slot, slot ∈ provenance.present → base.held slot = true
  word : ∀ slot, slot.toNat < base.slotCount → ¬provenance.Recorded slot →
    (content.word slot = 0 ↔ base.word slot = 0)

/-- A write may find an item at a slot : the chunk held one, or the slot is known to have been
without. -/
def Accounted (base : Backing) (provenance : Provenance) (slot : BitVec 32) : Prop :=
  slot.toNat < base.slotCount → slot ∉ provenance.absent → base.held slot = true

theorem Accounted.mono {base : Backing} {before after : Provenance} {slot : BitVec 32}
    (h : Accounted base before slot) (hle : before.Le after) : Accounted base after slot :=
  fun hlt habsent => h hlt fun hin => habsent (hle.absent slot hin)

namespace Inferred

variable {exact : Prop} {base : Backing} {content : Content} {provenance : Provenance} {slot : BitVec 32}

/-- A slot with a word is accounted for. -/
theorem accounted (hsound : Sound library) (h : Inferred exact (mappedBacking library) content provenance)
    (hword : content.word slot ≠ 0) : Accounted (mappedBacking library) provenance slot := by
  intro hlt habsent
  by_cases hpresent : slot ∈ provenance.present
  · exact h.present slot hpresent
  · have hrecorded : ¬provenance.Recorded slot := not_or.mpr ⟨habsent, hpresent⟩
    exact hsound.readable slot fun hzero => hword ((h.word slot hlt hrecorded).mpr hzero)

section

variable (h : Inferred exact base content provenance)
include h

/-- A write that finds no item, where the chunk held none or the slot is recorded. -/
theorem noteAbsent (hslot : exact → base.held slot = true → provenance.Recorded slot) :
    Inferred exact base content (provenance.noteAbsent slot) := by
  rw [provenance.noteAbsent_eq]
  split_ifs with hnew
  · exact h
  · refine ⟨h.shaped, h.loaded, fun hexact other hother => ?_, h.present, fun other hlt hother => ?_⟩
    · rcases mem_cons.mp hother with rfl | hother
      · exact eq_false_iff.mpr fun hheld => hnew (hslot hexact hheld)
      · exact h.absent hexact other hother
    · exact h.word other hlt fun hrecorded => hother (hrecorded.imp_left (mem_cons_of_mem _))

theorem notePresent (hslot : Accounted base provenance slot) (hlt : slot.toNat < base.slotCount) :
    Inferred exact base content (provenance.notePresent slot) := by
  rw [provenance.notePresent_eq]
  split_ifs with hnew
  · exact h
  · refine ⟨h.shaped, h.loaded, h.absent, fun other hother => ?_, fun other hlt hother => ?_⟩
    · rcases mem_cons.mp hother with rfl | hother
      · exact hslot hlt fun habsent => hnew (Or.inl habsent)
      · exact h.present other hother
    · exact h.word other hlt fun hrecorded => hother (hrecorded.imp_right (mem_cons_of_mem _))

/-- A write of the items. -/
theorem ofWord {after : Content} (hshaped : after.Shaped) (hword : after.word = content.word)
    (hoffsets : after.backing.offsets = content.backing.offsets) : Inferred exact base after provenance := by
  refine ⟨hshaped, ?_, h.absent, h.present, ?_⟩
  · rw [← h.loaded, loadedSlots, hoffsets, loadedSlots]
  · rw [hword]
    exact h.word

/-- A write of a slot's word, where the slot is recorded or still answers the same. -/
theorem setSlotOffset {offset : BitVec 32}
    (hslot : slot.toNat < base.slotCount → provenance.Recorded slot ∨ (offset = 0 ↔ base.word slot = 0)) :
    Inferred exact base (content.setSlotOffset slot offset) provenance := by
  obtain ⟨hshaped, hword, hlength⟩ := h.shaped.setSlotOffset slot offset
  refine ⟨hshaped, ?_, h.absent, h.present, fun other hlt hother => ?_⟩
  · rw [← h.loaded, loadedSlots, hlength, loadedSlots]
  · rw [hword]
    by_cases hsame : other = slot
    · rw [hsame] at hlt hother ⊢
      rw [update_self]
      exact (hslot hlt).resolve_left hother
    · rw [update_of_ne hsame]
      exact h.word other hlt hother

end

/-- The answers of a buffer are those of the chunk as loaded. -/
theorem answers (hsound : Sound library) {live : ReplayedLibrary}
    (h : Inferred True (mappedBacking library) live.content live.provenance) (slot : BitVec 32) :
    live.originallyHeld slot = (mappedBacking library).held slot ∧
      ((live.itemBytes slot).isSome → live.isAddedSlot slot = !(mappedBacking library).held slot) := by
  have hoffset : live.slotHasOffset slot = true ↔ live.content.word slot ≠ 0 := by
    rw [slotHasOffset, Content.word]
    cases live.content.slotOffset slot <;> simp
  rw [originallyHeld, isAddedSlot, h.loaded]
  by_cases hlt : slot.toNat < (mappedBacking library).slotCount
  · rw [decide_eq_true hlt, decide_eq_false (Nat.not_le.mpr hlt), Bool.true_and, Bool.false_or]
    by_cases habsent : slot ∈ live.provenance.absent
    · have hisAbsent : live.provenance.isAbsent slot = true := contains_iff_mem.mpr habsent
      rw [hisAbsent, h.absent trivial slot habsent]
      exact ⟨rfl, fun _ => rfl⟩
    have hisAbsent : live.provenance.isAbsent slot = false :=
      eq_false_iff.mpr fun hcontains => habsent (contains_iff_mem.mp hcontains)
    rw [hisAbsent, Bool.not_false, Bool.true_and]
    by_cases hpresent : slot ∈ live.provenance.present
    · have hisPresent : live.provenance.isPresent slot = true := contains_iff_mem.mpr hpresent
      rw [hisPresent, h.present slot hpresent]
      exact ⟨rfl, fun _ => rfl⟩
    have hisPresent : live.provenance.isPresent slot = false :=
      eq_false_iff.mpr fun hcontains => hpresent (contains_iff_mem.mp hcontains)
    -- no write is recorded, and the word answers
    have hword := h.word slot hlt (not_or.mpr ⟨habsent, hpresent⟩)
    have hheld : (mappedBacking library).held slot = true ↔ live.content.word slot ≠ 0 :=
      (hsound.held_eq slot).trans (not_congr hword.symm)
    rw [hisPresent, Bool.false_or]
    refine ⟨eq_iff_iff.mpr (hoffset.trans hheld.symm), fun hitem => ?_⟩
    obtain ⟨bytes, hbytes⟩ := Option.isSome_iff_exists.mp hitem
    obtain ⟨offset, len, hvisible, _⟩ := h.shaped.itemBytes_eq_some.mp hbytes
    rw [hheld.mpr (h.shaped.visible_eq_item.mp hvisible).1]
    rfl
  · have hnone : (mappedBacking library).held slot = false :=
      eq_false_iff.mpr fun hheld => hlt (lt_slotCount ((hsound.held_eq slot).mp hheld))
    rw [decide_eq_false hlt, decide_eq_true (Nat.not_lt.mp hlt), hnone]
    exact ⟨rfl, fun _ => rfl⟩

end Inferred

/-! ## The records of a log -/

namespace Merge

/-- The invariant of a replay : the words lie in the data, the stale item's slot is accounted
for, and a slot that was not touched has its word. -/
structure Known (exact : Prop) (base : Backing) (merge : Merge) : Prop where
  inferred : Inferred exact base merge.content merge.provenance
  named : ∀ slot, merge.content.word slot ≠ 0 →
    (merge.content.word slot).toNat + 2 ≤ merge.content.dataLen
  stale : ∀ slot, merge.staleSlot = some slot → Accounted base merge.provenance slot
  untouched : ∀ slot, slot ∉ merge.touched → merge.content.word slot = base.word slot

namespace Known

variable {exact : Prop} {base : Backing} {merge : Merge} {slot : BitVec 32}

section

variable (h : Known exact base merge)
include h

theorem withProvenance {provenance : Provenance} (hinferred : Inferred exact base merge.content provenance)
    (hle : merge.provenance.Le provenance) : Known exact base { merge with provenance := provenance } :=
  ⟨hinferred, h.named, fun slot hslot => (h.stale slot hslot).mono hle, h.untouched⟩

/-- A slot is touched. -/
theorem touch (slot : BitVec 32) : Known exact base { merge with touched := slot :: merge.touched } :=
  ⟨h.inferred, h.named, h.stale, fun other hother => h.untouched other fun hin => hother (mem_cons_of_mem _ hin)⟩

theorem noteAbsent (hslot : exact → base.held slot = true → merge.provenance.Recorded slot) :
    Known exact base (merge.noteAbsent slot) := by
  unfold Merge.noteAbsent
  split_ifs
  · exact h.withProvenance (h.inferred.noteAbsent hslot) (.noteAbsent _ _)
  · exact h

theorem notePresent (hslot : Accounted base merge.provenance slot) : Known exact base (merge.notePresent slot) := by
  unfold Merge.notePresent
  split_ifs with hlt
  · rw [h.inferred.loaded] at hlt
    exact h.withProvenance (h.inferred.notePresent hslot hlt) (.notePresent _ _)
  · exact h

/-- A slot of the array is recorded once a write notes it. -/
theorem recorded_noteAbsent (hlt : slot.toNat < base.slotCount) :
    (merge.noteAbsent slot).provenance.Recorded slot := by
  rw [Merge.noteAbsent, h.inferred.loaded, if_pos hlt]
  exact Replay.recorded_noteAbsent _ _

theorem recorded_notePresent (hlt : slot.toNat < base.slotCount) :
    (merge.notePresent slot).provenance.Recorded slot := by
  rw [Merge.notePresent, h.inferred.loaded, if_pos hlt]
  exact Replay.recorded_notePresent _ _

end

theorem notePresent_le (merge : Merge) (slot : BitVec 32) :
    merge.provenance.Le (merge.notePresent slot).provenance := by
  unfold Merge.notePresent
  split_ifs
  · exact .notePresent _ _
  · exact .refl _

variable (h : Known exact base merge)
include h

theorem backfill {token : BitVec 32} (htoken : Accounted base merge.provenance (token &&& phraseMask)) :
    Known exact base (merge.backfill token) ∧ merge.provenance.Le (merge.backfill token).provenance := by
  have hnoted := h.notePresent htoken
  have hle := notePresent_le merge (token &&& phraseMask)
  unfold Merge.backfill
  dsimp only
  split_ifs
  · exact ⟨hnoted.touch _, hle⟩
  · exact ⟨hnoted, hle⟩

theorem foldl_backfill {prior : List (BitVec 32)}
    (hprior : ∀ token ∈ prior, Accounted base merge.provenance (token &&& phraseMask)) :
    Known exact base (prior.foldl Merge.backfill merge) ∧
      merge.provenance.Le (prior.foldl Merge.backfill merge).provenance := by
  induction prior generalizing merge with
  | nil => exact ⟨h, .refl _⟩
  | cons token rest ih =>
    obtain ⟨hfilled, hle⟩ := h.backfill (hprior token mem_cons_self)
    obtain ⟨hrest, hle'⟩ := ih hfilled fun other hother =>
      (hprior other (mem_cons_of_mem _ hother)).mono hle
    exact ⟨hrest, hle.trans hle'⟩

/-- The plain MODIFYs before the first exceptional record are accounted for. -/
theorem beginExceptional {prior : List (BitVec 32)}
    (hprior : merge.exceptional = false → ∀ token ∈ prior, Accounted base merge.provenance (token &&& phraseMask)) :
    Known exact base (merge.beginExceptional prior) ∧
      merge.provenance.Le (merge.beginExceptional prior).provenance := by
  have hbegun : Known exact base { merge with exceptional := true } := ⟨h.inferred, h.named, h.stale, h.untouched⟩
  unfold Merge.beginExceptional
  dsimp only
  split_ifs with hexceptional
  · exact ⟨h, .refl _⟩
  · exact hbegun.foldl_backfill (hprior (eq_false_iff.mpr hexceptional))
  · exact ⟨hbegun, .refl _⟩

theorem setTotal (total : BitVec 32) : Known exact base (merge.setTotal total) :=
  ⟨⟨⟨h.inferred.shaped.items, h.inferred.shaped.slots, h.inferred.shaped.whole, h.inferred.shaped.aligned⟩,
    h.inferred.loaded, h.inferred.absent, h.inferred.present, h.inferred.word⟩, h.named, h.stale, h.untouched⟩

theorem addTotal (delta : BitVec 32) : Known exact base (merge.addTotal delta) := h.setTotal _

theorem subtractTotal (delta : BitVec 32) : Known exact base (merge.subtractTotal delta) :=
  h.setTotal _

/-- A slot named anew, if it is recorded or keeps its zero. -/
theorem setOffset {offset : BitVec 32}
    (hslot : slot.toNat < base.slotCount → merge.provenance.Recorded slot ∨ (offset = 0 ↔ base.word slot = 0))
    (hnamed : offset ≠ 0 → offset.toNat + 2 ≤ merge.content.dataLen) :
    Known exact base (merge.setOffset slot offset) := by
  obtain ⟨_, hupdate, _⟩ := h.inferred.shaped.setSlotOffset slot offset
  have hcontent : (merge.setOffset slot offset).content = merge.content.setSlotOffset slot offset := rfl
  refine ⟨h.inferred.setSlotOffset hslot, fun other hword => ?_, h.stale, fun other hother => ?_⟩
  · rw [hcontent, hupdate] at hword ⊢
    by_cases hsame : other = slot
    · rw [hsame, update_self] at hword ⊢
      exact hnamed hword
    · rw [update_of_ne hsame] at hword ⊢
      exact h.named other hword
  · have htouched : other ∉ slot :: merge.touched := hother
    rw [mem_cons, not_or] at htouched
    rw [hcontent, hupdate, update_of_ne htouched.1]
    exact h.untouched other htouched.2

variable {after : Content}

/-- A change of the items alone, none of them cut off. -/
theorem ofItems (hshaped : after.Shaped) (hword : after.word = merge.content.word)
    (hlen : merge.content.dataLen ≤ after.dataLen) (hoffsets : after.backing.offsets =
      merge.content.backing.offsets) :
    Known exact base { merge with content := after } := by
  refine ⟨h.inferred.ofWord hshaped hword hoffsets, fun slot hslot => ?_, h.stale, hword ▸ h.untouched⟩
  dsimp only at hslot ⊢
  rw [hword] at hslot ⊢
  exact Nat.le_trans (h.named slot hslot) hlen

theorem appendLogged (payload : Bytes) :
    Known exact base (merge.appendLogged payload).1 ∧
      (merge.appendLogged payload).2.toNat + payload.length ≤ (merge.appendLogged payload).1.content.dataLen := by
  obtain ⟨hshaped, _, hword, hlen, _, hoffsets, _⟩ := h.inferred.shaped.append payload
  have hitems := h.ofItems hshaped hword (hlen ▸ Nat.le_max_left _ _) hoffsets
  refine ⟨⟨hitems.inferred, hitems.named, hitems.stale, hitems.untouched⟩, ?_⟩
  have hcontent : (merge.appendLogged payload).1.content = (merge.content.append payload).1 := rfl
  rw [hcontent, hlen]
  exact Nat.le_max_right _ _

variable {offset : Nat} {bytes : Bytes}

/-- A write of the items. -/
theorem ofWrite
    (hwrite : merge.content.write offset bytes = some after) : Known exact base { merge with content := after } := by
  obtain ⟨hshaped, _, hword, hlen, _, hoffsets, _⟩ := h.inferred.shaped.write hwrite
  exact h.ofItems hshaped hword hlen.ge hoffsets

theorem ofWriteShipped
    (hwrite : merge.content.writeShipped offset bytes = some after) :
    Known exact base { merge with content := after } := by
  obtain ⟨hshaped, _, hword, hlen, _, hoffsets⟩ := h.inferred.shaped.writeShipped hwrite
  exact h.ofItems hshaped hword hlen.ge hoffsets

theorem noteStale : Known exact base merge.noteStale := by
  unfold Merge.noteStale
  split
  · rename_i slot hslot
    exact h.notePresent (h.stale slot hslot)
  · exact h

theorem staleWrite (place : Place) (bytes old : Bytes) : Known exact base (merge.staleWrite place bytes old).1 := by
  have hnoted := h.noteStale
  unfold Merge.staleWrite
  cases place with
  | default =>
    dsimp only
    split
    · exact ⟨h.inferred, h.named, h.stale, h.untouched⟩
    · exact h
  | shipped offset len =>
    dsimp only
    set logged := if merge.noteStale.content.shippedHas offset bytes.length && decide (bytes.length ≤ old.length)
      then { merge.noteStale with undo := .content offset (old.take bytes.length) :: merge.noteStale.undo }
      else merge.noteStale with hlogged
    have hknown : Known exact base logged := by
      rw [hlogged]
      split_ifs
      · exact ⟨hnoted.inferred, hnoted.named, hnoted.stale, hnoted.untouched⟩
      · exact hnoted
    split
    · rename_i content hwrite
      exact hknown.ofWriteShipped hwrite
    · exact hknown
  | owned offset len =>
    dsimp only
    split
    · rename_i content hwrite
      exact hnoted.ofWrite hwrite
    · exact hnoted

theorem recordModify (hslot : Accounted base merge.provenance slot) : Known exact base (merge.recordModify slot) := by
  have hnoted := h.notePresent hslot
  unfold Merge.recordModify
  dsimp only
  split_ifs
  · exact hnoted.touch slot
  · exact ⟨h.inferred, h.named, h.stale, h.untouched⟩
  · have htouched := h.touch slot
    exact ⟨htouched.inferred, htouched.named, htouched.stale, htouched.untouched⟩

end Known

/-- The MODIFYs before the first exceptional record are accounted for. -/
def Prepared (base : Backing) (merge : Merge) (prior : List (BitVec 32)) : Prop :=
  merge.exceptional = false → ∀ token ∈ prior, Accounted base merge.provenance (token &&& phraseMask)

/-- An ADD that stores its payload finds a loaded item still readable, or its slot recorded. -/
def FindsItem (base : Backing) (merge : Merge) : LogRecord → Prop
  | .add token newItem =>
    phraseItemHeader ≤ newItem.length → base.held (token &&& phraseMask) = true →
      merge.provenance.Recorded (token &&& phraseMask) ∨
        (merge.content.itemBytes (token &&& phraseMask)).isSome
  | _ => True

instance (base : Backing) (merge : Merge) (record : LogRecord) : Decidable (merge.FindsItem base record) :=
  match record with
  | .add _ _ => inferInstanceAs (Decidable (_ → _ → _ ∨ _))
  | .remove _ _ => isTrue trivial
  | .modify _ _ _ => isTrue trivial
  | .modifyHeader _ _ => isTrue trivial

namespace Known

variable {exact : Prop} {merge : Merge} {prior : List (BitVec 32)} {token : BitVec 32}
  (h : Known exact (mappedBacking library) merge) (hprior : Prepared (mappedBacking library) merge prior)

include h hprior

/-- An ADD, its slot noted. -/
theorem add {payload : Bytes}
    (hfinds : exact → FindsItem (mappedBacking library) merge (.add token payload)) :
    Known exact (mappedBacking library) (merge.add token payload prior).1 := by
  unfold Merge.add
  dsimp only
  split_ifs with hshort
  · exact h
  rw [Nat.not_lt] at hshort
  obtain ⟨hbegun, hle⟩ := h.beginExceptional hprior
  have hcontent := (merge.notes_beginExceptional prior).content
  have hroom : 2 ≤ payload.length := Nat.le_trans (by decide) hshort
  have hstored : ∀ noted : Merge, Known exact (mappedBacking library) noted →
      ((token &&& phraseMask).toNat < (mappedBacking library).slotCount →
        noted.provenance.Recorded (token &&& phraseMask) ∨
          (mappedBacking library).word (token &&& phraseMask) ≠ 0) →
      Known exact (mappedBacking library) (((noted.appendLogged payload).1.setOffset (token &&& phraseMask)
        (noted.appendLogged payload).2).addTotal (rawUnigram payload)) := by
    intro noted hnoted hslot
    obtain ⟨happended, hin⟩ := hnoted.appendLogged payload
    refine (happended.setOffset (fun hlt => ?_) fun _ => by omega).setTotal _
    exact (hslot hlt).imp_right fun hword => iff_of_false (appendOffset_ne_zero _) hword
  -- a slot without a readable item is recorded first
  have hempty : (merge.beginExceptional prior).content.itemBytes (token &&& phraseMask) = none →
      Known exact (mappedBacking library) ((merge.beginExceptional prior).noteAbsent (token &&& phraseMask)) := by
    intro hnone
    refine hbegun.noteAbsent fun hexact hheld => ?_
    refine (hfinds hexact hshort hheld).elim hle.recorded fun hitem => ?_
    rw [← hcontent, hnone] at hitem
    cases hitem
  cases hvisible : (merge.beginExceptional prior).content.visible (token &&& phraseMask) with
  | item offset len =>
    refine hstored _ hbegun fun hlt => ?_
    have hword := (hbegun.inferred.shaped.visible_eq_item.mp hvisible).1
    refine Classical.or_iff_not_imp_left.mpr fun hrecorded hzero => ?_
    exact hword ((hbegun.inferred.word _ hlt hrecorded).mpr hzero)
  | past =>
    refine hstored _ (hempty ?_) fun hlt => Or.inl (hbegun.recorded_noteAbsent hlt)
    rw [itemBytes, hvisible]
  | failed =>
    refine hstored _ (hempty ?_) fun hlt => Or.inl (hbegun.recorded_noteAbsent hlt)
    rw [itemBytes, hvisible]

/-- A REMOVE notes what was there. -/
theorem remove (hsound : Sound library) (oldItem : Bytes) :
    Known exact (mappedBacking library) (merge.remove token oldItem prior).1 := by
  obtain ⟨hbegun, hle⟩ := h.beginExceptional hprior
  have hcontent := (merge.notes_beginExceptional prior).content
  unfold Merge.remove
  dsimp only
  split
  · exact h
  · rename_i hvisible
    split_ifs
    · exact h
    · -- a word in the data always names a header, so the chunk held nothing here
      have hzero : merge.content.word (token &&& phraseMask) = 0 := by
        by_contra hword
        have hin := h.named _ hword
        rcases h.inferred.shaped.visible_eq_failed.mp hvisible with hzero | hend
        · exact hword hzero
        · omega
      have hnoted : Known exact (mappedBacking library)
          ((merge.beginExceptional prior).noteAbsent (token &&& phraseMask)) := by
        refine hbegun.noteAbsent fun _ hheld => ?_
        by_contra hrecorded
        have hbase := (hsound.held_eq _).mp hheld
        have hword := hbegun.inferred.word _ (lt_slotCount hbase) hrecorded
        rw [hcontent] at hword
        exact hbase (hword.mp hzero)
      exact hnoted.setOffset (fun hlt => Or.inl (hbegun.recorded_noteAbsent hlt)) fun hne => absurd rfl hne
  · rename_i offset len hvisible
    have hword := (h.inferred.shaped.visible_eq_item.mp hvisible).1
    split
    · exact h
    · rw [← hcontent] at hword
      have hnoted := hbegun.notePresent (hbegun.inferred.accounted hsound hword)
      exact (hnoted.setOffset (fun hlt => Or.inl (hbegun.recorded_notePresent hlt))
        fun hne => absurd rfl hne).setTotal _

theorem modifyStale (oldItem newItem : Bytes) :
    Known exact (mappedBacking library) (merge.modifyStale token oldItem newItem prior).1 := by
  obtain ⟨hbegun, _⟩ := h.beginExceptional hprior
  unfold Merge.modifyStale
  dsimp only
  split
  · exact h
  · rename_i place _
    split
    · exact h
    · have hwritten := hbegun.staleWrite place newItem oldItem
      split_ifs
      · exact h
      · exact ⟨hwritten.inferred, hwritten.named, hwritten.stale, hwritten.untouched⟩
      · exact hwritten

theorem modifyMove {slot : BitVec 32} (hslot : Accounted (mappedBacking library) merge.provenance slot)
    (bytes : Bytes) {newItem : Bytes} (hroom : 2 ≤ newItem.length) :
    Known exact (mappedBacking library) (merge.modifyMove slot bytes newItem prior) := by
  obtain ⟨hbegun, hle⟩ := h.beginExceptional hprior
  have hnoted := hbegun.notePresent (hslot.mono hle)
  obtain ⟨happended, hin⟩ := ((hnoted.subtractTotal _).addTotal _).appendLogged newItem
  exact happended.setOffset (fun hlt => Or.inl (hbegun.recorded_notePresent hlt)) fun _ => by omega

theorem modifyInPlace (hslot : Accounted (mappedBacking library) merge.provenance (token &&& phraseMask))
    (offset len : Nat) (bytes oldItem newItem : Bytes) :
    Known exact (mappedBacking library) (merge.modifyInPlace token offset len bytes oldItem newItem prior).1 := by
  obtain ⟨begun, undo, hbegun, heq⟩ := merge.modifyInPlace_eq token offset len bytes oldItem newItem prior
  have hknown : Known exact (mappedBacking library) begun ∧ merge.provenance.Le begun.provenance := by
    rw [hbegun]
    split_ifs
    · exact ⟨h, .refl _⟩
    · exact h.beginExceptional hprior
  rw [heq]
  split
  · exact ⟨hknown.1.inferred, hknown.1.named, hknown.1.stale, hknown.1.untouched⟩
  · rename_i content hwrite
    have hwritten := hknown.1.ofWrite hwrite
    dsimp only
    refine recordModify ?_ (hslot.mono hknown.2)
    exact ⟨hwritten.inferred, hwritten.named, hwritten.stale, hwritten.untouched⟩

/-- A MODIFY, wherever it writes. -/
theorem modify (hsound : Sound library) (oldItem newItem : Bytes) :
    Known exact (mappedBacking library) (merge.modify token oldItem newItem prior).1 := by
  unfold Merge.modify
  split
  · exact h
  · exact h.modifyStale hprior oldItem newItem
  · rename_i offset len hvisible
    unfold modifyItem
    dsimp only
    obtain ⟨hword, _, _, hlen, _⟩ := h.inferred.shaped.visible_eq_item.mp hvisible
    have hslot := h.inferred.accounted hsound hword
    have hread : Known exact (mappedBacking library) (merge.readInto (token &&& phraseMask) offset len) := by
      refine ⟨h.inferred, h.named, fun slot hstale => ?_, h.untouched⟩
      obtain rfl := Option.some.inj hstale
      exact hslot
    split
    · exact hread
    · rename_i bytes _
      split_ifs with _ hlonger
      · exact hread
      · have hheader : 6 ≤ len := by
          rw [hlen]
          exact le_headerLen _ _
        exact hread.modifyMove hprior hslot bytes (by omega)
      · exact hread.modifyInPlace hprior hslot offset len bytes oldItem newItem

/-- Every record keeps the invariant, an ADD where it finds the item it should. -/
theorem applyBackfilling (hsound : Sound library) {record : LogRecord}
    (hfinds : exact → FindsItem (mappedBacking library) merge record) :
    Known exact (mappedBacking library) (merge.applyBackfilling record prior).1 := by
  cases record with
  | add token newItem => exact h.add hprior hfinds
  | remove token oldItem => exact h.remove hprior hsound oldItem
  | modify token oldItem newItem => exact h.modify hprior hsound oldItem newItem
  | modifyHeader oldTotal newTotal =>
    unfold Merge.applyBackfilling
    dsimp only
    split_ifs
    · exact h
    · exact h.setTotal newTotal

end Known

/-! ## Plain records -/

variable {offset len : Nat} {oldItem newItem : Bytes}

section

variable (merge : Merge)

theorem exceptional_noteAbsent (slot : BitVec 32) :
    (merge.noteAbsent slot).exceptional = merge.exceptional := by
  unfold noteAbsent
  split_ifs <;> rfl

theorem exceptional_notePresent (slot : BitVec 32) :
    (merge.notePresent slot).exceptional = merge.exceptional := by
  unfold notePresent
  split_ifs <;> rfl

theorem exceptional_beginExceptional (prior : List (BitVec 32)) :
    (merge.beginExceptional prior).exceptional = true := by
  unfold beginExceptional
  dsimp only
  split_ifs with hexceptional
  · exact hexceptional
  · refine foldlRecOn (motive := fun merge : Merge => merge.exceptional = true) prior _ rfl
      fun filled hfilled token _ => ?_
    unfold backfill
    dsimp only
    split_ifs <;> exact (exceptional_notePresent filled _).trans hfilled
  · rfl

theorem exceptional_staleWrite (place : Place) (bytes old : Bytes) :
    (merge.staleWrite place bytes old).1.exceptional = merge.exceptional := by
  have hkept : merge.noteStale.exceptional = merge.exceptional := by
    unfold noteStale
    split
    · exact exceptional_notePresent merge _
    · rfl
  unfold staleWrite
  cases place with
  | default =>
    dsimp only
    split <;> rfl
  | shipped offset len =>
    dsimp only
    split_ifs <;> split <;> exact hkept
  | owned offset len =>
    dsimp only
    split <;> exact hkept

theorem exceptional_recordModify (slot : BitVec 32) :
    (merge.recordModify slot).exceptional = merge.exceptional := by
  unfold recordModify
  dsimp only
  split_ifs
  · exact exceptional_notePresent merge slot
  · rfl
  · rfl

end

theorem provenance_recordModify {merge : Merge} (h : merge.exceptional = false) (slot : BitVec 32) :
    (merge.recordModify slot).provenance = merge.provenance := by
  rw [recordModify, if_neg (eq_false_iff.mp h)]

/-- A MODIFY in place that leaves the replay plain has found it so, and notes nothing. -/
theorem plain_modifyInPlace {merge : Merge} {token : BitVec 32} {bytes : Bytes}
    {prior : List (BitVec 32)}
    (h : (merge.modifyInPlace token offset len bytes oldItem newItem prior).1.exceptional = false) :
    merge.exceptional = false ∧
      (merge.modifyInPlace token offset len bytes oldItem newItem prior).1.provenance = merge.provenance := by
  obtain ⟨begun, undo, hbegun, heq⟩ := merge.modifyInPlace_eq token offset len bytes oldItem newItem prior
  have hmark : (merge.modifyInPlace token offset len bytes oldItem newItem prior).1.exceptional =
    begun.exceptional := by
    rw [heq]
    split
    · rfl
    · exact exceptional_recordModify _ _
  rw [hmark] at h
  -- the record did not begin an exception, so its headers agree
  have hsame : begun = merge := by
    rw [hbegun] at h ⊢
    split_ifs at h ⊢
    · rfl
    · rw [exceptional_beginExceptional] at h
      cases h
  rw [hsame] at h heq
  refine ⟨h, ?_⟩
  rw [heq]
  split
  · rfl
  · rename_i content _
    exact @provenance_recordModify { merge with undo := undo, content := content, overreach := _ } h _

/-- A MODIFY of a readable item. -/
theorem plain_modifyItem {merge : Merge} {token : BitVec 32}
    {prior : List (BitVec 32)} (hok : (merge.modifyItem token offset len oldItem newItem prior).2 = none)
    (hplain : (merge.modifyItem token offset len oldItem newItem prior).1.exceptional = false) :
    merge.exceptional = false ∧
      (merge.modifyItem token offset len oldItem newItem prior).1.provenance = merge.provenance := by
  unfold modifyItem at hok hplain ⊢
  dsimp only at hok hplain ⊢
  cases hread : (merge.readInto (token &&& phraseMask) offset len).content.item offset len with
  | none =>
    rw [hread] at hok
    cases hok
  | some bytes =>
    simp only [hread] at hok hplain ⊢
    by_cases hold : bytes = oldItem
    · rw [if_neg (not_not.mpr hold)] at hplain ⊢
      by_cases hlonger : len < newItem.length
      · rw [if_pos hlonger] at hplain
        exact absurd (((exceptional_beginExceptional _ _).symm.trans (exceptional_notePresent _ _).symm).trans hplain)
          Bool.noConfusion
      · rw [if_neg hlonger] at hplain ⊢
        have hgo := plain_modifyInPlace hplain
        exact ⟨hgo.1, hgo.2⟩
    · rw [if_pos hold] at hok
      cases hok

/-- A record that leaves the replay plain has found it so, and notes nothing. Its slot has a
word if it is a MODIFY. -/
theorem plain_applyBackfilling {merge : Merge} {record : LogRecord} {prior : List (BitVec 32)}
    (hok : (merge.applyBackfilling record prior).2 = none)
    (hplain : (merge.applyBackfilling record prior).1.exceptional = false) :
    merge.exceptional = false ∧
      (merge.applyBackfilling record prior).1.provenance = merge.provenance ∧
      ∀ token oldItem newItem, record = .modify token oldItem newItem →
        merge.content.word (token &&& phraseMask) ≠ 0 := by
  have hbegun := merge.exceptional_beginExceptional prior
  cases record with
  | add token newItem =>
    simp only [applyBackfilling, add] at hok hplain
    split_ifs at hok hplain
    exfalso
    revert hplain
    split
    · exact fun h => Bool.noConfusion (hbegun.symm.trans h)
    · exact fun h => Bool.noConfusion (hbegun.symm.trans ((exceptional_noteAbsent _ _).symm.trans h))
  | remove token oldItem =>
    simp only [applyBackfilling, remove] at hok hplain
    exfalso
    revert hok hplain
    split
    · exact fun h => by cases h
    · split_ifs
      · exact fun h => by cases h
      · exact fun _ h => Bool.noConfusion (hbegun.symm.trans ((exceptional_noteAbsent _ _).symm.trans h))
    · split
      · exact fun h => by cases h
      · exact fun _ h => Bool.noConfusion (hbegun.symm.trans ((exceptional_notePresent _ _).symm.trans h))
  | modify token oldItem newItem =>
    simp only [applyBackfilling, modify] at hok hplain ⊢
    cases hvisible : merge.content.visible (token &&& phraseMask) with
    | past =>
      rw [hvisible] at hok
      cases hok
    | failed =>
      rw [hvisible] at hok hplain
      exfalso
      simp only [modifyStale] at hok hplain
      revert hok hplain
      split
      · exact fun h => by cases h
      · split
        · exact fun h => by cases h
        · split_ifs
          · exact fun h => by cases h
          · exact fun _ h => Bool.noConfusion (hbegun.symm.trans ((exceptional_staleWrite _ _ _ _).symm.trans h))
          · exact fun h => by cases h
    | item offset len =>
      have hword : merge.content.word (token &&& phraseMask) ≠ 0 := by
        intro hzero
        rw [visible_eq, if_pos hzero] at hvisible
        cases hvisible
      simp only [hvisible] at hok hplain ⊢
      have hgo := plain_modifyItem hok hplain
      refine ⟨hgo.1, hgo.2, fun _ _ _ hrecord => ?_⟩
      obtain ⟨rfl, _, _⟩ := LogRecord.modify.inj hrecord
      exact hword
  | modifyHeader oldTotal newTotal =>
    simp only [applyBackfilling] at hok hplain ⊢
    split_ifs at hok hplain ⊢
    exact ⟨hplain, rfl, fun _ _ _ hrecord => (by cases hrecord)⟩

end Merge

/-! ## A whole log -/

/-- The records a replay reaches, each with the state it comes to. -/
def mergeSteps (applied : List (Except LogFault LogRecord)) :
    List (Except LogFault LogRecord) → Merge → List (Merge × LogRecord)
  | [], _ => []
  | .error _ :: _, _ => []
  | .ok record :: rest, merge =>
    (merge, record) ::
      match merge.applyBackfilling record (modifyTokens applied) with
      | (after, none) => mergeSteps (applied ++ [.ok record]) rest after
      | (_, some _) => []

theorem modifyTokens_append (applied : List (Except LogFault LogRecord)) (record : LogRecord) :
    ∀ token ∈ modifyTokens (applied ++ [.ok record]), token ∈ modifyTokens applied ∨
      ∃ oldItem newItem, record = .modify token oldItem newItem := by
  intro token htoken
  rw [modifyTokens, filterMap_append, mem_append] at htoken
  refine htoken.imp_right fun hlast => ?_
  cases record with
  | modify token' oldItem newItem =>
    rw [filterMap_cons, filterMap_nil, mem_singleton] at hlast
    exact ⟨oldItem, newItem, by rw [hlast]⟩
  | add token' newItem => cases hlast
  | remove token' oldItem => cases hlast
  | modifyHeader oldTotal newTotal => cases hlast

variable {exact : Prop}

/-- The MODIFYs of a plain replay stay accounted for. -/
theorem Merge.Prepared.next (hsound : Sound library) {merge : Merge}
    {applied : List (Except LogFault LogRecord)} {record : LogRecord} (h : merge.Known exact (mappedBacking library))
    (hprior : merge.Prepared (mappedBacking library) (modifyTokens applied))
    (hok : (merge.applyBackfilling record (modifyTokens applied)).2 = none) :
    (merge.applyBackfilling record (modifyTokens applied)).1.Prepared (mappedBacking library)
      (modifyTokens (applied ++ [.ok record])) := by
  intro hplain token htoken
  obtain ⟨hbefore, hprovenance, hword⟩ := plain_applyBackfilling hok hplain
  rw [hprovenance]
  rcases modifyTokens_append applied record token htoken with hin | ⟨oldItem, newItem, hrecord⟩
  · exact hprior hbefore token hin
  · exact h.inferred.accounted hsound (hword token oldItem newItem hrecord)

/-- The invariant over a whole replay. -/
theorem Merge.Known.mergeFrom (hsound : Sound library) (index : BitVec 8) :
    ∀ {records applied : List (Except LogFault LogRecord)} {merge : Merge},
      merge.Known exact (mappedBacking library) →
      merge.Prepared (mappedBacking library) (modifyTokens applied) →
      (∀ step ∈ mergeSteps applied records merge, exact → step.1.FindsItem (mappedBacking library) step.2) →
      (mergeFrom index applied records merge).1.Known exact (mappedBacking library)
  | [], _, _, h, _, _ => h
  | .error (.headerToken _) :: _, _, _, h, _, _ => h
  | .error .overRead :: _, _, _, h, _, _ => h
  | .ok record :: rest, applied, merge, h, hprior, hfinds => by
    have hnext := h.applyBackfilling hprior hsound (hfinds _ mem_cons_self)
    unfold Replay.mergeFrom
    dsimp only
    split
    · rename_i hok
      refine hnext.mergeFrom hsound index (hprior.next hsound h hok) fun step hstep => ?_
      have houtcome : merge.applyBackfilling record (modifyTokens applied) =
          ((merge.applyBackfilling record (modifyTokens applied)).1, none) := Prod.ext rfl hok
      refine hfinds step (mem_cons_of_mem _ ?_)
      rw [houtcome]
      exact hstep
    · exact hnext
    · exact hnext

theorem Merge.known_fromLive (hsound : Sound library) (original : Option SystemLibrary) (total : BitVec 32) :
    (Merge.fromLive original (.fromMapping (mappedBacking library) total)).Known exact (mappedBacking library) := by
  refine ⟨⟨hsound.shaped total, rfl, fun _ _ h => (by cases h), fun _ h => (by cases h), fun _ _ _ => Iff.rfl⟩,
    fun slot hword => ?_, fun _ h => (by cases h), fun _ _ => rfl⟩
  obtain ⟨offset, len, hitem⟩ := (hsound.held_iff slot).mp (hsound.readable slot hword)
  obtain ⟨_, rfl, hin, _⟩ := (hsound.shaped 0).visible_eq_item.mp hitem
  exact hin

theorem Merge.content_finishLiveOwner (merge : Merge) :
    merge.finishLiveOwner.2.content = merge.content ∧
      merge.finishLiveOwner.2.provenance = merge.provenance := by
  have hgo : ∀ (slots : List (BitVec 32)) (live : ReplayedLibrary),
      (slots.foldl merge.classify live).content = live.content ∧
        (slots.foldl merge.classify live).provenance = live.provenance := by
    intro slots
    induction slots with
    | nil => exact fun live => ⟨rfl, rfl⟩
    | cons slot rest ih =>
      intro live
      have hone : (merge.classify live slot).content = live.content ∧
          (merge.classify live slot).provenance = live.provenance := by
        unfold Merge.classify
        dsimp only
        split_ifs
        · exact ⟨rfl, rfl⟩
        · split <;> exact ⟨rfl, rfl⟩
      rw [foldl_cons]
      exact ⟨(ih _).1.trans hone.1, (ih _).2.trans hone.2⟩
  exact hgo _ _

/-- A log leaves a buffer whose answers are those of the chunk. -/
theorem inferred_replayLog (hsound : Sound library) {original : Option SystemLibrary} {total : BitVec 32}
    {index : BitVec 8} {records : List (Except LogFault LogRecord)} {live : ReplayedLibrary}
    (hfinds : ∀ step ∈ mergeSteps [] records (.fromLive original (.fromMapping (mappedBacking library) total)),
      exact → step.1.FindsItem (mappedBacking library) step.2)
    (hlive : replayLog original (.fromMapping (mappedBacking library) total) index records = .ok live) :
    Inferred exact (mappedBacking library) live.content live.provenance := by
  have hstart := @Merge.known_fromLive library exact hsound original total
  have hend := hstart.mergeFrom hsound index (fun _ _ h => by cases h) hfinds
  obtain ⟨end_, _, rfl⟩ := map_eq_ok hlive
  cases end_ with
  | applied =>
    obtain ⟨hcontent, hprovenance⟩ := Merge.content_finishLiveOwner (mergeFrom index [] records
      (.fromLive original (.fromMapping (mappedBacking library) total))).1
    exact hcontent ▸ hprovenance ▸ hend.inferred
  | overRead =>
    have hback := ((Merge.tracked_fromLive original (mappedBacking library) total).mergeFrom index records
      []).rollback
    dsimp only
    rw [mergeLog, hback]
    exact hstart.inferred

/-! ## The edits behind a log -/

/-- An edit of a live buffer. -/
inductive LiveOp where
  | addItem (slot : BitVec 32) (payload : Bytes)
  | removeItem (slot : BitVec 32)
  | addUnigram (slot delta : BitVec 32)
  | train (slot : BitVec 32) (readings : List (List ChewingKey)) (delta : BitVec 32)

namespace ReplayedLibrary

def step (live : ReplayedLibrary) : LiveOp → ReplayedLibrary
  | .addItem slot payload => (live.addItem slot payload).1
  | .removeItem slot => (live.removeItem slot).1
  | .addUnigram slot delta => (live.addUnigram slot delta).1
  | .train slot readings delta => (live.train slot readings delta).1

/-- An edit that may note a slot as empty finds a loaded item still readable, or its slot
recorded. -/
def FindsItem (base : Backing) (live : ReplayedLibrary) : LiveOp → Prop
  | .addItem slot _ =>
    base.held slot = true → live.provenance.Recorded slot ∨ (live.itemBytes slot).isSome
  | .addUnigram slot delta =>
    live.content.word slot ≠ 0 → (live.content.word slot).toNat + 6 ≤ live.content.dataLen →
      live.content.total.toNat + delta.toNat < 2 ^ 32 → base.held slot = true →
        live.provenance.Recorded slot ∨ (live.itemBytes slot).isSome
  | _ => True

instance (base : Backing) (live : ReplayedLibrary) (op : LiveOp) : Decidable (live.FindsItem base op) :=
  match op with
  | .addItem _ _ => inferInstanceAs (Decidable (_ → _ ∨ _))
  | .addUnigram _ _ => inferInstanceAs (Decidable (_ → _ → _ → _ → _ ∨ _))
  | .removeItem _ => isTrue trivial
  | .train _ _ _ => isTrue trivial

end ReplayedLibrary

namespace Inferred

variable {live : ReplayedLibrary} {slot : BitVec 32}

/-- The invariant of a buffer is one of its content and its sets. -/
theorem withTotal {base : Backing} {content : Content} {provenance : Provenance}
    (h : Inferred exact base content provenance) (total : BitVec 32) :
    Inferred exact base { content with total := total } provenance :=
  ⟨⟨h.shaped.items, h.shaped.slots, h.shaped.whole, h.shaped.aligned⟩, h.loaded, h.absent, h.present, h.word⟩

theorem noteAbsentLive {base : Backing} (h : Inferred exact base live.content live.provenance)
    (hslot : exact → base.held slot = true → live.provenance.Recorded slot) :
    Inferred exact base (live.noteAbsent slot).content (live.noteAbsent slot).provenance ∧
      (slot.toNat < base.slotCount → (live.noteAbsent slot).provenance.Recorded slot) := by
  unfold ReplayedLibrary.noteAbsent
  rw [h.loaded]
  split_ifs with hlt
  · exact ⟨h.noteAbsent hslot, fun _ => recorded_noteAbsent _ _⟩
  · exact ⟨h, fun hin => absurd hin hlt⟩

/-- An item stored behind the others, where the slot is recorded or the chunk held one. -/
theorem store {base : Backing} {content : Content} {provenance : Provenance}
    (h : Inferred exact base content provenance) (payload : Bytes)
    (hslot : slot.toNat < base.slotCount → provenance.Recorded slot ∨ base.word slot ≠ 0) :
    Inferred exact base ((content.append payload).1.setSlotOffset slot (content.append payload).2.offset)
      provenance := by
  obtain ⟨hshaped, _, hword, _, _, hoffsets, _⟩ := h.shaped.append payload
  refine (h.ofWord hshaped hword hoffsets).setSlotOffset fun hlt => ?_
  exact (hslot hlt).imp_right fun hne => iff_of_false (appendOffset_ne_zero _) hne

/-- An added item, and what it notes. -/
theorem addItem {base : Backing} (h : Inferred exact base live.content live.provenance) {payload : Bytes}
    (hfinds : exact → live.FindsItem base (.addItem slot payload)) :
    Inferred exact base (live.addItem slot payload).1.content (live.addItem slot payload).1.provenance := by
  unfold ReplayedLibrary.addItem
  dsimp only
  refine withTotal ?_ _
  cases hitem : live.itemBytes slot with
  | none =>
    obtain ⟨hnoted, hrecorded⟩ := h.noteAbsentLive fun hexact hheld =>
      (hfinds hexact hheld).resolve_right (by rw [hitem]; exact false_ne_true)
    rw [Option.isNone_none, if_pos rfl]
    exact hnoted.store payload fun hlt => Or.inl (hrecorded hlt)
  | some bytes =>
    rw [Option.isNone_some, if_neg Bool.false_ne_true]
    refine h.store payload fun hlt => Classical.or_iff_not_imp_left.mpr fun hrecorded hzero => ?_
    obtain ⟨offset, len, hvisible, _⟩ := h.shaped.itemBytes_eq_some.mp hitem
    exact (h.shaped.visible_eq_item.mp hvisible).1 ((h.word slot hlt hrecorded).mpr hzero)

/-- A removed item, and what it notes. -/
theorem removeItem (hsound : Sound library) (h : Inferred exact (mappedBacking library) live.content
    live.provenance) :
    Inferred exact (mappedBacking library) (live.removeItem slot).1.content (live.removeItem slot).1.provenance := by
  unfold ReplayedLibrary.removeItem
  cases hitem : live.itemBytes slot with
  | none => exact h
  | some bytes =>
    obtain ⟨offset, len, hvisible, _⟩ := h.shaped.itemBytes_eq_some.mp hitem
    have hword := (h.shaped.visible_eq_item.mp hvisible).1
    dsimp only
    refine withTotal ?_ _
    unfold ReplayedLibrary.notePresent
    rw [h.loaded]
    split_ifs with hlt
    · refine (h.notePresent (h.accounted hsound hword) hlt).setSlotOffset fun _ => ?_
      exact Or.inl (recorded_notePresent _ _)
    · exact h.setSlotOffset fun hin => absurd hin hlt

theorem write {base : Backing} {content : Content} {provenance : Provenance}
    (h : Inferred exact base content provenance) (offset : Nat) (bytes : Bytes) :
    Inferred exact base ((content.write offset bytes).getD content) provenance := by
  cases hwrite : content.write offset bytes with
  | none => exact h
  | some after =>
    obtain ⟨hshaped, _, hword, _, _, hoffsets, _⟩ := h.shaped.write hwrite
    exact h.ofWord hshaped hword hoffsets

/-- A raised frequency, and what it notes. -/
theorem addUnigram {base : Backing} (h : Inferred exact base live.content live.provenance) {delta : BitVec 32}
    (hfinds : exact → live.FindsItem base (.addUnigram slot delta)) :
    Inferred exact base (live.addUnigram slot delta).1.content (live.addUnigram slot delta).1.provenance := by
  unfold ReplayedLibrary.addUnigram
  cases hoffset : (live.content.slotOffset slot).filter (· ≠ 0) with
  | none => exact h
  | some offset =>
    obtain ⟨hslot, hne⟩ := Option.filter_eq_some_iff.mp hoffset
    have hword : live.content.word slot = offset := by rw [Content.word, hslot, Option.getD_some]
    dsimp only
    by_cases hend : live.content.dataLen < offset.toNat + 2 + 4
    · rw [if_pos hend]
      exact h
    rw [if_neg hend]
    split
    · by_cases htotal : 2 ^ 32 ≤ live.content.total.toNat + delta.toNat
      · rw [if_pos htotal]
        exact h
      · rw [if_neg htotal]
        refine withTotal ?_ _
        split
        · exact h.write _ _
        · rename_i hnoItem
          have hnone : live.itemBytes slot = none := by
            cases hitem : live.itemBytes slot with
            | none => rfl
            | some bytes =>
              obtain ⟨at_, len, hvisible, _⟩ := h.shaped.itemBytes_eq_some.mp hitem
              rw [visible_eq, hword, if_neg (by simpa using hne)] at hvisible
              exact absurd hvisible (hnoItem at_ len)
          refine (h.noteAbsentLive fun hexact hheld => ?_).1.write _ _
          refine (hfinds hexact (by rw [hword]; simpa using hne) (by rw [hword]; omega)
            (by omega) hheld).resolve_right ?_
          rw [hnone]
          exact false_ne_true
    · exact h

theorem trainEntries {base : Backing} {provenance : Provenance} (reading : List ChewingKey) (delta : BitVec 32)
    (first length : Nat) : ∀ (left place : Nat) (total : BitVec 32) {content : Content},
      Inferred exact base content provenance →
      Inferred exact base (trainEntries reading delta first length left place total content) provenance
  | 0, _, _, _, h => h
  | left + 1, place, total, content, h => by
    unfold ReplayedLibrary.trainEntries
    dsimp only
    split_ifs
    · exact h
    · exact trainEntries reading delta first length left _ _ h
    · exact h
    · exact trainEntries reading delta first length left _ _ (h.write _ _)

theorem train {base : Backing} (h : Inferred exact base live.content live.provenance)
    (readings : List (List ChewingKey)) (delta : BitVec 32) :
    Inferred exact base (live.train slot readings delta).1.content (live.train slot readings delta).1.provenance := by
  unfold ReplayedLibrary.train
  split
  · split
    · dsimp only
      generalize live.content = content at h
      induction readings generalizing content with
      | nil => exact h
      | cons reading rest ih => exact ih _ (h.trainEntries reading delta _ _ _ _ _)
    · exact h
  · exact h

theorem step (hsound : Sound library) (h : Inferred exact (mappedBacking library) live.content live.provenance)
    {op : LiveOp} (hfinds : exact → live.FindsItem (mappedBacking library) op) :
    Inferred exact (mappedBacking library) (live.step op).content (live.step op).provenance := by
  cases op with
  | addItem slot payload => exact h.addItem hfinds
  | removeItem slot => exact h.removeItem hsound
  | addUnigram slot delta => exact h.addUnigram hfinds
  | train slot readings delta => exact h.train readings delta

end Inferred

/-- Every buffer a session reaches is shaped. -/
theorem shaped_run (hsound : Sound library) {original : Option SystemLibrary}
    {index : BitVec 8} {records : List (Except LogFault LogRecord)} {live : ReplayedLibrary}
    (hlive : replayLog original (.fromMapping (mappedBacking library) total) index records = .ok live)
    (ops : List LiveOp) : ∀ after ∈ states step live ops, after.content.Shaped := by
  intro after hafter
  have hstart := @inferred_replayLog library False hsound original total index records live
    (fun _ _ hfalse => hfalse.elim) hlive
  have hinferred := @forall_states _ _ _
    (fun live => Inferred False (mappedBacking library) live.content live.provenance) _
    (fun live op h _ => h.step hsound fun hfalse => hfalse.elim) _ _ hstart (along_true ops live) after hafter
  exact hinferred.shaped

/-- Behind a log and at every edit after it a buffer tells what the loaded chunk held, as long
as every ADD, `addItem` and `addUnigram` of a loaded item finds it readable or its slot
recorded. -/
theorem originallyHeld_run (hsound : Sound library) (original : Option SystemLibrary) (total : BitVec 32)
    (index : BitVec 8) (log : Bytes) (live : ReplayedLibrary) (hlog : ∀ step ∈ mergeSteps [] (logItems log)
        (.fromLive original (.fromMapping (mappedBacking library) total)),
      step.1.FindsItem (mappedBacking library) step.2)
    (hlive : replayLog original (.fromMapping (mappedBacking library) total) index (logItems log) = .ok live)
    (ops : List LiveOp)
    (hops : Along ReplayedLibrary.step (ReplayedLibrary.FindsItem (mappedBacking library)) live ops) :
    ∀ after ∈ states ReplayedLibrary.step live ops, ∀ slot,
      after.originallyHeld slot = (mappedBacking library).held slot ∧
        ((after.itemBytes slot).isSome → after.isAddedSlot slot = !(mappedBacking library).held slot) := by
  intro after hafter slot
  have hstart := @inferred_replayLog library True hsound original total index _ live
    (fun step hstep _ => hlog step hstep) hlive
  have hinferred := @forall_states _ _ _
    (fun live => Inferred True (mappedBacking library) live.content live.provenance) _
    (fun live op h hfinds => h.step hsound fun _ => hfinds) _ _ hstart hops after hafter
  exact hinferred.answers hsound slot

/-- Two items of one character each. -/
def pairArea : Bytes :=
  List.replicate firstItemOffset 0 ++ [1, 0, 5, 0, 0, 0, 1, 0, 0, 0] ++ [1, 0, 6, 0, 0, 0, 2, 0, 0, 0]

/-- A library of the two items, at the slots one and two. -/
def pairLibrary : PhraseLibrary := writtenLibrary 11 (le32 0 ++ le32 8 ++ le32 18) pairArea

theorem sound_pairLibrary : Sound pairLibrary :=
  sound_written (by decide) (by decide) (by decide) (by decide)

def pairSystem : SystemLibrary := ⟨11, 3, [], some pairLibrary⟩

/-- The replay of a log on the two items. -/
def pairReplay (log : Bytes) : Merge × List Stop × Except JournalFault MergeEnd :=
  mergeLog (.fromLive (some pairSystem) (.fromMapping (mappedBacking pairLibrary) 11)) (logItems log) 1

theorem replayLog_pairLibrary {log : Bytes} (h : (pairReplay log).2.2 = .ok .applied) :
    replayLog (some pairSystem) (.fromMapping (mappedBacking pairLibrary) 11) 1 (logItems log) =
      .ok (pairReplay log).1.finishLiveOwner.2 := by
  rw [replayLog]
  exact congrArg (Except.map _) h

/-- The touched slots of a replay whose entries stand in order. -/
theorem Merge.sortedTouched_eq {merge : Merge} (h : merge.touched.Pairwise fun a b => decide (a ≤ b) = true) :
    merge.sortedTouched = merge.touched.dedup := by
  rw [Merge.sortedTouched, mergeSort_of_pairwise h]

/-- A MODIFY of slot two, a REMOVE of slot one and an ADD of it. -/
def replacedLog : Bytes :=
  [3, 0, 0, 0, 2, 0, 0, 0, 10, 0, 10, 0, 1, 0, 6, 0, 0, 0, 2, 0, 0, 0, 1, 0, 7, 0, 0, 0, 2, 0, 0, 0,
    2, 0, 0, 0, 1, 0, 0, 0, 10, 0, 1, 0, 5, 0, 0, 0, 1, 0, 0, 0,
    1, 0, 0, 0, 1, 0, 0, 0, 6, 0, 0, 0, 4, 0, 0, 0]

set_option maxRecDepth 8000 in
theorem originallyHeld_replacedLog :
    (mappedBacking pairLibrary).held 1 = true ∧
    ∀ after ∈ states ReplayedLibrary.step (pairReplay replacedLog).1.finishLiveOwner.2
        [.removeItem 2, .addItem 2 [0, 0, 9, 0, 0, 0], .addUnigram 1 3],
      ∀ slot, after.originallyHeld slot = (mappedBacking pairLibrary).held slot ∧
        ((after.itemBytes slot).isSome →
          after.isAddedSlot slot = !(mappedBacking pairLibrary).held slot) := by
  refine ⟨by decide, ?_⟩
  refine originallyHeld_run sound_pairLibrary (some pairSystem) 11 1 replacedLog _ (by decide)
    (replayLog_pairLibrary (by decide)) _ ?_
  rw [Merge.finishLiveOwner, Merge.sortedTouched_eq (by decide)]
  exact ⟨by decide, by decide, by decide, trivial⟩

/-- Two ADDs to the slot of a loaded item, the first one shorter than its header says. -/
def malformedAdds : Bytes :=
  [1, 0, 0, 0, 1, 0, 0, 0, 6, 0, 1, 0, 0, 0, 0, 0, 1, 0, 0, 0, 1, 0, 0, 0, 6, 0, 0, 0, 5, 0, 0, 0]

set_option maxRecDepth 4000 in
/-- An ADD over a readable item records nothing, so the next one finds no item where the loaded
chunk held one. -/
theorem originallyHeld_malformedAdds :
    Sound pairLibrary ∧ ∃ live,
      replayLog (some pairSystem) (.fromMapping (mappedBacking pairLibrary) 11) 1 (logItems malformedAdds) =
        .ok live ∧
        (mappedBacking pairLibrary).held 1 = true ∧ live.originallyHeld 1 = false ∧
          (live.itemBytes 1).isSome = true ∧ live.isAddedSlot 1 = true := by
  refine ⟨sound_pairLibrary, _, replayLog_pairLibrary (by decide), by decide, ?_⟩
  rw [Merge.finishLiveOwner, Merge.sortedTouched_eq (by decide)]
  decide

end Oxpinyin.Replay
