import Mathlib.Tactic.LinearCombination
import Oxpinyin.UnloadedLibraries

/-!
# Library totals and the facade

Every user library has a total of its own, a chunk may store one that its items do not make, and
the facade keeps the sum of the totals with every increment that no library took. Adds, removals,
masks, training, loads and compactions move all of them in 32 and in 64 bits. `totals_run` : in a
session without baselines a library's total is what its items make and the offset kept for it,
and the facade moves with the totals. The items of a loaded chunk have to lie apart :
`sharedItem_total` trains one of two that share their bytes.
-/

namespace Oxpinyin

open List Option Function LittleEndian ChunkFile FiniteMap Replay Run SortedMap SessionState UserLibrary
open BitVec hiding append_assoc not_or

/-! ## One library -/

namespace UserLibrary

variable {library : UserLibrary} {base : BitVec 32} {m : ItemMap}

/-- The frequencies of the items. -/
def frequencySum (library : UserLibrary) : BitVec 32 :=
  library.items.foldl (fun sum entry => sum + entry.2.unigram) 0

/-- The sum a transition makes of the items, in the width of a total. -/
theorem setWidth_itemSum (library : UserLibrary) :
    (itemSum library).setWidth 32 = library.frequencySum := by
  have hfold : ∀ (items : List (BitVec 32 × PhraseItemView)) (wide : BitVec 64) (sum : BitVec 32),
      wide.setWidth 32 = sum →
      (items.foldl (fun sum entry => sum + entry.2.unigram.setWidth 64) wide).setWidth 32 =
        items.foldl (fun sum entry => sum + entry.2.unigram) sum := by
    intro items
    induction items with
    | nil => exact fun _ _ h => h
    | cons entry items ih =>
      intro wide sum h
      refine ih _ _ ?_
      rw [setWidth_add _ _ (by decide), h, setWidth_setWidth_of_le _ (by decide), setWidth_eq]
  exact hfold library.items 0 0 rfl

/-- The frequencies of the items a map lists. -/
theorem frequencySum_eq {entries : List (BitVec 32 × ChunkItem)} (hok : library.slots.Ok)
    (hitem : ∀ slot, library.item slot = (m slot).map fun item => ⟨bodyBytes item⟩)
    (hfits : ∀ slot item, m slot = some item → item.Fits) (hlists : Lists entries m) :
    library.frequencySum = ∑ slot, unigramOf (m slot) := by
  have hfold : ∀ (entries : List (BitVec 32 × ChunkItem)), (∀ entry ∈ entries, entry.2.Fits) →
      ∀ sum : BitVec 32, (entries.map fun entry => (entry.1, (⟨bodyBytes entry.2⟩ : PhraseItemView))).foldl
        (fun sum entry => sum + entry.2.unigram) sum = sum + (entries.map fun entry => entry.2.unigram).sum := by
    intro entries
    induction entries with
    | nil => exact fun _ sum => (add_zero sum).symm
    | cons entry entries ih =>
      intro hfits sum
      rw [map_cons, foldl_cons, ih (fun other hother => hfits other (mem_cons_of_mem _ hother)),
        (shows_bodyBytes (hfits entry mem_cons_self)).unigram, map_cons, sum_cons, add_assoc]
  rw [frequencySum, items_eq hok hitem hlists,
    hfold entries (fun entry hentry => hfits entry.1 entry.2 ((hlists.mem _ _).mp hentry)), zero_add,
    hlists.sum_eq fun _ item => item.unigram]
  rfl

theorem Holds.frequencySum (h : library.Holds base m) : library.frequencySum = ∑ slot, unigramOf (m slot) := by
  obtain ⟨entries, hlists⟩ := h.exists_lists
  exact frequencySum_eq h.ok h.item_eq h.fits hlists

/-- A library at rest over an offset : its bodies are not readable and it has no total, or it
holds items that make its total with the offset. -/
def Rests (library : UserLibrary) (offset : BitVec 32) : Prop :=
  (library.headersOnly = true ∧ library.total = 0 ∧ offset = 0) ∨ ∃ m, library.Holds offset m

theorem items_headersOnly (h : library.headersOnly = true) : library.items = [] := by
  rw [items, filterMap_eq_nil_iff]
  intro entry _
  rw [item, if_pos h]
  rfl

theorem Rests.total (h : library.Rests base) : library.total = library.frequencySum + base := by
  rcases h with ⟨hheaders, htotal, hbase⟩ | ⟨m, hholds⟩
  · rw [htotal, hbase, frequencySum, items_headersOnly hheaders]
    rfl
  · rw [hholds.total, hholds.frequencySum, add_comm]

variable {slot : BitVec 32}

/-- The totals of two libraries that hold the same items but for one. -/
theorem Holds.total_update {edited : UserLibrary} {new : Option ChunkItem}
    (h : library.Holds base m) (hedited : edited.Holds base (Function.update m slot new)) :
    edited.total + unigramOf (m slot) = library.total + unigramOf new := by
  rw [hedited.total, h.total, add_assoc, Oxpinyin.sum_update, add_assoc]

theorem rests_emptyWithTotal (total : BitVec 32) : (emptyWithTotal total).Rests total := by
  obtain ⟨hwhole, hok, hnames, hfits, hplaced, htotal⟩ := @Holds.fresh (.dense []) (Nat.zero_le _) fun _ => rfl
  refine .inr ⟨fun _ => none, hwhole, hok, hnames, hfits, hplaced, ?_⟩
  exact ((congrArg (total + ·) (Finset.sum_eq_zero fun _ _ => rfl)).trans (add_zero total)).symm

variable {item : ChunkItem} {bytes : Bytes} {prepared : PreparedReplacement}

/-- What is prepared is the item its bytes hold. -/
theorem bodyItem_of_prepareAdd
    (hbytes : decodePhraseItem bytes = .ok item) (hprepared : library.prepareAdd slot bytes = .ok prepared) :
    LibraryOp.bodyItem slot bytes = some item := by
  have hslot : slot ≤ phraseMask := by
    by_contra hwide
    rw [prepareAdd, replacement, if_pos (BitVec.not_le.mp hwide)] at hprepared
    cases hprepared
  rw [LibraryOp.bodyItem, if_pos hslot, hbytes]
  rfl

theorem Holds.added
    (h : library.Holds base m) (hroom : library.content.length < 2 ^ 32) (hfree : library.item slot = none)
    (hbytes : decodePhraseItem bytes = .ok item) (hprepared : library.prepareAdd slot bytes = .ok prepared) :
    (prepared.apply library).Rests base ∧ (prepared.apply library).total = library.total + item.unigram := by
  have hadded := h.add hroom slot bytes hfree
  rw [hprepared, bodyItem_of_prepareAdd hbytes hprepared] at hadded
  have htotals := h.total_update hadded
  rw [h.item_eq, map_eq_none_iff] at hfree
  rw [hfree] at htotals
  exact ⟨.inr ⟨_, hadded⟩, (add_zero _).symm.trans htotals⟩

section

variable (h : library.Rests base)
include h

/-- An item added to a free slot goes into the total. -/
theorem Rests.add (hroom : library.content.length < 2 ^ 32)
    (hfree : library.item slot = none)
    (hbytes : decodePhraseItem bytes = .ok item) (hprepared : library.prepareAdd slot bytes = .ok prepared) :
    (prepared.apply library).Rests base ∧ (prepared.apply library).total = library.total + item.unigram := by
  rcases h with ⟨hheaders, htotal, rfl⟩ | ⟨m, hholds⟩
  · -- the bodies that could not be read go before the first write
    have hempty : empty.Holds 0 fun _ => none := @Holds.fresh (.dense []) (Nat.zero_le _) fun _ => rfl
    have hsame : library.prepareAdd slot bytes = empty.prepareAdd slot bytes := by
      unfold prepareAdd replacement placement
      rw [if_pos hheaders]
      rfl
    have happly : prepared.apply library = prepared.apply empty := by
      unfold PreparedReplacement.apply applyReplacement
      rw [if_pos hheaders]
      rfl
    rw [happly, htotal]
    exact hempty.added (by decide) rfl hbytes (hsame ▸ hprepared)
  · exact hholds.added hroom hfree hbytes hprepared

/-- A removed item leaves the total. -/
theorem Rests.remove {view : PhraseItemView} (hitem : library.item slot = some view) :
    (library.remove slot).1.Rests base ∧ (library.remove slot).1.total = library.total - view.unigram := by
  have hremove : library.remove slot =
      ({ library with slots := library.slots.set slot 0, total := library.total - view.unigram }, true) := by
    rw [UserLibrary.remove, removeBody, hitem]
  rcases h with ⟨hheaders, _, _⟩ | ⟨m, hholds⟩
  · rw [item, if_pos hheaders] at hitem
    cases hitem
  · exact ⟨.inr ⟨_, (hholds.removeBody slot).1⟩, by rw [hremove]⟩

/-- An increment goes into the total where there is an item for it. -/
theorem Rests.incrementUnigram (slot delta : BitVec 32) :
    (library.incrementUnigram slot delta).1.Rests base ∧
      (library.incrementUnigram slot delta).1.total = library.total +
      if (library.item slot).isSome then delta else 0 := by
  rcases h with ⟨hheaders, htotal, hbase⟩ | ⟨m, hholds⟩
  · have hitem : library.item slot = none := if_pos hheaders
    rw [UserLibrary.incrementUnigram, hitem]
    exact ⟨.inl ⟨hheaders, htotal, hbase⟩, (add_zero _).symm⟩
  · have hadded := hholds.incrementUnigram slot delta
    refine ⟨.inr ⟨_, hadded⟩, ?_⟩
    have htotals := hholds.total_update hadded
    rw [hholds.item_eq]
    cases hget : m slot with
    | none =>
      rw [hget] at htotals
      exact (add_right_cancel htotals).trans (add_zero _).symm
    | some old =>
      rw [hget] at htotals
      have hsplit : library.total + unigramOf (some { old with unigram := old.unigram + delta }) =
          library.total + delta + unigramOf (some old) := by
        rw [add_assoc, add_comm delta]
        rfl
      exact add_right_cancel (htotals.trans hsplit)

/-- A training keeps a library at rest, and its total. -/
theorem Rests.train (slot : BitVec 32) (readings : List (List ChewingKey))
    (delta : BitVec 32) :
    (library.train slot readings delta).Rests base ∧ (library.train slot readings delta).total = library.total := by
  have htotal : (library.train slot readings delta).total = library.total := by
    unfold UserLibrary.train
    split
    · rfl
    · rfl
  refine ⟨?_, htotal⟩
  rcases h with ⟨hheaders, hzero, hbase⟩ | ⟨m, hholds⟩
  · have hitem : library.item slot = none := if_pos hheaders
    have hsame : library.train slot readings delta = library := by
      unfold UserLibrary.train
      rw [hitem]
      split
      · rename_i heq
        cases heq
      · rfl
    rw [hsame]
    exact .inl ⟨hheaders, hzero, hbase⟩
  · exact .inr ⟨_, hholds.train slot readings delta⟩

end

theorem unigram_addReading (item : ChunkItem) (keys : List (BitVec 16)) (delta : BitVec 32) :
    (item.addReading keys delta).unigram = item.unigram := by
  unfold ChunkItem.addReading
  split_ifs
  · split
    · rfl
    · rfl
  · rfl

/-- A reading more leaves the total as it is. -/
theorem Rests.addReading {added : UserLibrary} {keys : List (BitVec 16)} {delta : BitVec 32}
    (h : library.Rests base) (hroom : library.content.length < 2 ^ 32) (hslot : slot ≤ phraseMask)
    (hadded : library.addReading slot keys delta = .ok added) : added.Rests base ∧ added.total = library.total := by
  rcases h with ⟨hheaders, _, _⟩ | ⟨m, hholds⟩
  · rw [UserLibrary.addReading, show library.item slot = none from if_pos hheaders] at hadded
    cases hadded
  · have hread := hholds.addReading hroom (fun _ => hslot) keys delta
    rw [hadded] at hread
    refine ⟨.inr ⟨_, hread⟩, ?_⟩
    have htotals := hholds.total_update hread
    have hkept : unigramOf ((m slot).map (·.addReading keys delta)) = unigramOf (m slot) := by
      cases m slot with
      | none => rfl
      | some old => exact unigram_addReading old keys delta
    rw [hkept] at htotals
    exact add_right_cancel htotals

/-- The frequencies of the items a mask selects. -/
def selectedUnigrams (library : UserLibrary) (selected : BitVec 32 → Bool) : List (BitVec 32) :=
  (library.items.filter fun entry => selected entry.1).map fun entry => entry.2.unigram

/-- Masked items leave the total. -/
theorem Rests.removeMatching (h : library.Rests base) (selected : BitVec 32 → Bool) :
    (library.removeMatching selected).Rests base ∧
      (library.removeMatching selected).total + (library.selectedUnigrams selected).sum = library.total := by
  rcases h with ⟨hheaders, htotal, hbase⟩ | ⟨m, hholds⟩
  · have hitems := items_headersOnly hheaders
    rw [UserLibrary.removeMatching, selectedUnigrams, hitems]
    exact ⟨.inl ⟨hheaders, htotal, hbase⟩, add_zero _⟩
  · have hmasked := hholds.removeMatching selected
    refine ⟨.inr ⟨_, hmasked⟩, ?_⟩
    obtain ⟨entries, hlists⟩ := hholds.exists_lists
    have hgone := hlists.restrict selected
    have hsum : (library.selectedUnigrams selected).sum =
        ∑ slot, unigramOf (if selected slot = true then m slot else none) := by
      have hfits : ∀ entry ∈ entries, entry.2.Fits := fun entry hentry =>
        hholds.fits entry.1 entry.2 ((hlists.mem _ _).mp hentry)
      have hmap : library.selectedUnigrams selected =
          (entries.filter fun entry => selected entry.1).map fun entry => entry.2.unigram := by
        rw [selectedUnigrams, items_eq hholds.ok hholds.item_eq hlists, List.filter_map, List.map_map]
        refine map_congr_left fun entry hentry => ?_
        exact (shows_bodyBytes (hfits entry (mem_filter.mp hentry).1)).unigram
      rw [hmap, hgone.sum_eq fun _ item => item.unigram]
      rfl
    rw [hmasked.total, hholds.total, hsum, add_assoc, ← Finset.sum_add_distrib]
    refine congrArg (base + ·) (Finset.sum_congr rfl fun slot _ => ?_)
    split_ifs
    · exact zero_add _
    · exact add_zero _

/-- A compaction rebuilds the total from the items. -/
theorem Rests.compact (h : library.Rests base) (hroom : library.compact.content.length < 2 ^ 32) :
    library.compact.Rests 0 := by
  rcases h with ⟨hheaders, htotal, hbase⟩ | ⟨m, hholds⟩
  · refine .inr ⟨fun _ => none, ?_⟩
    rw [UserLibrary.compact, compacted, items_headersOnly hheaders]
    exact Holds.fresh_of library
  · obtain ⟨entries, hlists⟩ := hholds.exists_lists
    exact .inr ⟨m, hholds.compact hlists hroom⟩

/-! ## A loaded library -/

/-- Where the items lie : the start and the length of each. -/
def ranges (library : UserLibrary) : List (Nat × Nat) :=
  library.slots.entries.filterMap fun entry =>
    (library.item entry.1).map fun item => (entry.2.toNat, item.bytes.length)

/-- No two items share a byte. -/
def Apart (library : UserLibrary) : Prop :=
  library.ranges.Pairwise fun a b => a.1 + a.2 ≤ b.1 ∨ b.1 + b.2 ≤ a.1

instance (library : UserLibrary) : Decidable library.Apart := inferInstanceAs (Decidable (List.Pairwise _ _))

theorem Apart.of_ne {library : UserLibrary} (h : library.Apart) (hok : library.slots.Ok) {i j a b : BitVec 32}
    {x y : PhraseItemView} (hij : i ≠ j) (hi : library.slots.offset i = some a) (hj : library.slots.offset j = some b)
    (hx : library.item i = some x) (hy : library.item j = some y) :
    a.toNat + x.bytes.length ≤ b.toNat ∨ b.toNat + y.bytes.length ≤ a.toNat := by
  have hpairs := pairwise_filterMap.mp h
  have hsymm : Std.Symm fun e f : BitVec 32 × BitVec 32 => ∀ u,
      ((library.item e.1).map fun item => (e.2.toNat, item.bytes.length)) = some u → ∀ v,
      ((library.item f.1).map fun item => (f.2.toNat, item.bytes.length)) = some v →
        u.1 + u.2 ≤ v.1 ∨ v.1 + v.2 ≤ u.1 := ⟨fun e f hef u hu v hv => (hef v hv u hu).symm⟩
  have hentries := hpairs.forall ((hok.lists.mem i a).mpr hi) ((hok.lists.mem j b).mpr hj)
    fun heq => hij (congrArg Prod.fst heq)
  exact hentries (a.toNat, x.bytes.length) (by rw [hx]; rfl) (b.toNat, y.bytes.length) (by rw [hy]; rfl)

/-- A library whose slots all name a whole item, apart from each other, holds them. -/
theorem exists_holds (hwhole : library.headersOnly = false) (hok : library.slots.Ok)
    (hnamed : ∀ slot, (library.slots.offset slot).isSome → (library.item slot).isSome)
    (hapart : library.Apart) : ∃ m, library.Holds (library.total - library.frequencySum) m := by
  obtain ⟨m, entries, hreads, hlists⟩ := exists_reads hwhole hok fun slot hlast =>
    hnamed slot (isSome_of_last hok hlast)
  have hitem : ∀ slot item, m slot = some item → library.item slot = some ⟨bodyBytes item⟩ := by
    intro slot item hget
    rw [hreads.item, hget]
    rfl
  have hblock : ∀ slot start block, library.blocks m slot = some (start, block) → ∃ item offset,
      m slot = some item ∧ library.slots.offset slot = some offset ∧ start = offset.toNat ∧
        block = bodyBytes item := by
    intro slot start block hblock
    obtain ⟨item, hget, hblock⟩ := bind_eq_some_iff.mp hblock
    obtain ⟨offset, hoffset, heq⟩ := map_eq_some_iff.mp hblock
    obtain ⟨rfl, rfl⟩ := Prod.mk.inj heq
    exact ⟨item, offset, hget, hoffset, rfl, rfl⟩
  refine ⟨m, hwhole, hok, fun slot => ?_, hreads.fits, ⟨fun slot start block hat => ?_, ?_⟩, ?_⟩
  · rw [Bool.eq_iff_iff]
    refine ⟨fun hoffset => ?_, hreads.isSome_offset⟩
    have hsome := hnamed slot hoffset
    rwa [hreads.item, isSome_map] at hsome
  · obtain ⟨item, offset, hget, hoffset, rfl, rfl⟩ := hblock slot start block hat
    have hview := hitem slot item hget
    rw [UserLibrary.item, hwhole, if_neg Bool.false_ne_true, hoffset, bind_some] at hview
    obtain ⟨bytes, hbytes, hfrom⟩ := bind_eq_some_iff.mp hview
    obtain ⟨read, _, hread, back, rfl⟩ := fromBytes_eq_some.mp hfrom
    have hin : offset.toNat ≤ library.content.length := by
      by_contra hout
      rw [range?, if_neg fun h => hout h.1] at hbytes
      cases hbytes
    rw [range?_drop hin] at hbytes
    refine ⟨library.content.take offset.toNat, back, ?_, length_take_of_le hin⟩
    rw [PhraseItemView.mk.inj hread, append_assoc, ← some.inj hbytes, take_append_drop]
  · intro i j a b x y hij hi hj
    obtain ⟨_, _, hget, hoffset, rfl, rfl⟩ := hblock i a x hi
    obtain ⟨_, _, hget', hoffset', rfl, rfl⟩ := hblock j b y hj
    exact hapart.of_ne hok hij hoffset hoffset' (hitem i _ hget) (hitem j _ hget')
  · rw [← frequencySum_eq hok hreads.item hreads.fits hlists, sub_add_cancel]

/-- A slot that passed the check names an item that can be read. -/
theorem isSome_of_validateSlot {content : Bytes} {count after : Nat} {word : BitVec 32 × Nat}
    (h : validateSlot content count word = .ok after) (hne : word.1 ≠ 0) :
    ((range? content word.1.toNat content.length).bind PhraseItemView.fromBytes).isSome := by
  unfold validateSlot at h
  rw [if_neg hne] at h
  split at h
  · cases h
  · rename_i bytes hbytes
    rw [hbytes, bind_some]
    split at h
    · cases h
    · rename_i hvalid
      obtain ⟨hheader, hsize⟩ := validatePhraseItem_eq_ok.mp hvalid
      obtain ⟨item, hfits, back, rfl⟩ := exists_bodyBytes hheader hsize
      rw [fromBytes_bodyBytes hfits]
      rfl

/-- A chunk's library whose items lie apart is at rest over what its total has beyond them. -/
theorem rests_of_loadPayload {payload : Bytes} (h : loadPayload payload = .ok library) (hapart : library.Apart) :
    library.Rests (library.total - library.frequencySum) := by
  unfold loadPayload at h
  split at h
  · cases h
  · rename_i total offsets content hsections
    obtain ⟨count, hcount, rfl⟩ := map_eq_ok h
    have hdense := dense_ok_of_sections hsections
    obtain ⟨hsparse, hsame⟩ := hdense.toSparse
    have hvisits := (@foldlM_visits _ _ _ _ (fun _ _ => True) (fun _ => trivial) (fun _ _ _ _ _ => trivial)
      _ _ _ (fun _ _ _ _ _ => trivial) hcount).2
    -- the slots name the same offsets, whichever way they are held
    have hnamed : ∀ slots : Slots, slots.offset = (Slots.dense ((chunks 4 offsets).map word32)).offset →
        ∀ slot, (slots.offset slot).isSome → (item ⟨total, slots, content, false⟩ slot).isSome := by
      intro slots hslots slot hsome
      obtain ⟨offset, hoffset⟩ := isSome_iff_exists.mp hsome
      have hword := hoffset
      rw [hslots, Slots.offset, Slots.live_eq_some] at hword
      obtain ⟨_, _, hvalid, _⟩ := hvisits (offset, slot.toNat) (mem_zipIdx_iff_getElem?.mpr hword.1)
      rw [item, if_neg Bool.false_ne_true, hoffset, bind_some]
      exact isSome_of_validateSlot hvalid hword.2
    refine .inr (exists_holds rfl ?_ ?_ hapart)
    · dsimp only
      split_ifs
      · exact hdense
      · exact hsparse
    · refine hnamed _ ?_
      split_ifs
      · rfl
      · exact hsame

end UserLibrary

/-! ## The session -/

namespace SessionState

variable {s t u : SessionState} {library : BitVec 8}

/-- The facade's extra, in the width of a total. -/
def facade (s : SessionState) : BitVec 32 := s.items.facadeExtra.setWidth 32

/-- The totals of all libraries. -/
def totals (s : SessionState) : BitVec 32 := ∑ library, s.libraryTotalOf library

/-- The facade moves with the totals, and by what no library took. -/
def Moves (s : SessionState) (spill : BitVec 32) (t : SessionState) : Prop :=
  t.facade + s.totals = s.facade + t.totals + spill

theorem Moves.trans {a b : BitVec 32} (h : s.Moves a t) (h' : t.Moves b u) : s.Moves (a + b) u := by
  unfold Moves at h h' ⊢
  linear_combination h + h'

/-- A session without baselines, its libraries at rest over their offsets and the flag up where
there is one. -/
structure Settled (s : SessionState) : Prop where
  bare : s.originals = .empty
  rests : ∀ library arena, s.libraries.get? library = some arena → arena.Rests (s.offsetOf library)
  flagged : s.offsets.entries ≠ [] → s.hasLibraryOffsets = true

theorem Settled.still (h : s.Settled) : s.Settled ∧ s.Moves 0 s := ⟨h, (add_zero _).symm⟩

/-- There is room for an append in every library. -/
def Room (s : SessionState) : Prop :=
  ∀ library arena, s.libraries.get? library = some arena → arena.content.length < 2 ^ 32

theorem Settled.original (h : s.Settled) (library : BitVec 8) : s.originals.get? library = none := by
  rw [h.bare]
  rfl

theorem Settled.libraryTotalOf (h : s.Settled) (library : BitVec 8) :
    s.libraryTotalOf library = (s.libraries.get? library).elim (s.offsetOf library) total := by
  rw [SessionState.libraryTotalOf, h.original]

/-- A session that has the same libraries, totals and facade as another. -/
structure SameTotals (s t : SessionState) : Prop where
  libraries : t.libraries = s.libraries
  offsets : t.offsets = s.offsets
  flag : t.hasLibraryOffsets = s.hasLibraryOffsets
  originals : t.originals = s.originals
  facadeExtra : t.items.facadeExtra = s.items.facadeExtra

theorem Settled.same (h : s.Settled) (hsame : s.SameTotals t) : t.Settled ∧ s.Moves 0 t := by
  obtain ⟨hlibraries, hoffsets, hflag, horiginals, hfacade⟩ := hsame
  have hoffset : t.offsetOf = s.offsetOf := by
    ext1 library
    rw [offsetOf, offsetOf, hoffsets]
  have ht : t.Settled := by
    refine ⟨horiginals.trans h.bare, fun library arena harena => ?_, fun hne => ?_⟩
    · rw [hlibraries] at harena
      rw [hoffset]
      exact h.rests library arena harena
    · rw [hoffsets] at hne
      exact hflag.trans (h.flagged hne)
  refine ⟨ht, ?_⟩
  have htotals : t.totals = s.totals := by
    refine Finset.sum_congr rfl fun library _ => ?_
    rw [ht.libraryTotalOf, h.libraryTotalOf, hlibraries, hoffset]
  rw [Moves, facade, hfacade, htotals, add_zero]
  rfl

/-- One library takes a new arena over the same offset, and the facade what its total gained. -/
theorem Settled.put {arena : UserLibrary} {spill : BitVec 32} (h : s.Settled)
    (hrests : arena.Rests (s.offsetOf library))
    (hlibraries : t.libraries = s.libraries.insert library arena) (hoffsets : t.offsets = s.offsets)
    (hflag : t.hasLibraryOffsets = s.hasLibraryOffsets) (horiginals : t.originals = s.originals)
    (hfacade : t.facade + s.libraryTotalOf library = s.facade + arena.total + spill) :
    t.Settled ∧ s.Moves spill t := by
  have hoffset : t.offsetOf = s.offsetOf := by
    ext1 library
    rw [offsetOf, offsetOf, hoffsets]
  have hget : t.libraries.get? = update s.libraries.get? library (some arena) := by
    rw [hlibraries, get?_insert]
  have ht : t.Settled := by
    refine ⟨horiginals.trans h.bare, fun other found hfound => ?_, fun hne => ?_⟩
    · rw [hoffset]
      rw [hget, update_apply] at hfound
      split_ifs at hfound with hother
      · rw [hother, ← some.inj hfound]
        exact hrests
      · exact h.rests other found hfound
    · rw [hoffsets] at hne
      exact hflag.trans (h.flagged hne)
  refine ⟨ht, ?_⟩
  have htotals : t.totals + s.libraryTotalOf library = s.totals + arena.total := by
    have hupdate : t.libraryTotalOf = update s.libraryTotalOf library arena.total := by
      ext1 other
      rw [ht.libraryTotalOf, hget, hoffset, update_apply, update_apply]
      split_ifs with hother
      · rfl
      · rw [h.libraryTotalOf]
    have hsum := Margins.sum_update s.libraryTotalOf library arena.total
    rwa [← hupdate] at hsum
  unfold Moves
  linear_combination hfacade - htotals

/-! ## Training -/

theorem facade_addFacadeExtra (delta : BitVec 64) :
    facade { s with items := s.items.addFacadeExtra delta } = s.facade + delta.setWidth 32 :=
  setWidth_add _ _ (by decide)

/-- What the facade takes of an increment that no library does : all of it where the total has no
room or there is no item. An unloaded library's facade does not take it. -/
def untaken (s : SessionState) (token delta : BitVec 32) : BitVec 32 :=
  if phraseIndexLibraryIndex token ∉ s.unloaded ∧
      (2 ^ 32 ≤ (s.libraryTotalOf (phraseIndexLibraryIndex token)).toNat + delta.toNat ∨ (s.item token).isNone) then
    delta
  else 0

theorem setWidth_setWidth (delta : BitVec 32) : (delta.setWidth 64).setWidth 32 = delta := by
  rw [setWidth_setWidth_of_le _ (by decide), setWidth_eq]

/-- An increment that only the facade takes. -/
theorem Settled.taken (h : s.Settled) (delta : BitVec 32) :
    (SessionState.Settled { s with items := s.items.addFacadeExtra (delta.setWidth 64) }) ∧
      s.Moves delta { s with items := s.items.addFacadeExtra (delta.setWidth 64) } := by
  refine ⟨⟨h.bare, h.rests, h.flagged⟩, ?_⟩
  have htotals : totals { s with items := s.items.addFacadeExtra (delta.setWidth 64) } = s.totals := by
    refine Finset.sum_congr rfl fun library _ => ?_
    rw [h.libraryTotalOf]
    exact Settled.libraryTotalOf ⟨h.bare, h.rests, h.flagged⟩ library
  rw [Moves, facade_addFacadeExtra, setWidth_setWidth, htotals, add_right_comm]

/-- A raised frequency, taken or not. -/
theorem Settled.addUnigram (h : s.Settled) (token delta : BitVec 32) :
    (s.arenaAddUnigramOutcome token delta).1.Settled ∧
      s.Moves (s.untaken token delta) (s.arenaAddUnigramOutcome token delta).1 := by
  by_cases hmark : phraseIndexLibraryIndex token ∈ s.unloaded
  · have hnone : s.untaken token delta = 0 := if_neg fun hboth => hboth.1 hmark
    rw [UserStore.arenaAddUnigramOutcome_of_unloaded delta hmark, hnone]
    exact h.still
  rcases s.arenaAddUnigramOutcome_cases token delta with ⟨hmarked | hsome, _⟩ | ⟨_, hsome, _⟩ |
    ⟨_, _, ⟨hfull, hresult⟩ | ⟨_, harena, hresult⟩ | ⟨arena, hroom, harena, hresult⟩⟩
  · exact absurd hmarked hmark
  · rw [h.original] at hsome
    cases hsome
  · rw [h.original] at hsome
    cases hsome
  · have hall : s.untaken token delta = delta := if_pos ⟨hmark, .inl hfull⟩
    rw [hresult, hall]
    exact h.taken delta
  · have hitem : s.item token = none := by rw [item, harena]; rfl
    have hall : s.untaken token delta = delta := if_pos ⟨hmark, .inr (by rw [hitem]; rfl)⟩
    rw [hresult, hall]
    exact h.taken delta
  · rw [hresult]
    obtain ⟨hrests, htotal⟩ := (h.rests _ arena harena).incrementUnigram (token &&& phraseMask) delta
    have hitem : s.item token = arena.item (token &&& phraseMask) := by rw [item, harena]; rfl
    refine h.put hrests rfl rfl rfl rfl ?_
    have hfacade : facade (putArena { s with items := s.items.addFacadeExtra (delta.setWidth 64) }
        (phraseIndexLibraryIndex token) (arena.incrementUnigram (token &&& phraseMask) delta).1) = s.facade + delta :=
      facade_addFacadeExtra (s := s) (delta.setWidth 64) |>.trans (by rw [setWidth_setWidth])
    have hbefore : s.libraryTotalOf (phraseIndexLibraryIndex token) = arena.total := by
      rw [h.libraryTotalOf, harena]
      rfl
    have hspill :
      (if (arena.item (token &&& phraseMask)).isSome then delta else 0) + s.untaken token delta = delta := by
      rw [untaken, hitem]
      cases arena.item (token &&& phraseMask) with
      | none =>
        rw [isSome_none, if_neg Bool.false_ne_true, zero_add]
        exact if_pos ⟨hmark, .inr rfl⟩
      | some view =>
        have hfits : ¬(phraseIndexLibraryIndex token ∉ s.unloaded ∧
            (2 ^ 32 ≤ (s.libraryTotalOf (phraseIndexLibraryIndex token)).toNat + delta.toNat ∨
              (some view).isNone = true)) := by
          rintro ⟨_, hfull | hnone⟩
          · omega
          · cases hnone
        rw [if_neg hfits, isSome_some, if_pos rfl, add_zero]
    rw [hfacade, hbefore, htotal]
    linear_combination -hspill

theorem facadeExtra_trainLive (items : SystemItems) (original : Option Baseline) (token : BitVec 32)
    (readings : List (List ChewingKey)) (delta : BitVec 32) :
    (items.trainLive original token readings delta).1.facadeExtra = items.facadeExtra := by
  unfold SystemItems.trainLive
  dsimp only
  split
  · rfl
  · split
    · rfl
    · rfl

/-- A training raises no total. -/
theorem Settled.arenaTrain (h : s.Settled) (token : BitVec 32) (readings : List (List ChewingKey))
    (delta : BitVec 32) :
    (s.arenaTrain token readings delta).Settled ∧ s.Moves 0 (s.arenaTrain token readings delta) := by
  unfold SessionState.arenaTrain
  dsimp only
  split_ifs
  · exact h.still
  · cases harena : s.libraries.get? (phraseIndexLibraryIndex token) with
    | none => exact h.still
    | some arena =>
      obtain ⟨hrests, htotal⟩ := (h.rests _ arena harena).train (token &&& phraseMask) readings delta
      refine h.put hrests rfl rfl rfl rfl ?_
      rw [htotal, h.libraryTotalOf, harena, add_zero]
      rfl
  · exact h.same ⟨rfl, rfl, rfl, rfl, facadeExtra_trainLive _ _ _ _ _⟩

/-! ## Adds -/

variable {packed : List (BitVec 16)} {delta : BitVec 32}

variable {item : ChunkItem} {words : List (BitVec 32)} {token : BitVec 32}

theorem takeItemIn_bare (h : s.Settled) (unigram : BitVec 32) (accepted : Bool) :
    s.takeItemIn library unigram accepted = { s with items := s.items.addFacadeExtra (unigram.setWidth 64) } := by
  unfold takeItemIn
  rw [h.original]

/-- A check of every element passes where each one's does. -/
theorem forM_require {α : Type} (check : α → Prop) [DecidablePred check] (message : α → String) :
    ∀ (l : List α) (u : Unit),
    (l.forM fun a => require (check a) (message a)) = .ok u ↔ ∀ a ∈ l, check a
  | [], _ => ⟨fun _ _ ha => absurd ha not_mem_nil, fun _ => rfl⟩
  | first :: l, u => by
    rw [List.forM_eq_forM, forM_cons, forall_mem_cons, ← forM_require check message l u, List.forM_eq_forM]
    constructor
    · intro hrun
      obtain ⟨_, hfirst, hrest⟩ := bind_eq_ok hrun
      exact ⟨require_eq_ok hfirst, hrest⟩
    · rintro ⟨hfirst, hrest⟩
      rw [require, if_pos hfirst]
      exact hrest

/-- An item with a text is encoded where it fits. -/
theorem encodePhraseItem_eq_ok {bytes : Bytes} :
    encodePhraseItem item = .ok bytes ↔ item.phrase ≠ [] ∧ item.Fits ∧ bytes = bodyBytes item := by
  have hlength : (item.phrase.length ≠ 0 ∧ item.phrase.length ≤ 255) ↔ item.phrase ≠ [] ∧
    item.phrase.length ≤ 255 := by
    rw [Ne, length_eq_zero_iff]
  constructor
  · intro h
    obtain ⟨_, hphrase, h⟩ := bind_eq_ok h
    obtain ⟨_, hprons, h⟩ := bind_eq_ok h
    obtain ⟨_, hkeys, h⟩ := bind_eq_ok h
    have hphrase := hlength.mp (require_eq_ok hphrase)
    exact ⟨hphrase.1, ⟨hphrase.2, require_eq_ok hprons, (forM_require _ _ item.prons _).mp hkeys⟩,
      (Except.ok.inj h).symm⟩
  · rintro ⟨hne, hfits, rfl⟩
    unfold encodePhraseItem
    dsimp only
    rw [require, if_pos (hlength.mpr ⟨hne, hfits.phrase⟩), require, if_pos hfits.prons,
      (forM_require _ _ item.prons ()).mpr hfits.keys]
    rfl

/-- A new item in a free slot : the facade takes an amount, the library its frequency. -/
theorem Settled.place {amount slot : BitVec 32} {readings : List (List (BitVec 16))} {bytes : Bytes}
    {prepared : PreparedReplacement} {accepted : Bool} (h : s.Settled) (hroom : s.Room)
    (hfree : ∀ arena, s.libraries.get? library = some arena → arena.item slot = none)
    (hbytes : encodePhraseItem item = .ok bytes)
    (hprepared : ((s.libraries.get? library).getD .empty).prepareAdd slot bytes = .ok prepared) {t : SessionState}
    (ht : t = ((s.takeItemIn library amount accepted).putArena library
      (prepared.apply ((s.takeItemIn library amount accepted).arena library
        ((s.takeItemIn library amount accepted).offsetOf library))) |>.enlist words token readings).1) :
    t.Settled ∧ s.Moves (amount - item.unigram) t := by
  have harena : (s.arena library (s.offsetOf library)).Rests (s.offsetOf library) ∧
      (s.arena library (s.offsetOf library)).content.length < 2 ^ 32 ∧
      (s.arena library (s.offsetOf library)).item slot = none ∧
      (s.arena library (s.offsetOf library)).prepareAdd slot bytes = .ok prepared ∧
      (s.arena library (s.offsetOf library)).total = s.libraryTotalOf library := by
    rw [h.libraryTotalOf]
    unfold arena
    cases hget : s.libraries.get? library with
    | none =>
      rw [hget] at hprepared
      exact ⟨rests_emptyWithTotal _, Nat.two_pow_pos 32, rfl, hprepared, rfl⟩
    | some arena =>
      rw [hget] at hprepared
      exact ⟨h.rests library arena hget, hroom library arena hget, hfree arena hget, hprepared, rfl⟩
  obtain ⟨hrests, hsmall, hslot, hready, htotal⟩ := harena
  obtain ⟨_, hfits, hbody⟩ := encodePhraseItem_eq_ok.mp hbytes
  have hdecode := decodePhraseItem_eq_ok.mpr ⟨hfits, [], hbody.trans (append_nil _).symm⟩
  obtain ⟨hadded, hgained⟩ := hrests.add hsmall hslot hdecode hready
  rw [takeItemIn_bare h] at ht
  obtain ⟨table, index, henlist⟩ := enlist_eq (putArena
    { s with items := s.items.addFacadeExtra (amount.setWidth 64) } library
      (prepared.apply (s.arena library (s.offsetOf library)))) words token readings
  have hsame := ht.trans henlist
  rw [hsame]
  refine h.put hadded rfl rfl rfl rfl ?_
  have hfacade : facade { s with items := s.items.addFacadeExtra (amount.setWidth 64) } = s.facade + amount := by
    rw [facade_addFacadeExtra, setWidth_setWidth]
  change facade { s with items := s.items.addFacadeExtra (amount.setWidth 64) } + s.libraryTotalOf library = _
  rw [hfacade, hgained, htotal]
  ring

theorem prepareAdd_of_fits (hfits : item.Fits) (arena : UserLibrary) {slot : BitVec 32}
    (hslot : slot ≤ phraseMask) : ∃ prepared, arena.prepareAdd slot (bodyBytes item) = .ok prepared := by
  have hview := fromBytes_bodyBytes hfits []
  rw [append_nil] at hview
  rw [prepareAdd, replacement, if_neg (BitVec.not_lt.mpr hslot), hview]
  exact ⟨_, rfl⟩

theorem and_phraseMask_le (token : BitVec 32) : token &&& phraseMask ≤ phraseMask := by
  rw [le_def, toNat_and]
  exact Nat.and_le_right

theorem length_of_mapM {α β : Type} {f : α → Option β} : ∀ {l : List α} {out : List β},
    l.mapM f = some out → out.length = l.length
  | [], out, h => by
    rw [mapM_nil] at h
    rw [← some.inj h]
    rfl
  | a :: l, out, h => by
    rw [mapM_cons] at h
    obtain ⟨b, _, h⟩ := bind_eq_some_iff.mp h
    obtain ⟨rest, hrest, h⟩ := bind_eq_some_iff.mp h
    rw [← some.inj h, length_cons, length_cons, length_of_mapM hrest]

/-- The increment of a phrase that an add makes, none for an add that makes no phrase. -/
def addedIncrement (s : SessionState) (library : BitVec 8) (words : List (BitVec 32)) (keys : List (BitVec 16))
    (count : Option (BitVec 64)) : Option (BitVec 32) :=
  if !isUserFileLibrary library || !s.hasUserLibrary library || !phraseFitsKeys words keys then none
  else
    match pinyinKeysToPacked keys, s.phraseTable.checkAdd words, s.existing library words none with
    | some _, .ok _, .ok none => some (phraseDelta count * 3)
    | _, _, _ => none

/-- The slot of a new phrase. -/
def addedSlot (s : SessionState) (library : BitVec 8) : BitVec 32 :=
  addPhraseToken library (max ((s.libraries.get? library).elim 1 UserLibrary.tokenEnd) 1) &&& phraseMask

/-- What an add gives the facade alone : the increment of a new phrase its library has no room
for. -/
def refusedIncrement (s : SessionState) (library : BitVec 8) (words : List (BitVec 32)) (keys : List (BitVec 16))
    (count : Option (BitVec 64)) : BitVec 32 :=
  (s.addedIncrement library words keys count).elim 0 fun increment =>
    if 2 ^ 32 ≤ (s.libraryTotalOf library).toNat + increment.toNat then increment else 0

/-- A reading added to an arena's item. -/
theorem Settled.addArenaReading
    (h : s.Settled) (hroom : s.Room) (hlibrary : phraseIndexLibraryIndex token = library) :
    (s.addArenaReading library words packed delta token).1.Settled ∧
      s.Moves 0 (s.addArenaReading library words packed delta token).1 := by
  unfold SessionState.addArenaReading
  split
  · exact h.still
  · rename_i view hitem
    obtain ⟨arena, harena, _⟩ := arena_of_item hitem
    rw [hlibrary] at harena
    split_ifs
    · exact h.still
    · dsimp only
      rw [harena, getD_some]
      have htotal : s.libraryTotalOf library = arena.total := by
        rw [h.libraryTotalOf, harena]
        rfl
      split
      · refine h.put (h.rests library arena harena) rfl rfl rfl rfl ?_
        rw [htotal, add_zero]
        rfl
      · rename_i added hadded
        obtain ⟨hrests, hkept⟩ := (h.rests library arena harena).addReading (hroom library arena harena)
          (and_phraseMask_le token) hadded
        refine h.put hrests rfl rfl rfl rfl ?_
        rw [htotal, hkept, add_zero]
        rfl

/-- A phrase added under a free slot. -/
theorem Settled.addArenaPhrase
    (h : s.Settled) (hroom : s.Room) (hne : words ≠ []) (hlength : words.length ≤ 255)
    (hpacked : packed.length = words.length)
    (hfree : ∀ arena, s.libraries.get? library = some arena → arena.item (s.addedSlot library) = none) :
    (s.addArenaPhrase library words packed delta 1).1.Settled ∧
      s.Moves (if 2 ^ 32 ≤ (s.libraryTotalOf library).toNat + (delta * 3).toNat then delta * 3 else 0)
        (s.addArenaPhrase library words packed delta 1).1 := by
  unfold SessionState.addArenaPhrase
  dsimp only
  generalize haccepted : decide ((s.libraryTotalOf library).toNat + (delta * 3).toNat < 2 ^ 32) = accepted
  have hfits : ChunkItem.Fits ⟨words, if accepted then delta * 3 else 0, [(packed, delta)]⟩ := by
    refine ⟨hlength, Nat.le_of_ble_eq_true rfl, fun pron hpron => ?_⟩
    rw [mem_singleton.mp hpron]
    exact hpacked
  have hbytes := encodePhraseItem_eq_ok.mpr ⟨hne, hfits, rfl⟩
  obtain ⟨prepared, hprepared⟩ := prepareAdd_of_fits hfits ((s.libraries.get? library).getD .empty)
    (and_phraseMask_le (addPhraseToken library (max ((s.libraries.get? library).elim 1 tokenEnd) 1)))
  simp only [hbytes, hprepared]
  obtain ⟨hsettled, hmoves⟩ := h.place hroom hfree hbytes hprepared rfl
  refine ⟨hsettled, ?_⟩
  have hspill : (if 2 ^ 32 ≤ (s.libraryTotalOf library).toNat + (delta * 3).toNat then delta * 3 else 0) =
      delta * 3 - if accepted then delta * 3 else 0 := by
    cases accepted with
    | true => rw [if_neg (Nat.not_le.mpr (of_decide_eq_true haccepted)), if_pos rfl, sub_self]
    | false => rw [if_pos (Nat.le_of_not_lt (of_decide_eq_false haccepted)), if_neg Bool.false_ne_true, sub_zero]
  rw [hspill]
  exact hmoves

/-- A phrase or a reading added : the facade takes what the library's total does, and a refused
increment. -/
theorem Settled.addPhraseIn {keys : List (BitVec 16)} {count : Option (BitVec 64)}
    (h : s.Settled) (hroom : s.Room) (hfree : (s.addedIncrement library words keys count).isSome →
      ∀ arena, s.libraries.get? library = some arena → arena.item (s.addedSlot library) = none) :
    (s.addPhraseIn library words keys count).1.Settled ∧
      s.Moves (s.refusedIncrement library words keys count) (s.addPhraseIn library words keys count).1 := by
  unfold SessionState.addPhraseIn refusedIncrement
  unfold addedIncrement at hfree ⊢
  split_ifs with hargs
  · exact h.still
  rw [if_neg hargs] at hfree
  unfold arenaAddPhrase
  rw [h.original]
  dsimp only
  cases hpacked : pinyinKeysToPacked keys with
  | none => exact h.still
  | some packed =>
    cases hcheck : s.phraseTable.checkAdd words with
    | error error => exact h.still
    | ok checked =>
      cases hexisting : s.existing library words none with
      | error error => exact h.still
      | ok found =>
        cases found with
        | some token => exact h.addArenaReading hroom (library_of_existing (fun _ hsome => by cases hsome) hexisting)
        | none =>
          rw [hpacked, hcheck, hexisting] at hfree
          simp only [Bool.or_eq_true, Bool.not_eq_true', not_or, Bool.not_eq_false] at hargs
          have hwords := hargs.2
          rw [phraseFitsKeys, Bool.and_eq_true, Bool.and_eq_true, Bool.not_eq_true', isEmpty_eq_false_iff,
            decide_eq_true_iff, beq_iff_eq] at hwords
          obtain ⟨⟨hne, hshort⟩, hkeys⟩ := hwords
          have hshort : words.length < 16 := hshort
          exact h.addArenaPhrase hroom hne (by omega) ((length_of_mapM hpacked).trans hkeys.symm) (hfree rfl)

/-- The slot of a promoted phrase. -/
def promotedSlot (s : SessionState) : BitVec 32 :=
  phraseIndexMakeToken addonDictionary (BitVec.ofNat 32 ((s.libraries.get? addonDictionary).getD .empty).tokenEnd) &&&
    phraseMask

/-- A promoted phrase : the facade takes its frequency, and its library does. -/
theorem Settled.promoteAddonPhrase {readings : List (List (BitVec 16) × BitVec 64)}
    {unigram : BitVec 64} (h : s.Settled) (hroom : s.Room) (hfree : s.AdmitsPromotion words readings unigram →
      ∀ arena, s.libraries.get? addonDictionary = some arena → arena.item s.promotedSlot = none) :
    (s.promoteAddonPhrase words readings unigram).1.Settled ∧
      s.Moves 0 (s.promoteAddonPhrase words readings unigram).1 := by
  by_cases hadmits : s.AdmitsPromotion words readings unigram
  · obtain ⟨prons, bytes, hvalid, hprons, hbytes, hcheck⟩ := hadmits
    have hfree := hfree ⟨prons, bytes, hvalid, hprons, hbytes, hcheck⟩
    unfold SessionState.promoteAddonPhrase
    dsimp only
    rw [if_neg fun hempty => hvalid (List.isEmpty_iff.mp hempty)]
    unfold arenaPromote
    simp only [hprons, hbytes, hcheck]
    obtain ⟨_, hfits, rfl⟩ := encodePhraseItem_eq_ok.mp hbytes
    obtain ⟨prepared, hprepared⟩ := prepareAdd_of_fits hfits ((s.libraries.get? addonDictionary).getD .empty)
      (and_phraseMask_le (phraseIndexMakeToken addonDictionary
        (BitVec.ofNat 32 ((s.libraries.get? addonDictionary).getD .empty).tokenEnd)))
    simp only [hprepared]
    obtain ⟨hsettled, hmoves⟩ := h.place hroom hfree hbytes hprepared rfl
    refine ⟨hsettled, ?_⟩
    rw [sub_self] at hmoves
    exact hmoves
  · rw [promoteAddonPhrase_of_not_admits hadmits]
    exact h.still

/-! ## Removals -/

theorem setWidth_sub (a b : BitVec 64) : (a - b).setWidth 32 = a.setWidth 32 - b.setWidth 32 := by
  have hsum := setWidth_add (a - b) b (show 32 ≤ 64 by decide)
  rw [sub_add_cancel] at hsum
  rw [hsum, add_sub_cancel]

/-- A removed item's frequency leaves the facade. -/
theorem takeItemOut_bare (h : s.Settled) (unigram : BitVec 32) :
    ∃ items, s.takeItemOut library unigram = { s with items := items } ∧
      items.facadeExtra.setWidth 32 = s.facade - unigram := by
  unfold takeItemOut
  rw [h.original]
  refine ⟨_, rfl, ?_⟩
  change (s.items.facadeExtra - unigram.setWidth 64).setWidth 32 = _
  rw [setWidth_sub, setWidth_setWidth]
  rfl

/-- A removal moves the facade with the totals. -/
theorem Settled.remove (h : s.Settled) (hcheck : s.checkRemove token = none) :
    (s.remove token).1.Settled ∧ s.Moves 0 (s.remove token).1 := by
  obtain ⟨view, item, arena, table, index, hitem, hdecode, harena, hremove⟩ := remove_of_check hcheck
  obtain ⟨items, hitems, hfacade⟩ := @takeItemOut_bare s (phraseIndexLibraryIndex token) h item.unigram
  rw [hremove, hitems]
  have hview : arena.item (token &&& phraseMask) = some view := by
    rw [SessionState.item, harena] at hitem
    exact hitem
  have hunigram : view.unigram = item.unigram := by
    rcases h.rests _ arena harena with ⟨hheaders, _, _⟩ | ⟨m, hholds⟩
    · rw [UserLibrary.item, if_pos hheaders] at hview
      cases hview
    · rw [hholds.item_eq] at hview
      obtain ⟨held, hheld, rfl⟩ := map_eq_some_iff.mp hview
      have hfits := hholds.fits _ held hheld
      rw [decodePhraseItem_eq_ok.mpr ⟨hfits, [], (append_nil _).symm⟩] at hdecode
      rw [(shows_bodyBytes hfits).unigram, Except.ok.inj hdecode]
  obtain ⟨hrests, htotal⟩ := (h.rests _ arena harena).remove hview
  refine h.put hrests rfl rfl rfl rfl ?_
  change items.facadeExtra.setWidth 32 + _ = _
  rw [hfacade, htotal, hunigram, h.libraryTotalOf, harena]
  change s.facade - item.unigram + arena.total = s.facade + (arena.total - item.unigram) + 0
  ring

/-- The frequencies of masked items leave the facade one by one. -/
theorem takeItemsOut_bare (h : s.Settled) : ∀ unigrams : List (BitVec 32),
    ∃ items, unigrams.foldl (fun s unigram => s.takeItemOut library unigram) s = { s with items := items } ∧
      items.facadeExtra.setWidth 32 = s.facade - unigrams.sum := by
  intro unigrams
  induction unigrams generalizing s with
  | nil => exact ⟨s.items, rfl, (sub_zero s.facade).symm⟩
  | cons unigram unigrams ih =>
    obtain ⟨items, hitems, hfacade⟩ := @takeItemOut_bare s library h unigram
    obtain ⟨rest, hrest, hfacade'⟩ := @ih { s with items := items } ⟨h.bare, h.rests, h.flagged⟩
    rw [foldl_cons, hitems, hrest]
    refine ⟨rest, rfl, hfacade'.trans ?_⟩
    change items.facadeExtra.setWidth 32 - unigrams.sum = _
    rw [hfacade, sum_cons]
    ring

/-- A mask over one library. -/
theorem Settled.maskLibrary (h : s.Settled) (mask value : BitVec 32) {arena : UserLibrary}
    (harena : s.libraries.get? library = some arena) :
    (maskLibrary mask value s (library, arena)).Settled ∧
      s.Moves 0 (maskLibrary mask value s (library, arena)) := by
  obtain ⟨items, hitems, hfacade⟩ := @takeItemsOut_bare s library h
    (arena.selectedUnigrams (selects mask value library))
  unfold SessionState.maskLibrary
  dsimp only
  unfold selectedUnigrams at hitems hfacade
  rw [hitems]
  obtain ⟨hrests, htotal⟩ := (h.rests library arena harena).removeMatching (selects mask value library)
  refine h.put hrests rfl rfl rfl rfl ?_
  change items.facadeExtra.setWidth 32 + _ = _
  rw [hfacade, h.libraryTotalOf, harena]
  unfold selectedUnigrams at htotal
  change _ + arena.total = _
  linear_combination -htotal

/-- The libraries of a mask, one after the other. -/
theorem Settled.maskArena (h : s.Settled) (mask value : BitVec 32) :
    (s.maskArena mask value).Settled ∧ s.Moves 0 (s.maskArena mask value) := by
  -- a library is masked as it was, the ones before it have other keys
  have hfold : ∀ entries : List (BitVec 8 × UserLibrary), (entries.Pairwise fun a b => a.1 < b.1) →
      ∀ t : SessionState, t.Settled → s.Moves 0 t → (∀ entry ∈ entries, t.libraries.get? entry.1 = some entry.2) →
      (entries.foldl (SessionState.maskLibrary mask value) t).Settled ∧
        s.Moves 0 (entries.foldl (SessionState.maskLibrary mask value) t) := by
    intro entries
    induction entries with
    | nil => exact fun _ t ht hmoves _ => ⟨ht, hmoves⟩
    | cons entry entries ih =>
      intro hascending t ht hmoves hentries
      obtain ⟨hless, hrest⟩ := pairwise_cons.mp hascending
      obtain ⟨hmasked, hmoved⟩ := ht.maskLibrary mask value (hentries entry mem_cons_self)
      have htotal := hmoves.trans hmoved
      rw [add_zero] at htotal
      refine ih hrest _ hmasked htotal fun other hother => ?_
      obtain ⟨items, hitems, _⟩ := @takeItemsOut_bare t entry.1 ht
        ((entry.2.items.filter fun item => selects mask value entry.1 item.1).map fun item => item.2.unigram)
      unfold SessionState.maskLibrary
      dsimp only
      rw [hitems, putArena, get?_insert,
        update_of_ne (ne_of_lt (hless other hother)).symm]
      exact hentries other (mem_cons_of_mem _ hother)
  refine hfold s.libraries.entries s.libraries.ascending s h h.still.2 fun entry hentry => ?_
  exact (s.libraries.lists.mem entry.1 entry.2).mp hentry

theorem Settled.mask (h : s.Settled) (entryPerLength reuse : Bool) (mask value : BitVec 32) :
    (s.mask entryPerLength reuse mask value).1.Settled ∧ s.Moves 0 (s.mask entryPerLength reuse mask value).1 := by
  unfold SessionState.mask
  dsimp only
  have htables : ∀ index table, SessionState.Settled { s with index := index, phraseTable := table } ∧
      s.Moves 0 { s with index := index, phraseTable := table } := fun _ _ => h.same ⟨rfl, rfl, rfl, rfl, rfl⟩
  split
  · exact htables _ _
  · obtain ⟨hsettled, hmoves⟩ := htables (s.index.mask entryPerLength mask value)
      (s.phraseTable.mask reuse mask value).1
    obtain ⟨hmasked, hmoved⟩ := hsettled.maskArena mask value
    exact ⟨hmasked, by simpa using hmoves.trans hmoved⟩

/-! ## Transitions -/

/-- What a transition keeps of an arena's total beyond its items. -/
def replacedOffset (arena : Option UserLibrary) : BitVec 32 :=
  arena.elim 0 fun arena => arena.total - arena.frequencySum

/-- A library's total is what its items make and its offset. -/
theorem Settled.libraryTotalOf_eq (h : s.Settled) (library : BitVec 8) :
    s.libraryTotalOf library = (s.libraries.get? library).elim 0 frequencySum + s.offsetOf library := by
  rw [h.libraryTotalOf]
  cases harena : s.libraries.get? library with
  | none => exact (zero_add _).symm
  | some arena => exact (h.rests library arena harena).total

theorem setWidth_elim_itemSum (arena : Option UserLibrary) :
    (arena.elim 0 itemSum).setWidth 32 = arena.elim 0 frequencySum := by
  cases arena with
  | none => rfl
  | some arena => exact arena.setWidth_itemSum

theorem elim_offset (arena : Option UserLibrary) :
    (arena.elim 0 fun loaded => loaded.total - (arena.elim 0 itemSum).setWidth 32) = replacedOffset arena := by
  rw [setWidth_elim_itemSum]
  cases arena with
  | none => rfl
  | some arena => rfl

theorem offsetOf_replaceUserArena (s : SessionState) (library : BitVec 8) (arena : Option UserLibrary) :
    (s.replaceUserArena library arena).offsetOf = update s.offsetOf library (replacedOffset arena) := by
  have hoffsets : (s.replaceUserArena library arena).offsets =
      if replacedOffset arena = 0 then s.offsets.erase library else s.offsets.insert library
        (replacedOffset arena) := by
    rw [← elim_offset]
    rfl
  ext1 other
  rw [offsetOf, hoffsets, update_apply]
  by_cases hzero : replacedOffset arena = 0
  · rw [if_pos hzero, get?_erase, update_apply, hzero]
    split_ifs
    · rfl
    · rfl
  · rw [if_neg hzero, get?_insert, update_apply]
    split_ifs
    · rfl
    · rfl

theorem facade_replaceUserArena (s : SessionState) (library : BitVec 8) (arena : Option UserLibrary) :
    (s.replaceUserArena library arena).facade = s.facade + (arena.elim 0 frequencySum -
      (s.libraries.get? library).elim 0 frequencySum + (replacedOffset arena - s.offsetOf library)) := by
  have hextra : (s.replaceUserArena library arena).items.facadeExtra = s.items.facadeExtra + (arena.elim 0 itemSum -
      (s.libraries.get? library).elim 0 itemSum + (replacedOffset arena - s.offsetOf library).setWidth 64) := by
    rw [← elim_offset]
    rfl
  rw [facade, hextra, setWidth_add _ _ (by decide), setWidth_add _ _ (by decide), setWidth_sub,
    setWidth_setWidth, setWidth_elim_itemSum, setWidth_elim_itemSum]
  rfl

/-- A library takes an arena's place : the facade takes the new total and loses the old one. -/
theorem Settled.replaceUserArena {arena : Option UserLibrary} (h : s.Settled)
    (hrests : ∀ loaded, arena = some loaded → loaded.Rests (loaded.total - loaded.frequencySum)) :
    (s.replaceUserArena library arena).Settled ∧ s.Moves 0 (s.replaceUserArena library arena) := by
  have hget : (s.replaceUserArena library arena).libraries.get? = update s.libraries.get? library arena := by
    cases arena with
    | none => exact get?_erase s.libraries library
    | some arena => exact get?_insert s.libraries library arena
  have hoffset := s.offsetOf_replaceUserArena library arena
  have ht : (s.replaceUserArena library arena).Settled := by
    refine ⟨h.bare, fun other found hfound => ?_, fun hne => ?_⟩
    · rw [hget, update_apply] at hfound
      rw [hoffset, update_apply]
      split_ifs at hfound ⊢ with hother
      · rw [hfound]
        exact hrests found hfound
      · exact h.rests other found hfound
    · change (!List.isEmpty _) = true
      rw [Bool.not_eq_true', isEmpty_eq_false_iff]
      exact hne
  refine ⟨ht, ?_⟩
  have htotals : (s.replaceUserArena library arena).totals + s.libraryTotalOf library =
      s.totals + (arena.elim 0 frequencySum + replacedOffset arena) := by
    have hupdate : (s.replaceUserArena library arena).libraryTotalOf = update s.libraryTotalOf library
        (arena.elim 0 frequencySum + replacedOffset arena) := by
      ext1 other
      rw [ht.libraryTotalOf_eq, hget, hoffset, update_apply, update_apply, update_apply]
      split_ifs with hother
      · rfl
      · rw [h.libraryTotalOf_eq]
    have hsum := Margins.sum_update s.libraryTotalOf library (arena.elim 0 frequencySum + replacedOffset arena)
    rwa [← hupdate] at hsum
  rw [h.libraryTotalOf_eq] at htotals
  unfold Moves
  rw [facade_replaceUserArena]
  linear_combination -htotals

/-- A chunk that loads has its items apart. -/
def Sound (payload : Bytes) : Prop :=
  ∀ loaded, UserLibrary.loadPayload payload = .ok loaded → loaded.Apart

/-- A library as it is loaded is at rest over what its total has beyond its items. -/
theorem rests_loadedLibrary {payload : Bytes} (hsound : Sound payload) {loaded : UserLibrary}
    (h : loadedLibrary payload = some loaded) : loaded.Rests (loaded.total - loaded.frequencySum) := by
  unfold loadedLibrary at h
  split at h
  · rename_i library hlibrary
    obtain rfl := some.inj h
    split_ifs
    · have hzero : (emptyWithTotal library.total).frequencySum = 0 := rfl
      rw [hzero, sub_zero]
      exact rests_emptyWithTotal library.total
    · exact rests_of_loadPayload hlibrary (hsound library hlibrary)
  · have hheaders := eq_ok_of_toOption h
    unfold loadHeadersPayload at hheaders
    split at hheaders
    · cases hheaders
    · rename_i sections hsections
      obtain rfl := Except.ok.inj hheaders
      refine .inl ⟨rfl, rfl, ?_⟩
      rw [frequencySum, items_headersOnly rfl]
      exact sub_self (0 : BitVec 32)

theorem Settled.loadUserLibrary {payload : Option Bytes} (h : s.Settled) (hsound : ∀ bytes ∈ payload, Sound bytes) :
    (s.loadUserLibrary library payload).Settled ∧ s.Moves 0 (s.loadUserLibrary library payload) := by
  unfold SessionState.loadUserLibrary
  split_ifs
  · refine h.replaceUserArena fun loaded hloaded => ?_
    obtain rfl := some.inj hloaded
    cases hpayload : payload.bind loadedLibrary with
    | none =>
      have hrests := rests_emptyWithTotal 0
      exact hrests
    | some library =>
      obtain ⟨bytes, hbytes, hlibrary⟩ := bind_eq_some_iff.mp hpayload
      exact rests_loadedLibrary (hsound bytes hbytes) hlibrary
  · exact h.still

theorem Settled.unloadUserLibrary (h : s.Settled) :
    (s.unloadUserLibrary library).Settled ∧ s.Moves 0 (s.unloadUserLibrary library) := by
  unfold SessionState.unloadUserLibrary
  split_ifs
  · exact h.replaceUserArena fun loaded hloaded => by cases hloaded
  · exact h.still

/-- A compaction rebuilds the totals and leaves the facade. -/
theorem Settled.compactLibraries (h : s.Settled) (hroom : s.compactLibraries.Room) :
    s.compactLibraries.Settled ∧ s.compactLibraries.items.facadeExtra = s.items.facadeExtra := by
  have hget : s.compactLibraries.libraries.get? = fun library => (s.libraries.get? library).map compact :=
    get?_foldl_insert (fun _ => compact) s.libraries
  refine ⟨⟨h.bare, fun library arena harena => ?_, fun hne => absurd rfl hne⟩, ?_⟩
  · have hsmall := hroom library arena harena
    rw [hget] at harena
    obtain ⟨old, hold, rfl⟩ := map_eq_some_iff.mp harena
    exact (h.rests library old hold).compact hsmall
  · unfold SessionState.compactLibraries
    dsimp only
    rw [h.bare]
    rfl

/-! ## Opening -/

/-- One user library of an opened session : what its chunk loads as, with its total in the facade
and what the total has beyond the items kept as an offset. -/
def seedLibrary (s : SessionState) (entry : BitVec 8 × Bytes) : SessionState :=
  match UserLibrary.loadPayload entry.2 with
  | .ok loaded =>
    let offset := loaded.total - loaded.frequencySum
    { s with
      libraries := if loaded.isEmpty then s.libraries else s.libraries.insert entry.1 loaded
      offsets := if offset = 0 then s.offsets else s.offsets.insert entry.1 offset
      items := s.items.addFacadeExtra (loaded.total.setWidth 64) }
  | .error _ =>
    match UserLibrary.loadHeadersPayload entry.2 with
    | .ok headers => { s with libraries := s.libraries.insert entry.1 headers }
    | .error _ => s

/-- A session as it is opened without system libraries, from the chunks of the user's directory. -/
def opened (index : UserIndex) (phraseTable : UserPhraseTable) (hasUserLibrary : BitVec 8 → Bool)
    (hasOverlongIndexKey : Bool) (chunks : SortedMap (BitVec 8) Bytes) : SessionState :=
  let fresh : SessionState := ⟨.empty, index, ∅, phraseTable, .empty, false, .new, .empty, hasUserLibrary,
    hasOverlongIndexKey⟩
  let seeded := chunks.entries.foldl seedLibrary fresh
  { seeded with hasLibraryOffsets := !seeded.offsets.entries.isEmpty }

/-- A chunk seeds an arena and an offset of its own library, at rest with each other. -/
theorem seedLibrary_spec {entry : BitVec 8 × Bytes} (hsound : Sound entry.2)
    (hlibrary : s.libraries.get? entry.1 = none) (hoffset : s.offsets.get? entry.1 = none) :
    (s.seedLibrary entry).originals = s.originals ∧ ∃ found offset,
      (s.seedLibrary entry).libraries.get? = update s.libraries.get? entry.1 found ∧
      (s.seedLibrary entry).offsets.get? = update s.offsets.get? entry.1 offset ∧
      ∀ arena, found = some arena → arena.Rests (offset.getD 0) := by
  have hkeep : update s.libraries.get? entry.1 none = s.libraries.get? := by
    rw [← hlibrary, update_eq_self]
  have hkept : update s.offsets.get? entry.1 none = s.offsets.get? := by
    rw [← hoffset, update_eq_self]
  unfold seedLibrary
  split
  · rename_i loaded hloaded
    refine ⟨rfl, if loaded.isEmpty then none else some loaded,
      if loaded.total - loaded.frequencySum = 0 then none else some (loaded.total - loaded.frequencySum), ?_, ?_, ?_⟩
    · dsimp only
      split_ifs
      · exact hkeep.symm
      · exact get?_insert s.libraries entry.1 loaded
    · dsimp only
      split_ifs
      · exact hkept.symm
      · exact get?_insert s.offsets entry.1 _
    · intro arena harena
      split_ifs at harena
      obtain rfl := some.inj harena
      have hrests := rests_of_loadPayload hloaded (hsound loaded hloaded)
      split_ifs with hzero
      · rwa [hzero] at hrests
      · exact hrests
  · split
    · rename_i headers hheaders
      refine ⟨rfl, some headers, none, get?_insert s.libraries entry.1 headers, hkept.symm, ?_⟩
      intro arena harena
      obtain rfl := some.inj harena
      unfold loadHeadersPayload at hheaders
      split at hheaders
      · cases hheaders
      · obtain rfl := Except.ok.inj hheaders
        exact .inl ⟨rfl, rfl, rfl⟩
    · exact ⟨rfl, none, none, hkeep.symm, hkept.symm, fun arena harena => by cases harena⟩

/-- The chunks of different libraries seed different arenas and offsets. -/
theorem settled_opened (index : UserIndex) (phraseTable : UserPhraseTable) (hasUserLibrary : BitVec 8 → Bool)
    (hasOverlongIndexKey : Bool) {chunks : SortedMap (BitVec 8) Bytes}
    (hsound : ∀ entry ∈ chunks.entries, Sound entry.2) :
    (opened index phraseTable hasUserLibrary hasOverlongIndexKey chunks).Settled := by
  have hfold : ∀ entries : List (BitVec 8 × Bytes), (entries.Pairwise fun a b => a.1 < b.1) →
      (∀ entry ∈ entries, Sound entry.2) → ∀ t : SessionState, t.originals = .empty →
      (∀ library arena, t.libraries.get? library = some arena → arena.Rests (t.offsetOf library)) →
      (∀ entry ∈ entries, t.libraries.get? entry.1 = none ∧ t.offsets.get? entry.1 = none) →
      (entries.foldl seedLibrary t).originals = .empty ∧ ∀ library arena,
        (entries.foldl seedLibrary t).libraries.get? library = some arena →
          arena.Rests ((entries.foldl seedLibrary t).offsetOf library) := by
    intro entries
    induction entries with
    | nil => exact fun _ _ t hbare hrests _ => ⟨hbare, hrests⟩
    | cons entry entries ih =>
      intro hascending hsound t hbare hrests hfresh
      obtain ⟨hless, hrest⟩ := pairwise_cons.mp hascending
      obtain ⟨hlibrary, hoffset⟩ := hfresh entry mem_cons_self
      obtain ⟨horiginals, found, offset, hlibraries, hoffsets, hfound⟩ :=
        seedLibrary_spec (hsound entry mem_cons_self) hlibrary hoffset
      refine ih hrest (fun other hother => hsound other (mem_cons_of_mem _ hother)) _ (horiginals.trans hbare)
        (fun library arena harena => ?_) fun other hother => ?_
      · rw [hlibraries, update_apply] at harena
        rw [offsetOf, hoffsets, update_apply]
        split_ifs at harena ⊢ with hsame
        · exact hfound arena harena
        · exact hrests library arena harena
      · have hne := (ne_of_lt (hless other hother)).symm
        rw [hlibraries, hoffsets, update_of_ne hne, update_of_ne hne]
        exact hfresh other (mem_cons_of_mem _ hother)
  obtain ⟨hbare, hrests⟩ := hfold chunks.entries chunks.ascending hsound
    ⟨.empty, index, ∅, phraseTable, .empty, false, .new, .empty, hasUserLibrary, hasOverlongIndexKey⟩ rfl
    (fun _ _ hget => by cases hget) (fun _ _ => ⟨rfl, rfl⟩)
  refine ⟨hbare, hrests, fun hne => ?_⟩
  change (!List.isEmpty _) = true
  rw [Bool.not_eq_true', isEmpty_eq_false_iff]
  exact hne

end SessionState

/-! ## Runs -/

namespace UserStore

variable {store : UserStore SessionState} {entryPerLength reuse : Bool}

/-- The increment of a training or predicted step, none for one that is refused first. -/
def updateDelta (store : UserStore SessionState) (last cur : BitVec 32) (policy : SeedPolicy) : Option (BitVec 32) :=
  let row := store.container.gram last
  if row.any SingleGram.hasPartialTail then none
  else if row.any fun gram => gram.length < SingleGram.totalLen then
    match policy with
    | .training => none
    | .predicted => some (unigramDelta predictedSeed)
  else ((updateGram row cur policy : Except (UserStoreError PhraseError) _).toOption).map fun step =>
    unigramDelta step.1

theorem phrases_update_eq (side : PhraseSide SessionState PhraseError) (store : UserStore SessionState)
    (last cur : BitVec 32) (policy : SeedPolicy) : (store.update side last cur policy).1.phrases =
      (store.updateDelta last cur policy).elim store.phrases fun delta =>
      (side.addUnigram store.phrases cur delta).1 := by
  unfold update updateDelta
  dsimp only
  split_ifs
  · rfl
  · cases policy with
    | training => rfl
    | predicted => rfl
  · cases (updateGram (store.container.gram last) cur policy : Except (UserStoreError PhraseError) _) with
    | error error => rfl
    | ok step => rfl

/-- The increment an operation makes to a token's frequency. -/
def increment (store : UserStore SessionState) : StoreOp → Option (BitVec 32 × BitVec 32)
  | .observeSelection last cur => (store.updateDelta last cur .training).map (Prod.mk cur)
  | .observePredicted last cur => (store.updateDelta last cur .predicted).map (Prod.mk cur)
  | .observePredictedPrefix cur => some (cur, unigramDelta predictedSeed)
  | .addUnigramFrequency token delta => some (token, delta)
  | _ => none

/-- What an operation adds to the facade that no library took : the increment of a new phrase
that was refused, or one of a frequency that was refused or met no item. -/
def spill (store : UserStore SessionState) : StoreOp → BitVec 32
  | .addPhraseIn library words keys count => store.phrases.refusedIncrement library words keys count
  | op => (store.increment op).elim 0 fun entry => store.phrases.untaken entry.1 entry.2

/-- The operations of a session without baselines, where no phrase goes to an occupied slot and
the items of a loaded chunk lie apart. -/
def Plain (s : SessionState) : StoreOp → Prop
  | .addPhraseIn library words keys count => (s.addedIncrement library words keys count).isSome →
    ∀ arena, s.libraries.get? library = some arena → arena.item (s.addedSlot library) = none
  | .promoteAddonPhrase words readings unigram => s.AdmitsPromotion words readings unigram →
    ∀ arena, s.libraries.get? addonDictionary = some arena → arena.item s.promotedSlot = none
  | .loadUserLibrary _ payload => ∀ bytes ∈ payload, SessionState.Sound bytes
  | .loadSystemLibraries _ _ _ | .unloadSystemLibraries _ | .resetSystemLibrary _ => False
  | _ => True

/-- What an operation does to the facade : a compaction leaves it, every other operation moves it
with the totals and by its spill. -/
def Accounts (store : UserStore SessionState) (op : StoreOp) (after : SessionState) : Prop :=
  match op with
  | .compactLibraries => after.items.facadeExtra = store.phrases.items.facadeExtra
  | op => after.facade + store.phrases.totals = store.phrases.facade + after.totals + store.spill op

section

variable (h : store.phrases.Settled)
include h

theorem settled_maskOut (mask value : BitVec 32) :
    (store.maskOut (sessionSide entryPerLength reuse) mask value).1.phrases.Settled ∧
      store.phrases.Moves 0 (store.maskOut (sessionSide entryPerLength reuse) mask value).1.phrases := by
  have hmask := h.mask entryPerLength reuse mask value
  unfold maskOut
  split
  · exact h.still
  · dsimp only
    split
    · exact h.still
    · split
      · exact hmask
      · exact hmask

theorem settled_removeUserPhrase (token : BitVec 32) :
    (store.removeUserPhrase (sessionSide entryPerLength reuse) token).1.phrases.Settled ∧
      store.phrases.Moves 0 (store.removeUserPhrase (sessionSide entryPerLength reuse) token).1.phrases := by
  unfold removeUserPhrase
  dsimp only
  split
  · exact h.still
  · exact h.still
  · rename_i hcheck
    have hremove := h.remove hcheck
    split
    · exact h.still
    · split
      · exact hremove
      · exact hremove

theorem settled_update (last cur : BitVec 32) (policy : SeedPolicy) :
    (store.update (sessionSide entryPerLength reuse) last cur policy).1.phrases.Settled ∧
      store.phrases.Moves (((store.updateDelta last cur policy).map (Prod.mk cur)).elim 0 fun entry =>
        store.phrases.untaken entry.1 entry.2)
        (store.update (sessionSide entryPerLength reuse) last cur policy).1.phrases := by
  rw [phrases_update_eq]
  cases store.updateDelta last cur policy with
  | none => exact h.still
  | some delta => exact h.addUnigram cur delta

/-- An operation keeps the libraries at rest and accounts for the facade. -/
theorem settled_after {op : StoreOp} (hroom : store.phrases.Room)
    (hnext : (store.after (sessionSide entryPerLength reuse) op).phrases.Room) (hop : Plain store.phrases op) :
    (store.after (sessionSide entryPerLength reuse) op).phrases.Settled ∧
      store.Accounts op (store.after (sessionSide entryPerLength reuse) op).phrases := by
  cases op with
  | addPhraseIn library words keys count => exact h.addPhraseIn hroom hop
  | promoteAddonPhrase words readings unigram => exact h.promoteAddonPhrase hroom hop
  | observeSelection last cur => exact settled_update h last cur .training
  | observePredicted last cur => exact settled_update h last cur .predicted
  | observePredictedPrefix cur => exact h.addUnigram cur _
  | setBigramCount prev cur count => exact h.still
  | addUnigramFrequency token delta => exact h.addUnigram token delta
  | trainPronunciations token readings seed => exact h.arenaTrain token readings _
  | maskOut mask value => exact settled_maskOut h mask value
  | removeUserPhrase token => exact settled_removeUserPhrase h token
  | loadUserLibrary library payload => exact h.loadUserLibrary hop
  | unloadUserLibrary library => exact h.unloadUserLibrary
  | loadSystemLibraries originals replayed totals => exact hop.elim
  | unloadSystemLibraries originals => exact hop.elim
  | resetSystemLibrary nibble => exact hop.elim
  | compactLibraries => exact h.compactLibraries hnext

end

/-- A plain run keeps every session settled. -/
theorem settled_run : ∀ {ops : List StoreOp} {store : UserStore SessionState}, store.phrases.Settled →
    Along (after (sessionSide entryPerLength reuse)) (fun store op => Plain store.phrases op) store ops →
    (∀ reached ∈ states (after (sessionSide entryPerLength reuse)) store ops, reached.phrases.Room) →
    (∀ reached ∈ states (after (sessionSide entryPerLength reuse)) store ops, reached.phrases.Settled) ∧
      Along (after (sessionSide entryPerLength reuse)) (fun store op =>
        store.Accounts op (store.after (sessionSide entryPerLength reuse) op).phrases) store ops
  | [], store, h, _, _ => by
    refine ⟨fun reached hreached => ?_, trivial⟩
    rw [mem_singleton.mp hreached]
    exact h
  | op :: ops, store, h, hops, hroom => by
    have hrest : ∀ reached ∈ states (after (sessionSide entryPerLength reuse))
        (store.after (sessionSide entryPerLength reuse) op) ops, reached.phrases.Room :=
      fun reached hreached => hroom reached (mem_cons_of_mem _ hreached)
    obtain ⟨hsettled, haccounts⟩ := settled_after h (hroom store mem_cons_self) (hrest _ (mem_states_self _ _)) hops.1
    obtain ⟨hall, halong⟩ := settled_run hsettled hops.2 hrest
    refine ⟨fun reached hreached => ?_, haccounts, halong⟩
    rcases mem_cons.mp hreached with rfl | hreached
    · exact h
    · exact hall reached hreached

end UserStore

/-- In every run of a session without system libraries in which no phrase goes to an occupied
slot, the items of every loaded chunk lie apart and no library's content reaches `2 ^ 32` bytes :
each library's total is the sum of its items' frequencies and its retained offset, the flag is up
while an offset is retained, and each step accounts for the facade. -/
theorem totals_run (entryPerLength reuse : Bool) (index : UserIndex) (phraseTable : UserPhraseTable)
    (hasUserLibrary : BitVec 8 → Bool) (hasOverlongIndexKey : Bool) (container : Container)
    {chunks : SortedMap (BitVec 8) Bytes} (hsound : ∀ entry ∈ chunks.entries, SessionState.Sound entry.2)
    {ops : List StoreOp}
    (hops : Along (UserStore.after (sessionSide entryPerLength reuse)) (fun store op =>
      UserStore.Plain store.phrases op)
      ⟨.opened index phraseTable hasUserLibrary hasOverlongIndexKey chunks, container⟩ ops)
    (hroom : ∀ reached ∈ states (UserStore.after (sessionSide entryPerLength reuse))
      ⟨.opened index phraseTable hasUserLibrary hasOverlongIndexKey chunks, container⟩ ops,
        ∀ library arena, reached.phrases.libraries.get? library = some arena → arena.content.length < 2 ^ 32) :
    (∀ reached ∈ states (UserStore.after (sessionSide entryPerLength reuse))
      ⟨.opened index phraseTable hasUserLibrary hasOverlongIndexKey chunks, container⟩ ops,
      (∀ library arena, reached.phrases.libraries.get? library = some arena →
        arena.total = arena.frequencySum + reached.phrases.offsetOf library) ∧
      (reached.phrases.offsets.entries ≠ [] → reached.phrases.hasLibraryOffsets = true)) ∧
    Along (UserStore.after (sessionSide entryPerLength reuse)) (fun store op =>
      store.Accounts op (store.after (sessionSide entryPerLength reuse) op).phrases)
      ⟨.opened index phraseTable hasUserLibrary hasOverlongIndexKey chunks, container⟩ ops := by
  have hopened := SessionState.settled_opened index phraseTable hasUserLibrary hasOverlongIndexKey hsound
  obtain ⟨hall, halong⟩ := @UserStore.settled_run entryPerLength reuse ops ⟨_, container⟩ hopened hops hroom
  refine ⟨fun reached hreached => ?_, halong⟩
  have hsettled := hall reached hreached
  exact ⟨fun library arena harena => (hsettled.rests library arena harena).total, hsettled.flagged⟩

/-- A chunk of one item under one or two slots, with its stored total. -/
def itemChunk (total : BitVec 32) (slots : List (BitVec 32)) : Bytes :=
  indexBytes total ((0 :: slots).flatMap le32) (List.replicate 8 0 ++ bodyBytes ⟨[0x4f60], 5, [([0x1234], 2)]⟩)

/-- A session over a chunk whose stored total is not its item's : a phrase more, increments that
are taken, refused and meet no item, a mask, a compaction, a reload and an unload. -/
def balancedRun : List StoreOp :=
  [.addPhraseIn userDictionary [0x597d] [214] none, .addUnigramFrequency 0x07000001 7,
    .addUnigramFrequency 0x07000002 0xffffffff, .addUnigramFrequency 0x07000003 7, .maskOut 0xffffffff 0x07000002,
    .compactLibraries, .loadUserLibrary userDictionary (some (itemChunk 9 [8])), .unloadUserLibrary userDictionary]

def balancedSession : UserStore SessionState :=
  ⟨.opened .new (.fromEntries []) isUserFileLibrary false (SortedMap.empty.insert userDictionary (itemChunk 9 [8])),
    .empty⟩

theorem sound_of_check {payload : Bytes}
    (h : ((loadPayload payload).toOption.all fun loaded => decide loaded.Apart) = true) :
    SessionState.Sound payload := by
  intro loaded hloaded
  rw [hloaded] at h
  exact of_decide_eq_true h

theorem totals_balancedRun :
    (∀ reached ∈ states (UserStore.after (sessionSide false false)) balancedSession balancedRun,
      (∀ library arena, reached.phrases.libraries.get? library = some arena →
        arena.total = arena.frequencySum + reached.phrases.offsetOf library) ∧
      (reached.phrases.offsets.entries ≠ [] → reached.phrases.hasLibraryOffsets = true)) ∧
    Along (UserStore.after (sessionSide false false)) (fun store op =>
      store.Accounts op (store.after (sessionSide false false) op).phrases) balancedSession balancedRun := by
  have hsound : SessionState.Sound (itemChunk 9 [8]) := sound_of_check (by decide +kernel)
  have hfree : (balancedSession.phrases.libraries.get? userDictionary).all
      (fun arena => (arena.item (balancedSession.phrases.addedSlot userDictionary)).isNone) = true := by
    decide +kernel
  have hsmall : ((states (UserStore.after (sessionSide false false)) balancedSession balancedRun).all fun reached =>
      reached.phrases.libraries.entries.all fun entry => decide (entry.2.content.length < 2 ^ 32)) = true := by
    decide +kernel
  refine totals_run false false .new (.fromEntries []) isUserFileLibrary false .empty (fun entry hentry => ?_) ?_ ?_
  · rw [mem_singleton.mp hentry]
    exact hsound
  · refine ⟨fun _ arena harena => ?_, trivial, trivial, trivial, trivial, trivial, fun bytes hbytes => ?_,
      trivial, trivial⟩
    · rw [show balancedSession.phrases.libraries.get? userDictionary = some arena from harena] at hfree
      exact isNone_iff_eq_none.mp hfree
    · rw [← some.inj hbytes]
      exact hsound
  · intro reached hreached library arena harena
    have hentry := (reached.phrases.libraries.lists.mem library arena).mpr harena
    exact of_decide_eq_true (List.all_eq_true.mp (List.all_eq_true.mp hsmall reached hreached) _ hentry)

/-- Two slots of a loaded chunk name one item, and its training moves the sum twice. An increment
for an unloaded library is lost. -/
theorem sharedItem_total :
    (([.loadUserLibrary userDictionary (some (itemChunk 10 [8, 8])), .addUnigramFrequency 0x07000001 7].foldl
      (UserStore.after (sessionSide false false)) ⟨openSession, .empty⟩).phrases.libraries.get? userDictionary).map
        (fun arena => (arena.total, arena.frequencySum)) = some (17, 24) ∧
    ([.loadUserLibrary userDictionary (some (itemChunk 10 [8, 8])), .addUnigramFrequency 0x07000001 7].foldl
      (UserStore.after (sessionSide false false)) ⟨openSession, .empty⟩).phrases.offsetOf userDictionary = 0 ∧
    ([.unloadUserLibrary userDictionary, .addUnigramFrequency 0x07000001 7].foldl
      (UserStore.after (sessionSide false false)) ⟨openSession, .empty⟩).phrases.items.facadeExtra = 0 := by
  decide +kernel

end Oxpinyin
