import Oxpinyin.KmmBalance

/-!
# Pruning a container

A prune walks the grams. The items it drops leave their row, their counts the row's header and
the magic header, and then the headers of the second words, the row's own among them. The
counters are margins after every row (`Core.pruneRow`), whatever the choice of the items. At the
end the grams with nothing left are removed.
-/

namespace Oxpinyin.Kmm

open List Option Function FiniteMap Margins Run Container Oxpinyin.Kmm.SingleGram
open BitVec hiding append_assoc

/-! ## The items of a row -/

/-- The items a choice drops. -/
def dropped (drop : BitVec 32 → ArrayItem → Bool) (n : BitVec 32) (entries : List (BitVec 32 × ArrayItem)) :
    List (BitVec 32 × ArrayItem) :=
  entries.filter fun entry => drop n entry.2

theorem dropped_cons (drop : BitVec 32 → ArrayItem → Bool) (n : BitVec 32) (entry : BitVec 32 × ArrayItem)
    (rest : List (BitVec 32 × ArrayItem)) :
    dropped drop n (entry :: rest) =
      if drop n entry.2 then entry :: dropped drop n rest else dropped drop n rest :=
  filter_cons

theorem toNat_wcSum {entries : List (BitVec 32 × ArrayItem)}
    (h : (entries.map fun entry => entry.2.wc.toNat).sum < 2 ^ 32) :
    (wcSum entries).toNat = (entries.map fun entry => entry.2.wc.toNat).sum := by
  induction entries with
  | nil => rfl
  | cons entry rest ih =>
    rw [map_cons, sum_cons] at h
    have hrest := ih (by omega)
    rw [wcSum, map_cons, sum_cons, toNat_add, hrest, Nat.mod_eq_of_lt h]

/-- Some items of a gram, each dropped or kept. -/
theorem pruneItems_ok (drop : BitVec 32 → ArrayItem → Bool) :
    ∀ {entries : List (BitVec 32 × ArrayItem)} {magic : MagicHeader} {gram : KmmGram}
      {removed : List (BitVec 32 × ArrayItem)}, (entries.map Prod.fst).Nodup → gram.Ascending →
      (∀ entry ∈ entries, gram.getArrayItem entry.1 = some entry.2) →
      ∃ after, entries.foldlM (pruneItem drop) (magic, gram, removed) =
          .ok (⟨magic.wc - wcSum (dropped drop magic.n entries), magic.n,
            magic.totalFreq - wcSum (dropped drop magic.n entries)⟩, after,
            removed ++ dropped drop magic.n entries) ∧
        after.Ascending ∧ after.header = ⟨gram.header.wc - wcSum (dropped drop magic.n entries), gram.header.freq⟩ ∧
        ∀ token, after.getArrayItem token =
          if token ∈ entries.map Prod.fst then (gram.getArrayItem token).filter fun item => !drop magic.n item
          else gram.getArrayItem token
  | [], magic, gram, removed, _, hascending, _ => by
    have hzero : ∀ a : BitVec 32, a - wcSum [] = a := fun a => sub_zero a
    refine ⟨gram, ?_, hascending, ?_, fun token => (if_neg not_mem_nil).symm⟩
    · rw [dropped, filter_nil, hzero, hzero, append_nil]
      rfl
    · rw [dropped, filter_nil, hzero]
  | entry :: rest, magic, gram, removed, hnodup, hascending, hentries => by
    obtain ⟨hnew, hrest⟩ := nodup_cons.mp hnodup
    have hget := hentries entry mem_cons_self
    have hothers : ∀ other ∈ rest, gram.getArrayItem other.1 = some other.2 := fun other hin =>
      hentries other (mem_cons_of_mem entry hin)
    have hkey : ∀ other ∈ rest, other.1 ≠ entry.1 := fun other hin heq =>
      hnew (heq ▸ List.mem_map_of_mem hin)
    by_cases hdrop : drop magic.n entry.2 = true
    · obtain ⟨taken, htaken, hheader, hlists⟩ := removeArrayItem_some hascending.lists hget
      set next : KmmGram := { taken with header := { taken.header with wc := taken.header.wc - entry.2.wc } }
        with hnext
      have hmap : ∀ token, next.getArrayItem token = update gram.getArrayItem entry.1 none token :=
        fun token => @SingleGram.getArrayItem_eq _ _ next _ hlists token
      obtain ⟨after, hrun, hafter, hlast, hitems⟩ := @pruneItems_ok drop rest
        { magic with wc := magic.wc - entry.2.wc, totalFreq := magic.totalFreq - entry.2.wc } next
        (removed ++ [(entry.1, entry.2)]) hrest hlists.ascending fun other hin => by
          rw [hmap, update_of_ne (hkey other hin)]
          exact hothers other hin
      have hsub : ∀ a : BitVec 32, a - entry.2.wc - wcSum (dropped drop magic.n rest) =
          a - wcSum (dropped drop magic.n (entry :: rest)) := by
        intro a
        have hsum : wcSum (dropped drop magic.n (entry :: rest)) = entry.2.wc + wcSum
          (dropped drop magic.n rest) := by
          rw [dropped_cons, if_pos hdrop, wcSum]
        rw [hsum]
        exact BitVec.sub_sub _ _ _
      refine ⟨after, ?_, hafter, ?_, fun token => ?_⟩
      · rw [foldlM_cons, pruneItem]
        dsimp only
        rw [if_pos hdrop, htaken]
        have hgo := hrun
        dsimp only at hgo
        rw [hsub, hsub, append_assoc, singleton_append] at hgo
        have hall : dropped drop magic.n (entry :: rest) = entry :: dropped drop magic.n rest := by
          rw [dropped_cons, if_pos hdrop]
        rw [hall] at hgo ⊢
        exact hgo
      · rw [hlast, hnext]
        dsimp only
        rw [hheader, hsub]
      · rw [hitems, hmap, map_cons]
        by_cases hsame : token = entry.1
        · rw [hsame, update_self, if_neg hnew, if_pos mem_cons_self, hget]
          exact (filter_some_neg (by simp [hdrop])).symm
        · rw [update_of_ne hsame]
          simp only [mem_cons, hsame, false_or]
    · obtain ⟨after, hrun, hafter, hlast, hitems⟩ := @pruneItems_ok drop rest magic gram removed hrest
        hascending hothers
      have hsame : dropped drop magic.n (entry :: rest) = dropped drop magic.n rest := by
        rw [dropped_cons, if_neg hdrop]
      refine ⟨after, ?_, hafter, by rw [hsame]; exact hlast, fun token => ?_⟩
      · rw [foldlM_cons, pruneItem]
        dsimp only
        rw [if_neg hdrop, hsame]
        exact hrun
      · rw [hitems, map_cons]
        by_cases hkeep : token = entry.1
        · rw [hkeep, if_neg hnew, if_pos mem_cons_self, hget]
          exact (filter_some_pos (by simp [hdrop])).symm
        · simp only [mem_cons, hkeep, false_or]

/-! ## The headers of the second words -/

/-- The counts of dropped items, off the headers of their tokens. -/
theorem subtractFreqs_ok : ∀ {removed : List (BitVec 32 × ArrayItem)} {container : Container},
    (removed.map Prod.fst).Nodup → (∀ entry ∈ removed, (container.load entry.1).isSome) →
      ∃ after, removed.foldlM subtractFreq container = .ok after ∧
        (∀ token, after.grams token = ⟨⟨(container.grams token).header.wc, (container.grams token).header.freq -
          (removed.lookup token).elim 0 ArrayItem.wc⟩, (container.grams token).items⟩) ∧
        (∀ token, (after.load token).isSome = (container.load token).isSome) ∧
        after.getMagicHeader = container.getMagicHeader
  | [], container, _, _ => by
    refine ⟨container, rfl, fun token => ?_, fun _ => rfl, rfl⟩
    have hzero : (container.grams token).header.freq - 0 = (container.grams token).header.freq := sub_zero _
    rw [lookup_nil, elim_none, hzero]
  | entry :: rest, container, hnodup, hload => by
    obtain ⟨hnew, hrest⟩ := nodup_cons.mp hnodup
    obtain ⟨gram, hgram⟩ := isSome_iff_exists.mp (hload entry mem_cons_self)
    set header : ArrayHeader := { (container.grams entry.1).header with
      freq := (container.grams entry.1).header.freq - entry.2.wc } with hheader
    have hstep : subtractFreq container entry = .ok (container.setArrayHeader entry.1 header) := by
      rw [subtractFreq, container.getArrayHeader_eq entry.1 hgram]
    have hsome : ∀ token, ((container.setArrayHeader entry.1 header).load token).isSome =
        (container.load token).isSome := by
      intro token
      rw [load_setArrayHeader]
      by_cases hsame : token = entry.1
      · rw [hsame, hgram, decide_eq_true rfl]
        rfl
      · rw [decide_eq_false hsame, Bool.false_or]
    obtain ⟨after, hrun, hgrams, hafter, hmagic⟩ := @subtractFreqs_ok rest (container.setArrayHeader entry.1 header)
      hrest fun other hin => by
        rw [hsome]
        exact hload other (mem_cons_of_mem entry hin)
    refine ⟨after, ?_, fun token => ?_, fun token => (hafter token).trans (hsome token), hmagic⟩
    · rw [foldlM_cons, hstep]
      exact hrun
    · rw [hgrams, grams_setArrayHeader]
      by_cases hsame : token = entry.1
      · have hnone : rest.lookup entry.1 = none := by
          refine lookup_eq_none_iff.mpr fun other hin => ?_
          have hne : entry.1 ≠ other.1 := fun heq => hnew (heq ▸ List.mem_map_of_mem hin)
          simpa using hne
        have hzero : ∀ a : BitVec 32, a - 0 = a := fun a => sub_zero a
        rw [hsame, update_self, hnone, elim_none, hzero, lookup_cons_self]
        rfl
      · rw [update_of_ne hsame]
        have hlookup : (entry :: rest).lookup token = rest.lookup token := by
          rw [lookup_cons, beq_false_of_ne hsame]
        rw [hlookup]

/-! ## One row -/

variable {magic : MagicHeader} {container : Container} {token : BitVec 32}

theorem countOf_filter (item : Option ArrayItem) (p : ArrayItem → Bool) :
    countOf (item.filter fun found => !p found) + countOf (item.filter p) = countOf item := by
  cases item with
  | none => rfl
  | some found =>
    by_cases hp : p found = true
    · rw [filter_some_neg (by simp [hp]), filter_some_pos hp]
      exact Nat.zero_add _
    · rw [filter_some_pos (by simp [hp]), filter_some_neg (Bool.eq_false_of_not_eq_true hp)]
      rfl

theorem lists_dropped {gram : KmmGram} (h : gram.Ascending) (drop : BitVec 32 → ArrayItem → Bool) (n : BitVec 32) :
    Lists (dropped drop n gram.items) fun token => (gram.getArrayItem token).filter (drop n) := by
  refine ⟨List.Pairwise.filter _ h, fun token item => ?_⟩
  rw [dropped, mem_filter, h.lists.mem, filter_eq_some_iff]

theorem lookup_eq {entries : List (BitVec 32 × ArrayItem)} {m : BitVec 32 → Option ArrayItem} (h : Lists entries m)
    (token : BitVec 32) : entries.lookup token = m token := by
  induction entries generalizing m with
  | nil => rw [lookup_nil, h.eq_none]
  | cons entry rest ih =>
    have hget : m entry.1 = some entry.2 := (h.mem entry.1 entry.2).mp mem_cons_self
    rw [lookup_cons]
    by_cases hsame : token = entry.1
    · rw [hsame, beq_self_eq_true, hget]
    · have hrest := ih (@Lists.tail _ _ _ _ _ _ rest m entry.1 entry.2 h)
      rw [update_of_ne hsame] at hrest
      rw [beq_false_of_ne hsame]
      exact hrest

/-- One row of a balanced container. -/
theorem Core.pruneRow (h : Core magic container.grams)
    (drop : BitVec 32 → ArrayItem → Bool) (hload : (container.load token).isSome) :
    ∃ next after, Kmm.pruneRow drop (magic, container) token = .ok (next, after) ∧ Core next after.grams ∧
      next.n = magic.n ∧ ∀ other, (after.load other).isSome = (container.load other).isSome := by
  obtain ⟨loaded, hloaded⟩ := isSome_iff_exists.mp hload
  have hgram := container.grams_of_load token hloaded
  have hascending := h.ascending token
  rw [hgram] at hascending
  have hlists := hascending.lists
  obtain ⟨gram, hprune, hafter, hheader, hitems⟩ := @pruneItems_ok drop loaded.items magic loaded [] hlists.nodup_keys
    hascending
    fun entry hin => (hlists.mem entry.1 entry.2).mp hin
  rw [nil_append] at hprune
  have hdropped := lists_dropped hascending drop magic.n
  set lost := dropped drop magic.n loaded.items with hlost
  have hkept : ∀ other, gram.getArrayItem other =
      (loaded.getArrayItem other).filter fun item => !drop magic.n item := by
    intro other
    rw [hitems]
    split_ifs with hin
    · rfl
    · rw [hlists.get_of_not_mem hin, filter_none]
  -- a second word is in the container : its frequency is not zero
  have hseconds : ∀ entry ∈ lost, ((container.store token gram).load entry.1).isSome := by
    intro entry hin
    rw [load_store, update_apply]
    split_ifs with hsame
    · rfl
    · have hitem : (container.grams token).getArrayItem entry.1 = some entry.2 := by
        rw [hgram]
        exact (hlists.mem entry.1 entry.2).mp (mem_filter.mp hin).1
      have hpos := (h.items token entry.1 entry.2 hitem).1.counted
      have hle := le_colSum (counts container.grams) token entry.1
      have hcount : counts container.grams token entry.1 = entry.2.wc.toNat := by rw [counts, hitem]; rfl
      have hfreq := h.freq entry.1
      cases hnone : container.load entry.1 with
      | some _ => rfl
      | none =>
        have hzero : (container.grams entry.1).header.freq.toNat = 0 := by rw [grams, hnone]; rfl
        omega
  obtain ⟨after, hsubtract, hgrams, hloads, _⟩ := subtractFreqs_ok hdropped.nodup_keys hseconds
  -- what each second word loses
  have hlookup : ∀ other, ((lost.lookup other).elim 0 ArrayItem.wc).toNat =
      countOf ((loaded.getArrayItem other).filter (drop magic.n)) := by
    intro other
    rw [lookup_eq hdropped]
    cases (loaded.getArrayItem other).filter (drop magic.n) <;> rfl
  have hsum : (lost.map fun entry => entry.2.wc.toNat).sum =
      ∑ other, countOf ((loaded.getArrayItem other).filter (drop magic.n)) := by
    rw [hdropped.sum_eq fun _ item => item.wc.toNat]
    rfl
  have hrow : rowSum (counts container.grams) token = ∑ other, countOf (loaded.getArrayItem other) := by
    rw [rowSum]
    refine Finset.sum_congr rfl fun other _ => ?_
    rw [counts, hgram]
  have hsplit : (∑ other, countOf (gram.getArrayItem other)) +
      (∑ other, countOf ((loaded.getArrayItem other).filter (drop magic.n))) =
        ∑ other, countOf (loaded.getArrayItem other) := by
    rw [← Finset.sum_add_distrib]
    refine Finset.sum_congr rfl fun other _ => ?_
    rw [hkept]
    exact countOf_filter _ _
  have hwc := h.wc token
  rw [hgram] at hwc
  have hbound := loaded.header.wc.isLt
  have hwcSum : (wcSum lost).toNat = ∑ other, countOf ((loaded.getArrayItem other).filter (drop magic.n)) := by
    rw [toNat_wcSum (by omega), hsum]
  have hitemsAfter : ∀ other, (after.grams other).items =
      (update container.grams token gram other).items := by
    intro other
    rw [hgrams, grams_store]
  have hcounts : counts after.grams = update (counts container.grams) token fun other =>
      countOf (gram.getArrayItem other) := by
    rw [counts_of_items hitemsAfter, counts_update]
  have hgrand := grandSum_update (counts container.grams) token fun other => countOf (gram.getArrayItem other)
  rw [← hcounts] at hgrand
  have htotal : ∀ {total : BitVec 32}, total.toNat = grandSum (counts container.grams) →
      (total - wcSum lost).toNat = grandSum (counts after.grams) := by
    intro total hold
    have hle := rowSum_le (counts container.grams) token
    rw [toNat_sub_of_le (by rw [le_def]; omega)]
    omega
  have hgramItem : ∀ other item, gram.getArrayItem other = some item → loaded.getArrayItem other = some item := by
    intro other item hitem
    rw [hkept] at hitem
    exact (filter_eq_some_iff.mp hitem).1
  refine ⟨⟨magic.wc - wcSum lost, magic.n, magic.totalFreq - wcSum lost⟩, after, ?_,
    ⟨fun other => ?_, fun other => ?_, fun other => ?_, htotal h.magicWc, htotal h.magicFreq,
      fun first second item hitem => ?_⟩, rfl, fun other => ?_⟩
  · simp only [Kmm.pruneRow, hloaded, pruneKMixtureModel, hprune, bind, Except.bind, hsubtract]
    rfl
  · rw [SingleGram.Ascending, hitemsAfter]
    by_cases hsame : other = token
    · rw [hsame, update_self]
      exact hafter
    · rw [update_of_ne hsame]
      exact h.ascending other
  · rw [hcounts, rowSum_update, hgrams, grams_store]
    split_ifs with hsame
    · rw [hsame, update_self, hheader]
      dsimp only
      rw [toNat_sub_of_le (by rw [le_def]; omega), hwcSum]
      omega
    · rw [update_of_ne hsame]
      exact h.wc other
  · have hcol := colSum_update (counts container.grams) token (fun other => countOf (gram.getArrayItem other)) other
    rw [← hcounts] at hcol
    have hentry : counts container.grams token other = countOf (loaded.getArrayItem other) := by rw [counts, hgram]
    have hparts := countOf_filter (loaded.getArrayItem other) (drop magic.n)
    have hkeptOther := hkept other
    have hfreq := h.freq other
    have hheaderFreq : (update container.grams token gram other).header.freq =
        (container.grams other).header.freq := by
      by_cases hsame : other = token
      · rw [hsame, update_self, hheader, hgram]
      · rw [update_of_ne hsame]
    rw [hgrams, grams_store]
    dsimp only
    rw [hheaderFreq]
    have hloss := hlookup other
    rw [hkeptOther] at hcol
    have hle := le_colSum (counts container.grams) token other
    rw [toNat_sub_of_le (by rw [le_def]; omega)]
    omega
  · rw [getArrayItem, hitemsAfter, ← getArrayItem] at hitem
    by_cases hsame : first = token
    · rw [hsame, update_self] at hitem
      have hold := hgramItem second item hitem
      rw [← hgram] at hold
      exact h.items token second item hold
    · rw [update_of_ne hsame] at hitem
      exact h.items first second item hitem
  · rw [hloads, load_store, update_apply]
    split_ifs with hsame
    · rw [hsame, hloaded]
      rfl
    · rfl

/-! ## A whole prune -/

theorem pruneRows_ok (drop : BitVec 32 → ArrayItem → Bool) :
    ∀ {keys : List (BitVec 32)} {magic : MagicHeader} {container : Container}, Core magic container.grams →
      (∀ token ∈ keys, (container.load token).isSome) →
      ∃ next after, keys.foldlM (Kmm.pruneRow drop) (magic, container) = .ok (next, after) ∧ Core next after.grams ∧
        ∀ other, (after.load other).isSome = (container.load other).isSome
  | [], magic, container, h, _ => ⟨magic, container, rfl, h, fun _ => rfl⟩
  | token :: rest, magic, container, h, hkeys => by
    obtain ⟨next, after, hrow, hcore, _, hloads⟩ := h.pruneRow drop (hkeys token mem_cons_self)
    obtain ⟨last, end_, hrun, hlast, hends⟩ := @pruneRows_ok drop rest next after hcore fun other hin => by
      rw [hloads]
      exact hkeys other (mem_cons_of_mem token hin)
    refine ⟨last, end_, ?_, hlast, fun other => (hends other).trans (hloads other)⟩
    rw [foldlM_cons, hrow]
    exact hrun

/-- A gram with nothing left is one of zeros. -/
theorem Core.eq_newGram {grams : BitVec 32 → KmmGram} (h : Core magic grams)
    (hwc : (grams token).header.wc = 0) (hfreq : (grams token).header.freq = 0) : grams token = newGram := by
  have hzero : rowSum (counts grams) token = 0 := by
    rw [← h.wc, hwc]
    rfl
  have hnone : (grams token).getArrayItem = fun _ => none := by
    funext other
    cases hitem : (grams token).getArrayItem other with
    | none => rfl
    | some item =>
      have hpos := (h.items token other item hitem).1.counted
      have hle := le_rowSum (counts grams) token other
      have hcount : counts grams token other = item.wc.toNat := by rw [counts, hitem]; rfl
      omega
  have hlists := (h.ascending token).lists
  rw [hnone] at hlists
  have hitems := hlists.unique lists_nil
  generalize grams token = gram at hwc hfreq hitems
  obtain ⟨⟨wc, freq⟩, items⟩ := gram
  dsimp only at hwc hfreq hitems
  rw [hwc, hfreq, hitems]
  rfl

/-- The grams with nothing left are removed, and no other one. -/
theorem removeEmpties_ok {magic : MagicHeader} :
    ∀ {keys : List (BitVec 32)} {container : Container}, Core magic container.grams → keys.Nodup →
      (∀ token ∈ keys, (container.load token).isSome) →
      ∃ after, keys.foldlM removeEmpty container = .ok after ∧ after.grams = container.grams ∧
        after.getMagicHeader = container.getMagicHeader ∧
        (∀ token gram, after.load token = some gram → container.load token = some gram) ∧
        ∀ token ∈ keys, ∀ gram, after.load token = some gram → ¬(gram.header.wc = 0 ∧ gram.header.freq = 0)
  | [], container, _, _, _ =>
    ⟨container, rfl, rfl, rfl, fun _ _ hload => hload, fun _ hin => absurd hin not_mem_nil⟩
  | token :: rest, container, h, hnodup, hkeys => by
    obtain ⟨hnew, hrest⟩ := nodup_cons.mp hnodup
    obtain ⟨gram, hgram⟩ := isSome_iff_exists.mp (hkeys token mem_cons_self)
    have hgrams := container.grams_of_load token hgram
    have hheader := container.getArrayHeader_eq token hgram
    rw [hgrams] at hheader
    by_cases hzero : gram.header.wc = 0 ∧ gram.header.freq = 0
    · set left : Container := { container with rows := container.rows.erase token } with hleft
      have hload : left.load = update container.load token none := container.load_erase token
      have hsame : left.grams = container.grams := by
        funext other
        rw [grams, hload, update_apply]
        split_ifs with heq
        · rw [heq, h.eq_newGram (by rw [hgrams]; exact hzero.1) (by rw [hgrams]; exact hzero.2)]
          rfl
        · rfl
      have hrow : removeEmpty container token = .ok left := by
        simp only [removeEmpty, hheader, if_pos hzero, remove, hgram, map_some]
        rfl
      obtain ⟨after, hrun, hafter, hmagic, hloads, hkept⟩ := @removeEmpties_ok magic rest left (hsame ▸ h) hrest
        fun other hin => by
          have hne : other ≠ token := fun heq => hnew (heq ▸ hin)
          rw [hload, update_of_ne hne]
          exact hkeys other (mem_cons_of_mem token hin)
      have hstay : ∀ other found, left.load other = some found → other ≠ token ∧
        container.load other = some found := by
        intro other found hfound
        rw [hload, update_apply] at hfound
        split_ifs at hfound with heq
        exact ⟨heq, hfound⟩
      refine ⟨after, ?_, hafter.trans hsame, hmagic, fun other found hfound =>
        (hstay other found (hloads _ _ hfound)).2,
        fun other hin found hfound => ?_⟩
      · rw [foldlM_cons, hrow]
        exact hrun
      · rcases mem_cons.mp hin with heq | hmem
        · exact absurd heq (hstay other found (hloads _ _ hfound)).1
        · exact hkept other hmem found hfound
    · have hrow : removeEmpty container token = .ok container := by
        simp only [removeEmpty, hheader, if_neg hzero]
      obtain ⟨after, hrun, hafter, hmagic, hloads, hkept⟩ := @removeEmpties_ok magic rest container h hrest
        fun other hin => hkeys other (mem_cons_of_mem token hin)
      refine ⟨after, ?_, hafter, hmagic, hloads, fun other hin found hfound => ?_⟩
      · rw [foldlM_cons, hrow]
        exact hrun
      · rcases mem_cons.mp hin with heq | hmem
        · have hload := hloads other found hfound
          rw [heq, hgram] at hload
          rw [← some.inj hload]
          exact hzero
        · exact hkept other hmem found hfound

/-- A prune leaves a balanced container balanced, and exits where there is no magic header. -/
theorem Balanced.prune (h : Balanced container) (drop : BitVec 32 → ArrayItem → Bool)
    (order : Walk) :
    if container.getMagicHeader = none then Kmm.prune drop order container = .error (.exit enodata)
    else ∃ after, Kmm.prune drop order container = .ok after ∧ Balanced after := by
  split_ifs with hbare
  · simp only [Kmm.prune, hbare]
  · obtain ⟨magic, hmagic⟩ := ne_none_iff_exists'.mp hbare
    have hcore := h.core
    rw [hmagic, getD_some] at hcore
    have hkeys : ∀ token ∈ container.getAllItems order, (container.load token).isSome := fun token hin =>
      (container.mem_getAllItems token order).mp hin
    obtain ⟨next, pruned, hrun, hpruned, hloads⟩ := pruneRows_ok drop hcore hkeys
    obtain ⟨after, hremove, hgrams, hafter, hstay, hkept⟩ := @removeEmpties_ok next (container.getAllItems order)
      (pruned.setMagicHeader next) hpruned (container.nodup_getAllItems order) fun token hin => by
        have hsome := hloads token
        rw [hkeys token hin] at hsome
        exact hsome
    have hlast : after.getMagicHeader = some next := hafter
    refine ⟨after, ?_, ⟨?_, fun token gram hgram => ?_, fun hnone => ?_⟩⟩
    · simp only [Kmm.prune, hmagic, bind, Except.bind, hrun]
      exact hremove
    · rw [hlast, getD_some, hgrams]
      exact hpruned
    · have hload : pruned.load token = some gram := hstay token gram hgram
      have hsome := hloads token
      rw [hload] at hsome
      exact hkept token ((container.mem_getAllItems token order).mpr hsome.symm) gram hgram
    · rw [hlast] at hnone
      exact absurd hnone (some_ne_none next)

end Oxpinyin.Kmm
