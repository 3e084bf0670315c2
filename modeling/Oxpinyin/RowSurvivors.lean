import Oxpinyin.ScanComplete
import Oxpinyin.PhraseTexts
import Oxpinyin.Lib.StableSort

/-!
# Which rows survive

Two passes drop candidates. `orderWindowTail` puts the rows of one window by library and keeps the
first row of each token; it leaves a window alone whose tokens rise, where there is nothing to move
or drop (`orderWindowTail_spec`). `dedupRankedByText` keeps one row of each text of the ranked list, the
first of greatest frequency (`dedupRankedByText_spec`) : its map holds the survivor of each text so far.
-/

set_option linter.unusedSectionVars false

namespace Oxpinyin

open Option List Picks StableSort PhraseText

/-! ## Windows -/

section Window

variable {rows : List Candidate}

/-- Rising tokens, all above the one before them. -/
theorem rising_of_strictlyIncreasing {previous : Option PhraseToken}
    (h : windowTokensAreStrictlyIncreasing previous rows = true) :
    (∀ row ∈ rows, ∃ token, row.token = some token ∧ ∀ p, previous = some p → p < token) ∧
      rows.Pairwise fun a b => ∃ s t, a.token = some s ∧ b.token = some t ∧ s < t := by
  induction rows generalizing previous with
  | nil => exact ⟨by simp, .nil⟩
  | cons row rows ih =>
    rw [windowTokensAreStrictlyIncreasing] at h
    cases htoken : row.token with
    | none =>
      rw [htoken] at h
      cases h
    | some token =>
      rw [htoken] at h
      dsimp only at h
      split_ifs at h with hstop
      have habove : ∀ p, previous = some p → p < token := by
        rintro p rfl
        rw [any_some, decide_eq_true_eq] at hstop
        exact BitVec.not_le.mp hstop
      obtain ⟨hrows, hrest⟩ := ih h
      refine ⟨fun other hother => ?_, pairwise_cons.mpr ⟨fun other hother => ?_, hrest⟩⟩
      · rcases mem_cons.mp hother with rfl | hother
        · exact ⟨token, htoken, habove⟩
        · obtain ⟨t, ht, hlt⟩ := hrows other hother
          exact ⟨t, ht, fun p hp => BitVec.lt_trans (habove p hp) (hlt token rfl)⟩
      · obtain ⟨t, ht, hlt⟩ := hrows other hother
        exact ⟨token, t, htoken, ht, hlt token rfl⟩

theorem windowLibrary_le {a b : Candidate} {s t : PhraseToken} (ha : a.token = some s)
    (hb : b.token = some t) (h : s < t) : windowLibrary a ≤ windowLibrary b := by
  unfold windowLibrary
  rw [ha, hb]
  simp only [BitVec.toNat_ushiftRight]
  rw [Nat.shiftRight_eq_div_pow, Nat.shiftRight_eq_div_pow]
  exact Nat.div_le_div_right (Nat.le_of_lt h)

/-- The stable sort of the rows by library. -/
def byLibrary (rows : List Candidate) : List Candidate :=
  rows.mergeSort fun a b => windowLibrary a ≤ windowLibrary b

theorem byLibrary_spec (rows : List Candidate) :
    (byLibrary rows).Perm rows ∧
      (byLibrary rows).Pairwise (fun a b => windowLibrary a ≤ windowLibrary b) ∧
      ∀ library, (byLibrary rows).filter (fun row => windowLibrary row = library) =
        rows.filter fun row => windowLibrary row = library := by
  have hsort : byLibrary rows =
      sortBy (fun a b => compare (windowLibrary a) (windowLibrary b)) rows := by
    unfold byLibrary sortBy
    congr 1
    funext a b
    rw [Bool.eq_iff_iff, decide_eq_true_eq, Nat.isLE_compare]
  have laws : StableSort.OrderLaws (fun a b => compare (windowLibrary a) (windowLibrary b)) rows :=
    ⟨fun _ _ _ _ => Std.OrientedCmp.eq_swap, fun _ _ _ _ _ _ => Std.TransCmp.isLE_trans⟩
  rw [hsort]
  refine ⟨sortBy_perm _ _, (pairwise_sortBy laws).imp fun h => ?_, fun library => ?_⟩
  · exact Nat.isLE_compare.mp h
  · refine filter_sortBy laws fun x _ y _ hx hy => ?_
    rw [decide_eq_true_eq] at hx hy
    exact Nat.isLE_compare.mpr (by omega)

/-- The rows before `start` stay. Those from it on become the first row of each token of their stable
sort by library, whichever path is taken. -/
theorem orderWindowTail_spec (into : List Candidate) (start : Nat) :
    ∃ sorted : List Candidate, sorted.Perm (into.drop start) ∧
      sorted.Pairwise (fun a b => windowLibrary a ≤ windowLibrary b) ∧
      (∀ library, sorted.filter (fun row => windowLibrary row = library) =
        (into.drop start).filter fun row => windowLibrary row = library) ∧
      orderWindowTail into start = into.take start ++ pick (FirstAt Candidate.token sorted) sorted := by
  obtain ⟨hperm, hsorted, hstable⟩ := byLibrary_spec (into.drop start)
  refine ⟨byLibrary (into.drop start), hperm, hsorted, hstable, ?_⟩
  unfold orderWindowTail
  split_ifs with hfast
  · -- rising tokens : the sort has nothing to move, and no token comes twice
    obtain ⟨_, hrising⟩ := rising_of_strictlyIncreasing hfast
    have hsame : byLibrary (into.drop start) = into.drop start :=
      mergeSort_of_pairwise (hrising.imp fun ⟨s, t, hs, ht, hlt⟩ =>
        decide_eq_true (windowLibrary_le hs ht hlt))
    rw [hsame, pick_firstAt_eq_self, take_append_drop]
    refine hrising.imp fun ⟨s, t, hs, ht, hlt⟩ k hk hk' => ?_
    obtain rfl := Option.some.inj (hs.symm.trans hk')
    obtain rfl := Option.some.inj (ht.symm.trans hk)
    exact absurd hlt (BitVec.lt_irrefl _)
  · rw [sortDedupWindowTail, firstOfToken_eq, pick_firstAt]
    rfl

end Window

/-! ## Texts -/

/-- The sort fields of a candidate, and its frequency as it is. -/
structure RankKey where
  phraseLength : Nat
  pinyinSpan : BitVec 8
  frequency : BitVec 32
  mFreq : BitVec 32

/-- The rows kept so far, and the survivor of each text. A new survivor stands in front of the old. -/
structure TextScan where
  keep : List Bool
  survivor : List (PhraseText × Nat)

/-- The survivor of a text. -/
def TextScan.held (scan : TextScan) (text : PhraseText) : Option Nat :=
  (scan.survivor.find? fun entry => entry.1.eq text).map Prod.snd

/-- Visits one row : of two of a text the later survives only with a larger frequency. -/
def visitText (keys : List (RankKey × Nat)) (scan : TextScan) (index : Nat) (key : RankKey)
    (candidate : Candidate) : TextScan :=
  match scan.held candidate.text with
  | none => { scan with survivor := (candidate.text, index) :: scan.survivor }
  | some held =>
    if ((keys[held]?).map (·.1.mFreq)).getD 0 < key.mFreq then
      ⟨scan.keep.set held false, (candidate.text, index) :: scan.survivor⟩
    else { scan with keep := scan.keep.set index false }

/-- Keeps one row of each text. `keys` are those of the rows. -/
def dedupRankedByText (ranked : List Candidate) (keys : List (RankKey × Nat)) : List Candidate :=
  let scan := (keys.zip ranked).zipIdx.foldl
    (fun scan row => visitText keys scan row.2 row.1.1.1 row.1.2) ⟨List.replicate ranked.length true, []⟩
  ((ranked.zip scan.keep).filter Prod.snd).map Prod.fst

namespace TextScan

/-- A row and its key. -/
abbrev Row := (RankKey × Nat) × Candidate

/-- The outward text of a row. -/
def rowText (row : Row) : List Nat := row.2.text.outwardWords

/-- The frequency of a row. -/
def rowFreq (row : Row) : Nat := row.1.1.mFreq.toNat

/-- What the scan holds of the rows it has visited, of `count` rows in all. -/
structure Scanned (count : Nat) (front : List Row) (scan : TextScan) : Prop where
  length : scan.keep.length = count
  keep : ∀ i < count, scan.keep[i]? = some true ↔ FirstBestAt rowText rowFreq front i
  held : ∀ text i, scan.held text = some i → ∃ row, front[i]? = some row ∧
    rowText row = text.outwardWords ∧ FirstBestAt rowText rowFreq front i
  fresh : ∀ text, scan.held text = none → ∀ row ∈ front, rowText row ≠ text.outwardWords

variable {count : Nat} {front rest : List Row} {row : Row} {scan : TextScan}

theorem scanned_start (count : Nat) : Scanned count [] ⟨List.replicate count true, []⟩ where
  length := length_replicate
  keep i hi := by
    rw [getElem?_replicate, if_pos hi]
    simp [firstBestAt_of_le]
  held _ _ h := by cases h
  fresh _ _ _ h := by cases h

/-- A row in front of the map is the survivor of its text. -/
theorem held_cons (survivor : List (PhraseText × Nat)) (keep : List Bool) (text text' : PhraseText) (i : Nat) :
    TextScan.held ⟨keep, (text, i) :: survivor⟩ text' =
      if text.outwardWords = text'.outwardWords then some i else TextScan.held ⟨keep, survivor⟩ text' := by
  unfold TextScan.held
  rw [find?_cons]
  by_cases hsame : text.outwardWords = text'.outwardWords
  · rw [if_pos hsame]
    simp only [(eq_iff text text').mpr hsame]
    rfl
  · have hne : text.eq text' = false := by
      rw [← Bool.not_eq_true, eq_iff]
      exact hsame
    rw [if_neg hsame]
    simp only [hne]

theorem held_congr {text text' : PhraseText} (h : text.outwardWords = text'.outwardWords) :
    scan.held text = scan.held text' := by
  unfold TextScan.held
  congr 2
  funext entry
  rw [Bool.eq_iff_iff, eq_iff, eq_iff, h]

theorem getElem?_concat {i : Nat} {other : Row} (hi : front[i]? = some other) :
    (front ++ [row])[i]? = some other := by
  rw [getElem?_append_left (List.getElem?_eq_some_iff.mp hi).1, hi]

/-- A survivor of another text stays first and best. -/
theorem Scanned.other (h : Scanned count front scan) {text : PhraseText} {i : Nat}
    (htext : scan.held text = some i) (hne : rowText row ≠ text.outwardWords) :
    ∃ other, (front ++ [row])[i]? = some other ∧ rowText other = text.outwardWords ∧
      FirstBestAt rowText rowFreq (front ++ [row]) i := by
  obtain ⟨other, hother, hsame, hbest⟩ := h.held text i htext
  refine ⟨other, getElem?_concat hother, hsame, (firstBestAt_append hother).mpr ⟨hbest, fun hkey => ?_⟩⟩
  exact absurd (hkey.trans hsame) hne

/-- A row that outranks the rows of its text becomes the survivor. -/
theorem Scanned.survives (h : Scanned count front scan) {keep : List Bool} (hlength : keep.length = count)
    (hkeep : ∀ i < count, keep[i]? = some true ↔ FirstBestAt rowText rowFreq (front ++ [row]) i)
    (hbest : ∀ y ∈ front, rowText y = rowText row → rowFreq y < rowFreq row) :
    Scanned count (front ++ [row]) ⟨keep, (row.2.text, front.length) :: scan.survivor⟩ where
  length := hlength
  keep := hkeep
  held text i htext := by
    rw [held_cons] at htext
    split_ifs at htext with hsame
    · obtain rfl := some.inj htext
      exact ⟨row, getElem?_concat_length, hsame, firstBestAt_last.mpr hbest⟩
    · exact h.other htext hsame
  fresh text htext other hother := by
    rw [held_cons] at htext
    split_ifs at htext with hsame
    rcases mem_append.mp hother with hother | hother
    · exact h.fresh text htext other hother
    · rw [mem_singleton.mp hother]
      exact hsame

/-- A row of a new text. -/
theorem Scanned.visit_fresh (h : Scanned count front scan) (hheld : scan.held row.2.text = none) :
    Scanned count (front ++ [row]) ⟨scan.keep, (row.2.text, front.length) :: scan.survivor⟩ := by
  have hfresh := h.fresh _ hheld
  refine h.survives h.length (fun i hi => ?_) fun y hy hsame => absurd hsame (hfresh y hy)
  rw [h.keep i hi, firstBestAt_concat, iff_self_and]
  refine fun _ => ⟨fun y hy hsame => ?_, fun _ y hy hsame => ?_⟩
  · exact absurd hsame.symm (hfresh y (mem_of_getElem? hy))
  · exact absurd hsame (hfresh y hy)

section Held

variable {held : Nat} {best : Row} (h : Scanned count front scan) (hheld : front[held]? = some best)
  (hfirst : FirstBestAt rowText rowFreq front held) (hsame : rowText best = rowText row)

include hheld hfirst hsame

/-- The only row of the text that is kept so far is its survivor. -/
theorem eq_held {i : Nat} {y : Row} (hy : front[i]? = some y) (hbest : FirstBestAt rowText rowFreq front i)
    (hkey : rowText y = rowText row) : i = held ∧ y = best := by
  obtain rfl := hbest.unique hy hheld (hkey.trans hsame.symm) hfirst
  exact ⟨rfl, some.inj (hy.symm.trans hheld)⟩

theorem freq_le_held {y : Row} (hy : y ∈ front) (hkey : rowText y = rowText row) : rowFreq y ≤ rowFreq best := by
  obtain ⟨j, hj⟩ := getElem?_of_mem hy
  exact (hfirst best hheld j y hj (hkey.trans hsame.symm)).2

include h

/-- A larger frequency takes the place of the survivor. -/
theorem Scanned.visit_larger (hlarger : rowFreq best < rowFreq row) : Scanned count (front ++ [row])
    ⟨scan.keep.set held false, (row.2.text, front.length) :: scan.survivor⟩ := by
  have hbelow : ∀ y ∈ front, rowText y = rowText row → rowFreq y < rowFreq row := fun y hy hkey =>
    Nat.lt_of_le_of_lt (freq_le_held hheld hfirst hsame hy hkey) hlarger
  refine h.survives (by rw [length_set, h.length]) (fun i hi => ?_) hbelow
  rw [firstBestAt_concat]
  by_cases heq : i = held
  · subst heq
    rw [getElem?_set_self (by rw [h.length]; exact hi)]
    simp only [some.injEq, Bool.false_eq_true, false_iff]
    rintro ⟨_, hnot, _⟩
    have := hnot best hheld hsame.symm
    omega
  · rw [getElem?_set_ne (Ne.symm heq), h.keep i hi, iff_self_and]
    refine fun hi' => ⟨fun y hy hkey => ?_, fun _ => hbelow⟩
    exact absurd (eq_held hheld hfirst hsame hy hi' hkey.symm).1 heq

/-- A frequency that is not larger loses. -/
theorem Scanned.visit_smaller (hheld' : scan.held row.2.text = some held) (hsmaller : rowFreq row ≤ rowFreq best) :
    Scanned count (front ++ [row]) { scan with keep := scan.keep.set front.length false } where
  length := by rw [length_set, h.length]
  keep i hi := by
    rw [firstBestAt_concat]
    by_cases heq : i = front.length
    · subst heq
      rw [getElem?_set_self (by rw [h.length]; exact hi)]
      simp only [some.injEq, Bool.false_eq_true, false_iff]
      rintro ⟨_, _, hnot⟩
      have := hnot trivial best (mem_of_getElem? hheld) hsame
      omega
    · rw [getElem?_set_ne (Ne.symm heq), h.keep i hi, iff_self_and]
      refine fun hi' => ⟨fun y hy hkey => ?_, fun hlast => absurd hlast heq⟩
      rw [(eq_held hheld hfirst hsame hy hi' hkey.symm).2]
      exact hsmaller
  held text i htext := by
    by_cases hwords : rowText row = text.outwardWords
    · obtain ⟨other, hother, hother', hbest⟩ := h.held text i htext
      refine ⟨other, getElem?_concat hother, hother', (firstBestAt_append hother).mpr ⟨hbest, fun _ => ?_⟩⟩
      rw [(eq_held hheld hfirst hsame hother hbest (hother'.trans hwords.symm)).2]
      exact hsmaller
    · exact h.other htext hwords
  fresh text htext other hother := by
    rcases mem_append.mp hother with hother | hother
    · exact h.fresh text htext other hother
    · rw [mem_singleton.mp hother]
      intro hwords
      have hboth := @held_congr scan _ _ hwords
      rw [hheld'] at hboth
      cases hboth.trans htext

end Held

/-- One visit compares the row with the survivor of its text. -/
theorem Scanned.visit {keys : List (RankKey × Nat)} (h : Scanned count front scan)
    (hkeys : ∀ i < front.length, keys[i]? = (front[i]?).map Prod.fst) :
    Scanned count (front ++ [row]) (visitText keys scan front.length row.1.1 row.2) := by
  unfold visitText
  cases hheld : scan.held row.2.text with
  | none => exact h.visit_fresh hheld
  | some held =>
    obtain ⟨best, hbest, hsame, hfirst⟩ := h.held _ held hheld
    have hfreq : ((keys[held]?).map (·.1.mFreq)).getD 0 = best.1.1.mFreq := by
      rw [hkeys held (List.getElem?_eq_some_iff.mp hbest).1, hbest]
      rfl
    dsimp only
    rw [hfreq]
    split_ifs with hlarger
    · exact h.visit_larger hbest hfirst hsame hlarger
    · exact h.visit_smaller hbest hfirst hsame hheld (Nat.le_of_not_lt hlarger)

/-- All visits. -/
theorem scanned_foldl {keys : List (RankKey × Nat)} {rows : List Row} (hrows : rows.map Prod.fst = keys) :
    Scanned rows.length rows (rows.zipIdx.foldl (fun scan row => visitText keys scan row.2 row.1.1.1 row.1.2)
      ⟨List.replicate rows.length true, []⟩) := by
  have hrun : ∀ (rest front : List Row) (scan : TextScan), front ++ rest = rows →
      Scanned rows.length front scan → Scanned rows.length rows
        ((rest.zipIdx front.length).foldl
          (fun scan row => visitText keys scan row.2 row.1.1.1 row.1.2) scan) := by
    intro rest
    induction rest with
    | nil =>
      intro front scan hall h
      rw [append_nil] at hall
      rw [← hall]
      rw [← hall] at h
      exact h
    | cons row rest ih =>
      intro front scan hall h
      have hnext := ih (front ++ [row]) (visitText keys scan front.length row.1.1 row.2)
        (by rw [← hall, append_assoc]; rfl) (h.visit fun i hi => ?_)
      · rwa [length_append, length_singleton] at hnext
      · rw [← hrows, ← hall, getElem?_map, getElem?_append_left hi]
  exact hrun rows [] _ rfl (scanned_start _)

end TextScan

open TextScan in
/-- Each text keeps exactly one row, the first of those with its greatest frequency, and the rows
that are kept stand in their order. -/
theorem dedupRankedByText_spec (ranked : List Candidate) (keys : List (RankKey × Nat))
    (h : ranked.length = keys.length) :
    dedupRankedByText ranked keys =
        pick (FirstBestAt rowText rowFreq (keys.zip ranked)) ranked ∧
      ∀ row ∈ keys.zip ranked, ∃! i, (∃ best, (keys.zip ranked)[i]? = some best ∧
        rowText best = rowText row) ∧ FirstBestAt rowText rowFreq (keys.zip ranked) i := by
  have hlength : (keys.zip ranked).length = ranked.length := by
    rw [length_zip]
    omega
  have hscan := @scanned_foldl keys (keys.zip ranked) (map_fst_zip (by omega))
  rw [hlength] at hscan
  refine ⟨pick_eq_zip hscan.length hscan.keep, fun row hrow => ?_⟩
  cases hheld : TextScan.held _ row.2.text with
  | none => exact absurd rfl (hscan.fresh _ hheld row hrow)
  | some i =>
    obtain ⟨best, hbest, hsame, hfirst⟩ := hscan.held _ i hheld
    refine ⟨i, ⟨⟨best, hbest, hsame⟩, hfirst⟩, ?_⟩
    rintro j ⟨⟨other, hother, hsame'⟩, hfirst'⟩
    exact hfirst'.unique hother hbest (hsame'.trans hsame.symm) hfirst

/-- A row of a text. -/
def phraseRow (text : List Char) (token : PhraseToken) : Candidate :=
  .new (.scalar text) .phrase 1 2 0 (some token) none

/-- The key of a frequency. -/
def freqKey (freq : BitVec 32) (index : Nat) : RankKey × Nat := (⟨1, 2, freq, freq⟩, index)

open TextScan in
/-- The second and the third row of one text tie. -/
theorem dedupRankedByText_tie :
    (pick (FirstBestAt rowText rowFreq ([freqKey 3 0, freqKey 5 1, freqKey 5 2, freqKey 1 3].zip
          [phraseRow ['他'] 1, phraseRow ['他'] 2, phraseRow ['他'] 3, phraseRow ['她'] 4]))
      [phraseRow ['他'] 1, phraseRow ['他'] 2, phraseRow ['他'] 3, phraseRow ['她'] 4]).map Candidate.token =
      [some 2, some 4] := by
  rw [← (dedupRankedByText_spec
    [phraseRow ['他'] 1, phraseRow ['他'] 2, phraseRow ['他'] 3, phraseRow ['她'] 4]
    [freqKey 3 0, freqKey 5 1, freqKey 5 2, freqKey 1 3] rfl).1]
  decide

end Oxpinyin
