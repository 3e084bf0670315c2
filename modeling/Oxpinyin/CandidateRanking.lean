import Oxpinyin.FrequencyRank
import Oxpinyin.Lib.Permute
import Oxpinyin.RowSurvivors

/-!
# Ranking the candidates in place

A list of candidates is ranked through a list of compact keys, each with the index of its candidate. The
keys are sorted, then the candidates follow by swaps (`rankCandidates`), each displaced candidate being
found through the indices of the keys. Afterwards position `i` has the candidate of the `i`th sorted
key, and the keys stand in the order of the candidates, as the deduplication by text expects them.
-/

namespace Oxpinyin

open List Permute

/-- The fields that the ranking compares. -/
def RankKey.fields (row : RankKey × BitVec 32) : Nat × Nat × BitVec 32 :=
  (row.1.phraseLength, row.1.pinyinSpan.toNat, row.1.frequency)

/-- The candidate of a key. -/
def RankKey.index (row : RankKey × BitVec 32) : Nat := row.2.toNat

/-- Records the place that a key's candidate came from. -/
def RankKey.setIndex (row : RankKey × BitVec 32) (index : Nat) : RankKey × BitVec 32 :=
  (row.1, BitVec.ofNat 32 index)

/-- Sorts the keys and puts the candidates in their order. Each search along the indices takes at most
`fuel` steps. -/
def rankCandidates (fuel : Nat) (candidates : List Candidate) (keys : List (RankKey × BitVec 32)) :
    Option (List Candidate × List (RankKey × BitVec 32)) :=
  applyTags RankKey.index RankKey.setIndex fuel candidates (rankByFrequency RankKey.fields keys)

/-- The keys name the candidates in order. -/
def KeysOf (candidates : List Candidate) (keys : List (RankKey × BitVec 32)) : Prop :=
  candidates.length = keys.length ∧
    ∀ (i : Nat) (row : RankKey × BitVec 32), keys[i]? = some row → row.2.toNat = i

section

variable {candidates : List Candidate} {keys : List (RankKey × BitVec 32)}

variable (h : KeysOf candidates keys)
include h

theorem KeysOf.map_index : keys.map RankKey.index = range keys.length := by
  refine ext_getElem (by simp) fun i hi _ => ?_
  rw [getElem_map, getElem_range]
  exact h.2 i _ (getElem?_eq_getElem (by simpa using hi))

theorem KeysOf.length_le : keys.length ≤ 2 ^ 32 := by
  rcases Nat.eq_zero_or_pos keys.length with hzero | hpos
  · omega
  · have hlast := h.2 (keys.length - 1) _ (getElem?_eq_getElem (by omega))
    have hlt : keys.length - 1 < keys.length := by omega
    omega

/-- A key is found where its index says. -/
theorem KeysOf.find {row : RankKey × BitVec 32} (hrow : row ∈ keys) : keys[row.2.toNat]? = some row := by
  obtain ⟨i, hi⟩ := getElem?_of_mem hrow
  rw [h.2 i row hi, hi]

/-- Every candidate ends where its key is sorted to, none is lost or doubled, and the keys follow. -/
theorem rankCandidates_sorted {fuel : Nat} (hfuel : keys.length ≤ fuel) :
    ∃ (ranked : List Candidate) (rows : List (RankKey × BitVec 32)),
      rankCandidates fuel candidates keys = some (ranked, rows) ∧
      ranked.Perm candidates ∧
      rows.map Prod.fst = (rankByFrequency RankKey.fields keys).map Prod.fst ∧
      ∀ (i : Nat) (row : RankKey × BitVec 32), (rankByFrequency RankKey.fields keys)[i]? = some row →
        ∃ (place : Nat) (candidate : Candidate), keys[place]? = some row ∧ candidates[place]? = some candidate ∧
          ranked[i]? = some candidate := by
  have hperm := rankByFrequency_perm RankKey.fields keys
  have hlength := hperm.length_eq
  have hindex : ((rankByFrequency RankKey.fields keys).map RankKey.index).Perm (List.range keys.length) :=
    h.map_index ▸ hperm.map RankKey.index
  obtain ⟨ranked, rows, hrun, hranked, hlabels, hitems⟩ :=
    @applyTags_spec _ _ _ RankKey.index RankKey.setIndex Prod.fst candidates
      (rankByFrequency RankKey.fields keys) (fun _ _ => rfl)
      (fun row p hp => by
        have := h.length_le
        exact Nat.mod_eq_of_lt (by omega))
      (by rw [hlength, h.1])
      (fun row hrow => by
        have := List.mem_range.mp (hindex.mem_iff.mp (List.mem_map_of_mem hrow))
        omega)
      (hindex.nodup_iff.mpr List.nodup_range) fuel (by omega)
  refine ⟨ranked, rows, hrun, hranked, hlabels, fun i row hrow => ?_⟩
  have hfind := h.find (hperm.mem_iff.mp (List.mem_of_getElem? hrow))
  have hplace : row.2.toNat < candidates.length := by
    rw [h.1]
    exact (List.getElem?_eq_some_iff.mp hfind).1
  refine ⟨row.2.toNat, candidates[row.2.toNat], hfind, List.getElem?_eq_getElem hplace, ?_⟩
  rw [hitems i row hrow, ← List.getElem?_eq_getElem hplace]
  rfl

end

/-- Four keys whose order makes a cycle of three candidates and leaves one in place. -/
def cycleKeys : List (RankKey × BitVec 32) :=
  [(⟨2, 1, 7, 7⟩, 0), (⟨1, 1, 5, 5⟩, 1), (⟨3, 1, 9, 9⟩, 2), (⟨1, 1, 11, 11⟩, 3)]

/-- Ranking them loses no candidate. -/
theorem rankCandidates_sorted_cycle :
    ∃ (ranked : List Candidate) (rows : List (RankKey × BitVec 32)), rankCandidates 4 [phraseRow ['你'] 1,
        phraseRow ['他'] 2, phraseRow ['她'] 3, phraseRow ['我'] 4] cycleKeys = some (ranked, rows) ∧
      (ranked.map Candidate.token).Perm [some 1, some 2, some 3, some 4] ∧
      rows.map Prod.fst = (rankByFrequency RankKey.fields cycleKeys).map Prod.fst := by
  have hkeys : KeysOf [phraseRow ['你'] 1, phraseRow ['他'] 2, phraseRow ['她'] 3, phraseRow ['我'] 4]
      cycleKeys := by
    refine ⟨rfl, fun i row hrow => ?_⟩
    match i with
    | 0 | 1 | 2 | 3 =>
      obtain rfl := Option.some.inj hrow
      rfl
    | i + 4 => cases hrow
  obtain ⟨ranked, rows, hrun, hperm, hrows, _⟩ := rankCandidates_sorted hkeys (show cycleKeys.length ≤ 4 by decide)
  exact ⟨ranked, rows, hrun, hperm.map Candidate.token, hrows⟩

end Oxpinyin
