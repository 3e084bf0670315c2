import Oxpinyin.BigramModel

/-!
# The reduction of a ratio

`reduce_ratio` shifts both halves at once, by what the longer one has above 63 bits. That is the pair
the halving loop ends with, and both halves are then below 2^63, so no conversion to a word fails
(`reduceRatio_looped`). The ratios the model prices are reduced so (`interpolateRatio_looped`).
-/

namespace Oxpinyin

namespace Cost

/-- `u64::try_from`, and `u64::MAX` where it fails. -/
def u64OrMax (value : BitVec 128) : BitVec 64 :=
  if value.toNat < 2 ^ 64 then value.setWidth 64 else BitVec.allOnes 64

/-- The bits the longer half has above 63, by its leading zeros. -/
def excess (numerator denominator : BitVec 128) : Nat := 128 - (numerator ||| denominator).clz.toNat - 63

def reduceRatio (numerator denominator : BitVec 128) : BitVec 64 × BitVec 64 :=
  let excess := excess numerator denominator
  (u64OrMax (numerator >>> excess), u64OrMax (denominator >>> excess))

/-- Both halved until each is below the limit. -/
def looped (n d : BitVec 128) : BitVec 64 × BitVec 64 :=
  if 2 ^ 63 ≤ n.toNat ∨ 2 ^ 63 ≤ d.toNat then looped (n >>> 1) (d >>> 1) else (n.setWidth 64, d.setWidth 64)
termination_by n.toNat + d.toNat
decreasing_by
  rw [BitVec.toNat_ushiftRight, BitVec.toNat_ushiftRight, Nat.shiftRight_eq_div_pow, Nat.shiftRight_eq_div_pow]
  omega

variable {n d : BitVec 128}

/-- One half is at the limit where the two together are. -/
theorem limit_le_iff : 2 ^ 63 ≤ (n ||| d).toNat ↔ 2 ^ 63 ≤ n.toNat ∨ 2 ^ 63 ≤ d.toNat := by
  rw [BitVec.toNat_or]
  refine ⟨fun h => ?_, fun h => h.elim (·.trans Nat.left_le_or) (·.trans Nat.right_le_or)⟩
  by_contra hboth
  rw [not_or, Nat.not_le, Nat.not_le] at hboth
  exact Nat.not_lt.mpr h (Nat.or_lt_two_pow hboth.1 hboth.2)

/-- The loop makes as many turns as the longer half has bits above 63, by induction on them. -/
theorem looped_eq : ∀ {turns : Nat} {n d : BitVec 128}, (n ||| d).toNat < 2 ^ (63 + turns) →
    (turns ≠ 0 → 2 ^ (62 + turns) ≤ (n ||| d).toNat) →
    looped n d = ((n >>> turns).setWidth 64, (d >>> turns).setWidth 64)
  | 0, n, d, hlt, _ => by
    rw [looped, if_neg fun h => Nat.not_lt.mpr (limit_le_iff.mpr h) hlt, BitVec.ushiftRight_zero,
      BitVec.ushiftRight_zero]
  | turns + 1, n, d, hlt, hle => by
    have hlimit : 2 ^ 63 ≤ (n ||| d).toNat :=
      (Nat.pow_le_pow_right (by decide) (by omega)).trans (hle (Nat.succ_ne_zero turns))
    have hhalf : (n >>> 1 ||| d >>> 1).toNat = (n ||| d).toNat / 2 := by
      rw [← BitVec.ushiftRight_or_distrib, BitVec.toNat_ushiftRight, Nat.shiftRight_eq_div_pow, Nat.pow_one]
    rw [looped, if_pos (limit_le_iff.mp hlimit), @looped_eq turns, ← BitVec.shiftRight_add,
      ← BitVec.shiftRight_add, Nat.add_comm 1]
    · rw [hhalf]
      exact Nat.div_lt_of_lt_mul (by rwa [← Nat.pow_succ'])
    · intro _
      rw [hhalf, Nat.le_div_iff_mul_le (by decide), ← Nat.pow_succ]
      exact hle (Nat.succ_ne_zero turns)

/-- The leading zeros are what the bits leave of the width. -/
theorem size_toNat (x : BitVec 128) : x.toNat.size = 128 - x.clz.toNat := by
  refine Nat.le_antisymm (Nat.size_le.mpr BitVec.toNat_lt_two_pow_sub_clz) ?_
  by_cases hx : x = 0
  · have hclz : x.clz = 128 := BitVec.clz_eq_iff_eq_zero.mpr hx
    rw [hclz]
    exact Nat.zero_le _
  · have hlt := Nat.lt_size.mpr (BitVec.two_pow_sub_clz_le_toNat_of_ne_zero (by decide) hx)
    omega

theorem excess_eq (n d : BitVec 128) : excess n d = (n ||| d).toNat.size - 63 := by
  rw [excess, size_toNat]

theorem lt_excess (n d : BitVec 128) : (n ||| d).toNat < 2 ^ (63 + excess n d) := by
  rw [← Nat.size_le, excess_eq]
  omega

/-- Behind the shift a half is below the limit. -/
theorem shifted_lt {x y : BitVec 128} (h : x.toNat ≤ y.toNat) {turns : Nat} (hy : y.toNat < 2 ^ (63 + turns)) :
    (x >>> turns).toNat < 2 ^ 63 := by
  rw [BitVec.toNat_ushiftRight, Nat.shiftRight_eq_div_pow]
  exact Nat.div_lt_of_lt_mul (by rw [← Nat.pow_add, Nat.add_comm]; exact h.trans_lt hy)

theorem u64OrMax_eq {value : BitVec 128} (h : value.toNat < 2 ^ 63) :
    u64OrMax value = value.setWidth 64 ∧ (u64OrMax value).toNat = value.toNat := by
  rw [u64OrMax, if_pos (by omega)]
  exact ⟨rfl, by rw [BitVec.toNat_setWidth, Nat.mod_eq_of_lt (by omega)]⟩

theorem halves_lt (n d : BitVec 128) : (n >>> excess n d).toNat < 2 ^ 63 ∧ (d >>> excess n d).toNat < 2 ^ 63 :=
  ⟨shifted_lt (by rw [BitVec.toNat_or]; exact Nat.left_le_or) (lt_excess n d),
    shifted_lt (by rw [BitVec.toNat_or]; exact Nat.right_le_or) (lt_excess n d)⟩

theorem reduceRatio_eq_looped (n d : BitVec 128) : reduceRatio n d = looped n d := by
  obtain ⟨hn, hd⟩ := halves_lt n d
  rw [reduceRatio, (u64OrMax_eq hn).1, (u64OrMax_eq hd).1, looped_eq (lt_excess n d) fun hne => ?_]
  rw [excess_eq] at hne ⊢
  exact Nat.lt_size.mp (by omega)

theorem toNat_reduceRatio (n d : BitVec 128) : (reduceRatio n d).1.toNat = n.toNat >>> excess n d ∧
    (reduceRatio n d).2.toNat = d.toNat >>> excess n d := by
  obtain ⟨hn, hd⟩ := halves_lt n d
  exact ⟨(u64OrMax_eq hn).2.trans (BitVec.toNat_ushiftRight ..),
    (u64OrMax_eq hd).2.trans (BitVec.toNat_ushiftRight ..)⟩

/-- The one shift gives the pair that halving ends with. Both halves are below `2 ^ 63`, and they are the
shifted values themselves : no conversion fails. -/
theorem reduceRatio_looped (numerator denominator : BitVec 128) :
    reduceRatio numerator denominator = looped numerator denominator ∧
      (reduceRatio numerator denominator).1.toNat < 2 ^ 63 ∧ (reduceRatio numerator denominator).2.toNat < 2 ^ 63 ∧
      (reduceRatio numerator denominator).1.toNat = numerator.toNat >>> excess numerator denominator ∧
      (reduceRatio numerator denominator).2.toNat = denominator.toNat >>> excess numerator denominator := by
  obtain ⟨hn, hd⟩ := halves_lt numerator denominator
  refine ⟨reduceRatio_eq_looped .., ?_, ?_, toNat_reduceRatio ..⟩
  · exact (u64OrMax_eq hn).2.trans_lt hn
  · exact (u64OrMax_eq hd).2.trans_lt hd

/-- The reduction the model makes is this one. -/
theorem reduceRatio_toNat (n d : BitVec 128) : Oxpinyin.reduceRatio n.toNat d.toNat = reduceRatio n d := by
  obtain ⟨hn, hd⟩ := toNat_reduceRatio n d
  rw [Oxpinyin.reduceRatio, ← BitVec.toNat_or, ← excess_eq, ← hn, ← hd, BitVec.ofNat_toNat, BitVec.ofNat_toNat,
    BitVec.setWidth_eq, BitVec.setWidth_eq]

end Cost

/-- The fraction a step is priced by is reduced as by halving, below `2 ^ 63`. -/
theorem interpolateRatio_looped {num den b bt u ut n d : Nat} (h : interpolateRatio num den b bt u ut = some (n, d)) :
    reduceRatio n d = Cost.looped (BitVec.ofNat 128 n) (BitVec.ofNat 128 d) := by
  obtain ⟨⟨_, hn⟩, _, hd⟩ := interpolateRatio_eq_some h
  have hreduce := Cost.reduceRatio_toNat (BitVec.ofNat 128 n) (BitVec.ofNat 128 d)
  rw [BitVec.toNat_ofNat, BitVec.toNat_ofNat, Nat.mod_eq_of_lt hn, Nat.mod_eq_of_lt hd] at hreduce
  rw [hreduce, Cost.reduceRatio_eq_looped]

end Oxpinyin
