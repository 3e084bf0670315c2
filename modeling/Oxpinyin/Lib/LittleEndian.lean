import Mathlib.Algebra.Group.Nat.Defs
import Mathlib.Data.List.Basic
import Mathlib.Tactic.Common

/-!
# Little-endian words and byte strings

Fixed-width words as bytes, lowest first, the ranges of a byte string that a checked read,
an overwrite, a splice and a drain address, and the cut of a string into chunks of one width.
The lemmas are over strings written as a concatenation, so that a proof about a layout names
its parts and never an offset.
-/

namespace Oxpinyin.LittleEndian

open List

/-! ## Words -/

variable {bytes : List UInt8}

/-- The `w` bytes of a number, lowest first. -/
def toBytes : Nat → Nat → List UInt8
  | 0, _ => []
  | w + 1, n => UInt8.ofNat n :: toBytes w (n / 256)

/-- The number of a byte string, lowest byte first. -/
def ofBytes : List UInt8 → Nat
  | [] => 0
  | b :: bs => b.toNat + 256 * ofBytes bs

@[simp] theorem length_toBytes (w n : Nat) : (toBytes w n).length = w := by
  induction w generalizing n with
  | zero => rfl
  | succ w ih => rw [toBytes, length_cons, ih]

theorem ofBytes_lt (bytes : List UInt8) : ofBytes bytes < 256 ^ bytes.length := by
  induction bytes with
  | nil => exact Nat.one_pos
  | cons b bs ih =>
    have hb : b.toNat < 256 := b.toNat_lt
    rw [ofBytes, length_cons, Nat.pow_succ]
    omega

theorem ofBytes_toBytes {w n : Nat} (h : n < 256 ^ w) : ofBytes (toBytes w n) = n := by
  induction w generalizing n with
  | zero => simp [toBytes, ofBytes, Nat.lt_one_iff.mp h]
  | succ w ih =>
    rw [Nat.pow_succ] at h
    rw [toBytes, ofBytes, ih (Nat.div_lt_of_lt_mul (by omega)), UInt8.toNat_ofNat']
    omega

theorem toBytes_ofBytes (bytes : List UInt8) : toBytes bytes.length (ofBytes bytes) = bytes := by
  induction bytes with
  | nil => rfl
  | cons b bs ih =>
    have hb : b.toNat < 256 := b.toNat_lt
    have hdiv : (b.toNat + 256 * ofBytes bs) / 256 = ofBytes bs := by omega
    have hlow : UInt8.ofNat (b.toNat + 256 * ofBytes bs) = b := by
      rw [← UInt8.toNat_inj, UInt8.toNat_ofNat']
      omega
    rw [length_cons, ofBytes, toBytes, hdiv, ih, hlow]

/-- The four bytes of a 32-bit word. -/
def le32 (x : BitVec 32) : List UInt8 := toBytes 4 x.toNat

/-- The 32-bit word of four bytes. -/
def word32 (bytes : List UInt8) : BitVec 32 := BitVec.ofNat 32 (ofBytes bytes)

/-- The two bytes of a 16-bit word. -/
def le16 (x : BitVec 16) : List UInt8 := toBytes 2 x.toNat

/-- The 16-bit word of two bytes. -/
def word16 (bytes : List UInt8) : BitVec 16 := BitVec.ofNat 16 (ofBytes bytes)

@[simp] theorem length_le32 (x : BitVec 32) : (le32 x).length = 4 := length_toBytes 4 _

@[simp] theorem length_le16 (x : BitVec 16) : (le16 x).length = 2 := length_toBytes 2 _

@[simp] theorem word32_le32 (x : BitVec 32) : word32 (le32 x) = x := by
  unfold word32 le32
  rw [ofBytes_toBytes (show x.toNat < 256 ^ 4 from x.isLt), BitVec.ofNat_toNat, BitVec.setWidth_eq]

@[simp] theorem word16_le16 (x : BitVec 16) : word16 (le16 x) = x := by
  unfold word16 le16
  rw [ofBytes_toBytes (show x.toNat < 256 ^ 2 from x.isLt), BitVec.ofNat_toNat, BitVec.setWidth_eq]

theorem le32_word32 (h : bytes.length = 4) : le32 (word32 bytes) = bytes := by
  have hlt : ofBytes bytes < 2 ^ 32 := by
    have := ofBytes_lt bytes
    rwa [h] at this
  unfold word32 le32
  rw [BitVec.toNat_ofNat, Nat.mod_eq_of_lt hlt, ← h, toBytes_ofBytes]

theorem le16_word16 (h : bytes.length = 2) : le16 (word16 bytes) = bytes := by
  have hlt : ofBytes bytes < 2 ^ 16 := by
    have := ofBytes_lt bytes
    rwa [h] at this
  unfold word16 le16
  rw [BitVec.toNat_ofNat, Nat.mod_eq_of_lt hlt, ← h, toBytes_ofBytes]

/-! ## Ranges -/

section Ranges

variable {α : Type*}

/-- `get(start..stop)` : the range, if it is one of the list. -/
def range? (l : List α) (start stop : Nat) : Option (List α) :=
  if start ≤ stop ∧ stop ≤ l.length then some ((l.drop start).take (stop - start)) else none

/-- Writes over the elements from `start` on, as many as there are new ones. -/
def overwrite (l : List α) (start : Nat) (new : List α) : List α :=
  l.take start ++ new ++ l.drop (start + new.length)

/-- Splices new elements in before `start`. -/
def insertAt (l : List α) (start : Nat) (new : List α) : List α :=
  l.take start ++ new ++ l.drop start

/-- Drains `start..stop`. -/
def removeRange (l : List α) (start stop : Nat) : List α :=
  l.take start ++ l.drop stop

/-- `resize` : cut to a length, or grown to it with one element. -/
def resize (l : List α) (n : Nat) (x : α) : List α :=
  l.take n ++ List.replicate (n - l.length) x

@[simp] theorem length_resize (l : List α) (n : Nat) (x : α) : (resize l n x).length = n := by
  rw [resize, length_append, length_take, length_replicate]
  omega

theorem getElem?_resize (l : List α) {n i : Nat} (x : α) (h : i < n) :
    (resize l n x)[i]? = some ((l[i]?).getD x) := by
  rw [resize]
  rcases Nat.lt_or_ge i l.length with hlt | hge
  · rw [getElem?_append_left (by rw [length_take]; omega), getElem?_take_of_lt h,
      getElem?_eq_getElem hlt, Option.getD_some]
  · rw [getElem?_append_right (by rw [length_take]; omega), getElem?_eq_none hge,
      Option.getD_none, length_take, getElem?_replicate_of_lt (by omega)]

theorem range?_append (front mid back : List α) {start stop : Nat} (hstart : start = front.length)
    (hstop : stop = front.length + mid.length) : range? (front ++ mid ++ back) start stop = some mid := by
  subst hstart hstop
  rw [range?, if_pos (by simp only [length_append]; omega), append_assoc,
    drop_left, Nat.add_sub_cancel_left, take_left]

theorem getElem?_append_cons {l : List α} (front back : List α) {x : α} {i : Nat}
    (h : l = front ++ x :: back) (hi : i = front.length) : l[i]? = some x := by
  subst h hi
  simp

theorem range?_bounds {l part : List α} {start stop : Nat} (h : range? l start stop = some part) :
    start ≤ stop ∧ stop ≤ l.length := by
  unfold range? at h
  split_ifs at h with hrange
  exact hrange

/-- A range is what stands between its ends. -/
theorem range?_eq_some_iff {l part : List α} {start stop : Nat} :
    range? l start stop = some part ↔
      ∃ front back, l = front ++ part ++ back ∧ front.length = start ∧ stop = start + part.length := by
  constructor
  · intro h
    unfold range? at h
    split_ifs at h with hrange
    obtain rfl := Option.some.inj h
    have hlength : ((l.drop start).take (stop - start)).length = stop - start := by
      rw [length_take, length_drop]
      omega
    refine ⟨l.take start, l.drop stop, ?_, by rw [length_take]; omega, by omega⟩
    have hdrop : l.drop stop = (l.drop start).drop (stop - start) := by
      rw [drop_drop]
      congr 1
      omega
    rw [hdrop, append_assoc, take_append_drop, take_append_drop]
  · rintro ⟨front, back, rfl, rfl, rfl⟩
    exact range?_append front part back rfl rfl

theorem exists_range? {l : List α} {start len : Nat} (h : start + len ≤ l.length) :
    ∃ part, range? l start (start + len) = some part ∧ part.length = len := by
  refine ⟨(l.drop start).take len, ?_, ?_⟩
  · rw [range?, if_pos ⟨Nat.le_add_right _ _, h⟩, Nat.add_sub_cancel_left]
  · rw [length_take, length_drop]
    omega

/-- The start of a range. -/
theorem range?_take {l part : List α} {start len n : Nat} (h : range? l start (start + len) = some part)
    (hn : n ≤ len) : (part.take n).length = n ∧ range? l start (start + (part.take n).length) =
    some (part.take n) := by
  obtain ⟨front, back, rfl, rfl, hstop⟩ := range?_eq_some_iff.mp h
  have hlen : (part.take n).length = n := by
    rw [length_take]
    omega
  refine ⟨hlen, range?_eq_some_iff.mpr ⟨front, part.drop n ++ back, ?_, rfl, rfl⟩⟩
  rw [append_assoc front (part.take n), ← append_assoc (part.take n), take_append_drop, append_assoc]

theorem overwrite_append (front mid back new : List α) (hnew : new.length = mid.length) :
    overwrite (front ++ mid ++ back) front.length new = front ++ new ++ back := by
  have htake : (front ++ mid ++ back).take front.length = front := by
    rw [append_assoc, take_left]
  unfold overwrite
  rw [hnew, htake, drop_left' (by rw [length_append])]

@[simp] theorem length_overwrite (l new : List α) (start : Nat)
    (h : start + new.length ≤ l.length) : (overwrite l start new).length = l.length := by
  simp only [overwrite, length_append, length_take, length_drop]
  omega

theorem getElem?_overwrite {l new : List α} {start : Nat} (h : start + new.length ≤ l.length) (i : Nat) :
    (overwrite l start new)[i]? = if start ≤ i ∧ i < start + new.length then new[i - start]? else l[i]? := by
  have hlead : (l.take start).length = start := by
    rw [length_take]
    omega
  rw [overwrite, append_assoc]
  split_ifs with hin
  · rw [getElem?_append_right (by omega), hlead, getElem?_append_left (by omega)]
  · by_cases hlt : i < start
    · rw [getElem?_append_left (by omega), getElem?_take, if_pos hlt]
    · rw [getElem?_append_right (by omega), hlead, getElem?_append_right (by omega), getElem?_drop]
      congr 1
      omega

/-- What was written over is written back. -/
theorem overwrite_overwrite {l new old : List α} {start : Nat}
    (hold : range? l start (start + old.length) = some old) (hnew : new.length = old.length) :
    overwrite (overwrite l start new) start old = l := by
  obtain ⟨front, back, rfl, rfl, _⟩ := range?_eq_some_iff.mp hold
  rw [overwrite_append front old back new hnew, overwrite_append front new back old hnew.symm]

theorem insertAt_append (front back new : List α) :
    insertAt (front ++ back) front.length new = front ++ new ++ back := by
  unfold insertAt
  rw [take_left, drop_left]

theorem removeRange_append (front mid back : List α) {stop : Nat} (hstop : stop = front.length + mid.length) :
    removeRange (front ++ mid ++ back) front.length stop = front ++ back := by
  have htake : (front ++ mid ++ back).take front.length = front := by
    rw [append_assoc, take_left]
  unfold removeRange
  rw [hstop, htake, drop_left' (by rw [length_append])]

end Ranges

/-! ## Words at an offset -/

/-- The 32-bit word at an offset, if it is in the string. -/
def word32At (bytes : List UInt8) (at_ : Nat) : Option (BitVec 32) :=
  (range? bytes at_ (at_ + 4)).map word32

/-- The 16-bit word at an offset, if it is in the string. -/
def word16At (bytes : List UInt8) (at_ : Nat) : Option (BitVec 16) :=
  (range? bytes at_ (at_ + 2)).map word16

theorem word32At_eq {bytes front back : List UInt8} {x : BitVec 32} {at_ : Nat}
    (h : bytes = front ++ le32 x ++ back) (hat : at_ = front.length) : word32At bytes at_ = some x := by
  rw [word32At, h, range?_append front (le32 x) back hat (by rw [hat, length_le32]), Option.map_some, word32_le32]

theorem word16At_eq {front back : List UInt8} {x : BitVec 16} {at_ : Nat}
    (h : bytes = front ++ le16 x ++ back) (hat : at_ = front.length) : word16At bytes at_ = some x := by
  rw [word16At, h, range?_append front (le16 x) back hat (by rw [hat, length_le16]), Option.map_some, word16_le16]

/-! ## Chunks -/

variable {k : Nat} {area : List UInt8}

section Chunked

variable {α : Type*}

/-- `as_chunks().0` : the whole chunks of `n` elements. -/
def chunks (n : Nat) (l : List α) : List (List α) :=
  (List.range (l.length / n)).map fun i => (l.drop (i * n)).take n

@[simp] theorem length_chunks (n : Nat) (l : List α) : (chunks n l).length = l.length / n := by
  simp [chunks]

variable {n : Nat} {l : List α}

theorem length_of_mem_chunks {chunk : List α} (h : chunk ∈ chunks n l) : chunk.length = n := by
  obtain ⟨i, hi, rfl⟩ := mem_map.mp h
  have hlt := mem_range.mp hi
  have hmul : (i + 1) * n ≤ l.length := by
    calc (i + 1) * n ≤ l.length / n * n := Nat.mul_le_mul_right n hlt
      _ ≤ l.length := Nat.div_mul_le_self l.length n
  rw [Nat.succ_mul] at hmul
  rw [length_take, length_drop]
  omega

theorem chunks_cons {n : Nat} {chunk rest : List α} (hn : 0 < n) (hchunk : chunk.length = n) :
    chunks n (chunk ++ rest) = chunk :: chunks n rest := by
  unfold chunks
  rw [length_append, hchunk, Nat.add_comm, Nat.add_div_right _ hn, range_succ_eq_map,
    map_cons, map_map, Nat.zero_mul, drop_zero, take_left' hchunk]
  congr 1
  refine map_congr_left fun i _ => ?_
  have hdrop : (chunk ++ rest).drop (i.succ * n) = rest.drop (i * n) := by
    rw [Nat.succ_mul, Nat.add_comm, ← drop_drop, drop_left' hchunk]
  exact congrArg (List.take n) hdrop

theorem chunks_of_lt (h : l.length < n) : chunks n l = [] := by
  rw [chunks, Nat.div_eq_of_lt h]
  rfl

/-- Chunks of one width, one behind the other, are cut apart again. -/
theorem chunks_flatten {n : Nat} (hn : 0 < n) {blocks : List (List α)} {tail : List α}
    (hblocks : ∀ block ∈ blocks, block.length = n) (htail : tail.length < n) :
    chunks n (blocks.flatten ++ tail) = blocks := by
  induction blocks with
  | nil => exact chunks_of_lt htail
  | cons block rest ih =>
    rw [flatten_cons, append_assoc, chunks_cons hn (hblocks block mem_cons_self),
      ih fun b hb => hblocks b (mem_cons_of_mem _ hb)]

/-- The first chunks, before whatever follows. -/
theorem take_chunks_flatten {n : Nat} (hn : 0 < n) {blocks : List (List α)} {tail : List α}
    (hblocks : ∀ block ∈ blocks, block.length = n) :
    (chunks n (blocks.flatten ++ tail)).take blocks.length = blocks := by
  induction blocks with
  | nil => rw [length_nil, take_zero]
  | cons block rest ih =>
    rw [flatten_cons, append_assoc, chunks_cons hn (hblocks block mem_cons_self),
      length_cons, take_succ_cons, ih fun b hb => hblocks b (mem_cons_of_mem _ hb)]

/-- The chunks and what is left over make up the list. -/
theorem flatten_chunks {n : Nat} (hn : 0 < n) (l : List α) :
    ∃ tail, tail.length < n ∧ l = (chunks n l).flatten ++ tail := by
  induction hlen : l.length using Nat.strongRecOn generalizing l with
  | _ k ih =>
    rcases Nat.lt_or_ge l.length n with hlt | hge
    · exact ⟨l, hlt, by rw [chunks_of_lt hlt]; rfl⟩
    · have htake : (l.take n).length = n := by
        rw [length_take]
        omega
      obtain ⟨tail, htail, heq⟩ := ih (l.drop n).length (by rw [length_drop]; omega) _ rfl
      have hcons := @chunks_cons _ n _ (l.drop n) hn htake
      rw [take_append_drop] at hcons
      refine ⟨tail, htail, ?_⟩
      rw [hcons, flatten_cons, append_assoc, ← heq, take_append_drop]

theorem length_flatten_const {blocks : List (List α)}
    (hblocks : ∀ block ∈ blocks, block.length = n) : blocks.flatten.length = blocks.length * n := by
  induction blocks with
  | nil => simp
  | cons block rest ih =>
    rw [flatten_cons, length_append, hblocks block mem_cons_self,
      ih fun b hb => hblocks b (mem_cons_of_mem _ hb), length_cons, Nat.succ_mul,
      Nat.add_comm]

/-- Where the chunks leave nothing over they make up the list. -/
theorem flatten_chunks_of_length {k : Nat} (hn : 0 < n) (h : l.length = k * n) : (chunks n l).flatten = l := by
  obtain ⟨tail, htail, hcut⟩ := flatten_chunks hn l
  have hlength := congrArg List.length hcut
  rw [length_append, length_flatten_const fun _ => length_of_mem_chunks, length_chunks, h,
    Nat.mul_div_cancel k hn] at hlength
  have hnil : tail = [] := length_eq_zero_iff.mp (by omega)
  rw [hnil, append_nil] at hcut
  exact hcut.symm

end Chunked

theorem length_flatMap_le32 (words : List (BitVec 32)) : (words.flatMap le32).length = words.length * 4 := by
  rw [flatMap_def, length_flatten_const (n := 4) (by simp), length_map]

theorem length_flatMap_le16 (words : List (BitVec 16)) : (words.flatMap le16).length = words.length * 2 := by
  rw [flatMap_def, length_flatten_const (n := 2) (by simp), length_map]

/-- A word written over in a run of words. -/
theorem overwrite_flatMap_le32 (front back : List UInt8) {words : List (BitVec 32)} {i : Nat}
    (hi : i < words.length) (word : BitVec 32) :
    overwrite (front ++ words.flatMap le32 ++ back) (front.length + i * 4) (le32 word) =
      front ++ (words.set i word).flatMap le32 ++ back := by
  have hcut : words.flatMap le32 =
      (words.take i).flatMap le32 ++ (le32 words[i] ++ (words.drop (i + 1)).flatMap le32) := by
    rw [← flatMap_cons, ← flatMap_append, getElem_cons_drop, take_append_drop]
  have hset : words.set i word = words.take i ++ word :: words.drop (i + 1) := by
    rw [set_eq_take_append_cons_drop, if_pos hi]
  have hat : front.length + i * 4 = (front ++ (words.take i).flatMap le32).length := by
    rw [length_append, length_flatMap_le32, length_take, Nat.min_eq_left (Nat.le_of_lt hi)]
  have hsplit : front ++ words.flatMap le32 ++ back = (front ++ (words.take i).flatMap le32) ++
      le32 words[i] ++ ((words.drop (i + 1)).flatMap le32 ++ back) := by
    rw [hcut]
    simp only [append_assoc]
  rw [hsplit, hat, overwrite_append _ _ _ _ (by rw [length_le32, length_le32]), hset, flatMap_append, flatMap_cons]
  simp only [append_assoc]

theorem flatMap_le32_chunks (h : area.length = k * 4) :
    ((chunks 4 area).map word32).flatMap le32 = area := by
  calc ((chunks 4 area).map word32).flatMap le32
      = (chunks 4 area).flatMap fun block => le32 (word32 block) := flatMap_map _ _ _
    _ = (chunks 4 area).flatMap id :=
        flatMap_congr fun block hblock => le32_word32 (length_of_mem_chunks hblock)
    _ = area := by rw [flatMap_id, flatten_chunks_of_length (by omega) h]

theorem flatMap_le16_chunks (h : area.length = k * 2) :
    ((chunks 2 area).map word16).flatMap le16 = area := by
  calc ((chunks 2 area).map word16).flatMap le16
      = (chunks 2 area).flatMap fun block => le16 (word16 block) := flatMap_map _ _ _
    _ = (chunks 2 area).flatMap id :=
        flatMap_congr fun block hblock => le16_word16 (length_of_mem_chunks hblock)
    _ = area := by rw [flatMap_id, flatten_chunks_of_length (by omega) h]

/-- Words, one behind the other, are read back. -/
theorem map_word32_chunks (words : List (BitVec 32)) : (chunks 4 (words.flatMap le32)).map word32 = words := by
  have hcut := @chunks_flatten _ 4 (by omega) (words.map le32) [] (by simp) (by simp)
  rw [append_nil] at hcut
  rw [flatMap_def, hcut, map_map]
  simp [Function.comp_def]

theorem map_word16_chunks (words : List (BitVec 16)) : (chunks 2 (words.flatMap le16)).map word16 = words := by
  have hcut := @chunks_flatten _ 2 (by omega) (words.map le16) [] (by simp) (by simp)
  rw [append_nil] at hcut
  rw [flatMap_def, hcut, map_map]
  simp [Function.comp_def]

end Oxpinyin.LittleEndian
