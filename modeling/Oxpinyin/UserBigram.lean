import Mathlib.Tactic.Ring
import Oxpinyin.GramMap
import Oxpinyin.Lib.Run
import Oxpinyin.Lib.SortedMap

/-!
# The user bigram

The grams a session trains, under their predecessor's token bytes in a container. A training
step sets a successor's count unless its total would overflow, an accepted prediction wraps,
and a mask takes whole grams and records out. `run_law` : from an empty container the grams
stay sorted, never empty, with a total that is the sum of their counts, and none of the faults
of a malformed gram is met. What the phrase side of the session answers is arbitrary.
-/

namespace Oxpinyin

open List Option LittleEndian FiniteMap Run SingleGram SortedMap Prod

/-! ## Seeds -/

def initialSeed : Nat := 23 * 3

def expandFactor : Nat := 2

def ceilingSeed : Nat := 23 * 15 * 64

def unigramFactor : Nat := 7

/-- The seed of a training step, by the count stored before. -/
def trainingSeed : Option (BitVec 32) → Nat
  | none => initialSeed
  | some freq => min ((max freq.toNat initialSeed * expandFactor) % 2 ^ 32) ceilingSeed

def predictedSeed : Nat := initialSeed

/-- What a seed adds to a phrase's own count, in its field's width. -/
def unigramDelta (seed : Nat) : BitVec 32 :=
  if seed * unigramFactor < 2 ^ 32 then BitVec.ofNat 32 (seed * unigramFactor) else BitVec.allOnes 32

/-! ## Grams -/

/-- Why a session's operation fails : a fault of the user bigram, a full library, or a fault
of the phrase side. -/
inductive UserStoreError (φ : Type) where
  | shortUserBigramValue
  | partialUserBigramTail
  | trainingSetFreqMiss
  | residualUserBigramGram
  | nonTokenUserBigramKey
  | decode
  | unigramTotalOverflow
  | phrases (fault : φ)

/-- A fault of a malformed gram or container. -/
def UserStoreError.OfBigram {φ : Type} : UserStoreError φ → Prop
  | unigramTotalOverflow => False
  | phrases _ => False
  | _ => True

section Grams

variable {φ : Type}

/-- The gram with a token's record, made with no count where it is missing, and its count. -/
def withRecord (gram : Bytes) (cur : BitVec 32) : Option (Bytes × BitVec 32) :=
  match getFreq gram cur with
  | some freq => some (gram, freq)
  | none => if (insertFreq gram cur 0).2 then some ((insertFreq gram cur 0).1, 0) else none

/-- A training step's gram : its seed, and the gram to store unless the total overflows. -/
def trainedGram (row : Option Bytes) (cur : BitVec 32) : Except (UserStoreError φ) (Nat × Option Bytes) :=
  let gram := row.getD newGram
  match getTotalFreq gram with
  | none => .error .shortUserBigramValue
  | some total =>
    let seed := trainingSeed (getFreq gram cur)
    match withRecord gram cur with
    | none => .error .decode
    | some (gram, freq) =>
      let seed32 := BitVec.ofNat 32 seed
      if 0 < seed32 ∧ total + seed32 < total then .ok (seed, none)
      else
        let stored := setFreq (setTotalFreq gram (total + seed32)) cur (freq + seed32)
        if stored.2 then .ok (seed, some stored.1) else .error .trainingSetFreqMiss

/-- An accepted prediction's gram. Both fields wrap. -/
def predictedGram (row : Option Bytes) (cur : BitVec 32) : Except (UserStoreError φ) Bytes :=
  let seed := BitVec.ofNat 32 predictedSeed
  let gram := row.getD newGram
  match getTotalFreq gram with
  | none => .error .shortUserBigramValue
  | some total =>
    let stored := match getFreq gram cur with
      | none => insertFreq gram cur seed
      | some freq => setFreq gram cur (freq + seed)
    if stored.2 then .ok (setTotalFreq stored.1 (total + seed)) else .error .decode

end Grams

/-! ## The container -/

/-- Grams by raw key. -/
abbrev Container := SortedMap Bytes Bytes

namespace Container

variable {φ : Type}

/-- Every key, as a token if it is one. -/
def keys (container : Container) : List (Option (BitVec 32)) :=
  container.entries.map fun entry => if entry.1.length = 4 then some (word32 entry.1) else none

/-- The gram of a predecessor. -/
def gram (container : Container) (prev : BitVec 32) : Option Bytes :=
  container.get? (le32 prev)

/-- One key of a mask : the container, and whether a key remains. -/
def maskKey (mask value : BitVec 32) (state : Container × Bool) : Option (BitVec 32) → Container × Bool
  | none => (state.1, true)
  | some prev =>
    if prev &&& mask = value then (state.1.erase (le32 prev), state.2)
    else
      match state.1.get? (le32 prev) with
      | none => state
      | some gram =>
        let masked := maskOut gram mask value
        if masked.2 = 0 then (state.1, true)
        else if getLength masked.1 = 0 then (state.1.erase (le32 prev), state.2)
        else (state.1.insert (le32 prev) masked.1, true)

/-- The mask over the keys collected before. -/
def maskGramsOver (container : Container) (keys : List (Option (BitVec 32))) (mask value : BitVec 32) :
    Container × Bool :=
  keys.foldl (maskKey mask value) (container, false)

/-- The fault of one gram that a mask loads. -/
def gramMaskFault (gram : Bytes) (mask value : BitVec 32) : Option (UserStoreError φ) :=
  if gram.length < totalLen then some .shortUserBigramValue
  else if hasPartialTail gram then some .partialUserBigramTail
  else
    let masked := maskOut gram mask value
    if 0 < masked.2 ∧ getLength masked.1 = 0 ∧ getTotalFreq masked.1 ≠ some 0 then some .residualUserBigramGram
    else none

/-- The first fault a mask meets. -/
def gramMaskFaultOver (container : Container) (keys : List (Option (BitVec 32))) (mask value : BitVec 32) :
    Option (UserStoreError φ) :=
  if keys.any Option.isNone then some .nonTokenUserBigramKey
  else
    keys.reduceOption.findSome? fun prev =>
      if prev &&& mask = value then none
      else (container.get? (le32 prev)).bind fun gram => gramMaskFault gram mask value

end Container

/-! ## The session -/

/-- What the phrase side of a session does : its libraries, phrase table and pinyin index. -/
structure PhraseSide (σ φ : Type) where
  /-- Adds to a phrase's count. Answers whether its library took it. -/
  addUnigram : σ → BitVec 32 → BitVec 32 → σ × Bool
  /-- The fault that refuses a mask. -/
  checkMask : σ → Option φ
  /-- Masks the index, the phrase table and the libraries. -/
  mask : σ → BitVec 32 → BitVec 32 → σ × Option φ
  /-- What ends a removal before the container's fault does. -/
  checkRemove : σ → BitVec 32 → Option (Except φ Bool)
  /-- Removes a phrase. -/
  remove : σ → BitVec 32 → σ × Option φ

/-- A session's phrases and its bigram. -/
structure UserStore (σ : Type) where
  phrases : σ
  container : Container

inductive SeedPolicy where
  | training
  | predicted

namespace UserStore

variable {σ φ : Type} (side : PhraseSide σ φ)

/-- The error of a training or predicted step on a gram too short for its total. A prediction
adds to its phrase first. -/
def updateShort (store : UserStore σ) (cur : BitVec 32) : SeedPolicy → UserStore σ × Except (UserStoreError φ) Nat
  | .training => (store, .error .shortUserBigramValue)
  | .predicted =>
    let added := side.addUnigram store.phrases cur (unigramDelta predictedSeed)
    ({ store with phrases := added.1 },
      .error (if added.2 then .shortUserBigramValue else .unigramTotalOverflow))

/-- The seed and the gram of a step. -/
def updateGram (row : Option Bytes) (cur : BitVec 32) :
    SeedPolicy → Except (UserStoreError φ) (Nat × Option Bytes)
  | .training => trainedGram row cur
  | .predicted => (predictedGram row cur).map fun gram => (predictedSeed, some gram)

/-- One training or predicted step on a predecessor's gram and its successor's own count. -/
def update (store : UserStore σ) (last cur : BitVec 32) (policy : SeedPolicy) :
    UserStore σ × Except (UserStoreError φ) Nat :=
  let row := store.container.gram last
  if row.any hasPartialTail then (store, .error .partialUserBigramTail)
  else if row.any fun gram => gram.length < totalLen then updateShort side store cur policy
  else
    match updateGram row cur policy with
    | .error error => (store, .error error)
    | .ok (seed, gram) =>
      let added := side.addUnigram store.phrases cur (unigramDelta seed)
      -- training ignores a refusal
      let accepted := match policy with
        | .training => true
        | .predicted => added.2
      let container := match gram with
        | some gram => if accepted then store.container.insert (le32 last) gram else store.container
        | none => store.container
      (⟨added.1, container⟩, if accepted then .ok seed else .error .unigramTotalOverflow)

def observeSelection (store : UserStore σ) (last cur : BitVec 32) : UserStore σ × Except (UserStoreError φ) Nat :=
  store.update side last cur .training

def observePredicted (store : UserStore σ) (last cur : BitVec 32) : UserStore σ × Except (UserStoreError φ) Nat :=
  store.update side last cur .predicted

/-- Masks the phrases, then the grams, unless one of the faults of either is met first. -/
def maskOut (store : UserStore σ) (mask value : BitVec 32) : UserStore σ × Except (UserStoreError φ) Unit :=
  match side.checkMask store.phrases with
  | some fault => (store, .error (.phrases fault))
  | none =>
    let keys := store.container.keys
    match store.container.gramMaskFaultOver keys mask value with
    | some error => (store, .error error)
    | none =>
      let masked := side.mask store.phrases mask value
      match masked.2 with
      | some fault => (⟨masked.1, store.container⟩, .error (.phrases fault))
      | none => (⟨masked.1, (store.container.maskGramsOver keys mask value).1⟩, .ok ())

/-- The mask that selects one token. -/
def tokenMask : BitVec 32 := 0x0F000000 ||| 0x00FFFFFF

/-- Removes a phrase, with its grams and records. -/
def removeUserPhrase (store : UserStore σ) (token : BitVec 32) : UserStore σ × Except (UserStoreError φ) Bool :=
  let keys := store.container.keys
  let bigramFault := store.container.gramMaskFaultOver keys tokenMask token
  match side.checkRemove store.phrases token with
  | some (.ok answer) => (store, .ok answer)
  | some (.error fault) => (store, .error (.phrases fault))
  | none =>
    match bigramFault with
    | some error => (store, .error error)
    | none =>
      let removed := side.remove store.phrases token
      match removed.2 with
      | some fault => (⟨removed.1, store.container⟩, .error (.phrases fault))
      | none => (⟨removed.1, (store.container.maskGramsOver keys tokenMask token).1⟩, .ok true)

end UserStore

/-! ## The law of a gram -/

/-- Whole records, strictly ascending, with the sum of their counts. -/
def SumLaw (gram : Bytes) : Prop :=
  ∃ items : List (BitVec 32 × BitVec 32), (items.Pairwise fun a b => a.1 < b.1) ∧
    gram = gramBytes (items.map Prod.snd).sum items []

/-- A gram a session stores : at least one record, and the law of its total. -/
def GramLaw (gram : Bytes) : Prop :=
  ∃ items : List (BitVec 32 × BitVec 32), items ≠ [] ∧ (items.Pairwise fun a b => a.1 < b.1) ∧
    gram = gramBytes (items.map Prod.snd).sum items []

theorem sumLaw_newGram : SumLaw newGram := ⟨[], List.Pairwise.nil, by decide⟩

theorem GramLaw.sumLaw {gram : Bytes} (h : GramLaw gram) : SumLaw gram := by
  obtain ⟨items, _, hsorted, hgram⟩ := h
  exact ⟨items, hsorted, hgram⟩

section Law

variable {gram : Bytes} {cur : BitVec 32}

theorem sum_around (front back : List (BitVec 32 × BitVec 32)) (token : BitVec 32) (mid : Option (BitVec 32)) :
    ((around front token mid back).map snd).sum =
      (front.map snd).sum + (mid.getD 0 + (back.map snd).sum) := by
  rw [around, append_assoc, map_append, sum_append, map_append, sum_append]
  cases mid with
  | none => rfl
  | some freq =>
    rw [map_some, toList_some, map_singleton, sum_singleton]
    rfl

/-- The records around a token. -/
theorem SumLaw.split (h : SumLaw gram) (token : BitVec 32) : ∃ front back mid,
    gram = gramBytes ((around front token mid back).map snd).sum (around front token mid back) [] ∧
    (∀ e ∈ front, e.1 < token) ∧ (∀ e ∈ back, token < e.1) ∧
    ∀ freq, (around front token (some freq) back).Pairwise fun a b => a.1 < b.1 := by
  obtain ⟨items, hsorted, rfl⟩ := h
  obtain ⟨freq, hlists⟩ := exists_lists hsorted
  obtain ⟨front, back, hitems, hfront, hback⟩ := hlists.split token
  refine ⟨front, back, freq token, by rw [hitems]; rfl, hfront, hback, fun value => ?_⟩
  rw [hitems] at hlists
  exact (hlists.at_place hfront hback (some value)).ascending

/-- The gram with a token's count raised, and its total with it. -/
theorem raise_law {front back : List (BitVec 32 × BitVec 32)} {mid : Option (BitVec 32)} (seed : BitVec 32)
    (hsorted : ∀ freq, (around front cur (some freq) back).Pairwise fun a b => a.1 < b.1) :
    GramLaw (gramBytes (((around front cur mid back).map snd).sum + seed)
      (around front cur (some (mid.getD 0 + seed)) back) []) := by
  refine ⟨around front cur (some (mid.getD 0 + seed)) back, ?_, hsorted _, ?_⟩
  · rw [around]
    simp
  · rw [sum_around, sum_around, getD_some]
    have hsum : (front.map snd).sum + (mid.getD 0 + (back.map snd).sum) + seed =
        (front.map snd).sum + (mid.getD 0 + seed + (back.map snd).sum) := by
      ring
    rw [hsum]

/-- A trained row keeps the law. -/
theorem trainedGram_law {φ : Type} {row : Option Bytes} (h : SumLaw (row.getD newGram)) (cur : BitVec 32) :
    ∃ seed stored, (trainedGram row cur : Except (UserStoreError φ) _) = .ok (seed, stored) ∧
      ∀ gram ∈ stored, GramLaw gram := by
  obtain ⟨front, back, mid, hgram, hfront, hback, hsorted⟩ := h.split cur
  have htail : ([] : Bytes).length < 8 := by decide
  have hset : ∀ seed : BitVec 32, setFreq (setTotalFreq (gramBytes ((around front cur mid back).map snd).sum
      (around front cur (some (mid.getD 0)) back) []) (((around front cur mid back).map snd).sum + seed)) cur
        (mid.getD 0 + seed) =
      (gramBytes (((around front cur mid back).map snd).sum + seed)
        (around front cur (some (mid.getD 0 + seed)) back) [], true) := by
    intro seed
    rw [setTotalFreq_gramBytes, setFreq_around htail hfront hback]
    rfl
  have hrecord : withRecord (gramBytes ((around front cur mid back).map snd).sum (around front cur mid back) []) cur =
      some (gramBytes ((around front cur mid back).map snd).sum (around front cur (some (mid.getD 0)) back) [],
        mid.getD 0) := by
    rw [withRecord, getFreq_around htail hfront hback, insertFreq_around hfront hback]
    cases mid with
    | some freq => rfl
    | none => rfl
  rw [trainedGram, hgram, getTotalFreq_gramBytes, getFreq_around htail hfront hback]
  dsimp only
  rw [hrecord]
  dsimp only
  split
  · exact ⟨_, none, rfl, fun gram hnone => by cases hnone⟩
  · rw [hset]
    refine ⟨_, _, rfl, fun gram hsome => ?_⟩
    rw [mem_some_iff] at hsome
    rw [← hsome]
    exact raise_law _ hsorted

theorem predictedGram_law {φ : Type} {row : Option Bytes} (h : SumLaw (row.getD newGram)) (cur : BitVec 32) :
    ∃ gram, (predictedGram row cur : Except (UserStoreError φ) _) = .ok gram ∧ GramLaw gram := by
  obtain ⟨front, back, mid, hgram, hfront, hback, hsorted⟩ := h.split cur
  have htail : ([] : Bytes).length < 8 := by decide
  refine ⟨_, ?_, @raise_law cur front back mid (BitVec.ofNat 32 predictedSeed) hsorted⟩
  rw [predictedGram, hgram, getTotalFreq_gramBytes, getFreq_around htail hfront hback]
  cases mid with
  | none =>
    dsimp only
    rw [insertFreq_around hfront hback]
    dsimp only [isNone_none]
    rw [if_pos rfl, setTotalFreq_gramBytes, getD_none, getD_none, zero_add]
  | some freq =>
    dsimp only
    rw [setFreq_around htail hfront hback]
    dsimp only [isSome_some]
    rw [if_pos rfl, setTotalFreq_gramBytes]
    rfl

/-- A masked gram keeps the law of its total. One it empties has no total left. -/
theorem maskOut_law (h : SumLaw gram) (mask value : BitVec 32) :
    ∃ items : List (BitVec 32 × BitVec 32), (items.Pairwise fun a b => a.1 < b.1) ∧
      (maskOut gram mask value).1 = gramBytes (items.map snd).sum items [] := by
  obtain ⟨items, hsorted, rfl⟩ := h
  refine ⟨items.filter fun e => e.1 &&& mask != value, hsorted.filter _, ?_⟩
  have hsum : ((items.filter fun e => e.1 &&& mask == value).map snd).sum +
      ((items.filter fun e => e.1 &&& mask != value).map snd).sum = (items.map snd).sum := by
    clear hsorted
    induction items with
    | nil => rfl
    | cons e items ih =>
      rw [map_cons, sum_cons, ← ih]
      by_cases he : e.1 &&& mask = value
      · rw [filter_cons_of_pos (by simp [he]), filter_cons_of_neg (by simp [he]), map_cons,
          sum_cons, BitVec.add_assoc]
      · rw [filter_cons_of_neg (by simp [he]), filter_cons_of_pos (by simp [he]), map_cons, sum_cons]
        ring
  rw [maskOut_gramBytes, ← hsum, BitVec.add_comm, BitVec.add_sub_cancel]

/-- A gram under its law has its total and no partial record. -/
theorem SumLaw.whole (h : SumLaw gram) : totalLen ≤ gram.length ∧ hasPartialTail gram = false := by
  obtain ⟨items, _, rfl⟩ := h
  rw [hasPartialTail, length_gramBytes, totalLen, itemLen]
  refine ⟨by omega, ?_⟩
  simp

theorem gramMaskFault_eq_none {φ : Type} (h : SumLaw gram) (mask value : BitVec 32) :
    (Container.gramMaskFault gram mask value : Option (UserStoreError φ)) = none := by
  obtain ⟨items, hsorted, hmasked⟩ := maskOut_law h mask value
  rw [Container.gramMaskFault, if_neg (Nat.not_lt.mpr h.whole.1), h.whole.2, if_neg Bool.false_ne_true]
  refine if_neg ?_
  rintro ⟨_, hempty, htotal⟩
  rw [hmasked, getLength_gramBytes (by decide), length_eq_zero_iff] at hempty
  rw [hmasked, getTotalFreq_gramBytes, hempty] at htotal
  exact htotal rfl

end Law

/-! ## The law of the container -/

namespace Container

variable {container : Container} {mask value : BitVec 32}

/-- Every key is a token, and every gram keeps its law. -/
def Law (container : Container) : Prop :=
  ∀ key gram, container.get? key = some gram → (∃ token, key = le32 token) ∧ GramLaw gram

theorem law_empty : Law (.empty : Container) := fun _ _ hget => by cases hget

theorem Law.insert (h : container.Law) (token : BitVec 32) {gram : Bytes} (hgram : GramLaw gram) :
    Law (insert container (le32 token) gram) := by
  intro key stored hget
  rw [get?_insert, Function.update_apply] at hget
  split at hget
  · rename_i hkey
    rw [← some.inj hget]
    exact ⟨⟨token, hkey⟩, hgram⟩
  · exact h key stored hget

theorem Law.erase (h : container.Law) (key : Bytes) : Law (erase container key) := by
  intro other stored hget
  rw [get?_erase, Function.update_apply] at hget
  split at hget
  · cases hget
  · exact h other stored hget

theorem Law.sumLaw (h : container.Law) (token : BitVec 32) : SumLaw ((container.gram token).getD newGram) := by
  rw [gram]
  cases hget : get? container (le32 token) with
  | none => exact sumLaw_newGram
  | some stored => exact (h _ _ hget).2.sumLaw

/-- A masked row keeps the law. -/
theorem Law.maskKey (h : container.Law) (remaining : Bool) (key : Option (BitVec 32)) :
    (maskKey mask value (container, remaining) key).1.Law := by
  cases key with
  | none => exact h
  | some prev =>
    rw [Container.maskKey]
    split
    · exact h.erase _
    · dsimp only
      split
      · exact h
      · rename_i stored hget
        obtain ⟨items, hsorted, hmasked⟩ := maskOut_law (h _ _ hget).2.sumLaw mask value
        split
        · exact h
        · split
          · exact h.erase _
          · rename_i hkept
            refine h.insert prev ⟨items, ?_, hsorted, hmasked⟩
            rintro rfl
            rw [hmasked, getLength_gramBytes (by decide)] at hkept
            exact hkept rfl

/-- A mask keeps the law, over whatever keys. -/
theorem Law.maskGramsOver (h : container.Law) (keys : List (Option (BitVec 32))) (mask value : BitVec 32) :
    (container.maskGramsOver keys mask value).1.Law := by
  rw [Container.maskGramsOver]
  generalize false = remaining
  induction keys generalizing container remaining with
  | nil => exact h
  | cons key keys ih => exact ih (h.maskKey remaining key) _

/-- Under the law no mask check fails. -/
theorem Law.fault {φ : Type} (h : container.Law) (mask value : BitVec 32) :
    (container.gramMaskFaultOver container.keys mask value : Option (UserStoreError φ)) = none := by
  have htokens : ∀ key ∈ container.keys, key.isNone = false := by
    intro key hkey
    obtain ⟨entry, hentry, rfl⟩ := List.mem_map.mp hkey
    obtain ⟨⟨token, htoken⟩, _⟩ := h entry.1 entry.2 ((lists container).mem _ _ |>.mp hentry)
    rw [htoken, if_pos (length_le32 token)]
    rfl
  have hany : container.keys.any Option.isNone = false := by
    rw [List.any_eq_false]
    intro key hkey
    rw [htokens key hkey]
    exact Bool.false_ne_true
  rw [gramMaskFaultOver, hany, if_neg Bool.false_ne_true, findSome?_eq_none_iff]
  intro prev _
  split
  · rfl
  · cases hget : get? container (le32 prev) with
    | none => rfl
    | some stored => exact gramMaskFault_eq_none (h _ _ hget).2.sumLaw mask value

end Container

/-! ## Runs -/

namespace UserStore

variable {σ φ : Type} (side : PhraseSide σ φ) {store : UserStore σ}

theorem updateGram_law {row : Option Bytes} (h : SumLaw (row.getD newGram)) (cur : BitVec 32) (policy : SeedPolicy) :
    ∃ seed stored, (updateGram row cur policy : Except (UserStoreError φ) _) = .ok (seed, stored) ∧
      ∀ gram ∈ stored, GramLaw gram := by
  cases policy with
  | training => exact trainedGram_law h cur
  | predicted =>
    obtain ⟨gram, hgram, hlaw⟩ := @predictedGram_law φ row h cur
    refine ⟨predictedSeed, some gram, by rw [updateGram, hgram]; rfl, fun stored hstored => ?_⟩
    rw [mem_some_iff] at hstored
    exact hstored ▸ hlaw

/-- A step of either policy keeps the law and meets no fault of a gram. -/
theorem update_law (h : store.container.Law) (last cur : BitVec 32) (policy : SeedPolicy) :
    (store.update side last cur policy).1.container.Law ∧
      ∀ error, (store.update side last cur policy).2 = .error error → ¬error.OfBigram := by
  have hrow : ∀ gram, store.container.gram last = some gram → SumLaw gram := fun gram hgram => (h _ _ hgram).2.sumLaw
  have hpartial : (store.container.gram last).any hasPartialTail = false := by
    cases hgram : store.container.gram last with
    | none => rfl
    | some gram => exact (hrow gram hgram).whole.2
  have hshort : (store.container.gram last).any (fun gram => gram.length < totalLen) = false := by
    cases hgram : store.container.gram last with
    | none => rfl
    | some gram => exact decide_eq_false (Nat.not_lt.mpr (hrow gram hgram).whole.1)
  obtain ⟨seed, stored, hstep, hstored⟩ := @updateGram_law φ _ (h.sumLaw last) cur policy
  rw [update, hpartial, hshort, if_neg Bool.false_ne_true, if_neg Bool.false_ne_true, hstep]
  dsimp only
  generalize (match policy with
    | .training => true
    | .predicted => (side.addUnigram store.phrases cur (unigramDelta seed)).2) = accepted
  refine ⟨?_, fun error herror => ?_⟩
  · cases stored with
    | none => exact h
    | some gram =>
      cases accepted with
      | true => exact h.insert last (hstored gram rfl)
      | false => exact h
  · cases accepted with
    | true => cases herror
    | false =>
      cases herror
      exact id

theorem maskOut_law' (h : store.container.Law) (mask value : BitVec 32) :
    (store.maskOut side mask value).1.container.Law ∧
      ∀ error, (store.maskOut side mask value).2 = .error error → ¬error.OfBigram := by
  rw [UserStore.maskOut]
  split
  · exact ⟨h, fun error herror => by cases herror; exact id⟩
  · dsimp only
    rw [h.fault]
    dsimp only
    split
    · exact ⟨h, fun error herror => by cases herror; exact id⟩
    · exact ⟨h.maskGramsOver _ mask value, fun error herror => by cases herror⟩

theorem removeUserPhrase_law (h : store.container.Law) (token : BitVec 32) :
    (store.removeUserPhrase side token).1.container.Law ∧
      ∀ error, (store.removeUserPhrase side token).2 = .error error → ¬error.OfBigram := by
  rw [removeUserPhrase]
  dsimp only
  rw [h.fault]
  split
  · exact ⟨h, fun error herror => by cases herror⟩
  · exact ⟨h, fun error herror => by cases herror; exact id⟩
  · dsimp only
    split
    · exact ⟨h, fun error herror => by cases herror; exact id⟩
    · exact ⟨h.maskGramsOver _ _ _, fun error herror => by cases herror⟩

/-- An operation on the session. -/
inductive Op where
  | observeSelection (last cur : BitVec 32)
  | observePredicted (last cur : BitVec 32)
  | maskOut (mask value : BitVec 32)
  | removeUserPhrase (token : BitVec 32)

/-- The error of a result. -/
def errorOf {α : Type} : Except (UserStoreError φ) α → Option (UserStoreError φ)
  | .ok _ => none
  | .error error => some error

/-- The session after an operation, and the error it answered. -/
def step (store : UserStore σ) : Op → UserStore σ × Option (UserStoreError φ)
  | .observeSelection last cur =>
    ((store.observeSelection side last cur).1, errorOf (store.observeSelection side last cur).2)
  | .observePredicted last cur =>
    ((store.observePredicted side last cur).1, errorOf (store.observePredicted side last cur).2)
  | .maskOut mask value => ((store.maskOut side mask value).1, errorOf (store.maskOut side mask value).2)
  | .removeUserPhrase token =>
    ((store.removeUserPhrase side token).1, errorOf (store.removeUserPhrase side token).2)

theorem eq_error_of_errorOf {α : Type} {result : Except (UserStoreError φ) α} {error : UserStoreError φ}
    (h : errorOf result = some error) : result = .error error := by
  cases result with
  | ok a => cases h
  | error e => rw [some.inj h]

theorem step_law (h : store.container.Law) (op : Op) :
    (store.step side op).1.container.Law ∧ ∀ error, (store.step side op).2 = some error → ¬error.OfBigram :=
  match op with
  | .observeSelection last cur =>
    ⟨(update_law side h last cur .training).1, fun error herror =>
      (update_law side h last cur .training).2 error (eq_error_of_errorOf herror)⟩
  | .observePredicted last cur =>
    ⟨(update_law side h last cur .predicted).1, fun error herror =>
      (update_law side h last cur .predicted).2 error (eq_error_of_errorOf herror)⟩
  | .maskOut mask value =>
    ⟨(maskOut_law' side h mask value).1, fun error herror =>
      (maskOut_law' side h mask value).2 error (eq_error_of_errorOf herror)⟩
  | .removeUserPhrase token =>
    ⟨(removeUserPhrase_law side h token).1, fun error herror =>
      (removeUserPhrase_law side h token).2 error (eq_error_of_errorOf herror)⟩

/-- From an empty container, in every state of a run the grams keep their law, and the next
operation answers none of the faults of a malformed gram. -/
theorem run_law (phrases : σ) (ops : List Op) :
    ∀ store ∈ states (fun store op => (step side store op).1) ⟨phrases, .empty⟩ ops,
      (∀ token gram, store.container.gram token = some gram →
        ∃ items : List (BitVec 32 × BitVec 32), items ≠ [] ∧ (items.Pairwise fun a b => a.1 < b.1) ∧
          gram = gramBytes (items.map Prod.snd).sum items []) ∧
      ∀ op error, (store.step side op).2 = some error → ¬error.OfBigram := by
  intro store hstore
  have hlaw : store.container.Law :=
    @forall_states _ _ (fun store op => (step side store op).1) (fun store => store.container.Law)
      (fun _ _ => True) (fun store op h _ => (step_law side h op).1) ops ⟨phrases, .empty⟩ Container.law_empty
      (along_true ops _) store hstore
  exact ⟨fun token gram hgram => (hlaw _ _ hgram).2, fun op error herror => (step_law side hlaw op).2 error herror⟩

/-- A phrase side that takes every count and refuses nothing. -/
def openSide : PhraseSide Unit Empty where
  addUnigram _ _ _ := ((), true)
  checkMask _ := none
  mask _ _ _ := ((), none)
  checkRemove _ _ := none
  remove _ _ := ((), none)

theorem run_law_selected : (∃ items : List (BitVec 32 × BitVec 32), items ≠ [] ∧
      (items.Pairwise fun a b => a.1 < b.1) ∧
      gramBytes 69 [(2, 69)] [] = gramBytes (items.map Prod.snd).sum items []) ∧
    ∀ op error, (step openSide (step openSide ⟨(), .empty⟩ (.observeSelection 1 2)).1 op).2 = some error →
      ¬error.OfBigram := by
  have hrun := run_law openSide () [.observeSelection 1 2]
    (step openSide ⟨(), .empty⟩ (.observeSelection 1 2)).1 (mem_cons_of_mem _ mem_cons_self)
  exact ⟨hrun.1 1 _ (by decide +kernel), hrun.2⟩

end UserStore

end Oxpinyin
