import Mathlib.Data.List.TakeWhile
import Oxpinyin.Trellis

/-!
# The export of the user bigrams

A walk over the predecessors of a container hands out the rows of its pairs. It loads the gram of a
predecessor when it reaches it and appends the pairs to a queue, which it scans under the predecessor
then current. `drain_begin` : a caller that asks until it is told twice that nothing is left gets the
rows of every pair under its owner, the first predecessor from its own on that is scanned at all, and
then the fault of the first gram that cannot be read.
-/

set_option linter.unusedSectionVars false

namespace Oxpinyin

open List Bool

/-- Why a stored gram cannot be read. -/
inductive GramLoadFault where
  | shortTotal (token : PhraseToken)
  | partialTail (token : PhraseToken)
  deriving DecidableEq

structure ExportedBigramRow where
  pinyin : Bytes
  count : Int
  deriving DecidableEq

/-- What a walk reads grams and renders tokens from. -/
structure ExportSource where
  gram : PhraseToken → Except GramLoadFault (List (PhraseToken × BitVec 32))
  render : PhraseToken → Option (PhraseText × List Bytes)

structure BigramExportWalk where
  items : List PhraseToken
  indexToken : PhraseToken
  phraseTokens : List (PhraseToken × BitVec 32)
  /-- The pair loaded last. -/
  pair : Option (PhraseText × PhraseText)
  loads : BitVec 64
  pinyins : List Bytes
  pinyinIndex : Nat
  count : BitVec 32

/-- What a step hands out, with what the walk answers behind a row. -/
inductive BigramStep where
  | row (row : ExportedBigramRow) (more : Except GramLoadFault Bool)
  | aborts
  | undefined

namespace BigramExportWalk

def nullToken : PhraseToken := 0

/-- A pair is exported above this count. -/
def exportThreshold : BitVec 32 := 23 * 3 - 1

/-- A walk over some predecessors. -/
def begin_ (items : List PhraseToken) : BigramExportWalk where
  items := items
  indexToken := nullToken
  phraseTokens := []
  pair := none
  loads := 0
  pinyins := []
  pinyinIndex := 0
  count := 0

/-- The queue is scanned under the predecessor. -/
def scans (token : PhraseToken) : Bool := token ≠ nullToken ∧ token ≠ sentenceStart

section Walk

variable (source : ExportSource)

/-- The text and the spellings of a token, none for one that does not render. -/
def rendered (token : PhraseToken) : PhraseText × List Bytes := (source.render token).getD (.scalar [], [])

def loadRow (walk : BigramExportWalk) (token : PhraseToken) (count : BitVec 32) : BigramExportWalk :=
  { walk with
    pair := some ((rendered source walk.indexToken).1, (rendered source token).1)
    loads := walk.loads + 1
    count := count
    pinyins := (rendered source walk.indexToken).2.flatMap fun first =>
      (rendered source token).2.map fun second => first ++ apostrophe :: second }

/-- Takes the queue up to the first pair above the threshold, and loads it. -/
def scanTokens : List (PhraseToken × BitVec 32) → BigramExportWalk → Bool × BigramExportWalk
  | [], walk => (false, { walk with phraseTokens := [] })
  | (token, count) :: rest, walk =>
    if exportThreshold < count then (true, { walk.loadRow source token count with phraseTokens := rest })
    else scanTokens rest walk

/-- Scans the queue and loads predecessors until a pair is found or none is left. -/
def advance : List PhraseToken → BigramExportWalk → Except GramLoadFault Bool × BigramExportWalk
  | items, walk =>
    let (found, walk) :=
      if scans walk.indexToken then scanTokens source walk.phraseTokens walk else (false, walk)
    if found then (.ok true, { walk with items := items })
    else
      match items with
      | [] => (.ok false, { walk with items := [] })
      | token :: items =>
        match source.gram token with
        | .error fault => (.error fault, { walk with indexToken := token, items := [], phraseTokens := [] })
        | .ok gram =>
          let walk := { walk with indexToken := token, phraseTokens := walk.phraseTokens ++ gram }
          if items.isEmpty then (.ok false, { walk with items := [] }) else advance items walk

def hasNext (walk : BigramExportWalk) : Except GramLoadFault Bool × BigramExportWalk :=
  if walk.pair.isSome ∧ walk.pinyinIndex < walk.pinyins.length then (.ok true, walk)
  else advance source walk.items { walk with pinyinIndex := 0, pinyins := [] }

def getNext (walk : BigramExportWalk) : BigramStep × BigramExportWalk :=
  if scans walk.indexToken then
    match walk.pinyins[walk.pinyinIndex]? with
    | none => (.undefined, walk)
    | some pinyin =>
      let (more, next) := hasNext source { walk with pinyinIndex := walk.pinyinIndex + 1 }
      (.row ⟨pinyin, (walk.count * 2).toInt⟩ more, next)
  else (.aborts, walk)

/-! ## A caller -/

/-- What a caller sees : a row with the pair it belongs to, or what the walk reports. -/
inductive Event where
  | row (pair : Option (PhraseText × PhraseText)) (row : ExportedBigramRow)
  | fault (fault : GramLoadFault)
  | aborts
  | undefined

/-- Asks for rows until the walk has answered twice in a row that nothing is left. -/
def drain : Nat → Bool → BigramExportWalk → Option (List Event)
  | 0, _, _ => none
  | fuel + 1, answered, walk =>
    match hasNext source walk with
    | (.error fault, walk) => (drain fuel false walk).map (.fault fault :: ·)
    | (.ok false, walk) => if answered then some [] else drain fuel true walk
    | (.ok true, walk) =>
      match getNext source walk with
      | (.row row (.ok _), next) => (drain fuel false next).map (.row walk.pair row :: ·)
      | (.row row (.error fault), next) => (drain fuel false next).map (.row walk.pair row :: .fault fault :: ·)
      | (.aborts, _) => some [.aborts]
      | (.undefined, _) => some [.undefined]

end Walk

/-! ## The rows -/

section Rows

variable (source : ExportSource)

/-- The rows of a pair, by its first spelling. -/
def pairRows (first : PhraseToken) (pair : PhraseToken × BitVec 32) : List Event :=
  if exportThreshold < pair.2 then
    (rendered source first).2.flatMap fun front => (rendered source pair.1).2.map fun back =>
      .row (some ((rendered source first).1, (rendered source pair.1).1))
        ⟨front ++ apostrophe :: back, (pair.2 * 2).toInt⟩
  else []

/-- The rows of some pairs under the first predecessor that is scanned. -/
def ownerRows (items : List PhraseToken) (pairs : List (PhraseToken × BitVec 32)) : List Event :=
  (items.find? scans).elim [] fun owner => pairs.flatMap (pairRows source owner)

/-- The pairs of a gram, none of one that cannot be read. -/
def gramPairs (token : PhraseToken) : List (PhraseToken × BitVec 32) := (source.gram token).toOption.getD []

/-- The rows of some predecessors in their order, each gram's in its order. -/
def exported : List PhraseToken → List Event
  | [] => []
  | token :: items => ownerRows source (token :: items) (gramPairs source token) ++ exported items

/-- The gram of a predecessor can be read. -/
def readable (token : PhraseToken) : Bool := (source.gram token).isOk

/-- The fault of the first gram that cannot be read. -/
def firstFault : List PhraseToken → List Event
  | [] => []
  | token :: items =>
    match source.gram token with
    | .error fault => [.fault fault]
    | .ok _ => firstFault items

/-- What the loaded pair still has to hand out. -/
def currentRows (walk : BigramExportWalk) : List Event :=
  if walk.pair.isSome then
    (walk.pinyins.drop walk.pinyinIndex).map fun pinyin => .row walk.pair ⟨pinyin, (walk.count * 2).toInt⟩
  else []

/-- The rows of a queue under its predecessor, if that is scanned. -/
def queueRows (token : PhraseToken) (queue : List (PhraseToken × BitVec 32)) : List Event :=
  if scans token then queue.flatMap (pairRows source token) else []

/-- What the walk finds from a queue on. -/
def pendingRows : PhraseToken → List (PhraseToken × BitVec 32) → List PhraseToken → List Event
  | token, queue, [] => queueRows source token queue
  | token, queue, next :: items =>
    queueRows source token queue ++
      match source.gram next with
      | .error fault => [.fault fault]
      | .ok gram => pendingRows next ((if scans token then [] else queue) ++ gram) items

/-- What the walk has still to hand out. -/
def remaining (walk : BigramExportWalk) : List Event :=
  walk.currentRows ++ pendingRows source walk.indexToken walk.phraseTokens walk.items

/-- A row is at hand. -/
structure Ready (walk : BigramExportWalk) : Prop where
  pair : walk.pair.isSome = true
  pinyin : walk.pinyinIndex < walk.pinyins.length
  scans : scans walk.indexToken = true

end Rows

/-! ## The walk hands out what remains -/

section Laws

variable {source : ExportSource}

variable {token : PhraseToken} {rows : List Event}

theorem pendingRows_found {queue rest : List (PhraseToken × BitVec 32)}
    (h : queueRows source token queue = rows ++ queueRows source token rest) (hscans : scans token = true)
    (items : List PhraseToken) :
    pendingRows source token queue items = rows ++ pendingRows source token rest items := by
  cases items with
  | nil => exact h
  | cons next items =>
    rw [pendingRows, pendingRows, h, if_pos hscans, if_pos hscans, append_assoc]

variable {walk : BigramExportWalk}

theorem remaining_of_pinyins (h : walk.pinyins = []) :
    remaining source walk = pendingRows source walk.indexToken walk.phraseTokens walk.items := by
  rw [remaining, currentRows, h, drop_nil, map_nil, ite_self, nil_append]

/-- What an answer means for the rows that remained before it. -/
inductive Answers (source : ExportSource) (items : List PhraseToken) (rows : List Event) :
    Except GramLoadFault Bool × BigramExportWalk → Prop
  | found {next : BigramExportWalk} (hready : next.Ready) (hrows : remaining source next = rows) :
    Answers source items rows (.ok true, next)
  /-- The last gram may wait to be scanned. -/
  | ended {next : BigramExportWalk} (hpinyins : next.pinyins = []) (hitems : next.items = [])
    (hrows : remaining source next = rows) (hlast : items = [] → rows = []) :
    Answers source items rows (.ok false, next)
  | faulty {fault : GramLoadFault} {next : BigramExportWalk} (hpinyins : next.pinyins = [])
    (hrows : rows = [.fault fault]) (hnext : remaining source next = []) :
    Answers source items rows (.error fault, next)

theorem Answers.of_cons {items : List PhraseToken}
    {answer : Except GramLoadFault Bool × BigramExportWalk} (h : Answers source items rows answer) :
    Answers source (token :: items) rows answer := by
  cases h with
  | found hready hrows => exact .found hready hrows
  | ended hpinyins hitems hrows hlast => exact .ended hpinyins hitems hrows fun h => (cons_ne_nil _ _ h).elim
  | faulty hpinyins hrows hnext => exact .faulty hpinyins hrows hnext

variable (hrender : ∀ token, (rendered source token).2 ≠ [])

include hrender

/-- A loaded pair has rows, which are those of the pair. -/
theorem currentRows_loadRow (walk : BigramExportWalk) (hindex : walk.pinyinIndex = 0) (token : PhraseToken)
    {count : BitVec 32} (hcount : exportThreshold < count) :
    (walk.loadRow source token count).currentRows = pairRows source walk.indexToken (token, count) ∧
      0 < (walk.loadRow source token count).pinyins.length := by
  constructor
  · simp only [currentRows, loadRow, pairRows, hindex, hcount, map_flatMap, Option.isSome_some, if_true,
      drop_zero, map_map]
    rfl
  · obtain ⟨first, hfirst⟩ := exists_mem_of_ne_nil _ (hrender walk.indexToken)
    obtain ⟨second, hsecond⟩ := exists_mem_of_ne_nil _ (hrender token)
    exact length_pos_of_mem (mem_flatMap.mpr ⟨first, hfirst, mem_map_of_mem hsecond⟩)

/-- The scan of a queue loads its first pair with rows, or ends it. -/
theorem scanTokens_spec : ∀ (queue : List (PhraseToken × BitVec 32)) (walk : BigramExportWalk),
    walk.pinyinIndex = 0 → scans walk.indexToken = true →
    (scanTokens source queue walk = (false, { walk with phraseTokens := [] }) ∧
      queueRows source walk.indexToken queue = []) ∨
    ∃ next, scanTokens source queue walk = (true, next) ∧ next.Ready ∧ next.indexToken = walk.indexToken ∧
      queueRows source walk.indexToken queue = next.currentRows ++ queueRows source walk.indexToken next.phraseTokens
  | [], walk, _, _ => Or.inl ⟨rfl, by simp [queueRows]⟩
  | (token, count) :: rest, walk, hindex, hscans => by
    rw [scanTokens]
    by_cases hcount : exportThreshold < count
    · obtain ⟨hrows, hlength⟩ := currentRows_loadRow hrender walk hindex token hcount
      rw [if_pos hcount]
      refine Or.inr ⟨_, rfl, ⟨rfl, ?_, hscans⟩, rfl, ?_⟩
      · change walk.pinyinIndex < _
        rw [hindex]
        exact hlength
      · change _ = (walk.loadRow source token count).currentRows ++ _
        rw [hrows, queueRows, queueRows, if_pos hscans, if_pos hscans, flatMap_cons]
    · have hnone : queueRows source walk.indexToken ((token, count) :: rest) =
          queueRows source walk.indexToken rest := by
        simp [queueRows, pairRows, hcount]
      rw [if_neg hcount, hnone]
      exact scanTokens_spec rest walk hindex hscans

/-- One scan of the loop finds a pair with rows, or the queue has none. -/
theorem scan_cases (walk : BigramExportWalk) (hindex : walk.pinyinIndex = 0) :
    (∃ next, (if scans walk.indexToken then scanTokens source walk.phraseTokens walk else (false, walk)) =
      (true, next) ∧
      next.Ready ∧ next.indexToken = walk.indexToken ∧
      queueRows source walk.indexToken walk.phraseTokens =
        next.currentRows ++ queueRows source walk.indexToken next.phraseTokens) ∨
    (if scans walk.indexToken then scanTokens source walk.phraseTokens walk else (false, walk)) =
        (false, { walk with phraseTokens := if scans walk.indexToken then [] else walk.phraseTokens }) ∧
      queueRows source walk.indexToken walk.phraseTokens = [] := by
  cases hscans : scans walk.indexToken with
  | false => exact Or.inr ⟨rfl, by rw [queueRows, hscans, if_neg Bool.false_ne_true]⟩
  | true => exact (scanTokens_spec hrender walk.phraseTokens walk hindex hscans).symm

/-- The loop hands out what is pending. -/
theorem advance_answers : ∀ (items : List PhraseToken) (walk : BigramExportWalk), walk.pinyinIndex = 0 →
    walk.pinyins = [] → Answers source items (pendingRows source walk.indexToken walk.phraseTokens items)
      (advance source items walk)
  | items, walk, hindex, hpinyins => by
    unfold advance
    obtain ⟨next, hscan, hready, htoken, hrows⟩ | ⟨hscan, hrows⟩ := scan_cases hrender walk hindex
    · rw [hscan]
      refine .found ⟨hready.pair, hready.pinyin, hready.scans⟩ ?_
      rw [pendingRows_found hrows (htoken ▸ hready.scans) items, ← htoken]
      rfl
    · rw [hscan]
      cases items with
      | nil =>
        have hqueue : queueRows source walk.indexToken (if scans walk.indexToken then []
          else walk.phraseTokens) = [] := by
          unfold queueRows
          split_ifs <;> rfl
        refine .ended hpinyins rfl ?_ fun _ => hrows
        exact (remaining_of_pinyins (by exact hpinyins)).trans (hqueue.trans hrows.symm)
      | cons token items =>
        rw [pendingRows, hrows, nil_append]
        dsimp only
        rw [if_neg Bool.false_ne_true]
        cases hgram : source.gram token with
        | error fault =>
          refine .faulty hpinyins rfl ?_
          refine (remaining_of_pinyins (by exact hpinyins)).trans ?_
          simp [pendingRows, queueRows]
        | ok gram =>
          dsimp only
          cases items with
          | nil =>
            refine .ended hpinyins rfl ?_ fun h => (cons_ne_nil _ _ h).elim
            exact remaining_of_pinyins (by exact hpinyins)
          | cons next items =>
            refine .of_cons ?_
            exact advance_answers (next :: items) { walk with
              indexToken := token
              phraseTokens := (if scans walk.indexToken then [] else walk.phraseTokens) ++ gram } hindex hpinyins

/-- A walk at its start, or between its rows. -/
def Walks (walk : BigramExportWalk) : Prop :=
  walk.pinyinIndex < walk.pinyins.length → walk.pair.isSome = true ∧ scans walk.indexToken = true

theorem hasNext_answers (h : walk.Walks) : Answers source walk.items (remaining source walk)
    (hasNext source walk) := by
  unfold hasNext
  split_ifs with hat
  · exact .found ⟨hat.1, hat.2, (h hat.2).2⟩ rfl
  · have hcurrent : walk.currentRows = [] := by
      unfold currentRows
      split_ifs with hpair
      · rw [drop_eq_nil_of_le (Nat.not_lt.mp fun hlt => hat ⟨hpair, hlt⟩), map_nil]
      · rfl
    rw [remaining, hcurrent, nil_append]
    exact advance_answers hrender walk.items { walk with pinyinIndex := 0, pinyins := [] } rfl rfl

omit hrender

theorem walks_of_pinyins (h : walk.pinyins = []) : walk.Walks := fun hlt => by
  rw [h] at hlt
  cases hlt

/-- A walk with a row at hand hands it out. -/
theorem getNext_ready {walk : BigramExportWalk} (h : walk.Ready) :
    ∃ row, (∀ more next, hasNext source { walk with pinyinIndex := walk.pinyinIndex + 1 } = (more, next) →
        getNext source walk = (.row row more, next)) ∧
      remaining source walk = .row walk.pair row ::
        remaining source { walk with pinyinIndex := walk.pinyinIndex + 1 } ∧
      Walks { walk with pinyinIndex := walk.pinyinIndex + 1 } := by
  refine ⟨⟨walk.pinyins.get ⟨walk.pinyinIndex, h.pinyin⟩, (walk.count * 2).toInt⟩, fun more next hnext => ?_, ?_,
    fun _ => ⟨h.pair, h.scans⟩⟩
  · rw [getNext, if_pos h.scans, getElem?_eq_getElem h.pinyin]
    dsimp only
    rw [hnext]
    rfl
  · simp only [remaining, currentRows, h.pair, if_true]
    rw [drop_eq_getElem_cons h.pinyin, map_cons, cons_append]
    rfl

end Laws

/-! ## The caller -/

section Caller

variable {source : ExportSource} (hrender : ∀ token, (rendered source token).2 ≠ [])

include hrender

/-- With two steps for each thing to report and two to be told the end, a caller gets what remains. -/
theorem drain_remaining : ∀ (fuel : Nat) (answered : Bool) (walk : BigramExportWalk), walk.Walks →
    (answered = true → walk.items = []) → 2 * (remaining source walk).length + (if answered then 1 else 2) ≤ fuel →
    drain source fuel answered walk = some (remaining source walk)
  | 0, answered, _, _, _, hfuel => by split_ifs at hfuel <;> omega
  | fuel + 1, answered, walk, hwalks, hanswered, hfuel => by
    have hanswers := hasNext_answers hrender hwalks
    rw [drain]
    generalize hasNext source walk = answer at hanswers
    generalize hrows : remaining source walk = rows at *
    cases hanswers with
    | @faulty fault next hpinyins hfault hnext =>
      dsimp only
      subst hfault
      rw [drain_remaining fuel false next (walks_of_pinyins hpinyins)
        (fun h => (false_ne_true h).elim) ?_, hnext]
      · rfl
      · rw [hnext]
        simp only [length_singleton, length_nil, false_eq_true, if_false] at hfuel ⊢
        split_ifs at hfuel <;> omega
    | @ended next hpinyins hitems hnext hlast =>
      dsimp only
      cases answered with
      | true => rw [if_pos rfl, hlast (hanswered rfl)]
      | false =>
        rw [if_neg Bool.false_ne_true]
        rw [drain_remaining fuel true next (walks_of_pinyins hpinyins) (fun _ => hitems) ?_, hnext]
        rw [hnext]
        simpa using hfuel
    | @found next hready hnext =>
      dsimp only
      obtain ⟨row, hrow, hremaining, hnextWalks⟩ := @getNext_ready source next hready
      rw [hnext] at hremaining
      have hmore := hasNext_answers hrender hnextWalks
      generalize hanswer : hasNext source { next with pinyinIndex := next.pinyinIndex + 1 } = more at hmore
      generalize remaining source { next with pinyinIndex := next.pinyinIndex + 1 } = rest at *
      have hlength : 2 * rest.length + 2 ≤ fuel := by
        rw [hremaining] at hfuel
        simp only [length_cons] at hfuel
        split_ifs at hfuel <;> omega
      cases hmore with
      | @found after hready' hrest =>
        rw [hrow _ _ hanswer]
        dsimp only
        rw [drain_remaining fuel false after (fun _ => ⟨hready'.pair, hready'.scans⟩)
          (fun h => (false_ne_true h).elim) (by rw [hrest]; exact hlength), hrest, hremaining]
        rfl
      | @ended after hpinyins hitems hrest hlast =>
        rw [hrow _ _ hanswer]
        dsimp only
        rw [drain_remaining fuel false after (walks_of_pinyins hpinyins) (fun h => (false_ne_true h).elim)
          (by rw [hrest]; exact hlength), hrest, hremaining]
        rfl
      | @faulty fault after hpinyins hfault hrest =>
        rw [hrow _ _ hanswer]
        dsimp only
        rw [drain_remaining fuel false after (walks_of_pinyins hpinyins) (fun h => (false_ne_true h).elim)
          (by rw [hrest]; simp; omega), hrest, hremaining, hfault]
        rfl

omit hrender

/-- What is pending goes to the owners, then comes the fault. -/
theorem pendingRows_eq : ∀ (items : List PhraseToken) (token : PhraseToken) (queue : List (PhraseToken × BitVec 32)),
    pendingRows source token queue items =
      ownerRows source (token :: items.takeWhile (readable source)) queue ++
        exported source (items.takeWhile (readable source)) ++ firstFault source items
  | [], token, queue => by
    rw [pendingRows, queueRows, ownerRows, takeWhile_nil, find?_cons]
    cases scans token <;> simp [exported, firstFault]
  | next :: items, token, queue => by
    rw [pendingRows, firstFault, takeWhile_cons, readable]
    cases hgram : source.gram next with
    | error fault =>
      rw [queueRows, ownerRows, find?_cons]
      cases scans token <;> simp [exported, Except.isOk, Except.toBool]
    | ok gram =>
      have hpairs : gramPairs source next = gram := by rw [gramPairs, hgram]; rfl
      simp only [Except.isOk, Except.toBool, if_true]
      rw [pendingRows_eq items next, exported, hpairs]
      cases hscans : scans token with
      | true =>
        simp [queueRows, ownerRows, hscans]
      | false =>
        simp only [queueRows, ownerRows, hscans, find?_cons_of_neg, false_eq_true, not_false_iff, if_false,
          nil_append, append_assoc]
        cases (next :: items.takeWhile (readable source)).find? scans <;> simp

/-- A caller that asks until it is told twice that nothing is left gets the rows of the predecessors in
front of the first fault, each gram's pairs under the first predecessor from its own on that is scanned,
and then the fault. -/
theorem drain_begin (hrender : ∀ token, (rendered source token).2 ≠ []) (items : List PhraseToken) :
    ∃ enough, ∀ fuel, enough ≤ fuel → drain source fuel false (begin_ items) =
      some (exported source (items.takeWhile (readable source)) ++ firstFault source items) := by
  have hremaining : remaining source (begin_ items) =
      exported source (items.takeWhile (readable source)) ++ firstFault source items := by
    rw [remaining_of_pinyins rfl]
    change pendingRows source nullToken [] items = _
    rw [pendingRows_eq]
    simp only [ownerRows, flatMap_nil]
    cases (nullToken :: items.takeWhile (readable source)).find? scans <;> rfl
  refine ⟨2 * (remaining source (begin_ items)).length + 2, fun fuel hfuel => ?_⟩
  rw [drain_remaining hrender fuel false (begin_ items) (walks_of_pinyins rfl)
    (fun h => (Bool.false_ne_true h).elim) hfuel,
    hremaining]

end Caller

/-- A source of one gram, with every token of one text and spelling. -/
def oneGram (token : PhraseToken) (pairs : List (PhraseToken × BitVec 32)) : ExportSource where
  gram other := .ok (if other = token then pairs else [])
  render _ := some (.scalar ['a'], [[97]])

/-- The last gram comes out behind a first answer that nothing is left, the gram of the sentence start under
the predecessor behind it. -/
theorem drain_begin_start : ∃ enough, ∀ fuel, enough ≤ fuel →
    drain (oneGram sentenceStart [(16777217#32, 69#32), (16777218#32, 68#32)]) fuel false
      (begin_ [sentenceStart, 16777219#32]) =
      some [.row (some (.scalar ['a'], .scalar ['a'])) ⟨[97, apostrophe, 97], 138⟩] := by
  obtain ⟨enough, hdrain⟩ := @drain_begin (oneGram sentenceStart [(16777217#32, 69#32), (16777218#32, 68#32)])
    (fun token => cons_ne_nil _ _) [sentenceStart, 16777219#32]
  exact ⟨enough, fun fuel hfuel => (hdrain fuel hfuel).trans rfl⟩

/-- The pairs of the null token are not handed out. -/
theorem drain_null : ¬ ∀ (source : ExportSource) (items : List PhraseToken),
    (∀ token, (rendered source token).2 ≠ []) → (∀ token ∈ items, readable source token = true) →
    ∀ token ∈ items, token ≠ sentenceStart → ∀ pair ∈ gramPairs source token, exportThreshold < pair.2 →
      ∃ fuel events, drain source fuel false (begin_ items) = some events ∧
        ∀ row ∈ pairRows source token pair, row ∈ events := by
  intro h
  obtain ⟨fuel, events, hdrain, hrows⟩ := h (oneGram nullToken [(16777217#32, 69#32)]) [nullToken]
    (fun token => cons_ne_nil _ _) (fun token _ => rfl) nullToken mem_cons_self (by decide)
    (16777217#32, 69#32) mem_cons_self (by decide)
  have hnone : events = [] := by
    cases fuel with
    | zero => cases hdrain
    | succ fuel =>
      cases fuel with
      | zero => cases hdrain
      | succ fuel => exact (Option.some.inj hdrain).symm
  subst hnone
  exact not_mem_nil (hrows _ mem_cons_self)

end BigramExportWalk

end Oxpinyin
