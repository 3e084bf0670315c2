import Oxpinyin.CursorColumns

/-!
# Remembering a phrase

The walk over the columns of a parse that stores every reading of a phrase. It goes down the columns
from the first, keeps the keys that the caller's test accepts and hands every complete path to the
caller. `rememberWalk_spec` : the calls are those of the plain list of paths, in its order, and the
answer is the disjunction of theirs, those behind a column that holds keys and a zero key apart.
-/

namespace Oxpinyin.CharOffset

open List CharOffset

/-- The columns of a parse that placed a key. -/
structure MatrixColumns where
  columns : List Column
  /-- The parsed length, where a complete walk ends. -/
  stop : Nat
  /-- A zero key is one byte long. -/
  zero : ∀ (position : Nat) (column : Column) (zeroEnd : Nat), columns[position]? = some column →
    column.zeroEnd = some zeroEnd →
    zeroEnd = position + 1
  /-- A key is in the column of its start. -/
  placed : ∀ (position : Nat) (column : Column) (key : MatrixKey), columns[position]? = some column →
    key ∈ column.real → key.syllableStart = position

theorem zeroEnd_eq {columns : Cursor.Columns} {position zeroEnd : Nat} (h : columns.zeroEnd position = some zeroEnd) :
    zeroEnd = position + 1 := by
  unfold Cursor.Columns.zeroEnd at h
  split_ifs at h <;> simpa using h.symm

/-- What a built column holds. -/
theorem buildColumns_column {input : Bytes} (hinput : input ≠ []) {parsedLen : Nat} {keys : List MatrixKey}
    {separators : Bool} {position : Nat} {column : Column}
    (h : (buildColumns input parsedLen keys separators)[position]? = some column) :
    (∀ zeroEnd, column.zeroEnd = some zeroEnd → zeroEnd = position + 1) ∧
      ∀ key ∈ column.real, key.syllableStart = position := by
  rw [getElem?_buildColumns hinput] at h
  split_ifs at h
  cases h
  exact ⟨fun zeroEnd hzero => zeroEnd_eq hzero, fun key hkey => beq_iff_eq.mp (mem_filter.mp hkey).2⟩

/-- The columns of a parse, none for the empty matrix. -/
def matrixColumns (input : Bytes) (parsedLen : Nat) (keys : List MatrixKey) (separators : Bool) :
    Option MatrixColumns :=
  if h : input = [] ∨ keys = [] then none
  else some
    { columns := buildColumns input parsedLen keys separators
      stop := min parsedLen input.length
      zero := fun _ _ zeroEnd hcolumn => (buildColumns_column (fun hinput => h (Or.inl hinput)) hcolumn).1 zeroEnd
      placed := fun _ _ key hcolumn => (buildColumns_column (fun hinput => h (Or.inl hinput)) hcolumn).2 key }

/-! ## The walk -/

/-- What a walk leaves : the state, the calls it made with their answers, and its own. -/
structure Remembered (σ ε : Type) where
  state : σ
  calls : List (List MatrixKey)
  answer : Except ε Bool

namespace Remembered

variable {σ ε : Type}

/-- Goes on where a walk ended, unless it failed. -/
def andThen (first : Remembered σ ε) (next : σ → Remembered σ ε) : Remembered σ ε :=
  match first.answer with
  | .error _ => first
  | .ok answer =>
    let rest := next first.state
    ⟨rest.state, first.calls ++ rest.calls, rest.answer.map (answer || ·)⟩

/-- Answers false for a walk that did not fail. -/
def dropAnswer (walked : Remembered σ ε) : Remembered σ ε :=
  { walked with answer := walked.answer.map fun _ => false }

end Remembered

open Remembered

section Walk

variable {σ ε : Type} (columns : MatrixColumns) (phraseLength : Nat)
  (pronounces : MatrixKey → Nat → σ → σ × Except ε Bool) (add : List MatrixKey → σ → σ × Except ε Bool)

/-- The keys of a column, each with the walk behind it where the test accepts it. -/
def eachKey (index : Nat) (walkOn : MatrixKey → σ → Remembered σ ε) : List MatrixKey → σ → Remembered σ ε
  | [], s => ⟨s, [], .ok false⟩
  | key :: keys, s =>
    match pronounces key index s with
    | (s, .error e) => ⟨s, [], .error e⟩
    | (s, .ok false) => eachKey index walkOn keys s
    | (s, .ok true) => (walkOn key s).andThen (eachKey index walkOn keys)

/-- The walk from a position, behind the keys chosen so far. -/
def rememberRecur (start : Nat) (path : List MatrixKey) (s : σ) : Remembered σ ε :=
  if columns.stop < start then ⟨s, [], .ok false⟩
  else if start = columns.stop then
    if path.length ≠ phraseLength ∨ path = [] then ⟨s, [], .ok false⟩
    else
      let called := add path s
      ⟨called.1, [path], called.2⟩
  else
    match _hcolumn : columns.columns[start]? with
    | none => ⟨s, [], .ok false⟩
    | some column =>
      if column.real = [] then
        match _hzero : column.zeroEnd with
        | none => ⟨s, [], .ok false⟩
        | some zeroEnd => rememberRecur zeroEnd path s
      else if path.length < phraseLength then
        let walked := eachKey pronounces path.length (fun key s =>
          rememberRecur key.stop (path ++ [key]) s) column.real s
        -- a zero key behind the keys drops what they answered
        if column.zeroEnd.isSome then walked.dropAnswer else walked
      else ⟨s, [], .ok false⟩
termination_by (phraseLength - path.length, columns.stop - start)
decreasing_by
  · have hnext := columns.zero start column zeroEnd _hcolumn _hzero
    right
    omega
  · have hlength : (path ++ [key]).length = path.length + 1 := List.length_append
    left
    omega

def rememberWalk (s : σ) : Remembered σ ε := rememberRecur columns phraseLength pronounces add 0 [] s

/-! ## Key paths -/

/-- The complete paths of `length` keys from a position, depth first in the order of the columns. -/
def keyPaths (length start : Nat) : List (List MatrixKey) :=
  if columns.stop < start then []
  else if start = columns.stop then if length = 0 then [[]] else []
  else
    match _hcolumn : columns.columns[start]? with
    | none => []
    | some column =>
      if column.real = [] then
        match _hzero : column.zeroEnd with
        | none => []
        | some zeroEnd => keyPaths length zeroEnd
      else
        match length with
        | 0 => []
        | length + 1 => column.real.flatMap fun key => (keyPaths length key.stop).map (key :: ·)
termination_by (length, columns.stop - start)
decreasing_by
  · have hnext := columns.zero start column zeroEnd _hcolumn _hzero
    omega
  · left
    omega

/-- A complete path : keys of its columns, with lone zero keys stepped over. -/
inductive CompletePath : Nat → List MatrixKey → Prop
  | done : CompletePath columns.stop []
  | zero {start zeroEnd : Nat} {column : Column} {path : List MatrixKey} (inside : start < columns.stop)
      (at_ : columns.columns[start]? = some column) (lone : column.real = []) (step : column.zeroEnd = some zeroEnd)
      (behind : CompletePath zeroEnd path) : CompletePath start path
  | key {start : Nat} {column : Column} {key : MatrixKey} {path : List MatrixKey} (inside : start < columns.stop)
      (at_ : columns.columns[start]? = some column) (placed : key ∈ column.real)
      (behind : CompletePath key.stop path) :
      CompletePath start (key :: path)

/-- The test accepts every key of a path, by its place in it. -/
def acceptedFrom (accepts : MatrixKey → Nat → Bool) : Nat → List MatrixKey → Bool
  | _, [] => true
  | index, key :: path => accepts key index && acceptedFrom accepts (index + 1) path

/-- No key of a path shares its column with a zero key. -/
def unshared (path : List MatrixKey) : Bool :=
  path.all fun key => (columns.columns[key.syllableStart]?).all fun column => column.zeroEnd.isNone

/-- Hands paths to the caller, up to the first that fails, with the disjunction of the answers that are
kept. -/
def addAll : List (List MatrixKey × Bool) → σ → Remembered σ ε
  | [], s => ⟨s, [], .ok false⟩
  | (path, kept) :: paths, s =>
    let called := add path s
    Remembered.andThen ⟨called.1, [path], called.2.map (· && kept)⟩ (addAll paths)

variable {columns phraseLength pronounces add}

/-! ## One column at a time -/

section Column

variable {start zeroEnd : Nat} {column : Column} {path : List MatrixKey} {s : σ}

theorem rememberRecur_stop : rememberRecur columns phraseLength pronounces add columns.stop path s =
    if path.length ≠ phraseLength ∨ path = [] then ⟨s, [], .ok false⟩
    else ⟨(add path s).1, [path], (add path s).2⟩ := by
  rw [rememberRecur, if_neg (Nat.lt_irrefl _), if_pos rfl]

theorem rememberRecur_past (h : columns.stop < start) :
    rememberRecur columns phraseLength pronounces add start path s = ⟨s, [], .ok false⟩ := by
  rw [rememberRecur, if_pos h]

theorem rememberRecur_none (h : start < columns.stop) (hcolumn : columns.columns[start]? = none) :
    rememberRecur columns phraseLength pronounces add start path s = ⟨s, [], .ok false⟩ := by
  rw [rememberRecur, if_neg (Nat.lt_asymm h), if_neg (Nat.ne_of_lt h)]
  split
  · rfl
  · rename_i heq
    rw [hcolumn] at heq
    cases heq

theorem rememberRecur_lone (h : start < columns.stop) (hcolumn : columns.columns[start]? = some column)
    (hreal : column.real = []) : rememberRecur columns phraseLength pronounces add start path s =
      column.zeroEnd.elim ⟨s, [], .ok false⟩ fun zeroEnd =>
        rememberRecur columns phraseLength pronounces add zeroEnd path s := by
  rw [rememberRecur, if_neg (Nat.lt_asymm h), if_neg (Nat.ne_of_lt h)]
  split
  · rename_i heq
    rw [hcolumn] at heq
    cases heq
  · rename_i found heq
    rw [hcolumn] at heq
    cases heq
    rw [if_pos hreal]
    split
    · rename_i hzero
      rw [hzero]
      rfl
    · rename_i hzero
      rw [hzero]
      rfl

theorem rememberRecur_keys (h : start < columns.stop) (hcolumn : columns.columns[start]? = some column)
    (hreal : column.real ≠ []) : rememberRecur columns phraseLength pronounces add start path s =
      if path.length < phraseLength then
        let walked := eachKey pronounces path.length
          (fun key s => rememberRecur columns phraseLength pronounces add key.stop (path ++ [key]) s) column.real s
        if column.zeroEnd.isSome then walked.dropAnswer else walked
      else ⟨s, [], .ok false⟩ := by
  conv_lhs => rw [rememberRecur]
  rw [if_neg (Nat.lt_asymm h), if_neg (Nat.ne_of_lt h)]
  split
  · rename_i heq
    rw [hcolumn] at heq
    cases heq
  · rename_i found heq
    rw [hcolumn] at heq
    cases heq
    rw [if_neg hreal]

theorem keyPaths_stop (length : Nat) : keyPaths columns length columns.stop = if length = 0 then [[]] else [] := by
  rw [keyPaths, if_neg (Nat.lt_irrefl _), if_pos rfl]

theorem keyPaths_past (length : Nat) (h : columns.stop < start) : keyPaths columns length start = [] := by
  rw [keyPaths, if_pos h]

section

variable (length : Nat) (h : start < columns.stop)
include h

theorem keyPaths_none (hcolumn : columns.columns[start]? = none) : keyPaths columns length start = [] := by
  rw [keyPaths, if_neg (Nat.lt_asymm h), if_neg (Nat.ne_of_lt h)]
  split
  · rfl
  · rename_i heq
    rw [hcolumn] at heq
    cases heq

theorem keyPaths_lone (hcolumn : columns.columns[start]? = some column) (hreal : column.real = []) :
    keyPaths columns length start = column.zeroEnd.elim [] (keyPaths columns length) := by
  rw [keyPaths, if_neg (Nat.lt_asymm h), if_neg (Nat.ne_of_lt h)]
  split
  · rename_i heq
    rw [hcolumn] at heq
    cases heq
  · rename_i found heq
    rw [hcolumn] at heq
    cases heq
    rw [if_pos hreal]
    split
    · rename_i hzero
      rw [hzero]
      rfl
    · rename_i hzero
      rw [hzero]
      rfl

theorem keyPaths_keys (hcolumn : columns.columns[start]? = some column) (hreal : column.real ≠ []) :
    keyPaths columns (length + 1) start =
      column.real.flatMap fun key => (keyPaths columns length key.stop).map (key :: ·) := by
  rw [keyPaths, if_neg (Nat.lt_asymm h), if_neg (Nat.ne_of_lt h)]
  split
  · rename_i heq
    rw [hcolumn] at heq
    cases heq
  · rename_i found heq
    rw [hcolumn] at heq
    cases heq
    rw [if_neg hreal]

end

theorem keyPaths_full (h : start < columns.stop) (hcolumn : columns.columns[start]? = some column)
    (hreal : column.real ≠ []) : keyPaths columns 0 start = [] := by
  rw [keyPaths, if_neg (Nat.lt_asymm h), if_neg (Nat.ne_of_lt h)]
  split
  · rfl
  · rename_i found heq
    rw [hcolumn] at heq
    cases heq
    rw [if_neg hreal]

end Column

/-! ## The calls -/

namespace Remembered

variable {first : Remembered σ ε} {next last : σ → Remembered σ ε}

@[simp] theorem andThen_nothing (s : σ) (next : σ → Remembered σ ε) : andThen ⟨s, [], .ok false⟩ next = next s := by
  unfold andThen
  cases h : next s with
  | mk state calls answer => cases answer <;> rfl

theorem andThen_assoc : (first.andThen next).andThen last = first.andThen fun s => (next s).andThen last := by
  obtain ⟨state, calls, answer⟩ := first
  cases answer with
  | error e => rfl
  | ok answer =>
    unfold andThen
    dsimp only
    cases hnext : (next state).answer with
    | error e => simp [Except.map, hnext]
    | ok found =>
      cases (last (next state).state).answer <;> simp [Except.map, Bool.or_assoc]

theorem dropAnswer_andThen : (first.andThen next).dropAnswer =
    first.dropAnswer.andThen fun s => (next s).dropAnswer := by
  obtain ⟨state, calls, answer⟩ := first
  cases answer with
  | error e => rfl
  | ok answer =>
    unfold andThen dropAnswer
    dsimp only [Except.map]
    cases (next state).answer <;> rfl

/-- The calls of a walk that goes on are the first ones and some of the later. -/
theorem calls_andThen {front back : List (List MatrixKey)} (hfirst : first.calls.Sublist front)
    (hnext : ∀ s, (next s).calls.Sublist back) : (first.andThen next).calls.Sublist (front ++ back) := by
  unfold andThen
  cases first.answer with
  | error e => exact hfirst.trans (sublist_append_left _ _)
  | ok answer => exact hfirst.append (hnext _)

end Remembered

theorem addAll_append : ∀ (front back : List (List MatrixKey × Bool)) (s : σ),
    addAll add (front ++ back) s = (addAll add front s).andThen (addAll add back)
  | [], back, s => by
    rw [nil_append, addAll, andThen_nothing]
  | (path, kept) :: front, back, s => by
    rw [cons_append, addAll, addAll]
    rw [andThen_assoc]
    congr 1
    exact funext (addAll_append front back)

/-- Calls whose answers are not kept. -/
theorem addAll_dropped : ∀ (paths : List (List MatrixKey × Bool)) (s : σ),
    addAll add (paths.map fun entry => (entry.1, false)) s = (addAll add paths s).dropAnswer
  | [], s => rfl
  | (path, kept) :: paths, s => by
    rw [map_cons, addAll, addAll]
    rw [dropAnswer_andThen]
    have hrest : addAll add (paths.map fun entry => (entry.1, false)) = fun s => (addAll add paths s).dropAnswer :=
      funext (addAll_dropped paths)
    rw [hrest, dropAnswer]
    cases (add path s).2 <;> simp [Except.map]

/-- The keys of a column bring the calls of the accepted ones. -/
theorem eachKey_eq {accepts : MatrixKey → Nat → Bool}
    (hpure : ∀ key index s, pronounces key index s = (s, .ok (accepts key index))) {index : Nat}
    {walkOn : MatrixKey → σ → Remembered σ ε} {target : MatrixKey → List (List MatrixKey × Bool)} :
    ∀ {keys : List MatrixKey}, (∀ key ∈ keys, ∀ s, walkOn key s = addAll add (target key) s) → ∀ s,
      eachKey pronounces index walkOn keys s =
        addAll add (keys.flatMap fun key => if accepts key index then target key else []) s
  | [], _, _ => rfl
  | key :: keys, h, s => by
    have hrest : ∀ s, eachKey pronounces index walkOn keys s =
        addAll add (keys.flatMap fun key => if accepts key index then target key else []) s :=
      eachKey_eq hpure fun later hlater => h later (mem_cons_of_mem _ hlater)
    rw [eachKey, hpure, flatMap_cons, addAll_append]
    cases accepts key index with
    | false => simpa [addAll] using hrest s
    | true =>
      dsimp only
      rw [h key mem_cons_self, if_pos rfl]
      congr 1
      exact funext hrest

/-- The accepted paths of a column, by its keys. -/
theorem accepted_cons {γ : Type} {accepts : MatrixKey → Nat → Bool} {length index : Nat} {f : List MatrixKey → γ}
    {g : MatrixKey → List MatrixKey → γ} : ∀ {real : List MatrixKey},
    (∀ key ∈ real, ∀ rest, f (key :: rest) = g key rest) →
      ((real.flatMap fun key => (keyPaths columns length key.stop).map (key :: ·)).filter
        (acceptedFrom accepts index)).map f =
        real.flatMap fun key => if accepts key index then
          ((keyPaths columns length key.stop).filter (acceptedFrom accepts (index + 1))).map (g key) else []
  | [], _ => rfl
  | key :: real, h => by
    rw [flatMap_cons, flatMap_cons, filter_append, map_append,
      accepted_cons fun later hlater => h later (mem_cons_of_mem _ hlater)]
    congr 1
    rw [filter_map]
    cases hkey : accepts key index with
    | false =>
      have hnone : acceptedFrom accepts index ∘ (key :: ·) = fun _ => false := by
        funext rest
        simp [acceptedFrom, hkey]
      rw [hnone]
      simp
    | true =>
      have hrest : acceptedFrom accepts index ∘ (key :: ·) = acceptedFrom accepts (index + 1) := by
        funext rest
        simp [acceptedFrom, hkey]
      rw [hrest, if_pos rfl, map_map]
      exact map_congr_left fun rest _ => h key mem_cons_self rest

/-- A key shares its column as the column says. -/
theorem unshared_cons {start : Nat} {column : Column} (hcolumn : columns.columns[start]? = some column)
    {key : MatrixKey} (hkey : key ∈ column.real) (rest : List MatrixKey) :
    unshared columns (key :: rest) = (column.zeroEnd.isNone && unshared columns rest) := by
  rw [unshared, all_cons, columns.placed start column key hcolumn hkey, hcolumn, Option.all_some]
  rfl

/-- The accepted paths behind the keys chosen so far, with whether their answers are kept. -/
def acceptedPaths (columns : MatrixColumns) (phraseLength : Nat) (accepts : MatrixKey → Nat → Bool) (start : Nat)
    (path : List MatrixKey) : List (List MatrixKey × Bool) :=
  ((keyPaths columns (phraseLength - path.length) start).filter (acceptedFrom accepts path.length)).map fun rest =>
    (path ++ rest, unshared columns rest)

/-- A walk makes the calls of the accepted paths, by induction on the keys left and on the columns
left. -/
theorem rememberRecur_eq {accepts : MatrixKey → Nat → Bool} (hpos : 0 < phraseLength)
    (hpure : ∀ key index s, pronounces key index s = (s, .ok (accepts key index))) (start : Nat)
    (path : List MatrixKey)
    (s : σ) (hroom : path.length ≤ phraseLength) : rememberRecur columns phraseLength pronounces add start path s =
      addAll add (acceptedPaths columns phraseLength accepts start path) s := by
  unfold acceptedPaths
  rcases Nat.lt_trichotomy start columns.stop with hlt | rfl | hgt
  · cases hcolumn : columns.columns[start]? with
    | none =>
      rw [rememberRecur_none hlt hcolumn, keyPaths_none _ hlt hcolumn]
      rfl
    | some column =>
      by_cases hreal : column.real = []
      · rw [rememberRecur_lone hlt hcolumn hreal, keyPaths_lone _ hlt hcolumn hreal]
        cases hzero : column.zeroEnd with
        | none => rfl
        | some zeroEnd =>
          have hnext := columns.zero start column zeroEnd hcolumn hzero
          exact rememberRecur_eq hpos hpure zeroEnd path s hroom
      · rw [rememberRecur_keys hlt hcolumn hreal]
        by_cases hmore : path.length < phraseLength
        · have hleft : phraseLength - path.length = (phraseLength - (path.length + 1)) + 1 := by omega
          have hlength : ∀ key : MatrixKey, (path ++ [key]).length = path.length + 1 := fun key => by simp
          have hwalk := @eachKey_eq σ ε pronounces add accepts hpure path.length
            (fun key s => rememberRecur columns phraseLength pronounces add key.stop (path ++ [key]) s)
            (fun key => acceptedPaths columns phraseLength accepts key.stop (path ++ [key])) column.real
            (fun key _ s => rememberRecur_eq hpos hpure key.stop (path ++ [key]) s (by rw [hlength]; omega)) s
          rw [if_pos hmore, hleft, keyPaths_keys _ hlt hcolumn hreal]
          dsimp only
          rw [hwalk]
          cases hzero : column.zeroEnd with
          | none =>
            rw [accepted_cons (g := fun key rest => ((path ++ [key]) ++ rest, unshared columns rest)) fun key
              hkey rest => by
              rw [unshared_cons hcolumn hkey, hzero]
              simp]
            simp only [acceptedPaths, hlength]
            rfl
          | some zeroEnd =>
            rw [accepted_cons (g := fun key rest => ((path ++ [key]) ++ rest, false)) fun key hkey rest => by
              rw [unshared_cons hcolumn hkey, hzero]
              simp]
            rw [Option.isSome_some, if_pos rfl, ← addAll_dropped, map_flatMap]
            congr 1
            refine flatMap_congr fun key _ => ?_
            simp only [acceptedPaths, hlength]
            split_ifs <;> simp
        · rw [if_neg hmore, Nat.sub_eq_zero_of_le (Nat.le_of_not_lt hmore), keyPaths_full hlt hcolumn hreal]
          rfl
  · rw [rememberRecur_stop, keyPaths_stop]
    by_cases hdone : path.length = phraseLength
    · have hne : path ≠ [] := fun hnil => by
        rw [hnil, length_nil] at hdone
        omega
      have hlist : ([[]].filter (acceptedFrom accepts path.length)).map
          (fun rest => (path ++ rest, unshared columns rest)) = [(path, true)] := by
        simp [acceptedFrom, unshared]
      rw [if_neg (by simp [hdone, hne]), if_pos (by omega), hlist, addAll, andThen]
      generalize add path s = called
      obtain ⟨s', answer⟩ := called
      cases answer <;> simp [Except.map, addAll]
    · rw [if_pos (Or.inl hdone), if_neg (by omega)]
      rfl
  · rw [rememberRecur_past hgt, keyPaths_past _ hgt]
    rfl
termination_by (phraseLength - path.length, columns.stop - start)
decreasing_by
  · right
    omega
  · have hstep : (path ++ [key]).length = path.length + 1 := List.length_append
    left
    omega

/-- The calls over the keys of a column are some of those behind each. -/
theorem calls_eachKey {index : Nat} {walkOn : MatrixKey → σ → Remembered σ ε}
    {target : MatrixKey → List (List MatrixKey)} :
    ∀ {keys : List MatrixKey}, (∀ key ∈ keys, ∀ s, (walkOn key s).calls.Sublist (target key)) → ∀ s,
      (eachKey pronounces index walkOn keys s).calls.Sublist (keys.flatMap target)
  | [], _, _ => List.Sublist.refl _
  | key :: keys, h, s => by
    have hrest : ∀ s, (eachKey pronounces index walkOn keys s).calls.Sublist (keys.flatMap target) :=
      calls_eachKey fun later hlater => h later (mem_cons_of_mem _ hlater)
    rw [eachKey, flatMap_cons]
    rcases pronounces key index s with ⟨s', e | _ | _⟩
    · exact nil_sublist _
    · exact (hrest s').trans (sublist_append_right _ _)
    · exact calls_andThen (h key mem_cons_self s') hrest

/-- Whatever the test answers, the calls are some of the complete paths, in their order. -/
theorem calls_rememberRecur (start : Nat) (path : List MatrixKey) (s : σ) (hroom : path.length ≤ phraseLength) :
    (rememberRecur columns phraseLength pronounces add start path s).calls.Sublist
      ((keyPaths columns (phraseLength - path.length) start).map (path ++ ·)) := by
  rcases Nat.lt_trichotomy start columns.stop with hlt | rfl | hgt
  · cases hcolumn : columns.columns[start]? with
    | none =>
      rw [rememberRecur_none hlt hcolumn]
      exact nil_sublist _
    | some column =>
      by_cases hreal : column.real = []
      · rw [rememberRecur_lone hlt hcolumn hreal, keyPaths_lone _ hlt hcolumn hreal]
        cases hzero : column.zeroEnd with
        | none => exact nil_sublist _
        | some zeroEnd =>
          have hnext := columns.zero start column zeroEnd hcolumn hzero
          exact calls_rememberRecur zeroEnd path s hroom
      · rw [rememberRecur_keys hlt hcolumn hreal]
        by_cases hmore : path.length < phraseLength
        · have hleft : phraseLength - path.length = (phraseLength - (path.length + 1)) + 1 := by omega
          have hlength : ∀ key : MatrixKey, (path ++ [key]).length = path.length + 1 := fun key => by simp
          have hcalls := @calls_eachKey σ ε pronounces path.length
            (fun key s => rememberRecur columns phraseLength pronounces add key.stop (path ++ [key]) s)
            (fun key => (keyPaths columns (phraseLength - (path.length + 1)) key.stop).map (path ++ key :: ·))
              column.real
            (fun key _ s => by
              have hbehind := calls_rememberRecur key.stop (path ++ [key]) s (by rw [hlength]; omega)
              rw [hlength] at hbehind
              simpa using hbehind) s
          rw [if_pos hmore, hleft, keyPaths_keys _ hlt hcolumn hreal, map_flatMap]
          have hpaths : (column.real.flatMap fun key =>
              ((keyPaths columns (phraseLength - (path.length + 1)) key.stop).map (key :: ·)).map (path ++ ·)) =
                column.real.flatMap fun key =>
                  (keyPaths columns (phraseLength - (path.length + 1)) key.stop).map (path ++ key :: ·) :=
            flatMap_congr fun key _ => by rw [map_map]; rfl
          rw [hpaths]
          dsimp only
          split_ifs
          · exact hcalls
          · exact hcalls
        · rw [if_neg hmore]
          exact nil_sublist _
  · rw [rememberRecur_stop, keyPaths_stop]
    split_ifs with hdone hleft hleft
    · exact nil_sublist _
    · exact nil_sublist _
    · simp
    · rw [not_or, not_not] at hdone
      omega
  · rw [rememberRecur_past hgt]
    exact nil_sublist _
termination_by (phraseLength - path.length, columns.stop - start)
decreasing_by
  · right
    omega
  · have hstep : (path ++ [key]).length = path.length + 1 := List.length_append
    left
    omega

/-- Without room for a key nothing is called. -/
theorem rememberRecur_zero (start : Nat) (s : σ) :
    rememberRecur columns 0 pronounces add start [] s = ⟨s, [], .ok false⟩ := by
  rcases Nat.lt_trichotomy start columns.stop with hlt | rfl | hgt
  · cases hcolumn : columns.columns[start]? with
    | none => exact rememberRecur_none hlt hcolumn
    | some column =>
      by_cases hreal : column.real = []
      · rw [rememberRecur_lone hlt hcolumn hreal]
        cases hzero : column.zeroEnd with
        | none => rfl
        | some zeroEnd =>
          have hnext := columns.zero start column zeroEnd hcolumn hzero
          exact rememberRecur_zero zeroEnd s
      · rw [rememberRecur_keys hlt hcolumn hreal, length_nil, if_neg (Nat.lt_irrefl _)]
  · rw [rememberRecur_stop, if_pos (Or.inr rfl)]
  · exact rememberRecur_past hgt
termination_by columns.stop - start

/-- The list of paths holds the complete paths of its length. -/
theorem mem_keyPaths {length start : Nat} {path : List MatrixKey} :
    path ∈ keyPaths columns length start ↔ CompletePath columns start path ∧ path.length = length := by
  constructor
  · intro hpath
    rcases Nat.lt_trichotomy start columns.stop with hlt | rfl | hgt
    · cases hcolumn : columns.columns[start]? with
      | none =>
        rw [keyPaths_none _ hlt hcolumn] at hpath
        cases hpath
      | some column =>
        by_cases hreal : column.real = []
        · rw [keyPaths_lone _ hlt hcolumn hreal] at hpath
          cases hzero : column.zeroEnd with
          | none =>
            rw [hzero] at hpath
            cases hpath
          | some zeroEnd =>
            rw [hzero] at hpath
            have hnext := columns.zero start column zeroEnd hcolumn hzero
            obtain ⟨hbehind, hlength⟩ := mem_keyPaths.mp hpath
            exact ⟨.zero hlt hcolumn hreal hzero hbehind, hlength⟩
        · cases length with
          | zero =>
            rw [keyPaths_full hlt hcolumn hreal] at hpath
            cases hpath
          | succ length =>
            rw [keyPaths_keys _ hlt hcolumn hreal] at hpath
            obtain ⟨key, hkey, hpath⟩ := mem_flatMap.mp hpath
            obtain ⟨rest, hrest, rfl⟩ := mem_map.mp hpath
            obtain ⟨hbehind, rfl⟩ := mem_keyPaths.mp hrest
            exact ⟨.key hlt hcolumn hkey hbehind, rfl⟩
    · rw [keyPaths_stop] at hpath
      split_ifs at hpath with hzero
      · rw [mem_singleton.mp hpath, hzero]
        exact ⟨.done, rfl⟩
      · cases hpath
    · rw [keyPaths_past _ hgt] at hpath
      cases hpath
  · rintro ⟨hpath, rfl⟩
    induction hpath with
    | done =>
      rw [keyPaths_stop]
      exact mem_singleton_self _
    | zero hlt hcolumn hreal hzero _ ih =>
      rw [keyPaths_lone _ hlt hcolumn hreal, hzero]
      exact ih
    | key hlt hcolumn hkey _ ih =>
      rw [length_cons, keyPaths_keys _ hlt hcolumn (ne_nil_of_mem hkey)]
      exact mem_flatMap.mpr ⟨_, hkey, mem_map_of_mem ih⟩
termination_by (length, columns.stop - start)
decreasing_by
  · right
    omega
  · left
    omega

/-- Paths are handed over in order, all of them when no call fails. -/
theorem calls_addAll : ∀ (paths : List (List MatrixKey × Bool)) (s : σ),
    (addAll add paths s).calls <+: paths.map (·.1) ∧
      ∀ answer, (addAll add paths s).answer = .ok answer → (addAll add paths s).calls = paths.map (·.1)
  | [], s => ⟨prefix_refl _, fun _ _ => rfl⟩
  | (path, kept) :: paths, s => by
    rw [addAll]
    rcases add path s with ⟨s', e | found⟩
    · exact ⟨cons_prefix_cons.mpr ⟨rfl, nil_prefix⟩, fun answer h => by cases h⟩
    · obtain ⟨hbegun, hall⟩ := calls_addAll paths s'
      refine ⟨cons_prefix_cons.mpr ⟨rfl, hbegun⟩, fun answer h => ?_⟩
      obtain ⟨more, hmore, _⟩ := Run.map_eq_ok h
      exact congrArg (path :: ·) (hall more hmore)

/-- The walk calls `add` for the complete paths of the phrase's length that the test accepts, once each,
depth first in the order of the columns and up to the first failure, and answers their disjunction,
without those that pass a column where a key and a zero key stand together. -/
theorem rememberWalk_spec (columns : MatrixColumns) (phraseLength : Nat)
    (pronounces : MatrixKey → Nat → σ → σ × Except ε Bool) (add : List MatrixKey → σ → σ × Except ε Bool) (s : σ) :
    (∀ path, path ∈ keyPaths columns phraseLength 0 ↔ CompletePath columns 0 path ∧ path.length = phraseLength) ∧
    (phraseLength = 0 → rememberWalk columns phraseLength pronounces add s = ⟨s, [], .ok false⟩) ∧
    (rememberWalk columns phraseLength pronounces add s).calls.Sublist (keyPaths columns phraseLength 0) ∧
    (0 < phraseLength → ∀ accepts, (∀ key index s, pronounces key index s = (s, .ok (accepts key index))) →
      rememberWalk columns phraseLength pronounces add s =
        addAll add (((keyPaths columns phraseLength 0).filter (acceptedFrom accepts 0)).map fun path =>
          (path, unshared columns path)) s ∧
      (rememberWalk columns phraseLength pronounces add s).calls <+:
        (keyPaths columns phraseLength 0).filter (acceptedFrom accepts 0) ∧
      ∀ answer, (rememberWalk columns phraseLength pronounces add s).answer = .ok answer →
        (rememberWalk columns phraseLength pronounces add s).calls =
          (keyPaths columns phraseLength 0).filter (acceptedFrom accepts 0)) := by
  refine ⟨fun path => mem_keyPaths, fun hzero => ?_, ?_, fun hpos accepts hpure => ?_⟩
  · rw [hzero]
    exact rememberRecur_zero 0 s
  · have hcalls := @calls_rememberRecur σ ε columns phraseLength pronounces add 0 [] s (Nat.zero_le _)
    rw [rememberWalk]
    simpa using hcalls
  · have hwalk : rememberWalk columns phraseLength pronounces add s =
        addAll add (((keyPaths columns phraseLength 0).filter (acceptedFrom accepts 0)).map fun path =>
          (path, unshared columns path)) s := rememberRecur_eq hpos hpure 0 [] s (Nat.zero_le _)
    have hpaths : (((keyPaths columns phraseLength 0).filter (acceptedFrom accepts 0)).map fun path =>
        (path, unshared columns path)).map (·.1) = (keyPaths columns phraseLength 0).filter
          (acceptedFrom accepts 0) := by
      rw [map_map]
      exact map_id _
    obtain ⟨hbegun, hall⟩ := @calls_addAll σ ε add (((keyPaths columns phraseLength 0).filter
      (acceptedFrom accepts 0)).map fun path => (path, unshared columns path)) s
    rw [hpaths] at hbegun hall
    rw [hwalk]
    exact ⟨rfl, hbegun, hall⟩

/-- A key whose column holds the separator too is handed over, and its answer is dropped. -/
theorem rememberWalk_shared : ¬ ∀ columns, matrixColumns [97, 39, 98] 3 [⟨⟨1, 0, 1, 0⟩, 0, 1⟩,
    ⟨⟨1, 0, 1, 0⟩, 1, 3⟩] true =
    some columns → ∀ walked, walked = rememberWalk columns 2 (fun _ _ s => (s, .ok true))
      (fun _ (s : Unit) => (s, (.ok true : Except Unit Bool))) () →
        walked.calls = keyPaths columns 2 0 ∧ walked.answer = .ok (walked.calls.any fun _ => true) := by
  obtain ⟨columns, hcolumns, hstop, hfirst, hsecond⟩ : ∃ columns, matrixColumns [97, 39, 98] 3
      [⟨⟨1, 0, 1, 0⟩, 0, 1⟩, ⟨⟨1, 0, 1, 0⟩, 1, 3⟩] true = some columns ∧ columns.stop = 3 ∧
        columns.columns[0]? = some ⟨[⟨⟨1, 0, 1, 0⟩, 0, 1⟩], none⟩ ∧
        columns.columns[1]? = some ⟨[⟨⟨1, 0, 1, 0⟩, 1, 3⟩], some 2⟩ :=
    ⟨_, dif_neg (by simp), rfl, rfl, rfl⟩
  have hend : keyPaths columns 0 3 = [[]] := by
    rw [← hstop, keyPaths_stop, if_pos rfl]
  have hpaths : keyPaths columns 2 0 = [[⟨⟨1, 0, 1, 0⟩, 0, 1⟩, ⟨⟨1, 0, 1, 0⟩, 1, 3⟩]] := by
    rw [keyPaths_keys 1 (by omega) hfirst (by simp), flatMap_singleton, keyPaths_keys 0 (by omega) hsecond (by simp),
      flatMap_singleton, hend]
    rfl
  intro hall
  obtain ⟨hcalls, hanswer⟩ := hall columns hcolumns _ rfl
  rw [hcalls, hpaths, rememberWalk, rememberRecur_eq (by omega) (fun _ _ _ => rfl) 0 [] () (by simp), acceptedPaths,
    length_nil, Nat.sub_zero, hpaths] at hanswer
  simp [acceptedFrom, unshared, hfirst, hsecond, addAll, Remembered.andThen, Except.map] at hanswer

end Walk

end Oxpinyin.CharOffset
