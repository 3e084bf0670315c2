import Oxpinyin.Generation

/-!
# The paths a span search finds

`Follows` is the relation a walk over the columns computes : keys of the columns one behind
the other, over zero cells. `walk_sound` and `walk_complete` : the paths a walk reports are
those of the relation, at most `maxPhraseLength` keys long and not empty. A walk fails only
through its dictionary or a toned initial-only key (`walk_ok`).
-/

namespace Oxpinyin

open List Run KeyPath Except Or

/-- The path extended by the keys of a walk. -/
def KeyPath.extend (path : KeyPath) (keys : List ScanKey) : KeyPath :=
  ⟨path.keys ++ keys.map (·.key), path.tones ++ keys.map (·.tone)⟩

@[simp] theorem extend_nil (path : KeyPath) : path.extend [] = path := by
  simp [extend]

theorem KeyPath.extend_cons (path : KeyPath) (key : ScanKey) (keys : List ScanKey) :
    path.extend (key :: keys) =
      extend ⟨path.keys ++ [key.key], path.tones ++ [key.tone]⟩ keys := by
  simp [extend]

namespace GenerationView

variable {ε : Type} {view : GenerationView} {dictionary : Dictionary ε} {stop : Nat}

/-- Keys of the columns from a position to `stop`. -/
inductive Follows (view : GenerationView) (stop : Nat) : Nat → List ScanKey → Prop
  | done : Follows view stop stop []
  | zero {p : Nat} {keys : List ScanKey} : p < stop → view.zeros.getD p false = true →
      Follows view stop (p + 1) keys → Follows view stop p keys
  | key {p : Nat} {key : ScanKey} {keys : List ScanKey} : p < stop →
      view.zeros.getD p false = false → key ∈ view.columns.getD p [] → p < key.to_ →
      key.to_ ≤ stop → Follows view stop key.to_ keys → Follows view stop p (key :: keys)

theorem Follows.le {p : Nat} {keys : List ScanKey} (h : Follows view stop p keys) : p ≤ stop := by
  cases h with
  | done => exact Nat.le_refl _
  | zero hp _ _ => exact Nat.le_of_lt hp
  | key hp _ _ _ _ _ => exact Nat.le_of_lt hp

theorem leaf_cases {path : KeyPath} {state state' : SpanRanges × Bool} (h : leaf dictionary path state = .ok state') :
    ((maxPhraseLength < path.keys.length ∨ path.keys = []) ∧ state'.1 = state.1) ∨
    (path.keys.length ≤ maxPhraseLength ∧ path.keys ≠ [] ∧
      state'.1.paths = state.1.paths ++ [path]) := by
  unfold leaf at h
  split_ifs at h with hlong hempty
  · obtain rfl := ok.inj h
    exact inl ⟨inl hlong, rfl⟩
  · obtain rfl := ok.inj h
    exact inl ⟨inr hempty, rfl⟩
  · split at h
    · cases h
    · split at h
      · cases h
      · obtain rfl := ok.inj h
        exact inr ⟨by omega, hempty, rfl⟩

/-! ## Steps of a walk -/

variable (view dictionary) in
/-- What a walk does at a key of a column. -/
def visitKey (stop fuel start : Nat) (path : KeyPath) (state : SpanRanges × Bool) (key : ScanKey) :
    Except (EngineError ε) (SpanRanges × Bool) :=
  if stop < key.to_ then .ok (state.1, true)
  else if key.to_ ≤ start then .ok state
  else
    let path : KeyPath := ⟨path.keys ++ [key.key], path.tones ++ [key.tone]⟩
    if path.keys.length ≤ maxPhraseLength then view.walk dictionary stop fuel key.to_ path state
    else .ok state

variable {fuel start : Nat} {path : KeyPath} {state state' : SpanRanges × Bool}

theorem walk_beyond (h : stop < start) : view.walk dictionary stop fuel start path state =
    .ok state := by
  unfold walk
  rw [if_pos h]

theorem walk_end : view.walk dictionary stop fuel stop path state = leaf dictionary path state := by
  unfold walk
  rw [if_neg (Nat.lt_irrefl stop), if_pos rfl]

theorem walk_out (h : start < stop) : view.walk dictionary stop 0 start path state = .ok state := by
  unfold walk
  rw [if_neg (by omega), if_neg (by omega)]

theorem walk_step_zero (h : start < stop) (hzero : view.zeros.getD start false = true) :
    view.walk dictionary stop (fuel + 1) start path state =
      view.walk dictionary stop fuel (start + 1) path state := by
  rw [walk, if_neg (by omega), if_neg (by omega), if_pos hzero]

theorem walk_step_keys (h : start < stop) (hzero : view.zeros.getD start false = false) :
    view.walk dictionary stop (fuel + 1) start path state =
      (view.columns.getD start []).foldlM (visitKey view dictionary stop fuel start path) state := by
  rw [walk, if_neg (by omega), if_neg (by omega), if_neg (by rw [hzero]; simp)]
  rfl

/-- Where a walk is. -/
theorem walk_cases (stop fuel start : Nat) : stop < start ∨ start = stop ∨
    (start < stop ∧ fuel = 0) ∨ ∃ n, start < stop ∧ fuel = n + 1 := by
  rcases Nat.lt_trichotomy start stop with hlt | heq | hgt
  · cases fuel with
    | zero => exact inr (inr (inl ⟨hlt, rfl⟩))
    | succ n => exact inr (inr (inr ⟨n, hlt, rfl⟩))
  · exact inr (inl heq)
  · exact inl hgt

/-! ## The reported paths -/

/-- The reported paths follow the columns. -/
theorem walk_sound : ∀ {fuel start : Nat} {path : KeyPath} {state state' : SpanRanges × Bool},
    view.walk dictionary stop fuel start path state = .ok state' →
    ∀ q ∈ state'.1.paths, q ∈ state.1.paths ∨
      ∃ keys, Follows view stop start keys ∧ q = path.extend keys ∧ q.keys ≠ []
  | fuel, start, path, state, state', h, q, hq => by
    rcases walk_cases stop fuel start with hbeyond | rfl | ⟨hlt, rfl⟩ | ⟨n, hlt, rfl⟩
    · rw [walk_beyond hbeyond] at h
      obtain rfl := ok.inj h
      exact inl hq
    · rw [walk_end] at h
      rcases leaf_cases h with ⟨_, heq⟩ | ⟨_, hne, heq⟩
      · rw [heq] at hq
        exact inl hq
      · rw [heq] at hq
        rcases mem_append.mp hq with hold | hnew
        · exact inl hold
        · rw [mem_singleton.mp hnew]
          exact inr ⟨[], .done, (extend_nil path).symm, hne⟩
    · rw [walk_out hlt] at h
      obtain rfl := ok.inj h
      exact inl hq
    · cases hzero : view.zeros.getD start false with
      | true =>
        rw [walk_step_zero hlt hzero] at h
        refine (walk_sound h q hq).imp_right ?_
        rintro ⟨keys, hfollows, hkeys⟩
        exact ⟨keys, .zero hlt hzero hfollows, hkeys⟩
      | false =>
        rw [walk_step_keys hlt hzero] at h
        revert q
        refine @foldlM_inv _ _ _ _ (fun state' : SpanRanges × Bool => ∀ q ∈ state'.1.paths,
          q ∈ state.1.paths ∨
            ∃ keys, Follows view stop start keys ∧ q = path.extend keys ∧ q.keys ≠ [])
          _ _ _ (fun current key next hkey hcurrent hnext => ?_) (fun q hq => inl hq) h
        unfold visitKey at hnext
        dsimp only at hnext
        split_ifs at hnext with hpast hback hfits
        · obtain rfl := ok.inj hnext
          exact hcurrent
        · obtain rfl := ok.inj hnext
          exact hcurrent
        · intro q hq
          rcases walk_sound hnext q hq with hold | ⟨keys, hfollows, hkeys, hne⟩
          · exact hcurrent q hold
          · refine inr ⟨key :: keys, .key hlt hzero hkey (by omega) (by omega) hfollows, ?_, hne⟩
            rw [extend_cons]
            exact hkeys
        · obtain rfl := ok.inj hnext
          exact hcurrent

/-- Every short enough path of the columns is reported, and reported paths stay. -/
theorem walk_complete : ∀ {fuel start : Nat} {path : KeyPath} {state state' : SpanRanges × Bool},
    view.walk dictionary stop fuel start path state = .ok state' → stop - start ≤ fuel →
    state.1.paths ⊆ state'.1.paths ∧
    ∀ keys, Follows view stop start keys →
      (path.extend keys).keys.length ≤ maxPhraseLength → (path.extend keys).keys ≠ [] →
      path.extend keys ∈ state'.1.paths
  | fuel, start, path, state, state', h, hfuel => by
    rcases walk_cases stop fuel start with hbeyond | rfl | ⟨hlt, rfl⟩ | ⟨n, hlt, rfl⟩
    · rw [walk_beyond hbeyond] at h
      obtain rfl := ok.inj h
      exact ⟨fun _ h => h, fun keys hfollows => absurd hfollows.le (by omega)⟩
    · rw [walk_end] at h
      have hkeys : ∀ keys, Follows view start start keys → keys = [] := by
        intro keys hfollows
        cases hfollows with
        | done => rfl
        | zero hp _ _ => omega
        | key hp _ _ _ _ _ => omega
      rcases leaf_cases h with ⟨hskip, heq⟩ | ⟨_, hne, heq⟩
      · rw [heq]
        refine ⟨fun _ h => h, fun keys hfollows hshort hne => ?_⟩
        rw [hkeys keys hfollows, extend_nil] at hshort hne
        rcases hskip with hlong | hempty
        · omega
        · exact absurd hempty hne
      · rw [heq]
        refine ⟨subset_append_left _ _, fun keys hfollows _ _ => ?_⟩
        rw [hkeys keys hfollows, extend_nil]
        exact mem_append_right _ (mem_singleton_self path)
    · omega
    · cases hzero : view.zeros.getD start false with
      | true =>
        rw [walk_step_zero hlt hzero] at h
        obtain ⟨hkeep, hall⟩ := walk_complete h (by omega)
        refine ⟨hkeep, fun keys hfollows => ?_⟩
        cases hfollows with
        | done => omega
        | zero _ _ hrest => exact hall keys hrest
        | key _ hno _ _ _ _ =>
          rw [hzero] at hno
          cases hno
      | false =>
        rw [walk_step_keys hlt hzero] at h
        have hstep : ∀ (s : SpanRanges × Bool) (key : ScanKey) (t : SpanRanges × Bool),
            key ∈ view.columns.getD start [] →
            visitKey view dictionary stop n start path s key = .ok t → s.1.paths ⊆ t.1.paths := by
          intro s key t _ ht
          unfold visitKey at ht
          dsimp only at ht
          split_ifs at ht
          · obtain rfl := ok.inj ht
            exact fun _ h => h
          · obtain rfl := ok.inj ht
            exact fun _ h => h
          · exact (walk_complete ht (by omega)).1
          · obtain rfl := ok.inj ht
            exact fun _ h => h
        obtain ⟨hkeep, hvisits⟩ := @foldlM_visits _ _ _ _
          (fun s t : SpanRanges × Bool => s.1.paths ⊆ t.1.paths) (fun _ _ h => h)
          (fun _ _ _ hst htu _ h => htu (hst h)) _ _ _ hstep h
        refine ⟨hkeep, fun keys hfollows hshort hne => ?_⟩
        cases hfollows with
        | done => omega
        | zero _ hyes _ =>
          rw [hzero] at hyes
          cases hyes
        | @key _ key keys _ _ hkey hforward hfits hrest =>
          obtain ⟨before, after, hvisit, hafter⟩ := hvisits key hkey
          rw [extend_cons] at hshort hne ⊢
          have hroom : (path.keys ++ [key.key]).length ≤ maxPhraseLength := by
            simp only [extend, length_append, length_singleton] at hshort ⊢
            omega
          unfold visitKey at hvisit
          rw [if_neg (by omega), if_neg (by omega)] at hvisit
          dsimp only at hvisit
          rw [if_pos hroom] at hvisit
          exact hafter ((walk_complete hvisit (by omega)).2 keys hrest hshort hne)

/-- A walk over complete keys fails only where its dictionary does. -/
theorem walk_ok (hdictionary : ∀ keys tones,
      ∃ found, dictionary.trellisRangesContinued keys tones = .ok found)
    (hcomplete : ∀ p, ∀ key ∈ view.columns.getD p [], key.key.completeness = .Complete) :
    ∀ {fuel start : Nat} {path : KeyPath} {state : SpanRanges × Bool},
      (∀ key ∈ path.keys, key.completeness = .Complete) →
      ∃ state', view.walk dictionary stop fuel start path state = .ok state'
  | fuel, start, path, state, hpath => by
    rcases walk_cases stop fuel start with hbeyond | rfl | ⟨hlt, rfl⟩ | ⟨n, hlt, rfl⟩
    · exact ⟨state, walk_beyond hbeyond⟩
    · rw [walk_end]
      unfold leaf
      split_ifs
      · exact ⟨_, rfl⟩
      · exact ⟨_, rfl⟩
      · have hnone : path.keys.findIdx? (fun key => key.completeness = .Partial) = none := by
          rw [findIdx?_eq_none_iff]
          intro key hkey
          simp [hpath key hkey]
        obtain ⟨found, hfound⟩ := hdictionary path.keys path.tones
        unfold checkTonedIncomplete
        rw [hnone, hfound]
        exact ⟨_, rfl⟩
    · exact ⟨state, walk_out hlt⟩
    · cases hzero : view.zeros.getD start false with
      | true =>
        rw [walk_step_zero hlt hzero]
        exact walk_ok hdictionary hcomplete hpath
      | false =>
        rw [walk_step_keys hlt hzero]
        refine foldlM_ok fun s key hkey => ?_
        unfold visitKey
        dsimp only
        split_ifs
        · exact ⟨_, rfl⟩
        · exact ⟨_, rfl⟩
        · refine walk_ok hdictionary hcomplete fun key' hkey' => ?_
          rcases mem_append.mp hkey' with hkey' | hkey'
          · exact hpath key' hkey'
          · rw [mem_singleton.mp hkey']
            exact hcomplete start key hkey
        · exact ⟨_, rfl⟩

end GenerationView

end Oxpinyin
