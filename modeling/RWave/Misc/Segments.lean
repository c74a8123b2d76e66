import Mathlib

/-!
# Maximal segments of a step function

An observation made at integer instants, present with a value or absent, is cut over a window
`[a, b)` into stretches of one value: `Segments`. A `Segmenter` computes them online from the
observations at the instants where they may change; `segments_run` says that it does.
-/

namespace RWave.Misc

/-- Two members of a list are one, or they are related as they come. -/
theorem pairwise_cases {α : Type} {R : α → α → Prop} {l : List α} (h : l.Pairwise R) {x y : α}
    (member : x ∈ l) (member' : y ∈ l) : x = y ∨ R x y ∨ R y x := by
  let Related := fun x y => x = y ∨ R x y ∨ R y x
  have forward : l.Pairwise Related := h.imp fun before => .inr (.inl before)
  have backward : l.Pairwise (flip Related) := h.imp fun before => .inr (.inr before)
  exact forward.forall_of_forall_of_flip (fun _ _ => .inl rfl) backward member member'

/-- The stretch `[start, finish)` over which the observation has one value. -/
structure Segment (β : Type) where
  start : Int
  finish : Int
  value : β
  deriving DecidableEq, Repr

variable {β : Type}

/-- `t` lies in the stretch. -/
def Segment.Contains (r : Segment β) (t : Int) : Prop := r.start ≤ t ∧ t < r.finish

instance (r : Segment β) (t : Int) : Decidable (r.Contains t) :=
  inferInstanceAs (Decidable (_ ∧ _))

/-- `rows` are the maximal stretches of `obs` over `[a, b)`, in ascending order. A stretch that
ends where the next one begins has another value. -/
structure Segments (obs : Int → Option β) (a b : Int) (rows : List (Segment β)) : Prop where
  bounds : ∀ r ∈ rows, a ≤ r.start ∧ r.start ≤ r.finish ∧ r.finish ≤ b
  ascending : rows.Pairwise fun r r' => r.finish ≤ r'.start
  apart : rows.IsChain fun r r' => r.finish = r'.start → r.value ≠ r'.value
  opens : ∀ r ∈ rows, obs r.start = some r.value
  value : ∀ r ∈ rows, ∀ t, r.Contains t → obs t = some r.value
  covered : ∀ t, a ≤ t → t < b → obs t ≠ none → ∃ r ∈ rows, r.Contains t

namespace Segments

variable {obs : Int → Option β} {a b : Int} {rows : List (Segment β)}

theorem empty (obs : Int → Option β) (le : b ≤ a) : Segments obs a b [] := by
  refine ⟨by simp, List.Pairwise.nil, List.IsChain.nil, by simp, by simp, ?_⟩
  intro t after before
  omega

/-- The rows contain exactly the instants of the window at which something is observed. -/
theorem contains_iff (h : Segments obs a b rows) {t : Int} (after : a ≤ t) (before : t < b) :
    (∃ r ∈ rows, r.Contains t) ↔ obs t ≠ none := by
  constructor
  · rintro ⟨r, member, inside⟩
    rw [h.value r member t inside]
    exact Option.some_ne_none _
  · exact h.covered t after before

/-- A new stretch may start at the end of the window, if it does not prolong the last one. -/
theorem snoc (h : Segments obs a b rows) (le : a ≤ b) {v : β} (observed : obs b = some v)
    (last : ∀ r ∈ rows.getLast?, r.finish = b → r.value ≠ v) :
    Segments obs a b (rows ++ [⟨b, b, v⟩]) := by
  refine ⟨?_, ?_, ?_, ?_, ?_, ?_⟩
  · intro r member
    rcases List.mem_append.mp member with member | member
    · exact h.bounds r member
    · obtain rfl := List.mem_singleton.mp member
      exact ⟨le, le_rfl, le_rfl⟩
  · apply List.pairwise_append.mpr
    refine ⟨h.ascending, List.pairwise_singleton _ _, ?_⟩
    intro r member r' member'
    obtain rfl := List.mem_singleton.mp member'
    exact (h.bounds r member).2.2
  · apply List.isChain_append.mpr
    refine ⟨h.apart, List.IsChain.singleton _, ?_⟩
    intro r member r' member'
    obtain rfl : _ = r' := by simpa using member'
    exact last r member
  · intro r member
    rcases List.mem_append.mp member with member | member
    · exact h.opens r member
    · obtain rfl := List.mem_singleton.mp member
      exact observed
  · intro r member t inside
    rcases List.mem_append.mp member with member | member
    · exact h.value r member t inside
    · obtain rfl := List.mem_singleton.mp member
      exact absurd inside.1 (not_le.mpr inside.2)
  · intro t after before present
    obtain ⟨r, member, inside⟩ := h.covered t after before present
    exact ⟨r, List.mem_append_left _ member, inside⟩

/-- Stretches of one value do not touch. -/
theorem separated (h : Segments obs a b rows)
    (constant : ∀ r ∈ rows, ∀ r' ∈ rows, r.value = r'.value) :
    rows.Pairwise fun r r' => r.finish < r'.start := by
  obtain ⟨bounds, ascending, apart, -, -, -⟩ := h
  induction rows with
  | nil => exact List.Pairwise.nil
  | cons r rows ih =>
    obtain ⟨later, ascending⟩ := List.pairwise_cons.mp ascending
    apply List.pairwise_cons.mpr
    constructor
    · cases rows with
      | nil => simp
      | cons next rows =>
        have lt : r.finish < next.start := by
          apply lt_of_le_of_ne (later next List.mem_cons_self)
          intro touch
          exact (List.isChain_cons_cons.mp apart).1 touch (constant r (by simp) next (by simp))
        intro r' member
        rcases List.mem_cons.mp member with rfl | member
        · exact lt
        · have nonempty := (bounds next (by simp)).2.1
          have before := (List.pairwise_cons.mp ascending).1 r' member
          omega
    · apply ih
      · intro x member y member'
        exact constant x (List.mem_cons_of_mem _ member) y (List.mem_cons_of_mem _ member')
      · intro x member
        exact bounds x (List.mem_cons_of_mem _ member)
      · exact ascending
      · exact apart.tail

/-! ### Where stretches begin -/

/-- The observation turns to what it is at `t`, of a window that begins at `a`. -/
def Opening (obs : Int → Option β) (a t : Int) : Prop :=
  obs t ≠ none ∧ (t = a ∨ obs t ≠ obs (t - 1))

instance [DecidableEq β] (obs : Int → Option β) (a t : Int) : Decidable (Opening obs a t) :=
  inferInstanceAs (Decidable (_ ∧ _))

/-- Stretches that touch have different values, neighbours or not. -/
theorem touching (h : Segments obs a b rows) :
    rows.Pairwise fun r r' => r.finish = r'.start → r.value ≠ r'.value := by
  obtain ⟨bounds, ascending, apart, opens, -, -⟩ := h
  induction rows with
  | nil => exact List.Pairwise.nil
  | cons r rows ih =>
    obtain ⟨later, ascending⟩ := List.pairwise_cons.mp ascending
    apply List.pairwise_cons.mpr
    constructor
    · cases rows with
      | nil => simp
      | cons next rows =>
        have other := (List.isChain_cons_cons.mp apart).1
        intro r' member touch
        rcases List.mem_cons.mp member with rfl | member
        · exact other touch
        · -- The neighbour begins where `r'` does, so it has the same value.
          have after := later next List.mem_cons_self
          have nonempty := (bounds next (by simp)).2.1
          have before := (List.pairwise_cons.mp ascending).1 r' member
          have same : next.start = r'.start := by omega
          have value := opens next (by simp)
          rw [same, opens r' (by simp [member])] at value
          rw [Option.some.inj value]
          exact other (touch.trans same.symm)
    · exact ih (fun x member => bounds x (List.mem_cons_of_mem _ member)) ascending apart.tail
        fun x member => opens x (List.mem_cons_of_mem _ member)

/-- No two stretches begin together. -/
theorem starts (h : Segments obs a b rows) : rows.Pairwise fun r r' => r.start < r'.start := by
  have both := h.touching.and h.ascending
  refine both.imp_of_mem ?_
  rintro r r' member member' ⟨apart, before⟩
  have nonempty := (h.bounds r member).2.1
  apply lt_of_le_of_ne (nonempty.trans before)
  intro same
  have value := h.opens r member
  rw [same, h.opens r' member'] at value
  exact apart (by omega) (Option.some.inj value).symm

/-- Of two stretches one is the other, or they come one before the other. -/
theorem before_or_after (h : Segments obs a b rows) {r r' : Segment β} (member : r ∈ rows)
    (member' : r' ∈ rows) :
    r = r' ∨ (r.finish ≤ r'.start ∧ (r.finish = r'.start → r.value ≠ r'.value)) ∨
      (r'.finish ≤ r.start ∧ (r'.finish = r.start → r'.value ≠ r.value)) :=
  pairwise_cases (h.ascending.and h.touching) member member'

/-- A stretch begins where the observation turns to its value. -/
theorem opening (h : Segments obs a b rows) {r : Segment β} (member : r ∈ rows) :
    Opening obs a r.start := by
  have value := h.opens r member
  obtain ⟨after, nonempty, inside⟩ := h.bounds r member
  refine ⟨by simp [value], or_iff_not_imp_left.mpr fun later same => ?_⟩
  -- Else the stretch before it would have the same value and touch it.
  obtain ⟨r', member', begun, unfinished⟩ :=
    h.covered (r.start - 1) (by omega) (by omega) (by simp [← same, value])
  have value' := h.value r' member' _ ⟨begun, unfinished⟩
  rw [← same, value] at value'
  rcases h.before_or_after member member' with rfl | ⟨before, -⟩ | ⟨before, apart⟩
  · omega
  · have := (h.bounds r' member').2.1
    omega
  · exact apart (by omega) (Option.some.inj value').symm

/-- Inside the window the stretches begin just where the observation turns. -/
theorem mem_starts (h : Segments obs a b rows) {t : Int} (after : a ≤ t) (before : t < b) :
    (∃ r ∈ rows, r.start = t) ↔ Opening obs a t := by
  constructor
  · rintro ⟨r, member, rfl⟩
    exact h.opening member
  · rintro ⟨present, turns⟩
    obtain ⟨r, member, begun, unfinished⟩ := h.covered t after before present
    refine ⟨r, member, le_antisymm begun ?_⟩
    by_contra later
    have inside := (h.bounds r member).1
    rcases turns with rfl | turns
    · omega
    · have now := h.value r member t ⟨begun, unfinished⟩
      have earlier := h.value r member (t - 1) ⟨by omega, by omega⟩
      exact turns (now.trans earlier.symm)

/-- Only a stretch that begins with the end of the window can be empty. -/
theorem nonempty (h : Segments obs a b rows) {r : Segment β} (member : r ∈ rows)
    (before : r.start < b) : r.start < r.finish := by
  have value := h.opens r member
  obtain ⟨after, le, -⟩ := h.bounds r member
  apply lt_of_le_of_ne le
  intro empty
  obtain ⟨r', member', begun, unfinished⟩ := h.covered r.start after before (by simp [value])
  have value' := h.value r' member' _ ⟨begun, unfinished⟩
  rcases h.before_or_after member member' with rfl | ⟨ends, apart⟩ | ⟨ends, -⟩
  · omega
  · exact apart (by omega) (Option.some.inj (value.symm.trans value'))
  · omega

/-- As many stretches as places where the observation turns, unless one begins with the end. -/
theorem card_openings [DecidableEq β] (h : Segments obs a b rows)
    (early : ∀ r ∈ rows, r.start < b) :
    ((Finset.Ico a b).filter (Opening obs a)).card = rows.length := by
  have nodup : (rows.map Segment.start).Nodup :=
    List.pairwise_map.mpr (h.starts.imp ne_of_lt)
  rw [← List.length_map Segment.start, ← List.toFinset_card_of_nodup nodup]
  congr 1
  ext t
  rw [Finset.mem_filter, Finset.mem_Ico, List.mem_toFinset, List.mem_map]
  constructor
  · rintro ⟨⟨after, before⟩, turns⟩
    exact (h.mem_starts after before).mpr turns
  · rintro ⟨r, member, rfl⟩
    exact ⟨⟨(h.bounds r member).1, early r member⟩, h.opening member⟩

/-- When what is observed at the end of the window has a stretch, one begins there just if the
observation turns there. -/
theorem starts_at_end (h : Segments obs a b rows) (lt : a < b)
    (last : ∀ v, obs b = some v → ∃ r ∈ rows, r.finish = b ∧ r.value = v) :
    (∃ r ∈ rows, r.start = b) ↔ Opening obs a b := by
  constructor
  · rintro ⟨r, member, rfl⟩
    exact h.opening member
  · rintro ⟨present, turns⟩
    obtain ⟨v, value⟩ := Option.ne_none_iff_exists'.mp present
    obtain ⟨r, member, ends, rfl⟩ := last v value
    refine ⟨r, member, ?_⟩
    by_contra early
    have le := (h.bounds r member).2.1
    have before := h.value r member (b - 1) ⟨by omega, by omega⟩
    exact turns.elim (by omega) fun turns => turns (value.trans before.symm)

/-- All stretches begin before the end of the window, or the last one begins with it. -/
theorem last_cases (h : Segments obs a b rows) :
    (∀ r ∈ rows, r.start < b) ∨
      ∃ rows' v, rows = rows' ++ [⟨b, b, v⟩] ∧ Segments obs a b rows' ∧
        ∀ r ∈ rows', r.start < b := by
  by_cases early : ∀ r ∈ rows, r.start < b
  · exact .inl early
  obtain ⟨r, member, late⟩ : ∃ r ∈ rows, b ≤ r.start := by simpa using early
  obtain ⟨after, le, inside⟩ := h.bounds r member
  obtain ⟨start, finish, v⟩ := r
  obtain rfl : b = start := le_antisymm late (le.trans inside)
  obtain rfl : b = finish := le_antisymm le inside
  obtain ⟨rows', more, rfl⟩ := List.append_of_mem member
  obtain ⟨-, above, below⟩ := List.pairwise_append.mp h.starts
  obtain rfl : more = [] := by
    refine List.eq_nil_iff_forall_not_mem.mpr fun r' member' => ?_
    have beyond := (List.pairwise_cons.mp above).1 r' member'
    obtain ⟨-, le', inside'⟩ := h.bounds r' (by simp [member'])
    dsimp only at beyond
    omega
  refine .inr ⟨rows', v, rfl, ⟨?_, ?_, ?_, ?_, ?_, ?_⟩, ?_⟩
  · exact fun r' member' => h.bounds r' (List.mem_append_left _ member')
  · exact (List.pairwise_append.mp h.ascending).1
  · exact (List.isChain_append.mp h.apart).1
  · exact fun r' member' => h.opens r' (List.mem_append_left _ member')
  · exact fun r' member' => h.value r' (List.mem_append_left _ member')
  · intro t after before present
    obtain ⟨r', member', begun, unfinished⟩ := h.covered t after before present
    rcases List.mem_append.mp member' with member' | last
    · exact ⟨r', member', begun, unfinished⟩
    · obtain rfl := List.mem_singleton.mp last
      exact absurd before (not_lt.mpr begun)
  · exact fun r' member' => below r' member' _ List.mem_cons_self

end Segments

/-! ## The online computation -/

/-- The closed stretches so far, and the open one: where it began and its value. -/
structure Segmenter (β : Type) where
  rows : List (Segment β)
  current : Option (Int × β)

namespace Segmenter

/-- At the beginning of the window. -/
def begin (a : Int) (o : Option β) : Segmenter β := ⟨[], o.map fun v => (a, v)⟩

/-- The rows, when the window ends at `b`. -/
def close (s : Segmenter β) (b : Int) : List (Segment β) :=
  s.rows ++ s.current.toList.map fun (start, v) => ⟨start, b, v⟩

/-- The observation becomes `o` at `t`. -/
def step [DecidableEq β] (s : Segmenter β) (t : Int) (o : Option β) : Segmenter β :=
  match s.current, o with
  | none, none => s
  | none, some v => { s with current := some (t, v) }
  | some _, none => ⟨s.close t, none⟩
  | some (_, v), some v' => if v' = v then s else ⟨s.close t, some (t, v')⟩

/-- The value of the open stretch. -/
def now (s : Segmenter β) : Option β := s.current.map Prod.snd

variable {obs : Int → Option β} {a b g t : Int} {s : Segmenter β}

/-- While the observation stays, the open stretch grows. -/
theorem extend (h : Segments obs a g (s.close g)) (le : g ≤ t)
    (steady : ∀ u, g ≤ u → u < t → obs u = s.now) : Segments obs a t (s.close t) := by
  obtain ⟨rows, current⟩ := s
  cases current with
  | none =>
    simp only [close, Option.toList_none, List.map_nil, List.append_nil] at h ⊢
    refine ⟨?_, h.ascending, h.apart, h.opens, h.value, ?_⟩
    · intro r member
      obtain ⟨after, nonempty, before⟩ := h.bounds r member
      exact ⟨after, nonempty, before.trans le⟩
    · intro u after before present
      rcases lt_or_ge u g with early | late
      · exact h.covered u after early present
      · exact absurd (steady u late before) present
  | some stretch =>
    obtain ⟨start, v⟩ := stretch
    simp only [close, Option.toList_some, List.map_cons, List.map_nil] at h ⊢
    obtain ⟨after, begun, -⟩ := h.bounds ⟨start, g, v⟩ (by simp)
    have closed : ∀ r ∈ rows, r ∈ rows ++ [⟨start, g, v⟩] := fun r => List.mem_append_left _
    obtain ⟨ascending, -, before⟩ := List.pairwise_append.mp h.ascending
    obtain ⟨apart, -, last⟩ := List.isChain_append.mp h.apart
    dsimp only at after begun
    refine ⟨?_, ?_, ?_, ?_, ?_, ?_⟩
    · intro r member
      rcases List.mem_append.mp member with member | member
      · obtain ⟨after, nonempty, before⟩ := h.bounds r (closed r member)
        exact ⟨after, nonempty, before.trans le⟩
      · obtain rfl := List.mem_singleton.mp member
        exact ⟨after, begun.trans le, le_rfl⟩
    · apply List.pairwise_append.mpr
      refine ⟨ascending, List.pairwise_singleton _ _, ?_⟩
      intro r member r' member'
      obtain rfl := List.mem_singleton.mp member'
      exact before r member ⟨start, g, v⟩ (by simp)
    · apply List.isChain_append.mpr
      refine ⟨apart, List.IsChain.singleton _, ?_⟩
      intro r member r' member'
      obtain rfl : _ = r' := by simpa using member'
      exact last r member ⟨start, g, v⟩ (by simp)
    · intro r member
      rcases List.mem_append.mp member with member | member
      · exact h.opens r (closed r member)
      · obtain rfl := List.mem_singleton.mp member
        exact h.opens ⟨start, g, v⟩ (by simp)
    · intro r member u inside
      rcases List.mem_append.mp member with member | member
      · exact h.value r (closed r member) u inside
      · obtain rfl := List.mem_singleton.mp member
        rcases lt_or_ge u g with early | late
        · exact h.value ⟨start, g, v⟩ (by simp) u ⟨inside.1, early⟩
        · exact steady u late inside.2
    · intro u after before present
      rcases lt_or_ge u g with early | late
      · obtain ⟨r, member, inside⟩ := h.covered u after early present
        rcases List.mem_append.mp member with member | member
        · exact ⟨r, List.mem_append_left _ member, inside⟩
        · obtain rfl := List.mem_singleton.mp member
          exact ⟨⟨start, t, v⟩, by simp, inside.1, before⟩
      · exact ⟨⟨start, t, v⟩, by simp, begun.trans late, before⟩

/-- What the segmenter is at has a row, once closed. -/
theorem mem_close {v : β} (now : s.now = some v) (b : Int) :
    ∃ r ∈ s.close b, r.finish = b ∧ r.value = v := by
  obtain ⟨rows, current⟩ := s
  cases current with
  | none => cases now
  | some stretch =>
    obtain rfl := Option.some.inj now
    exact ⟨⟨stretch.1, b, stretch.2⟩, by simp [close], rfl, rfl⟩

variable [DecidableEq β]

theorem step_now (s : Segmenter β) (t : Int) (o : Option β) : (s.step t o).now = o := by
  obtain ⟨rows, current⟩ := s
  cases current with
  | none => cases o <;> rfl
  | some stretch =>
    cases o with
    | none => rfl
    | some v =>
      simp only [step, now]
      split
      next same => simp [same]
      next => rfl

/-- What one observation does to the rows. -/
theorem step_segments (h : Segments obs a g (s.close g)) (le : a ≤ g) (lt : g < t)
    (steady : ∀ u, g ≤ u → u < t → obs u = s.now) :
    Segments obs a t ((s.step t (obs t)).close t) := by
  have grown := extend h lt.le steady
  obtain ⟨rows, current⟩ := s
  cases current with
  | none =>
    cases observed : obs t with
    | none => exact grown
    | some v =>
      simp only [close, step, Option.toList_none, Option.toList_some, List.map_nil, List.map_cons,
        List.append_nil] at h grown ⊢
      -- The last stretch was closed before `t`.
      apply grown.snoc (le.trans lt.le) observed
      intro r member ends
      have := (h.bounds r (List.mem_of_getLast? member)).2.2
      omega
  | some stretch =>
    obtain ⟨start, v⟩ := stretch
    cases observed : obs t with
    | none => simpa [step, close] using grown
    | some v' =>
      simp only [step]
      split
      next => exact grown
      next other =>
        simp only [close, Option.toList_some, List.map_cons, List.map_nil] at grown ⊢
        apply grown.snoc (le.trans lt.le) observed
        intro r member _
        obtain rfl : _ = r := by simpa using member
        exact Ne.symm other

/-- The observations at some ticks, one after the other. -/
def run (s : Segmenter β) (obs : Int → Option β) (ticks : List Int) : Segmenter β :=
  ticks.foldl (fun s t => s.step t (obs t)) s

theorem run_congr {obs' : Int → Option β} {ticks : List Int}
    (same : ∀ t ∈ ticks, obs t = obs' t) : s.run obs ticks = s.run obs' ticks := by
  apply List.foldl_ext
  intro s t member
  rw [same t member]

theorem run_segments (ticks : List Int) (h : Segments obs a g (s.close g)) (le : a ≤ g)
    (now : s.now = obs g) (sorted : (g :: ticks).Pairwise (· < ·)) (inside : ∀ x ∈ ticks, x ≤ b)
    (le_b : g ≤ b)
    (steady : ∀ t u, g ≤ t → t ≤ u → u < b → (∀ x ∈ ticks, x ≤ t ∨ u < x) → obs u = obs t) :
    Segments obs a b ((s.run obs ticks).close b) := by
  induction ticks generalizing s g with
  | nil =>
    apply extend h le_b
    intro u after before
    rw [now]
    exact steady g u le_rfl after before (by simp)
  | cons t ticks ih =>
    obtain ⟨later, sorted⟩ := List.pairwise_cons.mp sorted
    have lt := later t List.mem_cons_self
    have t_le := inside t List.mem_cons_self
    refine ih (step_segments h le lt ?_) (le.trans lt.le) (step_now s t _) sorted
      (fun x member => inside x (List.mem_cons_of_mem _ member)) t_le ?_
    · intro u after before
      rw [now]
      apply steady g u le_rfl after (before.trans_le t_le)
      intro x member
      rcases List.mem_cons.mp member with rfl | member
      · exact .inr before
      · exact .inr (before.trans ((List.pairwise_cons.mp sorted).1 x member))
    · intro t' u after le before quiet
      apply steady t' u (lt.le.trans after) le before
      intro x member
      rcases List.mem_cons.mp member with rfl | member
      · exact .inl after
      · exact quiet x member

/-- After the last tick the segmenter is at what is observed at the end of the window, if that stays
up to the end. -/
theorem run_now (ticks : List Int) (now : s.now = obs g) (sorted : (g :: ticks).Pairwise (· < ·))
    (inside : ∀ x ∈ ticks, x ≤ b) (le_b : g ≤ b)
    (steady : ∀ t u, g ≤ t → t ≤ u → u ≤ b → (∀ x ∈ ticks, x ≤ t ∨ u < x) → obs u = obs t) :
    (s.run obs ticks).now = obs b := by
  induction ticks generalizing s g with
  | nil => exact now.trans (steady g b le_rfl le_b le_rfl (by simp)).symm
  | cons t ticks ih =>
    obtain ⟨later, sorted⟩ := List.pairwise_cons.mp sorted
    refine ih (step_now s t _) sorted (fun x member => inside x (List.mem_cons_of_mem _ member))
      (inside t List.mem_cons_self) ?_
    intro t' u after le before quiet
    apply steady t' u ((later t List.mem_cons_self).le.trans after) le before
    intro x member
    rcases List.mem_cons.mp member with rfl | member
    · exact .inl after
    · exact quiet x member

/-- Observed at its value on `a` and at ticks between which it does not change, a step function is
cut into its maximal stretches. -/
theorem segments_run (obs : Int → Option β) {ticks : List Int} (le : a ≤ b)
    (sorted : (a :: ticks).Pairwise (· < ·)) (inside : ∀ x ∈ ticks, x ≤ b)
    (steady : ∀ t u, a ≤ t → t ≤ u → u < b → (∀ x ∈ ticks, x ≤ t ∨ u < x) → obs u = obs t) :
    Segments obs a b (((begin a (obs a)).run obs ticks).close b) := by
  have start : Segments obs a a ((begin a (obs a)).close a) := by
    cases observed : obs a with
    | none => exact Segments.empty obs le_rfl
    | some v => exact (Segments.empty obs le_rfl).snoc le_rfl observed (by simp)
  apply run_segments ticks start le_rfl ?_ sorted inside le steady
  cases observed : obs a <;> simp [now, begin]

end Segmenter

end RWave.Misc
