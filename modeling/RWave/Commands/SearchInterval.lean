import RWave.Commands.SearchState
import RWave.Misc.Segments

/-!
# Interval and segment mode are exact

Without a limit the collector of `search_interval_collect` is a `Segmenter`: the initial check begins
it, a completed group is one observation, the row still open at the end closes it. What is observed
is whether a clause holds, with the shown values when there are any. The rows are therefore the
maximal stretches of that observation of `stateAt` (`searchIntervalCollect_segments`).
-/

namespace RWave.Commands

open RWave.Backend RWave.Model RWave.Misc RWave.Format

variable {F : File}

/-- Nothing while no clause holds; else the shown values, if any are shown. -/
def SearchSetup.observe (s : SearchSetup F) (state : State F) : Option (Option Values) :=
  if anyClauseHolds state ∅ s.clauses then
    some (if s.hasShow then some (showValues state s.showSids) else none)
  else none

/-- A row without its metadata. -/
def IntervalRow.segment (r : IntervalRow) : Segment (Option Values) :=
  ⟨r.beginTicks, r.endTicks, r.values⟩

/-- `t` lies in the row. -/
def IntervalRow.Contains (r : IntervalRow) (t : Int) : Prop := r.beginTicks ≤ t ∧ t < r.endTicks

/-- What the collector has of the rows. -/
def IntervalCollector.segmenter (s : SearchSetup F) (c : IntervalCollector F) :
    Segmenter (Option Values) where
  rows := c.results.map IntervalRow.segment
  current :=
    if c.active then some (c.segStart.getD 0, if s.hasShow then c.segValues else none) else none

/-- The state of the collector and its rows after a completed group at `ct`. -/
def Observed (s : SearchSetup F) (c after : IntervalCollector F) (ct : Int) : Prop :=
  after.state = c.group.foldl State.insert c.state ∧
    after.segmenter s = (c.segmenter s).step ct (s.observe after.state) ∧
    after.truncated = false ∧ after.initChecksDone = c.initChecksDone

section Collector

variable (s : SearchSetup F) (unlimited : s.limit = 0) (c : IntervalCollector F)

/-- The rows that are open when the collector stops are closed there. -/
def IntervalCollector.finish (t1 : Int) : List IntervalRow :=
  if c.active then c.results ++ [openRow s c t1] else c.results

theorem finish_segments (t1 : Int) :
    (c.finish s t1).map IntervalRow.segment = (c.segmenter s).close t1 := by
  cases active : c.active <;>
    simp [IntervalCollector.finish, IntervalCollector.segmenter, Segmenter.close, active, openRow,
      IntervalRow.segment]

theorem initCheck_segmenter (fresh : c.results = []) :
    (initCheck s c).segmenter s = Segmenter.begin s.t0 (s.observe c.state) := by
  cases holds : anyClauseHolds c.state ∅ s.clauses <;> cases shows : s.hasShow <;>
    simp [initCheck, IntervalCollector.segmenter, Segmenter.begin, SearchSetup.observe, holds,
      shows, fresh]

/-- The initial check changes what is open only. -/
theorem initCheck_frame :
    (initCheck s c).state = c.state ∧ (initCheck s c).results = c.results ∧
      (initCheck s c).truncated = c.truncated ∧ (initCheck s c).curT = c.curT ∧
      (initCheck s c).group = c.group := by
  simp only [initCheck]
  split <;> simp

/-- The baseline of the window is applied to the state. -/
theorem intervalLoop_baseline (baseline rest : List (Int × F.Sid × String))
    (early : ∀ x ∈ baseline, x.1 ≤ s.t0) :
    intervalLoop s c (baseline ++ rest) =
      intervalLoop s { c with state := (baseline.map Prod.snd).foldl State.insert c.state } rest := by
  induction baseline generalizing c with
  | nil => rfl
  | cons x baseline ih =>
    obtain ⟨t, change⟩ := x
    rw [List.cons_append, intervalLoop, if_pos (early _ List.mem_cons_self),
      ih _ fun x member => early x (List.mem_cons_of_mem _ member)]
    rfl

/-- What the groups of a stream make of the rows. -/
def observeGroups (segmenter : Segmenter (Option Values))
    (steps : List (State F × Int × List (F.Sid × String))) : Segmenter (Option Values) :=
  steps.foldl (fun sg x => sg.step x.2.1 (s.observe (x.2.2.foldl State.insert x.1))) segmenter

include unlimited

theorem appendResult_unlimited (row : IntervalRow) :
    appendResult s c row = { c with total := c.total + 1, results := c.results ++ [row] } := by
  rw [appendResult, if_neg (by simp [unlimited])]

/-- A completed group is one observation, in the loop as after it. -/
theorem intervalGroup_observed (last : Bool) (ct : Int) (going : c.truncated = false) :
    Observed s c (intervalGroup s last c ct) ct := by
  generalize entered : c.group.foldl State.insert c.state = state
  -- Which branch is taken: the mode, the condition, whether a row is open and has these values.
  by_cases same : some (showValues state s.showSids) = c.segValues <;>
    cases shows : s.hasShow <;> cases holds : anyClauseHolds state ∅ s.clauses <;>
    cases active : c.active <;>
    simp [Observed, intervalGroup, entered, shows, holds, active, same, going,
      appendResult_unlimited s unlimited, IntervalCollector.segmenter, Segmenter.step,
      Segmenter.close, SearchSetup.observe, openRow, IntervalRow.segment]

/-- The row that is open in the end becomes a result. -/
theorem flush_results (going : c.truncated = false) :
    (if c.active && !c.truncated then appendResult s c (openRow s c s.t1) else c).results =
      c.finish s s.t1 := by
  cases active : c.active <;>
    simp [IntervalCollector.finish, active, going, appendResult_unlimited s unlimited]

/-- The final pending group is handled like the others. -/
theorem intervalFinish_pending {g : Int} (pending : c.curT = some g) (nonempty : c.group ≠ [])
    (going : c.truncated = false) (checked : c.initChecksDone = true) :
    (intervalFinish s c).results = (intervalGroup s true c g).finish s s.t1 := by
  have truncated := (intervalGroup_observed s unlimited c true g going).2.2.1
  rw [← flush_results s unlimited _ truncated]
  simp [intervalFinish, checked, pending, nonempty, going]

/-- If no change came after `t0`, the baseline alone decides, unless the window is empty. -/
theorem intervalFinish_unchecked (fresh : c.results = []) (idle : c.active = false)
    (pending : c.curT = none) (going : c.truncated = false) (unchecked : c.initChecksDone = false) :
    (intervalFinish s c).results.map IntervalRow.segment =
      if s.t0 < s.t1 then (Segmenter.begin s.t0 (s.observe c.state)).close s.t1 else [] := by
  obtain ⟨-, -, truncated, curT, -⟩ := initCheck_frame s c
  by_cases nonempty : s.t0 < s.t1
  · rw [if_pos nonempty, ← initCheck_segmenter s c fresh, ← finish_segments,
      ← flush_results s unlimited _ (truncated.trans going)]
    simp [intervalFinish, unchecked, going, nonempty, curT, pending]
  · simp [intervalFinish, unchecked, going, nonempty, pending, idle, fresh]

/-- With a pending group, the loop and what follows it observe the groups of the stream. -/
theorem intervalLoop_groups (rest : List (Int × F.Sid × String))
    (late : ∀ x ∈ rest, s.t0 < x.1) {g : Int} (pending : c.curT = some g) (nonempty : c.group ≠ [])
    (going : c.truncated = false) (checked : c.initChecksDone = true) :
    (intervalFinish s (intervalLoop s c rest)).results.map IntervalRow.segment =
      (observeGroups s (c.segmenter s) (scan State.insert c.state (groupsFrom g c.group rest))).close
        s.t1 := by
  induction rest generalizing c g with
  | nil =>
    obtain ⟨state, segmenter, -, -⟩ := intervalGroup_observed s unlimited c true g going
    rw [intervalLoop, intervalFinish_pending s unlimited c pending nonempty going checked,
      finish_segments, segmenter, state]
    rfl
  | cons x rest ih =>
    obtain ⟨t, change⟩ := x
    have late' : ∀ x ∈ rest, s.t0 < x.1 := fun x member => late x (List.mem_cons_of_mem _ member)
    obtain ⟨state, segmenter, truncated, checked'⟩ :=
      intervalGroup_observed s unlimited c false g going
    rw [intervalLoop, if_neg (not_le.mpr (late _ List.mem_cons_self)), if_pos checked]
    dsimp only
    rw [pending, groupsFrom]
    dsimp only
    by_cases same : t = g
    · rw [if_neg (not_not.mpr same), if_pos same]
      have := ih { c with group := c.group ++ [change] } late' pending (by simp) going checked
      rwa [pending] at this
    · rw [if_pos same, if_neg same, if_neg (by simp [truncated])]
      have next := ih { intervalGroup s false c g with curT := some t, group := [change] } late' rfl
        (by simp) truncated (checked'.trans checked)
      refine next.trans ?_
      have opened : IntervalCollector.segmenter s
          { intervalGroup s false c g with curT := some t, group := [change] } =
            (c.segmenter s).step g (s.observe (c.group.foldl State.insert c.state)) :=
        segmenter.trans (by rw [state])
      rw [opened]
      dsimp only
      rw [state]
      rfl

/-- The first change after `t0` triggers the initial check. -/
theorem intervalLoop_first (t : Int) (change : F.Sid × String) (rest : List (Int × F.Sid × String))
    (late : ∀ x ∈ (t, change) :: rest, s.t0 < x.1) (fresh : c.results = [])
    (pending : c.curT = none) (empty : c.group = []) (going : c.truncated = false)
    (unchecked : c.initChecksDone = false) :
    (intervalFinish s (intervalLoop s c ((t, change) :: rest))).results.map IntervalRow.segment =
      (observeGroups s (Segmenter.begin s.t0 (s.observe c.state))
        (scan State.insert c.state (groups ((t, change) :: rest)))).close s.t1 := by
  obtain ⟨state, -, truncated, curT, group⟩ := initCheck_frame s c
  have late' : ∀ x ∈ rest, s.t0 < x.1 := fun x member => late x (List.mem_cons_of_mem _ member)
  rw [intervalLoop, if_neg (not_le.mpr (late _ List.mem_cons_self)), unchecked,
    if_neg Bool.false_ne_true]
  dsimp only
  rw [curT, pending]
  dsimp only
  rw [group, empty]
  have loop := intervalLoop_groups s unlimited
    { initCheck s c with curT := some t, group := [change], initChecksDone := true } rest late' rfl
    (by simp) (truncated.trans going) rfl
  refine loop.trans ?_
  rw [← initCheck_segmenter s c fresh, state]
  rfl

end Collector

/-! ## The rows -/

section Rows

variable (host : Host) (s : SearchSetup F) {w : Wave F} (H : BinaryHeap (HeapEntry.key (F := F)))
  (ordered : ∀ sid, (w.trace sid).Ordered) (unlimited : s.limit = 0)

include ordered

/-- The clauses and the shown signals see no difference between the replay and `stateAt`. -/
theorem observe_stream (nonneg : ∀ sid, ∀ c ∈ w.trace sid, 0 ≤ c.tick) {t : Int} (le : t ≤ s.t1) :
    s.observe (stateAfter State.insert State.empty (searchStream host w H s) t) =
      s.observe (stateAt host w t) := by
  have state : ∀ sid ∈ s.selRef, stateAfter State.insert State.empty
      (searchStream host w H s) t sid = stateAt host w t sid :=
    fun sid => stateAfter_searchStream host H s ordered nonneg le
  rw [SearchSetup.observe, SearchSetup.observe,
    anyClauseHolds_congr (fun clause member c inClause =>
      state c.sid (s.clausesSelected clause member c inClause)) (fun _ _ _ _ => Iff.rfl),
    showValues_congr fun sid member => state sid (s.showSelected sid member)]

/-- Between two ticks of the replay nothing that is observed changes. -/
theorem observe_steady (nonneg : ∀ sid, ∀ c ∈ w.trace sid, 0 ≤ c.tick) {t u : Int}
    (after : s.t0 ≤ t) (le : t ≤ u) (before : u ≤ s.t1)
    (quiet : ∀ x ∈ ticks (streamAfter host w H s s.t0), x ≤ t ∨ u < x) :
    s.observe (stateAt host w u) = s.observe (stateAt host w t) := by
  rw [← observe_stream host s H ordered nonneg before,
    ← observe_stream host s H ordered nonneg (le.trans before)]
  congr 1
  apply stateAfter_congr
  intro x member
  constructor
  · intro early
    rcases le_or_gt x.1 s.t0 with baseline | late
    · exact baseline.trans after
    · have listed : x.1 ∈ ticks (streamAfter host w H s s.t0) :=
        (mem_ticks (streamAfter_ordered host H s ordered s.t0)).mpr
          ⟨x.2, List.mem_filter.mpr ⟨member, decide_eq_true late⟩⟩
      exact (quiet x.1 listed).resolve_right (not_lt.mpr early)
  · intro early
    exact early.trans le

theorem ticks_inside (nonneg : ∀ sid, ∀ c ∈ w.trace sid, 0 ≤ c.tick) :
    ∀ t ∈ ticks (streamAfter host w H s s.t0), t ≤ s.t1 := fun _ member =>
  ((mem_ticks_streamAfter host H s ordered nonneg).mp member).2.1

theorem ticks_ascending (nonneg : ∀ sid, ∀ c ∈ w.trace sid, 0 ≤ c.tick) :
    (s.t0 :: ticks (streamAfter host w H s s.t0)).Pairwise (· < ·) := by
  refine List.pairwise_cons.mpr ⟨?_, ticks_sorted (streamAfter_ordered host H s ordered s.t0)⟩
  intro t member
  exact ((mem_ticks_streamAfter host H s ordered nonneg).mp member).1

include unlimited

/-- The rows are those of a segmenter that starts from the state at `t0` and observes the replay at
every later tick. An empty window has no rows. -/
theorem searchIntervalCollect_eq :
    (searchIntervalCollect host w H s).1.map IntervalRow.segment =
      if s.t0 < s.t1 then
        ((Segmenter.begin s.t0 (s.observe
          (stateAfter State.insert State.empty (searchStream host w H s) s.t0))).run
            (fun t => s.observe (stateAfter State.insert State.empty (searchStream host w H s) t))
            (ticks (streamAfter host w H s s.t0))).close s.t1
      else [] := by
  have stream := searchStream_ordered host H s ordered
  have early : ∀ x ∈ (searchStream host w H s).filter (fun x => decide (x.1 ≤ s.t0)),
      x.1 ≤ s.t0 :=
    fun x member => of_decide_eq_true (List.mem_filter.mp member).2
  have late : ∀ x ∈ streamAfter host w H s s.t0, s.t0 < x.1 :=
    fun x member => (mem_streamAfter host H s ordered member).1
  have inside : ∀ x ∈ streamAfter host w H s s.t0, x.1 ≤ s.t1 :=
    fun x member => (mem_streamAfter host H s ordered member).2
  have loop := intervalLoop_baseline s
    ⟨State.empty, [], 0, false, none, [], false, none, none, none, false⟩ _
    (streamAfter host w H s s.t0) early
  rw [streamAfter, stream.split] at loop
  change intervalLoop s _ (searchStream host w H s) = intervalLoop s
    ⟨stateAfter State.insert State.empty (searchStream host w H s) s.t0, _, _, _, _, _, _, _, _, _, _⟩
    (streamAfter host w H s s.t0) at loop
  -- What the groups observe, tick by tick.
  have observed : ∀ segmenter, observeGroups s segmenter
      (scan State.insert (stateAfter State.insert State.empty (searchStream host w H s) s.t0)
        (groups (streamAfter host w H s s.t0))) =
      segmenter.run
        (fun t => s.observe (stateAfter State.insert State.empty (searchStream host w H s) t))
        (ticks (streamAfter host w H s s.t0)) := by
    intro segmenter
    rw [observeGroups, scan_streamAfter host H s ordered, List.foldl_map, Segmenter.run]
    simp only [stateAfter_tick State.insert State.empty stream]
  rw [searchIntervalCollect, loop, ← observed]
  cases first : streamAfter host w H s s.t0 with
  | nil => exact intervalFinish_unchecked s unlimited _ rfl rfl rfl rfl rfl
  | cons x rest =>
    obtain ⟨t, change⟩ := x
    rw [first] at late inside
    have nonempty : s.t0 < s.t1 := (late _ List.mem_cons_self).trans_le (inside _ List.mem_cons_self)
    rw [if_pos nonempty]
    exact intervalLoop_first s unlimited _ t change rest late rfl rfl rfl rfl rfl

/-- The rows are those of a segmenter that observes `stateAt`. -/
theorem searchIntervalCollect_run (nonneg : ∀ sid, ∀ c ∈ w.trace sid, 0 ≤ c.tick)
    (nonempty : s.t0 < s.t1) :
    (searchIntervalCollect host w H s).1.map IntervalRow.segment =
      ((Segmenter.begin s.t0 (s.observe (stateAt host w s.t0))).run
        (fun t => s.observe (stateAt host w t)) (ticks (streamAfter host w H s s.t0))).close
          s.t1 := by
  have inside := ticks_inside host s H ordered nonneg
  rw [searchIntervalCollect_eq host s H ordered unlimited, if_pos nonempty,
    observe_stream host s H ordered nonneg nonempty.le,
    Segmenter.run_congr fun t member => observe_stream host s H ordered nonneg (inside t member)]

/-- The rows are the maximal stretches of what is observed of `stateAt`. -/
theorem searchIntervalCollect_segments (nonneg : ∀ sid, ∀ c ∈ w.trace sid, 0 ≤ c.tick)
    (window : s.t0 ≤ s.t1) :
    Segments (fun t => s.observe (stateAt host w t)) s.t0 s.t1
      ((searchIntervalCollect host w H s).1.map IntervalRow.segment) := by
  rcases window.lt_or_eq with nonempty | empty
  · rw [searchIntervalCollect_run host s H ordered unlimited nonneg nonempty]
    exact Segmenter.segments_run _ window (ticks_ascending host s H ordered nonneg)
      (ticks_inside host s H ordered nonneg) fun t u after le before quiet =>
        observe_steady host s H ordered nonneg after le before.le quiet
  · rw [searchIntervalCollect_eq host s H ordered unlimited, if_neg (by omega)]
    exact Segments.empty _ empty.ge

/-- What is observed at the end of the window has a row. -/
theorem searchIntervalCollect_last (nonneg : ∀ sid, ∀ c ∈ w.trace sid, 0 ≤ c.tick)
    (nonempty : s.t0 < s.t1) {v : Option Values}
    (observed : s.observe (stateAt host w s.t1) = some v) :
    ∃ r ∈ (searchIntervalCollect host w H s).1.map IntervalRow.segment,
      r.finish = s.t1 ∧ r.value = v := by
  rw [searchIntervalCollect_run host s H ordered unlimited nonneg nonempty]
  apply Segmenter.mem_close
  rw [← observed]
  refine Segmenter.run_now _ ?_ (ticks_ascending host s H ordered nonneg)
    (ticks_inside host s H ordered nonneg) nonempty.le fun t u after le before quiet =>
      observe_steady host s H ordered nonneg after le before quiet
  cases now : s.observe (stateAt host w s.t0) <;> simp [Segmenter.now, Segmenter.begin]

end Rows

/-! ## Interval mode -/

/-- What interval mode promises: the rows lie in the window, in ascending order and without
touching, they contain exactly the ticks at which a clause holds, and none can be prolonged. -/
structure IntervalsExact (host : Host) (w : Wave F) (s : SearchSetup F) (rows : List IntervalRow) :
    Prop where
  bounds : ∀ r ∈ rows, s.t0 ≤ r.beginTicks ∧ r.beginTicks ≤ r.endTicks ∧ r.endTicks ≤ s.t1
  apart : rows.Pairwise fun r r' => r.endTicks < r'.beginTicks
  covered : ∀ t, s.t0 ≤ t → t < s.t1 →
    ((∃ r ∈ rows, r.Contains t) ↔ anyClauseHolds (stateAt host w t) ∅ s.clauses = true)
  maximal : ∀ r ∈ rows,
    (s.t0 < r.beginTicks →
      anyClauseHolds (stateAt host w (r.beginTicks - 1)) ∅ s.clauses = false) ∧
    (r.endTicks < s.t1 → anyClauseHolds (stateAt host w r.endTicks) ∅ s.clauses = false)

section Exact

variable {host : Host} {s : SearchSetup F} {w : Wave F} {rows : List IntervalRow}

theorem observe_ne_none {state : State F} :
    s.observe state ≠ none ↔ anyClauseHolds state ∅ s.clauses = true := by
  rw [SearchSetup.observe]
  split <;> simp [*]

/-- Rows and segments contain the same ticks. -/
theorem contains_segment {t : Int} :
    (∃ r ∈ rows.map IntervalRow.segment, r.Contains t) ↔ ∃ r ∈ rows, r.Contains t := by
  constructor
  · rintro ⟨_, member, inside⟩
    obtain ⟨r, listed, rfl⟩ := List.mem_map.mp member
    exact ⟨r, listed, inside⟩
  · rintro ⟨r, member, inside⟩
    exact ⟨r.segment, List.mem_map_of_mem member, inside⟩

/-- A row contains a tick of the window exactly when a clause holds there. -/
theorem covered_iff
    (exact : Segments (fun t => s.observe (stateAt host w t)) s.t0 s.t1
      (rows.map IntervalRow.segment)) {t : Int} (after : s.t0 ≤ t) (before : t < s.t1) :
    (∃ r ∈ rows, r.Contains t) ↔ anyClauseHolds (stateAt host w t) ∅ s.clauses = true := by
  rw [← contains_segment, exact.contains_iff after before, observe_ne_none]

/-- Stretches of an observation that shows no values are the intervals. -/
theorem intervalsExact_of_segments
    (exact : Segments (fun t => s.observe (stateAt host w t)) s.t0 s.t1
      (rows.map IntervalRow.segment)) (hidden : s.showSids = []) :
    IntervalsExact host w s rows := by
  have bounds : ∀ r ∈ rows, s.t0 ≤ r.beginTicks ∧ r.beginTicks ≤ r.endTicks ∧ r.endTicks ≤ s.t1 :=
    fun r member => exact.bounds r.segment (List.mem_map_of_mem member)
  have covered := fun t after before => covered_iff exact (t := t) after before
  -- All rows have the same value.
  have plain : ∀ r ∈ rows.map IntervalRow.segment, r.value = none := by
    intro r member
    have opens := exact.opens r member
    simp only [SearchSetup.observe, SearchSetup.hasShow, hidden] at opens
    split at opens <;> simp_all
  have apart : rows.Pairwise fun r r' => r.endTicks < r'.beginTicks :=
    List.pairwise_map.mp <| exact.separated fun r member r' member' =>
      (plain r member).trans (plain r' member').symm
  refine ⟨bounds, apart, covered, ?_⟩
  intro r member
  obtain ⟨low, nonempty, high⟩ := bounds r member
  -- A row that contained a neighbouring tick would touch this one.
  have quiet {t : Int} (after : s.t0 ≤ t) (before : t < s.t1)
      (beside : t = r.beginTicks - 1 ∨ t = r.endTicks) :
      anyClauseHolds (stateAt host w t) ∅ s.clauses = false := by
    apply Bool.eq_false_iff.mpr
    intro holds
    obtain ⟨r', member', begun, unfinished⟩ := (covered t after before).mpr holds
    rcases pairwise_cases apart member member' with rfl | earlier | later <;> omega
  exact ⟨fun lt => quiet (by omega) (by omega) (.inl rfl), fun lt => quiet (by omega) lt (.inr rfl)⟩

end Exact

/-- Interval mode without a limit is exact. -/
theorem searchIntervalCollect_exact (host : Host) (s : SearchSetup F) {w : Wave F}
    (H : BinaryHeap (HeapEntry.key (F := F))) (ordered : ∀ sid, (w.trace sid).Ordered)
    (nonneg : ∀ sid, ∀ c ∈ w.trace sid, 0 ≤ c.tick) (unlimited : s.limit = 0)
    (window : s.t0 ≤ s.t1) (hidden : s.showSids = []) :
    IntervalsExact host w s (searchIntervalCollect host w H s).1 :=
  intervalsExact_of_segments
    (searchIntervalCollect_segments host s H ordered unlimited nonneg window) hidden

/-! ## Segment mode -/

/-- What segment mode promises beside the intervals of the same clauses: the segments cover the same
ticks, have the values shown at each of their ticks, and are not split without need. -/
structure SegmentsRefine (host : Host) (w : Wave F) (s : SearchSetup F)
    (rows intervals : List IntervalRow) : Prop where
  covers : ∀ t, s.t0 ≤ t → t < s.t1 →
    ((∃ r ∈ rows, r.Contains t) ↔ ∃ r ∈ intervals, r.Contains t)
  values : ∀ r ∈ rows, ∀ t, r.Contains t →
    r.values = some (showValues (stateAt host w t) s.showSids)
  apart : rows.IsChain fun r r' => r.endTicks = r'.beginTicks → r.values ≠ r'.values

/-- Segment mode without a limit refines interval mode: `s` shows signals, `plain` is the same
search without them. -/
theorem searchIntervalCollect_refines (host : Host) (s plain : SearchSetup F) {w : Wave F}
    (H : BinaryHeap (HeapEntry.key (F := F))) (ordered : ∀ sid, (w.trace sid).Ordered)
    (nonneg : ∀ sid, ∀ c ∈ w.trace sid, 0 ≤ c.tick) (unlimited : s.limit = 0)
    (unlimited' : plain.limit = 0) (window : s.t0 ≤ s.t1) (shown : s.showSids ≠ [])
    (hidden : plain.showSids = []) (clauses : plain.clauses = s.clauses) (t0 : plain.t0 = s.t0)
    (t1 : plain.t1 = s.t1) :
    SegmentsRefine host w s (searchIntervalCollect host w H s).1
      (searchIntervalCollect host w H plain).1 := by
  have exact := searchIntervalCollect_segments host s H ordered unlimited nonneg window
  have intervals := intervalsExact_of_segments
    (searchIntervalCollect_segments host plain H ordered unlimited' nonneg (by omega)) hidden
  have shows : s.hasShow = true := by simpa [SearchSetup.hasShow] using shown
  generalize (searchIntervalCollect host w H s).1 = rows at exact
  refine ⟨?_, ?_, ?_⟩
  · intro t after before
    rw [covered_iff exact after before, intervals.covered t (by omega) (by omega), clauses]
  · intro r member t inside
    have value := exact.value r.segment (List.mem_map_of_mem member) t inside
    simp only [SearchSetup.observe, shows, if_true] at value
    split at value
    · exact (Option.some.inj value).symm
    · cases value
  · exact (List.isChain_map _).mp exact.apart

/-- `top.s1=1` over `[1, 9]`: holds over `[2, 4)` and `[6, 9)`. -/
def ackSetup (showSids : List handshakeMock.file.Sid) : SearchSetup handshakeMock.file :=
  handshakeMock.search "top.s1=1" [[handshakeMock.ackHigh]] showSids []

theorem searchIntervalCollect_exact_handshake :
    IntervalsExact MockBackend.host handshakeWave (ackSetup [])
      (searchIntervalCollect MockBackend.host handshakeWave (stdHeap _) (ackSetup [])).1 :=
  searchIntervalCollect_exact _ _ _ handshakeWave_ordered handshakeWave_nonneg rfl (by decide) rfl

theorem searchIntervalCollect_refines_handshake :
    SegmentsRefine MockBackend.host handshakeWave (ackSetup [handshakeMock.req])
      (searchIntervalCollect MockBackend.host handshakeWave (stdHeap _)
        (ackSetup [handshakeMock.req])).1
      (searchIntervalCollect MockBackend.host handshakeWave (stdHeap _) (ackSetup [])).1 :=
  searchIntervalCollect_refines _ _ _ _ handshakeWave_ordered handshakeWave_nonneg rfl rfl
    (by decide) (List.cons_ne_nil _ _) rfl rfl rfl rfl

end RWave.Commands
