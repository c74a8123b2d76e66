import RWave.Commands.SearchEvent
import RWave.Commands.SearchInterval
import RWave.Misc.Clip

/-!
# A limit clips a search

A search with a limit beside the same search without one. The two collectors are equal until a row
goes over the limit; there the limited one stops, and the other one only adds rows from then on.
-/

namespace RWave.Commands

open RWave.Backend RWave.Model RWave.Misc RWave.Format

variable {F : File}

/-- The same search without a limit. -/
def SearchSetup.unlimited (s : SearchSetup F) : SearchSetup F := { s with limit := 0 }

@[simp] theorem limit_unlimited (s : SearchSetup F) : s.unlimited.limit = 0 := rfl

@[simp] theorem fired_unlimited (host : Host) (s : SearchSetup F) (state : State F) (gt : Int) :
    fired host s.unlimited state gt = fired host s state gt := rfl

/-! ## Event mode -/

/-- The collector of a limited search beside that of the unlimited one. -/
structure EventClip (limit : Nat) (c u : EventCollector F) : Prop where
  clipped : Clipped limit c.events c.total c.truncated u.events
  same : c.truncated = false → c = u

section Event

variable (host : Host) (s : SearchSetup F)

/-- Without a limit a group only adds to the events, and truncates nothing. -/
theorem eventGroup_grows (c : EventCollector F) (gt : Int) :
    c.events <+: (eventGroup host s.unlimited c gt).events ∧
      (eventGroup host s.unlimited c gt).truncated = c.truncated := by
  simp only [eventGroup, limit_unlimited, ne_eq, not_true_eq_false, false_and, if_false]
  split <;> simp

theorem eventLoop_grows (rest : List (Int × F.Sid × String)) (c : EventCollector F)
    (going : c.truncated = false) :
    c.events <+: (eventLoop host s.unlimited c rest).events ∧
      (eventLoop host s.unlimited c rest).truncated = false := by
  induction rest generalizing c with
  | nil => exact ⟨List.prefix_rfl, going⟩
  | cons x rest ih =>
    obtain ⟨t, change⟩ := x
    rw [eventLoop]
    split
    · exact ih { c with state := c.state.insert change } going
    · split
      · exact ih { c with curT := some t, group := c.group ++ [change] } going
      · rename_i gt pending
        split
        · obtain ⟨more, truncated⟩ := eventGroup_grows host s c gt
          rw [if_neg (by simp [truncated, going])]
          obtain ⟨later, ends⟩ := ih { eventGroup host s.unlimited c gt with
            curT := some t, group := [change] } (truncated.trans going)
          exact ⟨more.trans later, ends⟩
        · exact ih { c with group := c.group ++ [change] } going

theorem eventFinish_grows (c : EventCollector F) :
    c.events <+: (eventFinish host s.unlimited c).events := by
  rw [eventFinish]
  split
  · split
    · exact (eventGroup_grows host s c _).1
    · exact List.prefix_rfl
  · exact List.prefix_rfl

variable (limited : 0 < s.limit)

include limited

theorem eventGroup_clip {c : EventCollector F}
    (clipped : Clipped s.limit c.events c.total c.truncated c.events) (going : c.truncated = false)
    (gt : Int) :
    EventClip s.limit (eventGroup host s c gt) (eventGroup host s.unlimited c gt) := by
  rw [going] at clipped
  have fires : processGroup s.unlimited c.state c.group gt = processGroup s c.state c.group gt := rfl
  rw [eventGroup, eventGroup, fires]
  obtain ⟨state, fires⟩ := processGroup s c.state c.group gt
  cases fires with
  | false => exact ⟨by simpa [going] using clipped, fun _ => rfl⟩
  | true =>
    by_cases full : s.limit ≤ c.events.length
    · have cut := clipped.drop full (fired host s state gt)
      refine ⟨?_, ?_⟩
      · simpa [limited.ne', full] using cut
      · simp [limited.ne', full]
    · have kept := clipped.keep (not_le.mp full) (fired host s state gt)
      refine ⟨?_, ?_⟩
      · simpa [full, going] using kept
      · simp [full]

theorem eventLoop_clip (rest : List (Int × F.Sid × String)) {c : EventCollector F}
    (clipped : Clipped s.limit c.events c.total c.truncated c.events)
    (going : c.truncated = false) :
    EventClip s.limit (eventLoop host s c rest) (eventLoop host s.unlimited c rest) := by
  induction rest generalizing c with
  | nil => exact ⟨clipped, fun _ => rfl⟩
  | cons x rest ih =>
    obtain ⟨t, change⟩ := x
    rw [eventLoop, eventLoop]
    change EventClip s.limit _ (if t < s.t0 then _ else _)
    split
    · exact ih (c := { c with state := c.state.insert change }) clipped going
    · split
      · exact ih (c := { c with curT := some t, group := c.group ++ [change] }) clipped going
      · rename_i gt pending
        split
        · obtain ⟨clip, same⟩ := eventGroup_clip host s limited clipped going gt
          have truncated := (eventGroup_grows host s c gt).2.trans going
          dsimp only
          rw [if_neg (c := (eventGroup host s.unlimited c gt).truncated = true) (by simp [truncated])]
          by_cases cut : (eventGroup host s c gt).truncated = true
          · -- The limited search stops here; the other goes on.
            rw [if_pos cut]
            rw [cut] at clip
            refine ⟨?_, fun absurdity => absurd cut (by simp [absurdity])⟩
            rw [cut]
            exact clip.grow (eventLoop_grows host s rest { eventGroup host s.unlimited c gt with
              curT := some t, group := [change] } truncated).1
          · rw [if_neg cut]
            have going : (eventGroup host s c gt).truncated = false := by simpa using cut
            rw [← same going] at clip ⊢
            exact ih (c := { eventGroup host s c gt with curT := some t, group := [change] }) clip going
        · exact ih (c := { c with group := c.group ++ [change] }) clipped going

theorem eventFinish_clip {c u : EventCollector F} (beside : EventClip s.limit c u) :
    Clipped s.limit (eventFinish host s c).events (eventFinish host s c).total
      (eventFinish host s c).truncated (eventFinish host s.unlimited u).events := by
  cases cut : c.truncated with
  | true =>
    have stays : eventFinish host s c = c := by
      rw [eventFinish]
      split
      · rw [if_neg (by simp [cut])]
      · rfl
    have clip := beside.clipped
    rw [cut] at clip
    rw [stays, cut]
    exact clip.grow (eventFinish_grows host s u)
  | false =>
    obtain ⟨clipped, same⟩ := beside
    obtain rfl := same cut
    rw [eventFinish, eventFinish]
    split
    · split
      · exact (eventGroup_clip host s limited clipped cut _).clipped
      · exact clipped
    · exact clipped

end Event

/-! ## Interval and segment mode -/

/-- The collector of a limited search beside that of the unlimited one. -/
structure IntervalClip (limit : Nat) (c u : IntervalCollector F) : Prop where
  clipped : Clipped limit c.results c.total c.truncated u.results
  same : c.truncated = false → c = u

/-- The two have collected the same. -/
structure SameRows (c d : IntervalCollector F) : Prop where
  results : c.results = d.results
  total : c.total = d.total
  truncated : c.truncated = d.truncated

/-- What happens to a row at a completed group: it is appended, and the open row is reset unless the
limit ends the loop. -/
def cutRow (s : SearchSetup F) (last : Bool) (reset : IntervalCollector F → IntervalCollector F)
    (c : IntervalCollector F) (row : IntervalRow) : IntervalCollector F :=
  let c := appendResult s c row
  if c.truncated && !last then c else reset c

section Interval

variable (s : SearchSetup F)

/-- A completed group changes what is open only, or cuts the open row; which of the two it is does
not depend on the limit. -/
theorem intervalGroup_cases (last : Bool) (c : IntervalCollector F) (ct : Int) :
    (∃ next, intervalGroup s last c ct = next ∧ intervalGroup s.unlimited last c ct = next ∧
      SameRows next c) ∨
    (∃ reset d row, intervalGroup s last c ct = cutRow s last reset d row ∧
      intervalGroup s.unlimited last c ct = cutRow s.unlimited last reset d row ∧
      SameRows d c ∧ ∀ e, SameRows (reset e) e) := by
  let d := { c with state := c.group.foldl State.insert c.state }
  have entered : SameRows d c := ⟨rfl, rfl, rfl⟩
  have shows : s.unlimited.hasShow = s.hasShow := rfl
  have clauses : s.unlimited.clauses = s.clauses := rfl
  have shown : s.unlimited.showSids = s.showSids := rfl
  have verbose : s.unlimited.verbose = s.verbose := rfl
  have opened : ∀ d : IntervalCollector F, openRow s.unlimited d ct = openRow s d ct := fun _ => rfl
  simp only [intervalGroup, shows, clauses, shown, verbose, opened]
  split
  · split
    · exact .inl ⟨_, rfl, rfl, ⟨rfl, rfl, rfl⟩⟩
    · split
      · exact .inr ⟨fun e => { e with active := false, segStart := none },
          d, openRow s d ct, rfl, rfl, entered, fun _ => ⟨rfl, rfl, rfl⟩⟩
      · exact .inl ⟨_, rfl, rfl, ⟨rfl, rfl, rfl⟩⟩
  · split
    · split
      · exact .inr ⟨fun e => { e with
            active := false, segStart := none, segValues := none, segMeta := none },
          d, openRow s d ct, rfl, rfl, entered, fun _ => ⟨rfl, rfl, rfl⟩⟩
      · exact .inl ⟨_, rfl, rfl, ⟨rfl, rfl, rfl⟩⟩
    · split
      · exact .inl ⟨_, rfl, rfl, ⟨rfl, rfl, rfl⟩⟩
      · split
        · exact .inr ⟨fun e => { e with
              segStart := some ct, segValues := some (showValues d.state s.showSids)
              segMeta := if s.verbose then some (showMeta d.state s.showSids) else d.segMeta },
            d, openRow s d ct, rfl, rfl, entered, fun _ => ⟨rfl, rfl, rfl⟩⟩
        · exact .inl ⟨_, rfl, rfl, ⟨rfl, rfl, rfl⟩⟩

theorem initCheck_same (c : IntervalCollector F) : SameRows (initCheck s c) c := by
  simp only [initCheck]
  split
  · exact ⟨rfl, rfl, rfl⟩
  · exact ⟨rfl, rfl, rfl⟩

/-- The initial check does not touch the rows. -/
theorem checked_same (c : IntervalCollector F) :
    SameRows (if c.initChecksDone then c else { initCheck s c with initChecksDone := true }) c := by
  obtain ⟨results, total, truncated⟩ := initCheck_same s c
  split
  · exact ⟨rfl, rfl, rfl⟩
  · exact ⟨results, total, truncated⟩

/-- Without a limit a row is appended. -/
theorem appendResult_unlimited_eq (c : IntervalCollector F) (row : IntervalRow) :
    appendResult s.unlimited c row =
      { c with total := c.total + 1, results := c.results ++ [row] } := by
  rw [appendResult, if_neg (by simp)]

theorem cutRow_unlimited (reset : IntervalCollector F → IntervalCollector F) (last : Bool)
    {d : IntervalCollector F} (going : d.truncated = false)
    (row : IntervalRow) :
    cutRow s.unlimited last reset d row =
      reset { d with total := d.total + 1, results := d.results ++ [row] } := by
  rw [cutRow, appendResult_unlimited_eq]
  dsimp only
  rw [if_neg (by simp [going])]

theorem intervalGroup_grows (last : Bool) (c : IntervalCollector F) (ct : Int)
    (going : c.truncated = false) :
    c.results <+: (intervalGroup s.unlimited last c ct).results ∧
      (intervalGroup s.unlimited last c ct).truncated = false := by
  rcases intervalGroup_cases s last c ct with ⟨next, -, group, same⟩ |
    ⟨reset, d, row, -, group, entered, keeps⟩
  · rw [group, same.results, same.truncated]
    exact ⟨List.prefix_rfl, going⟩
  · have truncated : d.truncated = false := entered.truncated.trans going
    rw [group, cutRow_unlimited s reset last truncated, (keeps _).results, (keeps _).truncated,
      ← entered.results]
    exact ⟨List.prefix_append _ _, truncated⟩

theorem intervalLoop_grows (rest : List (Int × F.Sid × String)) (c : IntervalCollector F)
    (going : c.truncated = false) :
    c.results <+: (intervalLoop s.unlimited c rest).results ∧
      (intervalLoop s.unlimited c rest).truncated = false := by
  induction rest generalizing c with
  | nil => exact ⟨List.prefix_rfl, going⟩
  | cons x rest ih =>
    obtain ⟨t, change⟩ := x
    rw [intervalLoop]
    split
    · exact ih { c with state := c.state.insert change } going
    · have checked := checked_same s.unlimited c
      generalize (if c.initChecksDone then c else
        { initCheck s.unlimited c with initChecksDone := true }) = d at checked ⊢
      have going : d.truncated = false := checked.truncated.trans going
      rw [← checked.results]
      dsimp only
      split
      · exact ih { d with curT := some t, group := d.group ++ [change] } going
      · rename_i ct pending
        split
        · obtain ⟨more, truncated⟩ := intervalGroup_grows s false d ct going
          rw [if_neg (by simp [truncated])]
          obtain ⟨later, ends⟩ := ih { intervalGroup s.unlimited false d ct with
            curT := some t, group := [change] } truncated
          exact ⟨more.trans later, ends⟩
        · exact ih { d with group := d.group ++ [change] } going

variable (limited : 0 < s.limit)

include limited

/-- Cutting a row clips it where the limit is reached. -/
theorem cutRow_clip {reset : IntervalCollector F → IntervalCollector F}
    (keeps : ∀ e, SameRows (reset e) e) (last : Bool) {d : IntervalCollector F}
    (clipped : Clipped s.limit d.results d.total false d.results) (going : d.truncated = false)
    (row : IntervalRow) :
    IntervalClip s.limit (cutRow s last reset d row) (cutRow s.unlimited last reset d row) := by
  rw [cutRow_unlimited s reset last going]
  obtain ⟨results, -, -⟩ :=
    keeps { d with total := d.total + 1, results := d.results ++ [row] }
  by_cases full : s.limit ≤ d.results.length
  · have cut := clipped.drop full row
    have appended : appendResult s d row = { d with total := d.total + 1, truncated := true } := by
      rw [appendResult, if_pos ⟨limited.ne', full⟩]
    have same : SameRows (cutRow s last reset d row)
        { d with total := d.total + 1, truncated := true } := by
      rw [cutRow, appended]
      dsimp only
      split
      · exact ⟨rfl, rfl, rfl⟩
      · exact keeps _
    refine ⟨?_, fun absurdity => ?_⟩
    · rw [same.results, same.total, same.truncated, results]
      exact cut
    · rw [same.truncated] at absurdity
      cases absurdity
  · have kept := clipped.keep (not_le.mp full) row
    have appended : cutRow s last reset d row =
        reset { d with total := d.total + 1, results := d.results ++ [row] } := by
      have result : appendResult s d row =
          { d with total := d.total + 1, results := d.results ++ [row] } := by
        rw [appendResult, if_neg (by simp [full])]
      rw [cutRow, result, if_neg (by simp [going])]
    obtain ⟨-, total, truncated⟩ :=
      keeps { d with total := d.total + 1, results := d.results ++ [row] }
    rw [appended]
    refine ⟨?_, fun _ => rfl⟩
    rw [results, total, truncated, going]
    exact kept

theorem intervalGroup_clip (last : Bool) {c : IntervalCollector F}
    (clipped : Clipped s.limit c.results c.total false c.results) (going : c.truncated = false)
    (ct : Int) :
    IntervalClip s.limit (intervalGroup s last c ct) (intervalGroup s.unlimited last c ct) := by
  rcases intervalGroup_cases s last c ct with ⟨next, group, group', same⟩ |
    ⟨reset, d, row, group, group', entered, keeps⟩
  · rw [group, group']
    refine ⟨?_, fun _ => rfl⟩
    rw [same.results, same.total, same.truncated, going]
    exact clipped
  · rw [group, group']
    apply cutRow_clip s limited keeps last
    · rw [entered.results, entered.total]
      exact clipped
    · exact entered.truncated.trans going

theorem intervalLoop_clip (rest : List (Int × F.Sid × String)) {c : IntervalCollector F}
    (clipped : Clipped s.limit c.results c.total false c.results) (going : c.truncated = false) :
    IntervalClip s.limit (intervalLoop s c rest) (intervalLoop s.unlimited c rest) := by
  induction rest generalizing c with
  | nil => exact ⟨going ▸ clipped, fun _ => rfl⟩
  | cons x rest ih =>
    obtain ⟨t, change⟩ := x
    rw [intervalLoop, intervalLoop]
    change IntervalClip s.limit _ (if t ≤ s.t0 then _ else _)
    split
    · exact ih (c := { c with state := c.state.insert change }) clipped going
    · have check : initCheck s.unlimited c = initCheck s c := rfl
      have checked := checked_same s c
      rw [check]
      generalize (if c.initChecksDone then c else
        { initCheck s c with initChecksDone := true }) = d at checked ⊢
      have going : d.truncated = false := checked.truncated.trans going
      rw [← checked.results, ← checked.total] at clipped
      dsimp only
      split
      · exact ih (c := { d with curT := some t, group := d.group ++ [change] }) clipped going
      · rename_i ct pending
        split
        · obtain ⟨clip, same⟩ := intervalGroup_clip s limited false clipped going ct
          have truncated := (intervalGroup_grows s false d ct going).2
          rw [if_neg (c := (intervalGroup s.unlimited false d ct).truncated = true)
            (by simp [truncated])]
          by_cases cut : (intervalGroup s false d ct).truncated = true
          · -- The limited search stops here; the other goes on.
            rw [if_pos cut]
            rw [cut] at clip
            refine ⟨?_, fun absurdity => absurd cut (by simp [absurdity])⟩
            rw [cut]
            exact clip.grow (intervalLoop_grows s rest { intervalGroup s.unlimited false d ct with
              curT := some t, group := [change] } truncated).1
          · rw [if_neg cut]
            have going : (intervalGroup s false d ct).truncated = false := by simpa using cut
            rw [← same going] at clip ⊢
            rw [going] at clip
            exact ih (c := { intervalGroup s false d ct with curT := some t, group := [change] })
              clip going
        · exact ih (c := { d with group := d.group ++ [change] }) clipped going

omit limited

/-! ### After the loop -/

/-- A stage of a limited run beside the same stage of the unlimited run: it is skipped once the limit
is passed, only adds rows without a limit, and clips them with one. -/
structure Stage (limit : Nat) (f g : IntervalCollector F → IntervalCollector F) : Prop where
  stops : ∀ c, c.truncated = true → f c = c
  grows : ∀ u, u.truncated = false → u.results <+: (g u).results ∧ (g u).truncated = false
  clips : ∀ c, c.truncated = false → Clipped limit c.results c.total false c.results →
    IntervalClip limit (f c) (g c)

theorem Stage.run {limit : Nat} {f g : IntervalCollector F → IntervalCollector F}
    (stage : Stage limit f g) {c u : IntervalCollector F} (beside : IntervalClip limit c u)
    (going : u.truncated = false) :
    IntervalClip limit (f c) (g u) ∧ (g u).truncated = false := by
  refine ⟨?_, (stage.grows u going).2⟩
  cases cut : c.truncated with
  | true =>
    have clip := beside.clipped
    rw [cut] at clip
    rw [stage.stops c cut]
    exact ⟨cut ▸ clip.grow (stage.grows u going).1, fun absurdity => by simp [cut] at absurdity⟩
  | false =>
    obtain ⟨clip, same⟩ := beside
    obtain rfl := same cut
    exact stage.clips c cut (cut ▸ clip)

/-- The late check, the final pending group and the final flush of `search_interval_collect`. -/
def lateCheck (c : IntervalCollector F) : IntervalCollector F :=
  if !c.initChecksDone && !c.truncated && s.t0 < s.t1 then initCheck s c else c

def lastGroup (c : IntervalCollector F) : IntervalCollector F :=
  match c.curT with
  | some ct => if !c.group.isEmpty && !c.truncated then intervalGroup s true c ct else c
  | none => c

def flush (c : IntervalCollector F) : IntervalCollector F :=
  if c.active && !c.truncated then appendResult s c (openRow s c s.t1) else c

theorem intervalFinish_eq (c : IntervalCollector F) :
    intervalFinish s c = flush s (lastGroup s (lateCheck s c)) := rfl

theorem lateCheck_same (c : IntervalCollector F) : SameRows (lateCheck s c) c := by
  rw [lateCheck]
  split
  · exact initCheck_same s c
  · exact ⟨rfl, rfl, rfl⟩

theorem stage_lateCheck : Stage s.limit (lateCheck s) (lateCheck s.unlimited) := by
  have check : lateCheck s.unlimited = lateCheck s := rfl
  refine ⟨?_, ?_, ?_⟩
  · intro c cut
    rw [lateCheck, if_neg (by simp [cut])]
  · intro u going
    obtain ⟨results, -, truncated⟩ := lateCheck_same s u
    rw [check, results, truncated]
    exact ⟨List.prefix_rfl, going⟩
  · intro c going clipped
    obtain ⟨results, total, truncated⟩ := lateCheck_same s c
    refine ⟨?_, fun _ => rfl⟩
    rw [check, results, total, truncated, going]
    exact clipped

theorem stage_lastGroup (limited : 0 < s.limit) :
    Stage s.limit (lastGroup s) (lastGroup s.unlimited) := by
  refine ⟨?_, ?_, ?_⟩
  · intro c cut
    rw [lastGroup]
    split
    · rw [if_neg (by simp [cut])]
    · rfl
  · intro u going
    rw [lastGroup]
    split
    · split
      · exact intervalGroup_grows s true u _ going
      · exact ⟨List.prefix_rfl, going⟩
    · exact ⟨List.prefix_rfl, going⟩
  · intro c going clipped
    rw [lastGroup, lastGroup]
    split
    · split
      · exact intervalGroup_clip s limited true clipped going _
      · exact ⟨going ▸ clipped, fun _ => rfl⟩
    · exact ⟨going ▸ clipped, fun _ => rfl⟩

theorem stage_flush (limited : 0 < s.limit) : Stage s.limit (flush s) (flush s.unlimited) := by
  have opened (c : IntervalCollector F) :
      openRow s.unlimited c s.unlimited.t1 = openRow s c s.t1 := rfl
  -- The open row is cut, and nothing is reset.
  have cut (s : SearchSetup F) (c : IntervalCollector F) (row : IntervalRow) :
      appendResult s c row = cutRow s true id c row := by
    rw [cutRow, if_neg (by simp)]
    rfl
  refine ⟨?_, ?_, ?_⟩
  · intro c cut
    rw [flush, if_neg (by simp [cut])]
  · intro u going
    rw [flush]
    split
    · rw [appendResult_unlimited_eq]
      exact ⟨List.prefix_append _ _, going⟩
    · exact ⟨List.prefix_rfl, going⟩
  · intro c going clipped
    rw [flush, flush, opened]
    split
    · rw [cut, cut]
      exact cutRow_clip s limited (fun _ => ⟨rfl, rfl, rfl⟩) true clipped going _
    · exact ⟨going ▸ clipped, fun _ => rfl⟩

end Interval

/-! ## Both -/

/-- Rows, total and truncation mark of a limited search, as clipped from all the rows there are. -/
structure ClippedFrom {α : Type} (limit : Nat) (all : List α) (result : List α × Nat × Bool) :
    Prop where
  rows : result.1 = all.take limit
  truncated : result.2.2 = true ↔ limit < all.length
  total : result.2.1 = min all.length (limit + 1)

/-- A limit clips the rows of interval and segment mode. -/
theorem intervalCollect_clips (host : Host) (w : Wave F) (H : BinaryHeap (HeapEntry.key (F := F)))
    (s : SearchSetup F) (limited : 0 < s.limit) :
    ClippedFrom s.limit (searchIntervalCollect host w H s.unlimited).1
      (searchIntervalCollect host w H s) := by
  have loop := intervalLoop_clip s limited (searchStream host w H s)
    (c := ⟨State.empty, [], 0, false, none, [], false, none, none, none, false⟩)
    (Clipped.nil s.limit) rfl
  have going := (intervalLoop_grows s (searchStream host w H s)
    ⟨State.empty, [], 0, false, none, [], false, none, none, none, false⟩ rfl).2
  obtain ⟨loop, going⟩ := (stage_lateCheck s).run loop going
  obtain ⟨loop, going⟩ := (stage_lastGroup s limited).run loop going
  obtain ⟨loop, -⟩ := (stage_flush s limited).run loop going
  obtain ⟨rows, truncated, total⟩ := loop.clipped.result
  unfold searchIntervalCollect
  simp only [intervalFinish_eq]
  exact ⟨rows, truncated, total⟩

/-- `--limit` only clips a search, in every mode. -/
theorem searchLimit_clips (host : Host) (w : Wave F) (H : BinaryHeap (HeapEntry.key (F := F)))
    (s : SearchSetup F) (limited : 0 < s.limit) :
    ClippedFrom s.limit (searchEventCollect host w H s.unlimited).1
      (searchEventCollect host w H s) ∧
    ClippedFrom s.limit (searchIntervalCollect host w H s.unlimited).1
      (searchIntervalCollect host w H s) := by
  constructor
  · have loop := eventLoop_clip host s limited (searchStream host w H s)
      (c := ⟨State.empty, [], 0, false, none, []⟩) (Clipped.nil s.limit) rfl
    obtain ⟨rows, truncated, total⟩ := (eventFinish_clip host s limited loop).result
    exact ⟨rows, truncated, total⟩
  · exact intervalCollect_clips host w H s limited

/-- The first interval of `top.s1=1`. -/
theorem searchLimit_clips_handshake :
    ClippedFrom 1 (searchIntervalCollect MockBackend.host handshakeWave (stdHeap _) (ackSetup [])).1
      (searchIntervalCollect MockBackend.host handshakeWave (stdHeap _)
        { ackSetup [] with limit := 1 }) :=
  (searchLimit_clips MockBackend.host handshakeWave (stdHeap _) { ackSetup [] with limit := 1 }
    Nat.one_pos).2

end RWave.Commands
