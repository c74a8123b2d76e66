import RWave.Backend.FoldChange

/-!
# The FSDB plugin's windowed decode

`stream_signal` and `stream_signal_windowed` of `fsdb/backend.rs`, over a value-change cursor of
NPI: a cursor is the part of the emission stream it stands at the front of. Both streams go
through `fold_change`.

The windowed stream is the stream's own slice (`streamSignalWindowed_eq`), so point queries are
exact. A window shows the same changes as the complete trace unless its first tick carries an
emission that is no change there: without a predecessor `fold_change` takes it for one.
-/

namespace RWave.Backend.Fsdb

open RWave.Backend

/-- `goto_time`: the cursor at the last value change at or before `t`; `none` where the call
returns zero. -/
def gotoTime (t : Int) : SignalTrace → Option SignalTrace
  | [] => none
  | c :: rest =>
    match gotoTime t rest with
    | some cursor => some cursor
    | none => if c.tick ≤ t then some (c :: rest) else none

/-- `stream_signal`: every value change, in time order. -/
def streamSignal (changes : SignalTrace) : SignalTrace := changes

/-- `stream_signal_windowed`: from the change at or before `from`, or from the first one
(`goto_first`), up to the first change past `to`. -/
def streamSignalWindowed (changes : SignalTrace) (frm upto : Int) : SignalTrace :=
  let positioned := if frm ≥ 0 then gotoTime frm changes else none
  (positioned.getD changes).takeWhile fun c => decide (c.tick ≤ upto)

theorem gotoTime_eq {changes : SignalTrace} (ordered : changes.Ordered) (t : Int) :
    gotoTime t changes =
      (changes.lastBefore t).map fun c => c :: changes.filter fun d => decide (t < d.tick) := by
  induction changes with
  | nil => rfl
  | cons c rest ih =>
    obtain ⟨least, ordered⟩ := List.pairwise_cons.mp ordered
    rw [gotoTime, ih ordered]
    simp only [SignalTrace.lastBefore, List.filter_cons]
    by_cases early : c.tick ≤ t
    · have gone : ¬ t < c.tick := by omega
      simp only [early, gone, decide_true, decide_false, if_true, Bool.false_eq_true, if_false]
      cases found : (rest.filter fun d => decide (d.tick ≤ t)).getLast? with
      | some d => rw [List.getLast?_cons, found]; rfl
      | none =>
        have none : rest.filter (fun d => decide (d.tick ≤ t)) = [] :=
          List.getLast?_eq_none_iff.mp found
        have all : rest.filter (fun d => decide (t < d.tick)) = rest := by
          refine List.filter_eq_self.mpr ?_
          intro d hd
          simpa using List.filter_eq_nil_iff.mp none d hd
        simp [none, all]
    · have none : rest.filter (fun d => decide (d.tick ≤ t)) = [] :=
        List.filter_eq_nil_iff.mpr fun d hd => by
          have := least d hd
          simpa using by omega
      simp [early, none]

theorem takeWhile_eq_filter {tr : SignalTrace} (ordered : tr.Ordered) (t : Int) :
    (tr.takeWhile fun c => decide (c.tick ≤ t)) = tr.upTo t := by
  induction tr with
  | nil => rfl
  | cons c rest ih =>
    obtain ⟨least, ordered⟩ := List.pairwise_cons.mp ordered
    rw [List.takeWhile_cons, SignalTrace.upTo, List.filter_cons, ih ordered]
    by_cases early : c.tick ≤ t
    · simp [early, SignalTrace.upTo]
    · simp only [early, decide_false, Bool.false_eq_true, if_false]
      refine (List.filter_eq_nil_iff.mpr fun d hd => ?_).symm
      have := least d hd
      simpa using by omega

/-- The windowed stream is the slice of the stream that starts at its own seed. -/
theorem streamSignalWindowed_eq {changes : SignalTrace} (ordered : changes.Ordered)
    {frm upto : Int} (nonneg : 0 ≤ frm) (le : frm ≤ upto) :
    streamSignalWindowed changes frm upto =
      WindowShape.slice .seedAtTick changes frm (some upto) := by
  have after : SignalTrace.upTo (changes.filter fun d => decide (frm < d.tick)) upto =
      changes.within (frm + 1) (some upto) := by
    rw [SignalTrace.upTo, List.filter_filter]
    refine List.filter_congr ?_
    intro c _
    rw [Bool.eq_iff_iff]
    simp only [inWindow_some, Bool.and_eq_true, decide_eq_true_eq]
    omega
  rw [streamSignalWindowed, if_pos nonneg, gotoTime_eq ordered, WindowShape.slice]
  cases found : changes.lastBefore frm with
  | some c =>
    have early : c.tick ≤ upto := (SignalTrace.lastBefore_mem found).2.trans le
    simp only [Option.map_some, Option.getD_some, Option.toList_some, List.takeWhile_cons, early,
      decide_true, if_true, List.singleton_append]
    rw [takeWhile_eq_filter (ordered.filter _), after]
  | none =>
    have late : changes.upTo frm = [] := List.getLast?_eq_none_iff.mp found
    rw [Option.map_none, Option.getD_none, takeWhile_eq_filter ordered, ordered.upTo_split le, late]
    rfl

/-- The two decodes of one signal. -/
def loadTrace (kind : ValueKind) (changes : SignalTrace) : SignalTrace :=
  foldStream kind (streamSignal changes)

def loadTraceWindowed (kind : ValueKind) (changes : SignalTrace) (frm upto : Int) : SignalTrace :=
  foldStream kind (streamSignalWindowed changes frm upto)

/-- The tick `from` carries no emission, or one that is a change there: its net value differs from
the one before the tick, or nothing was emitted before. -/
def NoPhantom (changes : SignalTrace) (frm : Int) : Prop :=
  ∀ c, changes.lastBefore frm = some c → c.tick = frm → changes.valueAt (frm - 1) ≠ some c.value

/-- Past the first tick of the window both streams make the same changes; at the first tick the
windowed one takes any emission for a change. -/
theorem windowed_counts {changes : SignalTrace} (ordered : changes.Ordered) {frm upto : Int}
    {c : Change} (from_le : frm ≤ c.tick) (le_to : c.tick ≤ upto) :
    ((WindowShape.slice .seedAtTick changes frm (some upto)).lastBefore c.tick = some c ∧
      SignalTrace.valueAt (WindowShape.slice .seedAtTick changes frm (some upto)) (c.tick - 1) ≠
        some c.value) ↔
    changes.lastBefore c.tick = some c ∧
      (frm < c.tick → changes.valueAt (c.tick - 1) ≠ some c.value) := by
  rw [slice_seedAtTick_lastBefore ordered from_le (by simpa using le_to)]
  refine and_congr_right ?_
  intro found
  by_cases first : c.tick = frm
  · have none : SignalTrace.valueAt (WindowShape.slice .seedAtTick changes frm (some upto))
        (c.tick - 1) = none := by
      rw [SignalTrace.valueAt, WindowShape.slice, ← first, found, SignalTrace.lastBefore,
        List.filter_eq_nil_iff.mpr fun d hd => ?_]
      · rfl
      · rcases List.mem_append.mp hd with hd | hd
        · obtain rfl : d = c := by simpa using hd
          simp
        · have := (SignalTrace.mem_within.mp hd).2.1
          simpa using by omega
    exact ⟨fun _ lt => absurd first lt.ne', fun _ => by simp [none]⟩
  · have : frm < c.tick := by omega
    rw [SignalTrace.valueAt, slice_seedAtTick_lastBefore ordered (by omega)
      (by simpa using by omega)]
    exact ⟨fun h _ => h, fun h => h this⟩

section Level

variable {kind : ValueKind} (level : kind ≠ .event) {changes : SignalTrace}
  (ordered : changes.Ordered) {frm upto : Int} (nonneg : 0 ≤ frm) (le : frm ≤ upto)

include level ordered nonneg le

theorem folded_windowed :
    Folded (WindowShape.slice .seedAtTick changes frm (some upto))
      (loadTraceWindowed kind changes frm upto) := by
  rw [loadTraceWindowed, streamSignalWindowed_eq ordered nonneg le]
  exact folded_foldStream level (WindowShape.seedAtTick.slice_ordered ordered frm (some upto))

/-- A window shows the changes of the complete trace exactly when its first tick carries no
emission that is no change there. -/
theorem windowed_changes_iff :
    (loadTraceWindowed kind changes frm upto).within frm (some upto) =
      (loadTrace kind changes).within frm (some upto) ↔ NoPhantom changes frm := by
  have full : Folded changes (loadTrace kind changes) := folded_foldStream level ordered
  have win := folded_windowed level ordered nonneg le
  constructor
  · intro same c found tick
    have shown : c ∈ (loadTraceWindowed kind changes frm upto).within frm (some upto) := by
      refine SignalTrace.mem_within.mpr ⟨(win.mem c).mpr ?_, tick.ge, by simpa [tick] using le⟩
      exact (windowed_counts ordered tick.ge (tick ▸ le)).mpr
        ⟨tick ▸ found, fun lt => absurd tick lt.ne'⟩
    rw [same] at shown
    have new := ((full.mem c).mp (SignalTrace.mem_within.mp shown).1).2
    rwa [tick] at new
  · intro clear
    refine win.within_eq full ?_
    intro c inside
    simp only [inWindow_some] at inside
    rw [windowed_counts ordered inside.1 inside.2]
    refine and_congr_right fun found => ⟨fun new => ?_, fun new _ => new⟩
    rcases inside.1.lt_or_eq with lt | first
    · exact new lt
    · rw [← first] at found ⊢
      exact clear c found first.symm

end Level

/-- The windowed stream shows, at every instant of its window, what the stream shows. -/
theorem streamSignalWindowed_lastBefore {changes : SignalTrace} (ordered : changes.Ordered)
    {frm upto t : Int} (from_le : frm ≤ t) (le_to : t ≤ upto) :
    (streamSignalWindowed changes frm upto).Ordered ∧
    (streamSignalWindowed changes frm upto).lastBefore t = changes.lastBefore t := by
  by_cases nonneg : 0 ≤ frm
  · rw [streamSignalWindowed_eq ordered nonneg (from_le.trans le_to)]
    exact ⟨WindowShape.seedAtTick.slice_ordered ordered frm (some upto),
      slice_seedAtTick_lastBefore ordered from_le (by simpa using le_to)⟩
  · rw [streamSignalWindowed, if_neg nonneg, Option.getD_none, takeWhile_eq_filter ordered]
    exact ⟨ordered.filter _, SignalTrace.lastBefore_upTo changes le_to⟩

/-- Point queries are exact: at every instant of the window the windowed trace has a last entry
when the complete trace has one, and it carries an equal value. -/
theorem windowed_point_exact {kind : ValueKind} (level : kind ≠ .event) {changes : SignalTrace}
    (ordered : changes.Ordered) {frm upto t : Int} (from_le : frm ≤ t) (le_to : t ≤ upto) :
    Option.Rel (fun a b => valuesEqual a.value b.value = true)
      ((loadTraceWindowed kind changes frm upto).lastBefore t)
      ((loadTrace kind changes).lastBefore t) := by
  obtain ⟨winOrdered, winLast⟩ := streamSignalWindowed_lastBefore ordered from_le le_to
  have win : Folded _ (loadTraceWindowed kind changes frm upto) :=
    folded_foldStream level winOrdered
  have full : Folded changes (loadTrace kind changes) := folded_foldStream level ordered
  have same : (loadTraceWindowed kind changes frm upto).valueAt t =
      (loadTrace kind changes).valueAt t := by
    rw [win.value, full.value, SignalTrace.valueAt, winLast]
    rfl
  unfold SignalTrace.valueAt at same
  cases left : (loadTraceWindowed kind changes frm upto).lastBefore t with
  | none =>
    cases right : (loadTrace kind changes).lastBefore t with
    | none => exact .none
    | some b => simp [left, right] at same
  | some a =>
    cases right : (loadTrace kind changes).lastBefore t with
    | none => simp [left, right] at same
    | some b => exact .some (by simpa [left, right] using same)

/-- Up to the end of the stream the windowed stream is a slice without an end. -/
theorem streamSignalWindowed_end {changes : SignalTrace} (ordered : changes.Ordered) {frm last : Int}
    (nonneg : 0 ≤ frm) (fits : ∀ c ∈ changes, c.tick ≤ last) :
    streamSignalWindowed changes frm last = WindowShape.slice .seedAtTick changes frm none := by
  have after : (changes.filter fun d => decide (frm < d.tick)) = changes.within (frm + 1) none := by
    refine List.filter_congr ?_
    intro c _
    rw [Bool.eq_iff_iff]
    simp only [inWindow, Option.all_none, Bool.and_true, decide_eq_true_eq]
    omega
  rw [streamSignalWindowed, if_pos nonneg, gotoTime_eq ordered, WindowShape.slice, ← after,
    List.takeWhile_eq_self_iff.mpr]
  · cases found : changes.lastBefore frm with
    | some c => rfl
    | none =>
      have all : changes.filter (fun d => decide (frm < d.tick)) = changes := by
        refine List.filter_eq_self.mpr ?_
        intro d member
        simpa using List.filter_eq_nil_iff.mp (List.getLast?_eq_none_iff.mp found) d member
      simp [all]
  · intro c member
    refine decide_eq_true (fits c ?_)
    cases found : changes.lastBefore frm with
    | none =>
      rw [found] at member
      exact member
    | some d =>
      rw [found] at member
      rcases List.mem_cons.mp member with rfl | late
      · exact (SignalTrace.lastBefore_mem found).1
      · exact (List.mem_filter.mp late).1

/-- The windowed stream answers point queries of the stream; the host asks for the end as the last
tick there is. -/
theorem streamSignalWindowed_pointExact {changes : SignalTrace} (ordered : changes.Ordered)
    {last : Int} (fits : ∀ c ∈ changes, c.tick ≤ last) (frm : Int) {upto : Option Int}
    (le : ∀ b ∈ upto, frm ≤ b) :
    PointExact (streamSignal changes) (streamSignalWindowed changes frm (upto.getD last)) frm
      upto := by
  cases upto with
  | some b =>
    have le : frm ≤ b := le b rfl
    obtain ⟨inOrder, -⟩ := streamSignalWindowed_lastBefore ordered le_rfl le
    refine ⟨inOrder, fun t from_le le_to => ?_⟩
    exact congrArg _ (streamSignalWindowed_lastBefore ordered from_le (le_to b rfl)).2
  | none =>
    by_cases nonneg : 0 ≤ frm
    · rw [Option.getD_none, streamSignalWindowed_end ordered nonneg fits]
      exact WindowShape.seedAtTick.pointExact ordered frm none
    · have whole : changes.upTo last = changes := by
        refine List.filter_eq_self.mpr ?_
        intro c member
        exact decide_eq_true (fits c member)
      rw [Option.getD_none, streamSignalWindowed, if_neg nonneg, Option.getD_none,
        takeWhile_eq_filter ordered, whole]
      exact .refl ordered frm none

/-- A redundant emission at tick 10. -/
def redundantChanges : SignalTrace := [⟨2, .bits "1"⟩, ⟨10, .bits "1"⟩]

theorem redundantChanges_ordered : redundantChanges.Ordered := by
  unfold SignalTrace.Ordered redundantChanges
  decide

/-- A window from tick 10 on shows a change at tick 10, which the complete trace does not have. -/
theorem windowed_changes_phantom :
    redundantChanges.Ordered ∧
    (loadTraceWindowed .bits redundantChanges 10 20).within 10 (some 20) ≠
      (loadTrace .bits redundantChanges).within 10 (some 20) :=
  ⟨redundantChanges_ordered, by decide⟩

theorem windowed_changes_iff_redundant :
    (loadTraceWindowed .bits redundantChanges 10 20).within 10 (some 20) =
      (loadTrace .bits redundantChanges).within 10 (some 20) ↔ NoPhantom redundantChanges 10 :=
  windowed_changes_iff (by decide) redundantChanges_ordered (by decide) (by decide)

theorem windowed_point_exact_redundant :
    Option.Rel (fun a b => valuesEqual a.value b.value = true)
      ((loadTraceWindowed .bits redundantChanges 10 20).lastBefore 15)
      ((loadTrace .bits redundantChanges).lastBefore 15) :=
  windowed_point_exact (by decide) redundantChanges_ordered (by decide) (by decide)

end RWave.Backend.Fsdb
