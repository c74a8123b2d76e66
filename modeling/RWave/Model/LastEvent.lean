import RWave.Model.Snapshot

/-!
# The last event of a signal

A replay that names a signal several times emits its changes several times, but the last one it emits
for a signal is the last change of the window in any case (`forEachEvent_last`). So `snapshot`, which
looks each signal up by binary search, gives the value of the last event of a replay up to the
instant.
-/

namespace RWave.Model

open RWave.Backend RWave.Misc

variable {F : File}

/-- The events of one signal. -/
def eventsOf (s : F.Sid) (events : List (Emission F)) : List (Emission F) :=
  events.filter fun e => e.2.1 = s

theorem eventsOf_append (s : F.Sid) (l l' : List (Emission F)) :
    eventsOf s (l ++ l') = eventsOf s l ++ eventsOf s l' := List.filter_append _ _

/-- What a cursor has to emit is the end of what its signal has to emit. -/
theorem HeapEntry.rest_suffix (w : Wave F) (t0 : Int) (t1 : Option Int) (e : HeapEntry F) :
    e.rest w t0 t1 <:+ emissions e.sid t0 t1 (w.trace e.sid) :=
  ((List.drop_suffix _ _).filter _).map _

theorem getLast?_of_suffix {α : Type} {l l' : List α} (suffix : l <:+ l') (nonempty : l ≠ []) :
    l.getLast? = l'.getLast? := by
  obtain ⟨before, rfl⟩ := suffix
  rw [List.getLast?_append_of_ne_nil _ nonempty]

/-- A cursor past the end of the window has nothing to emit. -/
theorem HeapEntry.Stands.rest_late {w : Wave F} {e : HeapEntry F} (stands : e.Stands w)
    (ordered : (w.trace e.sid).Ordered) {t0 t1 : Int} (late : t1 < e.tick) :
    e.rest w t0 (some t1) = [] := by
  apply List.eq_nil_iff_forall_not_mem.mpr
  intro x member
  have after := Prod.Lex.monotone_fst _ _ (stands.le_rest ordered member)
  simp only [HeapEntry.rest, emissions, List.mem_map, List.mem_filter, inWindow,
    Bool.and_eq_true, Option.all_some, decide_eq_true_eq] at member
  obtain ⟨c, ⟨-, -, upper⟩, rfl⟩ := member
  simp only [File.emissionKey, ofLex_toLex] at after
  omega

namespace Wave

/-- Cursors, several of which may stand for one signal. -/
def AllStand (w : Wave F) (entries : List (HeapEntry F)) : Prop := ∀ e ∈ entries, e.Stands w

/-- What a run of the loop says about the events of each signal: each belongs to a cursor, and the
last one is the last of the signal's window if a cursor has something to emit. -/
structure LastEvents (w : Wave F) (t0 : Int) (t1 : Option Int) (entries : List (HeapEntry F))
    (out : List (Emission F)) : Prop where
  mem : ∀ x ∈ out, ∃ e ∈ entries, x ∈ e.rest w t0 t1
  last : ∀ e ∈ entries, e.rest w t0 t1 ≠ [] →
    (eventsOf e.sid out).getLast? = (emissions e.sid t0 t1 (w.trace e.sid)).getLast?

theorem AllStand.next {w : Wave F} {H : BinaryHeap (HeapEntry.key (F := F))} {entry : HeapEntry F}
    {heap rest : H.Heap} (stand : AllStand w (H.intoVec heap))
    (popped : H.pop heap = some (entry, rest)) :
    AllStand w ((entry.advance w).toList ++ H.intoVec rest) := by
  intro e member
  rcases List.mem_append.mp member with next | old
  · exact (HeapEntry.advance_stands (stand entry ((H.mem_of_pop popped).mpr (.inl rfl)))
      (by simpa using next)).1
  · exact stand e ((H.mem_of_pop popped).mpr (.inr old))

/-- One turn of the loop that does not stop. -/
theorem LastEvents.step {w : Wave F} {H : BinaryHeap (HeapEntry.key (F := F))} {t0 : Int}
    {t1 : Option Int} {entry : HeapEntry F} {heap rest : H.Heap}
    (stand : AllStand w (H.intoVec heap)) (popped : H.pop heap = some (entry, rest))
    (inTime : ¬ (t1.any fun t1 => decide (t1 < entry.tick)) = true) {out : List (Emission F)}
    (events : LastEvents w t0 t1 ((entry.advance w).toList ++ H.intoVec rest) out) :
    LastEvents w t0 t1 (H.intoVec heap)
      ((if t0 ≤ entry.tick then
        ((w.trace entry.sid)[entry.pos]?).toList.map fun c => (entry.tick, entry.sid, c.value)
      else []) ++ out) := by
  have own := stand entry ((H.mem_of_pop popped).mpr (.inl rfl))
  have inside : inWindow t0 t1 entry.tick = decide (t0 ≤ entry.tick) := inWindow_of_inTime inTime
  have split := own.rest_eq t0 t1
  simp only [inside, decide_eq_true_eq] at split
  rw [← HeapEntry.rest_advance] at split
  generalize (if t0 ≤ entry.tick then
    ((w.trace entry.sid)[entry.pos]?).toList.map fun c => (entry.tick, entry.sid, c.value)
    else []) = emitted at split ⊢
  have advanced : ∀ e ∈ (entry.advance w).toList, e.sid = entry.sid :=
    fun e member => (HeapEntry.advance_stands own (by simpa using member)).2
  refine ⟨?_, ?_⟩
  · intro x member
    rcases List.mem_append.mp member with member | member
    · exact ⟨entry, (H.mem_of_pop popped).mpr (.inl rfl), split ▸ List.mem_append_left _ member⟩
    · obtain ⟨e, cursor, inRest⟩ := events.mem x member
      rcases List.mem_append.mp cursor with next | old
      · refine ⟨entry, (H.mem_of_pop popped).mpr (.inl rfl), ?_⟩
        rw [split]
        exact List.mem_append_right _ (List.mem_flatMap.mpr ⟨e, next, inRest⟩)
      · exact ⟨e, (H.mem_of_pop popped).mpr (.inr old), inRest⟩
  · intro e member nonempty
    rw [eventsOf_append]
    by_cases goesOn : ∃ e' ∈ (entry.advance w).toList ++ H.intoVec rest,
        e'.sid = e.sid ∧ e'.rest w t0 t1 ≠ []
    · -- A cursor of the signal is left, and the last event comes from the rest of the run.
      obtain ⟨e', cursor, same, left⟩ := goesOn
      have later := events.last e' cursor left
      have nonempty : eventsOf e.sid out ≠ [] := by
        rw [← same]
        intro empty
        rw [empty, ← getLast?_of_suffix (e'.rest_suffix w t0 t1) left] at later
        exact left (List.getLast?_eq_none_iff.mp later.symm)
      rw [List.getLast?_append_of_ne_nil _ nonempty, ← same]
      exact later
    · -- The popped cursor emits the signal's last event.
      have drained : eventsOf e.sid out = [] := by
        apply List.filter_eq_nil_iff.mpr
        intro x inOut sid
        obtain ⟨e', cursor, inRest⟩ := events.mem x inOut
        exact goesOn ⟨e', cursor, (emissions_sid inRest).symm.trans (by simpa using sid),
          List.ne_nil_of_mem inRest⟩
      have isEntry : e = entry := by
        rcases (H.mem_of_pop popped).mp member with same | old
        · exact same
        · exact absurd ⟨e, List.mem_append_right _ old, rfl, nonempty⟩ goesOn
      subst isEntry
      have nothingLeft : (e.advance w).toList.flatMap (HeapEntry.rest w t0 t1) = [] := by
        apply List.flatMap_eq_nil_iff.mpr
        intro e' next
        by_contra left
        exact goesOn ⟨e', List.mem_append_left _ next, advanced e' next, left⟩
      rw [nothingLeft, List.append_nil] at split
      have all : eventsOf e.sid emitted = emitted := by
        apply List.filter_eq_self.mpr
        intro x inEmitted
        simpa using emissions_sid (split ▸ inEmitted : x ∈ e.rest w t0 t1)
      rw [drained, List.append_nil, all, ← split]
      exact getLast?_of_suffix (e.rest_suffix w t0 t1) nonempty

theorem replayLoop_last (w : Wave F) (H : BinaryHeap (HeapEntry.key (F := F))) (t0 : Int)
    (t1 : Option Int) (ordered : ∀ sid, (w.trace sid).Ordered) (heap : H.Heap)
    (stand : AllStand w (H.intoVec heap)) :
    LastEvents w t0 t1 (H.intoVec heap) (w.replayLoop H t0 t1 heap) := by
  fun_induction replayLoop w H t0 t1 heap with
  | case1 heap empty => exact ⟨by simp, by simp [H.pop_none empty]⟩
  | case2 heap entry rest popped late =>
    refine ⟨by simp, ?_⟩
    intro e member nonempty
    obtain ⟨t1, rfl, late⟩ := (Option.any_eq_true _ _).mp late
    have first := Prod.Lex.monotone_fst _ _ (popped_first popped member)
    have late : t1 < e.tick := (of_decide_eq_true late).trans_le first
    exact absurd ((stand e member).rest_late (ordered _) late) nonempty
  | case3 heap entry rest popped inTime tr emitted next following ih =>
    have pushed := HeapEntry.intoVec_push_advance H rest following
    have nextStand := stand.next popped
    obtain ⟨mem, last⟩ := ih fun e member => nextStand e (pushed.mem_iff.mp member)
    refine LastEvents.step stand popped inTime ⟨?_, ?_⟩
    · intro x member
      obtain ⟨e, cursor, inRest⟩ := mem x member
      exact ⟨e, pushed.mem_iff.mp cursor, inRest⟩
    · intro e member
      exact last e (pushed.mem_iff.mpr member)
  | case4 heap entry rest popped inTime tr emitted following ih =>
    have advanced : (entry.advance w).toList ++ H.intoVec rest = H.intoVec rest := by
      rw [HeapEntry.advance_none following]
      rfl
    have nextStand := stand.next popped
    refine LastEvents.step stand popped inTime ?_
    rw [advanced] at nextStand ⊢
    exact ih nextStand

/-- Seeding pushes a cursor on the first change of each signal that has one. -/
theorem mem_foldl_seed {w : Wave F} {H : BinaryHeap (HeapEntry.key (F := F))} {sids : List F.Sid}
    {heap : H.Heap} {e : HeapEntry F} :
    e ∈ H.intoVec (sids.foldl (w.seed H) heap) ↔ e ∈ H.intoVec heap ∨
      ∃ s ∈ sids, ∃ first, (w.trace s)[0]? = some first ∧
        e = ⟨first.tick, (F.signal s).declOrder, s, 0⟩ := by
  induction sids generalizing heap with
  | nil => simp
  | cons s rest ih =>
    have seeded : e ∈ H.intoVec (w.seed H heap s) ↔ e ∈ H.intoVec heap ∨
        ∃ first, (w.trace s)[0]? = some first ∧
          e = ⟨first.tick, (F.signal s).declOrder, s, 0⟩ := by
      rw [seed]
      cases (w.trace s)[0]? with
      | none => simp
      | some first =>
        rw [H.mem_push, or_comm]
        simp
    rw [List.foldl_cons, ih, seeded]
    simp only [List.mem_cons, exists_eq_or_imp]
    exact or_assoc

/-- The last event of a signal is the last change of its window, if the signal is selected. -/
theorem forEachEvent_last (w : Wave F) (H : BinaryHeap (HeapEntry.key (F := F))) (t0 : Int)
    (t1 : Option Int) (sids : Option (List F.Sid)) (ordered : ∀ sid, (w.trace sid).Ordered)
    (s : F.Sid) :
    (eventsOf s (w.forEachEvent H t0 t1 sids)).getLast? =
      if s ∈ F.selected sids then (emissions s t0 t1 (w.trace s)).getLast? else none := by
  have seeds (e : HeapEntry F) := @mem_foldl_seed F w H (F.selected sids) H.new e
  simp only [H.intoVec_new, List.not_mem_nil, false_or] at seeds
  have stand : AllStand w (H.intoVec ((F.selected sids).foldl (w.seed H) H.new)) := by
    intro e member
    obtain ⟨s, -, first, here, rfl⟩ := (seeds e).mp member
    exact ⟨rfl, first, here, rfl⟩
  obtain ⟨mem, last⟩ := w.replayLoop_last H t0 t1 ordered _ stand
  rw [← forEachEvent] at mem last
  have empty (none : ∀ e ∈ H.intoVec ((F.selected sids).foldl (w.seed H) H.new), e.sid = s →
      e.rest w t0 t1 = []) : eventsOf s (w.forEachEvent H t0 t1 sids) = [] := by
    apply List.filter_eq_nil_iff.mpr
    intro x inOut sid
    obtain ⟨e, cursor, inRest⟩ := mem x inOut
    rw [none e cursor ((emissions_sid inRest).symm.trans (by simpa using sid))] at inRest
    cases inRest
  by_cases selected : s ∈ F.selected sids
  · rw [if_pos selected]
    by_cases window : emissions s t0 t1 (w.trace s) = []
    · rw [window, empty]
      intro e cursor same
      subst same
      exact List.suffix_nil.mp (window ▸ e.rest_suffix w t0 t1)
    · obtain ⟨first, here⟩ : ∃ first, (w.trace s)[0]? = some first := by
        cases trace : w.trace s with
        | nil => exact absurd (by rw [trace]; rfl) window
        | cons c rest => exact ⟨c, rfl⟩
      exact last _ ((seeds _).mpr ⟨s, selected, first, here, rfl⟩)
        (by simpa [HeapEntry.rest] using window)
  · rw [if_neg selected, empty]
    · rfl
    · intro e cursor same
      obtain ⟨s', member, first, -, rfl⟩ := (seeds e).mp cursor
      exact absurd (same ▸ member) selected

/-! ## Point queries -/

/-- A point query shows the values of the selected signals' traces. -/
theorem snapshot_eq (w : Wave F) (ordered : ∀ sid, (w.trace sid).Ordered) (t : Int)
    (sids : Option (List F.Sid)) (sid : F.Sid) :
    w.snapshot t sids sid =
      if sid ∈ F.selected sids then ((w.trace sid).lastBefore t).map Change.value else none := by
  have visits : ∀ visit ∈ w.resident sids, visit.2 = w.trace visit.1 := by
    intro visit member
    obtain ⟨s, -, found⟩ := List.mem_filterMap.mp member
    obtain ⟨tr, resident, rfl⟩ := Option.map_eq_some_iff.mp found
    rw [trace, resident]
    rfl
  have names : sid ∈ (w.resident sids).map Prod.fst ↔
      sid ∈ F.selected sids ∧ (w.traces sid).isSome := by
    simp only [resident, List.mem_map, List.mem_filterMap, Option.map_eq_some_iff]
    constructor
    · rintro ⟨visit, ⟨s, member, tr, found, rfl⟩, rfl⟩
      exact ⟨member, by rw [found]; rfl⟩
    · rintro ⟨member, found⟩
      obtain ⟨tr, found⟩ := Option.isSome_iff_exists.mp found
      exact ⟨(sid, tr), ⟨sid, member, tr, found, rfl⟩, rfl⟩
  rw [snapshot, valuesAt_eq (v := fun sid => ((w.trace sid).lastBefore t).map Change.value)
    (fun visit member => by rw [visits visit member]; exact ordered _)
    (fun visit member => by rw [visits visit member])]
  simp only [names]
  by_cases selected : sid ∈ F.selected sids
  · cases found : w.traces sid with
    | none => simp [trace, found, selected, SignalTrace.lastBefore]
    | some tr => simp [selected]
  · simp [selected]

end Wave

/-- The least tick. -/
def i64Min : Int := -2 ^ 63

/-- Ticks are `i64`s. -/
def File.TicksFit (F : File) : Prop := ∀ sid, ∀ c ∈ F.traceOf sid, i64Min ≤ c.tick

/-- The last event from the least tick on is the last change at or before the instant. -/
theorem getLast?_emissions (sid : F.Sid) {tr : SignalTrace} (fit : ∀ c ∈ tr, i64Min ≤ c.tick)
    (t : Int) :
    (emissions sid i64Min (some t) tr).getLast?.map (fun e => e.2.2) =
      (tr.lastBefore t).map Change.value := by
  have window : (tr.filter fun c => inWindow i64Min (some t) c.tick) =
      tr.filter fun c => decide (c.tick ≤ t) := by
    refine List.filter_congr ?_
    intro c member
    simp [inWindow, fit c member]
  rw [emissions, window, List.getLast?_map, Option.map_map]
  rfl

/-- Where a trace does not change after `ta`, its values at `ta` and at `tb` are the same. -/
theorem lastBefore_congr {tr : SignalTrace} {ta tb : Int} (le : ta ≤ tb)
    (still : ∀ c ∈ tr, ¬ (ta < c.tick ∧ c.tick ≤ tb)) : tr.lastBefore ta = tr.lastBefore tb := by
  rw [SignalTrace.lastBefore, SignalTrace.lastBefore]
  refine congrArg _ (List.filter_congr ?_)
  intro c member
  have := still c member
  rw [decide_eq_decide]
  omega

namespace Wave

/-- `snapshot` gives a signal the value of the last event that a replay up to the instant emits for
it, and no value where it emits none. -/
theorem Consistent.snapshot_eq_replay {w : Wave F} (consistent : w.Consistent)
    (ordered : F.TracesOrdered) (fit : F.TicksFit) (H : BinaryHeap (HeapEntry.key (F := F)))
    (t : Int) (sids : Option (List F.Sid)) (sid : F.Sid) :
    w.snapshot t sids sid =
      (eventsOf sid (w.forEachEvent H i64Min (some t) sids)).getLast?.map fun e => e.2.2 := by
  have traces := consistent.trace_ordered ordered
  have resident : ∀ c ∈ w.trace sid, i64Min ≤ c.tick := by
    intro c member
    rw [trace] at member
    cases found : w.traces sid with
    | none => simp [found] at member
    | some tr =>
      rw [found, consistent sid tr found] at member
      exact fit sid c member
  rw [w.snapshot_eq traces, w.forEachEvent_last H _ _ _ traces]
  split
  · rw [getLast?_emissions sid resident]
  · rfl

/-- A signal without an event after `ta` has one value at `ta` and at `tb`. -/
theorem Consistent.snapshot_still {w : Wave F} (consistent : w.Consistent)
    (ordered : F.TracesOrdered) (H : BinaryHeap (HeapEntry.key (F := F))) {ta tb : Int}
    (le : ta ≤ tb) (sids : Option (List F.Sid)) (sid : F.Sid)
    (still : eventsOf sid (w.forEachEvent H (ta + 1) (some tb) sids) = []) :
    w.snapshot ta sids sid = w.snapshot tb sids sid := by
  have traces := consistent.trace_ordered ordered
  have last := w.forEachEvent_last H (ta + 1) (some tb) sids traces sid
  rw [still, List.getLast?_nil] at last
  rw [w.snapshot_eq traces, w.snapshot_eq traces]
  by_cases selected : sid ∈ F.selected sids
  · rw [if_pos selected] at last ⊢
    rw [if_pos selected]
    have none := List.getLast?_eq_none_iff.mp last.symm
    rw [emissions, List.map_eq_nil_iff, List.filter_eq_nil_iff] at none
    refine congrArg _ (lastBefore_congr le ?_)
    intro c member inside
    have := none c member
    simp only [inWindow_some] at this
    omega
  · rw [if_neg selected, if_neg selected]

end Wave

end RWave.Model
