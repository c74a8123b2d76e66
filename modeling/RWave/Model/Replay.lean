import RWave.Model.Wave
import RWave.Misc.StableSort
import RWave.Misc.BinaryHeap

/-!
# Replaying changes in time order

`for_each_event`: a merge of the resident traces of the selected signals through a min-heap of
cursors. Its specification is `forEachEvent_eq`: the calls of `f` are the changes of the window,
stably sorted by tick and declaration order, whatever the heap does with ties.
-/

namespace RWave.Model

open RWave.Backend RWave.Misc

/-- One call of the replay callback: the tick, the signal and the value. -/
abbrev Emission (F : File) : Type := Int × F.Sid × RawValue

/-- The order of the replay: by tick, then by declaration order. -/
def File.emissionKey (F : File) (e : Emission F) : Int ×ₗ Nat :=
  toLex (e.1, (F.signal e.2.1).declOrder)

variable {F : File}

/-- A cursor into one signal's trace. -/
structure HeapEntry (F : File) where
  tick : Int
  declOrder : Nat
  sid : F.Sid
  pos : Nat

/-- The `Ord` of `HeapEntry`, reversed so that a max-heap yields the smallest tick first. -/
def HeapEntry.key (e : HeapEntry F) : (Int ×ₗ Nat)ᵒᵈ :=
  OrderDual.toDual (toLex (e.tick, e.declOrder))

namespace Wave

/-- `trace`, with an absent trace as the empty one. -/
def trace (w : Wave F) (sid : F.Sid) : SignalTrace := (w.traces sid).getD []

/-- `seed`: push the first change of a signal that has one. -/
def seed (w : Wave F) (H : BinaryHeap (HeapEntry.key (F := F))) (heap : H.Heap) (sid : F.Sid) :
    H.Heap :=
  match (w.trace sid)[0]? with
  | some first =>
    H.push { tick := first.tick, declOrder := (F.signal sid).declOrder, sid, pos := 0 } heap
  | none => heap

/-- What is left to replay: the changes behind every cursor, and the cursors. -/
def remaining (w : Wave F) (H : BinaryHeap (HeapEntry.key (F := F))) (heap : H.Heap) : Nat :=
  ((H.intoVec heap).map fun e => (w.trace e.sid).length - e.pos + 1).sum

theorem remaining_push (w : Wave F) (H : BinaryHeap (HeapEntry.key (F := F))) (e : HeapEntry F)
    (heap : H.Heap) :
    w.remaining H (H.push e heap) =
      (w.trace e.sid).length - e.pos + 1 + w.remaining H heap := by
  exact ((H.intoVec_push e heap).map _).sum_nat.trans List.sum_cons

theorem remaining_pop (w : Wave F) (H : BinaryHeap (HeapEntry.key (F := F))) {e : HeapEntry F}
    {heap rest : H.Heap} (popped : H.pop heap = some (e, rest)) :
    w.remaining H heap = (w.trace e.sid).length - e.pos + 1 + w.remaining H rest := by
  exact ((H.pop_some popped).1.map _).sum_nat.trans List.sum_cons

/-- The `while let Some(entry) = heap.pop()` loop of `for_each_event`. -/
def replayLoop (w : Wave F) (H : BinaryHeap (HeapEntry.key (F := F))) (t0 : Int) (t1 : Option Int)
    (heap : H.Heap) : List (Emission F) :=
  match _popped : H.pop heap with
  | none => []
  | some (entry, rest) =>
    -- Once the smallest remaining tick exceeds `t1`, stop.
    if t1.any fun t1 => decide (t1 < entry.tick) then
      []
    else
      let tr := w.trace entry.sid
      let emitted :=
        if t0 ≤ entry.tick then
          (tr[entry.pos]?).toList.map fun c => (entry.tick, entry.sid, c.value)
        else []
      match _following : tr[entry.pos + 1]? with
      | some next =>
        emitted ++
          replayLoop w H t0 t1 (H.push { entry with tick := next.tick, pos := entry.pos + 1 } rest)
      | none => emitted ++ replayLoop w H t0 t1 rest
termination_by w.remaining H heap
decreasing_by
  · have inside : entry.pos + 1 < tr.length := (List.getElem?_eq_some_iff.mp _following).1
    have len : (w.trace entry.sid).length = tr.length := rfl
    rw [remaining_push, remaining_pop w H _popped]
    dsimp only
    omega
  · rw [remaining_pop w H _popped]
    omega

/-- `for_each_event`: the calls of `f`. -/
def forEachEvent (w : Wave F) (H : BinaryHeap (HeapEntry.key (F := F))) (t0 : Int)
    (t1 : Option Int) (sids : Option (List F.Sid)) : List (Emission F) :=
  w.replayLoop H t0 t1 ((F.selected sids).foldl (w.seed H) H.new)

end Wave

/-! ## The cursors -/

/-- The emissions of a stretch of one signal's trace. -/
def emissions (sid : F.Sid) (t0 : Int) (t1 : Option Int) (tr : SignalTrace) : List (Emission F) :=
  (tr.filter fun c => inWindow t0 t1 c.tick).map fun c => (c.tick, sid, c.value)

theorem emissions_cons (sid : F.Sid) (t0 : Int) (t1 : Option Int) (c : Change) (tr : SignalTrace) :
    emissions sid t0 t1 (c :: tr) =
      (if inWindow t0 t1 c.tick then [(c.tick, sid, c.value)] else []) ++
        emissions sid t0 t1 tr := by
  by_cases inside : inWindow t0 t1 c.tick
  · simp [emissions, inside]
  · simp [emissions, inside]

theorem emissions_sid {sid : F.Sid} {t0 : Int} {t1 : Option Int} {tr : SignalTrace}
    {e : Emission F} (h : e ∈ emissions sid t0 t1 tr) : e.2.1 = sid := by
  simp only [emissions, List.mem_map] at h
  obtain ⟨c, -, rfl⟩ := h
  rfl

theorem emissions_filter_sid (sid s : F.Sid) (t0 : Int) (t1 : Option Int) (tr : SignalTrace) :
    (emissions sid t0 t1 tr).filter (fun e => e.2.1 = s) =
      if sid = s then emissions sid t0 t1 tr else [] := by
  split
  next same => exact List.filter_eq_self.mpr fun e he => by simpa [emissions_sid he] using same
  next other => exact List.filter_eq_nil_iff.mpr fun e he => by simpa [emissions_sid he] using other

/-- Of the emissions of several signals, each named once, those of one signal are its own. -/
theorem filter_flatMap_emissions {t0 : Int} {t1 : Option Int} {sids : List F.Sid}
    (nodup : sids.Nodup) (trace : F.Sid → SignalTrace) (s : F.Sid) :
    (sids.flatMap fun sid => emissions sid t0 t1 (trace sid)).filter (fun e => e.2.1 = s) =
      if s ∈ sids then emissions s t0 t1 (trace s) else [] := by
  rw [List.filter_flatMap]
  simp only [emissions_filter_sid]
  induction sids with
  | nil => simp
  | cons sid sids ih =>
    obtain ⟨fresh, nodup⟩ := List.nodup_cons.mp nodup
    rw [List.flatMap_cons, ih nodup]
    by_cases same : sid = s
    · subst same
      simp [fresh]
    · simp [same, Ne.symm same]

/-- What one cursor still has to emit. -/
def HeapEntry.rest (w : Wave F) (t0 : Int) (t1 : Option Int) (e : HeapEntry F) :
    List (Emission F) :=
  emissions e.sid t0 t1 ((w.trace e.sid).drop e.pos)

/-- A cursor stands on a change of its signal. -/
def HeapEntry.Stands (w : Wave F) (e : HeapEntry F) : Prop :=
  e.declOrder = (F.signal e.sid).declOrder ∧ ∃ c, (w.trace e.sid)[e.pos]? = some c ∧ c.tick = e.tick

/-- A cursor's own change comes first, then what its successor has to emit. -/
theorem HeapEntry.Stands.rest_eq {w : Wave F} {e : HeapEntry F} (h : e.Stands w) (t0 : Int)
    (t1 : Option Int) :
    e.rest w t0 t1 =
      (if inWindow t0 t1 e.tick then
        ((w.trace e.sid)[e.pos]?).toList.map fun c => (e.tick, e.sid, c.value) else []) ++
      emissions e.sid t0 t1 ((w.trace e.sid).drop (e.pos + 1)) := by
  obtain ⟨-, c, here, tick⟩ := h
  obtain ⟨inside, rfl⟩ := List.getElem?_eq_some_iff.mp here
  rw [rest, List.drop_eq_getElem_cons inside, emissions_cons, here, tick]
  rfl

/-- The heap's invariant: one cursor a signal, each on a change. -/
structure Cursors (w : Wave F) (entries : List (HeapEntry F)) : Prop where
  stands : ∀ e ∈ entries, e.Stands w
  nodup : (entries.map HeapEntry.sid).Nodup

theorem Cursors.perm {w : Wave F} {l l' : List (HeapEntry F)} (h : Cursors w l)
    (perm : l.Perm l') : Cursors w l' where
  stands e he := h.stands e (perm.mem_iff.mpr he)
  nodup := (perm.map _).nodup_iff.mp h.nodup

/-- With one cursor a signal, the cursors of a signal do not depend on the heap's order. -/
theorem Cursors.filter_eq {w : Wave F} {l l' : List (HeapEntry F)} (h : Cursors w l)
    (perm : l.Perm l') (s : F.Sid) :
    l.filter (fun e => e.sid = s) = l'.filter (fun e => e.sid = s) := by
  have short : (l.filter (fun e => e.sid = s)).length ≤ 1 := by
    have counted := List.nodup_iff_count_le_one.mp h.nodup s
    rw [List.count, List.countP_map, List.countP_eq_length_filter] at counted
    exact counted
  have perm' := perm.filter (fun e => decide (e.sid = s))
  generalize l.filter (fun e => decide (e.sid = s)) = cursors at short perm'
  match cursors, short with
  | [], _ => exact (List.nil_perm.mp perm').symm
  | [e], _ => exact (List.perm_singleton.mp perm'.symm).symm

/-- The cursor after the one just popped, when its trace goes on. -/
def HeapEntry.advance (w : Wave F) (e : HeapEntry F) : Option (HeapEntry F) :=
  ((w.trace e.sid)[e.pos + 1]?).map fun next => { e with tick := next.tick, pos := e.pos + 1 }

theorem HeapEntry.advance_some {w : Wave F} {e : HeapEntry F} {next : Change}
    (following : (w.trace e.sid)[e.pos + 1]? = some next) :
    e.advance w = some { e with tick := next.tick, pos := e.pos + 1 } := by
  rw [advance, following]
  rfl

theorem HeapEntry.advance_none {w : Wave F} {e : HeapEntry F}
    (following : (w.trace e.sid)[e.pos + 1]? = none) : e.advance w = none := by
  rw [advance, following]
  rfl

/-- What the heap holds after a step: the cursors left and the popped one advanced. -/
theorem HeapEntry.intoVec_push_advance {w : Wave F} (H : BinaryHeap (HeapEntry.key (F := F)))
    {e : HeapEntry F} (heap : H.Heap) {next : Change}
    (following : (w.trace e.sid)[e.pos + 1]? = some next) :
    (H.intoVec (H.push { e with tick := next.tick, pos := e.pos + 1 } heap)).Perm
      ((e.advance w).toList ++ H.intoVec heap) := by
  rw [advance_some following]
  exact H.intoVec_push _ heap

theorem HeapEntry.rest_advance (w : Wave F) (t0 : Int) (t1 : Option Int) (e : HeapEntry F) :
    (e.advance w).toList.flatMap (rest w t0 t1) =
      emissions e.sid t0 t1 ((w.trace e.sid).drop (e.pos + 1)) := by
  unfold advance
  cases following : (w.trace e.sid)[e.pos + 1]? with
  | none =>
    rw [List.drop_eq_nil_of_le (List.getElem?_eq_none_iff.mp following)]
    rfl
  | some c => simp [rest]

theorem HeapEntry.advance_stands {w : Wave F} {e e' : HeapEntry F} (h : e.Stands w)
    (next : e.advance w = some e') : e'.Stands w ∧ e'.sid = e.sid := by
  unfold advance at next
  cases following : (w.trace e.sid)[e.pos + 1]? with
  | none => simp [following] at next
  | some c =>
    simp only [following, Option.map_some, Option.some.injEq] at next
    subst next
    exact ⟨⟨h.1, c, following, rfl⟩, rfl⟩

theorem HeapEntry.advance_le {w : Wave F} {e e' : HeapEntry F} (h : e.Stands w)
    (ordered : (w.trace e.sid).Ordered) (next : e.advance w = some e') :
    toLex (e.tick, e.declOrder) ≤ toLex (e'.tick, e'.declOrder) := by
  obtain ⟨-, c, here, same⟩ := h
  simp only [advance, Option.map_eq_some_iff] at next
  obtain ⟨d, following, rfl⟩ := next
  obtain ⟨inside, rfl⟩ := List.getElem?_eq_some_iff.mp here
  obtain ⟨inside', rfl⟩ := List.getElem?_eq_some_iff.mp following
  have le := List.pairwise_iff_getElem.mp ordered e.pos (e.pos + 1) inside inside' (by omega)
  rw [same] at le
  rcases le.lt_or_eq with lt | eq
  · exact Prod.Lex.toLex_le_toLex.mpr (.inl lt)
  · exact Prod.Lex.toLex_le_toLex.mpr (.inr ⟨eq, le_rfl⟩)

/-- Nothing a cursor has to emit comes before the cursor. -/
theorem HeapEntry.Stands.le_rest {w : Wave F} {e : HeapEntry F} (h : e.Stands w)
    (ordered : (w.trace e.sid).Ordered) {t0 : Int} {t1 : Option Int} {x : Emission F}
    (hx : x ∈ e.rest w t0 t1) : toLex (e.tick, e.declOrder) ≤ F.emissionKey x := by
  obtain ⟨decl, c, here, tick⟩ := h
  have sid := emissions_sid hx
  obtain ⟨inside, rfl⟩ := List.getElem?_eq_some_iff.mp here
  simp only [rest, emissions, List.mem_map, List.mem_filter] at hx
  obtain ⟨d, ⟨hd, -⟩, rfl⟩ := hx
  have le : e.tick ≤ d.tick := by
    have suffix := ordered.drop (i := e.pos)
    rw [List.drop_eq_getElem_cons inside] at suffix hd
    rcases List.mem_cons.mp hd with rfl | later
    · exact tick.ge
    · exact tick.symm.le.trans ((List.pairwise_cons.mp suffix).1 d later)
  simp only [File.emissionKey, Prod.Lex.toLex_le_toLex, decl]
  rcases le.lt_or_eq with lt | eq
  · exact .inl lt
  · exact .inr ⟨eq, le_rfl⟩

/-- One iteration: popping the first cursor and pushing its successor keeps the invariant, and
takes from what is left to emit exactly the popped cursor's own change. -/
theorem Cursors.step {w : Wave F} {H : BinaryHeap (HeapEntry.key (F := F))} {entry : HeapEntry F}
    {heap rest next : H.Heap} (cursors : Cursors w (H.intoVec heap))
    (popped : H.pop heap = some (entry, rest))
    (pushed : (H.intoVec next).Perm ((entry.advance w).toList ++ H.intoVec rest)) :
    Cursors w (H.intoVec next) ∧
    (∀ e ∈ H.intoVec next, entry.advance w = some e ∨ e ∈ H.intoVec heap) ∧
    ∀ t0 t1 s, ((H.intoVec heap).filter fun e => e.sid = s).flatMap (HeapEntry.rest w t0 t1) =
      (if entry.sid = s ∧ inWindow t0 t1 entry.tick then
        ((w.trace entry.sid)[entry.pos]?).toList.map fun c => (entry.tick, entry.sid, c.value)
      else []) ++
      ((H.intoVec next).filter fun e => e.sid = s).flatMap (HeapEntry.rest w t0 t1) := by
  have perm := (H.pop_some popped).1
  have all := cursors.perm perm
  have stands := all.stands entry (by simp)
  have kept : Cursors w ((entry.advance w).toList ++ H.intoVec rest) := by
    cases advanced : entry.advance w with
    | none =>
      exact ⟨fun e he => all.stands e (by simpa using Or.inr he), (List.nodup_cons.mp all.nodup).2⟩
    | some e' =>
      obtain ⟨stands', same⟩ := HeapEntry.advance_stands stands advanced
      refine ⟨fun e he => ?_, by simpa [same] using all.nodup⟩
      rcases List.mem_cons.mp he with rfl | he
      · exact stands'
      · exact all.stands e (List.mem_cons_of_mem _ he)
  refine ⟨kept.perm pushed.symm, fun e he => ?_, fun t0 t1 s => ?_⟩
  · rcases List.mem_append.mp (pushed.mem_iff.mp he) with he | he
    · exact .inl (by simpa using he)
    · exact .inr (perm.mem_iff.mpr (by simp [he]))
  · rw [cursors.filter_eq perm, (kept.perm pushed.symm).filter_eq pushed, List.filter_cons,
      List.filter_append, List.flatMap_append]
    have others : ((entry.advance w).toList.filter fun e => e.sid = s) =
        if entry.sid = s then (entry.advance w).toList else [] := by
      cases advanced : entry.advance w with
      | none => simp
      | some e' => simp [List.filter_cons, (HeapEntry.advance_stands stands advanced).2]
    rw [others]
    by_cases same : entry.sid = s
    · simp only [same, decide_true, if_true, List.flatMap_cons, stands.rest_eq, true_and,
        List.append_assoc]
      rw [← same, HeapEntry.rest_advance]
    · simp [same]

namespace Wave

/-- The popped cursor is a first one. -/
theorem popped_first {H : BinaryHeap (HeapEntry.key (F := F))} {entry : HeapEntry F}
    {heap rest : H.Heap} (popped : H.pop heap = some (entry, rest)) {e : HeapEntry F}
    (he : e ∈ H.intoVec heap) :
    toLex (entry.tick, entry.declOrder) ≤ toLex (e.tick, e.declOrder) :=
  OrderDual.toDual_le_toDual.mp ((H.pop_some popped).2 e he)

/-- Everything left to emit belongs to a cursor of the heap. -/
theorem mem_of_spec {w : Wave F} {entries : List (HeapEntry F)} {out : List (Emission F)}
    {t0 : Int} {t1 : Option Int} (spec : ∀ s, out.filter (fun e => e.2.1 = s) =
      (entries.filter fun e => e.sid = s).flatMap (HeapEntry.rest w t0 t1)) {x : Emission F}
    (hx : x ∈ out) : ∃ e ∈ entries, x ∈ e.rest w t0 t1 := by
  have : x ∈ out.filter (fun e => e.2.1 = x.2.1) := by simpa using hx
  rw [spec] at this
  obtain ⟨e, he, inRest⟩ := List.mem_flatMap.mp this
  exact ⟨e, (List.mem_filter.mp he).1, inRest⟩

/-- One iteration of the loop that does not stop. -/
theorem replay_step (w : Wave F) {H : BinaryHeap (HeapEntry.key (F := F))} (t0 : Int)
    {t1 : Option Int} (ordered : ∀ sid, (w.trace sid).Ordered) {entry : HeapEntry F}
    {heap rest next : H.Heap} (cursors : Cursors w (H.intoVec heap))
    (popped : H.pop heap = some (entry, rest))
    (inTime : ¬ (t1.any fun t1 => decide (t1 < entry.tick)) = true)
    (pushed : (H.intoVec next).Perm ((entry.advance w).toList ++ H.intoVec rest))
    {out : List (Emission F)}
    (spec : ∀ s, out.filter (fun e => e.2.1 = s) =
      ((H.intoVec next).filter fun e => e.sid = s).flatMap (HeapEntry.rest w t0 t1))
    (sorted : SortedBy F.emissionKey out) :
    let emitted := if t0 ≤ entry.tick then
        ((w.trace entry.sid)[entry.pos]?).toList.map fun c => (entry.tick, entry.sid, c.value)
      else []
    (∀ s, (emitted ++ out).filter (fun e => e.2.1 = s) =
      ((H.intoVec heap).filter fun e => e.sid = s).flatMap (HeapEntry.rest w t0 t1)) ∧
    SortedBy F.emissionKey (emitted ++ out) := by
  intro emitted
  obtain ⟨cursors', sub, split⟩ := cursors.step popped pushed
  have inside : inWindow t0 t1 entry.tick = decide (t0 ≤ entry.tick) := inWindow_of_inTime inTime
  have own : ∀ x ∈ emitted, x.1 = entry.tick ∧ x.2.1 = entry.sid := by
    intro x hx
    simp only [emitted] at hx
    split at hx
    · obtain ⟨c, -, rfl⟩ := List.mem_map.mp hx
      exact ⟨rfl, rfl⟩
    · cases hx
  have single : emitted.length ≤ 1 := by
    simp only [emitted]
    split
    · cases (w.trace entry.sid)[entry.pos]? <;> simp
    · simp
  refine ⟨fun s => ?_, ?_⟩
  · rw [List.filter_append, spec, split, inside]
    congr 1
    by_cases same : entry.sid = s
    · rw [List.filter_eq_self.mpr fun x hx => by simpa [(own x hx).2] using same]
      by_cases lower : t0 ≤ entry.tick
      · simp [emitted, same, lower]
      · simp [emitted, lower]
    · rw [List.filter_eq_nil_iff.mpr fun x hx => by simpa [(own x hx).2] using same]
      simp [same]
  · refine List.pairwise_append.mpr ⟨?_, sorted, fun x hx y hy => ?_⟩
    · clear_value emitted
      cases emitted with
      | nil => exact List.Pairwise.nil
      | cons x tail =>
        rw [List.length_cons] at single
        obtain rfl := List.eq_nil_of_length_eq_zero (show tail.length = 0 by omega)
        exact List.pairwise_singleton _ x
    · obtain ⟨e, he, inRest⟩ := mem_of_spec spec hy
      have keyX : F.emissionKey x = toLex (entry.tick, entry.declOrder) := by
        have decl := (cursors.stands entry ((H.mem_of_pop popped).mpr (.inl rfl))).1
        rw [File.emissionKey, (own x hx).1, (own x hx).2, decl]
      rw [keyX]
      refine le_trans ?_ ((cursors'.stands e he).le_rest (ordered _) inRest)
      rcases sub e he with next | he
      · exact entry.advance_le (cursors.stands entry ((H.mem_of_pop popped).mpr (.inl rfl)))
          (ordered _) next
      · exact popped_first popped he

/-- What the loop emits: the cursors' changes, signal by signal in trace order, in time order. -/
theorem replayLoop_spec (w : Wave F) (H : BinaryHeap (HeapEntry.key (F := F))) (t0 : Int)
    (t1 : Option Int) (ordered : ∀ sid, (w.trace sid).Ordered) (heap : H.Heap)
    (cursors : Cursors w (H.intoVec heap)) :
    (∀ s, (w.replayLoop H t0 t1 heap).filter (fun e => e.2.1 = s) =
      ((H.intoVec heap).filter fun e => e.sid = s).flatMap (HeapEntry.rest w t0 t1)) ∧
    SortedBy F.emissionKey (w.replayLoop H t0 t1 heap) := by
  fun_induction replayLoop w H t0 t1 heap with
  | case1 heap empty => simp [H.pop_none empty, sortedBy_nil]
  | case2 heap entry rest popped late =>
    refine ⟨fun s => ?_, sortedBy_nil _⟩
    refine (List.flatMap_eq_nil_iff.mpr fun e he => ?_).symm
    have he := (List.mem_filter.mp he).1
    refine List.eq_nil_iff_forall_not_mem.mpr ?_
    intro x hx
    have after := (popped_first popped he).trans ((cursors.stands e he).le_rest (ordered _) hx)
    simp only [HeapEntry.rest, emissions, List.mem_map, List.mem_filter, inWindow,
      Bool.and_eq_true, Option.all_eq_true] at hx
    obtain ⟨c, ⟨-, -, upper⟩, rfl⟩ := hx
    obtain ⟨t1, rfl, late⟩ := (Option.any_eq_true _ _).mp late
    have upper := of_decide_eq_true (upper t1 rfl)
    have := Prod.Lex.monotone_fst _ _ after
    simp only [File.emissionKey, ofLex_toLex] at this
    have := of_decide_eq_true late
    omega
  | case3 heap entry rest popped inTime tr emitted next following ih =>
    have pushed := HeapEntry.intoVec_push_advance H rest following
    obtain ⟨spec, sorted⟩ := ih (cursors.step popped pushed).1
    exact replay_step w t0 ordered cursors popped inTime pushed spec sorted
  | case4 heap entry rest popped inTime tr emitted following ih =>
    have pushed : (H.intoVec rest).Perm ((entry.advance w).toList ++ H.intoVec rest) := by
      rw [HeapEntry.advance_none following]
      rfl
    obtain ⟨spec, sorted⟩ := ih (cursors.step popped pushed).1
    exact replay_step w t0 ordered cursors popped inTime pushed spec sorted

/-- Seeding pushes one cursor for each selected signal with changes. -/
theorem cursors_seed (w : Wave F) (H : BinaryHeap (HeapEntry.key (F := F))) (t0 : Int)
    (t1 : Option Int) {sids : List F.Sid} (nodup : sids.Nodup) :
    Cursors w (H.intoVec (sids.foldl (w.seed H) H.new)) ∧
    (∀ e ∈ H.intoVec (sids.foldl (w.seed H) H.new), e.sid ∈ sids) ∧
    ∀ s, ((H.intoVec (sids.foldl (w.seed H) H.new)).filter fun e => e.sid = s).flatMap
        (HeapEntry.rest w t0 t1) =
      if s ∈ sids then emissions s t0 t1 (w.trace s) else [] := by
  induction sids using List.reverseRecOn with
  | nil => exact ⟨⟨by simp [H.intoVec_new], by simp [H.intoVec_new]⟩, by simp [H.intoVec_new],
      by simp [H.intoVec_new]⟩
  | append_singleton sids sid ih =>
    obtain ⟨nodup, -, apart⟩ := List.nodup_append.mp nodup
    have fresh : sid ∉ sids := fun h => apart sid h sid (by simp) rfl
    obtain ⟨cursors, members, left⟩ := ih nodup
    rw [List.foldl_append, List.foldl_cons, List.foldl_nil]
    generalize sids.foldl (w.seed H) H.new = heap at cursors members left ⊢
    unfold seed
    cases here : (w.trace sid)[0]? with
    | none =>
      have empty : w.trace sid = [] := by simpa using here
      refine ⟨cursors, fun e he => by simp [members e he], fun s => ?_⟩
      rw [left]
      by_cases same : s = sid
      · subst same
        simp [fresh, empty, emissions]
      · simp [same]
    | some first =>
      have pushed := H.intoVec_push ⟨first.tick, (F.signal sid).declOrder, sid, 0⟩ heap
      have cursors' : Cursors w
          (⟨first.tick, (F.signal sid).declOrder, sid, 0⟩ :: H.intoVec heap) := by
        refine ⟨fun e he => ?_, List.nodup_cons.mpr ⟨fun h => ?_, cursors.nodup⟩⟩
        · rcases List.mem_cons.mp he with rfl | he
          · exact ⟨rfl, first, here, rfl⟩
          · exact cursors.stands e he
        · obtain ⟨e, he, (same : e.sid = sid)⟩ := List.mem_map.mp h
          exact fresh (same ▸ members e he)
      refine ⟨cursors'.perm pushed.symm, fun e he => ?_, fun s => ?_⟩
      · rcases H.mem_push.mp he with rfl | he
        · simp
        · simp [members e he]
      · dsimp only
        rw [(cursors'.perm pushed.symm).filter_eq pushed, List.filter_cons]
        by_cases same : s = sid
        · subst same
          simp only [decide_true, if_true, List.flatMap_cons, left, fresh, if_false,
            List.append_nil, HeapEntry.rest, List.drop_zero, List.mem_append, List.mem_singleton,
            or_true]
        · simp [same, Ne.symm same, left]

/-- Signal by signal the replay is the window of the trace, and all of it is in time order. -/
theorem forEachEvent_spec (w : Wave F) (H : BinaryHeap (HeapEntry.key (F := F))) (t0 : Int)
    (t1 : Option Int) (sids : Option (List F.Sid)) (ordered : ∀ sid, (w.trace sid).Ordered)
    (nodup : (F.selected sids).Nodup) :
    (∀ s, (w.forEachEvent H t0 t1 sids).filter (fun e => e.2.1 = s) =
      if s ∈ F.selected sids then emissions s t0 t1 (w.trace s) else []) ∧
    SortedBy F.emissionKey (w.forEachEvent H t0 t1 sids) := by
  obtain ⟨cursors, -, left⟩ := w.cursors_seed H t0 t1 nodup
  obtain ⟨spec, sorted⟩ := w.replayLoop_spec H t0 t1 ordered _ cursors
  exact ⟨fun s => (spec s).trans (left s), sorted⟩

/-- The replay is the changes of the window in time order; within a tick, in declaration order;
within a signal, in trace order. -/
theorem forEachEvent_eq (w : Wave F) (H : BinaryHeap (HeapEntry.key (F := F))) (t0 : Int)
    (t1 : Option Int) (sids : Option (List F.Sid)) (distinct : F.DeclDistinct)
    (ordered : ∀ sid, (w.trace sid).Ordered) (nodup : (F.selected sids).Nodup) :
    w.forEachEvent H t0 t1 sids = sortByKey F.emissionKey
      ((F.selected sids).flatMap fun s => emissions s t0 t1 (w.trace s)) := by
  obtain ⟨spec, sorted⟩ := w.forEachEvent_spec H t0 t1 sids ordered nodup
  refine eq_sortByKey_of_sources (fun e => e.2.1) sorted (fun s => ?_) fun a _ b _ same => ?_
  · rw [spec, filter_flatMap_emissions nodup fun s => w.trace s]
  · exact distinct _ _ (congrArg (fun k => (ofLex k).2) same)

/-! ## The traces a replay reads -/

theorem seed_sid {w : Wave F} {H : BinaryHeap (HeapEntry.key (F := F))} {heap : H.Heap}
    {sid : F.Sid} {e : HeapEntry F} (member : e ∈ H.intoVec (w.seed H heap sid)) :
    e.sid = sid ∨ e ∈ H.intoVec heap := by
  unfold seed at member
  split at member
  next =>
    rcases H.mem_push.mp member with rfl | old
    · exact .inl rfl
    · exact .inr old
  next => exact .inr member

theorem foldl_seed_congr {w v : Wave F} (H : BinaryHeap (HeapEntry.key (F := F)))
    {sids : List F.Sid} (agree : ∀ sid ∈ sids, w.trace sid = v.trace sid) (heap : H.Heap) :
    sids.foldl (w.seed H) heap = sids.foldl (v.seed H) heap ∧
    ∀ e ∈ H.intoVec (sids.foldl (w.seed H) heap), e.sid ∈ sids ∨ e ∈ H.intoVec heap := by
  induction sids generalizing heap with
  | nil => exact ⟨rfl, fun e member => .inr member⟩
  | cons sid sids ih =>
    have first : w.seed H heap sid = v.seed H heap sid := by
      rw [seed, seed, agree sid List.mem_cons_self]
    obtain ⟨same, seeded⟩ := ih (fun s member => agree s (List.mem_cons_of_mem _ member))
      (w.seed H heap sid)
    refine ⟨?_, fun e member => ?_⟩
    · rw [List.foldl_cons, List.foldl_cons, ← first, same]
    · rcases seeded e member with inRest | inHeap
      · exact .inl (List.mem_cons_of_mem _ inRest)
      · rcases seed_sid inHeap with own | old
        · exact .inl (own ▸ List.mem_cons_self)
        · exact .inr old

/-- One turn of the loop that does not stop. -/
theorem replayLoop_popped (w : Wave F) {H : BinaryHeap (HeapEntry.key (F := F))} (t0 : Int)
    {t1 : Option Int} {entry : HeapEntry F} {heap rest : H.Heap}
    (popped : H.pop heap = some (entry, rest))
    (inTime : ¬ (t1.any fun t1 => decide (t1 < entry.tick)) = true) :
    w.replayLoop H t0 t1 heap =
      (if t0 ≤ entry.tick then
        ((w.trace entry.sid)[entry.pos]?).toList.map fun c => (entry.tick, entry.sid, c.value)
      else []) ++
      w.replayLoop H t0 t1 ((entry.advance w).elim rest fun e => H.push e rest) := by
  rw [replayLoop.eq_def w H t0 t1 heap]
  split
  next empty =>
    rw [popped] at empty
    cases empty
  next entry' rest' popped' =>
    cases popped.symm.trans popped'
    rw [if_neg inTime]
    dsimp only
    split
    next following => simp [HeapEntry.advance, following]
    next following => simp [HeapEntry.advance, following]

/-- The replay loop reads the traces of the cursors' signals only. -/
theorem replayLoop_congr {w v : Wave F} (H : BinaryHeap (HeapEntry.key (F := F))) (t0 : Int)
    (t1 : Option Int) {sids : List F.Sid} (agree : ∀ sid ∈ sids, w.trace sid = v.trace sid)
    (heap : H.Heap) (cursors : ∀ e ∈ H.intoVec heap, e.sid ∈ sids) :
    w.replayLoop H t0 t1 heap = v.replayLoop H t0 t1 heap := by
  fun_induction replayLoop w H t0 t1 heap with
  | case1 heap empty => rw [replayLoop, empty]
  | case2 heap entry rest popped late =>
    rw [replayLoop, popped]
    simp [late]
  | case3 heap entry rest popped inTime tr emitted next following ih =>
    have own := cursors entry ((H.mem_of_pop popped).mpr (.inl rfl))
    have same : v.trace entry.sid = tr := (agree _ own).symm
    have advanced : entry.advance v =
        some { entry with tick := next.tick, pos := entry.pos + 1 } := by
      simp [HeapEntry.advance, same, following]
    rw [replayLoop_popped v t0 popped inTime, same, advanced, ih]
    · rfl
    · intro e member
      rcases H.mem_push.mp member with rfl | old
      · exact own
      · exact cursors e ((H.mem_of_pop popped).mpr (.inr old))
  | case4 heap entry rest popped inTime tr emitted following ih =>
    have own := cursors entry ((H.mem_of_pop popped).mpr (.inl rfl))
    have same : v.trace entry.sid = tr := (agree _ own).symm
    have advanced : entry.advance v = none := by
      simp [HeapEntry.advance, same, following]
    rw [replayLoop_popped v t0 popped inTime, same, advanced, ih]
    · rfl
    · intro e member
      exact cursors e ((H.mem_of_pop popped).mpr (.inr member))

/-- A replay depends on the traces of the selected signals only. -/
theorem forEachEvent_congr {w v : Wave F} (H : BinaryHeap (HeapEntry.key (F := F))) (t0 : Int)
    (t1 : Option Int) {sids : Option (List F.Sid)}
    (agree : ∀ sid ∈ F.selected sids, w.traces sid = v.traces sid) :
    w.forEachEvent H t0 t1 sids = v.forEachEvent H t0 t1 sids := by
  have traces : ∀ sid ∈ F.selected sids, w.trace sid = v.trace sid := by
    intro sid member
    rw [trace, trace, agree sid member]
  obtain ⟨same, cursors⟩ := foldl_seed_congr H traces H.new
  rw [forEachEvent, forEachEvent, ← same]
  refine replayLoop_congr H t0 t1 traces _ ?_
  intro e member
  rcases cursors e member with inSelection | inNew
  · exact inSelection
  · rw [H.intoVec_new] at inNew
    cases inNew

end Wave

end RWave.Model
