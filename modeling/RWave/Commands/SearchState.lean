import RWave.Commands.Search
import RWave.Misc.TickGroups
import RWave.Misc.StdHeap
import RWave.Model.Mock

/-!
# The state a search sees

`stateAt` is the state formed by each signal's last change at or before an instant. Replaying
the selected signals into an empty state gives it at every instant of the window, as far as the
clauses and the shown signals can tell.
-/

namespace RWave.Commands

open RWave.Backend RWave.Model RWave.Misc RWave.Format

variable {F : File}

/-- Each signal's last change at or before `t`, as raw text. -/
def stateAt (host : Host) (w : Wave F) (t : Int) : State F := fun sid =>
  ((w.trace sid).lastBefore t).map fun c => c.value.rawStr host

/-! ## What a state is asked for -/

theorem conditionsHold_congr {st₁ st₂ : State F} {ch₁ ch₂ : Finset F.Sid}
    {conds : List (ResolvedCond F)} (state : ∀ c ∈ conds, st₁ c.sid = st₂ c.sid)
    (changed : ∀ c ∈ conds, c.sid ∈ ch₁ ↔ c.sid ∈ ch₂) :
    conditionsHold st₁ ch₁ conds = conditionsHold st₂ ch₂ conds := by
  rw [conditionsHold, conditionsHold, Bool.eq_iff_iff, List.all_eq_true, List.all_eq_true]
  apply forall₂_congr
  intro c member
  have same : termHolds st₁ ch₁ c = termHolds st₂ ch₂ c := by
    rw [termHolds, termHolds, state c member, decide_eq_decide.mpr (changed c member)]
  rw [same]

/-- The clauses read the state and the transitions of their own signals only. -/
theorem anyClauseHolds_congr {st₁ st₂ : State F} {ch₁ ch₂ : Finset F.Sid}
    {clauses : List (List (ResolvedCond F))}
    (state : ∀ clause ∈ clauses, ∀ c ∈ clause, st₁ c.sid = st₂ c.sid)
    (changed : ∀ clause ∈ clauses, ∀ c ∈ clause, c.sid ∈ ch₁ ↔ c.sid ∈ ch₂) :
    anyClauseHolds st₁ ch₁ clauses = anyClauseHolds st₂ ch₂ clauses := by
  rw [anyClauseHolds, anyClauseHolds, Bool.eq_iff_iff, List.any_eq_true, List.any_eq_true]
  apply exists_congr
  intro clause
  apply and_congr_right
  intro member
  rw [conditionsHold_congr (state clause member) (changed clause member)]

/-- The shown values are those of the shown signals. -/
theorem showValues_congr {st₁ st₂ : State F} {showSids : List F.Sid}
    (state : ∀ sid ∈ showSids, st₁ sid = st₂ sid) :
    showValues st₁ showSids = showValues st₂ showSids := by
  apply List.map_congr_left
  intro sid member
  rw [state sid member]

/-! ## The replay -/

/-- After some changes a signal has the value of its last one. -/
theorem foldl_insert (changes : List (F.Sid × String)) (st : State F) (sid : F.Sid) :
    changes.foldl State.insert st sid =
      ((changes.filter fun e => decide (e.1 = sid)).getLast?.map Prod.snd).or (st sid) := by
  induction changes using List.reverseRecOn with
  | nil => rfl
  | append_singleton changes change ih =>
    rw [List.foldl_append, List.foldl_cons, List.foldl_nil, State.insert, List.filter_append]
    by_cases same : change.1 = sid
    · subst same
      simp
    · rw [Function.update_of_ne (Ne.symm same), ih]
      simp [same]

section Stream

variable (host : Host) {w : Wave F} (H : BinaryHeap (HeapEntry.key (F := F)))
  (s : SearchSetup F) (ordered : ∀ sid, (w.trace sid).Ordered)

include ordered

theorem searchStream_ordered : TimeOrdered (searchStream host w H s) := by
  have sorted := (w.forEachEvent_spec H 0 (some s.t1) (some s.selRef) ordered s.selNodup).2
  apply List.pairwise_map.mpr
  apply sorted.imp
  intro a b le
  have first := Prod.Lex.monotone_fst (F.emissionKey a) (F.emissionKey b) le
  exact first

/-- The part of the stream that belongs to one signal. -/
theorem searchStream_filter {sid : F.Sid} (selected : sid ∈ s.selRef) :
    (searchStream host w H s).filter (fun e => decide (e.2.1 = sid)) =
      ((w.trace sid).within 0 (some s.t1)).map fun c => (c.tick, sid, c.value.rawStr host) := by
  have spec := (w.forEachEvent_spec H 0 (some s.t1) (some s.selRef) ordered s.selNodup).1 sid
  rw [if_pos (show sid ∈ F.selected (some s.selRef) from selected)] at spec
  rw [searchStream, List.filter_map]
  refine (congrArg _ spec).trans ?_
  rw [emissions, List.map_map]
  rfl

theorem mem_searchStream {t : Int} {sid : F.Sid} {raw : String} :
    (t, sid, raw) ∈ searchStream host w H s ↔
      sid ∈ s.selRef ∧ 0 ≤ t ∧ t ≤ s.t1 ∧
        ∃ c ∈ w.trace sid, c.tick = t ∧ c.value.rawStr host = raw := by
  have spec := (w.forEachEvent_spec H 0 (some s.t1) (some s.selRef) ordered s.selNodup).1 sid
  by_cases selected : sid ∈ s.selRef
  · have own : (t, sid, raw) ∈ searchStream host w H s ↔
        (t, sid, raw) ∈ (searchStream host w H s).filter fun e => decide (e.2.1 = sid) := by
      simp
    rw [own, searchStream_filter host H s ordered selected]
    simp only [SignalTrace.within, inWindow, List.mem_map, List.mem_filter, Option.all_some,
      Bool.and_eq_true, decide_eq_true_eq, Prod.mk.injEq, true_and, selected]
    constructor
    · rintro ⟨c, ⟨member, after, before⟩, rfl, rfl⟩
      exact ⟨after, before, c, member, rfl, rfl⟩
    · rintro ⟨after, before, c, member, rfl, rfl⟩
      exact ⟨c, ⟨member, after, before⟩, rfl, rfl⟩
  · rw [if_neg (show sid ∉ F.selected (some s.selRef) from selected)] at spec
    refine iff_of_false ?_ fun h => selected h.1
    intro member
    obtain ⟨⟨t', sid', v⟩, found, same⟩ := List.mem_map.mp member
    obtain ⟨rfl, rfl, -⟩ := by simpa using same
    exact List.filter_eq_nil_iff.mp spec _ found (by simp)

/-- The elements of the stream after `lo`. -/
def streamAfter (host : Host) (w : Wave F) (H : BinaryHeap (HeapEntry.key (F := F)))
    (s : SearchSetup F) (lo : Int) : List (Int × F.Sid × String) :=
  (searchStream host w H s).filter fun x => decide (lo < x.1)

theorem streamAfter_ordered (lo : Int) : TimeOrdered (streamAfter host w H s lo) :=
  (searchStream_ordered host H s ordered).filter _

theorem mem_streamAfter {lo : Int} {x : Int × F.Sid × String}
    (member : x ∈ streamAfter host w H s lo) : lo < x.1 ∧ x.1 ≤ s.t1 := by
  obtain ⟨listed, after⟩ := List.mem_filter.mp member
  obtain ⟨t, sid, raw⟩ := x
  exact ⟨of_decide_eq_true after, ((mem_searchStream host H s ordered).mp listed).2.2.1⟩

/-- The groups after `lo`, each with the state before it. -/
theorem scan_streamAfter (lo : Int) :
    scan State.insert (stateAfter State.insert State.empty (searchStream host w H s) lo)
        (groups (streamAfter host w H s lo)) =
      (ticks (streamAfter host w H s lo)).map fun g =>
        (stateAfter State.insert State.empty (searchStream host w H s) (g - 1), g,
          atTick (searchStream host w H s) g) := by
  have stream := searchStream_ordered host H s ordered
  have later := streamAfter_ordered host H s ordered lo
  rw [scan_eq State.insert _ later]
  apply List.map_congr_left
  intro g member
  obtain ⟨change, inRest⟩ := (mem_ticks later).mp member
  have after := (mem_streamAfter host H s ordered inRest).1
  rw [streamAfter, stateAfter_split State.insert State.empty stream (by omega), atTick_filter after]

variable (nonneg : ∀ sid, ∀ c ∈ w.trace sid, 0 ≤ c.tick)

include nonneg

/-- The ticks after `lo`: those up to the window's end at which a selected signal has a change. -/
theorem mem_ticks_streamAfter {lo g : Int} :
    g ∈ ticks (streamAfter host w H s lo) ↔
      lo < g ∧ g ≤ s.t1 ∧ ∃ sid ∈ s.selRef, ∃ c ∈ w.trace sid, c.tick = g := by
  rw [mem_ticks (streamAfter_ordered host H s ordered lo)]
  constructor
  · rintro ⟨⟨sid, raw⟩, member⟩
    obtain ⟨member, after⟩ := List.mem_filter.mp member
    obtain ⟨selected, -, before, c, inTrace, tick, -⟩ :=
      (mem_searchStream host H s ordered).mp member
    exact ⟨of_decide_eq_true after, before, sid, selected, c, inTrace, tick⟩
  · rintro ⟨after, before, sid, selected, c, inTrace, rfl⟩
    refine ⟨(sid, c.value.rawStr host), List.mem_filter.mpr ⟨?_, decide_eq_true after⟩⟩
    exact (mem_searchStream host H s ordered).mpr
      ⟨selected, nonneg sid c inTrace, before, c, inTrace, rfl, rfl⟩

/-- The replay up to an instant of the window leaves each selected signal at its last change. -/
theorem stateAfter_searchStream {t : Int} (le : t ≤ s.t1) {sid : F.Sid}
    (selected : sid ∈ s.selRef) :
    stateAfter State.insert State.empty (searchStream host w H s) t sid = stateAt host w t sid := by
  have inside : ((w.trace sid).within 0 (some s.t1)).filter (fun c => decide (c.tick ≤ t)) =
      (w.trace sid).filter fun c => decide (c.tick ≤ t) := by
    rw [SignalTrace.within, List.filter_filter]
    apply List.filter_congr
    intro c member
    have := nonneg sid c member
    rw [Bool.eq_iff_iff]
    simp only [inWindow_some, Bool.and_eq_true, decide_eq_true_eq]
    omega
  have own : (upToTick (searchStream host w H s) t).filter (fun e => decide (e.1 = sid)) =
      ((w.trace sid).filter fun c => decide (c.tick ≤ t)).map
        fun c => (sid, c.value.rawStr host) := by
    rw [← inside, upToTick, List.filter_map, List.filter_filter]
    have swap : (searchStream host w H s).filter
          (fun e => ((fun e => decide (e.1 = sid)) ∘ Prod.snd) e && decide (e.1 ≤ t)) =
        ((searchStream host w H s).filter fun e => decide (e.2.1 = sid)).filter
          fun e => decide (e.1 ≤ t) := by
      rw [List.filter_filter]
      exact List.filter_congr fun e _ => Bool.and_comm _ _
    rw [swap, searchStream_filter host H s ordered selected, List.filter_map, List.map_map]
    rfl
  rw [stateAfter, foldl_insert, own, List.getLast?_map, stateAt, SignalTrace.lastBefore]
  cases ((w.trace sid).filter fun c => decide (c.tick ≤ t)).getLast? <;> rfl

end Stream

/-! ## A file to search -/

/-- Two one-bit signals; the second is unknown for a while. -/
def handshakeMock : MockBackend where
  data := [(0, [⟨0, .bits "0"⟩, ⟨3, .bits "1"⟩, ⟨6, .bits "0"⟩]),
    (1, [⟨2, .bits "1"⟩, ⟨4, .bits "x"⟩, ⟨6, .bits "1"⟩])]
  windowed := false
  wlfSeedShape := false

/-- The first and the second signal. -/
def handshakeMock.req : handshakeMock.file.Sid := ⟨0, by decide⟩
def handshakeMock.ack : handshakeMock.file.Sid := ⟨1, by decide⟩

/-- `top.s1=1`. -/
def handshakeMock.ackHigh : ResolvedCond handshakeMock.file :=
  ⟨handshakeMock.ack, .level .eq ⟨"1", some ⟨[1]⟩⟩ 1 .bits "1", "top.s1=1", "top.s1"⟩

/-- A search of both signals over `[1, 9]`. -/
def handshakeMock.search (condText : String) (clauses : List (List (ResolvedCond handshakeMock.file)))
    (showSids changedSids : List handshakeMock.file.Sid) : SearchSetup handshakeMock.file where
  clauses := clauses
  showSids := showSids
  changedSids := changedSids
  selRef := handshakeMock.file.allSids
  t0 := 1
  t1 := 9
  limit := 0
  verbose := false
  condLabel := condText
  condText := condText
  ts := handshakeMock.file.backend.timescale.secondsPerTick
  selNodup := List.nodup_finRange _
  clausesSelected := fun _ _ _ _ => List.mem_finRange _
  showSelected := fun _ _ => List.mem_finRange _

/-- The file with both signals resident. -/
def handshakeWave : Wave handshakeMock.file :=
  (Wave.fresh handshakeMock.file).ensureLoaded handshakeMock.file.allSids

theorem handshakeWave_ordered : ∀ sid, (handshakeWave.trace sid).Ordered := by
  unfold SignalTrace.Ordered
  decide

theorem handshakeWave_nonneg : ∀ sid, ∀ c ∈ handshakeWave.trace sid, 0 ≤ c.tick := by
  decide

end RWave.Commands
