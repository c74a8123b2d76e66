import RWave.Commands.SearchState

/-!
# Event mode is exact

Without a limit the events of `search_event_collect` are those of the ticks inside the window at
which a clause fires, in order: the loop handles one tick after the other, and the final pending
group is handled like the others (`eventLoop_groups`).
-/

namespace RWave.Commands

open RWave.Backend RWave.Model RWave.Misc RWave.Format

variable {F : File}

/-! ## Transitions -/

/-- A signal transitions at `g`: it has a change there, and either it is an event signal and this is
no initialization at tick 0, or it was defined before and a change there differs from the value
before. -/
def ChangedAt (host : Host) (w : Wave F) (g : Int) (sid : F.Sid) : Prop :=
  (∃ c ∈ w.trace sid, c.tick = g) ∧
    ((F.signal sid).kind = .event ∧ ¬ (g = 0 ∧ stateAt host w (g - 1) sid = none) ∨
      stateAt host w (g - 1) sid ≠ none ∧
        ∃ c ∈ w.trace sid, c.tick = g ∧
          some (c.value.rawStr host) ≠ stateAt host w (g - 1) sid)

instance (host : Host) (w : Wave F) (g : Int) : DecidablePred (ChangedAt host w g) :=
  fun _ => inferInstanceAs (Decidable (_ ∧ _))

/-- The signals that transition at `g`. -/
def changedSet (host : Host) (w : Wave F) (g : Int) : Finset F.Sid :=
  Finset.univ.filter (ChangedAt host w g)

/-- One change of a group as a transition from the state before the group. -/
def Transition (state : State F) (gt : Int) (change : F.Sid × String) : Prop :=
  ¬ (gt = 0 ∧ state change.1 = none) ∧
    ((F.signal change.1).kind = .event ∨
      state change.1 ≠ none ∧ state change.1 ≠ some change.2)

/-- `process_group` collects the signals of a group's transitions. -/
theorem mem_changedIn {state : State F} {group : List (F.Sid × String)} {gt : Int} {sid : F.Sid} :
    sid ∈ changedIn state group gt ↔ ∃ change ∈ group, change.1 = sid ∧ Transition state gt change := by
  induction group using List.reverseRecOn with
  | nil => simp [changedIn]
  | append_singleton group change ih =>
    have last : sid ∈ changedIn state (group ++ [change]) gt ↔
        sid ∈ changedIn state group gt ∨ change.1 = sid ∧ Transition state gt change := by
      obtain ⟨gsid, gval⟩ := change
      rw [changedIn, List.foldl_append, List.foldl_cons, List.foldl_nil, ← changedIn]
      simp only [Transition]
      split_ifs with initial event first differ
      · simp [initial]
      · simp only [Finset.mem_insert, event, initial, true_or, and_true, not_false_eq_true]
        tauto
      · simp [event, first]
      · simp only [Finset.mem_insert, event, first, differ, ne_eq, not_false_eq_true, and_self,
          or_true, and_true]
        tauto
      · have same : state gsid = some gval := not_not.mp differ
        simp [event, same]
    rw [last, ih]
    simp only [List.mem_append, List.mem_singleton, or_and_right, exists_or, exists_eq_left]

/-- What event mode promises: the events are in strictly ascending order, those of the ticks of the
window at which a selected signal has a change and a clause fires, with the values shown there. -/
structure EventsExact (host : Host) (w : Wave F) (s : SearchSetup F) (events : List Ev) : Prop where
  ascending : (events.map Ev.timeTicks).Pairwise (· < ·)
  ticks : ∀ g, g ∈ events.map Ev.timeTicks ↔
    s.t0 ≤ g ∧ g ≤ s.t1 ∧ (∃ sid ∈ s.selRef, ∃ c ∈ w.trace sid, c.tick = g) ∧
      anyClauseHolds (stateAt host w g) (changedSet host w g) s.clauses = true
  values : ∀ e ∈ events, e.values = showValues (stateAt host w e.timeTicks) s.showSids

/-! ## One tick after the other -/

/-- The event of a group, if it fires. -/
def groupEvents (host : Host) (s : SearchSetup F) (state : State F) (gt : Int)
    (group : List (F.Sid × String)) : List Ev :=
  let (after, fires) := processGroup s state group gt
  if fires then [fired host s after gt] else []

variable (host : Host) (s : SearchSetup F)

theorem groupEvents_eq (state : State F) (gt : Int) (group : List (F.Sid × String)) :
    groupEvents host s state gt group =
      if anyClauseHolds (group.foldl State.insert state) (changedIn state group gt) s.clauses then
        [fired host s (group.foldl State.insert state) gt] else [] := rfl

/-- Without a limit a group adds its event, and nothing ends the loop. -/
theorem eventGroup_unlimited (unlimited : s.limit = 0) (c : EventCollector F) (gt : Int) :
    (eventGroup host s c gt).state = c.group.foldl State.insert c.state ∧
      (eventGroup host s c gt).events = c.events ++ groupEvents host s c.state gt c.group ∧
      (eventGroup host s c gt).truncated = c.truncated := by
  simp only [eventGroup, groupEvents, processGroup, unlimited, ne_eq, not_true_eq_false, false_and,
    if_false]
  split <;> simp [*]

/-- The baseline of the window is applied to the state. -/
theorem eventLoop_baseline (c : EventCollector F) (baseline rest : List (Int × F.Sid × String))
    (early : ∀ x ∈ baseline, x.1 < s.t0) :
    eventLoop host s c (baseline ++ rest) =
      eventLoop host s { c with state := (baseline.map Prod.snd).foldl State.insert c.state } rest := by
  induction baseline generalizing c with
  | nil => rfl
  | cons x baseline ih =>
    obtain ⟨t, change⟩ := x
    rw [List.cons_append, eventLoop, if_pos (early _ List.mem_cons_self),
      ih _ fun x member => early x (List.mem_cons_of_mem _ member)]
    rfl

/-- With a pending group, the loop and the final step handle the groups of the stream. -/
theorem eventLoop_groups (unlimited : s.limit = 0) (rest : List (Int × F.Sid × String))
    (late : ∀ x ∈ rest, s.t0 ≤ x.1) (c : EventCollector F) {g : Int} (pending : c.curT = some g)
    (nonempty : c.group ≠ []) (going : c.truncated = false) :
    (eventFinish host s (eventLoop host s c rest)).events =
      c.events ++ (scan State.insert c.state (groupsFrom g c.group rest)).flatMap
        fun x => groupEvents host s x.1 x.2.1 x.2.2 := by
  induction rest generalizing c g with
  | nil =>
    have left : (!c.group.isEmpty && !c.truncated) = true := by simp [nonempty, going]
    rw [eventLoop, eventFinish, pending]
    dsimp only
    rw [if_pos left, (eventGroup_unlimited host s unlimited c g).2.1]
    simp [groupsFrom, scan]
  | cons x rest ih =>
    obtain ⟨t, change⟩ := x
    have late' : ∀ x ∈ rest, s.t0 ≤ x.1 := fun x member => late x (List.mem_cons_of_mem _ member)
    obtain ⟨state, events, truncated⟩ := eventGroup_unlimited host s unlimited c g
    rw [eventLoop, if_neg (not_lt.mpr (late _ List.mem_cons_self)), pending, groupsFrom]
    dsimp only
    by_cases same : t = g
    · rw [if_neg (not_not.mpr same), if_pos same]
      have := ih late' { c with group := c.group ++ [change] } pending (by simp) going
      rwa [pending] at this
    · rw [if_pos same, if_neg same, if_neg (by simp [truncated, going])]
      refine (ih late' { eventGroup host s c g with curT := some t, group := [change] } rfl
        (by simp) (truncated.trans going)).trans ?_
      rw [scan, List.flatMap_cons, state, events, List.append_assoc]

/-- The events are those of the ticks after the baseline, each judged from the state before it. -/
theorem searchEventCollect_eq {w : Wave F} (H : BinaryHeap (HeapEntry.key (F := F)))
    (ordered : ∀ sid, (w.trace sid).Ordered) (unlimited : s.limit = 0) :
    (searchEventCollect host w H s).1 =
      (ticks (streamAfter host w H s (s.t0 - 1))).flatMap fun g =>
        groupEvents host s
          (stateAfter State.insert State.empty (searchStream host w H s) (g - 1)) g
          (atTick (searchStream host w H s) g) := by
  have early : ∀ x ∈ (searchStream host w H s).filter (fun x => decide (x.1 ≤ s.t0 - 1)),
      x.1 < s.t0 := by
    intro x member
    have := of_decide_eq_true (List.mem_filter.mp member).2
    omega
  have late : ∀ x ∈ streamAfter host w H s (s.t0 - 1), s.t0 ≤ x.1 := by
    intro x member
    have := (mem_streamAfter host H s ordered member).1
    omega
  -- The loop consumes the baseline, then the groups of the rest.
  have events : (searchEventCollect host w H s).1 =
      (scan State.insert (stateAfter State.insert State.empty (searchStream host w H s) (s.t0 - 1))
        (groups (streamAfter host w H s (s.t0 - 1)))).flatMap
        fun x => groupEvents host s x.1 x.2.1 x.2.2 := by
    have loop := eventLoop_baseline host s ⟨State.empty, [], 0, false, none, []⟩ _
      (streamAfter host w H s (s.t0 - 1)) early
    rw [streamAfter, (searchStream_ordered host H s ordered).split] at loop
    rw [searchEventCollect, loop, ← streamAfter]
    cases first : streamAfter host w H s (s.t0 - 1) with
    | nil => rfl
    | cons x rest =>
      obtain ⟨t, change⟩ := x
      rw [first] at late
      rw [eventLoop, if_neg (not_lt.mpr (late _ List.mem_cons_self))]
      refine (eventLoop_groups host s unlimited rest ?_ _ rfl (by simp) rfl).trans (by rfl)
      intro x member
      exact late x (List.mem_cons_of_mem _ member)
  rw [events, scan_streamAfter host H s ordered, List.flatMap_map]

/-! ## The events -/

theorem flatMap_if {α β : Type} (l : List α) (p : α → Bool) (f : α → β) :
    (l.flatMap fun a => if p a then [f a] else []) = (l.filter p).map f := by
  induction l with
  | nil => rfl
  | cons a l ih => cases holds : p a <;> simp [holds, ih]

section Exact

variable {w : Wave F} (H : BinaryHeap (HeapEntry.key (F := F)))
  (ordered : ∀ sid, (w.trace sid).Ordered) (nonneg : ∀ sid, ∀ c ∈ w.trace sid, 0 ≤ c.tick)

include ordered nonneg

/-- At a tick of the window, the group's transitions are those of the selected signals. -/
theorem mem_changedIn_stream {g : Int} (le : g ≤ s.t1) {sid : F.Sid} (selected : sid ∈ s.selRef) :
    sid ∈ changedIn (stateAfter State.insert State.empty (searchStream host w H s) (g - 1))
        (atTick (searchStream host w H s) g) g ↔
      sid ∈ changedSet host w g := by
  have before := stateAfter_searchStream host H s ordered nonneg (show g - 1 ≤ s.t1 by omega) selected
  have inGroup : ∀ raw, (sid, raw) ∈ atTick (searchStream host w H s) g ↔
      ∃ c ∈ w.trace sid, c.tick = g ∧ c.value.rawStr host = raw := by
    intro raw
    rw [mem_atTick, mem_searchStream host H s ordered]
    constructor
    · rintro ⟨-, -, -, found⟩
      exact found
    · rintro ⟨c, member, rfl, same⟩
      exact ⟨selected, nonneg sid c member, le, c, member, rfl, same⟩
  rw [mem_changedIn, changedSet, Finset.mem_filter, and_iff_right (Finset.mem_univ sid)]
  simp only [Transition, ChangedAt]
  constructor
  · rintro ⟨⟨sid', raw⟩, member, rfl, initial, transition⟩
    obtain ⟨c, inTrace, tick, rfl⟩ := (inGroup raw).mp member
    rw [before] at initial transition
    refine ⟨⟨c, inTrace, tick⟩, ?_⟩
    rcases transition with event | ⟨defined, differ⟩
    · exact .inl ⟨event, initial⟩
    · exact .inr ⟨defined, c, inTrace, tick, Ne.symm differ⟩
  · rintro ⟨⟨c, inTrace, tick⟩, ⟨event, initial⟩ | ⟨defined, d, inTrace', tick', differ⟩⟩
    · refine ⟨(sid, c.value.rawStr host), (inGroup _).mpr ⟨c, inTrace, tick, rfl⟩, rfl, ?_⟩
      rw [before]
      exact ⟨initial, .inl event⟩
    · refine ⟨(sid, d.value.rawStr host), (inGroup _).mpr ⟨d, inTrace', tick', rfl⟩, rfl, ?_⟩
      rw [before]
      exact ⟨fun h => defined h.2, .inr ⟨defined, Ne.symm differ⟩⟩

/-- What the group of a tick of the window adds. -/
theorem groupEvents_stream {g : Int} (le : g ≤ s.t1) :
    (groupEvents host s (stateAfter State.insert State.empty (searchStream host w H s) (g - 1)) g
        (atTick (searchStream host w H s) g)).map (fun e => (e.timeTicks, e.values)) =
      if anyClauseHolds (stateAt host w g) (changedSet host w g) s.clauses then
        [(g, showValues (stateAt host w g) s.showSids)] else [] := by
  have state : ∀ sid ∈ s.selRef,
      stateAfter State.insert State.empty (searchStream host w H s) g sid = stateAt host w g sid :=
    fun sid => stateAfter_searchStream host H s ordered nonneg le
  have fires : anyClauseHolds
        (stateAfter State.insert State.empty (searchStream host w H s) g)
        (changedIn (stateAfter State.insert State.empty (searchStream host w H s) (g - 1))
          (atTick (searchStream host w H s) g) g) s.clauses =
      anyClauseHolds (stateAt host w g) (changedSet host w g) s.clauses := by
    apply anyClauseHolds_congr
    · intro clause member c inClause
      exact state c.sid (s.clausesSelected clause member c inClause)
    · intro clause member c inClause
      exact mem_changedIn_stream host s H ordered nonneg le
        (s.clausesSelected clause member c inClause)
  have shown := showValues_congr fun sid member => state sid (s.showSelected sid member)
  rw [groupEvents_eq,
    stateAfter_tick State.insert State.empty (searchStream_ordered host H s ordered), fires]
  split
  · simp only [List.map_cons, List.map_nil, fired]
    rw [shown]
  · rfl

/-- Event mode without a limit is exact. -/
theorem searchEventCollect_exact (unlimited : s.limit = 0) :
    EventsExact host w s (searchEventCollect host w H s).1 := by
  have ticksIn : ∀ g, g ∈ ticks (streamAfter host w H s (s.t0 - 1)) ↔
      s.t0 ≤ g ∧ g ≤ s.t1 ∧ ∃ sid ∈ s.selRef, ∃ c ∈ w.trace sid, c.tick = g := by
    intro g
    rw [mem_ticks_streamAfter host H s ordered nonneg]
    exact and_congr_left' (by omega)
  -- The events, as ticks with values.
  have events : (searchEventCollect host w H s).1.map (fun e => (e.timeTicks, e.values)) =
      ((ticks (streamAfter host w H s (s.t0 - 1))).filter fun g =>
        anyClauseHolds (stateAt host w g) (changedSet host w g) s.clauses).map
        fun g => (g, showValues (stateAt host w g) s.showSids) := by
    rw [searchEventCollect_eq host s H ordered unlimited, List.map_flatMap, ← flatMap_if]
    apply List.flatMap_congr
    intro g member
    exact groupEvents_stream host s H ordered nonneg ((ticksIn g).mp member).2.1
  have times : (searchEventCollect host w H s).1.map Ev.timeTicks =
      (ticks (streamAfter host w H s (s.t0 - 1))).filter fun g =>
        anyClauseHolds (stateAt host w g) (changedSet host w g) s.clauses := by
    have := congrArg (List.map Prod.fst) events
    simpa [Function.comp_def] using this
  refine ⟨?_, ?_, ?_⟩
  · rw [times]
    exact (ticks_sorted (streamAfter_ordered host H s ordered _)).filter _
  · intro g
    rw [times, List.mem_filter, ticksIn]
    tauto
  · intro e member
    have listed : (e.timeTicks, e.values) ∈
        (searchEventCollect host w H s).1.map fun e => (e.timeTicks, e.values) :=
      List.mem_map_of_mem member
    rw [events] at listed
    obtain ⟨g, -, same⟩ := List.mem_map.mp listed
    obtain ⟨rfl, values⟩ := Prod.mk.inj same
    exact values.symm

end Exact

/-- `changed(top.s0), top.s1=1` over `[1, 9]`: fires at 3 and 6. -/
def risingSetup : SearchSetup handshakeMock.file :=
  handshakeMock.search "changed(top.s0),top.s1=1"
    [[⟨handshakeMock.req, .changed, "changed(top.s0)", "top.s0"⟩, handshakeMock.ackHigh]]
    [handshakeMock.req] [handshakeMock.req]

theorem searchEventCollect_exact_handshake :
    EventsExact MockBackend.host handshakeWave risingSetup
      (searchEventCollect MockBackend.host handshakeWave (stdHeap _) risingSetup).1 :=
  searchEventCollect_exact _ _ _ handshakeWave_ordered handshakeWave_nonneg rfl

end RWave.Commands
