import RWave.Model.Bounds
import RWave.Model.Mock
import RWave.Misc.BoundedHeap
import RWave.Misc.StdHeap

/-!
# Collecting the earliest events

`collect_events_bounded`: the in-range changes of the selected signals, batch by batch, kept in a
bounded max-heap when there is a limit, and sorted at the end. `collectEventsBounded_eq` says what
it returns in terms of the stream of in-range changes it visits.

Set against the replay of the same signals, it agrees on everything but ties: the heap's key is
(tick, declaration order), which several changes of one signal at one tick share, so which of them
survive an eviction, and in which order they leave the heap, is up to `BinaryHeap`. The last section
gives the exact inputs on which no tie can show.
-/

namespace RWave.Model

open RWave.Backend RWave.Misc

variable {F : File}

/-- One emitted value-change event. -/
structure DumpEvent (F : File) where
  tick : Int
  sid : F.Sid
  declOrder : Nat
  value : RawValue
  deriving DecidableEq

/-- The `Ord` of `BoundedEvent`, and the order of the final sort. -/
def DumpEvent.key (e : DumpEvent F) : Int ×ₗ Nat := toLex (e.tick, e.declOrder)

/-- `event_less`: ascending order on (tick, declaration order). -/
def eventLess (a b : DumpEvent F) : Bool := decide (a.key < b.key)

/-- What an event shows: the arguments of the replay callback. -/
def DumpEvent.emission (e : DumpEvent F) : Emission F := (e.tick, e.sid, e.value)

/-- The in-range events of one trace, `for i in lo..hi`. -/
def inRange (t0 : Int) (t1 : Option Int) (sid : F.Sid) (tr : SignalTrace) : List (DumpEvent F) :=
  let lo := lowerBound tr.times t0
  let hi := match t1 with
    | some t1 => upperBound tr.times t1
    | none => tr.times.length
  ((tr.take hi).drop lo).map fun c =>
    { tick := c.tick, sid, declOrder := (F.signal sid).declOrder, value := c.value }

/-- The variables `collect_events_bounded` accumulates into. -/
structure Collecting (H : BinaryHeap (DumpEvent.key (F := F))) where
  keep : H.Heap
  all : List (DumpEvent F)
  total : Nat

/-- The body of the `for i in lo..hi` loop. -/
def Collecting.take {H : BinaryHeap (DumpEvent.key (F := F))} (limit : Nat) (c : Collecting H)
    (ev : DumpEvent F) : Collecting H :=
  let c := { c with total := c.total + 1 }
  if limit = 0 then
    { c with all := c.all ++ [ev] }
  else if H.len c.keep < limit then
    { c with keep := H.push ev c.keep }
  else
    match H.peek c.keep with
    | some top =>
      -- Evict the current largest if this event is smaller.
      if eventLess ev top then { c with keep := H.push ev (H.popped c.keep) } else c
    | none => c

/-- `(events, total_in_range, truncated)`. -/
structure Collected (F : File) where
  events : List (DumpEvent F)
  total : Nat
  truncated : Bool
  deriving DecidableEq

/-- What `collect_events_bounded` makes of the traces it is handed. -/
def collectVisits (H : BinaryHeap (DumpEvent.key (F := F))) (t0 : Int) (t1 : Option Int)
    (limit : Nat) (visits : List (F.Sid × SignalTrace)) : Collected F :=
  let c := visits.foldl
    (fun c (sid, tr) => (inRange t0 t1 sid tr).foldl (Collecting.take limit) c)
    (⟨H.new, [], 0⟩ : Collecting H)
  let events := if limit = 0 then c.all else H.intoVec c.keep
  { events := sortByKey DumpEvent.key events
    total := c.total
    truncated := decide (limit ≠ 0) && decide (c.total > limit) }

/-- `collect_events_bounded`. -/
def Wave.collectEventsBounded (w : Wave F) (H : BinaryHeap (DumpEvent.key (F := F))) (t0 : Int)
    (t1 : Option Int) (sids : Option (List F.Sid)) (limit batch : Nat) : Collected F × Wave F :=
  let visits := w.forEachSignalWindowed sids batch t0 t1
  (collectVisits H t0 t1 limit visits.1, visits.2)

/-! ## What is collected -/

/-- The stream of in-range events, in the order they are visited. -/
def visited (t0 : Int) (t1 : Option Int) (visits : List (F.Sid × SignalTrace)) :
    List (DumpEvent F) :=
  visits.flatMap fun (sid, tr) => inRange t0 t1 sid tr

/-- With a limit, one event is one offer to the bounded heap. -/
theorem Collecting.take_limited {H : BinaryHeap (DumpEvent.key (F := F))} {limit : Nat}
    (limited : limit ≠ 0) (c : Collecting H) (ev : DumpEvent F) :
    c.take limit ev = ⟨H.offer limit c.keep ev, c.all, c.total + 1⟩ := by
  unfold take BinaryHeap.offer
  simp only [limited, if_false, eventLess, decide_eq_true_eq]
  split
  · rfl
  · cases H.peek c.keep with
    | none => rfl
    | some top => dsimp only; split <;> rfl

theorem Collecting.take_unlimited {H : BinaryHeap (DumpEvent.key (F := F))} (c : Collecting H)
    (ev : DumpEvent F) : c.take 0 ev = ⟨c.keep, c.all ++ [ev], c.total + 1⟩ := by
  simp [take]

theorem foldl_take {H : BinaryHeap (DumpEvent.key (F := F))} (limit : Nat)
    (evs : List (DumpEvent F)) (c : Collecting H) :
    evs.foldl (Collecting.take limit) c =
      ⟨if limit = 0 then c.keep else evs.foldl (H.offer limit) c.keep,
        if limit = 0 then c.all ++ evs else c.all, c.total + evs.length⟩ := by
  induction evs generalizing c with
  | nil => simp
  | cons ev evs ih =>
    rw [List.foldl_cons, ih]
    by_cases unlimited : limit = 0
    · subst unlimited
      simp [Collecting.take_unlimited, Nat.add_assoc, Nat.add_comm 1]
    · simp [Collecting.take_limited unlimited, unlimited, Nat.add_assoc, Nat.add_comm 1]

/-- What `collect_events_bounded` returns: the visited events, or what a bounded heap keeps of
them, sorted. -/
theorem collectVisits_eq (H : BinaryHeap (DumpEvent.key (F := F))) (t0 : Int) (t1 : Option Int)
    (limit : Nat) (visits : List (F.Sid × SignalTrace)) :
    collectVisits H t0 t1 limit visits =
      { events := sortByKey DumpEvent.key
          (if limit = 0 then visited t0 t1 visits
            else H.intoVec (H.keepSmallest limit (visited t0 t1 visits)))
        total := (visited t0 t1 visits).length
        truncated := decide (limit ≠ 0) && decide ((visited t0 t1 visits).length > limit) } := by
  have folded : visits.foldl
      (fun c (sid, tr) => (inRange t0 t1 sid tr).foldl (Collecting.take limit) c)
      (⟨H.new, [], 0⟩ : Collecting H) =
      (visited t0 t1 visits).foldl (Collecting.take limit) ⟨H.new, [], 0⟩ := by
    rw [visited, List.foldl_flatMap]
  unfold collectVisits
  rw [folded, foldl_take]
  by_cases unlimited : limit = 0
  · simp [unlimited]
  · simp [unlimited, BinaryHeap.keepSmallest]

/-! ## The stream of a window -/

/-- The events of one signal's changes. -/
def signalEvents (sid : F.Sid) (tr : SignalTrace) : List (DumpEvent F) :=
  tr.map fun c => ⟨c.tick, sid, (F.signal sid).declOrder, c.value⟩

/-- The recorded changes of the selected signals inside a window, signal after signal. -/
def File.windowEvents (F : File) (t0 : Int) (t1 : Option Int) (sids : Option (List F.Sid)) :
    List (DumpEvent F) :=
  (F.selected sids).flatMap fun sid => signalEvents sid ((F.traceOf sid).within t0 t1)

theorem inRange_eq {tr : SignalTrace} (ordered : tr.Ordered) (t0 : Int) (t1 : Option Int)
    (sid : F.Sid) : inRange t0 t1 sid tr = signalEvents sid (tr.within t0 t1) := by
  rw [← range_eq_within ordered]
  rfl

/-- An event carries the declaration order of its signal. -/
def DumpEvent.Declared (e : DumpEvent F) : Prop := e.declOrder = (F.signal e.sid).declOrder

theorem DumpEvent.Declared.key_emission {e : DumpEvent F} (h : e.Declared) :
    F.emissionKey e.emission = e.key := by
  rw [File.emissionKey, key, h]
  rfl

theorem signalEvents_declared {sid : F.Sid} {tr : SignalTrace} {e : DumpEvent F}
    (he : e ∈ signalEvents sid tr) : e.Declared := by
  obtain ⟨c, -, rfl⟩ := List.mem_map.mp he
  rfl

theorem windowEvents_declared {t0 : Int} {t1 : Option Int} {sids : Option (List F.Sid)} :
    ∀ e ∈ F.windowEvents t0 t1 sids, e.Declared := by
  intro e he
  obtain ⟨sid, -, he⟩ := List.mem_flatMap.mp he
  exact signalEvents_declared he

/-- Events that carry their signal's declaration order are told by what they show. -/
theorem emission_injOn {l₁ l₂ : List (DumpEvent F)} (h₁ : ∀ e ∈ l₁, e.Declared)
    (h₂ : ∀ e ∈ l₂, e.Declared) :
    l₁.map DumpEvent.emission = l₂.map DumpEvent.emission ↔ l₁ = l₂ := by
  let back (x : Emission F) : DumpEvent F := ⟨x.1, x.2.1, (F.signal x.2.1).declOrder, x.2.2⟩
  have undo : ∀ l : List (DumpEvent F), (∀ e ∈ l, e.Declared) →
      (l.map DumpEvent.emission).map back = l := by
    intro l declared
    rw [List.map_map]
    refine (List.map_congr_left fun e he => ?_).trans (List.map_id l)
    have := declared e he
    cases e
    simp_all [back, DumpEvent.emission, DumpEvent.Declared]
  refine ⟨fun same => ?_, fun same => by rw [same]⟩
  rw [← undo l₁ h₁, same, undo l₂ h₂]

namespace Wave

theorem Consistent.trace_ordered {w : Wave F} (h : w.Consistent) (ordered : F.TracesOrdered)
    (sid : F.Sid) : (w.trace sid).Ordered := by
  unfold trace
  cases found : w.traces sid with
  | none => exact List.Pairwise.nil
  | some tr => exact h sid tr found ▸ ordered sid

/-- The replay of loaded signals is the sorted stream of the window. -/
theorem Consistent.replay_eq {w : Wave F} (h : w.Consistent)
    (H : BinaryHeap (HeapEntry.key (F := F))) (t0 : Int) (t1 : Option Int)
    (sids : Option (List F.Sid)) (distinct : F.DeclDistinct) (ordered : F.TracesOrdered)
    (nodup : (F.selected sids).Nodup) :
    (w.ensureLoaded (F.selected sids)).forEachEvent H t0 t1 sids =
      (sortByKey DumpEvent.key (F.windowEvents t0 t1 sids)).map DumpEvent.emission := by
  rw [forEachEvent_eq _ H t0 t1 sids distinct ((h.ensureLoaded _).trace_ordered ordered) nodup,
    ← sortByKey_map fun e he => (windowEvents_declared e he).key_emission,
    File.windowEvents, List.map_flatMap]
  congr 1
  refine List.flatMap_congr ?_
  intro sid hs
  rw [trace, h.ensureLoaded_mem hs]
  simp [emissions, signalEvents, SignalTrace.within, DumpEvent.emission, Function.comp_def]

/-- On a backend that cannot seek, the events are visited from the complete traces. -/
theorem Consistent.visited_eq {w : Wave F} (h : w.Consistent) (t0 : Int) (t1 : Option Int)
    (sids : Option (List F.Sid)) (batch : Nat) (ordered : F.TracesOrdered)
    (full : F.backend.supportsWindowed = false) :
    visited t0 t1 (w.forEachSignalWindowed sids batch t0 t1).1 = F.windowEvents t0 t1 sids := by
  rw [Wave.forEachSignalWindowed, full, if_neg (by simp), h.forEachSignalBatched, visited,
    List.flatMap_map, File.windowEvents]
  exact List.flatMap_congr fun sid _ => inRange_eq (ordered sid) t0 t1 sid

end Wave

/-! ## The two dump paths -/

/-- `collect_events_bounded` shows the first `limit` events (all without a limit) of the replay
of the same signals, counts all of them, and says whether it left any out. -/
def DumpPathsAgree (w : Wave F) (H : BinaryHeap (DumpEvent.key (F := F)))
    (H' : BinaryHeap (HeapEntry.key (F := F))) (t0 : Int) (t1 : Option Int)
    (sids : Option (List F.Sid)) (limit batch : Nat) : Prop :=
  let replay := (w.ensureLoaded (F.selected sids)).forEachEvent H' t0 t1 sids
  let out := (w.collectEventsBounded H t0 t1 sids limit batch).1
  out.events.map DumpEvent.emission = (if limit = 0 then replay else replay.take limit) ∧
    out.total = replay.length ∧
    (out.truncated = true ↔ limit ≠ 0 ∧ replay.length > limit)

/-- The two paths agree, however the heaps settle ties, exactly when there is no limit or no tie
among the window's events matters to the `limit` smallest. -/
theorem collectEventsBounded_refines_iff (distinct : F.DeclDistinct) (ordered : F.TracesOrdered)
    (full : F.backend.supportsWindowed = false) {w : Wave F} (consistent : w.Consistent)
    (t0 : Int) (t1 : Option Int) (sids : Option (List F.Sid)) (nodup : (F.selected sids).Nodup)
    (limit batch : Nat) :
    (∀ H H', DumpPathsAgree w H H' t0 t1 sids limit batch) ↔
      limit = 0 ∨ TieSafe DumpEvent.key limit (F.windowEvents t0 t1 sids) := by
  have each : ∀ H H', DumpPathsAgree w H H' t0 t1 sids limit batch ↔ limit = 0 ∨
      sortByKey DumpEvent.key (H.intoVec (H.keepSmallest limit (F.windowEvents t0 t1 sids))) =
        (sortByKey DumpEvent.key (F.windowEvents t0 t1 sids)).take limit := by
    intro H H'
    have stream := consistent.visited_eq t0 t1 sids batch ordered full
    have replay := consistent.replay_eq H' t0 t1 sids distinct ordered nodup
    simp only [DumpPathsAgree, Wave.collectEventsBounded, collectVisits_eq, stream, replay,
      List.length_map, length_sortByKey, Bool.and_eq_true, decide_eq_true_eq, and_true]
    by_cases unlimited : limit = 0
    · simp [unlimited]
    · simp only [unlimited, if_false, false_or, ← List.map_take]
      refine emission_injOn (fun e he => ?_) fun e he => ?_
      · obtain ⟨out, whole, -⟩ := (kept_keepSmallest H limit (F.windowEvents t0 t1 sids)).split
        have he := mem_sortByKey.mp he
        exact windowEvents_declared e (whole.mem_iff.mpr (List.mem_append_left _ he))
      · exact windowEvents_declared e (mem_sortByKey.mp (List.mem_of_mem_take he))
  constructor
  · intro agree
    by_cases unlimited : limit = 0
    · exact .inl unlimited
    · refine .inr ((keepSmallest_eq_take_iff limit _).mp fun H => ?_)
      exact ((each H (tieHeap _ fun _ => true)).mp (agree H _)).resolve_left unlimited
  · intro safe H H'
    refine (each H H').mpr (safe.imp_right fun safe => ?_)
    exact (keepSmallest_eq_take_iff limit _).mpr safe H

/-- One signal that glitches at tick 5 and changes again at tick 9. -/
def glitchMock : MockBackend where
  data := [(0, [⟨5, .bits "0"⟩, ⟨5, .bits "1"⟩, ⟨9, .bits "0"⟩])]
  windowed := false
  wlfSeedShape := false

theorem glitchMock_ordered : glitchMock.file.TracesOrdered := by
  apply glitchMock.file_ordered
  unfold SignalTrace.Ordered
  decide

/-- With room for all three events nothing is evicted, but the heap of the standard library
lifts the change at tick 9 over the others and leaves with the two at tick 5 exchanged. -/
theorem collectEventsBounded_glitch :
    glitchMock.file.DeclDistinct ∧ glitchMock.file.TracesOrdered ∧
    glitchMock.file.backend.supportsWindowed = false ∧
    ¬ DumpPathsAgree (Wave.fresh glitchMock.file) (stdHeap _) (stdHeap _) 0 none none 3 1 := by
  have fresh := Wave.consistent_fresh glitchMock.file
  refine ⟨glitchMock.file_distinct, glitchMock_ordered, rfl, fun agree => ?_⟩
  have events := agree.1
  rw [fresh.replay_eq _ 0 none none glitchMock.file_distinct glitchMock_ordered (by decide),
    Wave.collectEventsBounded, collectVisits_eq,
    fresh.visited_eq 0 none none 1 glitchMock_ordered rfl] at events
  revert events
  decide

theorem collectEventsBounded_refines_iff_glitch :
    (∀ H H', DumpPathsAgree (Wave.fresh glitchMock.file) H H' 0 none none 1 1) ↔
      1 = 0 ∨ TieSafe DumpEvent.key 1 (glitchMock.file.windowEvents 0 none none) :=
  collectEventsBounded_refines_iff glitchMock.file_distinct glitchMock_ordered rfl
    (Wave.consistent_fresh glitchMock.file) 0 none none (by decide) 1 1

end RWave.Model
