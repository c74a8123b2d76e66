import RWave.Backend.FoldChange
import RWave.Backend.WellenBackend
import RWave.Model.Mock
import RWave.Model.Snapshot

/-!
# Point queries on a VCD

From the text of a dump to what a point query shows (`snapshot_written`): of a signal that the lines of
the dump name, the value that they give it last at or before the instant. That repeated values are dropped
on the way does not show. A signal that is derived from others has no lines of its own, and shows nothing:
its handle does not say that it is derived, so it is not put together from their changes.
-/

namespace RWave.Model

open RWave.Backend RWave.Misc RWave.Wellen

/-! ## A value by reading the dump -/

section Replay

variable (c : Crates) (tpe : SignalEncoding) (id : Nat) (t : Int)

/-- One more line, for the value of a signal at an instant: the time, and the value so far. -/
def replayStep (s : Option Nat × Option VcdValue) : DumpOp → Option Nat × Option VcdValue
  | .time u => (some u, s.2)
  | .value id' text =>
    if id' = id ∧ (s.1.any fun u : Nat => decide ((u : Int) ≤ t)) then
      (s.1, VcdValue.parse c tpe text)
    else s

/-- The value that the lines of a dump give a signal last, at or before an instant. -/
def dumpValueAt (ops : List DumpOp) : Option VcdValue :=
  (ops.foldl (replayStep c tpe id t) (none, none)).2

/-- The last value of a signal in a time line, at or before an instant. -/
def lastValue (tl : Timeline) : Option VcdValue :=
  ((tl.of id).filter fun k => decide ((k.1 : Int) ≤ t)).getLast?.map Prod.snd

/-- What has been read is what has been recorded. -/
structure Replays (r : Recording) (s : Option Nat × Option VcdValue) : Prop where
  time : s.1 = r.timeline.times.getLast?
  value : s.2 = lastValue id t r.timeline

variable {c tpe id t} {encodings : List (Option SignalEncoding)}

theorem lastValue_push (tl : Timeline) (change : Nat × Nat × VcdValue) :
    lastValue id t ⟨tl.times, tl.changes ++ [change]⟩ =
      if change.1 = id ∧ (change.2.1 : Int) ≤ t then some change.2.2 else lastValue id t tl := by
  have own : (Timeline.mk tl.times (tl.changes ++ [change])).of id =
      tl.of id ++ if change.1 = id then [change.2] else [] := by
    unfold Timeline.of
    rw [List.filterMap_append]
    refine congrArg _ ?_
    simp only [List.filterMap_cons, List.filterMap_nil]
    split <;> simp_all
  rw [lastValue, own, List.filter_append]
  by_cases same : change.1 = id
  · by_cases early : (change.2.1 : Int) ≤ t
    · simp [same, early]
    · simp [same, early, lastValue]
  · simp [same, lastValue]

theorem Replays.step {r r' : Recording} {s : Option Nat × Option VcdValue}
    (ground : encodings[id]? = some (some tpe)) (replays : Replays id t r s) {op : DumpOp}
    {times : List Nat} (fresh : r.Fresh (opTimes [op] ++ times))
    (step : r.step c encodings op = some r') : Replays id t r' (replayStep c tpe id t s op) := by
  obtain ⟨recording, le⟩ := fresh
  obtain ⟨time, value⟩ := replays
  cases op with
  | time u =>
    have pushed : Replays id t ⟨⟨r.timeline.times ++ [u], r.timeline.changes⟩, false⟩ (some u, s.2) :=
      ⟨by rw [List.getLast?_concat], value⟩
    rw [Recording.step] at step
    cases now : r.timeline.times.getLast? with
    | none =>
      rw [now] at step
      cases step
      exact pushed
    | some last =>
      have before : last ≤ u := le last now u List.mem_cons_self
      rw [now] at step
      dsimp only at step
      split at step
      next same =>
        cases step
        exact ⟨by rw [now, same]; rfl, value⟩
      next other =>
        rw [if_neg (Nat.not_lt.mpr before)] at step
        cases step
        exact pushed
  | value id' text =>
    rw [Recording.step, if_neg (by rw [recording]; exact Bool.false_ne_true)] at step
    simp only [Option.bind_eq_bind, Option.bind_eq_some_iff] at step
    obtain ⟨u, now, tpe', known, v, parse, next⟩ := step
    cases next
    rw [replayStep, time, now, Option.any_some]
    split
    next own =>
      obtain ⟨rfl, early⟩ := own
      rw [ground] at known
      cases known
      refine ⟨now.symm, ?_⟩
      rw [lastValue_push, if_pos ⟨rfl, of_decide_eq_true early⟩]
      exact parse
    next other =>
      refine ⟨time.trans rfl, ?_⟩
      rw [lastValue_push, if_neg fun own => other ⟨own.1, decide_eq_true own.2⟩]
      exact value

theorem Replays.run {ops : List DumpOp} {r r' : Recording} {s : Option Nat × Option VcdValue}
    (ground : encodings[id]? = some (some tpe)) (replays : Replays id t r s) (fresh : r.Fresh (opTimes ops))
    (ordered : (opTimes ops).Pairwise (· ≤ ·)) (run : r.run c encodings ops = some r') :
    Replays id t r' (ops.foldl (replayStep c tpe id t) s) := by
  induction ops generalizing r s with
  | nil =>
    cases run
    exact replays
  | cons op ops ih =>
    obtain ⟨next, step, rest⟩ := Option.bind_eq_some_iff.mp run
    have cut : opTimes (op :: ops) = opTimes [op] ++ opTimes ops :=
      List.filterMap_append (l := [op])
    rw [cut] at fresh ordered
    exact ih (replays.step ground fresh step) (fresh.step ordered step)
      (List.pairwise_append.mp ordered).2.1 rest

/-- The recording of a dump has the values that the dump gives. -/
theorem lastValue_run {ops : List DumpOp} {r : Recording} (ordered : (opTimes ops).Pairwise (· ≤ ·))
    (ground : encodings[id]? = some (some tpe)) (run : Recording.empty.run c encodings ops = some r) :
    lastValue id t r.timeline = dumpValueAt c tpe id t ops :=
  (Replays.run ground ⟨rfl, rfl⟩ (Recording.fresh_empty _) ordered run).value.symm

end Replay

/-! ## The trace has the values -/

section Trace

variable {c : Crates} {encodings : List (Option SignalEncoding)} {tl : Timeline}

/-- To drop a change that sets the value the signal has already is not to be seen by a point query. -/
theorem valueAt_destutter {α : Type} {R : α → α → Prop} [DecidableRel R] {mk : α → Change}
    (same : ∀ a b, ¬ R a b → (mk a).value = (mk b).value) {l : List α}
    (ordered : SignalTrace.Ordered (l.map mk)) (t : Int) :
    SignalTrace.valueAt ((l.destutter R).map mk) t = SignalTrace.valueAt (l.map mk) t := by
  induction l using List.reverseRecOn with
  | nil => rfl
  | append_singleton l a ih =>
    rw [SignalTrace.Ordered, List.map_append, List.pairwise_append] at ordered
    obtain ⟨before, -, le⟩ := ordered
    have old := ih before
    rw [destutter_concat, List.map_append, List.map_singleton]
    have one (l : List α) : ((l ++ [a]).map mk : SignalTrace) = l.map mk ++ [mk a] := List.map_append
    cases last : (l.destutter R).getLast? with
    | none =>
      have empty : l = [] := by
        cases l with
        | nil => rfl
        | cons b l =>
          rw [List.getLast?_eq_none_iff] at last
          exact absurd last (List.destutter'_ne_nil (R := R) (l := l) (a := b))
      rw [empty]
      rfl
    | some d =>
      dsimp only
      by_cases late : t < (mk a).tick
      · rw [SignalTrace.valueAt_append_of_lt _ late]
        split
        · rw [one, SignalTrace.valueAt_append_of_lt _ late, old]
        · exact old
      · rw [SignalTrace.valueAt_append_of_le _ (Int.not_lt.mp late)]
        split
        · rw [one, SignalTrace.valueAt_append_of_le _ (Int.not_lt.mp late)]
        next drop =>
          have all : ∀ change ∈ (l.destutter R).map mk, change.tick ≤ t := by
            intro change member
            obtain ⟨b, kept, rfl⟩ := List.mem_map.mp member
            have inside := List.mem_map_of_mem (f := mk) ((List.destutter_sublist R l).subset kept)
            exact (le _ inside _ (List.mem_singleton_self _)).trans (Int.not_lt.mp late)
          rw [SignalTrace.valueAt, SignalTrace.lastBefore_of_le all, List.getLast?_map, last,
            Option.map_some, Option.map_some, same d a drop]

/-- A trace shows the values of the recording. -/
theorem valueAt_traceOf (ordered : Recording.Ordered encodings tl)
    (past : ∀ t ∈ tl.times, t < 2 ^ 63) (i : Nat) (t : Int) :
    SignalTrace.valueAt (traceOf c tl i) t = (lastValue i t tl).map fun v => rawOf (v.value c) := by
  have every : ((tl.of i).map fun k => (k.1, k.2.value c)).map
      (fun k => (⟨asI64 k.1, rawOf k.2⟩ : Change)) = recordedTrace c tl i := by
    rw [List.map_map]
    rfl
  have seen : SignalTrace.valueAt (traceOf c tl i) t =
      SignalTrace.valueAt (recordedTrace c tl i) t := by
    rw [← every]
    refine valueAt_destutter (fun a b drop => ?_) (every ▸ recordedTrace_ordered ordered past i) t
    exact congrArg rawOf (not_not.mp fun other => drop (.inl other))
  have early : (tl.of i).filter (fun k => decide (asI64 k.1 ≤ t)) =
      (tl.of i).filter fun k => decide ((k.1 : Int) ≤ t) :=
    List.filter_congr fun k member => by rw [asI64_of_mem ordered past member]
  rw [seen, SignalTrace.valueAt, SignalTrace.lastBefore, recordedTrace, List.filter_map,
    List.getLast?_map, Option.map_map, lastValue, ← early, Option.map_map]
  rfl

end Trace

/-! ## A file over the backend -/

/-- A file over a wellen backend: it has the backend's traces and times, and knows signals of the
hierarchy. -/
structure Opens (c : Crates) (b : WellenBackend) (F : File) : Prop where
  answers : ∀ requests,
    (∀ sids ∈ requests, ∀ s ∈ sids, WellenBackend.Answerable b.wave.hierarchy.length s) →
    ∀ b' traces, b.runRequests c requests = some (b', traces) →
      traces = requests.map F.backend.loadTraces
  timeRange : F.backend.timeRange = b.timeRange
  timeStepCount : F.backend.timeStepCount = b.timeStepCount
  handles : ∀ sid : F.Sid, (F.signal sid).backendSid < b.wave.hierarchy.length
  full : F.backend.supportsWindowed = false

section Opens

variable {c : Crates} {tl : Timeline} {b : WellenBackend} {F : File}

/-- A file over a backend of a time line has the time line's traces. -/
theorem Opens.traceOf_eq (opens : Opens c b F) (has : b.Has c tl)
    (few : b.wave.hierarchy.length ≤ maxIndex + 1) (sid : F.Sid) :
    F.traceOf sid = Backend.traceOf c tl (F.signal sid).backendSid := by
  have known : ∀ sids ∈ [[(F.signal sid).backendSid]], ∀ s ∈ sids,
      WellenBackend.Answerable b.wave.hierarchy.length s := by
    intro sids member s inside
    rw [List.mem_singleton.mp member] at inside
    rw [List.mem_singleton.mp inside]
    exact .inl (opens.handles sid)
  obtain ⟨b', answer⟩ := has.runRequests known few
  have same := opens.answers _ known _ _ answer
  exact (List.cons.inj (List.cons.inj same).1).1.symm

theorem Opens.tracesOrdered (opens : Opens c b F) (has : b.Has c tl)
    (few : b.wave.hierarchy.length ≤ maxIndex + 1) (past : ∀ t ∈ tl.times, t < 2 ^ 63) :
    F.TracesOrdered := by
  intro sid
  rw [opens.traceOf_eq has few]
  exact traceOf_ordered has.wave.ordered past _

/-- Every change of a file lies in its time range. -/
theorem Opens.inTime (opens : Opens c b F) (has : b.Has c tl)
    (few : b.wave.hierarchy.length ≤ maxIndex + 1) (past : ∀ t ∈ tl.times, t < 2 ^ 63) {sid : F.Sid}
    {change : Change} (member : change ∈ F.traceOf sid) :
    ∃ first last, F.backend.timeRange = some (first, last) ∧ first ≤ change.tick ∧
      change.tick ≤ last := by
  rw [opens.traceOf_eq has few] at member
  rw [opens.timeRange]
  exact has.inTime past member

/-- Such a file does not seek, so nothing is asked of its windows. -/
theorem Opens.pointExact (opens : Opens c b F) : F.PointExact := by
  intro seeking
  rw [opens.full] at seeking
  cases seeking

end Opens

section Snapshot

variable {c : Crates} {lookup : IdLookup} {hierarchy : List HierarchySignal} {skip : List UInt8}

/-- On a dump that is written and opened, a point query shows for each selected signal that is not
derived the value that the lines of the dump give it last at or before the instant, whatever is in the
cache and in whatever batches the signals are decoded, and for a derived signal nothing. Every change is
in the time range of the file, which has as many time steps as the dump. -/
theorem snapshot_written {dump : List DumpLine} {r : Recording}
    (writable : Writable c lookup (groundSignalEncodings hierarchy) skip dump r)
    (past : ∀ t ∈ r.timeline.times, t < 2 ^ 63) (few : hierarchy.length ≤ maxIndex + 1)
    {threads : Option Nat} (several : ∀ n, threads = some n → 0 < n ∧ n ≤ 8193) :
    ∃ reader times, readValues c lookup (groundSignalEncodings hierarchy) (bodyText skip dump) threads =
        .ok (reader, times) ∧
      ∀ F, Opens c (WellenBackend.new hierarchy reader times) F →
        (∀ w : Wave F, w.Consistent → ∀ (t : Int) (sids : Option (List F.Sid)) (batch : Nat),
          (∀ sid, sid ∉ F.selected sids → (w.snapshotStreaming t sids batch).1 sid = none) ∧
          ∀ sid ∈ F.selected sids, ∀ info, hierarchy[(F.signal sid).backendSid]? = some info →
            (w.snapshotStreaming t sids batch).1 sid =
              if info.derived then none
              else (dumpValueAt c info.tpe (F.signal sid).backendSid t (dumpOps lookup dump)).map
                fun v => rawOf (v.value c)) ∧
        (∀ sid, ∀ change ∈ F.traceOf sid, ∃ first last, F.backend.timeRange = some (first, last) ∧
          first ≤ change.tick ∧ change.tick ≤ last) ∧
        F.backend.timeStepCount = r.timeline.times.length := by
  have inOrder := (Recording.ordered_empty (groundSignalEncodings hierarchy)).run writable.recorded
  obtain ⟨reader, read, gives⟩ := readValues_recorded writable.readable several
  have has := WellenBackend.has_new inOrder gives
  refine ⟨reader, _, read, fun F opens => ⟨fun w consistent t sids batch => ?_,
    fun sid change member => opens.inTime has few past member, opens.timeStepCount⟩⟩
  have ordered := opens.tracesOrdered has few past
  have shown (sid : F.Sid) : (w.snapshotStreaming t sids batch).1 sid =
      if sid ∈ F.selected sids then
        (lastValue (F.signal sid).backendSid t r.timeline).map fun v => rawOf (v.value c)
      else none := by
    rw [consistent.snapshotStreaming_eq ordered opens.pointExact, Wave.snapshot,
      consistent.valuesAt_resident ordered]
    dsimp only
    rw [opens.traceOf_eq has few]
    exact congrArg (fun v => if sid ∈ F.selected sids then v else none)
      (valueAt_traceOf inOrder past _ t)
  refine ⟨fun sid absent => (shown sid).trans (if_neg absent), fun sid selected info entry => ?_⟩
  have encoding : (groundSignalEncodings hierarchy)[(F.signal sid).backendSid]? =
      some (if info.derived then none else some info.tpe) := by
    rw [groundSignalEncodings, List.getElem?_map, entry]
    rfl
  rw [shown, if_pos selected]
  by_cases derived : info.derived = true
  · rw [if_pos derived]
    rw [if_pos derived] at encoding
    rw [lastValue, of_eq_nil inOrder fun _ => by simp [encoding]]
    rfl
  · rw [if_neg derived]
    rw [if_neg derived] at encoding
    rw [lastValue_run writable.ordered encoding writable.recorded]

/-- The long dump as a file of its three signals. -/
def longMock : MockBackend :=
  ⟨[0, 1, 2].map fun i => (i, traceOf plainCrates longRecording.timeline i), false, false⟩

def longFile : File :=
  { longMock.file with backend := { longMock.backend with timeStepCount := 3 } }

/-- The file answers as a backend of the long dump does: with the traces of its three signals, and
with none for a handle too large to be one. -/
theorem longFile_opens {reader : Reader}
    (has : (WellenBackend.new longHierarchy reader longRecording.timeline.times).Has plainCrates
      longRecording.timeline) :
    Opens plainCrates (WellenBackend.new longHierarchy reader longRecording.timeline.times)
      longFile := by
  have few : longHierarchy.length ≤ maxIndex + 1 := by decide
  have recorded : ∀ s < longHierarchy.length,
      longFile.backend.loadTrace s = traceOf plainCrates longRecording.timeline s := by
    decide +kernel
  have traces : ∀ s, WellenBackend.Answerable longHierarchy.length s →
      longFile.backend.loadTrace s = traceOf plainCrates longRecording.timeline s := by
    rintro s (known | large)
    · exact recorded s known
    · have outside : (groundSignalEncodings longHierarchy)[s]? = none :=
        List.getElem?_eq_none (le_trans (by decide) (le_of_lt large))
      have missing : longMock.data.find? (fun entry => entry.1 == s) = none := by
        refine List.find?_eq_none.mpr fun entry member same => ?_
        obtain ⟨i, inside, rfl⟩ := List.mem_map.mp member
        have small : ∀ i ∈ [0, 1, 2], i ≤ maxIndex := by decide
        exact absurd large (Nat.not_lt.mpr (beq_iff_eq.mp same ▸ small i inside))
      have absent : ∀ tpe, (groundSignalEncodings longHierarchy)[s]? ≠ some (some tpe) := fun _ =>
        outside.trans_ne (Option.some_ne_none _).symm
      rw [traceOf_eq_nil has.wave.ordered absent]
      change longMock.changes s = []
      rw [MockBackend.changes, missing]
  have range : longFile.backend.timeRange = some (0, 7) := by decide +kernel
  have handles : ∀ sid : longFile.Sid, (longFile.signal sid).backendSid < longHierarchy.length := by
    decide +kernel
  refine ⟨fun requests known b' answers ran => ?_, range.trans rfl, rfl, handles, rfl⟩
  obtain ⟨b, answer⟩ := has.runRequests known few
  rw [ran] at answer
  cases answer
  exact List.map_congr_left fun sids member =>
    List.map_congr_left fun s inside => (traces s (known sids member s inside)).symm

theorem longDump_snapshot : ∃ reader,
    readValues plainCrates none shortEncodings (bodyText (asciiBytes " $end") longDump) (some 3) =
        .ok (reader, [0, 5, 7]) ∧
      Opens plainCrates (WellenBackend.new longHierarchy reader [0, 5, 7]) longFile ∧
      longFile.allSids.map ((Wave.fresh longFile).snapshotStreaming 6 none 1).1 =
        [some (.bits "0"), some (.bits "0011"), none] := by
  have writable : Writable plainCrates none (groundSignalEncodings longHierarchy)
      (asciiBytes " $end") longDump longRecording := longDump_writable
  have several : ∀ n, some 3 = some n → 0 < n ∧ n ≤ 8193 := fun n own => by cases own; decide
  obtain ⟨reader, times, read, shows⟩ := snapshot_written writable (by decide) (by decide) several
  obtain ⟨reader', read', gives⟩ := readValues_recorded writable.readable several
  cases read.symm.trans read'
  have opens := longFile_opens
    (WellenBackend.has_new ((Recording.ordered_empty _).run writable.recorded) gives)
  have value : ∀ sid, ((Wave.fresh longFile).snapshotStreaming 6 none 1).1 sid =
      longHierarchy[(longFile.signal sid).backendSid]?.bind fun info =>
        if info.derived then none
        else (dumpValueAt plainCrates info.tpe (longFile.signal sid).backendSid 6
          (dumpOps none longDump)).map fun v => rawOf (v.value plainCrates) := by
    intro sid
    have entry := List.getElem?_eq_getElem (opens.handles sid)
    rw [show longHierarchy[(longFile.signal sid).backendSid]? = some _ from entry, Option.bind_some]
    exact ((shows _ opens).1 _ (Wave.consistent_fresh _) 6 none 1).2 sid (List.mem_finRange sid) _
      entry
  refine ⟨reader, read, opens, ?_⟩
  rw [List.map_congr_left fun sid _ => value sid]
  decide +kernel

end Snapshot

end RWave.Model
