import RWave.Commands.Isolation
import RWave.Commands.SearchState
import RWave.Misc.Outcome
import RWave.Model.LastEvent

/-!
# What `compare` reports

The two states that `compare` takes its rows from are two point queries of the file, however they were
obtained; so a reported signal has an event after the first instant and no later than the second. Of a
backend that seeks this asks that its windows have the values of the complete traces
(`File.PointExact`), of any other backend nothing.
-/

namespace RWave.Commands

open RWave.Backend RWave.Model RWave.Misc RWave.Format RWave.Select RWave.Cli

variable {F : File}

/-- The values of the selected signals at an instant. -/
def valuesOf (sids : Option (List F.Sid)) (t : Int) : ValueMap F := fun sid =>
  if sid ∈ F.selected sids then ((F.traceOf sid).lastBefore t).map Change.value else none

theorem compareStates_result {w : Wave F} (consistent : w.Consistent) (ordered : F.TracesOrdered)
    (contract : F.PointExact) {ta tb : Int} (le : ta ≤ tb) (sel : Option (List F.Sid)) :
    (compareStates ta tb sel (selectedSids sel)).result w =
      .ok (valuesOf sel ta, valuesOf sel tb) := by
  rw [compareStates]
  split
  · change Except.ok (w.snapshotPairStreaming ta tb sel streamingBatch).1 = _
    rw [consistent.snapshotPairStreaming_eq ordered contract le, Wave.snapshotPair_eq,
      Wave.snapshot, Wave.snapshot, consistent.valuesAt_resident ordered,
      consistent.valuesAt_resident ordered]
    rfl
  · change Except.ok ((w.ensureLoaded (selectedSids sel)).snapshotPair ta tb sel) = _
    have same : (w.ensureLoaded (selectedSids sel)).resident sel =
        (w.ensureLoaded (F.selected sel)).resident sel := by
      apply resident_congr
      intro sid member
      rw [consistent.ensureLoaded_mem (mem_selectedSids.mpr member),
        consistent.ensureLoaded_mem member]
    rw [Wave.snapshotPair_eq, Wave.snapshot, Wave.snapshot, same,
      consistent.valuesAt_resident ordered, consistent.valuesAt_resident ordered]
    rfl

/-- The instants are in order. -/
theorem compareTimes_le {host : Host} {args : Args} {ts : F64} {ta tb : Int}
    (parsed : compareTimes host args ts = .ok (ta, tb)) : ta ≤ tb := by
  rw [compareTimes] at parsed
  obtain ⟨atRaw, -, parsed⟩ := bind_eq_ok.mp parsed
  split at parsed
  · obtain ⟨ta', -, parsed⟩ := bind_eq_ok.mp parsed
    obtain ⟨tb', -, parsed⟩ := bind_eq_ok.mp parsed
    split at parsed
    · obtain ⟨_, absurdity, -⟩ := bind_eq_ok.mp parsed
      cases absurdity
    · rename_i le
      cases parsed
      exact not_lt.mp le
  · cases parsed

theorem differs_self (host : Host) (v : Option RawValue) : differs host v v = false := by
  cases v with
  | none => rfl
  | some a => simp [differs]

/-- A signal that differs between two instants changes after the first and by the second. -/
theorem changes_of_differs {host : Host} {ta tb : Int} (le : ta ≤ tb)
    {sel : Option (List F.Sid)} {sid : F.Sid}
    (differ : differs host (valuesOf sel ta sid) (valuesOf sel tb sid) = true) :
    sid ∈ F.selected sel ∧ ∃ c ∈ F.traceOf sid, ta < c.tick ∧ c.tick ≤ tb := by
  rw [valuesOf, valuesOf] at differ
  by_cases selected : sid ∈ F.selected sel
  · refine ⟨selected, ?_⟩
    by_contra still
    push Not at still
    rw [if_pos selected, if_pos selected, lastBefore_congr le, differs_self] at differ
    · cases differ
    · intro c member inside
      exact absurd inside.2 (not_le.mpr (still c member inside.1))
  · rw [if_neg selected, if_neg selected, differs_self] at differ
    cases differ

/-- Every reported difference is of a selected signal with an event between the two instants. -/
theorem compareData_changed {env : Env F} {args : Args} {w : Wave F} (consistent : w.Consistent)
    (ordered : F.TracesOrdered) (contract : F.PointExact) {d : CompareData}
    (answer : (compareData env args).result w = .ok d) :
    ∃ reported : List F.Sid,
      d.diffs.map Diff.path = reported.map (fun sid => (F.signal sid).path) ∧
      ∀ sid ∈ reported, ∃ c ∈ F.traceOf sid, d.ta < c.tick ∧ c.tick ≤ d.tb := by
  rw [compareData] at answer
  obtain ⟨selection, -, answer⟩ := Prog.result_bind_eq_ok.mp answer
  obtain ⟨⟨ta, tb⟩, times, answer⟩ := Prog.result_bind_eq_ok.mp answer
  have le := compareTimes_le times
  obtain ⟨⟨sa, sb⟩, states, answer⟩ := Prog.result_bind_eq_ok.mp answer
  have found := compareStates_result consistent ordered contract le
    (matchSelection env.host F selection)
  obtain ⟨rfl, rfl⟩ := Prod.mk.inj (Except.ok.inj (states.symm.trans found))
  cases answer
  refine ⟨_, List.map_map, ?_⟩
  intro sid member
  exact (changes_of_differs le (List.mem_filter.mp member).2).2

/-- Point queries equal replay: `snapshot` shows the value of the last event of each signal that has
one, `snapshot_pair` is two snapshots, a signal without an event between two instants does not differ
between them, and `compare` reports no such signal. -/
theorem pointQueries_eq_replay {w : Wave F} (consistent : w.Consistent) (ordered : F.TracesOrdered)
    (fit : F.TicksFit) (H : BinaryHeap (HeapEntry.key (F := F))) (sids : Option (List F.Sid)) :
    (∀ t sid, w.snapshot t sids sid =
      (eventsOf sid (w.forEachEvent H i64Min (some t) sids)).getLast?.map fun e => e.2.2) ∧
    (∀ ta tb, ta ≤ tb →
      w.snapshotPair ta tb sids = (w.snapshot ta sids, w.snapshot tb sids) ∧
      ∀ host sid, eventsOf sid (w.forEachEvent H (ta + 1) (some tb) sids) = [] →
        differs host ((w.snapshotPair ta tb sids).1 sid) ((w.snapshotPair ta tb sids).2 sid) =
          false) ∧
    (F.PointExact → ∀ env args d, (compareData env args).result w = .ok d →
      ∃ reported : List F.Sid,
        d.diffs.map Diff.path = reported.map (fun sid => (F.signal sid).path) ∧
        ∀ sid ∈ reported, ∃ c ∈ F.traceOf sid, d.ta < c.tick ∧ c.tick ≤ d.tb) := by
  refine ⟨?_, ?_, ?_⟩
  · intro t sid
    exact consistent.snapshot_eq_replay ordered fit H t sids sid
  · intro ta tb le
    refine ⟨w.snapshotPair_eq ta tb sids, ?_⟩
    intro host sid still
    rw [w.snapshotPair_eq]
    dsimp only
    rw [consistent.snapshot_still ordered H le sids sid still, differs_self]
  · intro contract env args d answer
    exact compareData_changed consistent ordered contract answer

theorem pointQueries_eq_replay_handshake :
    handshakeWave.snapshot 5 none handshakeMock.ack =
      (eventsOf handshakeMock.ack (handshakeWave.forEachEvent (stdHeap _) i64Min (some 5)
        none)).getLast?.map (fun e => e.2.2) ∧
    ∀ (env : Env handshakeMock.file) (args : Args) (d : CompareData),
      (compareData env args).result handshakeWave = .ok d →
      ∃ reported : List handshakeMock.file.Sid,
        d.diffs.map Diff.path = reported.map (fun sid => (handshakeMock.file.signal sid).path) ∧
        ∀ sid ∈ reported, ∃ c ∈ handshakeMock.file.traceOf sid, d.ta < c.tick ∧ c.tick ≤ d.tb := by
  have ordered : handshakeMock.file.TracesOrdered := by
    apply handshakeMock.file_ordered
    unfold SignalTrace.Ordered
    decide
  have fit : handshakeMock.file.TicksFit := by
    unfold File.TicksFit i64Min
    decide
  have consistent : handshakeWave.Consistent := (Wave.consistent_fresh _).ensureLoaded _
  obtain ⟨queries, -, compared⟩ :=
    pointQueries_eq_replay consistent ordered fit (stdHeap _) none
  exact ⟨queries 5 handshakeMock.ack, compared handshakeMock.windowed_file.pointExact⟩

end RWave.Commands
