import RWave.Model.Windowed
import RWave.Model.Collect

/-!
# Point queries

`snapshot` and `snapshot_pair` read resident traces; the streaming forms decode batch by batch,
and on a seeking backend over windows that hold the queried instants only. Both need nothing but
the last value at or before an instant, which complete traces have and slices of them, so they
agree on every backend whose windows have the values of the complete traces
(`snapshotStreaming_eq`, `snapshotPairStreaming_eq`).

The events of a window are another matter: a seed that is no change shows in a dump.
-/

namespace RWave.Model

open RWave.Backend RWave.Misc

variable {F : File}

/-- `HashMap<Sid, RawValue>`: the signals with a known value. -/
abbrev ValueMap (F : File) : Type := F.Sid → Option RawValue

/-- `if let Some(pos) = last_at_or_before(..) { state.insert(sid, ..) }`. -/
def insertAt (t : Int) (state : ValueMap F) (visit : F.Sid × SignalTrace) : ValueMap F :=
  match (lastAtOrBefore visit.2.times t).bind fun pos => visit.2[pos]? with
  | some c => Function.update state visit.1 (some c.value)
  | none => state

/-- The values at `t` of the traces visited. -/
def valuesAt (t : Int) (visits : List (F.Sid × SignalTrace)) : ValueMap F :=
  visits.foldl (insertAt t) fun _ => none

/-- The values at `ta` and at `tb` of the traces visited, both maps filled in one pass. -/
def valuesAtPair (ta tb : Int) (visits : List (F.Sid × SignalTrace)) : ValueMap F × ValueMap F :=
  visits.foldl (fun (a, b) visit => (insertAt ta a visit, insertAt tb b visit))
    (fun _ => none, fun _ => none)

namespace Wave

/-- The resident traces of a selection (`for_selected` with `trace`). -/
def resident (w : Wave F) (sids : Option (List F.Sid)) : List (F.Sid × SignalTrace) :=
  (F.selected sids).filterMap fun sid => (w.traces sid).map fun tr => (sid, tr)

/-- `snapshot`. -/
def snapshot (w : Wave F) (t : Int) (sids : Option (List F.Sid)) : ValueMap F :=
  valuesAt t (w.resident sids)

/-- `snapshot_pair`. -/
def snapshotPair (w : Wave F) (ta tb : Int) (sids : Option (List F.Sid)) :
    ValueMap F × ValueMap F :=
  valuesAtPair ta tb (w.resident sids)

/-- `snapshot_streaming`. -/
def snapshotStreaming (w : Wave F) (t : Int) (sids : Option (List F.Sid)) (batch : Nat) :
    ValueMap F × Wave F :=
  let visits := w.forEachSignalWindowed sids batch t (some t)
  (valuesAt t visits.1, visits.2)

/-- `snapshot_pair_streaming`: a seeking backend is asked for two point windows. -/
def snapshotPairStreaming (w : Wave F) (ta tb : Int) (sids : Option (List F.Sid)) (batch : Nat) :
    (ValueMap F × ValueMap F) × Wave F :=
  if F.backend.supportsWindowed && ta != tb then
    let a := w.forEachSignalWindowed sids batch ta (some ta)
    let b := a.2.forEachSignalWindowed sids batch tb (some tb)
    ((valuesAt ta a.1, valuesAt tb b.1), b.2)
  else
    let visits := w.forEachSignalWindowed sids batch ta (some tb)
    (valuesAtPair ta tb visits.1, visits.2)

end Wave

/-! ## Values at an instant -/

/-- One pass over both maps fills each as a pass of its own does. -/
theorem valuesAtPair_eq (ta tb : Int) (visits : List (F.Sid × SignalTrace)) :
    valuesAtPair ta tb visits = (valuesAt ta visits, valuesAt tb visits) :=
  List.foldl_hom₂ visits Prod.mk (insertAt ta) (insertAt tb) _ _ _ fun _ _ _ => rfl

theorem Wave.snapshotPair_eq (w : Wave F) (ta tb : Int) (sids : Option (List F.Sid)) :
    w.snapshotPair ta tb sids = (w.snapshot ta sids, w.snapshot tb sids) :=
  valuesAtPair_eq ta tb (w.resident sids)

theorem insertAt_eq (t : Int) (state : ValueMap F) {visit : F.Sid × SignalTrace}
    (ordered : visit.2.Ordered) (sid : F.Sid) :
    insertAt t state visit sid =
      if visit.1 = sid then ((visit.2.lastBefore t).map Change.value).or (state sid)
      else state sid := by
  rw [insertAt, lastAtOrBefore_eq ordered]
  cases visit.2.lastBefore t with
  | none => simp
  | some c =>
    by_cases same : visit.1 = sid
    · subst same
      simp
    · simp [same, Function.update_of_ne (Ne.symm same)]

/-- When every visit shows its signal the same value, the order of the visits does not matter. -/
theorem valuesAt_eq {t : Int} {visits : List (F.Sid × SignalTrace)} {v : F.Sid → Option RawValue}
    (ordered : ∀ visit ∈ visits, visit.2.Ordered)
    (value : ∀ visit ∈ visits, (visit.2.lastBefore t).map Change.value = v visit.1) (sid : F.Sid) :
    valuesAt t visits sid = if sid ∈ visits.map Prod.fst then v sid else none := by
  induction visits using List.reverseRecOn with
  | nil => rfl
  | append_singleton visits visit ih =>
    have before := ih (fun x hx => ordered x (by simp [hx])) fun x hx => value x (by simp [hx])
    rw [valuesAt, List.foldl_append, List.foldl_cons, List.foldl_nil,
      insertAt_eq t _ (ordered visit (by simp)), value visit (by simp)]
    change (if visit.1 = sid then (v visit.1).or (valuesAt t visits sid) else
      valuesAt t visits sid) = _
    rw [before]
    by_cases same : visit.1 = sid
    · subst same
      by_cases member : visit.1 ∈ visits.map Prod.fst
      · simp [member]
      · simp [member]
    · have member : sid ∈ (visits ++ [visit]).map Prod.fst ↔ sid ∈ visits.map Prod.fst := by
        simp [Ne.symm same]
      simp only [if_neg same, member]

namespace Wave

/-- The visits of a windowed query show, at every instant of the window, the values of the
complete traces. -/
theorem valuesAt_windowed (ordered : F.TracesOrdered) (contract : F.PointExact) {w : Wave F}
    (consistent : w.Consistent) (sids : Option (List F.Sid)) (batch : Nat) {frm t upto : Int}
    (from_le : frm ≤ t) (le_to : t ≤ upto) :
    valuesAt t (w.forEachSignalWindowed sids batch frm (some upto)).1 = fun sid =>
      if sid ∈ F.selected sids then ((F.traceOf sid).lastBefore t).map Change.value else none := by
  have le : ∀ b ∈ some upto, frm ≤ b := by simpa using from_le.trans le_to
  obtain ⟨perm, served⟩ := consistent.visits contract le sids batch
  have shows : ∀ visit ∈ (w.forEachSignalWindowed sids batch frm (some upto)).1,
      Backend.PointExact (F.traceOf visit.1) visit.2 frm (some upto) := by
    intro visit member
    rcases served visit member with eq | answer
    · exact eq ▸ .refl (ordered _) frm (some upto)
    · exact answer (ordered _)
  funext sid
  rw [valuesAt_eq (v := fun sid => ((F.traceOf sid).lastBefore t).map Change.value)
    (fun visit member => (shows visit member).ordered)
    (fun visit member => (shows visit member).value t from_le (by simpa using le_to)) sid]
  simp only [perm.mem_iff]

/-- Loaded signals show the values of the complete traces. -/
theorem Consistent.valuesAt_resident {w : Wave F} (consistent : w.Consistent)
    (ordered : F.TracesOrdered) (t : Int) (sids : Option (List F.Sid)) :
    valuesAt t ((w.ensureLoaded (F.selected sids)).resident sids) = fun sid =>
      if sid ∈ F.selected sids then ((F.traceOf sid).lastBefore t).map Change.value else none := by
  have loaded : (w.ensureLoaded (F.selected sids)).resident sids =
      (F.selected sids).map fun sid => (sid, F.traceOf sid) := by
    rw [resident, ← List.filterMap_eq_map]
    refine List.filterMap_congr ?_
    intro sid member
    simp [consistent.ensureLoaded_mem member]
  funext sid
  rw [loaded, valuesAt_eq (v := fun sid => ((F.traceOf sid).lastBefore t).map Change.value)
    (fun visit member => ?_) (fun visit member => ?_) sid]
  · simp [Function.comp_def]
  · obtain ⟨s, -, rfl⟩ := List.mem_map.mp member
    exact ordered s
  · obtain ⟨s, -, rfl⟩ := List.mem_map.mp member
    rfl

/-- A streaming snapshot is the snapshot of the loaded signals. -/
theorem Consistent.snapshotStreaming_eq {w : Wave F} (consistent : w.Consistent)
    (ordered : F.TracesOrdered) (contract : F.PointExact) (t : Int) (sids : Option (List F.Sid))
    (batch : Nat) :
    (w.snapshotStreaming t sids batch).1 = (w.ensureLoaded (F.selected sids)).snapshot t sids := by
  rw [snapshot, consistent.valuesAt_resident ordered, snapshotStreaming,
    valuesAt_windowed ordered contract consistent sids batch le_rfl le_rfl]

/-- A streaming pair of snapshots is the pair of snapshots of the loaded signals, whether it took
one window or two. -/
theorem Consistent.snapshotPairStreaming_eq {w : Wave F} (consistent : w.Consistent)
    (ordered : F.TracesOrdered) (contract : F.PointExact) {ta tb : Int} (le : ta ≤ tb)
    (sids : Option (List F.Sid)) (batch : Nat) :
    (w.snapshotPairStreaming ta tb sids batch).1 =
      (w.ensureLoaded (F.selected sids)).snapshotPair ta tb sids := by
  rw [snapshotPair_eq, snapshot, snapshot, consistent.valuesAt_resident ordered,
    consistent.valuesAt_resident ordered, snapshotPairStreaming]
  split
  · have restored : (w.forEachSignalWindowed sids batch ta (some ta)).2 = w := by
      rw [consistent.forEachSignalWindowed]
    dsimp only
    rw [restored]
    exact congrArg₂ Prod.mk (valuesAt_windowed ordered contract consistent sids batch le_rfl le_rfl)
      (valuesAt_windowed ordered contract consistent sids batch le_rfl le_rfl)
  · dsimp only
    rw [valuesAtPair_eq]
    exact congrArg₂ Prod.mk (valuesAt_windowed ordered contract consistent sids batch le_rfl le)
      (valuesAt_windowed ordered contract consistent sids batch le le_rfl)

end Wave

/-! ## Events of a window -/

theorem emissions_within (sid : F.Sid) (t0 : Int) (t1 : Option Int) (tr : SignalTrace) :
    emissions sid t0 t1 tr = (tr.within t0 t1).map fun c => (c.tick, sid, c.value) := rfl

theorem emissions_key_sid {t0 : Int} {t1 : Option Int} (distinct : F.DeclDistinct)
    (tr : F.Sid → SignalTrace) (i j : F.Sid) (a : Emission F)
    (ha : a ∈ emissions i t0 t1 (tr i)) (b : Emission F) (hb : b ∈ emissions j t0 t1 (tr j))
    (same : F.emissionKey a = F.emissionKey b) : i = j := by
  have decl := congrArg (fun k => (ofLex k).2) same
  rw [← emissions_sid ha, ← emissions_sid hb]
  exact distinct _ _ decl

/-- Without a limit, everything visited in the window is shown, in order. -/
theorem collectVisits_unlimited (H : BinaryHeap (DumpEvent.key (F := F))) (t0 : Int)
    (t1 : Option Int) (visits : List (F.Sid × SignalTrace))
    (ordered : ∀ visit ∈ visits, visit.2.Ordered) :
    (collectVisits H t0 t1 0 visits).events.map DumpEvent.emission =
      sortByKey F.emissionKey (visits.flatMap fun v => emissions v.1 t0 t1 v.2) ∧
    (collectVisits H t0 t1 0 visits).total =
      (visits.flatMap fun v => emissions v.1 t0 t1 v.2).length ∧
    (collectVisits H t0 t1 0 visits).truncated = false := by
  have stream : (visited t0 t1 visits).map DumpEvent.emission =
      visits.flatMap fun v => emissions v.1 t0 t1 v.2 := by
    rw [visited, List.map_flatMap]
    refine List.flatMap_congr ?_
    intro v member
    simp [inRange_eq (ordered v member), emissions_within, signalEvents, DumpEvent.emission]
  have declared : ∀ e ∈ visited t0 t1 visits, e.Declared := by
    intro e member
    obtain ⟨v, inVisits, member⟩ := List.mem_flatMap.mp member
    dsimp only at member
    rw [inRange_eq (ordered v inVisits)] at member
    exact signalEvents_declared member
  rw [collectVisits_eq, ← stream]
  refine ⟨?_, by simp, by simp⟩
  exact (sortByKey_map fun e member => (declared e member).key_emission).symm

/-- The same file behind a backend that cannot seek. -/
def File.nonSeeking (F : File) : File :=
  { F with backend := { F.backend with supportsWindowed := false } }

/-- No answer of the first shape is for a signal with several changes at the window's first
tick. -/
def File.SeedSafe (F : File) (batch : Nat) (t0 : Int) (t1 : Option Int)
    (sids : Option (List F.Sid)) : Prop :=
  ∀ chunk ∈ chunks batch (F.selected sids), ∀ answer ∈ Wave.windowAnswers F t0 t1 chunk,
    answer.2 = WindowShape.slice .seedAtTick (F.backend.loadTrace answer.1) t0 t1 →
      ((F.backend.loadTrace answer.1).atTick t0).length ≤ 1

/-- The queries answer on a seeking backend as they do without seeking. `w` and `full` are the
same file with and without seeking. -/
structure QueriesAgree (w : Wave F) (full : Wave F.nonSeeking)
    (H : BinaryHeap (DumpEvent.key (F := F))) (H' : BinaryHeap (DumpEvent.key (F := F.nonSeeking)))
    (sids : Option (List F.Sid)) (batch : Nat) (t ta tb t0 : Int) (t1 : Option Int) : Prop where
  point : (w.snapshotStreaming t sids batch).1 = (w.ensureLoaded (F.selected sids)).snapshot t sids
  pair : (w.snapshotPairStreaming ta tb sids batch).1 =
    (w.ensureLoaded (F.selected sids)).snapshotPair ta tb sids
  events : (w.collectEventsBounded H t0 t1 sids 0 batch).1.events.map DumpEvent.emission =
    (full.collectEventsBounded H' t0 t1 sids 0 batch).1.events.map DumpEvent.emission
  total : (w.collectEventsBounded H t0 t1 sids 0 batch).1.total =
    (full.collectEventsBounded H' t0 t1 sids 0 batch).1.total
  truncated : (w.collectEventsBounded H t0 t1 sids 0 batch).1.truncated =
    (full.collectEventsBounded H' t0 t1 sids 0 batch).1.truncated

/-- On a backend that cannot seek, the complete traces are collected. -/
theorem collect_full (ordered : F.TracesOrdered) (full : F.backend.supportsWindowed = false)
    {w : Wave F} (consistent : w.Consistent) (H : BinaryHeap (DumpEvent.key (F := F)))
    (sids : Option (List F.Sid)) (batch : Nat) (t0 : Int) (t1 : Option Int) :
    ((w.collectEventsBounded H t0 t1 sids 0 batch).1.events.map DumpEvent.emission =
      sortByKey F.emissionKey
        ((F.selected sids).flatMap fun sid => emissions sid t0 t1 (F.traceOf sid))) ∧
    (w.collectEventsBounded H t0 t1 sids 0 batch).1.total =
      ((F.selected sids).flatMap fun sid => emissions sid t0 t1 (F.traceOf sid)).length ∧
    (w.collectEventsBounded H t0 t1 sids 0 batch).1.truncated = false := by
  have visits : (w.forEachSignalWindowed sids batch t0 t1).1 =
      (F.selected sids).map fun sid => (sid, F.traceOf sid) := by
    rw [Wave.forEachSignalWindowed, full, if_neg (by simp), consistent.forEachSignalBatched]
  have spec := collectVisits_unlimited H t0 t1
    ((F.selected sids).map fun sid => (sid, F.traceOf sid)) (fun visit member => ?_)
  · rw [List.flatMap_map] at spec
    rw [Wave.collectEventsBounded, visits]
    exact spec
  · obtain ⟨sid, -, rfl⟩ := List.mem_map.mp member
    exact ordered sid

/-- A slice shows no more events in its window than the complete trace. -/
theorem length_slice_le (shape : WindowShape) {tr : SignalTrace} (ordered : tr.Ordered) {t0 : Int}
    {t1 : Option Int} (le : ∀ b ∈ t1, t0 ≤ b) :
    ((shape.slice tr t0 t1).within t0 t1).length ≤ (tr.within t0 t1).length := by
  rw [shape.slice_within ordered le]
  cases shape with
  | seedBefore => exact le_rfl
  | seedAtTick =>
    rw [ordered.within_split le, List.length_append, List.length_append]
    cases found : (tr.atTick t0).getLast? with
    | none => simp
    | some c =>
      have := List.length_pos_of_mem (List.mem_of_getLast? found)
      simpa using Nat.succ_le_of_lt this

/-- When several changes stand at the first tick, a slice of the first shape loses some. -/
theorem length_slice_lt {tr : SignalTrace} (ordered : tr.Ordered) {t0 : Int} {t1 : Option Int}
    (le : ∀ b ∈ t1, t0 ≤ b) (several : 1 < (tr.atTick t0).length) :
    ((WindowShape.slice .seedAtTick tr t0 t1).within t0 t1).length < (tr.within t0 t1).length := by
  rw [WindowShape.slice_within _ ordered le, ordered.within_split le]
  have seed : ((tr.atTick t0).getLast?.toList).length ≤ 1 := by
    cases (tr.atTick t0).getLast? <;> simp
  simp only [List.length_append]
  omega

/-- When at most one change stands at the first tick, a slice shows exactly the events of the
complete trace. -/
theorem slice_within_eq (shape : WindowShape) {tr : SignalTrace} (ordered : tr.Ordered) {t0 : Int}
    {t1 : Option Int} (le : ∀ b ∈ t1, t0 ≤ b)
    (single : shape = .seedAtTick → (tr.atTick t0).length ≤ 1) :
    (shape.slice tr t0 t1).within t0 t1 = tr.within t0 t1 := by
  rw [shape.slice_within ordered le]
  cases shape with
  | seedBefore => rfl
  | seedAtTick =>
    rw [ordered.within_split le]
    match tr.atTick t0, single rfl with
    | [], _ => rfl
    | [c], _ => rfl

section WindowVisits

variable (ordered : F.TracesOrdered) (contract : F.Windowed)
  (seeking : F.backend.supportsWindowed = true) {t0 : Int} {t1 : Option Int}
  (windowLe : ∀ b ∈ t1, t0 ≤ b) {chunk : List F.Sid}
include ordered contract seeking windowLe

/-- A visit shows at most the events of the complete trace. -/
theorem emissions_visit_le {visit : F.Sid × SignalTrace}
    (member : visit ∈ Wave.windowedBatch F t0 t1 chunk) :
    (emissions visit.1 t0 t1 visit.2).length ≤
      (emissions visit.1 t0 t1 (F.traceOf visit.1)).length := by
  obtain ⟨shape, eq⟩ := File.Answers.answer_related contract seeking windowLe
    (File.Answers.mem_batch member)
  rw [emissions_within, emissions_within, List.length_map, List.length_map, eq]
  exact length_slice_le shape (ordered _) windowLe

/-- An answer of the first shape that drops a change at the first tick reaches some signal, and
shows it fewer events. -/
theorem exists_emissions_lt {answer : BackendSid × SignalTrace}
    (member : answer ∈ Wave.windowAnswers F t0 t1 chunk)
    (seed : answer.2 = WindowShape.slice .seedAtTick (F.backend.loadTrace answer.1) t0 t1)
    (several : 1 < ((F.backend.loadTrace answer.1).atTick t0).length) :
    ∃ visit ∈ Wave.windowedBatch F t0 t1 chunk,
      (emissions visit.1 t0 t1 visit.2).length <
        (emissions visit.1 t0 t1 (F.traceOf visit.1)).length := by
  obtain ⟨sid, handle, inBatch⟩ := File.Answers.exists_visit contract seeking windowLe member
  have trace : F.traceOf sid = F.backend.loadTrace answer.1 := by
    rw [File.traceOf, handle]
  refine ⟨_, inBatch, ?_⟩
  rw [emissions_within, emissions_within, List.length_map, List.length_map, seed, ← trace]
  exact length_slice_lt (ordered sid) windowLe (trace ▸ several)

/-- When no answer drops a change at the first tick, every visit shows the events of the complete
trace. -/
theorem emissions_visit_eq {batch : Nat} {sids : Option (List F.Sid)}
    (safe : F.SeedSafe batch t0 t1 sids) (inChunks : chunk ∈ chunks batch (F.selected sids))
    {visit : F.Sid × SignalTrace} (member : visit ∈ Wave.windowedBatch F t0 t1 chunk) :
    emissions visit.1 t0 t1 visit.2 = emissions visit.1 t0 t1 (F.traceOf visit.1) := by
  have inAnswers := File.Answers.mem_batch member
  obtain ⟨shape, eq⟩ := File.Answers.answer_related contract seeking windowLe inAnswers
  rw [emissions_within, emissions_within, eq]
  refine congrArg _ (slice_within_eq shape (ordered _) windowLe ?_)
  intro seed
  exact safe chunk inChunks _ inAnswers (seed ▸ eq)

end WindowVisits

/-- Point queries answer alike on every seeking backend. The events of a window do exactly when no
signal that is answered in the first shape has several changes at the window's first tick. -/
theorem windowed_queries_agree_iff (distinct : F.DeclDistinct) (ordered : F.TracesOrdered)
    (contract : F.Windowed) (seeking : F.backend.supportsWindowed = true) {w : Wave F}
    (consistent : w.Consistent) {full : Wave F.nonSeeking} (fullConsistent : full.Consistent)
    (H : BinaryHeap (DumpEvent.key (F := F))) (H' : BinaryHeap (DumpEvent.key (F := F.nonSeeking)))
    (sids : Option (List F.Sid)) (batch : Nat) (t : Int) {ta tb t0 : Int} {t1 : Option Int}
    (pairLe : ta ≤ tb) (windowLe : ∀ b ∈ t1, t0 ≤ b) :
    QueriesAgree w full H H' sids batch t ta tb t0 t1 ↔ F.SeedSafe batch t0 t1 sids := by
  obtain ⟨perm, served⟩ := consistent.visits contract windowLe sids batch
  have visits : (w.forEachSignalWindowed sids batch t0 t1).1 =
      (chunks batch (F.selected sids)).flatMap (Wave.windowedBatch F t0 t1) := by
    rw [Wave.forEachSignalWindowed, seeking, if_pos rfl, Wave.windowedLoop_eq]
  obtain ⟨events, total, truncated⟩ := collectVisits_unlimited H t0 t1
    (w.forEachSignalWindowed sids batch t0 t1).1 fun visit member => by
      rcases served visit member with eq | ⟨shape, eq⟩
      · exact eq ▸ ordered _
      · exact eq ▸ shape.slice_ordered (ordered _) t0 t1
  obtain ⟨fullEvents, fullTotal, fullTruncated⟩ :=
    collect_full (F := F.nonSeeking) ordered rfl fullConsistent H' sids batch t0 t1
  have inBatch : ∀ visit ∈ (w.forEachSignalWindowed sids batch t0 t1).1,
      ∃ chunk ∈ chunks batch (F.selected sids), visit ∈ Wave.windowedBatch F t0 t1 chunk := by
    intro visit member
    rw [visits] at member
    exact List.mem_flatMap.mp member
  have le : ∀ visit ∈ (w.forEachSignalWindowed sids batch t0 t1).1,
      (emissions visit.1 t0 t1 visit.2).length ≤
        (emissions visit.1 t0 t1 (F.traceOf visit.1)).length := by
    intro visit member
    obtain ⟨chunk, -, member⟩ := inBatch visit member
    exact emissions_visit_le ordered contract seeking windowLe member
  have fullLength : ((F.selected sids).flatMap fun sid =>
      emissions sid t0 t1 (F.traceOf sid)).length =
      ((w.forEachSignalWindowed sids batch t0 t1).1.map fun visit =>
        (emissions visit.1 t0 t1 (F.traceOf visit.1)).length).sum := by
    rw [List.length_flatMap]
    simpa [List.map_map, Function.comp_def] using
      ((perm.map fun sid => (emissions sid t0 t1 (F.traceOf sid)).length).sum_nat).symm
  constructor
  · intro agree chunk inChunks answer inAnswers seed
    by_contra several
    obtain ⟨visit, member, fewer⟩ :=
      exists_emissions_lt ordered contract seeking windowLe inAnswers seed (not_le.mp several)
    have member : visit ∈ (w.forEachSignalWindowed sids batch t0 t1).1 :=
      visits ▸ List.mem_flatMap.mpr ⟨chunk, inChunks, member⟩
    have less := List.sum_lt_sum _ _ le ⟨_, member, fewer⟩
    rw [← List.length_flatMap, ← fullLength, ← total] at less
    exact absurd (agree.total.trans fullTotal) less.ne
  · intro safe
    have same : ∀ visit ∈ (w.forEachSignalWindowed sids batch t0 t1).1,
        emissions visit.1 t0 t1 visit.2 = emissions visit.1 t0 t1 (F.traceOf visit.1) := by
      intro visit member
      obtain ⟨chunk, inChunks, member⟩ := inBatch visit member
      exact emissions_visit_eq ordered contract seeking windowLe safe inChunks member
    have stream : ((w.forEachSignalWindowed sids batch t0 t1).1.flatMap fun visit =>
        emissions visit.1 t0 t1 visit.2) =
        ((w.forEachSignalWindowed sids batch t0 t1).1.map Prod.fst).flatMap fun sid =>
          emissions sid t0 t1 (F.traceOf sid) := by
      rw [List.flatMap_map]
      exact List.flatMap_congr same
    have merged := sortByKey_flatMap_perm (@emissions_key_sid F t0 t1 distinct F.traceOf)
      perm
    refine ⟨consistent.snapshotStreaming_eq ordered contract.pointExact t sids batch,
      consistent.snapshotPairStreaming_eq ordered contract.pointExact pairLe sids batch, ?_, ?_, ?_⟩
    · exact (events.trans ((congrArg _ stream).trans merged)).trans fullEvents.symm
    · refine (total.trans ?_).trans fullTotal.symm
      rw [stream]
      exact (perm.flatMap_right _).length_eq
    · exact truncated.trans fullTruncated.symm

/-- One signal with two changes at tick 5, on a seeking backend that answers in the first
shape. -/
def seekingMock : MockBackend where
  data := [(0, [⟨5, .bits "0"⟩, ⟨5, .bits "1"⟩])]
  windowed := true
  wlfSeedShape := false

theorem seekingMock_ordered : seekingMock.file.TracesOrdered := by
  apply seekingMock.file_ordered
  unfold SignalTrace.Ordered
  decide

/-- Over a window that starts at tick 5 the first of the two changes is lost. -/
theorem windowed_queries_glitch :
    seekingMock.file.DeclDistinct ∧ seekingMock.file.TracesOrdered ∧ seekingMock.file.Windowed ∧
    seekingMock.file.backend.supportsWindowed = true ∧
    ¬ QueriesAgree (Wave.fresh seekingMock.file) (Wave.fresh seekingMock.file.nonSeeking)
      (stdHeap _) (stdHeap _) none 1 5 5 9 5 (some 9) := by
  refine ⟨seekingMock.file_distinct, seekingMock_ordered, seekingMock.windowed_file, rfl,
    fun agree => ?_⟩
  have total := agree.total.trans (collect_full (F := seekingMock.file.nonSeeking)
    seekingMock_ordered rfl (Wave.consistent_fresh _) (stdHeap _) none 1 5 (some 9)).2.1
  revert total
  decide +kernel

theorem windowed_queries_agree_iff_glitch :
    QueriesAgree (Wave.fresh seekingMock.file) (Wave.fresh seekingMock.file.nonSeeking)
      (stdHeap _) (stdHeap _) none 1 5 5 9 5 (some 9) ↔
      seekingMock.file.SeedSafe 1 5 (some 9) none :=
  windowed_queries_agree_iff seekingMock.file_distinct seekingMock_ordered seekingMock.windowed_file rfl
    (Wave.consistent_fresh _) (Wave.consistent_fresh _) (stdHeap _) (stdHeap _) none 1 5 (by decide)
    (by simp)

end RWave.Model
