import RWave.Commands.Compute

/-!
# Commands do not see what is resident

Every command keeps the cache consistent, however it ends, and answers alike on every consistent
cache: on a fresh one, on the one an earlier command left, on one that is full. The cache operations
are isolated one by one. A query of resident traces is not, but it follows the loading of the signals
it reads, and then the cache holds their complete traces (`Loaded`).
-/

namespace RWave.Commands

open RWave.Backend RWave.Model RWave.Misc RWave.Format RWave.Filter RWave.Select RWave.Cli

variable {F : File}

/-- A command answers alike on all consistent caches and leaves a consistent one. -/
abbrev IsolatedCmd {α : Type} (m : Cmd F α) : Prop := Isolated Wave.Consistent m

/-- A consistent cache with the traces of `sids`. -/
def Loaded (sids : List F.Sid) (w : Wave F) : Prop :=
  w.Consistent ∧ ∀ sid ∈ sids, w.traces sid = some (F.traceOf sid)

/-! ## Streaming queries -/

/-- A step whose answer the file determines and which restores a consistent cache. -/
theorem isolated_restores {α : Type} {f : Wave F → α × Wave F}
    (restores : ∀ w : Wave F, w.Consistent → f w = ((f (Wave.fresh F)).1, w)) :
    IsolatedCmd (Prog.steps f) := by
  refine Agrees.steps ?_ ?_
  · intro w v consistent consistent'
    rw [restores w consistent, restores v consistent']
  · intro w consistent
    rw [restores w consistent]
    exact consistent

theorem isolated_forEachSignalBatched (sids : Option (List F.Sid)) (batch : Nat) :
    IsolatedCmd (forEachSignalBatched sids batch) := by
  apply isolated_restores
  intro w consistent
  rw [consistent.forEachSignalBatched, (Wave.consistent_fresh F).forEachSignalBatched]

theorem isolated_collectEventsBounded (env : Env F) (t0 : Int) (t1 : Option Int)
    (sids : Option (List F.Sid)) (limit batch : Nat) :
    IsolatedCmd (collectEventsBounded env t0 t1 sids limit batch) := by
  apply isolated_restores
  intro w consistent
  rw [Wave.collectEventsBounded, consistent.forEachSignalWindowed]
  rfl

theorem isolated_snapshotStreaming (t : Int) (sids : Option (List F.Sid)) (batch : Nat) :
    IsolatedCmd (snapshotStreaming t sids batch) := by
  apply isolated_restores
  intro w consistent
  rw [Wave.snapshotStreaming, consistent.forEachSignalWindowed]
  rfl

theorem isolated_snapshotPairStreaming (ta tb : Int) (sids : Option (List F.Sid)) (batch : Nat) :
    IsolatedCmd (snapshotPairStreaming ta tb sids batch) := by
  apply isolated_restores
  intro w consistent
  have answers : ∀ frm upto, (w.forEachSignalWindowed sids batch frm upto).1 =
      ((Wave.fresh F).forEachSignalWindowed sids batch frm upto).1 := by
    intro frm upto
    rw [consistent.forEachSignalWindowed]
  have restored : ∀ {v : Wave F} (_ : v.Consistent) frm upto,
      (v.forEachSignalWindowed sids batch frm upto).2 = v := by
    intro v consistent frm upto
    rw [consistent.forEachSignalWindowed]
  unfold Wave.snapshotPairStreaming
  split
  · simp only [restored consistent, restored (Wave.consistent_fresh F), answers]
  · simp only [restored consistent, answers]

/-! ## Loading, then reading -/

theorem agrees_ensureLoaded (sids : List F.Sid) :
    Agrees Wave.Consistent (ensureLoaded sids) (fun _ => Loaded sids) Wave.Consistent :=
  Agrees.steps (fun _ _ _ _ => rfl) fun _ consistent =>
    ⟨consistent.ensureLoaded sids, fun _ member => consistent.ensureLoaded_mem member⟩

/-- A query that reads the traces of the loaded signals only. -/
theorem agrees_reads {α : Type} {sids : List F.Sid} {f : Wave F → α}
    (congr : ∀ w v : Wave F, (∀ sid ∈ sids, w.traces sid = v.traces sid) → f w = f v) :
    Agrees (Loaded sids) (Prog.reads f : Cmd F α) (fun _ => Wave.Consistent) Wave.Consistent := by
  refine Agrees.reads ?_ fun w loaded => loaded.1
  intro w v loaded loaded'
  exact congr w v fun sid member => (loaded.2 sid member).trans (loaded'.2 sid member).symm

theorem resident_congr {w v : Wave F} {sids : Option (List F.Sid)}
    (agree : ∀ sid ∈ F.selected sids, w.traces sid = v.traces sid) :
    w.resident sids = v.resident sids :=
  List.filterMap_congr fun sid member => by rw [agree sid member]

/-- Loading a selection and then querying it. -/
theorem isolated_load {α : Type} (sids : List F.Sid) {m : Cmd F α}
    (query : Agrees (Loaded sids) m (fun _ => Wave.Consistent) Wave.Consistent) :
    IsolatedCmd (do ensureLoaded sids; m) :=
  Agrees.bind (agrees_ensureLoaded sids) fun _ => query

/-! ## The commands -/

theorem isolated_undumpedCount (sids : List F.Sid) : IsolatedCmd (undumpedCount sids) := by
  refine Isolated.ite (fun _ => Isolated.pure _) fun _ => ?_
  exact (isolated_forEachSignalBatched _ _).bindPure

theorem isolated_emptyWindowReason (env : Env F) (selected : List F.Sid) (selective : Bool)
    (t0 : Int) : IsolatedCmd (emptyWindowReason env selected selective t0) := by
  refine Isolated.ite (fun _ => Isolated.pure _) fun _ => ?_
  cases pastTheEnd env t0 with
  | some reason => exact Isolated.pure _
  | none => exact (isolated_undumpedCount selected).bindPure

/-! ### `dump` -/

theorem isolated_dumpRows (env : Env F) (t0 : Int) (t1 : Option Int) (sel : Option (List F.Sid))
    (limit : Nat) : IsolatedCmd (dumpRows env t0 t1 sel (selectedSids sel) limit) := by
  refine Isolated.ite (fun _ => ?_) fun _ => ?_
  · exact (isolated_collectEventsBounded env t0 t1 sel limit _).bindPure
  · apply isolated_load
    refine Agrees.bind (agrees_reads ?_) fun _ => Isolated.pure _
    intro w v agree
    exact Wave.forEachEvent_congr _ t0 t1 fun sid member =>
      agree sid (mem_selectedSids.mpr member)

theorem isolated_dumpCollect (env : Env F) (args : Args) : IsolatedCmd (dumpCollect env args) := by
  apply Isolated.bind (Isolated.lift _)
  rintro ⟨t0, t1⟩
  apply Isolated.bind (Isolated.lift _)
  intro selection
  apply Isolated.bind (isolated_dumpRows env t0 t1 _ _)
  intro rows
  exact Isolated.pure _

theorem isolated_dumpReason (env : Env F) (d : DumpData F) : IsolatedCmd (dumpReason env d) := by
  refine Isolated.ite (fun _ => ?_) fun _ => Isolated.pure _
  exact (isolated_emptyWindowReason env _ _ _).bindPure

theorem isolated_computeDump (env : Env F) (args : Args) : IsolatedCmd (computeDump env args) := by
  apply Isolated.bind (isolated_dumpCollect env args)
  intro d
  exact (isolated_dumpReason env d).bindPure

theorem isolated_textDump (env : Env F) (args : Args) : IsolatedCmd (textDump env args) := by
  apply Isolated.bind (isolated_dumpCollect env args)
  intro d
  apply Isolated.bind (isolated_dumpReason env d)
  intro reason
  cases reason with
  | none => exact Isolated.pure _
  | some reason => exact Isolated.pure _

/-! ### `summary` -/

theorem isolated_summaryRows (env : Env F) (t0 : Int) (t1 : Option Int) (selected : List F.Sid) :
    IsolatedCmd (summaryRows env t0 t1 selected) :=
  (isolated_forEachSignalBatched _ _).bindPure

theorem isolated_summaryData (env : Env F) (args : Args) :
    IsolatedCmd (summaryData env args) := by
  apply Isolated.bind (Isolated.lift _)
  rintro ⟨t0, t1⟩
  apply Isolated.bind (Isolated.lift _)
  intro selection
  exact (isolated_summaryRows env t0 t1 _).bindPure

theorem isolated_staleWindowNote (env : Env F) (d : SummaryData F) :
    IsolatedCmd (staleWindowNote env d) := by
  refine Isolated.ite (fun _ => Isolated.pure _) fun _ => ?_
  refine Isolated.ite (fun _ => Isolated.pure _) fun _ => ?_
  cases pastTheEnd env d.t0 with
  | some reason => exact Isolated.pure _
  | none =>
    refine Isolated.ite (fun _ => Isolated.pure _) fun _ => ?_
    exact (isolated_emptyWindowReason env _ _ _).bindPure

theorem isolated_computeSummary (env : Env F) (args : Args) :
    IsolatedCmd (computeSummary env args) := by
  apply Isolated.bind (isolated_summaryData env args)
  intro d
  exact (isolated_staleWindowNote env d).bindPure

theorem isolated_textSummary (env : Env F) (args : Args) :
    IsolatedCmd (textSummary env args) := by
  apply Isolated.bind (isolated_summaryData env args)
  intro d
  exact (isolated_staleWindowNote env d).bindPure

/-! ### `snapshot` and `compare` -/

theorem isolated_loadSnapshot (t : Int) (sids : List F.Sid) :
    IsolatedCmd (do ensureLoaded sids; snapshot t (some sids)) := by
  refine isolated_load _ (agrees_reads ?_)
  intro w v agree
  rw [Wave.snapshot, Wave.snapshot, resident_congr agree]

theorem isolated_snapshotState (t : Int) (selected : List F.Sid) :
    IsolatedCmd (snapshotState t selected) :=
  Isolated.ite (fun _ => isolated_snapshotStreaming t _ _) fun _ => isolated_loadSnapshot t selected

theorem isolated_snapshotData (env : Env F) (args : Args) :
    IsolatedCmd (snapshotData env args) := by
  apply Isolated.bind (Isolated.lift _)
  intro atRaw
  apply Isolated.bind (Isolated.lift _)
  intro tAt
  apply Isolated.bind (Isolated.lift _)
  intro selection
  exact (isolated_snapshotState tAt _).bindPure

theorem isolated_compareStates (ta tb : Int) (sel : Option (List F.Sid)) :
    IsolatedCmd (compareStates ta tb sel (selectedSids sel)) := by
  refine Isolated.ite (fun _ => isolated_snapshotPairStreaming ta tb sel _) fun _ => ?_
  refine isolated_load _ (agrees_reads ?_)
  intro w v agree
  rw [Wave.snapshotPair, Wave.snapshotPair,
    resident_congr fun sid member => agree sid (mem_selectedSids.mpr member)]

theorem isolated_compareData (env : Env F) (args : Args) :
    IsolatedCmd (compareData env args) := by
  apply Isolated.bind (Isolated.lift _)
  intro selection
  apply Isolated.bind (Isolated.lift _)
  rintro ⟨ta, tb⟩
  exact (isolated_compareStates ta tb _).bindPure

/-! ### `search` -/

theorem searchStream_congr (host : Host) {w v : Wave F} (H : BinaryHeap (HeapEntry.key (F := F)))
    (s : SearchSetup F) (agree : ∀ sid ∈ s.selRef, w.traces sid = v.traces sid) :
    searchStream host w H s = searchStream host v H s := by
  have replay : w.forEachEvent H 0 (some s.t1) (some s.selRef) =
      v.forEachEvent H 0 (some s.t1) (some s.selRef) := Wave.forEachEvent_congr H 0 _ agree
  rw [searchStream, searchStream, replay]

/-- The setup leaves the signals of the search loaded. -/
theorem isolated_search {α : Type} (env : Env F) (args : Args) {f : SearchSetup F → Wave F → α}
    (congr : ∀ s, ∀ w v : Wave F, (∀ sid ∈ s.selRef, w.traces sid = v.traces sid) → f s w = f s v) :
    IsolatedCmd (do let s ← searchSetup env args; Prog.reads (f s)) := by
  have setup : Agrees Wave.Consistent (searchSetup env args) (fun s => Loaded s.selRef)
      Wave.Consistent := by
    apply Agrees.bind (Isolated.lift _)
    intro s
    apply Agrees.bind (agrees_ensureLoaded s.selRef)
    intro _
    exact Agrees.pure s (fun _ loaded => loaded) fun _ loaded => loaded.1
  exact Agrees.bind setup fun s => agrees_reads (congr s)

theorem isolated_computeSearch (env : Env F) (args : Args) :
    IsolatedCmd (computeSearch env args) := by
  apply isolated_search env args
  intro s w v agree
  unfold searchCollect searchEventCollect searchIntervalCollect
  rw [searchStream_congr env.host env.mergeHeap s agree]

theorem isolated_textSearch (env : Env F) (args : Args) : IsolatedCmd (textSearch env args) := by
  apply isolated_search env args
  intro s w v agree
  unfold searchLines searchEventCollect searchIntervalCollect
  rw [searchStream_congr env.host env.mergeHeap s agree]

/-! ### `trace` -/

theorem isolated_endpointValues (env : Env F) (t : Int) (hops : List Hop) :
    IsolatedCmd (endpointValues env t hops) := by
  refine Isolated.bind ?_ fun _ => Isolated.pure _
  exact Isolated.ite (fun _ => isolated_snapshotStreaming t _ _) fun _ => isolated_loadSnapshot t _

theorem isolated_atValues (env : Env F) (atTicks : Option Int) (hops : List Hop) :
    IsolatedCmd (atValues env atTicks hops) := by
  cases atTicks with
  | none => exact Isolated.pure _
  | some t => exact isolated_endpointValues env t hops

theorem isolated_traceData (env : Env F) (args : Args) : IsolatedCmd (traceData env args) := by
  apply Isolated.bind (Isolated.lift _)
  rintro ⟨target, atTicks⟩
  apply Isolated.bind (Isolated.lift _)
  rintro ⟨path, kdb, outcome⟩
  exact (isolated_atValues env atTicks _).bindPure

/-! ### All of them -/

theorem isolated_computeBody (env : Env F) (args : Args) : IsolatedCmd (computeBody env args) := by
  unfold computeBody
  cases args.command with
  | info => exact Isolated.pure _
  | list => exact (Isolated.lift _).bindPure
  | dump => exact isolated_computeDump env args
  | summary => exact isolated_computeSummary env args
  | snapshot => exact (isolated_snapshotData env args).bindPure
  | compare => exact (isolated_compareData env args).bindPure
  | search => exact isolated_computeSearch env args
  | tree => exact (Isolated.lift _).bindPure
  | trace => exact (isolated_traceData env args).bindPure

/-- `compute` is isolated, whatever the command and its arguments. -/
theorem isolated_compute (env : Env F) (args : Args) : IsolatedCmd (compute env args) :=
  (isolated_computeBody env args).bindPure

/-- `render_text` is isolated, whatever the command and its arguments. -/
theorem isolated_renderText (env : Env F) (args : Args) : IsolatedCmd (renderText env args) := by
  unfold renderText
  cases args.command with
  | info => exact Isolated.pure _
  | list => exact (Isolated.lift _).bindPure
  | dump => exact isolated_textDump env args
  | summary => exact isolated_textSummary env args
  | snapshot => exact (isolated_snapshotData env args).bindPure
  | compare => exact (isolated_compareData env args).bindPure
  | search => exact isolated_textSearch env args
  | tree =>
    apply Isolated.bind (Isolated.lift _)
    intro d
    exact Isolated.ite (fun _ => Isolated.pure _) fun _ => Isolated.pure _
  | trace =>
    apply Isolated.bind (isolated_traceData env args)
    intro d
    exact Isolated.ite (fun _ => Isolated.pure _) fun _ => Isolated.pure _

/-- A command of a single invocation is isolated. -/
theorem isolated_run (env : Env F) (args : Args) : IsolatedCmd (run env args) := by
  refine Isolated.ite (fun _ => ?_) fun _ => ?_
  · exact (isolated_compute env args).bindPure
  · exact (isolated_renderText env args).bindPure

end RWave.Commands
