import RWave.Backend.Fsdb
import RWave.Backend.FstWindow
import RWave.Backend.Wlf
import RWave.Model.Snapshot

/-!
# The windows of FSDB, FST and WLF

Each of them decodes a window in its own way, and none keeps to the window that the trait documents:
the seed of FSDB and of FST may be a redundant emission, the one of WLF is tagged one tick early, and
a signal that FST cannot decode in a window comes with its complete trace. All of them have the values
of the complete trace at every instant of the window (`Decoded.pointExact`), so point queries do not
tell them from a backend that decodes everything (`decoded_queries_agree`).
-/

namespace RWave.Model

open RWave.Backend

/-- `i64::MAX`, which the host passes for the end of a window without one. -/
def i64Max : Int := 2 ^ 63 - 1

/-- The complete trace of a handle and the answer to the window `[from, to]` for it. -/
inductive Decoded (frm : Int) (upto : Option Int) : SignalTrace → SignalTrace → Prop
  /-- The default of the trait, and where FST falls back to the full decode. -/
  | complete (whole : SignalTrace) : Decoded frm upto whole whole
  | fsdb (kind : ValueKind) {changes : SignalTrace} (ordered : changes.Ordered)
      (fits : ∀ c ∈ changes, c.tick ≤ i64Max) :
      Decoded frm upto (Fsdb.loadTrace kind changes)
        (Fsdb.loadTraceWindowed kind changes frm (upto.getD i64Max))
  | fst (kind : FstWindow.WinKind) {fileEnd sectionStart : Int}
      {raw delivered1 delivered2 : SignalTrace} (ordered : raw.Ordered)
      (recorded : ∀ c ∈ raw, 0 ≤ c.tick ∧ c.tick ≤ fileEnd)
      (delivers : FstWindow.Delivers raw sectionStart (FstWindow.seekPoint frm fileEnd)
        (FstWindow.phase1End frm fileEnd upto) delivered1 delivered2) :
      Decoded frm upto (FstWindow.fullDecode kind raw)
        (FstWindow.assemble kind frm upto none delivered1 delivered2)
  | wlf (kind : ValueKind) {h : Wlf.History} {fileEnd : Int} (nonneg : 0 ≤ fileEnd)
      (fits : fileEnd ≤ i64Max) {fullCallbacks winCallbacks : List Wlf.Callback}
      (fullScans : Wlf.Scans h 0 fileEnd fullCallbacks)
      (winScans : Wlf.Scans h (Wlf.clampWindow frm (upto.getD i64Max) fileEnd).1
        (Wlf.clampWindow frm (upto.getD i64Max) fileEnd).2 winCallbacks) :
      Decoded frm upto (Wlf.loadTrace kind fullCallbacks)
        (Wlf.loadTraceWindowed kind frm (upto.getD i64Max) fileEnd winCallbacks)

/-- However a window is decoded, it answers point queries. -/
theorem Decoded.pointExact {frm : Int} {upto : Option Int} {whole answer : SignalTrace}
    (decoded : Decoded frm upto whole answer) (le : ∀ b ∈ upto, frm ≤ b)
    (inOrder : whole.Ordered) : PointExact whole answer frm upto := by
  cases decoded with
  | complete => exact .refl inOrder frm upto
  | fsdb kind ordered fits =>
    exact .reduce (keepsValues_foldStream kind) ordered
      (Fsdb.streamSignalWindowed_pointExact ordered fits frm le)
  | fst kind ordered recorded delivers =>
    rw [FstWindow.assemble_eq_fullDecode kind ordered recorded delivers]
    exact .reduce (FstWindow.keepsValues_fullDecode kind) ordered
      (WindowShape.seedAtTick.pointExact ordered frm upto)
  | wlf kind nonneg fits fullScans winScans =>
    exact .reduce (keepsValues_foldStream kind) (Wlf.runScan_ordered le_rfl nonneg fullScans).1
      (Wlf.runScan_pointExact nonneg fits fullScans winScans)

variable {F : File}

/-- A file whose windows FSDB, FST or WLF decode. -/
def File.Decoded (F : File) : Prop :=
  F.Answers fun whole tr frm upto => Model.Decoded frm upto whole tr

theorem File.Decoded.pointExact (decoded : F.Decoded) : F.PointExact :=
  File.Answers.imp decoded fun le decoded => decoded.pointExact le

/-- Point queries over the windows of FSDB, FST and WLF answer as over the complete traces. -/
theorem decoded_queries_agree (ordered : F.TracesOrdered) (decoded : F.Decoded) {w : Wave F}
    (consistent : w.Consistent) (sids : Option (List F.Sid)) (batch : Nat) :
    (∀ t, (w.snapshotStreaming t sids batch).1 =
      (w.ensureLoaded (F.selected sids)).snapshot t sids) ∧
    ∀ ta tb, ta ≤ tb → (w.snapshotPairStreaming ta tb sids batch).1 =
      ((w.ensureLoaded (F.selected sids)).snapshot ta sids,
        (w.ensureLoaded (F.selected sids)).snapshot tb sids) := by
  refine ⟨fun t => ?_, fun ta tb le => ?_⟩
  · exact consistent.snapshotStreaming_eq ordered decoded.pointExact t sids batch
  · rw [consistent.snapshotPairStreaming_eq ordered decoded.pointExact le, Wave.snapshotPair_eq]

/-- One signal of an FSDB file, with a redundant emission at tick 10. -/
def fsdbFile : File where
  backend :=
    { (MockBackend.mk [] true false).backend with
      loadTrace := fun _ => Fsdb.loadTrace .bits Fsdb.redundantChanges
      loadTracesWindowed := fun handles frm upto => handles.map fun _ =>
        Fsdb.loadTraceWindowed .bits Fsdb.redundantChanges frm (upto.getD i64Max) }
  signals := (MockBackend.mk [(0, [])] true false).signals
  rawVarCount := 1
  typeCounts := [("wire", 1)]

/-- The window at tick 10 has its seed there, where the complete trace has no change; both show the
value of tick 2. -/
theorem fsdbFile_queries_agree :
    ((Wave.fresh fsdbFile).snapshotPairStreaming 5 10 none 1).1 =
      (((Wave.fresh fsdbFile).ensureLoaded fsdbFile.allSids).snapshot 5 none,
        ((Wave.fresh fsdbFile).ensureLoaded fsdbFile.allSids).snapshot 10 none) := by
  have ordered : fsdbFile.TracesOrdered := by
    unfold File.TracesOrdered SignalTrace.Ordered
    decide
  have fits : ∀ c ∈ Fsdb.redundantChanges, c.tick ≤ i64Max := by decide
  have decoded : fsdbFile.Decoded := by
    intro _ handles frm upto _
    refine List.forall₂_map_right_iff.mpr (List.forall₂_same.mpr fun _ _ => ?_)
    exact .fsdb .bits Fsdb.redundantChanges_ordered fits
  exact (decoded_queries_agree ordered decoded (Wave.consistent_fresh _) none 1).2 5 10 (by decide)

end RWave.Model
