import RWave.Commands.Compare
import RWave.Commands.SummaryRows
import RWave.Condition.RoundTrip

/-!
# What `compare` shows

`compare` decides by the recorded texts whether a signal differs, and shows the displayed ones. The
two agree for the values of one kind but for bit strings: two of them may stand for one vector, and
every bit string of an event is displayed as the same word.
-/

namespace RWave.Commands

open RWave.Backend RWave.Model RWave.Misc RWave.Format RWave.Select RWave.Cli RWave.Condition

/-- What is displayed of a value; none without a value. -/
def displayed (host : Host) (info : SignalInfo) (v : Option RawValue) : Option String :=
  v.map fun v => fmtValue host v info.kind info.width

/-! ## Two values -/

/-- Two values with different recorded texts are displayed differently, and only those. -/
def Tells (host : Host) (info : SignalInfo) : RawValue → RawValue → Prop
  | .bits u, .bits v =>
    match info.kind with
    | .bits =>
      u = v ∨ Bits.fit (max info.width 1) (readBits u) ≠ Bits.fit (max info.width 1) (readBits v)
    | .event => u = v
    | .real | .str => True
  | .real _, .real _ | .str _, .str _ | .event, .event => True
  -- A signal keeps one kind of values, so the rest is there for completeness.
  | a, b => a.rawStr host = b.rawStr host ↔
      fmtValue host a info.kind info.width = fmtValue host b info.kind info.width

/-- A value that is displayed as an undefined one. -/
def ReadsUndef (host : Host) (info : SignalInfo) : RawValue → Prop
  | .bits b => (info.kind = .real ∨ info.kind = .str) ∧ b = "(undef)"
  | .real r => host.display r = "(undef)"
  | .str s => s = "(undef)"
  | .event => False

/-- The comparison of two states of a signal says what is seen of them. -/
def Visible (host : Host) (info : SignalInfo) : Option RawValue → Option RawValue → Prop
  | some a, some b => Tells host info a b
  | some a, none | none, some a => ¬ ReadsUndef host info a
  | none, none => True

theorem tells_iff {host : Host} {info : SignalInfo} {a b : RawValue} :
    Tells host info a b ↔ (a.rawStr host = b.rawStr host ↔
      fmtValue host a info.kind info.width = fmtValue host b info.kind info.width) := by
  have vector (u v : String) : fmtBits u info.width = fmtBits v info.width ↔
      Bits.fit (max info.width 1) (readBits u) = Bits.fit (max info.width 1) (readBits v) := by
    rw [fmtBits_max u, fmtBits_max v, fmtBits_inj (le_max_right _ _)]
  cases a with
  | bits u =>
    cases b with
    | bits v =>
      cases kind : info.kind with
      | bits =>
        simp only [Tells, kind, RawValue.rawStr, fmtValue, fmtVal, vector]
        by_cases same : u = v
        · simp [same]
        · simp [same]
      | real | str | event => simp [Tells, kind, RawValue.rawStr, fmtValue, fmtVal]
    | real | str | event => exact Iff.rfl
  | real r =>
    cases b with
    | real => simp [Tells, RawValue.rawStr, fmtValue, fmtVal]
    | bits | str | event => exact Iff.rfl
  | str s =>
    cases b with
    | str => simp [Tells, RawValue.rawStr, fmtValue, fmtVal]
    | bits | real | event => exact Iff.rfl
  | event =>
    cases b with
    | event => simp [Tells, RawValue.rawStr, fmtValue]
    | bits | real | str => exact Iff.rfl

theorem readsUndef_iff {host : Host} {info : SignalInfo} {v : RawValue} :
    fmtValue host v info.kind info.width = "(undef)" ↔ ReadsUndef host info v := by
  cases v with
  | bits b =>
    cases kind : info.kind with
    | bits =>
      have other : fmtBits b info.width ≠ "(undef)" := by
        intro undef
        rw [fmtBits_max] at undef
        rcases fmtBits_cases b (le_max_right info.width 1) with ⟨-, text⟩ | ⟨-, -, text⟩ |
          ⟨-, -, ds, text, -⟩
        · rw [text] at undef
          simp [← String.toList_inj] at undef
        · rw [text] at undef
          have member : '(' ∈ (render (Bits.fit (max info.width 1) (readBits b))).toList := by
            simp [undef]
          obtain ⟨bit, -, char⟩ := List.mem_map.mp (toList_render _ ▸ member)
          cases bit <;> exact absurd char (by decide)
        · rw [text] at undef
          simp [← String.toList_inj] at undef
      simpa [ReadsUndef, kind, fmtValue, fmtVal, RawValue.rawStr] using other
    | real | str => simp [ReadsUndef, kind, fmtValue, fmtVal, RawValue.rawStr]
    | event => simp [ReadsUndef, kind, fmtValue, fmtVal]
  | real r => simp [ReadsUndef, fmtValue, fmtVal, RawValue.rawStr]
  | str s => simp [ReadsUndef, fmtValue, fmtVal, RawValue.rawStr]
  | event => simp [ReadsUndef, fmtValue]

/-! ## The rows -/

variable {F : File}

/-- The rows are those of the signals whose two values are displayed differently, and each shows two
different texts, exactly where every comparison says what is seen. -/
theorem visible_iff (host : Host) (info : SignalInfo) (a b : Option RawValue) :
    ((differs host a b = true ↔ displayed host info a ≠ displayed host info b) ∧
      (differs host a b = true →
        (displayed host info a).getD "(undef)" ≠ (displayed host info b).getD "(undef)")) ↔
    Visible host info a b := by
  cases a with
  | none =>
    cases b with
    | none => simp [differs, displayed, Visible]
    | some b => simp [differs, displayed, Visible, ← readsUndef_iff, eq_comm]
  | some a =>
    cases b with
    | none => simp [differs, displayed, Visible, ← readsUndef_iff]
    | some b =>
      simp only [differs, displayed, Visible, tells_iff, Option.map_some, Option.getD_some,
        bne_iff_ne, ne_eq, Option.some_inj, not_iff_not]
      exact and_iff_left_of_imp fun same => (not_congr same).mp

/-- The rows, by what they show. -/
theorem diffs_eq (host : Host) (sa sb : ValueMap F) (union : List F.Sid) :
    diffs host sa sb union = (union.filter fun sid => differs host (sa sid) (sb sid)).map fun sid =>
      { path := (F.signal sid).path
        atT1 := (displayed host (F.signal sid) (sa sid)).getD "(undef)"
        atT2 := (displayed host (F.signal sid) (sb sid)).getD "(undef)"
        width := (F.signal sid).width
        typeStr := (F.signal sid).typeStr } := by
  refine List.map_congr_left fun sid _ => ?_
  cases sa sid <;> cases sb sid <;> rfl

/-- The signals that differ between two states, among all that have a value in one of them. -/
theorem diffs_visible (host : Host) (sa sb : ValueMap F) {union : List F.Sid}
    (nodup : union.Nodup) (all : ∀ sid, sid ∈ union ↔ (sa sid).isSome ∨ (sb sid).isSome) :
    ∃ reported : List F.Sid, reported.Nodup ∧
      (diffs host sa sb union).map (fun df => (df.path, df.atT1, df.atT2)) =
        reported.map (fun sid => ((F.signal sid).path,
          (displayed host (F.signal sid) (sa sid)).getD "(undef)",
          (displayed host (F.signal sid) (sb sid)).getD "(undef)")) ∧
      (((∀ sid, sid ∈ reported ↔
            displayed host (F.signal sid) (sa sid) ≠ displayed host (F.signal sid) (sb sid)) ∧
          ∀ df ∈ diffs host sa sb union, df.atT1 ≠ df.atT2) ↔
        ∀ sid, Visible host (F.signal sid) (sa sid) (sb sid)) := by
  have reported (sid : F.Sid) : sid ∈ union.filter (fun sid => differs host (sa sid) (sb sid)) ↔
      differs host (sa sid) (sb sid) = true := by
    rw [List.mem_filter, all]
    refine and_iff_right_of_imp fun differ => ?_
    cases known : sa sid with
    | some a => exact .inl rfl
    | none =>
      cases known' : sb sid with
      | some b => exact .inr rfl
      | none => simp [differs, known, known'] at differ
  refine ⟨union.filter fun sid => differs host (sa sid) (sb sid), nodup.filter _, ?_, ?_⟩
  · simp only [diffs_eq, List.map_map, Function.comp_def]
  · simp only [diffs_eq, List.forall_mem_map, reported, ← forall_and]
    exact forall_congr' fun sid => visible_iff host (F.signal sid) (sa sid) (sb sid)

/-- `compare` and what is seen. Its rows are those of the signals that are displayed differently at
the two instants, with two different texts, exactly where every selected signal has values whose
comparison says what is seen; the rows and the unchanged signals are those with a value at one of
the instants. -/
theorem compare_visible {env : Env F} {args : Args} {w : Wave F} (consistent : w.Consistent)
    (ordered : F.TracesOrdered) (contract : F.PointExact) {selection : Selection}
    (chosen : selectionOf env.host args = .ok selection) {d : CompareData}
    (answer : (compareData env args).result w = .ok d) :
    let valueAt := valuesOf (matchSelection env.host F selection)
    let shown (t : Int) (sid : F.Sid) := displayed env.host (F.signal sid) (valueAt t sid)
    (∃ reported : List F.Sid, reported.Nodup ∧
      d.diffs.map (fun df => (df.path, df.atT1, df.atT2)) =
        reported.map (fun sid => ((F.signal sid).path, (shown d.ta sid).getD "(undef)",
          (shown d.tb sid).getD "(undef)")) ∧
      (((∀ sid, sid ∈ reported ↔ shown d.ta sid ≠ shown d.tb sid) ∧
          ∀ df ∈ d.diffs, df.atT1 ≠ df.atT2) ↔
        ∀ sid ∈ F.selected (matchSelection env.host F selection),
          Visible env.host (F.signal sid) (valueAt d.ta sid) (valueAt d.tb sid))) ∧
    d.diffs.length + (d.unionLen - d.diffs.length) =
      (F.allSids.filter fun sid => (valueAt d.ta sid).isSome || (valueAt d.tb sid).isSome).length := by
  rw [compareData] at answer
  obtain ⟨selection', chosen', answer⟩ := Prog.result_bind_eq_ok.mp answer
  obtain ⟨⟨ta, tb⟩, times, answer⟩ := Prog.result_bind_eq_ok.mp answer
  obtain ⟨⟨sa, sb⟩, states, answer⟩ := Prog.result_bind_eq_ok.mp answer
  obtain rfl : selection = selection' := Except.ok.inj (chosen.symm.trans chosen')
  have found := compareStates_result consistent ordered contract (compareTimes_le times)
    (matchSelection env.host F selection)
  obtain ⟨rfl, rfl⟩ := Prod.mk.inj (Except.ok.inj (states.symm.trans found))
  cases answer
  intro valueAt shown
  have perm := sortByKey_perm (fun sid : F.Sid => (F.signal sid).path)
    (F.allSids.filter fun sid => (valueAt ta sid).isSome || (valueAt tb sid).isSome)
  have nodup := perm.nodup_iff.mpr ((List.nodup_finRange _).filter _)
  refine ⟨?_, ?_⟩
  · obtain ⟨reported, distinct, rows, visible⟩ :=
      diffs_visible env.host (valueAt ta) (valueAt tb) nodup fun sid => by
        simp [File.allSids]
    refine ⟨reported, distinct, rows, visible.trans ?_⟩
    constructor
    · exact fun all sid _ => all sid
    · intro all sid
      by_cases selected : sid ∈ F.selected (matchSelection env.host F selection)
      · exact all sid selected
      · simp [valueAt, valuesOf, selected, Visible]
  · have fewer : (diffs env.host (valueAt ta) (valueAt tb) (sortByPath
        (F.allSids.filter fun sid => (valueAt ta sid).isSome || (valueAt tb sid).isSome))).length ≤
        (F.allSids.filter fun sid =>
          (valueAt ta sid).isSome || (valueAt tb sid).isSome).length := by
      rw [diffs_eq, List.length_map, ← perm.length_eq]
      exact List.length_filter_le _ _
    have whole : (sortByPath (F.allSids.filter fun sid =>
        (valueAt ta sid).isSome || (valueAt tb sid).isSome)).length = _ := perm.length_eq
    rw [whole]
    exact Nat.add_sub_cancel' fewer

/-! ## A strength that is not seen -/

/-- A net that is pulled up first and driven high later. -/
def pulledMock : MockBackend where
  data := [(0, [⟨0, .bits "h"⟩, ⟨5, .bits "1"⟩]), (1, [⟨0, .bits "0"⟩, ⟨3, .bits "1"⟩])]
  windowed := false
  wlfSeedShape := false

/-- `compare FILE --at 0,5`. -/
def compareArgs : Args :=
  { command := .compare, file := "pulled.vcd", json := false, limit := none, verbose := false
    beginAt := none, endAt := none, scope := none, depth := none, filter := none, exclude := none
    exact := false, at_ := some "0,5", condition := [], show_ := none, target := none, load := false
    control := false, kdb := none, top := none, of_ := none }

theorem pulled_diffs :
    ∃ d, (compareData (bareEnv pulledMock.file) compareArgs).result
        (Wave.fresh pulledMock.file) = .ok d ∧
      (d.ta, d.tb, d.diffs) =
        (0, 5, [⟨"top.s0", "1", "1", 1, "wire"⟩, ⟨"top.s1", "0", "1", 1, "wire"⟩]) := by
  have rows : ((compareData (bareEnv pulledMock.file) compareArgs).result
      (Wave.fresh pulledMock.file)).map (fun d => (d.ta, d.tb, d.diffs)) =
      .ok (0, 5, [⟨"top.s0", "1", "1", 1, "wire"⟩, ⟨"top.s1", "0", "1", 1, "wire"⟩]) := by
    decide
  cases answer : (compareData (bareEnv pulledMock.file) compareArgs).result
      (Wave.fresh pulledMock.file) with
  | error e =>
    rw [answer] at rows
    cases rows
  | ok d =>
    rw [answer] at rows
    exact ⟨d, rfl, Except.ok.inj rows⟩

theorem pulledMock_ordered : pulledMock.file.TracesOrdered := by
  apply pulledMock.file_ordered
  unfold SignalTrace.Ordered
  decide

/-- Both nets have a value at the two instants, and both are counted. -/
theorem compare_visible_pulled :
    ∃ d, (compareData (bareEnv pulledMock.file) compareArgs).result
        (Wave.fresh pulledMock.file) = .ok d ∧
      d.diffs.length + (d.unionLen - d.diffs.length) = 2 := by
  obtain ⟨d, answer, found⟩ := pulled_diffs
  refine ⟨d, answer, ?_⟩
  have everything : selectionOf MockBackend.host compareArgs =
      .ok { scope := none, depth := none, included := none, excluded := none } := by
    decide
  have counted := (compare_visible (Wave.consistent_fresh _) pulledMock_ordered
    pulledMock.windowed_file.pointExact everything answer).2
  simp only [Prod.mk.injEq] at found
  rw [counted, found.1, found.2.1]
  decide

/-- A row that shows the same value twice. -/
theorem compare_sameValue : ¬ ∀ (F : File) (env : Env F) (args : Args) (w : Wave F)
    (d : CompareData), w.Consistent → F.TracesOrdered → F.PointExact →
    (compareData env args).result w = .ok d → ∀ df ∈ d.diffs, df.atT1 ≠ df.atT2 := by
  intro all
  obtain ⟨d, answer, found⟩ := pulled_diffs
  simp only [Prod.mk.injEq] at found
  have apart := all _ _ _ _ d (Wave.consistent_fresh _) pulledMock_ordered
    pulledMock.windowed_file.pointExact answer
  rw [found.2.2] at apart
  exact apart _ List.mem_cons_self rfl

end RWave.Commands
