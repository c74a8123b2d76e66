import RWave.Backend.FoldChange

/-!
# Scans of the WLF plugin

`wlf/backend.rs` turns the callbacks of one libwlf scan into tagged emissions, which go through
`fold_change`. `Scans` is what libwlf is taken to deliver when it scans `[a, b]`: a time-advance
callback before the changes of a later tick, the carried value first (STARTLOG) for a signal that
was being logged before `a`, and possibly repeats at the end (ENDLOG).

What is emitted is the window `[a, b]` of the signal's history in the shape that tags the carried
value `a - 1` (`runScan_eq`), so a windowed scan and a full one show the same values and the same
changes over the requested window.
-/

namespace RWave.Backend.Wlf

open RWave.Backend

/-- `clamp_window`: a windowed request on the file's `[0, end]` axis. -/
def clampWindow (frm upto fileEnd : Int) : Int × Int :=
  let fileEnd := max fileEnd 0
  let frm := max 0 (min frm fileEnd)
  (frm, max (min upto fileEnd) frm)

/-- `seed_tag_for`: one before the window; 0 for a scan from 0. -/
def seedTagFor (frm : Int) : Int := if frm > 0 then frm - 1 else 0

/-! ## The callbacks -/

/-- `callback_reason`. -/
inductive CallbackReason where
  | event
  | startlog
  | endlog
  | dne
  deriving DecidableEq, Repr

/-- A callback of a scan, as one signal sees it: the shared time-advance callback, or the signal's
own with the value libwlf holds for it. -/
inductive Callback where
  | timeAdvance (newTime newDelta : Int)
  | signalEvent (reason : CallbackReason) (value : RawValue)
  deriving DecidableEq, Repr

structure SharedScanCtx where
  curTime : Int
  curDelta : Int
  seedTag : Int
  haveTime : Bool
  deriving DecidableEq, Repr

def timeAdvanceCb (shared : SharedScanCtx) (newTime newDelta : Int) : SharedScanCtx :=
  { shared with curTime := newTime, curDelta := newDelta, haveTime := true }

/-- `signal_event_cb`: what it emits. -/
def signalEventCb (shared : SharedScanCtx) (reason : CallbackReason) (value : RawValue) :
    Option Change :=
  match reason with
  | .event => some ⟨shared.curTime, value⟩
  | .startlog => some ⟨if shared.haveTime then shared.curTime else shared.seedTag, value⟩
  | _ => none

/-- The emissions of a scan from a given state on. -/
def scanFrom (shared : SharedScanCtx) : List Callback → SignalTrace
  | [] => []
  | .timeAdvance t d :: rest => scanFrom (timeAdvanceCb shared t d) rest
  | .signalEvent reason value :: rest =>
    (signalEventCb shared reason value).toList ++ scanFrom shared rest

/-- `run_scan`: the emissions for one signal. -/
def runScan (frm : Int) (callbacks : List Callback) : SignalTrace :=
  scanFrom { curTime := frm, curDelta := 0, seedTag := seedTagFor frm, haveTime := false } callbacks

/-- `load_traces`: the scan of `[0, end]`, folded. -/
def loadTrace (kind : ValueKind) (callbacks : List Callback) : SignalTrace :=
  foldStream kind (runScan 0 callbacks)

/-- `load_traces_windowed`: the scan of the clamped window, folded. -/
def loadTraceWindowed (kind : ValueKind) (frm upto fileEnd : Int) (callbacks : List Callback) :
    SignalTrace :=
  foldStream kind (runScan (clampWindow frm upto fileEnd).1 callbacks)

/-! ## What libwlf delivers -/

/-- A signal's history: the tick its logging starts at, its value there, and its changes. -/
structure History where
  logStart : Int
  initial : RawValue
  changes : SignalTrace
  ordered : changes.Ordered
  logged : ∀ c ∈ changes, logStart ≤ c.tick
  nonneg : 0 ≤ logStart

/-- The history as one trace. -/
def History.stream (h : History) : SignalTrace := ⟨h.logStart, h.initial⟩ :: h.changes

/-- The signal's callbacks, each with the time of the last time-advance callback before it. -/
def stamped (now : Option Int) : List Callback → List (Option Int × CallbackReason × RawValue)
  | [] => []
  | .timeAdvance t _ :: rest => stamped (some t) rest
  | .signalEvent reason value :: rest => (now, reason, value) :: stamped now rest

/-- The STARTLOG of a scan of `[a, b]`: before any time-advance, with the value entering `a` (the
state of tick 0 for a scan from 0), when logging started before; at its true tick when logging
starts inside the scan; none when it starts after. -/
inductive StartsLog (h : History) (a b : Int) :
    List (Option Int × CallbackReason × RawValue) → Prop
  | carried (v : RawValue) : h.logStart < a → h.stream.valueAt (a - 1) = some v →
      StartsLog h a b [(none, .startlog, v)]
  | atZero (v : RawValue) : a = 0 → h.logStart = 0 → v = h.initial ∨ h.stream.valueAt 0 = some v →
      StartsLog h a b [(none, .startlog, v)]
  | inside : a < h.logStart → h.logStart ≤ b →
      StartsLog h a b [(some h.logStart, .startlog, h.initial)]
  | after : a < h.logStart → b < h.logStart → StartsLog h a b []

/-- An EVENT for a change: after the time-advance to its tick, or before any at the start of the
scan. -/
def Announces (a : Int) (c : Change) (callback : Option Int × CallbackReason × RawValue) : Prop :=
  callback.2.1 = .event ∧ callback.2.2 = c.value ∧
    (callback.1 = some c.tick ∨ callback.1 = none ∧ c.tick = a)

/-- libwlf's scan of `[a, b]`, ENDLOG repeats aside: the STARTLOG, then an EVENT for each change
in time order. -/
def Scans (h : History) (a b : Int) (callbacks : List Callback) : Prop :=
  ∃ start events, (stamped none callbacks).filter (fun c => c.2.1 ≠ .endlog) = start ++ events ∧
    StartsLog h a b start ∧ List.Forall₂ (Announces a) (h.changes.within a (some b)) events

/-! ## What is emitted -/

/-- The emission for a stamped callback of a scan from `frm`. -/
def emission (frm : Int) (callback : Option Int × CallbackReason × RawValue) : Option Change :=
  match callback.2.1 with
  | .event => some ⟨callback.1.getD frm, callback.2.2⟩
  | .startlog => some ⟨callback.1.getD (seedTagFor frm), callback.2.2⟩
  | _ => none

theorem scanFrom_eq (frm : Int) (callbacks : List Callback) (now : Option Int) (delta : Int) :
    scanFrom ⟨now.getD frm, delta, seedTagFor frm, now.isSome⟩ callbacks =
      (stamped now callbacks).filterMap (emission frm) := by
  induction callbacks generalizing now delta with
  | nil => rfl
  | cons callback rest ih =>
    cases callback with
    | timeAdvance t d => exact ih (some t) d
    | signalEvent reason value =>
      rw [scanFrom, ih, stamped]
      cases reason <;> cases now <;> rfl

/-- ENDLOG repeats emit nothing. -/
theorem runScan_filter (frm : Int) (callbacks : List Callback) :
    runScan frm callbacks =
      ((stamped none callbacks).filter fun c => c.2.1 ≠ .endlog).filterMap (emission frm) := by
  refine (scanFrom_eq frm callbacks none 0).trans ?_
  rw [List.filterMap_filter]
  refine List.filterMap_congr ?_
  intro c _
  cases reason : c.2.1 <;> simp [emission, reason]

theorem events_emission {a : Int} {changes : SignalTrace}
    {events : List (Option Int × CallbackReason × RawValue)}
    (announced : List.Forall₂ (Announces a) changes events) :
    events.filterMap (emission a) = changes := by
  induction announced with
  | nil => rfl
  | cons head _ ih =>
    obtain ⟨reason, value, stamp⟩ := head
    rw [List.filterMap_cons, ih, emission, reason, value]
    rcases stamp with stamp | ⟨stamp, tick⟩
    · simp [stamp]
    · simp [stamp, ← tick]

theorem lastBefore_cons (c : Change) (tr : SignalTrace) (t : Int) :
    SignalTrace.lastBefore (c :: tr) t =
      (tr.lastBefore t).or (if c.tick ≤ t then some c else none) := by
  rw [SignalTrace.lastBefore, SignalTrace.lastBefore, List.filter_cons]
  by_cases early : c.tick ≤ t
  · simp only [early, decide_true, if_true, List.getLast?_cons]
    cases (tr.filter fun d => decide (d.tick ≤ t)).getLast? <;> rfl
  · simp [early]

/-- The value a scan reads at the start of the logging: the initial value, or the state of tick 0
when logging starts there. -/
def History.Reads (h : History) (v : RawValue) : Prop :=
  v = h.initial ∨ h.logStart = 0 ∧ h.stream.valueAt 0 = some v

/-- The history as one trace, with the value a scan read at its start. -/
def History.read (h : History) (v : RawValue) : SignalTrace := ⟨h.logStart, v⟩ :: h.changes

theorem History.read_ordered (h : History) (v : RawValue) : (h.read v).Ordered :=
  List.pairwise_cons.mpr ⟨h.logged, h.ordered⟩

/-- Whichever value was read, the last changes are those of the history. -/
theorem History.Reads.lastBefore {h : History} {v : RawValue} (reads : h.Reads v) (t : Int) :
    (h.read v).lastBefore t = h.stream.lastBefore t := by
  by_cases own : v = h.initial
  · rw [own]
    rfl
  · obtain ⟨start, state⟩ := reads.resolve_left own
    rw [History.read, History.stream, lastBefore_cons, lastBefore_cons, start]
    rw [SignalTrace.valueAt, History.stream, lastBefore_cons] at state
    by_cases late : 0 ≤ t
    · -- A state other than the initial value was written at tick 0.
      have written : ∃ c ∈ h.changes, c.tick ≤ 0 := by
        cases found : h.changes.lastBefore 0 with
        | none => simp [found, start, Ne.symm own] at state
        | some c => exact ⟨c, SignalTrace.lastBefore_mem found⟩
      obtain ⟨c, member, early⟩ := written
      have some : h.changes.lastBefore t ≠ none := by
        intro none
        have := List.filter_eq_nil_iff.mp (List.getLast?_eq_none_iff.mp none) c member
        exact this (by simpa using early.trans late)
      cases found : h.changes.lastBefore t with
      | none => exact absurd found some
      | some c => rfl
    · simp [late]

/-- Before its logging starts a signal has no value. -/
theorem History.read_before (h : History) (v : RawValue) {t : Int} (before : t < h.logStart) :
    (h.read v).lastBefore t = none := by
  refine List.getLast?_eq_none_iff.mpr (List.filter_eq_nil_iff.mpr fun c hc => ?_)
  have : h.logStart ≤ c.tick := by
    rcases List.mem_cons.mp hc with rfl | hc
    · exact le_rfl
    · exact h.logged c hc
  simpa using by omega

/-- What a scan of `[a, b]` emits: the window of the history, with the value it read. -/
theorem runScan_eq {h : History} {a b : Int} (nonneg : 0 ≤ a) (le : a ≤ b)
    {callbacks : List Callback} (scans : Scans h a b callbacks) :
    ∃ v, h.Reads v ∧
      runScan a callbacks = WindowShape.slice .seedBefore (h.read v) a (some b) := by
  obtain ⟨start, events, all, starts, announced⟩ := scans
  rw [runScan_filter, all, List.filterMap_append, events_emission announced]
  have shape : ∀ v, WindowShape.slice .seedBefore (h.read v) a (some b) =
      (((h.read v).lastBefore (a - 1)).map fun c => (⟨a - 1, c.value⟩ : Change)).toList ++
        ((if a ≤ h.logStart ∧ h.logStart ≤ b then [⟨h.logStart, v⟩] else []) ++
          h.changes.within a (some b)) := by
    intro v
    rw [WindowShape.slice, History.read, SignalTrace.within, List.filter_cons]
    by_cases inside : a ≤ h.logStart ∧ h.logStart ≤ b <;>
      simp [inWindow, inside, SignalTrace.within]
  have own : h.Reads h.initial := .inl rfl
  cases starts with
  | carried v before state =>
    obtain ⟨c, last, rfl⟩ := Option.map_eq_some_iff.mp state
    have := h.nonneg
    refine ⟨h.initial, own, ?_⟩
    rw [shape, own.lastBefore, last, if_neg (by omega)]
    simp [emission, seedTagFor, show a > 0 by omega]
  | atZero v zero start state =>
    refine ⟨v, state.imp id fun state => ⟨start, state⟩, ?_⟩
    rw [shape, h.read_before v (by omega), if_pos (by omega), start]
    simp [emission, seedTagFor, zero]
  | inside after within =>
    refine ⟨h.initial, own, ?_⟩
    rw [shape, h.read_before _ (by omega), if_pos ⟨after.le, within⟩]
    rfl
  | after after past =>
    refine ⟨h.initial, own, ?_⟩
    rw [shape, h.read_before _ (by omega), if_neg (by omega)]
    rfl

/-! ## Windowed scans against full ones -/

/-- At every instant from just before the scan to its end, a scan shows the value of the history. -/
theorem runScan_valueAt {h : History} {a b : Int} (nonneg : 0 ≤ a) (le : a ≤ b)
    {callbacks : List Callback} (scans : Scans h a b callbacks) {t : Int} (from_le : a - 1 ≤ t)
    (le_to : t ≤ b) : (runScan a callbacks).valueAt t = h.stream.valueAt t := by
  obtain ⟨v, reads, eq⟩ := runScan_eq nonneg le scans
  rw [SignalTrace.valueAt, eq, WindowShape.seedBefore.slice_lastBefore (h.read_ordered v) from_le
    (by simpa using le_to), reads.lastBefore]
  rfl

/-- Inside the scan, the changes that are last at their tick are those of the history. -/
theorem runScan_lastBefore {h : History} {a b : Int} (nonneg : 0 ≤ a) (le : a ≤ b)
    {callbacks : List Callback} (scans : Scans h a b callbacks) {c : Change} (from_le : a ≤ c.tick)
    (le_to : c.tick ≤ b) :
    (runScan a callbacks).lastBefore c.tick = some c ↔ h.stream.lastBefore c.tick = some c := by
  obtain ⟨v, reads, eq⟩ := runScan_eq nonneg le scans
  have split_le : WindowShape.seedBefore.split a ≤ c.tick := by
    simp only [WindowShape.split]
    omega
  have le_to : ∀ t ∈ some b, c.tick ≤ t := by simpa using le_to
  obtain ⟨seed, -, early, -, last⟩ :=
    WindowShape.seedBefore.slice_lastBefore_or (h.read v) split_le le_to
  rw [eq, ← reads.lastBefore, last, (h.read_ordered v).lastBefore_split
    (show a - 1 ≤ c.tick by omega)]
  simp only [WindowShape.split] at early ⊢
  cases ((h.read v).within (a - 1 + 1) (some c.tick)).getLast? with
  | some d => simp
  | none =>
    -- What is left stands before the scan, and `c` does not.
    rw [Option.none_or, Option.none_or]
    refine iff_of_false (fun found => ?_) fun found => ?_
    · obtain ⟨d, member, rfl⟩ := Option.map_eq_some_iff.mp found
      have := early d member
      omega
    · have := (SignalTrace.lastBefore_mem found).2
      omega

/-- A scan emits in time order, nothing before its seed's tag and nothing past its end. -/
theorem runScan_ordered {h : History} {a b : Int} (nonneg : 0 ≤ a) (le : a ≤ b)
    {callbacks : List Callback} (scans : Scans h a b callbacks) :
    (runScan a callbacks).Ordered ∧
      ∀ c ∈ runScan a callbacks, 0 ≤ c.tick ∧ a - 1 ≤ c.tick ∧ c.tick ≤ b := by
  obtain ⟨v, reads, eq⟩ := runScan_eq nonneg le scans
  rw [eq]
  refine ⟨WindowShape.seedBefore.slice_ordered (h.read_ordered v) a (some b), fun c hc => ?_⟩
  rcases List.mem_append.mp hc with hc | hc
  · obtain ⟨d, last, rfl⟩ := by simpa using hc
    have : 0 ≤ a - 1 := by
      have := h.nonneg
      by_contra before
      rw [h.read_before v (by omega)] at last
      cases last
    exact ⟨this, le_rfl, by dsimp only; omega⟩
  · obtain ⟨-, after, before⟩ := SignalTrace.mem_within.mp hc
    have := before b rfl
    exact ⟨by omega, by omega, this⟩

/-- The changes a scan emits inside a stretch of its range, for a signal that reads its initial
value. -/
theorem runScan_within {h : History} {a b : Int} (nonneg : 0 ≤ a) (le : a ≤ b)
    {callbacks : List Callback} (scans : Scans h a b callbacks)
    (own : ∀ v, h.Reads v → v = h.initial) {frm upto : Int} (from_le : a ≤ frm ∨ a = 0) :
    (runScan a callbacks).within frm (some upto) =
      (h.stream.filter fun c => inWindow frm (some upto) c.tick && inWindow a (some b) c.tick) := by
  obtain ⟨v, reads, eq⟩ := runScan_eq nonneg le scans
  obtain rfl := own v reads
  have none : ∀ c ∈ (((h.read h.initial).lastBefore (a - 1)).map fun c =>
      (⟨a - 1, c.value⟩ : Change)).toList, ¬ inWindow frm (some upto) c.tick = true := by
    intro c hc
    obtain ⟨d, last, rfl⟩ := by simpa using hc
    have := h.nonneg
    have : h.logStart ≤ a - 1 := by
      by_contra before
      rw [h.read_before _ (by omega)] at last
      cases last
    simp only [inWindow_some]
    omega
  rw [eq, WindowShape.slice, SignalTrace.within, List.filter_append,
    List.filter_eq_nil_iff.mpr none, List.nil_append, SignalTrace.within, List.filter_filter]
  rfl

/-- Past its end a scan keeps the value it ended with. -/
theorem runScan_valueAt_past {h : History} {a b : Int} (nonneg : 0 ≤ a) (le : a ≤ b)
    {callbacks : List Callback} (scans : Scans h a b callbacks) {t : Int} (past : b ≤ t) :
    (runScan a callbacks).valueAt t = h.stream.valueAt b := by
  have bound : ∀ c ∈ runScan a callbacks, c.tick ≤ b := fun c hc =>
    ((runScan_ordered nonneg le scans).2 c hc).2.2
  rw [← runScan_valueAt nonneg le scans (by omega) le_rfl, SignalTrace.valueAt,
    SignalTrace.lastBefore_of_le fun c hc => (bound c hc).trans past, SignalTrace.valueAt,
    SignalTrace.lastBefore_of_le bound]

/-- Before tick 0 a scan shows nothing. -/
theorem runScan_valueAt_neg {h : History} {a b : Int} (nonneg : 0 ≤ a) (le : a ≤ b)
    {callbacks : List Callback} (scans : Scans h a b callbacks) {t : Int} (neg : t < 0) :
    (runScan a callbacks).valueAt t = none := by
  rw [SignalTrace.valueAt, Option.map_eq_none_iff, Option.eq_none_iff_forall_ne_some]
  intro c found
  obtain ⟨member, early⟩ := SignalTrace.lastBefore_mem found
  have := ((runScan_ordered nonneg le scans).2 c member).1
  omega

/-- The scanned range holds what of the requested window lies on the file's axis, and ends with the
file when the window does not end before. -/
theorem clampWindow_spec (frm upto : Int) {fileEnd : Int} (nonneg : 0 ≤ fileEnd) :
    ∃ a b, clampWindow frm upto fileEnd = (a, b) ∧ 0 ≤ a ∧ a ≤ b ∧ b ≤ fileEnd ∧
      (a ≤ frm ∨ a = 0) ∧ (fileEnd < upto → b = fileEnd) ∧
      ∀ t, frm ≤ t → t ≤ upto → 0 ≤ t → t ≤ fileEnd → a ≤ t ∧ t ≤ b := by
  refine ⟨_, _, rfl, ?_⟩
  simp only [max_eq_left nonneg]
  refine ⟨by omega, by omega, by omega, by omega, by omega, fun t _ _ _ _ => by omega⟩

section Agreement

variable {h : History} {a b fileEnd frm upto : Int} {fullCallbacks winCallbacks : List Callback}

/-- What is emitted shows the same values over the window. -/
theorem runScan_valueAt_eq (nonneg : 0 ≤ a) (le : a ≤ b) (le_end : b ≤ fileEnd)
    (ends : fileEnd < upto → b = fileEnd)
    (covers : ∀ t, frm ≤ t → t ≤ upto → 0 ≤ t → t ≤ fileEnd → a ≤ t ∧ t ≤ b)
    (fullScans : Scans h 0 fileEnd fullCallbacks) (winScans : Scans h a b winCallbacks) {t : Int}
    (from_le : frm ≤ t) (le_to : t ≤ upto) :
    (runScan a winCallbacks).valueAt t = (runScan 0 fullCallbacks).valueAt t := by
  have fileEnd_nonneg : 0 ≤ fileEnd := by omega
  rcases lt_or_ge t 0 with neg | nonneg_t
  · rw [runScan_valueAt_neg nonneg le winScans neg,
      runScan_valueAt_neg le_rfl fileEnd_nonneg fullScans neg]
  rcases le_or_gt t fileEnd with inside | past
  · obtain ⟨after, before⟩ := covers t from_le le_to nonneg_t inside
    rw [runScan_valueAt nonneg le winScans (by omega) before,
      runScan_valueAt le_rfl fileEnd_nonneg fullScans (by omega) inside]
  · have last := ends (by omega)
    rw [runScan_valueAt_past nonneg le winScans (by omega),
      runScan_valueAt_past le_rfl fileEnd_nonneg fullScans past.le, last]

/-- What is emitted folds to the same entries over the window. -/
theorem runScan_counts_iff (nonneg : 0 ≤ a) (le : a ≤ b) (le_end : b ≤ fileEnd)
    (covers : ∀ t, frm ≤ t → t ≤ upto → 0 ≤ t → t ≤ fileEnd → a ≤ t ∧ t ≤ b)
    (fullScans : Scans h 0 fileEnd fullCallbacks) (winScans : Scans h a b winCallbacks)
    {c : Change} (inside : inWindow frm (some upto) c.tick = true) :
    ((runScan a winCallbacks).lastBefore c.tick = some c ∧
        (runScan a winCallbacks).valueAt (c.tick - 1) ≠ some c.value) ↔
      ((runScan 0 fullCallbacks).lastBefore c.tick = some c ∧
        (runScan 0 fullCallbacks).valueAt (c.tick - 1) ≠ some c.value) := by
  have fileEnd_nonneg : 0 ≤ fileEnd := by omega
  simp only [inWindow_some] at inside
  by_cases onAxis : 0 ≤ c.tick ∧ c.tick ≤ fileEnd
  · obtain ⟨after, before⟩ := covers c.tick inside.1 inside.2 onAxis.1 onAxis.2
    rw [runScan_lastBefore nonneg le winScans after before,
      runScan_lastBefore le_rfl fileEnd_nonneg fullScans onAxis.1 onAxis.2,
      runScan_valueAt nonneg le winScans (by omega) (by omega),
      runScan_valueAt le_rfl fileEnd_nonneg fullScans (by omega) (by omega)]
  · -- No scan emits anything off the axis.
    have off : ∀ {lo hi : Int} {callbacks : List Callback}, 0 ≤ lo → lo ≤ hi → hi ≤ fileEnd →
        Scans h lo hi callbacks → (runScan lo callbacks).lastBefore c.tick ≠ some c := by
      intro lo hi callbacks lo_nonneg lo_le hi_le scans found
      have := (runScan_ordered lo_nonneg lo_le scans).2 c (SignalTrace.lastBefore_mem found).1
      omega
    exact iff_of_false (fun counts => off nonneg le le_end winScans counts.1)
      fun counts => off le_rfl fileEnd_nonneg le_rfl fullScans counts.1

/-- What is emitted for an event signal has the same changes over the window. -/
theorem runScan_within_eq (nonneg : 0 ≤ a) (le : a ≤ b) (le_end : b ≤ fileEnd)
    (from_le : a ≤ frm ∨ a = 0)
    (covers : ∀ t, frm ≤ t → t ≤ upto → 0 ≤ t → t ≤ fileEnd → a ≤ t ∧ t ≤ b)
    (own : ∀ v, h.Reads v → v = h.initial) (fullScans : Scans h 0 fileEnd fullCallbacks)
    (winScans : Scans h a b winCallbacks) :
    (runScan a winCallbacks).within frm (some upto) =
      (runScan 0 fullCallbacks).within frm (some upto) := by
  rw [runScan_within nonneg le winScans own from_le,
    runScan_within le_rfl (by omega) fullScans own (.inr rfl)]
  refine List.filter_congr ?_
  intro c _
  have := covers c.tick
  rw [Bool.eq_iff_iff]
  simp only [inWindow_some, Bool.and_eq_true]
  omega

end Agreement

/-- A windowed scan agrees with the full one over the requested window, whatever the window: the
same value at every instant, and the same changes. -/
theorem windowed_scan_agrees {kind : ValueKind} {h : History}
    (eventValues : kind = .event → ∀ c ∈ h.stream, c.value = .event) {fileEnd : Int}
    (fileEnd_nonneg : 0 ≤ fileEnd) {frm upto : Int}
    {fullCallbacks winCallbacks : List Callback} (fullScans : Scans h 0 fileEnd fullCallbacks)
    (winScans : Scans h (clampWindow frm upto fileEnd).1 (clampWindow frm upto fileEnd).2
      winCallbacks) :
    (∀ t, frm ≤ t → t ≤ upto →
      (loadTraceWindowed kind frm upto fileEnd winCallbacks).valueAt t =
        (loadTrace kind fullCallbacks).valueAt t) ∧
    (loadTraceWindowed kind frm upto fileEnd winCallbacks).within frm (some upto) =
      (loadTrace kind fullCallbacks).within frm (some upto) := by
  obtain ⟨a, b, bounds, nonneg, a_le, le_end, from_le, ends, covers⟩ :=
    clampWindow_spec frm upto fileEnd_nonneg
  simp only [loadTraceWindowed, loadTrace, bounds] at winScans ⊢
  have values : ∀ t, frm ≤ t → t ≤ upto →
      (runScan a winCallbacks).valueAt t = (runScan 0 fullCallbacks).valueAt t := fun t =>
    runScan_valueAt_eq nonneg a_le le_end ends covers fullScans winScans
  by_cases event : kind = .event
  · subst event
    have own : ∀ v, h.Reads v → v = h.initial := by
      rintro v (rfl | ⟨-, state⟩)
      · rfl
      · obtain ⟨c, last, rfl⟩ := Option.map_eq_some_iff.mp state
        rw [eventValues rfl c (SignalTrace.lastBefore_mem last).1]
        exact (eventValues rfl _ List.mem_cons_self).symm
    rw [foldStream_event, foldStream_event]
    exact ⟨values, runScan_within_eq nonneg a_le le_end from_le covers own fullScans winScans⟩
  · have win := folded_foldStream event (runScan_ordered nonneg a_le winScans).1
    have full := folded_foldStream event (runScan_ordered le_rfl fileEnd_nonneg fullScans).1
    refine ⟨fun t from_le le_to => ?_, win.within_eq full fun c inside => ?_⟩
    · rw [win.value, full.value, values t from_le le_to]
    · exact runScan_counts_iff nonneg a_le le_end covers fullScans winScans inside

/-- A windowed scan answers point queries of the full one; the host asks for the end as the last tick
there is. -/
theorem runScan_pointExact {h : History} {frm fileEnd last : Int} {upto : Option Int}
    (fileEnd_nonneg : 0 ≤ fileEnd) (fits : fileEnd ≤ last) {fullCallbacks winCallbacks : List Callback}
    (fullScans : Scans h 0 fileEnd fullCallbacks)
    (winScans : Scans h (clampWindow frm (upto.getD last) fileEnd).1
      (clampWindow frm (upto.getD last) fileEnd).2 winCallbacks) :
    PointExact (runScan 0 fullCallbacks)
      (runScan (clampWindow frm (upto.getD last) fileEnd).1 winCallbacks) frm upto := by
  obtain ⟨a, b, bounds, nonneg, a_le, le_end, -, ends, covers⟩ :=
    clampWindow_spec frm (upto.getD last) fileEnd_nonneg
  rw [bounds] at winScans ⊢
  refine ⟨(runScan_ordered nonneg a_le winScans).1, fun t from_le le_to => ?_⟩
  cases upto with
  | some c =>
    exact runScan_valueAt_eq nonneg a_le le_end ends covers fullScans winScans from_le (le_to c rfl)
  | none =>
    have toEnd : b = fileEnd := by
      have := (congrArg Prod.snd bounds).symm
      simp only [clampWindow, Option.getD_none] at this
      omega
    exact runScan_valueAt_eq nonneg a_le le_end (fun _ => toEnd)
      (fun u from_le _ nonneg inside => covers u from_le (inside.trans fits) nonneg inside)
      fullScans winScans from_le le_rfl

/-- A signal initialized at tick 0 and again written there, with a redundant change at the tick the
window starts at and a second one after it. -/
def rewritten : History where
  logStart := 0
  initial := .bits "x"
  changes := [⟨0, .bits "0"⟩, ⟨3, .bits "1"⟩, ⟨5, .bits "1"⟩, ⟨7, .bits "0"⟩]
  ordered := by simp [SignalTrace.Ordered]
  logged := by decide
  nonneg := le_rfl

/-- Its scan of `[0, 9]`, which reads the state of tick 0, and that of `[5, 9]`, which delivers the
change at 5 before any time-advance; the sentinel is clamped to the end. -/
theorem windowed_scan_agrees_rewritten :
    (∀ t, 5 ≤ t → t ≤ 2 ^ 63 - 1 →
      (loadTraceWindowed .bits 5 (2 ^ 63 - 1) 9
        [.signalEvent .startlog (.bits "1"), .signalEvent .event (.bits "1"), .timeAdvance 7 0,
          .signalEvent .event (.bits "0"), .signalEvent .endlog (.bits "0")]).valueAt t =
        (loadTrace .bits
          [.signalEvent .startlog (.bits "0"), .signalEvent .event (.bits "0"), .timeAdvance 3 0,
            .signalEvent .event (.bits "1"), .timeAdvance 5 0, .signalEvent .event (.bits "1"),
            .timeAdvance 7 0, .signalEvent .event (.bits "0")]).valueAt t) ∧
    SignalTrace.within (loadTraceWindowed .bits 5 (2 ^ 63 - 1) 9
        [.signalEvent .startlog (.bits "1"), .signalEvent .event (.bits "1"), .timeAdvance 7 0,
          .signalEvent .event (.bits "0"), .signalEvent .endlog (.bits "0")]) 5 (some (2 ^ 63 - 1)) =
      SignalTrace.within (loadTrace .bits
          [.signalEvent .startlog (.bits "0"), .signalEvent .event (.bits "0"), .timeAdvance 3 0,
            .signalEvent .event (.bits "1"), .timeAdvance 5 0, .signalEvent .event (.bits "1"),
            .timeAdvance 7 0, .signalEvent .event (.bits "0")]) 5 (some (2 ^ 63 - 1)) := by
  refine @windowed_scan_agrees .bits rewritten nofun 9 (by decide) _ _ _ _ ?_ ?_
  · refine ⟨[_], [_, _, _, _], rfl, .atZero _ rfl rfl (.inr (by decide)), ?_⟩
    refine .cons ⟨rfl, rfl, .inr (by decide)⟩ (.cons ⟨rfl, rfl, .inl (by decide)⟩
      (.cons ⟨rfl, rfl, .inl (by decide)⟩ (.cons ⟨rfl, rfl, .inl (by decide)⟩ .nil)))
  · refine ⟨[_], [_, _], rfl, .carried _ (by decide) (by decide), ?_⟩
    exact .cons ⟨rfl, rfl, .inr (by decide)⟩ (.cons ⟨rfl, rfl, .inl (by decide)⟩ .nil)

end RWave.Backend.Wlf
