import RWave.Commands.Isolation
import RWave.Commands.Summary
import RWave.Misc.StdHeap
import RWave.Model.LastEvent
import RWave.Model.Mock

/-!
# What `summary` reports

The statistics `summary_rows` takes from positions in a trace, in terms of the changes of the
window and the value before it: what a replay of the window emits and what point queries show.
-/

namespace RWave.Commands

open RWave.Backend RWave.Model RWave.Misc RWave.Format RWave.Cli

variable {F : File}

/-! ## Adjacent elements -/

section Adjacent

variable {α β : Type} [DecidableEq α] [DecidableEq β]

/-- The number of times `b` comes right after `a`. -/
def adjacent (a b : α) : List α → Nat
  | x :: y :: rest => (if x = a ∧ y = b then 1 else 0) + adjacent a b (y :: rest)
  | _ => 0

theorem adjacent_cons_of_ne {a b x : α} (other : x ≠ a) (l : List α) :
    adjacent a b (x :: l) = adjacent a b l := by
  cases l with
  | nil => rfl
  | cons y rest => simp [adjacent, other]

/-- A view that tells `a` and `b` from everything else finds them in the same places. -/
theorem adjacent_map {f : α → β} {a b : α} (first : ∀ x, f x = f a ↔ x = a)
    (second : ∀ x, f x = f b ↔ x = b) (l : List α) :
    adjacent (f a) (f b) (l.map f) = adjacent a b l := by
  fun_induction adjacent a b l with
  | case1 x y rest ih =>
    simp only [List.map_cons, adjacent, first, second, ← ih]
  | case2 l short =>
    cases l with
    | nil => rfl
    | cons x rest =>
      cases rest with
      | nil => rfl
      | cons y rest => exact absurd rfl (short x y rest)

end Adjacent

/-! ## The statistics of one trace -/

theorem foldl_scan (host : Host) (cs : List Change) (s : Scan) :
    cs.foldl (Scan.step host) s =
      { changes := s.changes + cs.length
        firstAt := s.firstAt.or (cs.head?.map Change.tick)
        lastAt := (cs.getLast?.map Change.tick).or s.lastAt
        uniq := s.uniq ++ cs.map fun c => uniqKey host c.value
        rise := s.rise + adjacent (some "0") (some "1") (s.prev :: cs.map fun c => bitsView c.value)
        fall := s.fall + adjacent (some "1") (some "0") (s.prev :: cs.map fun c => bitsView c.value)
        prev := ((cs.getLast?.map fun c => bitsView c.value).getD s.prev)
        unknown := s.unknown || cs.any fun c => (bitsView c.value).any bitsHaveUnknown } := by
  induction cs generalizing s with
  | nil => simp [adjacent]
  | cons c rest ih =>
    have pair (a b : Option String) (n : Nat) (views : List (Option String)) :
        (if s.prev = a ∧ bitsView c.value = b then n + 1 else n) +
            adjacent a b (bitsView c.value :: views) =
          n + adjacent a b (s.prev :: bitsView c.value :: views) := by
      rw [adjacent]
      split <;> omega
    rw [List.foldl_cons, ih, Scan.step]
    simp only [Scan.mk.injEq, List.map_cons, pair, List.length_cons, List.head?_cons,
      List.getLast?_cons, List.any_cons, Bool.or_assoc, Option.map_some, Option.some_or,
      Option.or_assoc, List.append_assoc, List.singleton_append, Option.getD_some, true_and,
      and_true]
    refine ⟨by omega, ?_, ?_⟩
    · cases rest.getLast? <;> rfl
    · cases rest.getLast? <;> rfl

/-- The tick before the window; a window from the start has its first tick before it. -/
def initBoundary (t0 : Int) : Int := if t0 = 0 then 0 else t0 - 1

/-- The changes of the window. -/
def windowChanges (tr : SignalTrace) (t0 : Int) (t1 : Option Int) : SignalTrace :=
  tr.within (initBoundary t0 + 1) t1

/-- The changes up to the end of the window. -/
def changesUpTo (tr : SignalTrace) (t1 : Option Int) : SignalTrace :=
  tr.filter fun c => t1.all fun t1 => decide (c.tick ≤ t1)

/-- The value before the window and those it changes to. -/
def seenValues (tr : SignalTrace) (t0 : Int) (t1 : Option Int) : List RawValue :=
  ((tr.lastBefore (initBoundary t0)).toList ++ windowChanges tr t0 t1).map Change.value

/-- Does a logic vector have an unknown bit? -/
def unknownValue (v : RawValue) : Bool := (bitsView v).any bitsHaveUnknown

/-- The statistics of a trace, in terms of its changes. -/
def statsOf (host : Host) (t0 : Int) (t1 : Option Int) (sid : F.Sid) (tr : SignalTrace) : Stats F :=
  { sid
    changes := (windowChanges tr t0 t1).length
    firstAt := (windowChanges tr t0 t1).head?.map Change.tick
    lastAt := (windowChanges tr t0 t1).getLast?.map Change.tick
    initial := (tr.lastBefore (initBoundary t0)).map fun c => c.value.rawStr host
    last := (changesUpTo tr t1).getLast?.map fun c => c.value.rawStr host
    uniqueCount := ((seenValues tr t0 t1).map (uniqKey host)).dedup.length
    riseCount := adjacent (.bits "0") (.bits "1") (seenValues tr t0 t1)
    fallCount := adjacent (.bits "1") (.bits "0") (seenValues tr t0 t1)
    unknown := (seenValues tr t0 t1).any unknownValue }

theorem bitsView_eq_some {s : String} (v : RawValue) :
    bitsView v = bitsView (.bits s) ↔ v = .bits s := by
  cases v <;> simp [bitsView]

/-- The edges of a scan that starts from the value before the window. -/
theorem adjacent_seen (a b : String) (tr : SignalTrace) (t0 : Int) (t1 : Option Int) :
    adjacent (some a) (some b)
        (((tr.lastBefore (initBoundary t0)).bind fun c => bitsView c.value) ::
          (windowChanges tr t0 t1).map fun c => bitsView c.value) =
      adjacent (.bits a) (.bits b) (seenValues tr t0 t1) := by
  have views := adjacent_map (f := bitsView) (a := .bits a) (b := .bits b) bitsView_eq_some
    bitsView_eq_some (seenValues tr t0 t1)
  rw [← views, seenValues]
  cases tr.lastBefore (initBoundary t0) with
  | none =>
    rw [Option.bind_none, adjacent_cons_of_ne (by simp), Option.toList_none, List.nil_append,
      List.map_map]
    rfl
  | some c =>
    rw [Option.toList_some, List.singleton_append, List.map_cons, List.map_cons, List.map_map]
    rfl

/-- The window is what lies between its two positions. -/
theorem drop_start {tr : SignalTrace} (ordered : tr.Ordered) (t0 : Int) (t1 : Option Int) :
    (changesUpTo tr t1).drop (upperBound tr.times (initBoundary t0)) = windowChanges tr t0 t1 := by
  rw [upperBound_eq_lowerBound, changesUpTo, drop_lowerBound ordered]
  rfl

theorem initBoundary_le {t0 t1 : Int} (le : t0 ≤ t1) : initBoundary t0 ≤ t1 := by
  rw [initBoundary]
  split <;> omega

/-- The changes up to the end of the window are those before it and those in it. -/
theorem changesUpTo_split {tr : SignalTrace} (ordered : tr.Ordered) {t0 : Int} {t1 : Option Int}
    (le : ∀ t ∈ t1, t0 ≤ t) :
    changesUpTo tr t1 =
      (tr.filter fun c => decide (c.tick ≤ initBoundary t0)) ++ windowChanges tr t0 t1 := by
  have before : (tr.filter fun c => decide (c.tick ≤ initBoundary t0)).filter
      (fun c => t1.all fun t1 => decide (c.tick ≤ t1)) =
      tr.filter fun c => decide (c.tick ≤ initBoundary t0) := by
    rw [List.filter_eq_self]
    intro c member
    have early := of_decide_eq_true (List.mem_filter.mp member).2
    cases t1 with
    | none => rfl
    | some t1 => exact decide_eq_true (early.trans (initBoundary_le (le t1 rfl)))
  have after : (tr.drop (upperBound tr.times (initBoundary t0))).filter
      (fun c => t1.all fun t1 => decide (c.tick ≤ t1)) = windowChanges tr t0 t1 := by
    have whole := drop_start ordered t0 none
    simp only [changesUpTo, Option.all_none, List.filter_true] at whole
    rw [whole, windowChanges, SignalTrace.within, List.filter_filter]
    refine List.filter_congr ?_
    intro c _
    simp [inWindow, Bool.and_comm]
  calc changesUpTo tr t1
    _ = ((tr.take (upperBound tr.times (initBoundary t0)) ++
          tr.drop (upperBound tr.times (initBoundary t0))).filter
        fun c => t1.all fun t1 => decide (c.tick ≤ t1)) := by rw [List.take_append_drop]; rfl
    _ = _ := by rw [List.filter_append, take_upperBound ordered, before, after]

/-- The value at the end of the window is the last one in it, or else the one before it. -/
theorem getLast?_upTo {tr : SignalTrace} (ordered : tr.Ordered) {t0 : Int} {t1 : Option Int}
    (le : ∀ t ∈ t1, t0 ≤ t) :
    (changesUpTo tr t1).getLast? =
      (windowChanges tr t0 t1).getLast?.or (tr.lastBefore (initBoundary t0)) := by
  rw [changesUpTo_split ordered le, List.getLast?_append]
  rfl

/-- A signal without a change up to the end of the window has none before it and none in it. -/
theorem changesUpTo_eq_nil {tr : SignalTrace} (ordered : tr.Ordered) {t0 : Int} {t1 : Option Int}
    (le : ∀ t ∈ t1, t0 ≤ t) :
    changesUpTo tr t1 = [] ↔
      tr.lastBefore (initBoundary t0) = none ∧ windowChanges tr t0 t1 = [] := by
  rw [changesUpTo_split ordered le, List.append_eq_nil_iff, SignalTrace.lastBefore,
    List.getLast?_eq_none_iff]

theorem lastAtOrBefore_isSome {tr : SignalTrace} (ordered : tr.Ordered) (t : Int) :
    (lastAtOrBefore tr.times t).isSome = (tr.lastBefore t).isSome := by
  rw [← lastAtOrBefore_eq ordered]
  cases found : lastAtOrBefore tr.times t with
  | none => rfl
  | some pos =>
    have inside : pos < tr.length := by
      have := lastAtOrBefore_succ found
      have := upperBound_le tr t
      omega
    rw [Option.bind_some, List.getElem?_eq_getElem inside]
    rfl

/-- The last change between two positions, or else the one before them. -/
theorem getElem?_upper {tr : SignalTrace} {upper : Nat} (inside : upper ≤ tr.length) (start : Nat)
    (base : Option Change) :
    (if start < upper then tr[upper - 1]? else base) =
      ((tr.take upper).drop start).getLast?.or base := by
  rw [List.getLast?_drop, List.length_take, Nat.min_eq_left inside, List.getLast?_take]
  split
  next active =>
    rw [if_neg (not_le.mpr active), if_neg (by omega), List.getElem?_eq_getElem (by omega)]
    rfl
  next quiet => rw [if_pos (not_lt.mp quiet), Option.none_or]

/-- The loop over the changes after a baseline. -/
def scanFrom (host : Host) (base : Option Change) (cs : List Change) : Scan :=
  let prev := base.bind fun c => bitsView c.value
  cs.foldl (Scan.step host)
    { changes := 0
      firstAt := none
      lastAt := none
      uniq := base.toList.map fun c => uniqKey host c.value
      rise := 0
      fall := 0
      prev
      unknown := prev.any bitsHaveUnknown }

/-- The statistics a scan ends with. -/
def Scan.stats (scan : Scan) (sid : F.Sid) (initial last : Option String) : Stats F :=
  { sid
    changes := scan.changes
    firstAt := scan.firstAt
    lastAt := scan.lastAt
    initial
    last
    uniqueCount := scan.uniq.dedup.length
    riseCount := scan.rise
    fallCount := scan.fall
    unknown := scan.unknown }

/-- The statistics by the three positions they are taken from. -/
theorem traceStats_positions (host : Host) (t0 : Int) (t1 : Option Int) (sid : F.Sid)
    (tr : SignalTrace) {basePos : Option Nat} {start upper : Nat}
    (found : lastAtOrBefore tr.times (initBoundary t0) = basePos)
    (begins : basePos.elim (upperBound tr.times (initBoundary t0)) Nat.succ = start)
    (ends : t1.elim tr.length (upperBound tr.times) = upper) :
    traceStats host t0 t1 sid tr =
      let base := basePos.bind fun p => tr[p]?
      let scan := scanFrom host base ((tr.take upper).drop start)
      let initial := base.map fun c => c.value.rawStr host
      if basePos.isSome || decide (0 < scan.changes) then
        some (scan.stats sid initial
          (if start < upper then tr[upper - 1]?.map fun c => c.value.rawStr host else initial))
      else none := by
  subst begins ends
  unfold traceStats
  change lastAtOrBeforeLocal tr.times (if t0 = 0 then 0 else t0 - 1) = basePos at found
  simp only [found]
  cases t1 <;> cases basePos <;> rfl

theorem scanFrom_changes (host : Host) (base : Option Change) (cs : List Change) :
    (scanFrom host base cs).changes = cs.length := by
  rw [scanFrom, foldl_scan]
  exact Nat.zero_add _

/-- The scan of the window. -/
theorem scanFrom_window (host : Host) (t0 : Int) (t1 : Option Int) (sid : F.Sid)
    (tr : SignalTrace) (last : Option String) :
    (scanFrom host (tr.lastBefore (initBoundary t0)) (windowChanges tr t0 t1)).stats sid
      ((tr.lastBefore (initBoundary t0)).map fun c => c.value.rawStr host) last =
      { statsOf host t0 t1 sid tr with last } := by
  have rises := adjacent_seen "0" "1" tr t0 t1
  have falls := adjacent_seen "1" "0" tr t0 t1
  rw [scanFrom, foldl_scan]
  simp only [Scan.stats, statsOf, rises, falls, Stats.mk.injEq, Nat.zero_add, Option.none_or,
    Option.or_none, true_and]
  refine ⟨?_, ?_⟩
  · rw [seenValues, List.map_map, List.map_append]
    rfl
  · rw [seenValues, List.any_map, List.any_append]
    cases tr.lastBefore (initBoundary t0) <;> simp [Function.comp_def, unknownValue]

/-- The statistics are those of the changes of the window and of the value before it. -/
theorem traceStats_eq (host : Host) {t0 : Int} {t1 : Option Int} (le : ∀ t ∈ t1, t0 ≤ t)
    (sid : F.Sid) {tr : SignalTrace} (ordered : tr.Ordered) :
    traceStats host t0 t1 sid tr =
      if changesUpTo tr t1 = [] then none else some (statsOf host t0 t1 sid tr) := by
  obtain ⟨upper, ends, inside, taken⟩ : ∃ upper, t1.elim tr.length (upperBound tr.times) = upper ∧
      upper ≤ tr.length ∧ tr.take upper = changesUpTo tr t1 := by
    have taken := take_upper ordered t1
    cases t1 with
    | none => exact ⟨_, rfl, le_rfl, taken⟩
    | some t1 => exact ⟨_, rfl, upperBound_le tr t1, taken⟩
  have begins : (lastAtOrBefore tr.times (initBoundary t0)).elim
      (upperBound tr.times (initBoundary t0)) Nat.succ = upperBound tr.times (initBoundary t0) := by
    cases found : lastAtOrBefore tr.times (initBoundary t0) with
    | none => rfl
    | some p => exact lastAtOrBefore_succ found
  have window := drop_start ordered t0 t1
  have last := getElem?_upper inside (upperBound tr.times (initBoundary t0))
    (tr.lastBefore (initBoundary t0))
  rw [taken, window, ← getLast?_upTo ordered le] at last
  rw [traceStats_positions host t0 t1 sid tr rfl begins ends]
  simp only [lastAtOrBefore_eq ordered, lastAtOrBefore_isSome ordered, taken, window,
    scanFrom_window, scanFrom_changes, ← apply_ite (Option.map _), last]
  simp only [changesUpTo_eq_nil ordered le]
  cases tr.lastBefore (initBoundary t0) with
  | none => cases windowChanges tr t0 t1 <;> rfl
  | some c => rfl

/-! ## The rows -/

/-- The values a signal takes: what a point query shows before the window, and what its changes in
the window set it to. -/
def windowValues (w : Wave F) (selected : List F.Sid) (t0 : Int) (t1 : Option Int) (sid : F.Sid) :
    List RawValue :=
  (w.snapshot (initBoundary t0) (some selected) sid).toList ++
    (windowChanges (F.traceOf sid) t0 t1).map Change.value

/-- What a point query shows at the end of the window, or after the last change without an end. -/
def valueAtEnd (w : Wave F) (selected : List F.Sid) (t1 : Option Int) (sid : F.Sid) :
    Option RawValue :=
  match t1 with
  | some t1 => w.snapshot t1 (some selected) sid
  | none => (F.traceOf sid).getLast?.map Change.value

/-- What a row says of its signal. -/
structure Reports (host : Host) (w : Wave F) (selected : List F.Sid) (t0 : Int) (t1 : Option Int)
    (sid : F.Sid) (row : SummaryRow) : Prop where
  path : row.path = (F.signal sid).path
  changes : row.changes = (windowChanges (F.traceOf sid) t0 t1).length
  firstAt : row.firstAt = (windowChanges (F.traceOf sid) t0 t1).head?.map Change.tick
  lastAt : row.lastAt = (windowChanges (F.traceOf sid) t0 t1).getLast?.map Change.tick
  init : row.init = shownOr
    ((w.snapshot (initBoundary t0) (some selected) sid).map (RawValue.rawStr host)) (F.signal sid)
  last : row.last =
    shownOr ((valueAtEnd w selected t1 sid).map (RawValue.rawStr host)) (F.signal sid)
  active : row.kind = "active" ↔ 0 < row.changes
  static : row.kind = "static" ↔ row.changes = 0
  unique : row.unique = ((windowValues w selected t0 t1 sid).map (uniqKey host)).dedup.length
  /-- An event has the empty raw text, which a string may have too. -/
  unique_raw : (∀ u ∈ windowValues w selected t0 t1 sid, ∀ v ∈ windowValues w selected t0 t1 sid,
      u = .event ↔ v = .event) →
    row.unique = ((windowValues w selected t0 t1 sid).map (RawValue.rawStr host)).dedup.length
  riseCount : row.riseCount =
    if (F.signal sid).width = 1 then
      some (adjacent (.bits "0") (.bits "1") (windowValues w selected t0 t1 sid))
    else none
  fallCount : row.fallCount =
    if (F.signal sid).width = 1 then
      some (adjacent (.bits "1") (.bits "0") (windowValues w selected t0 t1 sid))
    else none
  unknown : row.unknown = true ↔ ∃ v ∈ windowValues w selected t0 t1 sid, unknownValue v = true

/-- What the output says of a selection; `w` holds the traces of the selected signals. -/
structure Summarizes (host : Host) (w : Wave F) (selected : List F.Sid) (t0 : Int) (t1 : Option Int)
    (rows : List SummaryRow) (undefined : List F.Sid) (counts : SummaryCounts) : Prop where
  missing : undefined =
    sortByPath (selected.filter fun sid => (changesUpTo (F.traceOf sid) t1).isEmpty)
  reported : ∃ row : F.Sid → SummaryRow,
    rows = sortByKey SummaryRow.path
      ((selected.filter fun sid => !(changesUpTo (F.traceOf sid) t1).isEmpty).map row) ∧
    ∀ sid ∈ selected, changesUpTo (F.traceOf sid) t1 ≠ [] →
      Reports host w selected t0 t1 sid (row sid)
  selected_length : counts.selected = selected.length
  defined_length : counts.defined = rows.length
  undefined_length : counts.undefined = undefined.length
  active_static : counts.active + counts.static_ = counts.defined
  defined_undefined : counts.defined + counts.undefined = counts.selected
  /-- The changes of the window are the events of a replay. -/
  replayed : selected.Nodup → ∀ (H : BinaryHeap (HeapEntry.key (F := F))), ∀ sid ∈ selected,
    eventsOf sid (w.forEachEvent H (initBoundary t0 + 1) t1 (some selected)) =
      (windowChanges (F.traceOf sid) t0 t1).map fun c => (c.tick, sid, c.value)

/-- Two values of which both or neither are events have one key when they have one raw text. -/
theorem uniqKey_inj {host : Host} {u v : RawValue} (events : u = .event ↔ v = .event) :
    uniqKey host u = uniqKey host v ↔ u.rawStr host = v.rawStr host := by
  cases u <;> cases v <;> simp_all [uniqKey, RawValue.rawStr]

/-- Views that tell the same elements apart find as many distinct ones. -/
theorem length_dedup_map {α β γ : Type} [DecidableEq β] [DecidableEq γ] {f : α → β} {g : α → γ}
    {l : List α} (same : ∀ u ∈ l, ∀ v ∈ l, f u = f v ↔ g u = g v) :
    (l.map f).dedup.length = (l.map g).dedup.length := by
  induction l with
  | nil => rfl
  | cons a l ih =>
    have rest := ih fun u hu v hv =>
      same u (List.mem_cons_of_mem a hu) v (List.mem_cons_of_mem a hv)
    have seen : f a ∈ l.map f ↔ g a ∈ l.map g := by
      simp only [List.mem_map]
      refine exists_congr fun v => and_congr_right fun hv => ?_
      exact same v (List.mem_cons_of_mem a hv) a List.mem_cons_self
    rw [List.map_cons, List.map_cons]
    by_cases old : f a ∈ l.map f
    · rw [List.dedup_cons_of_mem old, List.dedup_cons_of_mem (seen.mp old), rest]
    · rw [List.dedup_cons_of_notMem old, List.dedup_cons_of_notMem (mt seen.mpr old),
        List.length_cons, List.length_cons, rest]

section Rows

variable {w : Wave F} {selected : List F.Sid} {t0 : Int} {t1 : Option Int} {sid : F.Sid}

/-- A point query of loaded signals. -/
theorem snapshot_loaded (consistent : w.Consistent) (ordered : F.TracesOrdered)
    (member : sid ∈ selected) (t : Int) :
    (w.ensureLoaded selected).snapshot t (some selected) sid =
      ((F.traceOf sid).lastBefore t).map Change.value := by
  have shown := consistent.valuesAt_resident ordered t (some selected)
  have here := congrFun shown sid
  rw [if_pos (show sid ∈ F.selected (some selected) from member)] at here
  exact here

theorem windowValues_eq (consistent : w.Consistent) (ordered : F.TracesOrdered)
    (member : sid ∈ selected) :
    windowValues (w.ensureLoaded selected) selected t0 t1 sid =
      seenValues (F.traceOf sid) t0 t1 := by
  rw [windowValues, snapshot_loaded consistent ordered member, seenValues, List.map_append,
    Option.toList_map]

theorem valueAtEnd_eq (consistent : w.Consistent) (ordered : F.TracesOrdered)
    (member : sid ∈ selected) :
    valueAtEnd (w.ensureLoaded selected) selected t1 sid =
      (changesUpTo (F.traceOf sid) t1).getLast?.map Change.value := by
  cases t1 with
  | none => simp only [valueAtEnd, changesUpTo, Option.all_none, List.filter_true]
  | some t1 => exact snapshot_loaded consistent ordered member t1

/-- A replay of the window emits the changes of the window. -/
theorem eventsOf_window (consistent : w.Consistent) (ordered : F.TracesOrdered)
    (nodup : selected.Nodup) (H : BinaryHeap (HeapEntry.key (F := F))) (member : sid ∈ selected) :
    eventsOf sid ((w.ensureLoaded selected).forEachEvent H (initBoundary t0 + 1) t1 (some selected)) =
      (windowChanges (F.traceOf sid) t0 t1).map fun c => (c.tick, sid, c.value) := by
  have events := ((w.ensureLoaded selected).forEachEvent_spec H (initBoundary t0 + 1) t1
    (some selected) ((consistent.ensureLoaded selected).trace_ordered ordered) nodup).1 sid
  rw [if_pos (show sid ∈ F.selected (some selected) from member), Wave.trace,
    consistent.ensureLoaded_mem member] at events
  exact events

theorem statsRow_reports (host : Host) (consistent : w.Consistent) (ordered : F.TracesOrdered)
    (member : sid ∈ selected) :
    Reports host (w.ensureLoaded selected) selected t0 t1 sid
      (statsRow (statsOf host t0 t1 sid (F.traceOf sid))) := by
  have values : windowValues (w.ensureLoaded selected) selected t0 t1 sid =
      seenValues (F.traceOf sid) t0 t1 := windowValues_eq consistent ordered member
  have atEnd : valueAtEnd (w.ensureLoaded selected) selected t1 sid =
      (changesUpTo (F.traceOf sid) t1).getLast?.map Change.value :=
    valueAtEnd_eq consistent ordered member
  have unique : (statsRow (statsOf host t0 t1 sid (F.traceOf sid))).unique =
      ((seenValues (F.traceOf sid) t0 t1).map (uniqKey host)).dedup.length := rfl
  refine
    { path := rfl
      changes := rfl
      firstAt := rfl
      lastAt := rfl
      init := ?_
      last := ?_
      active := ?_
      static := ?_
      unique := by rw [values, unique]
      unique_raw := ?_
      riseCount := by rw [values]; rfl
      fallCount := by rw [values]; rfl
      unknown := ?_ }
  · rw [snapshot_loaded consistent ordered member, Option.map_map]
    rfl
  · rw [atEnd, Option.map_map]
    rfl
  · simp only [statsRow]
    split <;> simp_all
  · simp only [statsRow]
    split <;> simp_all
    omega
  · intro events
    rw [values] at events ⊢
    rw [unique]
    exact length_dedup_map fun u hu v hv => uniqKey_inj (events u hu v hv)
  · rw [values]
    exact List.any_eq_true

/-- The signals the callback keeps statistics of. -/
theorem visits_stats (host : Host) (ordered : F.TracesOrdered) (le : ∀ t ∈ t1, t0 ≤ t)
    (selected : List F.Sid) :
    ((selected.map fun sid => (sid, F.traceOf sid)).filterMap fun (sid, tr) =>
        traceStats host t0 t1 sid tr) =
      (selected.filter fun sid => !(changesUpTo (F.traceOf sid) t1).isEmpty).map fun sid =>
        statsOf host t0 t1 sid (F.traceOf sid) := by
  induction selected with
  | nil => rfl
  | cons sid rest ih =>
    rw [List.map_cons, List.filterMap_cons, ih]
    dsimp only
    rw [traceStats_eq host le sid (ordered sid)]
    by_cases none : changesUpTo (F.traceOf sid) t1 = []
    · simp [none]
    · simp [none]

/-- The signals the callback turns away. -/
theorem visits_undefined (host : Host) (ordered : F.TracesOrdered) (le : ∀ t ∈ t1, t0 ≤ t)
    (selected : List F.Sid) :
    ((selected.map fun sid => (sid, F.traceOf sid)).filter fun (sid, tr) =>
        (traceStats host t0 t1 sid tr).isNone).map Prod.fst =
      selected.filter fun sid => (changesUpTo (F.traceOf sid) t1).isEmpty := by
  induction selected with
  | nil => rfl
  | cons sid rest ih =>
    have own := traceStats_eq host le sid (ordered sid)
    by_cases none : changesUpTo (F.traceOf sid) t1 = []
    · rw [if_pos none] at own
      simp [own, none, ← ih]
    · rw [if_neg none] at own
      simp [own, none, ← ih]

/-- Every row is active or static. -/
theorem active_static (stats : List (Stats F)) :
    (sortByKey SummaryRow.path (stats.map statsRow)).countP (fun r => r.kind == "active") +
      (sortByKey SummaryRow.path (stats.map statsRow)).countP (fun r => r.kind == "static") =
      (sortByKey SummaryRow.path (stats.map statsRow)).length := by
  have other :
      (sortByKey SummaryRow.path (stats.map statsRow)).countP (fun r => r.kind == "static") =
      (sortByKey SummaryRow.path (stats.map statsRow)).countP fun r =>
        decide ¬ (r.kind == "active") = true := by
    refine List.countP_congr ?_
    intro row member
    obtain ⟨s, -, rfl⟩ := List.mem_map.mp (mem_sortByKey.mp member)
    simp only [statsRow]
    split <;> decide
  rw [other, ← List.length_eq_countP_add_countP]

/-- The rows of the signals with a change up to the end of the window. -/
def definedRows (host : Host) (t0 : Int) (t1 : Option Int) (selected : List F.Sid) :
    List SummaryRow :=
  sortByKey SummaryRow.path
    ((selected.filter fun sid => !(changesUpTo (F.traceOf sid) t1).isEmpty).map fun sid =>
      statsRow (statsOf host t0 t1 sid (F.traceOf sid)))

/-- The signals without one. -/
def undefinedSids (t1 : Option Int) (selected : List F.Sid) : List F.Sid :=
  sortByPath (selected.filter fun sid => (changesUpTo (F.traceOf sid) t1).isEmpty)

theorem summaryRows_result (env : Env F) (consistent : w.Consistent) (ordered : F.TracesOrdered)
    (le : ∀ t ∈ t1, t0 ≤ t) (selected : List F.Sid) :
    (summaryRows env t0 t1 selected).result w =
      .ok (definedRows env.host t0 t1 selected, undefinedSids t1 selected,
        { selected := selected.length
          defined := (definedRows env.host t0 t1 selected).length
          undefined := (undefinedSids t1 selected).length
          active := (definedRows env.host t0 t1 selected).countP fun r => r.kind == "active"
          static_ := (definedRows env.host t0 t1 selected).countP fun r => r.kind == "static"
          unknown := (definedRows env.host t0 t1 selected).countP fun r => r.unknown }) := by
  have visits (batch : Nat) : (forEachSignalBatched (some selected) batch).result w =
      .ok (selected.map fun sid => (sid, F.traceOf sid)) := by
    change Except.ok (w.forEachSignalBatched (some selected) batch).1 = _
    rw [consistent.forEachSignalBatched]
    rfl
  have rows := congrArg (fun stats => sortByKey SummaryRow.path (stats.map statsRow))
    (visits_stats env.host ordered le selected)
  have undefined := congrArg sortByPath (visits_undefined env.host ordered le selected)
  rw [List.map_map] at rows
  refine Prog.result_bind_eq_ok.mpr ⟨_, visits _, ?_⟩
  dsimp only
  rw [rows, undefined]
  rfl

/-- `summary_rows` agrees with a replay of the window and with point queries. -/
theorem summaryRows_summarizes (env : Env F) (consistent : w.Consistent) (ordered : F.TracesOrdered)
    (le : ∀ t ∈ t1, t0 ≤ t) (selected : List F.Sid) :
    ∃ rows undefined counts,
      (summaryRows env t0 t1 selected).result w = .ok (rows, undefined, counts) ∧
      Summarizes env.host (w.ensureLoaded selected) selected t0 t1 rows undefined counts := by
  refine ⟨_, _, _, summaryRows_result env consistent ordered le selected, ?_⟩
  refine
    { missing := rfl
      reported := ⟨fun sid => statsRow (statsOf env.host t0 t1 sid (F.traceOf sid)), rfl, ?_⟩
      selected_length := rfl
      defined_length := rfl
      undefined_length := rfl
      active_static := ?_
      defined_undefined := ?_
      replayed := ?_ }
  · intro sid member _
    exact statsRow_reports env.host consistent ordered member
  · have kinds := active_static ((selected.filter fun sid =>
      !(changesUpTo (F.traceOf sid) t1).isEmpty).map fun sid =>
        statsOf env.host t0 t1 sid (F.traceOf sid))
    rwa [List.map_map] at kinds
  · have parts := List.length_eq_length_filter_add
      (fun sid => (changesUpTo (F.traceOf sid) t1).isEmpty) (l := selected)
    simp only [definedRows, undefinedSids, sortByPath, length_sortByKey, List.length_map]
    omega
  · exact fun nodup H _ member => eventsOf_window consistent ordered nodup H member

end Rows

/-- The surroundings of a run that looks at no file and no environment variable. -/
def bareEnv (F : File) : Env F where
  host := MockBackend.host
  mergeHeap := stdHeap _
  eventHeap := stdHeap _
  fileLen _ := none
  var _ := none
  varIsSet _ := false
  pathExists _ := false
  pathJoin dir name := dir ++ "/" ++ name
  fileName _ := none
  extension _ := none

/-- A counter of two bits that counts to one. -/
def counterMock : MockBackend where
  data := [(0, [⟨0, .bits "00"⟩, ⟨5, .bits "01"⟩])]
  windowed := false
  wlfSeedShape := false

def counterFile : File :=
  { counterMock.file with signals := counterMock.signals.map fun info => { info with width := 2 } }

def counterFile.count : counterFile.Sid := ⟨0, by decide⟩

theorem counterFile_ordered : counterFile.TracesOrdered := by
  unfold File.TracesOrdered SignalTrace.Ordered
  decide

/-- The row of a bus has no count of rises, not even zero. -/
theorem summaryRows_counter :
    ∃ row undefined counts,
      (summaryRows (bareEnv counterFile) 0 (some 9) [counterFile.count]).result
        (Wave.fresh counterFile) = .ok ([row], undefined, counts) ∧
      row.changes = 1 ∧
      adjacent (.bits "0") (.bits "1") (windowValues ((Wave.fresh counterFile).ensureLoaded
        [counterFile.count]) [counterFile.count] 0 (some 9) counterFile.count) = 0 ∧
      row.riseCount ≠ some 0 := by
  have fresh := Wave.consistent_fresh counterFile
  refine ⟨_, _, _, summaryRows_result _ fresh counterFile_ordered (by decide) _, rfl, ?_, ?_⟩
  · rw [windowValues_eq fresh counterFile_ordered (by simp)]
    decide
  · decide

theorem summaryRows_summarizes_glitch :
    ∃ rows undefined counts,
      (summaryRows (bareEnv glitchMock.file) 2 (some 8) glitchMock.file.allSids).result
        (Wave.fresh glitchMock.file) = .ok (rows, undefined, counts) ∧
      Summarizes MockBackend.host ((Wave.fresh glitchMock.file).ensureLoaded
        glitchMock.file.allSids) glitchMock.file.allSids 2 (some 8) rows undefined counts :=
  summaryRows_summarizes (bareEnv glitchMock.file) (Wave.consistent_fresh _) glitchMock_ordered
    (by decide) _

end RWave.Commands
