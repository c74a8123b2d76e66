import RWave.Condition
import RWave.Json
import RWave.Model.Replay

/-!
# Search over time

The two collectors of `commands/search.rs`. Event mode reports the ticks at which a clause fires,
interval mode the spans over which a clause holds, cut at the changes of the shown values when
there are any (segment mode).
-/

namespace RWave.Commands

open RWave.Backend RWave.Model RWave.Misc RWave.Format

variable {F : File}

/-- The signal-resolved body of a term. -/
inductive ResolvedTerm where
  | level (op : Condition.Op) (target : Condition.Target) (width : Nat) (kind : ValueKind)
      (valueText : String)
  | changed
  deriving DecidableEq, Repr

/-- A term bound to a signal. -/
structure ResolvedCond (F : File) where
  sid : F.Sid
  term : ResolvedTerm
  original : String
  path : String

/-- The raw value of every signal that has one (the `state` map). -/
abbrev State (F : File) : Type := F.Sid → Option String

/-- `BTreeMap::new()`. -/
def State.empty : State F := fun _ => none

/-- `state.insert(sid, raw)`. -/
def State.insert (state : State F) (change : F.Sid × String) : State F :=
  Function.update state change.1 (some change.2)

/-- One term of `conditions_hold`. A value that is not a logic vector has no bits to match. -/
def termHolds (state : State F) (changed : Finset F.Sid) (c : ResolvedCond F) : Bool :=
  match c.term with
  | .changed => decide (c.sid ∈ changed)
  | .level op target width kind _ =>
    let raw := state c.sid
    let bits := if kind = .bits then raw else none
    Condition.conditionMatch bits raw op target width

/-- `conditions_hold`. -/
def conditionsHold (state : State F) (changed : Finset F.Sid) (conds : List (ResolvedCond F)) : Bool :=
  conds.all (termHolds state changed)

/-- `any_clause_holds`. -/
def anyClauseHolds (state : State F) (changed : Finset F.Sid) (clauses : List (List (ResolvedCond F))) :
    Bool :=
  clauses.any (conditionsHold state changed)

/-- A path with its displayed value, for every shown signal. -/
abbrev Values : Type := List (String × String)

/-- `show_values`. -/
def showValues (state : State F) (showSids : List F.Sid) : Values :=
  showSids.map fun sid =>
    let info := F.signal sid
    (info.path,
      match state sid with
      | some r => fmtVal r info.kind info.width
      | none => "(undef)")

/-- `show_meta`. -/
def showMeta (state : State F) (showSids : List F.Sid) : Json :=
  .object <| showSids.map fun sid =>
    let info := F.signal sid
    (info.path, (((Obj.new.push "raw" (Json.optStr (state sid))).push "width"
      (.int info.width)).push "type" (.str info.typeStr)).build)

/-- `SearchSetup`: what a search works on. Every signal a clause or `--show` names is selected. -/
structure SearchSetup (F : File) where
  clauses : List (List (ResolvedCond F))
  showSids : List F.Sid
  changedSids : List F.Sid
  selRef : List F.Sid
  t0 : Int
  t1 : Int
  limit : Nat
  verbose : Bool
  condLabel : String
  condText : String
  ts : F64
  selNodup : selRef.Nodup
  clausesSelected : ∀ clause ∈ clauses, ∀ c ∈ clause, c.sid ∈ selRef
  showSelected : ∀ sid ∈ showSids, sid ∈ selRef

/-- The buffered replay of the selected signals. -/
def searchStream (host : Host) (w : Wave F) (H : BinaryHeap (HeapEntry.key (F := F)))
    (s : SearchSetup F) : List (Int × F.Sid × String) :=
  (w.forEachEvent H 0 (some s.t1) (some s.selRef)).map fun (t, sid, v) => (t, sid, v.rawStr host)

/-! ## Event mode -/

/-- One fired event; `rowMeta` is the verbose `meta`. -/
structure Ev where
  timeTicks : Int
  timeH : String
  values : Values
  rowMeta : Option Json

/-- The signals that truly transition when a group is applied: an initialization at tick 0 and a
first definition are no changes; an event signal changes whenever it is triggered. -/
def changedIn (state : State F) (group : List (F.Sid × String)) (gt : Int) : Finset F.Sid :=
  group.foldl
    (fun changed (gsid, gval) =>
      let old := state gsid
      if gt = 0 ∧ old = none then changed
      else if (F.signal gsid).kind = .event then insert gsid changed
      else if old = none then changed
      else if old ≠ some gval then insert gsid changed
      else changed)
    ∅

/-- `process_group`: the state after a group, and whether a clause fires on it. -/
def processGroup (s : SearchSetup F) (state : State F) (group : List (F.Sid × String)) (gt : Int) :
    State F × Bool :=
  let after := group.foldl State.insert state
  (after, anyClauseHolds after (changedIn state group gt) s.clauses)

/-- The variables of `search_event_collect`. -/
structure EventCollector (F : File) where
  state : State F
  events : List Ev
  total : Nat
  truncated : Bool
  curT : Option Int
  group : List (F.Sid × String)

/-- The event of a group, when it fires. -/
def fired (host : Host) (s : SearchSetup F) (state : State F) (gt : Int) : Ev where
  timeTicks := gt
  timeH := fmtTime host gt s.ts
  values := showValues state s.showSids
  rowMeta := if s.verbose then some (showMeta state s.showSids) else none

/-- A completed group. -/
def eventGroup (host : Host) (s : SearchSetup F) (c : EventCollector F) (gt : Int) :
    EventCollector F :=
  let (state, fires) := processGroup s c.state c.group gt
  if fires then
    if s.limit ≠ 0 ∧ s.limit ≤ c.events.length then
      { c with state, total := c.total + 1, truncated := true }
    else
      { c with state, total := c.total + 1, events := c.events ++ [fired host s state gt] }
  else { c with state }

/-- The loop of `search_event_collect` over the stream. Changes before the window are its baseline;
a change at `t0` is inside it. -/
def eventLoop (host : Host) (s : SearchSetup F) (c : EventCollector F) :
    List (Int × F.Sid × String) → EventCollector F
  | [] => c
  | (t, change) :: rest =>
    if t < s.t0 then
      eventLoop host s { c with state := c.state.insert change } rest
    else
      match c.curT with
      | none => eventLoop host s { c with curT := some t, group := c.group ++ [change] } rest
      | some gt =>
        if t ≠ gt then
          let c := eventGroup host s c gt
          if c.truncated then c
          else eventLoop host s { c with curT := some t, group := [change] } rest
        else eventLoop host s { c with group := c.group ++ [change] } rest

/-- The final pending group. -/
def eventFinish (host : Host) (s : SearchSetup F) (c : EventCollector F) : EventCollector F :=
  match c.curT with
  | some gt => if !c.group.isEmpty && !c.truncated then eventGroup host s c gt else c
  | none => c

/-- `search_event_collect`: the events, their total and whether the limit cut them. -/
def searchEventCollect (host : Host) (w : Wave F) (H : BinaryHeap (HeapEntry.key (F := F)))
    (s : SearchSetup F) : List Ev × Nat × Bool :=
  let c := eventFinish host s
    (eventLoop host s ⟨State.empty, [], 0, false, none, []⟩ (searchStream host w H s))
  (c.events, c.total, c.truncated)

/-! ## Interval and segment mode -/

/-- One interval or segment; `rowMeta` is the verbose `meta`. -/
structure IntervalRow where
  beginTicks : Int
  endTicks : Int
  values : Option Values
  rowMeta : Option Json

/-- The variables of `search_interval_collect`. -/
structure IntervalCollector (F : File) where
  state : State F
  results : List IntervalRow
  total : Nat
  truncated : Bool
  curT : Option Int
  group : List (F.Sid × String)
  active : Bool
  segStart : Option Int
  segValues : Option Values
  segMeta : Option Json
  initChecksDone : Bool

/-- `has_show`. -/
def SearchSetup.hasShow (s : SearchSetup F) : Bool := !s.showSids.isEmpty

/-- The initial condition check, against the baseline. -/
def initCheck (s : SearchSetup F) (c : IntervalCollector F) : IntervalCollector F :=
  let active := anyClauseHolds c.state ∅ s.clauses
  let c := { c with active, segStart := if active then some s.t0 else none }
  if active && s.hasShow then
    { c with
      segValues := some (showValues c.state s.showSids)
      segMeta := if s.verbose then some (showMeta c.state s.showSids) else c.segMeta }
  else c

/-- `append_result!`. -/
def appendResult (s : SearchSetup F) (c : IntervalCollector F) (row : IntervalRow) :
    IntervalCollector F :=
  if s.limit ≠ 0 ∧ s.limit ≤ c.results.length then
    { c with total := c.total + 1, truncated := true }
  else { c with total := c.total + 1, results := c.results ++ [row] }

/-- The open row, closed at `ct`. A row has a start while it is active. -/
def openRow (s : SearchSetup F) (c : IntervalCollector F) (ct : Int) : IntervalRow where
  beginTicks := c.segStart.getD 0
  endTicks := ct
  values := if s.hasShow then c.segValues else none
  rowMeta := if s.hasShow then c.segMeta else none

/-- A completed group. Inside the loop a row over the limit ends the loop at once; for the final
group (`last`) the variables are reset all the same. -/
def intervalGroup (s : SearchSetup F) (last : Bool) (c : IntervalCollector F) (ct : Int) :
    IntervalCollector F :=
  let c := { c with state := c.group.foldl State.insert c.state }
  let condOk := anyClauseHolds c.state ∅ s.clauses
  if !s.hasShow then
    if condOk && !c.active then
      { c with active := true, segStart := some ct }
    else if !condOk && c.active then
      let c := appendResult s c (openRow s c ct)
      if c.truncated && !last then c else { c with active := false, segStart := none }
    else c
  else if !condOk then
    if c.active then
      let c := appendResult s c (openRow s c ct)
      if c.truncated && !last then c
      else { c with active := false, segStart := none, segValues := none, segMeta := none }
    else c
  else
    let newValues := showValues c.state s.showSids
    let segMeta := if s.verbose then some (showMeta c.state s.showSids) else c.segMeta
    if !c.active then
      { c with active := true, segStart := some ct, segValues := some newValues, segMeta }
    else if some newValues ≠ c.segValues then
      let c := appendResult s c (openRow s c ct)
      if c.truncated && !last then c
      else { c with segStart := some ct, segValues := some newValues, segMeta }
    else c

/-- The loop of `search_interval_collect` over the stream. The state at `t0` includes the changes at
`t0`; the condition is first checked when a later change arrives. -/
def intervalLoop (s : SearchSetup F) (c : IntervalCollector F) :
    List (Int × F.Sid × String) → IntervalCollector F
  | [] => c
  | (t, change) :: rest =>
    if t ≤ s.t0 then
      intervalLoop s { c with state := c.state.insert change } rest
    else
      let c := if c.initChecksDone then c else { initCheck s c with initChecksDone := true }
      match c.curT with
      | none => intervalLoop s { c with curT := some t, group := c.group ++ [change] } rest
      | some ct =>
        if t ≠ ct then
          let c := intervalGroup s false c ct
          if c.truncated then c
          else intervalLoop s { c with curT := some t, group := [change] } rest
        else intervalLoop s { c with group := c.group ++ [change] } rest

/-- After the loop: the check that no change triggered (unless the window is empty), the final
pending group, and the row that is still open. -/
def intervalFinish (s : SearchSetup F) (c : IntervalCollector F) : IntervalCollector F :=
  let c := if !c.initChecksDone && !c.truncated && s.t0 < s.t1 then initCheck s c else c
  let c :=
    match c.curT with
    | some ct => if !c.group.isEmpty && !c.truncated then intervalGroup s true c ct else c
    | none => c
  if c.active && !c.truncated then appendResult s c (openRow s c s.t1) else c

/-- `search_interval_collect`: the rows, their total and whether the limit cut them; `has_show` is
that of the setup. -/
def searchIntervalCollect (host : Host) (w : Wave F) (H : BinaryHeap (HeapEntry.key (F := F)))
    (s : SearchSetup F) : List IntervalRow × Nat × Bool :=
  let c := intervalFinish s (intervalLoop s
    ⟨State.empty, [], 0, false, none, [], false, none, none, none, false⟩ (searchStream host w H s))
  (c.results, c.total, c.truncated)

end RWave.Commands
