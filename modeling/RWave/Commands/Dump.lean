import RWave.Commands.Common

/-!
# `dump`

`commands/dump.rs`: the value changes in a window. A large selection goes through the
memory-bounded collector, a small one is loaded and replayed.
-/

namespace RWave.Commands

open RWave.Backend RWave.Model RWave.Misc RWave.Format RWave.Filter RWave.Select RWave.Cli

variable {F : File}

/-- One row with its value formatted. -/
structure DumpRow where
  tick : Int
  path : String
  value : String
  width : Nat
  typeStr : String
  deriving DecidableEq, Repr

/-- Everything `dump` computed. -/
structure DumpData (F : File) where
  rows : List DumpRow
  truncated : Bool
  t0 : Int
  t1 : Option Int
  selected : List F.Sid
  matched : MatchReport

/-- The row of a change. -/
def dumpRow (host : Host) (tick : Int) (sid : F.Sid) (value : RawValue) : DumpRow :=
  let info := F.signal sid
  ⟨tick, info.path, fmtValue host value info.kind info.width, info.width, info.typeStr⟩

/-- The rows of a selection, and whether the limit cut them. -/
def dumpRows (env : Env F) (t0 : Int) (t1 : Option Int) (sel : Option (List F.Sid))
    (selected : List F.Sid) (limit : Nat) : Cmd F (List DumpRow × Bool) :=
  if shouldStream selected.length then do
    let c ← collectEventsBounded env t0 t1 sel limit streamingBatch
    return (c.events.map fun e => dumpRow env.host e.tick e.sid e.value, c.truncated)
  else do
    ensureLoaded selected
    let events ← forEachEvent env t0 t1 sel
    let shown := if limit = 0 then events else events.take limit
    return (shown.map fun (t, sid, v) => dumpRow env.host t sid v,
      decide (limit ≠ 0) && decide (limit < events.length))

/-- `dump_collect`. -/
def dumpCollect (env : Env F) (args : Args) : Cmd F (DumpData F) := do
  let (t0, t1) ← Prog.lift (parseWindow env.host args (tsSec F))
  let selection ← Prog.lift (selectionOf env.host args)
  let sel := matchSelection env.host F selection
  let selected := selectedSids sel
  let matched := matchReport env.host selection selected
  let (rows, truncated) ← dumpRows env t0 t1 sel selected (limitOf args)
  return { rows, truncated, t0, t1, selected, matched }

/-- Why there are no rows, when there are none. -/
def dumpReason (env : Env F) (d : DumpData F) : Cmd F (Option String) :=
  if d.rows.isEmpty then do
    return some (← emptyWindowReason env d.selected d.matched.selective d.t0)
  else pure none

/-- `compute_dump`. The `time_h` of a row is that of its tick. -/
def computeDump (env : Env F) (args : Args) : Cmd F Json := do
  let host := env.host
  let ts := tsSec F
  let d ← dumpCollect env args
  let shown := d.rows.length
  let events := d.rows.map fun r =>
    (pushInfo args.verbose
      ((((Obj.new.push "time_ticks" (.int r.tick)).push "time_h" (.str (fmtTime host r.tick ts))).push
        "path" (.str r.path)).push "value" (.str r.value)) r.width r.typeStr).build
  let total := if d.truncated then shown + 1 else shown
  let obj := ((Obj.new.push "window" (windowJson host d.t0 d.t1 ts)).push "matched"
    d.matched.json).push "selected" (.int d.selected.length)
  let obj := pushCounts obj shown total (!d.truncated) d.truncated
  let hints := (truncHint d.truncated shown total false "events").toList ++
    d.matched.aliasNote.toList
  let reason ← dumpReason env d
  return ((attachHints (hints ++ reason.toList) obj).push "events" (.array events)).build

/-- The lines of the rows: a header at each new tick. -/
def dumpLines (host : Host) (ts : F64) (verbose : Bool) (cur : Option Int) :
    List DumpRow → List String
  | [] => []
  | r :: rest =>
    let line :=
      if verbose then
        "  " ++ ljust r.path 55 ++ " w=" ++ toString r.width ++ " " ++ r.typeStr ++ " = " ++ r.value
      else "  " ++ ljust r.path 55 ++ " = " ++ r.value
    let lines := line :: dumpLines host ts verbose (some r.tick) rest
    if cur = some r.tick then lines else ("T=" ++ fmtTime host r.tick ts) :: lines

/-- `text_dump`. -/
def textDump (env : Env F) (args : Args) : Cmd F (List String) := do
  let host := env.host
  let ts := tsSec F
  let d ← dumpCollect env args
  let shown := d.rows.length
  let head := windowLine host d.t0 d.t1 ts :: d.matched.header.toList ++
    d.matched.aliasNote.toList.map fun note => "Note: " ++ note
  match ← dumpReason env d with
  | some reason => return head ++ ["(no events: " ++ reason ++ ")"]
  | none =>
    return head ++ dumpLines host ts args.verbose none d.rows ++
      if d.truncated then [truncLineLb shown (shown + 1) "events"] else []

end RWave.Commands
