import RWave.Cli
import RWave.Format
import RWave.Json
import RWave.Select
import RWave.Misc.StableSort
import RWave.Misc.TwoRun
import RWave.Model.Collect
import RWave.Model.Snapshot

/-!
# Helpers shared by the commands

`commands/common.rs`. A command is a program on the trace cache that may fail with a message
(`Cmd`). What the file fixes is read from the `File`, so that only the trace operations touch the
cache; what comes from the machine is in `Env`.
-/

namespace RWave.Commands

open RWave.Backend RWave.Model RWave.Misc RWave.Format RWave.Filter RWave.Select RWave.Cli

/-- The machine a session runs on: Rust's number formatting, the environment variables, the file
system, and the heaps of the standard library. -/
structure Env (F : File) where
  host : Host
  mergeHeap : BinaryHeap (HeapEntry.key (F := F))
  eventHeap : BinaryHeap (DumpEvent.key (F := F))
  /-- `fs::metadata(path).len()`. -/
  fileLen : String → Option Nat
  /-- `env::var`. -/
  var : String → Option String
  /-- `env::var_os(..).is_some()`. -/
  varIsSet : String → Bool
  /-- `Path::exists`, `Path::join`, `Path::file_name` and `Path::extension`. -/
  pathExists : String → Bool
  pathJoin : String → String → String
  fileName : String → Option String
  extension : String → Option String

variable {F : File}

/-- A command: it works on the trace cache and may fail with a message. -/
abbrev Cmd (F : File) (α : Type) : Type := Prog (Wave F) String α

/-! ## The operations on the cache -/

/-- `wave.ensure_loaded(sids)`. -/
def ensureLoaded (sids : List F.Sid) : Cmd F Unit := Prog.steps fun w => ((), w.ensureLoaded sids)

/-- `wave.for_each_event(..)`, of the resident traces. -/
def forEachEvent (env : Env F) (t0 : Int) (t1 : Option Int) (sids : Option (List F.Sid)) :
    Cmd F (List (Emission F)) :=
  Prog.reads fun w => w.forEachEvent env.mergeHeap t0 t1 sids

/-- `wave.collect_events_bounded(..)`. -/
def collectEventsBounded (env : Env F) (t0 : Int) (t1 : Option Int) (sids : Option (List F.Sid))
    (limit batch : Nat) : Cmd F (Collected F) :=
  Prog.steps fun w => w.collectEventsBounded env.eventHeap t0 t1 sids limit batch

/-- `wave.for_each_signal_batched(..)`: the calls of the callback. -/
def forEachSignalBatched (sids : Option (List F.Sid)) (batch : Nat) :
    Cmd F (List (F.Sid × SignalTrace)) :=
  Prog.steps fun w => w.forEachSignalBatched sids batch

/-- `wave.snapshot(..)`, of the resident traces. -/
def snapshot (t : Int) (sids : Option (List F.Sid)) : Cmd F (ValueMap F) :=
  Prog.reads fun w => w.snapshot t sids

/-- `wave.snapshot_pair(..)`, of the resident traces. -/
def snapshotPair (ta tb : Int) (sids : Option (List F.Sid)) : Cmd F (ValueMap F × ValueMap F) :=
  Prog.reads fun w => w.snapshotPair ta tb sids

/-- `wave.snapshot_streaming(..)`. -/
def snapshotStreaming (t : Int) (sids : Option (List F.Sid)) (batch : Nat) : Cmd F (ValueMap F) :=
  Prog.steps fun w => w.snapshotStreaming t sids batch

/-- `wave.snapshot_pair_streaming(..)`. -/
def snapshotPairStreaming (ta tb : Int) (sids : Option (List F.Sid)) (batch : Nat) :
    Cmd F (ValueMap F × ValueMap F) :=
  Prog.steps fun w => w.snapshotPairStreaming ta tb sids batch

/-! ## What the file fixes -/

/-- `ts_sec`. -/
def tsSec (F : File) : F64 := F.backend.timescale.secondsPerTick

/-- `time_range`. -/
def timeRange (F : File) : Option (Int × Int) := F.backend.timeRange

/-- `sids_where`: the signals that satisfy `pred`, in ascending order. -/
def sidsWhere (F : File) (pred : SignalInfo → Bool) : List F.Sid :=
  F.allSids.filter fun sid => pred (F.signal sid)

/-- `sids.sort_by(|a, b| wave.signal(*a).path.cmp(&wave.signal(*b).path))`. -/
def sortByPath (sids : List F.Sid) : List F.Sid := sortByKey (fun sid => (F.signal sid).path) sids

/-- The elements of a `BTreeSet<Sid>` in ascending order. -/
def ascending (sids : List F.Sid) : List F.Sid := F.allSids.filter fun sid => sids.contains sid

theorem mem_ascending {sids : List F.Sid} {sid : F.Sid} : sid ∈ ascending sids ↔ sid ∈ sids := by
  simp [ascending, File.allSids]

theorem ascending_nodup (sids : List F.Sid) : (ascending sids).Nodup :=
  (List.nodup_finRange _).filter _

/-- A `Vec<String>` sorted and without repetitions, as a `BTreeSet` iterates. -/
def sortDedup (l : List String) : List String := (sortByKey id l).dedup

/-- Sorted `(path, scope)` pairs without repetitions. -/
def sortDedupPairs (l : List (String × String)) : List (String × String) :=
  (sortByKey toLex l).dedup

/-! ## Limits -/

/-- Above this many selected signals the per-signal commands decode in batches. -/
def streamingSignalThreshold : Nat := 8192

/-- Signals decoded in one batch when streaming. -/
def streamingBatch : Nat := 8192

/-- `should_stream`. -/
def shouldStream (n : Nat) : Bool := decide (streamingSignalThreshold < n)

/-- `limit_of`: 0 is unlimited. -/
def limitOf (args : Args) : Nat :=
  match args.limit with
  | some n => n.toNat
  | none => if args.verbose then 0 else defaultLimit

/-- `clip_len`. -/
def clipLen (total limit : Nat) : Nat × Bool :=
  if limit = 0 then (total, false) else (min total limit, decide (limit < total))

/-- `trunc_line`. -/
def truncLine (shown total : Nat) (noun : String) : String :=
  "\n>> TRUNCATED: showing " ++ toString shown ++ " of " ++ toString total ++ " " ++ noun ++
    ". Raise the cap with --limit N, or --limit 0 for all."

/-- `trunc_line_lb`: the total is a lower bound. -/
def truncLineLb (shown total : Nat) (noun : String) : String :=
  "\n>> TRUNCATED: showing " ++ toString shown ++ " of " ++ toString total ++ "+ " ++ noun ++
    ". Raise the cap with --limit N, or --limit 0 for all."

/-- `trunc_hint`. -/
def truncHint (trunc : Bool) (shown total : Nat) (exact : Bool) (noun : String) : Option String :=
  if !trunc then none
  else
    some ("showing " ++ toString shown ++ " of " ++ toString total ++ (if exact then "" else "+") ++
      " " ++ noun ++ "; re-run with --limit N (or --limit 0 for all) to see the rest")

/-- `count_label`. -/
def countLabel (total : Nat) (truncated : Bool) : String :=
  if truncated then toString total ++ "+" else toString total

/-! ## Selections -/

/-- `match_mode`. -/
def matchMode (args : Args) : MatchMode := if args.exact then .exact else .substring

/-- `selection_of`. -/
def selectionOf (host : Host) (args : Args) : Except String Selection :=
  Selection.parseMode host args.scope args.depth args.filter args.exclude (matchMode args)

/-- `match_selection`: none when no selection was given. -/
def matchSelection (host : Host) (F : File) (sel : Selection) : Option (List F.Sid) :=
  if sel.isAll then none else some (sidsWhere F (sel.keepsSignal host))

/-- `selected_sids`: an explicit ascending list. -/
def selectedSids (sids : Option (List F.Sid)) : List F.Sid :=
  match sids with
  | some s => ascending s
  | none => F.allSids

theorem mem_selectedSids {sids : Option (List F.Sid)} {sid : F.Sid} :
    sid ∈ selectedSids sids ↔ sid ∈ F.selected sids := by
  cases sids with
  | none => exact Iff.rfl
  | some sids => exact mem_ascending

/-- What a selection caught: the matched alias paths with the paths the rows carry. -/
structure MatchReport where
  pairs : List (String × String)
  selective : Bool
  deriving DecidableEq, Repr

/-- `match_report`. -/
def matchReport (host : Host) (sel : Selection) (sids : List F.Sid) : MatchReport :=
  if sel.isAll then ⟨[], false⟩
  else
    let pairs := sids.filterMap fun sid =>
      (sel.matchedAlias host (F.signal sid)).map fun m => (m, (F.signal sid).path)
    ⟨sortByKey toLex pairs, true⟩

namespace MatchReport

/-- How many matched paths a header lists. -/
def matchListCap : Nat := 10

variable (r : MatchReport)

def count : Nat := r.pairs.length

/-- `aliased`: the matched name differs from the name the rows carry. -/
def aliased : List (String × String) := r.pairs.filter fun (m, p) => m != p

/-- `signal` or `signals`. -/
def noun (n : Nat) : String := if n = 1 then "signal" else "signals"

/-- `header`. -/
def header : Option String :=
  let n := r.count
  if !r.selective then none
  else if n = 0 then some "Matched 0 signals"
  else if matchListCap < n then
    some ("Matched " ++ toString n ++ " " ++ noun n ++
      " (run list with the same options to see them)")
  else
    let names := r.pairs.map fun (m, p) => if m = p then m else m ++ " -> " ++ p
    some ("Matched " ++ toString n ++ " " ++ noun n ++ ": " ++ Str.join ", " names)

/-- The `matched` member. -/
def json : Json :=
  if !r.selective then .null
  else
    ((Obj.new.push "count" (.int r.count)).push "paths"
      (.array ((r.pairs.take matchListCap).map fun (m, _) => .str m))).build

/-- `alias_note`. -/
def aliasNote : Option String :=
  if r.aliased.isEmpty then none
  else
    let shown := (r.aliased.take 3).map fun (m, p) => m ++ " is " ++ p
    let n := r.aliased.length
    let more :=
      if shown.length < n then ", and " ++ toString (n - shown.length) ++ " more" else ""
    some (toString n ++ " " ++ noun n ++
      " matched through an alias; rows carry the canonical path (" ++ Str.join "; " shown ++ more ++
      ")")

end MatchReport

/-! ## Hints -/

/-- The `hint` member: the sentences that explain a result, `null` when there are none. -/
def attachHints (hints : List String) (obj : Obj) : Obj :=
  obj.push "hint" (if hints.isEmpty then .null else .str (Str.join "; " hints))

def noSignals : String := "the file declares no signals; its hierarchy is empty"

def selectionEmpty : String :=
  "the selection matched no signals; widen --filter/--scope, or run list to see what is there"

def neverDumpedOne : String :=
  "the selected signal carries no recorded data anywhere in the file: it is in " ++
    "the hierarchy but was never written to the dump, so no window will show it"

def neverDumpedMany : String :=
  "carry no recorded data anywhere in the file: they are in the hierarchy but " ++
    "were never written to the dump, so no window will show them"

/-- Above this many selected signals the "never dumped" check is skipped. -/
def undumpedScanCap : Nat := streamingBatch

/-- `undumped_count`: how many of `sids` have no recorded samples; none when there are too many. -/
def undumpedCount (sids : List F.Sid) : Cmd F (Option Nat) :=
  if undumpedScanCap < sids.length then pure none
  else do
    let visits ← forEachSignalBatched (some sids) streamingBatch
    return some (visits.countP fun visit => visit.2.isEmpty)

/-- The sentence for a window past the end of the trace. -/
def pastTheEnd (env : Env F) (t0 : Int) : Option String :=
  match timeRange F with
  | some (_, mx) =>
    if mx < t0 then
      some ("the window begins at " ++ fmtTime env.host t0 (tsSec F) ++ ", after the last event at " ++
        fmtTime env.host mx (tsSec F))
    else none
  | none => none

/-- What is said when not all selected signals are missing from the dump. -/
def quietReason (undumped : Option Nat) (selected : Nat) : String :=
  match undumped with
  | some n =>
    if n = selected ∧ selected ≠ 0 then
      if selected = 1 then neverDumpedOne
      else "the " ++ toString selected ++ " selected signals " ++ neverDumpedMany
    else if 0 < n then
      "no value changes in the window; " ++ toString n ++ " of the " ++ toString selected ++
        " selected signals carry no recorded data at all"
    else "no value changes in the window"
  | none => "no value changes in the window"

/-- `empty_window_reason`. -/
def emptyWindowReason (env : Env F) (selected : List F.Sid) (selective : Bool) (t0 : Int) :
    Cmd F String :=
  if selected.isEmpty && selective then pure selectionEmpty
  else
    match pastTheEnd env t0 with
    | some reason => pure reason
    | none => do return quietReason (← undumpedCount selected) selected.length

/-! ## Values, times and counts -/

/-- `fmt_value`. -/
def fmtValue (host : Host) (v : RawValue) (kind : ValueKind) (width : Nat) : String :=
  match v with
  | .event => "triggered"
  | .real _ => fmtVal (v.rawStr host) .real width
  | .str _ => fmtVal (v.rawStr host) .str width
  | .bits _ => fmtVal (v.rawStr host) kind width

/-- `ljust`. -/
def ljust (s : String) (width : Nat) : String := s ++ Str.replicate (width - s.toList.length) ' '

/-- `rjust`. -/
def rjust (s : String) (width : Nat) : String := Str.replicate (width - s.toList.length) ' ' ++ s

/-- `window_json`. -/
def windowJson (host : Host) (t0 : Int) (t1 : Option Int) (ts : F64) : Json :=
  ((((Obj.new.push "begin_ticks" (.int t0)).push "begin_h" (.str (fmtTime host t0 ts))).push
    "end_ticks" (Json.optInt t1)).push "end_h"
      (Json.optStr (t1.map fun t => fmtTime host t ts))).build

/-- `push_time`. -/
def pushTime (host : Host) (obj : Obj) (name : String) (ticks : Int) (ts : F64) : Obj :=
  (obj.push (name ++ "_ticks") (.int ticks)).push (name ++ "_h") (.str (fmtTime host ticks ts))

/-- `push_opt_time`. -/
def pushOptTime (host : Host) (obj : Obj) (name : String) (ticks : Option Int) (ts : F64) : Obj :=
  (obj.push (name ++ "_ticks") (Json.optInt ticks)).push (name ++ "_h")
    (Json.optStr (ticks.map fun t => fmtTime host t ts))

/-- `push_counts`. -/
def pushCounts (obj : Obj) (shown total : Nat) (exact trunc : Bool) : Obj :=
  (((obj.push "shown" (.int shown)).push "truncated" (.bool trunc)).push "total" (.int total)).push
    "total_is_exact" (.bool exact)

/-- `window_line`. -/
def windowLine (host : Host) (t0 : Int) (t1 : Option Int) (ts : F64) : String :=
  "Window: " ++ fmtTime host t0 ts ++ ".." ++
    ((t1.map fun t => fmtTime host t ts).getD "(end)")

/-- The members `width` and `type` of a verbose row. -/
def pushInfo (verbose : Bool) (obj : Obj) (width : Nat) (typeStr : String) : Obj :=
  if verbose then (obj.push "width" (.int width)).push "type" (.str typeStr) else obj

/-! ## Names and windows -/

/-- `resolve_signal_path`: one user-supplied name as `(canonical path, scope)`. -/
def resolveSignalPath (host : Host) (F : File) (pattern role : String) :
    Except String (String × String) := do
  let pat := Str.trim pattern
  let pl := host.toLowercase pat
  let pairs := F.allSids.flatMap fun sid => (F.signal sid).aliasPairs
  match sortDedupPairs (pairs.filter fun (path, _) => host.toLowercase path == pl) with
  | [hit] => return hit
  | _ =>
    let filters ← (Filters.parse host [pat]).mapError fun e => role ++ ": " ++ e
    match sortDedupPairs (pairs.filter fun (path, scope) =>
      filters.matchesPathLeaf host path (leafOf path scope)) with
    | [] => throw (role ++ " matches no signals: " ++ pyrepr pat)
    | [hit] => return hit
    | hits =>
      throw (role ++ " " ++ pyrepr pat ++ " matches " ++ toString hits.length ++
        " signals; give the full hierarchical path. Examples: " ++
        Str.join ", " ((hits.take 5).map Prod.fst))

/-- The time of an optional option. -/
def optTime (host : Host) (ts : F64) : Option String → Except String (Option Int)
  | some s => return some (← parseTime host s ts)
  | none => return none

/-- `parse_window`. -/
def parseWindow (host : Host) (args : Args) (ts : F64) : Except String (Int × Option Int) := do
  let t0 := (← optTime host ts args.beginAt).getD 0
  let t1 ← optTime host ts args.endAt
  if t1.any fun t1 => decide (t1 < t0) then
    throw "end time must be >= begin time"
  return (t0, t1)

end RWave.Commands
