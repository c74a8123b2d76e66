import RWave.Commands.Common

/-!
# `info` and `list`

`commands/info.rs` and `commands/list.rs`: the file's metadata, and the alias paths of the selected
signals. Neither looks at a trace.
-/

namespace RWave.Commands

open RWave.Backend RWave.Model RWave.Misc RWave.Format RWave.Filter RWave.Select RWave.Cli

variable {F : File}

/-! ## `info` -/

/-- The metadata both renderers of `info` work from. -/
structure InfoData where
  path : String
  sizeBytes : Int
  timescale : String
  date : String
  version : String
  comments : List String
  signalCount : Nat
  referenceCount : Nat
  typePairs : List (String × Nat)
  tMin : Option Int
  tMax : Option Int
  duration : Option Int
  timeMinH : Option String
  timeMaxH : Option String
  durationH : Option String
  scopes : List String

/-- `Wave::scopes`: the parent scopes of all aliases, sorted and without repetitions. -/
def scopes (F : File) : List String :=
  sortDedup (F.signals.flatMap fun s => s.aliasScopes.filter fun sc => !Str.isEmpty sc)

/-- `info_data`. -/
def infoData (env : Env F) : InfoData :=
  let host := env.host
  let ts := tsSec F
  let tMin := (timeRange F).map Prod.fst
  let tMax := (timeRange F).map Prod.snd
  let duration := (timeRange F).map fun (a, b) => b - a
  { path := F.backend.path
    sizeBytes := (env.fileLen F.backend.path).getD 0
    timescale := F.backend.timescale.display
    date := F.backend.date
    version := F.backend.version
    comments := F.backend.comments
    signalCount := F.signals.length
    referenceCount := F.rawVarCount
    typePairs := F.typeCounts
    tMin
    tMax
    duration
    timeMinH := tMin.map fun t => fmtTime host t ts
    timeMaxH := tMax.map fun t => fmtTime host t ts
    durationH := duration.map fun d => fmtTime host d ts
    scopes := scopes F }

/-- `compute_info`. -/
def computeInfo (env : Env F) (_args : Args) : Cmd F Json :=
  let d := infoData env
  let members : List (String × Json) :=
    [("file", .str d.path), ("size_bytes", .int d.sizeBytes), ("timescale", .str d.timescale),
      ("date", .str d.date), ("version", .str d.version), ("comments", .array (d.comments.map .str)),
      ("signal_count", .int d.signalCount), ("reference_count", .int d.referenceCount),
      ("synthesized_buses", .int 0),
      ("var_types", .object (d.typePairs.map fun (k, v) => (k, .int v))),
      ("time_min_ticks", Json.optInt d.tMin), ("time_min_h", Json.optStr d.timeMinH),
      ("time_max_ticks", Json.optInt d.tMax), ("time_max_h", Json.optStr d.timeMaxH),
      ("duration_ticks", Json.optInt d.duration), ("duration_h", Json.optStr d.durationH),
      ("scopes", .array (d.scopes.map .str))]
  pure (Obj.build ⟨members⟩)

/-- The digits of `thousands`, most significant first: a comma before every third from the end. -/
def groupDigits : List Char → List Char
  | [] => []
  | c :: cs => c :: if !cs.isEmpty && cs.length % 3 == 0 then ',' :: groupDigits cs else groupDigits cs

/-- `thousands`. -/
def thousands (n : Int) : String :=
  let out := String.ofList (groupDigits (toString n.natAbs).toList)
  if n < 0 then "-" ++ out else out

/-- `text_info`. -/
def textInfo (env : Env F) (args : Args) : Cmd F (List String) :=
  let d := infoData env
  let line (present : Bool) (s : String) : List String := if present then [s] else []
  pure <|
    ["File      : " ++ d.path, "Size      : " ++ thousands d.sizeBytes ++ " bytes"] ++
    line (!Str.isEmpty d.date) ("Date      : " ++ d.date) ++
    line (!Str.isEmpty d.version) ("Tool      : " ++ d.version) ++
    ["Timescale : " ++ d.timescale,
      if d.signalCount = d.referenceCount then "Signals   : " ++ toString d.signalCount
      else "Signals   : " ++ toString d.signalCount ++ " unique (" ++ toString d.referenceCount ++
        " $var refs via aliases)",
      "Types     : " ++ Str.join ", " (d.typePairs.map fun (k, v) => k ++ "=" ++ toString v),
      "Time      : " ++ d.timeMinH.getD "None" ++ " ~ " ++ d.timeMaxH.getD "None" ++ " (" ++
        d.durationH.getD "None" ++ ")"] ++
    d.scopes.map (fun s => "  scope: " ++ s) ++
    if !d.comments.isEmpty && args.verbose then
      "Comments  :" :: d.comments.map fun c => "  - " ++ c
    else []

/-! ## `list` -/

/-- One row: an alias path with its signal's width, type and id. -/
structure ListEntry where
  path : String
  width : Nat
  typeStr : String
  sid : Nat
  deriving DecidableEq, Repr

/-- The rows of one signal: the aliases the selection does not hide. -/
def signalEntries (host : Host) (sel : Selection) (sid : F.Sid) : List ListEntry :=
  let info := F.signal sid
  if !sel.isAll && !sel.keepsSignal host info then []
  else
    (info.aliasPairs.filter fun (path, scope) => sel.isAll || sel.displaysAlias host path scope).map
      fun (path, _) => ⟨path, info.width, info.typeStr, sid⟩

/-- `list_entries`: the rows, how many are shown, whether that clips them, and whether a selection
was given. -/
def listEntries (host : Host) (F : File) (args : Args) :
    Except String (List ListEntry × Nat × Bool × Bool) := do
  let limit := limitOf args
  let sel ← selectionOf host args
  let entries := sortByKey ListEntry.path (F.allSids.flatMap (signalEntries host sel))
  let (shown, trunc) := clipLen entries.length limit
  return (entries, shown, trunc, !sel.isAll)

/-- `compute_list`. -/
def computeList (env : Env F) (args : Args) : Cmd F Json := do
  let (entries, shown, trunc, selective) ← Prog.lift (listEntries env.host F args)
  let total := entries.length
  let signals := (entries.take shown).map fun e =>
    let o := ((Obj.new.push "path" (.str e.path)).push "width" (.int e.width)).push "type"
      (.str e.typeStr)
    (if args.verbose then o.push "id" (.int e.sid) else o).build
  let hints := (truncHint trunc shown total true "signals").toList ++
    if total = 0 then [if selective then selectionEmpty else noSignals] else []
  let obj := attachHints hints (pushCounts Obj.new shown total true trunc)
  return (obj.push "signals" (.array signals)).build

/-- `text_list`. -/
def textList (env : Env F) (args : Args) : Cmd F (List String) := do
  let (entries, shown, trunc, selective) ← Prog.lift (listEntries env.host F args)
  let total := entries.length
  return ["Matched: " ++ toString total ++ "/" ++ toString F.signals.length] ++
    (if total = 0 then
      [if selective then "no match; try a broader filter or run without --filter to browse"
        else noSignals]
      else []) ++
    ((entries.take shown).map fun e =>
      "  " ++ ljust e.path 60 ++ " " ++ rjust (toString e.width) 5 ++ "  " ++ e.typeStr) ++
    if trunc then [truncLine shown total "signals"] else []

end RWave.Commands
