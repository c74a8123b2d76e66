import RWave.Commands.Snapshot

/-!
# `trace`

`commands/trace.rs` and the parts of `backend/design.rs` it calls: who drives a signal or reads it,
as the design database of the file's backend answers, with the values at an instant when asked for.
-/

namespace RWave.Commands

open RWave.Backend RWave.Model RWave.Misc RWave.Format RWave.Filter RWave.Select RWave.Cli

variable {F : File}

/-! ## The design database -/

/-- Why a design database could not be located. -/
inductive KdbMiss where
  | notRecorded
  | recordedGone (path : String)
  | explicitMissing (path : String)
  | notElaborated (path : String)
  deriving DecidableEq, Repr

/-- `KdbMiss::into_error`. -/
def KdbMiss.intoError : KdbMiss → String
  | .notRecorded =>
    "this waveform records no design library. Pass --kdb <simv.daidir>, or build one with vcs -kdb."
  | .recordedGone p =>
    "the design library recorded in this waveform is not accessible: " ++ p ++
      ". Pass --kdb <simv.daidir>."
  | .explicitMissing p => "--kdb " ++ p ++ " holds no kdb.elab++."
  | .notElaborated p =>
    p ++ " is not elaborated: it holds work.lib++ but no kdb.elab++. Run elabcom -elab kdb."

/-- `normalize_kdb`. -/
def normalizeKdb (env : Env F) (p : String) : Except KdbMiss String :=
  let elab_ := env.pathJoin p "kdb.elab++"
  if env.fileName p = some "kdb.elab++" ∧ env.pathExists p then .ok p
  else if env.pathExists elab_ then .ok elab_
  else if env.pathExists (env.pathJoin p "work.lib++") then .error (.notElaborated p)
  else .error .notRecorded

/-- The caller's variant for a path without a database. -/
def KdbMiss.orElse (miss other : KdbMiss) : KdbMiss := if miss = .notRecorded then other else miss

/-- `probe_kdb`. -/
def probeKdb (env : Env F) (cliKdb recorded : Option String) : Except KdbMiss String :=
  match (cliKdb.map Str.trim).filter fun s => !Str.isEmpty s with
  | some k => (normalizeKdb env k).mapError fun e => e.orElse (.explicitMissing k)
  | none =>
    match recorded with
    | none => .error .notRecorded
    | some r => (normalizeKdb env r).mapError fun e => e.orElse (.recordedGone r)

/-! ## The query -/

/-- Everything both renderers need. -/
structure TraceData where
  signal : String
  dir : Direction
  kdb : String
  status : TraceStatus
  hops : List Hop
  total : Nat
  shown : Nat
  truncated : Bool
  /-- `--at` in ticks and as text. -/
  at_ : Option (Int × String)
  /-- Endpoint paths with their values at `--at`. -/
  values : List (String × String)
  unresolvedInWave : Nat

/-- `unsupported_message`. -/
def unsupportedMessage (env : Env F) : String :=
  let tag := F.backend.fileFormat.tag
  let fmt :=
    if tag = "unknown" then
      ((env.extension F.backend.path).map Str.toAsciiLowercase).getD tag
    else tag
  "trace requires an FSDB opened through the built-in Verdi NPI backend; '" ++ fmt ++
    "' has no design data." ++
    if fmt = "fsdb" ∧ env.varIsSet "RWAVE_PLUGIN_FSDB" then
      "\nUnset RWAVE_PLUGIN_FSDB, which replaces that backend."
    else ""

def traceDisabled : String :=
  "trace is switched off by RWAVE_TRACE_EN; unset it (or set it to 1) to " ++
    "re-enable. It answers only for an .fsdb opened through the built-in Verdi " ++
    "NPI backend."

/-- `enabled`: on unless `$RWAVE_TRACE_EN` says otherwise. -/
def enabled (env : Env F) : Bool :=
  match env.var "RWAVE_TRACE_EN" with
  | some v =>
    let off : List String := ["0", "off", "no", "false"]
    !off.contains (Str.toAsciiLowercase (Str.trim v))
  | none => true

/-- `endpoint_index`: the signal of a wanted name. An exact alias wins; a name that differs in case
only counts when it names one signal. -/
def endpointIndex (host : Host) (F : File) (name : String) : Option F.Sid :=
  let named (p : String → Bool) : List F.Sid :=
    F.allSids.filter fun sid => (F.signal sid).aliasPairs.any fun (path, _) => p path
  match named fun path => path == name with
  | sid :: _ => some sid
  | [] =>
    match named fun path => host.toLowercase path == host.toLowercase name with
    | [sid] => some sid
    | _ => none

/-- The state at `t` of the endpoints. -/
def endpointState (t : Int) (sids : List F.Sid) : Cmd F (ValueMap F) :=
  if F.backend.supportsWindowed then snapshotStreaming t (some sids) streamingBatch
  else do
    ensureLoaded sids
    snapshot t (some sids)

/-- The values of the endpoints at `t`, and how many are not in the waveform. -/
def endpointValues (env : Env F) (t : Int) (hops : List Hop) :
    Cmd F (List (String × String) × Nat) := do
  let wanted := (hops.flatMap Hop.signals).reverse.dedup.reverse
  let pairs := wanted.filterMap fun name =>
    (endpointIndex env.host F name).map fun sid => (name, sid)
  let state ← endpointState t (pairs.map Prod.snd)
  let values := pairs.filterMap fun (name, sid) =>
    let info := F.signal sid
    (state sid).map fun v => (name, fmtValue env.host v info.kind info.width)
  return (values, wanted.length - pairs.length)

/-- The values at `--at`, when it was given. -/
def atValues (env : Env F) (atTicks : Option Int) (hops : List Hop) :
    Cmd F (List (String × String) × Nat) :=
  match atTicks with
  | none => pure ([], 0)
  | some t => endpointValues env t hops

/-- What `trace` asks the design, and the answer: the signal, the database and the outcome. -/
def queryDesign (env : Env F) (args : Args) (target : String) (dir : Direction) :
    Except String (String × String × TraceOutcome) :=
  match F.backend.designQuery with
  | none => .error (unsupportedMessage env)
  | some dq => do
    let (path, _) ← resolveSignalPath env.host F target "signal"
    let kdb ← (probeKdb env args.kdb dq.recordedDesignDir).mapError KdbMiss.intoError
    dq.ensureDesign kdb args.top
    return (path, kdb, ← dq.trace kdb args.top path dir args.control)

/-- The target and the parsed `--at` of a `trace` line, when the command is switched on. -/
def traceArgs (env : Env F) (args : Args) : Except String (String × Option Int) :=
  if !enabled env then .error traceDisabled
  else
    match (args.target.map Str.trim).filter fun s => !Str.isEmpty s with
    | none => .error "the following arguments are required: <signal> (rwave trace <file> <signal>)"
    | some target => do
      let at_ ← optTime env.host (tsSec F) (args.at_.filter fun s => !Str.isEmpty (Str.trim s))
      return (target, at_)

/-- `trace`'s `build`. -/
def traceData (env : Env F) (args : Args) : Cmd F TraceData := do
  let (target, atTicks) ← Prog.lift (traceArgs env args)
  let dir := if args.load then Direction.load else .driver
  let (path, kdb, outcome) ← Prog.lift (queryDesign env args target dir)
  let total := outcome.hops.length
  let (shown, truncated) := clipLen total (limitOf args)
  let hops := outcome.hops.take shown
  let (values, unresolved) ← atValues env atTicks hops
  return {
    signal := path
    dir
    kdb
    status := outcome.status
    hops
    total
    shown
    truncated
    at_ := atTicks.map fun t => (t, fmtTime env.host t (tsSec F))
    values
    unresolvedInWave := unresolved }

/-! ## Output -/

/-- One endpoint of `compute_trace`. -/
def hopJson (d : TraceData) (h : Hop) : Json :=
  let signals := h.signals.map fun s =>
    let o := Obj.new.push "path" (.str s)
    (if d.at_.isSome then o.push "value" (Json.optStr (d.values.lookup s)) else o).build
  Obj.build ⟨[("group", .int h.group), ("kind", .str h.kind.tag), ("npi_type", .str h.npiType),
    ("statement", .str h.statement), ("scope", .str h.scope), ("file", Json.optStr h.file),
    ("line", Json.optInt (h.line.map Int.ofNat)), ("boundary", .bool h.boundary),
    ("signals", .array signals)]⟩

/-- `compute_trace`. -/
def computeTrace (env : Env F) (args : Args) : Cmd F Json := do
  let d ← traceData env args
  let obj : Obj :=
    ⟨[("signal", .str d.signal), ("dir", .str d.dir.tag), ("mode", .str "static"),
      ("kdb", .str d.kdb), ("status", .str d.status.tag),
      ("at_ticks", Json.optInt (d.at_.map Prod.fst)), ("at_h", Json.optStr (d.at_.map Prod.snd)),
      ("unresolved_in_wave", if d.at_.isSome then .int d.unresolvedInWave else .null)]⟩
  let obj := pushCounts obj d.shown d.total true d.truncated
  let noun := if d.dir = .driver then "drivers" else "loads"
  let obj := attachHints (truncHint d.truncated d.shown d.total true noun).toList obj
  return (obj.push "endpoints" (.array (d.hops.map (hopJson d)))).build

/-- `loc_of`: `file:line`, without the directories. -/
def locOf (h : Hop) : String :=
  match h.file, h.line with
  | some f, some l =>
    let base := ((Str.rsplitOnce (fun c => c == '/' || c == '\\') f).map Prod.snd).getD f
    base ++ ":" ++ toString l
  | _, _ => ""

/-- The lines of one endpoint. -/
def hopLines (d : TraceData) (detail : Bool) (kindW locW : Nat) (h : Hop) : List String :=
  let rel := if d.dir = .driver then "from" else "to"
  let content :=
    match detail, h.kind, h.signals.head? with
    | false, .port, some s => "-> " ++ s
    | _, _, _ => h.statement
  ("  " ++ ljust h.kind.tag kindW ++ "  " ++ ljust (locOf h) locW ++ "  " ++ content) ::
    if detail then
      h.signals.map fun s =>
        "  " ++ ljust "" (kindW + locW + 4) ++ rel ++ ": " ++ s ++
          ((d.values.lookup s).map fun v => " = " ++ v).getD ""
    else []

/-- What follows a list whose status is not `resolved`. -/
def statusLines : TraceStatus → List String
  | .resolved => []
  | .notFound => [""]
  | .boundaryOnly => ["", "driver is outside the traced hierarchy"]

/-- `text_trace`. -/
def textTrace (env : Env F) (args : Args) : Cmd F (List String) := do
  let d ← traceData env args
  let noun := if d.dir = .driver then "driver" else "load"
  let head := d.signal ++ " — " ++ toString d.total ++ " " ++ noun ++
    if d.total = 1 then "" else "s"
  let kdb := if args.verbose then ["\nkdb: " ++ d.kdb] else []
  if d.hops.isEmpty then
    return head :: kdb
  else
    let widest (ns : List Nat) : Nat := ns.foldl max 0
    let kindW := widest (d.hops.map fun h => Str.len h.kind.tag)
    let locW := widest (d.hops.map fun h => (locOf h).toList.length)
    let detail := d.dir == .driver || d.at_.isSome || args.verbose
    return [head, ""] ++ d.hops.flatMap (hopLines d detail kindW locW) ++
      statusLines d.status ++
      (if 0 < d.unresolvedInWave then
        ["\n" ++ toString d.unresolvedInWave ++ " endpoint(s) not dumped in this waveform"]
        else []) ++
      kdb ++ if d.truncated then [truncLine d.shown d.total (noun ++ "s")] else []

end RWave.Commands
