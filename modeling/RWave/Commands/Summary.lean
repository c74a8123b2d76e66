import RWave.Commands.Common

/-!
# `summary`

`commands/summary.rs`: activity statistics of each selected signal over a window, collected from its
trace in one pass.
-/

namespace RWave.Commands

open RWave.Backend RWave.Model RWave.Misc RWave.Format RWave.Filter RWave.Select RWave.Cli

variable {F : File}

/-- One row of the output. -/
structure SummaryRow where
  kind : String
  path : String
  value : Option String
  changes : Nat
  riseCount : Option Nat
  fallCount : Option Nat
  init : String
  last : String
  firstAt : Option Int
  lastAt : Option Int
  unique : Nat
  unknown : Bool
  width : Nat
  typeStr : String
  deriving DecidableEq, Repr

structure SummaryCounts where
  selected : Nat
  defined : Nat
  undefined : Nat
  active : Nat
  static_ : Nat
  unknown : Nat
  deriving DecidableEq, Repr

/-! ## The statistics of one trace -/

/-- `bits_view`: the bit string of a logic vector. -/
def bitsView : RawValue → Option String
  | .bits s => some s
  | _ => none

/-- `uniq_key`. -/
def uniqKey (host : Host) : RawValue → String
  | .bits s => s
  | .str s => s
  | .event => "\x01event"
  | .real r => host.display r

/-- The variables of the loop over the changes in the window. -/
structure Scan where
  changes : Nat
  firstAt : Option Int
  lastAt : Option Int
  uniq : List String
  rise : Nat
  fall : Nat
  prev : Option String
  unknown : Bool
  deriving DecidableEq, Repr

/-- One turn of the loop. -/
def Scan.step (host : Host) (s : Scan) (c : Change) : Scan :=
  let cur := bitsView c.value
  { changes := s.changes + 1
    firstAt := s.firstAt.or (some c.tick)
    lastAt := some c.tick
    uniq := s.uniq ++ [uniqKey host c.value]
    rise := if s.prev = some "0" ∧ cur = some "1" then s.rise + 1 else s.rise
    fall := if s.prev = some "1" ∧ cur = some "0" then s.fall + 1 else s.fall
    prev := cur
    unknown := s.unknown || cur.any bitsHaveUnknown }

/-- The statistics of a signal that is defined in the window. -/
structure Stats (F : File) where
  sid : F.Sid
  changes : Nat
  firstAt : Option Int
  lastAt : Option Int
  initial : Option String
  last : Option String
  uniqueCount : Nat
  riseCount : Nat
  fallCount : Nat
  unknown : Bool

/-- `last_at_or_before_local`. -/
abbrev lastAtOrBeforeLocal : List Int → Int → Option Nat := lastAtOrBefore

/-- `first_after_local`. -/
abbrev firstAfterLocal : List Int → Int → Nat := upperBound

/-- `upper_bound_local`. -/
abbrev upperBoundLocal : List Int → Int → Nat := upperBound

/-- The statistics of one trace; none for a signal without a value in the window. -/
def traceStats (host : Host) (t0 : Int) (t1 : Option Int) (sid : F.Sid) (tr : SignalTrace) :
    Option (Stats F) :=
  let initBoundary := if t0 = 0 then 0 else t0 - 1
  let basePos := lastAtOrBeforeLocal tr.times initBoundary
  let start :=
    match basePos with
    | some p => p + 1
    | none => firstAfterLocal tr.times initBoundary
  let upper :=
    match t1 with
    | some t1 => upperBoundLocal tr.times t1
    | none => tr.length
  let base := basePos.bind fun p => tr[p]?
  let prev := base.bind fun c => bitsView c.value
  let scan := ((tr.take upper).drop start).foldl (Scan.step host)
    { changes := 0
      firstAt := none
      lastAt := none
      uniq := base.toList.map fun c => uniqKey host c.value
      rise := 0
      fall := 0
      prev
      unknown := prev.any bitsHaveUnknown }
  let initial := base.map fun c => c.value.rawStr host
  let last :=
    if start < upper then tr[upper - 1]?.map fun c => c.value.rawStr host else initial
  if basePos.isSome || decide (0 < scan.changes) then
    some
      { sid
        changes := scan.changes
        firstAt := scan.firstAt
        lastAt := scan.lastAt
        initial
        last
        uniqueCount := scan.uniq.dedup.length
        riseCount := scan.rise
        fallCount := scan.fall
        unknown := scan.unknown }
  else none

/-! ## The rows -/

/-- The displayed value of an optional raw string. -/
def shownOr (raw : Option String) (info : SignalInfo) : String :=
  match raw with
  | some v => fmtVal v info.kind info.width
  | none => "(undef)"

/-- The row of a signal's statistics. -/
def statsRow (s : Stats F) : SummaryRow :=
  let info := F.signal s.sid
  let scalar := info.width = 1
  { kind := if 0 < s.changes then "active" else "static"
    path := info.path
    value := if 0 < s.changes then none else s.last.map fun v => fmtVal v info.kind info.width
    changes := s.changes
    riseCount := if scalar then some s.riseCount else none
    fallCount := if scalar then some s.fallCount else none
    init := shownOr s.initial info
    last := shownOr s.last info
    firstAt := s.firstAt
    lastAt := s.lastAt
    unique := s.uniqueCount
    unknown := s.unknown
    width := info.width
    typeStr := info.typeStr }

/-- `summary_rows`: the rows, the undefined signals and the counts. -/
def summaryRows (env : Env F) (t0 : Int) (t1 : Option Int) (selected : List F.Sid) :
    Cmd F (List SummaryRow × List F.Sid × SummaryCounts) := do
  let batch := if shouldStream selected.length then streamingBatch else max selected.length 1
  let visits ← forEachSignalBatched (some selected) batch
  let stats := visits.filterMap fun (sid, tr) => traceStats env.host t0 t1 sid tr
  let undefined := (visits.filter fun (sid, tr) => (traceStats env.host t0 t1 sid tr).isNone).map
    Prod.fst
  let rows := sortByKey SummaryRow.path (stats.map statsRow)
  let undefined := sortByPath undefined
  let counts :=
    { selected := selected.length
      defined := rows.length
      undefined := undefined.length
      active := rows.countP fun r => r.kind == "active"
      static_ := rows.countP fun r => r.kind == "static"
      unknown := rows.countP fun r => r.unknown }
  return (rows, undefined, counts)

/-- `build_undef_rows`. -/
def buildUndefRows (undefSids : List F.Sid) : List SummaryRow :=
  undefSids.map fun sid =>
    let info := F.signal sid
    let zero := if info.width = 1 then some 0 else none
    { kind := "undefined"
      path := info.path
      value := none
      changes := 0
      riseCount := zero
      fallCount := zero
      init := "(undef)"
      last := "(undef)"
      firstAt := none
      lastAt := none
      unique := 0
      unknown := false
      width := info.width
      typeStr := info.typeStr }

structure SummaryData (F : File) where
  ordered : List SummaryRow
  counts : SummaryCounts
  t0 : Int
  t1 : Option Int
  selected : List F.Sid
  matched : MatchReport

/-- `summary_data`: active rows, then static ones, then (verbose) undefined ones. -/
def summaryData (env : Env F) (args : Args) : Cmd F (SummaryData F) := do
  let (t0, t1) ← Prog.lift (parseWindow env.host args (tsSec F))
  let selection ← Prog.lift (selectionOf env.host args)
  let selected := selectedSids (matchSelection env.host F selection)
  let matched := matchReport env.host selection selected
  let (rows, undefSids, counts) ← summaryRows env t0 t1 selected
  let (active, statics) := rows.partition fun r => r.kind == "active"
  let ordered := active ++ statics ++ if args.verbose then buildUndefRows undefSids else []
  return { ordered, counts, t0, t1, selected, matched }

/-- `stale_window_note`: the sentence for a window without activity, when the reason is knowable. -/
def staleWindowNote (env : Env F) (d : SummaryData F) : Cmd F (Option String) :=
  if 0 < d.counts.active then pure none
  else if d.counts.selected = 0 ∧ d.matched.selective then pure (some selectionEmpty)
  else
    match pastTheEnd env d.t0 with
    | some reason => pure (some reason)
    | none =>
      if 0 < d.counts.defined then pure none
      else do
        let reason ← emptyWindowReason env d.selected d.matched.selective d.t0
        pure (some reason)

/-- `summary_row_json`. -/
def summaryRowJson (host : Host) (r : SummaryRow) (verbose : Bool) (ts : F64) : Json :=
  let optNat (n : Option Nat) : Json := Json.optInt (n.map Int.ofNat)
  let o : Obj :=
    ⟨[("kind", .str r.kind), ("path", .str r.path), ("value", Json.optStr r.value),
      ("changes", .int r.changes), ("rise_count", optNat r.riseCount),
      ("fall_count", optNat r.fallCount), ("init", .str r.init), ("last", .str r.last)]⟩
  let o := pushOptTime host o "first_at" r.firstAt ts
  let o := pushOptTime host o "last_at" r.lastAt ts
  let o := (o.push "unique" (.int r.unique)).push "unknown" (.bool r.unknown)
  (pushInfo verbose o r.width r.typeStr).build

/-- `compute_summary`. -/
def computeSummary (env : Env F) (args : Args) : Cmd F Json := do
  let host := env.host
  let ts := tsSec F
  let d ← summaryData env args
  let total := d.ordered.length
  let (shown, trunc) := clipLen total (limitOf args)
  let rows := (d.ordered.take shown).map fun r => summaryRowJson host r args.verbose ts
  let obj : Obj :=
    ⟨[("window", windowJson host d.t0 d.t1 ts), ("matched", d.matched.json),
      ("selected", .int d.counts.selected), ("defined", .int d.counts.defined),
      ("undefined", .int d.counts.undefined), ("active", .int d.counts.active),
      ("static", .int d.counts.static_), ("unknown", .int d.counts.unknown)]⟩
  let obj := pushCounts obj shown total true trunc
  let note ← staleWindowNote env d
  let hints := (truncHint trunc shown total true "rows").toList ++ d.matched.aliasNote.toList ++
    note.toList
  return ((attachHints hints obj).push "rows" (.array rows)).build

/-- One row of `text_summary`. -/
def summaryLine (host : Host) (r : SummaryRow) (verbose : Bool) (ts : F64) : String :=
  let mark := if r.unknown then " unknown" else ""
  let path := "  " ++ ljust r.path 45
  let info := " w=" ++ toString r.width ++ " " ++ r.typeStr
  let time (t : Option Int) : String := (t.map fun t => fmtTime host t ts).getD "-"
  if r.kind = "active" then
    let edge :=
      match r.riseCount with
      | some rc => " r=" ++ toString rc ++ " f=" ++ toString (r.fallCount.getD 0)
      | none => ""
    let activity := " chg=" ++ toString r.changes ++ edge ++ " init=" ++ r.init ++ " last=" ++ r.last
    if verbose then
      path ++ info ++ activity ++ " first@" ++ time r.firstAt ++ " last@" ++ time r.lastAt ++
        " uniq=" ++ toString r.unique ++ mark
    else path ++ activity ++ mark
  else if r.kind = "static" then
    path ++ (if verbose then info else "") ++ " value=" ++ r.value.getD "" ++ mark
  else path ++ info

/-- The rows of `text_summary`: a heading before each group. -/
def summaryLines (host : Host) (verbose : Bool) (ts : F64) (current : String) :
    List SummaryRow → List String
  | [] => []
  | r :: rest =>
    let lines := summaryLine host r verbose ts :: summaryLines host verbose ts r.kind rest
    if r.kind = current then lines else ("\n" ++ Str.toAsciiUppercase r.kind) :: lines

/-- `text_summary`. -/
def textSummary (env : Env F) (args : Args) : Cmd F (List String) := do
  let host := env.host
  let ts := tsSec F
  let d ← summaryData env args
  let total := d.ordered.length
  let (shown, trunc) := clipLen total (limitOf args)
  let note ← staleWindowNote env d
  return windowLine host d.t0 d.t1 ts :: d.matched.header.toList ++
    (d.matched.aliasNote.toList.map fun note => "Note: " ++ note) ++
    ["Selected: " ++ toString d.counts.selected ++ ", Defined: " ++ toString d.counts.defined ++
        ", Undefined: " ++ toString d.counts.undefined,
      "Active: " ++ toString d.counts.active ++ ", Static: " ++ toString d.counts.static_ ++
        ", Unknown: " ++ toString d.counts.unknown] ++
    (note.toList.map fun note => "Note: " ++ note) ++
    summaryLines host args.verbose ts "" (d.ordered.take shown) ++
    (if d.counts.defined = 0 ∧ d.counts.undefined = 0 then ["(no selected signals)"] else []) ++
    if trunc then [truncLine shown total "rows"] else []

end RWave.Commands
