import RWave.Commands.Common
import RWave.Commands.Search

/-!
# `search`

The rest of `commands/search.rs`: condition and `--show` names are resolved to signals, the signals
are loaded, the collector of the mode runs, and its rows are rendered.
-/

namespace RWave.Commands

open RWave.Backend RWave.Model RWave.Misc RWave.Format RWave.Filter RWave.Select RWave.Cli

variable {F : File}

/-! ## Resolving names -/

/-- `within_selection`: how the selection bears on a name lookup. -/
def withinSelection (sel : Selection) : String :=
  let gates := sel.activeGates
  if Str.isEmpty gates then "" else " within the current selection (" ++ gates ++ ")"

/-- `example_paths`. -/
def examplePaths (sids : List F.Sid) : String :=
  Str.join ", " ((sortByKey id (sids.map fun sid => (F.signal sid).path)).take 5)

/-- The signals with `pat` as a full path; a pattern with wildcards names none. -/
def exactSids (host : Host) (F : File) (pat : String) : List F.Sid :=
  if Str.containsChar isWildcard pat then []
  else
    let pl := host.toLowercase pat
    sidsWhere F fun info => info.hasExactPathCi host pl

/-- The signals whose name matches a pattern inside the selection. -/
def matchingSids (host : Host) (F : File) (sel : Selection) (pat : String) (mode : MatchMode) :
    Except String (List F.Sid) := do
  let filters ← Filters.parseMode host [pat] mode
  return sidsWhere F fun info => sel.keepsSignalMatching host info filters

/-- `resolve_one_signal`. -/
def resolveOneSignal (host : Host) (F : File) (sel : Selection) (pattern role : String)
    (mode : MatchMode) : Except String F.Sid :=
  let pat := Str.trim pattern
  let named := role ++ " pattern " ++ pyrepr pattern
  match exactSids host F pat with
  | [sid] => .ok sid
  | sid :: sid' :: rest =>
    let exact := sid :: sid' :: rest
    .error (named ++ " exactly matches " ++ toString exact.length ++
      " signals; use list to choose a more specific name, examples: " ++ examplePaths exact)
  | [] => do
    let within := withinSelection sel
    match ← matchingSids host F sel pat mode with
    | [sid] => return sid
    | [] =>
      let hint := if Str.isEmpty within then "" else
        "; give the full hierarchical path to look outside it"
      throw (named ++ " matches no signals" ++ within ++ hint)
    | matched =>
      let examples := examplePaths matched
      let extra := if Str.isEmpty examples then "" else ", examples: " ++ examples
      throw (named ++ " matches " ++ toString matched.length ++ " signals" ++ within ++
        "; narrow it with --scope or --exclude, or give the full hierarchical path" ++ extra)

/-- The signals one `--show` pattern names: those with it as a full path, else the matching ones. -/
def showMatches (host : Host) (F : File) (sel : Selection) (mode : MatchMode) (pat : String) :
    Except String (List F.Sid) :=
  match exactSids host F pat with
  | [] => matchingSids host F sel pat mode
  | exact => .ok exact

/-- `resolve_show_sids`. -/
def resolveShowSids (host : Host) (F : File) (sel : Selection) (show_ : Option String)
    (mode : MatchMode) : Except String (List F.Sid) := do
  match show_ with
  | none => return []
  | some raw =>
    let pats := ((Str.split (· == ',') raw).map Str.trim).filter fun s => !Str.isEmpty s
    if pats.isEmpty then return []
    let found ← pats.mapM fun pat => return (pat, ← showMatches host F sel mode pat)
    let missing := (found.filter fun (_, sids) => sids.isEmpty).map Prod.fst
    if !missing.isEmpty then
      throw ("--show matches no signals" ++ withinSelection sel ++ ": " ++ Str.join ", " missing)
    let selected := ascending (found.flatMap Prod.snd)
    if selected.isEmpty then throw "--show matches no signals"
    return sortByPath selected

/-- The first of the elements that share a key (`seen.insert(key)`). -/
def dedupFirst {α κ : Type} [DecidableEq κ] (key : α → κ) (l : List α) : List α :=
  l.foldl (fun kept a => if (kept.map key).contains (key a) then kept else kept ++ [a]) []

/-- `term_key`. -/
def termKey (c : ResolvedCond F) : F.Sid ×ₗ String ×ₗ String :=
  match c.term with
  | .level op target _ _ _ => toLex (c.sid, toLex (op.asStr, target.dedupKey))
  | .changed => toLex (c.sid, toLex ("changed", ""))

/-- `clause_key`: the keys of the terms, in any order. -/
def clauseKey (clause : List (ResolvedCond F)) : List (F.Sid ×ₗ String ×ₗ String) :=
  sortByKey id (clause.map termKey)

/-- One term of `resolve_conditions`. -/
def resolveCondition (host : Host) (F : File) (sel : Selection) (mode : MatchMode)
    (c : Condition.ParsedCondition) : Except String (ResolvedCond F) := do
  let role :=
    match c.term with
    | .changed => "changed() signal"
    | .level .. => "condition signal"
  let sid ← resolveOneSignal host F sel c.pattern role mode
  let info := F.signal sid
  match c.term with
  | .level op target valueText =>
    if target.isMask ∧ info.kind ≠ .bits then
      throw ("condition " ++ pyrepr c.original ++ ": a don't-care (?) target is a bit pattern " ++
        "and needs a logic signal; " ++ info.path ++ " is not one")
    return ⟨sid, .level op target info.width info.kind valueText, c.original, info.path⟩
  | .changed => return ⟨sid, .changed, c.original, info.path⟩

/-- `resolve_conditions`. -/
def resolveConditions (host : Host) (F : File) (sel : Selection) (mode : MatchMode) (text : String) :
    Except String (List (ResolvedCond F)) := do
  let parsed ← Condition.parseConditions host text
  let resolved ← parsed.mapM (resolveCondition host F sel mode)
  return dedupFirst termKey resolved

/-! ## Labels -/

/-- `condition_label`. -/
def conditionLabel (conds : List (ResolvedCond F)) : String :=
  Str.join "," (conds.map ResolvedCond.original)

/-- `condition_result_text`. -/
def conditionResultText (conds : List (ResolvedCond F)) : String :=
  Str.join "," <| conds.map fun c =>
    match c.term with
    | .level op _ _ _ valueText => c.path ++ op.asStr ++ valueText
    | .changed => "changed(" ++ c.path ++ ")"

/-- `join_clauses`. -/
def joinClauses (clauses : List (List (ResolvedCond F))) (render : List (ResolvedCond F) → String) :
    String :=
  match clauses with
  | [clause] => render clause
  | clauses => Str.join " OR " (clauses.map fun c => "(" ++ render c ++ ")")

/-! ## Setup -/

/-- `search_end_time`. -/
def searchEndTime (F : File) (t1 : Option Int) : Except String Int :=
  match t1, timeRange F with
  | some t1, _ => .ok t1
  | none, some (_, mx) => .ok mx
  | none, none =>
    .error "search cannot evaluate condition: VCD data section contains no value changes"

/-- The window of a search. -/
def searchWindow (host : Host) (F : File) (args : Args) : Except String (Int × Int) := do
  let ts := tsSec F
  let t0 := (← optTime host ts args.beginAt).getD 0
  let t1 ← searchEndTime F (← optTime host ts args.endAt)
  if t1 < t0 then
    if args.endAt.isSome then throw "end time must be >= begin time"
    else
      throw ("--begin " ++ fmtTime host t0 ts ++ " is after the last event at " ++
        fmtTime host t1 ts ++ "; the window is empty")
  return (t0, t1)

/-- Is the term a `changed()` predicate? -/
def ResolvedCond.isChanged (c : ResolvedCond F) : Bool := c.term == .changed

/-- The resolved clauses: either every one has a `changed()` term or none has. -/
def searchClauses (host : Host) (F : File) (sel : Selection) (mode : MatchMode) (args : Args) :
    Except String (List (List (ResolvedCond F))) := do
  let clauses := dedupFirst clauseKey (← args.condition.mapM (resolveConditions host F sel mode))
  let withChanged := clauses.countP fun clause => clause.any ResolvedCond.isChanged
  if 0 < withChanged ∧ withChanged < clauses.length then
    throw ("cannot mix changed() and level-only --condition clauses: a changed() clause " ++
      "fires at ticks (event mode) while a level-only clause spans time (interval " ++
      "mode); give every clause a changed() term, or run two searches")
  return clauses

/-- `search_setup`, up to the loading of the signals it selects. -/
def resolveSetup (host : Host) (F : File) (args : Args) : Except String (SearchSetup F) := do
  let (t0, t1) ← searchWindow host F args
  if args.condition.isEmpty then
    throw "the following arguments are required: --condition"
  let mode := matchMode args
  let sel ← selectionOf host args
  let clauses ← searchClauses host F sel mode args
  let changedSids := sortByPath (ascending
    ((clauses.flatten.filter ResolvedCond.isChanged).map ResolvedCond.sid))
  let shown ← resolveShowSids host F sel args.show_ mode
  let showSids := if !changedSids.isEmpty && shown.isEmpty then changedSids else shown
  return {
    clauses
    showSids
    changedSids
    selRef := ascending (clauses.flatten.map ResolvedCond.sid ++ showSids)
    t0
    t1
    limit := limitOf args
    verbose := args.verbose
    condLabel := joinClauses clauses conditionLabel
    condText := joinClauses clauses conditionResultText
    ts := tsSec F
    selNodup := ascending_nodup _
    clausesSelected := fun _ member _ inClause => mem_ascending.mpr <|
      List.mem_append_left _ (List.mem_map_of_mem (List.mem_flatten_of_mem member inClause))
    showSelected := fun _ member => mem_ascending.mpr (List.mem_append_right _ member) }

/-- `search_setup`. -/
def searchSetup (env : Env F) (args : Args) : Cmd F (SearchSetup F) := do
  let s ← Prog.lift (resolveSetup env.host F args)
  ensureLoaded s.selRef
  return s

/-! ## Output -/

/-- `values_text`. -/
def valuesText (values : Values) : String :=
  Str.join " " (values.map fun (k, v) => k ++ "=" ++ v)

/-- `values_json`. -/
def valuesJson (values : Values) : Json := .object (values.map fun (k, v) => (k, .str v))

/-- `no_match_reason`. -/
def noMatchReason (host : Host) (s : SearchSetup F) : String :=
  "the condition " ++ s.condText ++ " never held in " ++ fmtTime host s.t0 s.ts ++ ".." ++
    fmtTime host s.t1 s.ts

/-- The paths of some signals. -/
def pathsJson (sids : List F.Sid) : Json := .array (sids.map fun sid => .str (F.signal sid).path)

/-- What the three modes have in common. -/
def searchJson (host : Host) (s : SearchSetup F) (mode : String) (changed : List F.Sid)
    (rows : List Json) (total : Nat) (truncated : Bool) : Json :=
  let total := if truncated then rows.length + 1 else total
  let obj : Obj :=
    ⟨[("mode", .str mode), ("condition", .str s.condLabel), ("condition_resolved", .str s.condText),
      ("changed", pathsJson changed), ("show", pathsJson s.showSids),
      ("window", windowJson host s.t0 (some s.t1) s.ts)]⟩
  let obj := pushCounts obj rows.length total (!truncated) truncated
  let hints := (truncHint truncated rows.length total false "rows").toList ++
    if rows.isEmpty then [noMatchReason host s] else []
  ((attachHints hints obj).push "rows" (.array rows)).build

/-- The verbose `meta` member of a row. -/
def pushMeta (verbose : Bool) (rowMeta : Option Json) (o : Obj) : Obj :=
  if verbose then o.push "meta" (rowMeta.getD (.object [])) else o

/-- `search_event_json`. -/
def searchEventJson (host : Host) (s : SearchSetup F) (events : List Ev) (total : Nat)
    (truncated : Bool) : Json :=
  let rows := events.map fun e =>
    (pushMeta s.verbose e.rowMeta
      ⟨[("begin_ticks", .int e.timeTicks), ("begin_h", .str e.timeH), ("end_ticks", .null),
        ("end_h", .null), ("values", valuesJson e.values)]⟩).build
  searchJson host s "event" s.changedSids rows total truncated

/-- `search_interval_json`. -/
def searchIntervalJson (host : Host) (s : SearchSetup F) (results : List IntervalRow) (total : Nat)
    (truncated : Bool) : Json :=
  let rows := results.map fun r =>
    (pushMeta s.verbose r.rowMeta
      ⟨[("begin_ticks", .int r.beginTicks), ("begin_h", .str (fmtTime host r.beginTicks s.ts)),
        ("end_ticks", .int r.endTicks), ("end_h", .str (fmtTime host r.endTicks s.ts)),
        ("values", valuesJson (r.values.getD []))]⟩).build
  searchJson host s (if s.hasShow then "segment" else "interval") [] rows total truncated

/-- What `compute_search` makes of the loaded signals. -/
def searchCollect (env : Env F) (s : SearchSetup F) (w : Wave F) : Json :=
  if !s.changedSids.isEmpty then
    let (events, total, truncated) := searchEventCollect env.host w env.mergeHeap s
    searchEventJson env.host s events total truncated
  else
    let (results, total, truncated) := searchIntervalCollect env.host w env.mergeHeap s
    searchIntervalJson env.host s results total truncated

/-- `compute_search`. -/
def computeSearch (env : Env F) (args : Args) : Cmd F Json := do
  let s ← searchSetup env args
  Prog.reads (searchCollect env s)

/-- The line of an empty result. -/
def noneFound (host : Host) (s : SearchSetup F) (noun : String) : String :=
  "No " ++ noun ++ " in " ++ fmtTime host s.t0 s.ts ++ ".." ++ fmtTime host s.t1 s.ts ++ " where " ++
    s.condText ++ "."

/-- `search_event_text`. -/
def searchEventText (host : Host) (s : SearchSetup F) (events : List Ev) (total : Nat)
    (truncated : Bool) : List String :=
  let n := events.length
  if events.isEmpty then [noneFound host s "event"]
  else
    ["Found: " ++ countLabel (if truncated then n + 1 else total) truncated ++ " event(s)"] ++
    (events.map fun e => "  T=" ++ ljust e.timeH 12 ++ " " ++ valuesText e.values) ++
    if truncated then [truncLineLb n (n + 1) "events"] else []

/-- `search_interval_text`. -/
def searchIntervalText (host : Host) (s : SearchSetup F) (results : List IntervalRow) (total : Nat)
    (truncated : Bool) : List String :=
  let noun := if s.hasShow then "segment" else "interval"
  let n := results.length
  if results.isEmpty then [noneFound host s noun]
  else
    ["Found: " ++ countLabel (if truncated then n + 1 else total) truncated ++ " " ++ noun ++
      "(s)"] ++
    (results.map fun r =>
      "  " ++ ljust (fmtTime host r.beginTicks s.ts) 12 ++ ".." ++
        ljust (fmtTime host r.endTicks s.ts) 12 ++ " " ++
        if s.hasShow then valuesText (r.values.getD []) else s.condText) ++
    if truncated then [truncLineLb n (n + 1) (noun ++ "s")] else []

/-- What `text_search` makes of the loaded signals. -/
def searchLines (env : Env F) (s : SearchSetup F) (w : Wave F) : List String :=
  if !s.changedSids.isEmpty then
    let (events, total, truncated) := searchEventCollect env.host w env.mergeHeap s
    searchEventText env.host s events total truncated
  else
    let (results, total, truncated) := searchIntervalCollect env.host w env.mergeHeap s
    searchIntervalText env.host s results total truncated

/-- `text_search`. -/
def textSearch (env : Env F) (args : Args) : Cmd F (List String) := do
  let s ← searchSetup env args
  Prog.reads (searchLines env s)

end RWave.Commands
