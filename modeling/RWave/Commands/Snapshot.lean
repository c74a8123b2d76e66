import RWave.Commands.Common

/-!
# `snapshot` and `compare`

`commands/snapshot.rs` and `commands/compare.rs`: the values of the selected signals at one instant,
and the signals whose values differ between two. A large selection, and any selection of a backend
that can seek, is decoded in batches; a small one is loaded.
-/

namespace RWave.Commands

open RWave.Backend RWave.Model RWave.Misc RWave.Format RWave.Filter RWave.Select RWave.Cli

variable {F : File}

/-- The signals with a value, `state.keys()`: a hash map lists them in no particular order, here in
ascending order. They are sorted by their paths next, which no two signals share, so nothing depends
on the order (`sortByPath_perm`). -/
def keys (state : ValueMap F) : List F.Sid := F.allSids.filter fun sid => (state sid).isSome

theorem sortByPath_perm (distinct : ∀ a b : F.Sid, (F.signal a).path = (F.signal b).path → a = b)
    {l l' : List F.Sid} (perm : l.Perm l') : sortByPath l = sortByPath l' := by
  have apart : ∀ a b : F.Sid, ∀ x ∈ [a], ∀ y ∈ [b],
      (F.signal x).path = (F.signal y).path → a = b := by
    intro a b x hx y hy same
    cases List.mem_singleton.mp hx
    cases List.mem_singleton.mp hy
    exact distinct _ _ same
  have sorted := sortByKey_flatMap_perm apart perm
  rwa [List.flatMap_singleton', List.flatMap_singleton'] at sorted

/-! ## `snapshot` -/

/-- One row. -/
structure SnapRow where
  path : String
  value : Option String
  undefined : Bool
  width : Nat
  typeStr : String
  deriving DecidableEq, Repr

structure SnapData where
  rows : List SnapRow
  selectedLen : Nat
  knownCount : Nat
  undefLen : Nat
  tAt : Int
  matched : MatchReport

/-- The values at `t` of the selected signals. -/
def snapshotState (t : Int) (selected : List F.Sid) : Cmd F (ValueMap F) :=
  if shouldStream selected.length || F.backend.supportsWindowed then
    snapshotStreaming t (some selected) streamingBatch
  else do
    ensureLoaded selected
    snapshot t (some selected)

/-- The rows of a state: the known signals, then (verbose) the others. -/
def snapRows (host : Host) (state : ValueMap F) (known undef : List F.Sid) (verbose : Bool) :
    List SnapRow :=
  let knownRows := known.filterMap fun sid =>
    let info := F.signal sid
    (state sid).map fun v =>
      ⟨info.path, some (fmtValue host v info.kind info.width), false, info.width, info.typeStr⟩
  let undefRows := undef.map fun sid =>
    let info := F.signal sid
    ⟨info.path, none, true, info.width, info.typeStr⟩
  knownRows ++ if verbose then undefRows else []

/-- `snapshot_data`. -/
def snapshotData (env : Env F) (args : Args) : Cmd F SnapData := do
  let atRaw ← Prog.lift (args.at_.elim (.error "the following arguments are required: --at") .ok)
  let tAt ← Prog.lift (parseTime env.host atRaw (tsSec F))
  let selection ← Prog.lift (selectionOf env.host args)
  let selected := selectedSids (matchSelection env.host F selection)
  let matched := matchReport env.host selection selected
  let state ← snapshotState tAt selected
  let known := sortByPath (keys state)
  let undef := sortByPath (selected.filter fun sid => (state sid).isNone)
  return {
    rows := snapRows env.host state known undef args.verbose
    selectedLen := selected.length
    knownCount := known.length
    undefLen := undef.length
    tAt
    matched }

def noKnownValue : String :=
  "every selected signal's first recorded sample is later, or it was never dumped"

/-- `compute_snapshot`. -/
def computeSnapshot (env : Env F) (args : Args) : Cmd F Json := do
  let host := env.host
  let ts := tsSec F
  let d ← snapshotData env args
  let total := d.rows.length
  let (shown, trunc) := clipLen total (limitOf args)
  let signals := (d.rows.take shown).map fun r =>
    (pushInfo args.verbose
      (((Obj.new.push "path" (.str r.path)).push "value"
        (if r.undefined then .null else Json.optStr r.value)).push "undefined" (.bool r.undefined))
      r.width r.typeStr).build
  let obj := ((((pushTime host Obj.new "at" d.tAt ts).push "matched" d.matched.json).push "selected"
    (.int d.selectedLen)).push "known" (.int d.knownCount)).push "undefined" (.int d.undefLen)
  let obj := pushCounts obj shown total true trunc
  let hints := (truncHint trunc shown total true "signals").toList ++ d.matched.aliasNote.toList ++
    if d.selectedLen = 0 then [if d.matched.selective then selectionEmpty else noSignals]
    else if d.knownCount = 0 then
      ["no signal has a known value at " ++ fmtTime host d.tAt ts ++ ": " ++ noKnownValue]
    else []
  return ((attachHints hints obj).push "signals" (.array signals)).build

/-- `text_snapshot`. -/
def textSnapshot (env : Env F) (args : Args) : Cmd F (List String) := do
  let host := env.host
  let ts := tsSec F
  let d ← snapshotData env args
  let total := d.rows.length
  let (shown, trunc) := clipLen total (limitOf args)
  let rowLine (r : SnapRow) : String :=
    let path := "  " ++ ljust r.path 55
    if r.undefined then path ++ " = (undef)"
    else if args.verbose then
      path ++ " w=" ++ toString r.width ++ " " ++ r.typeStr ++ " = " ++ r.value.getD ""
    else path ++ " = " ++ r.value.getD ""
  return (if d.knownCount = 0 then "No known values at " ++ fmtTime host d.tAt ts ++ "."
      else "Known snapshot @ " ++ fmtTime host d.tAt ts) ::
    d.matched.header.toList ++ (d.matched.aliasNote.toList.map fun note => "Note: " ++ note) ++
    (if args.verbose then
      ["Selected: " ++ toString d.selectedLen ++ ", Known: " ++ toString d.knownCount ++
        ", Undefined: " ++ toString d.undefLen]
      else []) ++
    (d.rows.take shown).map rowLine ++ if trunc then [truncLine shown total "signals"] else []

/-! ## `compare` -/

/-- One signal that differs. -/
structure Diff where
  path : String
  atT1 : String
  atT2 : String
  width : Nat
  typeStr : String
  deriving DecidableEq, Repr

structure CompareData where
  diffs : List Diff
  ta : Int
  tb : Int
  unionLen : Nat
  selectedLen : Nat
  matched : MatchReport

/-- Does a signal differ between two values? Values that render identically do not. -/
def differs (host : Host) : Option RawValue → Option RawValue → Bool
  | some a, some b => a.rawStr host != b.rawStr host
  | none, none => false
  | _, _ => true

/-- The two states that are compared. -/
def compareStates (ta tb : Int) (sel : Option (List F.Sid)) (selected : List F.Sid) :
    Cmd F (ValueMap F × ValueMap F) :=
  if shouldStream selected.length || F.backend.supportsWindowed then
    snapshotPairStreaming ta tb sel streamingBatch
  else do
    ensureLoaded selected
    snapshotPair ta tb sel

/-- The rows of the signals that differ. -/
def diffs (host : Host) (sa sb : ValueMap F) (union : List F.Sid) : List Diff :=
  (union.filter fun sid => differs host (sa sid) (sb sid)).map fun sid =>
    let info := F.signal sid
    let shown (v : Option RawValue) : String :=
      match v with
      | some v => fmtValue host v info.kind info.width
      | none => "(undef)"
    ⟨info.path, shown (sa sid), shown (sb sid), info.width, info.typeStr⟩

/-- The two instants of `--at`. -/
def compareTimes (host : Host) (args : Args) (ts : F64) : Except String (Int × Int) := do
  let atRaw ← args.at_.elim (.error "the following arguments are required: --at") .ok
  match Str.split (· == ',') atRaw with
  | [a, b] =>
    let ta ← parseTime host (Str.trim a) ts
    let tb ← parseTime host (Str.trim b) ts
    if tb < ta then
      throw "second compare time must be >= first compare time"
    return (ta, tb)
  | _ => throw "--at needs two times separated by comma, e.g. --at 17.5us,17.7us"

/-- `compare_data`. -/
def compareData (env : Env F) (args : Args) : Cmd F CompareData := do
  let selection ← Prog.lift (selectionOf env.host args)
  let (ta, tb) ← Prog.lift (compareTimes env.host args (tsSec F))
  let sel := matchSelection env.host F selection
  let selected := selectedSids sel
  let matched := matchReport env.host selection selected
  let (sa, sb) ← compareStates ta tb sel selected
  let union := sortByPath (F.allSids.filter fun sid => (sa sid).isSome || (sb sid).isSome)
  return {
    diffs := diffs env.host sa sb union
    ta
    tb
    unionLen := union.length
    selectedLen := selected.length
    matched }

/-- `compute_compare`. -/
def computeCompare (env : Env F) (args : Args) : Cmd F Json := do
  let host := env.host
  let ts := tsSec F
  let d ← compareData env args
  let total := d.diffs.length
  let (shown, trunc) := clipLen total (limitOf args)
  let rows := (d.diffs.take shown).map fun df =>
    (pushInfo args.verbose
      (((Obj.new.push "path" (.str df.path)).push "at_t1" (.str df.atT1)).push "at_t2"
        (.str df.atT2)) df.width df.typeStr).build
  let obj := pushTime host (pushTime host Obj.new "t1" d.ta ts) "t2" d.tb ts
  let obj := ((obj.push "matched" d.matched.json).push "selected" (.int d.selectedLen)).push
    "unchanged" (.int (d.unionLen - total : Nat))
  let obj := pushCounts obj shown total true trunc
  let hints := (truncHint trunc shown total true "diffs").toList ++ d.matched.aliasNote.toList ++
    if d.selectedLen = 0 then [if d.matched.selective then selectionEmpty else noSignals]
    else if total = 0 then
      ["no selected signal differs between " ++ fmtTime host d.ta ts ++ " and " ++
        fmtTime host d.tb ts ++ "; " ++ toString d.unionLen ++ " held the same value"]
    else []
  return ((attachHints hints obj).push "diffs" (.array rows)).build

/-- `text_compare`. -/
def textCompare (env : Env F) (args : Args) : Cmd F (List String) := do
  let host := env.host
  let ts := tsSec F
  let d ← compareData env args
  let total := d.diffs.length
  let (shown, trunc) := clipLen total (limitOf args)
  return ("Compare: " ++ fmtTime host d.ta ts ++ " vs " ++ fmtTime host d.tb ts) ::
    d.matched.header.toList ++ (d.matched.aliasNote.toList.map fun note => "Note: " ++ note) ++
    [toString total ++ " changed, " ++ toString (d.unionLen - total) ++ " unchanged"] ++
    ((d.diffs.take shown).map fun df =>
      "  " ++ ljust df.path 48 ++ " " ++ df.atT1 ++ " -> " ++ df.atT2) ++
    if trunc then [truncLine shown total "diffs"] else []

end RWave.Commands
