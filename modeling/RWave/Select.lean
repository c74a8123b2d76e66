import RWave.Filter
import RWave.Model.Wave

/-!
# Signal selection

`select.rs`: `--scope`, `--depth`, `--filter` and `--exclude`, judged for one alias path at a time.
A signal is selected when one of its alias paths clears every gate.
-/

namespace RWave.Model

/-- `leaf_of`: the local name of `path`, found by the length of its scope. -/
def leafOf (path scope : String) : String :=
  if Str.isEmpty scope then path
  else
    match Str.getFrom (Str.len scope + 1) path.toList, (Str.bytes path)[Str.len scope]? with
    | some leaf, some b =>
      if b = '.'.toUInt8 ∨ b = '/'.toUInt8 then .ofList leaf else path
    | _, _ => path

/-- `SignalInfo::has_exact_path_ci`. -/
def SignalInfo.hasExactPathCi (host : Host) (info : SignalInfo) (patternLower : String) : Bool :=
  info.aliases.any fun p => host.toLowercase p == patternLower

end RWave.Model

namespace RWave.Select

open RWave.Filter RWave.Model

/-- A pattern for one hierarchy segment. -/
inductive SegPat where
  | lit (s : String)
  | glob (toks : List GlobTok)
  deriving DecidableEq, Repr

/-- One compiled `--scope` value: an instance name, or a segment-aligned suffix. -/
inductive ScopePat where
  | instanceName (seg : SegPat)
  | suffix (segs : List SegPat)
  deriving DecidableEq, Repr

/-- `SegPat::parse`. -/
def SegPat.parse (host : Host) (raw : String) : Except String SegPat :=
  if Str.len raw > maxFilterPatternLen then
    .error ("scope pattern too long; max length is " ++ toString maxFilterPatternLen)
  else
    let lower := host.toLowercase raw
    let wildcards := lower.toList.countP isWildcard
    if wildcards > maxFilterWildcards then
      .error ("too many wildcard characters in scope pattern; max is " ++
        toString maxFilterWildcards)
    else if wildcards > 0 then .ok (.glob (compileGlob lower))
    else .ok (.lit lower)

/-- `SegPat::matches`, of a lower-cased segment. -/
def SegPat.matches (seg : String) : SegPat → Bool
  | .lit s => s == seg
  | .glob toks => globMatch toks seg

/-- The compiled selection options of one invocation. -/
structure Selection where
  scope : Option (List ScopePat)
  depth : Option Nat
  included : Option Filters
  excluded : Option Filters
  deriving DecidableEq, Repr

/-- The non-empty segments of a path. -/
def segments (path : String) : List String :=
  (Str.split isSeparator path).filter fun s => !Str.isEmpty s

/-- One `--scope` value, trimmed: none when nothing is left of it. -/
def parseScopeValue (host : Host) (value : String) : Except String (Option ScopePat) :=
  match segments value with
  | [] => .ok none
  | seg :: segs =>
    if segs.isEmpty && !Str.containsChar isSeparator value then
      return some (.instanceName (← SegPat.parse host seg))
    else
      return some (.suffix (← (seg :: segs).mapM (SegPat.parse host)))

/-- The patterns of `--scope`; none when no value is left. -/
def parseScope (host : Host) (raw : String) : Except String (Option (List ScopePat)) := do
  let values := (Str.split (· == ',') raw).map Str.trim
  let pats := (← values.mapM (parseScopeValue host)).reduceOption
  return if pats.isEmpty then none else some pats

/-- The patterns of `--filter` or `--exclude`; none when no pattern is left. -/
def compile (host : Host) (mode : MatchMode) : Option String → Except String (Option Filters)
  | some r => do
    let f ← Filters.parseCsvMode host r mode
    return if f.pats.isEmpty then none else some f
  | none => .ok none

/-- `Selection::parse_mode`. -/
def Selection.parseMode (host : Host) (scope : Option String) (depth : Option Int)
    (filter exclude : Option String) (mode : MatchMode) : Except String Selection := do
  let scope ←
    match scope with
    | some raw => parseScope host raw
    | none => pure none
  let depth :=
    match depth with
    | some n => if 0 < n ∧ scope.isSome then some (min n.toNat (2 ^ 32 - 1)) else none
    | none => none
  return {
    scope
    depth
    included := ← compile host mode filter
    excluded := ← compile host mode exclude }

/-- `Selection::parse`. -/
def Selection.parse (host : Host) (scope : Option String) (depth : Option Int)
    (filter exclude : Option String) : Except String Selection :=
  Selection.parseMode host scope depth filter exclude .substring

/-- Does a scope value match the scope formed by the first `k` segments? -/
def ScopePat.hits (segs : List String) (k : Nat) : ScopePat → Bool
  | .instanceName sp => (segs[k - 1]?).any sp.matches
  | .suffix sps =>
    decide (sps.length ≤ k) &&
      (sps.zip ((segs.take k).drop (k - sps.length))).all fun (sp, s) => sp.matches s

namespace Selection

variable (sel : Selection)

/-- `is_all`: no option is active. -/
def isAll : Bool :=
  sel.scope.isNone && sel.depth.isNone && sel.included.isNone && sel.excluded.isNone

/-- `active_gates`. -/
def activeGates : String :=
  Str.join ", " <|
    (if sel.scope.isSome then ["--scope"] else []) ++
    (if sel.depth.isSome then ["--depth"] else []) ++
    (if sel.included.isSome then ["--filter"] else []) ++
    (if sel.excluded.isSome then ["--exclude"] else [])

/-- The deepest scope of the chain that a value matches. -/
def base (pats : List ScopePat) (segs : List String) : Option Nat :=
  ((List.range segs.length).map Nat.succ).foldl
    (fun base k => if pats.any (ScopePat.hits segs k) then some k else base) none

/-- `structural_ok`: the `--scope` and `--depth` gates. -/
def structuralOk (host : Host) (scopePath : String) : Bool :=
  match sel.scope with
  | none => true
  | some pats =>
    let segs := (segments scopePath).map host.toLowercase
    match base pats segs with
    | none => false
    | some base =>
      match sel.depth with
      | some max => decide ((segs.length - base + 1) % 2 ^ 32 ≤ max)
      | none => true

/-- `displays_alias`: every gate but `--filter`. -/
def displaysAlias (host : Host) (path scope : String) : Bool :=
  sel.structuralOk host scope &&
    match sel.excluded with
    | some e => !e.matchesPathLeaf host path (leafOf path scope)
    | none => true

/-- `keeps_alias`: does this alias path clear every gate? -/
def keepsAlias (host : Host) (path scope : String) : Bool :=
  sel.structuralOk host scope &&
    let pathLower := host.toLowercase path
    let leafLower := host.toLowercase (leafOf path scope)
    (match sel.included with
      | some inc => inc.matchesLower pathLower leafLower
      | none => true) &&
      match sel.excluded with
      | some e => !e.matchesLower pathLower leafLower
      | none => true

/-- `keeps_signal`. -/
def keepsSignal (host : Host) (info : SignalInfo) : Bool :=
  info.aliasPairs.any fun (p, sc) => sel.keepsAlias host p sc

/-- `matched_alias`: the alias path that cleared the gates. -/
def matchedAlias (host : Host) (info : SignalInfo) : Option String :=
  (info.aliasPairs.find? fun (p, sc) => sel.keepsAlias host p sc).map Prod.fst

/-- `keeps_signal_matching`: with `pat` as one more gate on the same alias. -/
def keepsSignalMatching (host : Host) (info : SignalInfo) (pat : Filters) : Bool :=
  info.aliasPairs.any fun (p, sc) =>
    sel.keepsAlias host p sc && pat.matchesPathLeaf host p (leafOf p sc)

end Selection

end RWave.Select
