import RWave.Commands.Common

/-!
# `tree`

`commands/tree.rs`: the scopes below a root, or the ancestor chain of a signal. The hierarchy is
derived from the scope of every alias.
-/

namespace RWave.Commands

open RWave.Backend RWave.Model RWave.Misc RWave.Format RWave.Filter RWave.Select RWave.Cli

variable {F : File}

/-- One hierarchy node; `level` is 0 for a printed root. -/
structure Node where
  path : String
  name : String
  level : Nat
  signals : Nat
  children : Nat
  deriving DecidableEq, Repr

/-- The proper prefixes that end before a separator; `done` is what precedes the rest. A separator
at the very beginning is skipped. -/
def prefixesFrom (done : List Char) : List Char → List String
  | [] => []
  | c :: cs =>
    if isSeparator c && !done.isEmpty then .ofList done :: prefixesFrom (done ++ [c]) cs
    else prefixesFrom (done ++ [c]) cs

/-- `prefixes`: every ancestor of a scope, shortest first, then the scope itself. -/
def prefixes (scope : String) : List String := prefixesFrom [] scope.toList ++ [scope]

/-- `last_segment`. -/
def lastSegment (path : String) : String :=
  match Str.rsplitOnce isSeparator path with
  | some (_, last) => last
  | none => path

/-- `parent_of`: none for a top-level scope. -/
def parentOf (path : String) : Option String :=
  match Str.rsplitOnce isSeparator path with
  | some (parent, _) => if Str.isEmpty parent then none else some parent
  | none => none

/-- `Index`: the scopes with their signal counts in ascending order, the children of each, and the
top-level scopes. -/
structure Index where
  scopes : List (String × Nat)
  tops : List String
  rootSignals : Nat
  deriving DecidableEq, Repr

/-- `Index::build`. -/
def Index.build (F : File) : Index :=
  let declared := F.signals.flatMap fun info => info.aliasPairs.map Prod.snd
  let inScope := declared.filter fun scope => !Str.isEmpty scope
  let paths := sortDedup (inScope.flatMap prefixes)
  { scopes := paths.map fun path => (path, inScope.count path)
    tops := paths.filter fun path => (parentOf path).isNone
    rootSignals := declared.countP Str.isEmpty }

namespace Index

variable (index : Index)

/-- `children_of`, in ascending order. -/
def childrenOf (parent : String) : List String :=
  (index.scopes.map Prod.fst).filter fun path => parentOf path == some parent

/-- `signals`. -/
def signals (path : String) : Nat := (index.scopes.lookup path).getD 0

/-- The node of a scope. -/
def node (path : String) (level : Nat) : Node :=
  ⟨path, lastSegment path, level, index.signals path, (index.childrenOf path).length⟩

/-- `walk`: a scope and its descendants, `levels` levels below it. -/
def walk (path : String) (level : Nat) : (levels : Nat) → List Node
  | 0 => [index.node path level]
  | levels + 1 =>
    index.node path level ::
      (index.childrenOf path).flatMap fun c => walk c (level + 1) levels

end Index

/-- `root_pattern`: the positional wins over `--scope`. -/
def rootPattern (args : Args) : Option String :=
  let pick (v : Option String) : Option String :=
    (v.map Str.trim).filter fun s => !Str.isEmpty s
  (pick args.target).or (pick args.scope)

/-- `roots`: the matching scopes whose parent does not match. -/
def roots (host : Host) (index : Index) (args : Args) : Except String (List String) :=
  match rootPattern args with
  | none => .ok index.tops
  | some pattern => do
    let sel ← Selection.parse host (some pattern) none none none
    let matched (s : String) : Bool := sel.keepsAlias host "" s
    let out := (index.scopes.map Prod.fst).filter fun s =>
      matched s && !(parentOf s).any matched
    if out.isEmpty then
      throw ("no scope matches " ++ pyrepr pattern ++
        "; run tree without a scope to see the top level")
    return out

structure TreeData where
  of_ : Option String
  roots : List String
  depth : Nat
  nodes : List Node
  total : Nat
  shown : Nat
  truncated : Bool
  rootSignals : Nat
  deriving DecidableEq, Repr

/-- `tree`'s `build`. -/
def treeData (host : Host) (F : File) (args : Args) : Except String TreeData := do
  let index := Index.build F
  let depth := (max (args.depth.getD 1) 1).toNat
  let (of_, roots, nodes) ←
    match args.of_.filter fun s => !Str.isEmpty (Str.trim s) with
    | some pat => do
      let (path, scope) ← resolveSignalPath host F pat "--of"
      if Str.isEmpty scope then pure (some path, [], [])
      else
        pure (some path, [scope],
          (prefixes scope).zipIdx.map fun (p, level) => index.node p level)
    | none => do
      let rs ← roots host index args
      pure (none, rs, rs.flatMap fun r => index.walk r 0 depth)
  let total := nodes.length
  let (shown, truncated) := clipLen total (limitOf args)
  return {
    of_
    roots
    depth
    nodes := nodes.take shown
    total
    shown
    truncated
    rootSignals := index.rootSignals }

def noAncestors : String := "the signal sits at the root, so it has no enclosing scopes"

def noScopes : String :=
  "no scope matched; the file's hierarchy may be flat, " ++
    "or --scope/--depth may have excluded everything"

/-- `compute_tree`. -/
def computeTree (env : Env F) (args : Args) : Cmd F Json := do
  let d ← Prog.lift (treeData env.host F args)
  let chain := d.of_.isSome
  let obj : Obj :=
    ⟨[("mode", .str (if chain then "chain" else "subtree")), ("signal", Json.optStr d.of_),
      ("roots", .array (d.roots.map .str)), ("depth", if chain then .null else .int d.depth),
      ("root_signals", if chain then .null else .int d.rootSignals)]⟩
  let obj := pushCounts obj d.shown d.total true d.truncated
  let hints := (truncHint d.truncated d.shown d.total true "scopes").toList ++
    if d.total = 0 then [if chain then noAncestors else noScopes] else []
  let rows := d.nodes.map fun n =>
    Obj.build ⟨[("path", .str n.path), ("name", .str n.name), ("level", .int n.level),
      ("signals", .int n.signals), ("children", .int n.children)]⟩
  return ((attachHints hints obj).push "scopes" (.array rows)).build

/-- How `text_tree` names a node. -/
def nodeLabel (d : TreeData) (n : Node) : String :=
  if d.of_.isSome || n.level == 0 then n.path else Str.replicate (2 * n.level) ' ' ++ n.name

/-- `text_tree`. -/
def textTree (env : Env F) (args : Args) : Cmd F (List String) := do
  let d ← Prog.lift (treeData env.host F args)
  let head :=
    match d.of_ with
    | some sig => sig ++ " — ancestors (top-down)"
    | none =>
      let where_ :=
        match d.roots with
        | [] => "(nothing)"
        | [root] => root
        | roots => toString roots.length ++ " matching scopes"
      where_ ++ " — " ++ toString d.total ++ " scope(s), depth " ++ toString d.depth
  let atRoot := toString d.rootSignals ++ " signal(s) at the file root"
  if d.nodes.isEmpty then
    return [head, ""] ++
      if d.of_.isSome then ["  (top-level signal; no enclosing scope)"]
      else "  (no scopes)" :: if 0 < d.rootSignals then ["  (" ++ atRoot ++ ")"] else []
  else
    let width := (d.nodes.map fun n => (nodeLabel d n).toList.length).foldl max 0
    return [head, ""] ++
      (d.nodes.map fun n =>
        "  " ++ ljust (nodeLabel d n) width ++ "  " ++ toString n.signals ++ " signal(s)" ++
          if 0 < n.children then ", " ++ toString n.children ++ " child scope(s)" else "") ++
      (if 0 < d.rootSignals ∧ d.of_.isNone then ["\n  (" ++ atRoot ++ ", outside any scope)"]
        else []) ++
      if d.truncated then [truncLine d.shown d.total "scopes"] else []

end RWave.Commands
