import RWave.Str

/-!
# Batch lines

The part of `cli.rs` that turns one line of a batch into the arguments of a command: the
tokenizer, the flag parser, and the merge with the options of the `--batch` invocation.
-/

namespace RWave.Cli

/-- Result limit when neither `--limit` nor `--verbose` is given. -/
def defaultLimit : Nat := 500

/-- Which subcommand to run. -/
inductive Command where
  | info
  | list
  | dump
  | summary
  | snapshot
  | compare
  | search
  | tree
  | trace
  deriving DecidableEq, Repr

/-- `Command::from_str`. -/
def Command.fromStr : String → Option Command
  | "info" => some .info
  | "list" => some .list
  | "dump" => some .dump
  | "summary" => some .summary
  | "snapshot" => some .snapshot
  | "compare" => some .compare
  | "search" => some .search
  | "tree" => some .tree
  | "trace" => some .trace
  | _ => none

/-- `cmd_name`. -/
def cmdName : Command → String
  | .info => "info"
  | .list => "list"
  | .dump => "dump"
  | .summary => "summary"
  | .snapshot => "snapshot"
  | .compare => "compare"
  | .search => "search"
  | .tree => "tree"
  | .trace => "trace"

/-- `takes_target`: a second positional after the file. -/
def Command.takesTarget : Command → Bool
  | .trace | .tree => true
  | _ => false

/-- A fully parsed invocation. -/
structure Args where
  command : Command
  file : String
  json : Bool
  limit : Option Int
  verbose : Bool
  beginAt : Option String
  endAt : Option String
  scope : Option String
  depth : Option Int
  filter : Option String
  exclude : Option String
  exact : Bool
  at_ : Option String
  condition : List String
  show_ : Option String
  target : Option String
  load : Bool
  control : Bool
  kdb : Option String
  top : Option String
  of_ : Option String
  deriving DecidableEq, Repr

/-- Options of a batch run that apply to every line unless the line overrides them. -/
structure Defaults where
  limit : Option Int
  verbose : Bool
  beginAt : Option String
  endAt : Option String
  scope : Option String
  depth : Option Int
  filter : Option String
  exclude : Option String
  exact : Bool
  at_ : Option String
  condition : List String
  show_ : Option String
  load : Option Bool
  control : Bool
  kdb : Option String
  top : Option String
  of_ : Option String
  deriving DecidableEq, Repr

/-- A parsed `--batch` invocation. -/
structure BatchInvocation where
  file : String
  json : Bool
  defaults : Defaults
  deriving DecidableEq, Repr

/-! ## The flag parser -/

/-- Flags, command and positionals of one token stream. -/
structure Acc where
  json : Bool := false
  batch : Bool := false
  limit : Option Int := none
  verbose : Bool := false
  beginAt : Option String := none
  endAt : Option String := none
  scope : Option String := none
  depth : Option Int := none
  filter : Option String := none
  exclude : Option String := none
  exact : Bool := false
  at_ : Option String := none
  condition : List String := []
  show_ : Option String := none
  driver : Bool := false
  load : Bool := false
  control : Bool := false
  kdb : Option String := none
  top : Option String := none
  of_ : Option String := none
  command : Option Command := none
  positionals : List String := []
  deriving DecidableEq, Repr

/-- A flag that takes no value. -/
def switch (acc : Acc) : String → Option (Except String Acc)
  | "--json" => some (.ok { acc with json := true })
  | "--batch" => some (.ok { acc with batch := true })
  | "--exact" => some (.ok { acc with exact := true })
  | "--verbose" => some (.ok { acc with verbose := true })
  | "--control" => some (.ok { acc with control := true })
  | "--driver" =>
    some (if acc.load then .error "--driver and --load are opposites; give one"
      else .ok { acc with driver := true })
  | "--load" =>
    some (if acc.driver then .error "--driver and --load are opposites; give one"
      else .ok { acc with load := true })
  | _ => none

/-- The value of `--limit` or `--depth`. -/
def intValue (flag v : String) : Except String Int :=
  match Str.parseI64 v with
  | some n => .ok n
  | none => .error ("argument " ++ flag ++ ": invalid int value: '" ++ v ++ "'")

/-- What a flag does with its value; none when the token is no such flag. -/
def valueFlag (acc : Acc) (flag : String) : Option (String → Except String Acc) :=
  match flag with
  | "--limit" => some fun v => return { acc with limit := some (← intValue flag v) }
  | "--begin" => some fun v => .ok { acc with beginAt := some v }
  | "--end" => some fun v => .ok { acc with endAt := some v }
  | "--scope" => some fun v => .ok { acc with scope := some v }
  | "--depth" => some fun v => return { acc with depth := some (← intValue flag v) }
  | "--filter" => some fun v => .ok { acc with filter := some v }
  | "--exclude" => some fun v => .ok { acc with exclude := some v }
  | "--at" => some fun v => .ok { acc with at_ := some v }
  | "--condition" => some fun v => .ok { acc with condition := acc.condition ++ [v] }
  | "--show" => some fun v => .ok { acc with show_ := some v }
  | "--kdb" => some fun v => .ok { acc with kdb := some v }
  | "--top" => some fun v => .ok { acc with top := some v }
  | "--of" => some fun v => .ok { acc with of_ := some v }
  | _ => none

/-- A token that is no known flag: an unknown flag, the subcommand or a positional. -/
def otherToken (acc : Acc) (batchMode : Bool) (tok : String) : Except String Acc :=
  if tok = "--changed" then
    .error "--changed is not available; did you mean --condition \"changed(SIG)\"?"
  else if Str.startsWith "--" tok then
    .error ("unrecognized argument: " ++ tok)
  else if Str.startsWith "-" tok && decide (1 < Str.len tok) && acc.command.isSome then
    .error ("unrecognized argument: " ++ tok)
  else if batchMode then
    .ok { acc with positionals := acc.positionals ++ [tok] }
  else if acc.command.isNone then
    match Command.fromStr tok with
    | some c => .ok { acc with command := some c }
    | none =>
      .error ("invalid command: '" ++ tok ++ "' (choose from info, list, dump, summary, " ++
        "snapshot, compare, search, tree, trace)")
  else .ok { acc with positionals := acc.positionals ++ [tok] }

/-- `accumulate`: the token loop. -/
def accumulate (batchMode : Bool) (acc : Acc) : List String → Except String Acc
  | [] => .ok acc
  | tok :: rest =>
    match switch acc tok with
    | some acc => acc.bind fun acc => accumulate batchMode acc rest
    | none =>
      match valueFlag acc tok with
      | some set =>
        match rest with
        | [] => .error (tok ++ " requires a value")
        | v :: rest => (set v).bind fun acc => accumulate batchMode acc rest
      | none => (otherToken acc batchMode tok).bind fun acc => accumulate batchMode acc rest

/-! ## The checks -/

/-- `as_deref().is_some_and(|s| !s.trim().is_empty())`. -/
def given (v : Option String) : Bool := v.any fun s => !Str.isEmpty (Str.trim s)

/-- `check_required`. -/
def checkRequired (command : Command) (at_ : Option String) (condition : List String)
    (target : Option String) : Except String Unit :=
  match command with
  | .snapshot | .compare =>
    if at_.isNone then .error "the following arguments are required: --at" else .ok ()
  | .search =>
    if condition.isEmpty then .error "the following arguments are required: --condition" else .ok ()
  | .trace =>
    if !given target then
      .error "the following arguments are required: <signal> (rwave trace <file> <signal>)"
    else .ok ()
  | _ => .ok ()

/-- `dir_override`: the trace direction the invocation spelled out. -/
def dirOverride (acc : Acc) : Option Bool :=
  if acc.load then some true else if acc.driver then some false else none

/-- `accepts_flag`. -/
def acceptsFlag (command : Command) (flag : String) : Bool :=
  if flag = "--begin" ∨ flag = "--end" then
    [Command.dump, .summary, .search].contains command
  else if flag = "--at" then [Command.snapshot, .compare, .trace].contains command
  else if flag = "--scope" ∨ flag = "--depth" then
    [Command.list, .dump, .summary, .snapshot, .compare, .search, .tree].contains command
  else if flag = "--filter" ∨ flag = "--exclude" ∨ flag = "--exact" then
    [Command.list, .dump, .summary, .snapshot, .compare, .search].contains command
  else if flag = "--condition" ∨ flag = "--show" then command == .search
  else if ["--driver", "--load", "--control", "--kdb", "--top"].contains flag then
    command == .trace
  else if flag = "--of" then command == .tree
  else true

/-- `misuse_hint`. -/
def misuseHint (command : Command) (flag : String) : String :=
  let window := flag = "--begin" ∨ flag = "--end"
  if command = .snapshot ∧ window then "; snapshot reads one instant, named by --at"
  else if command = .compare ∧ window then "; compare reads two instants, named by --at T1,T2"
  else if window then "; dump, summary and search are the commands that take a window"
  else if [Command.dump, .summary, .search].contains command ∧ flag = "--at" then
    "; use --begin/--end for a time window"
  else if flag = "--at" then
    "; snapshot, compare and trace are the commands that read one instant"
  else if command = .info then "; info describes the file as a whole and selects nothing"
  else if command = .trace then "; trace works from the signal named on the command line"
  else if command = .tree ∧ ["--filter", "--exclude", "--exact"].contains flag then
    "; tree selects with --scope and --depth"
  else if flag = "--condition" ∨ flag = "--show" then "; only search takes them"
  else if ["--driver", "--load", "--control", "--kdb", "--top"].contains flag then
    "; only trace takes it"
  else if flag = "--of" then "; only tree takes it"
  else ""

/-- The flags the invocation gave, in the order of `check_command_flags`. -/
def givenFlags (acc : Acc) : List String :=
  ([(acc.beginAt.isSome, "--begin"), (acc.endAt.isSome, "--end"), (acc.at_.isSome, "--at"),
    (acc.scope.isSome, "--scope"), (acc.depth.isSome, "--depth"), (acc.filter.isSome, "--filter"),
    (acc.exclude.isSome, "--exclude"), (acc.exact, "--exact"),
    (!acc.condition.isEmpty, "--condition"), (acc.show_.isSome, "--show"),
    (acc.driver, "--driver"), (acc.load, "--load"), (acc.control, "--control"),
    (acc.kdb.isSome, "--kdb"), (acc.top.isSome, "--top"), (acc.of_.isSome, "--of")].filter
      Prod.fst).map Prod.snd

/-- `check_command_flags`. -/
def checkCommandFlags (command : Command) (acc : Acc) : Except String Unit :=
  match (givenFlags acc).find? fun flag => !acceptsFlag command flag with
  | some flag =>
    .error (flag ++ " does not apply to " ++ cmdName command ++ misuseHint command flag)
  | none => .ok ()

/-- `check_of_conflict`. -/
def checkOfConflict (command : Command) (of_ scope : Option String) (depth : Option Int)
    (target : Option String) : Except String Unit :=
  if command ≠ .tree then .ok ()
  else if !given of_ then .ok ()
  else if given scope || given target then .error "--of and a scope are alternatives; give one"
  else if depth.isSome then
    .error "--depth does not apply to --of, which walks up to the root"
  else .ok ()

/-- `check_limit`. -/
def checkLimit : Option Int → Except String Unit
  | some n => if n < 0 then .error ("limit must be non-negative; got " ++ toString n) else .ok ()
  | none => .ok ()

/-- `check_depth`. -/
def checkDepth (command : Command) (depth : Option Int) (scope : Option String) :
    Except String Unit :=
  match depth with
  | none => .ok ()
  | some n =>
    if n ≤ 0 then .error ("depth must be positive; got " ++ toString n)
    else if command = .tree then .ok ()
    else if !given scope then
      .error "--depth requires --scope (depth is counted from the scope root)"
    else .ok ()

/-! ## Lines -/

/-- The depth of the merged line: a line that clears the scope drops an inherited depth. -/
def mergedDepth (command : Command) (acc : Acc) (defaults : Defaults) : Option Int :=
  let blankScope := acc.scope.any fun s => Str.isEmpty (Str.trim s)
  if blankScope && acc.depth.isNone && command != .tree then none else acc.depth.or defaults.depth

/-- `parse_batch_line`. -/
def parseBatchLine (tokens : List String) (file : String) (defaults : Defaults) :
    Except String Args := do
  let acc ← accumulate false {} tokens
  match acc.command with
  | none =>
    throw ("missing command (each line must start with a subcommand: info, list, dump, " ++
      "summary, snapshot, compare, search, tree, trace)")
  | some command =>
    let allowed := if command.takesTarget then 1 else 0
    if acc.positionals.length > allowed then
      let extra := Str.join " " (acc.positionals.drop allowed)
      if allowed = 0 then
        throw ("unexpected argument: " ++ extra ++
          " (the waveform file is given once on the --batch line, not per command)")
      else throw ("unexpected extra arguments: " ++ extra)
    checkCommandFlags command acc
    let target := acc.positionals.head?
    let limit := acc.limit.or defaults.limit
    let scope := acc.scope.or defaults.scope
    let depth := mergedDepth command acc defaults
    let at_ := acc.at_.or defaults.at_
    let condition := if acc.condition.isEmpty then defaults.condition else acc.condition
    let of_ := acc.of_.or defaults.of_
    checkRequired command at_ condition target
    checkOfConflict command of_ scope depth target
    checkLimit limit
    checkDepth command depth scope
    return {
      command
      file
      json := false
      limit
      verbose := acc.verbose || defaults.verbose
      beginAt := acc.beginAt.or defaults.beginAt
      endAt := acc.endAt.or defaults.endAt
      scope
      depth
      filter := acc.filter.or defaults.filter
      exclude := acc.exclude.or defaults.exclude
      exact := acc.exact || defaults.exact
      at_
      condition
      show_ := acc.show_.or defaults.show_
      target
      load := ((dirOverride acc).or defaults.load).getD false
      control := acc.control || defaults.control
      kdb := acc.kdb.or defaults.kdb
      top := acc.top.or defaults.top
      of_ }

/-- Where the tokenizer is: outside quotes, or inside single or double ones. -/
inductive Mode where
  | plain
  | single
  | double
  deriving DecidableEq, Repr

/-- The tokens so far and the current one. -/
structure Tokens where
  tokens : List String
  cur : List Char
  inToken : Bool
  deriving DecidableEq, Repr

def Tokens.push (s : Tokens) (c : Char) : Tokens := { s with cur := s.cur ++ [c] }

/-- The current token is complete, if there is one. -/
def Tokens.flush (s : Tokens) : Tokens :=
  if s.inToken then ⟨s.tokens ++ [.ofList s.cur], [], false⟩ else s

/-- The loop of `split_line`. -/
def splitFrom (mode : Mode) (s : Tokens) :
    List Char → Except String (List String × Option String)
  | [] =>
    match mode with
    | .plain => .ok (s.flush.tokens, none)
    | .single => .error "unterminated single quote"
    | .double => .error "unterminated double quote"
  | c :: rest =>
    match mode with
    | .plain =>
      if c = ' ' ∨ c = '\t' ∨ c = '\r' ∨ c = '\n' then splitFrom .plain s.flush rest
      else if c = '#' ∧ s.inToken = false then
        let trimmed := Str.trim (.ofList rest)
        .ok (s.tokens, if Str.isEmpty trimmed then none else some trimmed)
      else if c = '\'' then splitFrom .single { s with inToken := true } rest
      else if c = '"' then splitFrom .double { s with inToken := true } rest
      else if c = '\\' then
        match rest with
        | d :: rest => splitFrom .plain ({ s with inToken := true }.push d) rest
        | [] => .error "line ends with an unescaped backslash"
      else splitFrom .plain ({ s with inToken := true }.push c) rest
    | .single => if c = '\'' then splitFrom .plain s rest else splitFrom .single (s.push c) rest
    | .double =>
      if c = '"' then splitFrom .plain s rest
      else if c = '\\' ∧ (rest.head? = some '"' ∨ rest.head? = some '\\') then
        match rest with
        | d :: rest => splitFrom .double (s.push d) rest
        | [] => .error "unterminated double quote"
      else splitFrom .double (s.push c) rest

/-- `split_line`: the tokens of a batch line, and its label. -/
def splitLine (line : String) : Except String (List String × Option String) :=
  splitFrom .plain ⟨[], [], false⟩ line.toList

end RWave.Cli
