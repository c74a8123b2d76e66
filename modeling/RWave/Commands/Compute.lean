import RWave.Commands.Dump
import RWave.Commands.Info
import RWave.Commands.SearchCommand
import RWave.Commands.Snapshot
import RWave.Commands.Summary
import RWave.Commands.Trace
import RWave.Commands.Tree

/-!
# Dispatch

`commands/mod.rs`: a parsed command goes through its `compute_*` function for JSON and through its
`text_*` renderer otherwise.
-/

namespace RWave.Commands

open RWave.Backend RWave.Model RWave.Misc RWave.Cli

variable {F : File}

/-- What a command prints: a JSON value, or lines of text. -/
inductive Output where
  | json (value : Json)
  | text (lines : List String)
  deriving Repr

/-- `with_command`: `command` is the first member of every object. -/
def withCommand (command : Command) : Json → Json
  | .object members => .object (("command", .str (cmdName command)) :: members)
  | other => other

/-- `compute_body`. -/
def computeBody (env : Env F) (args : Args) : Cmd F Json :=
  match args.command with
  | .info => computeInfo env args
  | .list => computeList env args
  | .dump => computeDump env args
  | .summary => computeSummary env args
  | .snapshot => computeSnapshot env args
  | .compare => computeCompare env args
  | .search => computeSearch env args
  | .tree => computeTree env args
  | .trace => computeTrace env args

/-- `compute`. -/
def compute (env : Env F) (args : Args) : Cmd F Json := do
  return withCommand args.command (← computeBody env args)

/-- `render_text`. -/
def renderText (env : Env F) (args : Args) : Cmd F (List String) :=
  match args.command with
  | .info => textInfo env args
  | .list => textList env args
  | .dump => textDump env args
  | .summary => textSummary env args
  | .snapshot => textSnapshot env args
  | .compare => textCompare env args
  | .search => textSearch env args
  | .tree => textTree env args
  | .trace => textTrace env args

/-- `run`: the command of a single invocation. -/
def run (env : Env F) (args : Args) : Cmd F Output :=
  if args.json then do return .json (← compute env args)
  else do return .text (← renderText env args)

end RWave.Commands
