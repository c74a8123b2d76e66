import RWave.Cli.Loop

/-!
# Whole invocations

The part of `cli.rs` that reads `argv`: a single command, or a `--batch` invocation with the
options its lines inherit. A line of a batch run is read like the single command that names the
file: both resolvers make the same of what the token loop gives them.
-/

namespace RWave.Cli

/-- `CARGO_PKG_VERSION`. -/
def version : String := "0.3.1"

/-- `help_text`. -/
def helpText : String :=
  "rwave " ++ version ++ " — AI-agent-friendly VCD/FST waveform analyzer

Usage: rwave [--json] [--limit N] [--verbose] <command> <file> [options]
       rwave --batch [--json] <file> [global-opts] < commands.txt

Commands:
  info      <file>                              File overview (timescale, signals, time span, scopes)
  list      <file> [selection]                  List signals (one row per alias path)
  dump      <file> [--begin T] [--end T] [selection]
                                                Print value-change events in time order
  summary   <file> [--begin T] [--end T] [selection]
                                                Per-signal stats: change count, edges, static detection
  snapshot  <file> --at T [selection]           Known signal values at a given time point
  compare   <file> --at T1,T2 [selection]       Diff signal values between two time points
  search    <file> --condition C [--condition C2 ...] [--show K1,K2] [--begin T] [--end T]
                                                Conditional search; comma = AND within a --condition, repeat --condition to OR the clauses;
                                                a changed(SIG) term fires at SIG's transitions (event mode)
  tree      <file> [SCOPE] [--depth N] [--of SIGNAL]
                                                Browse the hierarchy: child scopes of SCOPE, or --of's full ancestor chain
  trace     <file> SIGNAL [--load] [--at T] [--control] [--top NAME] [--kdb DIR]
                                                What drives SIGNAL (--load: what reads it), with file:line. Needs an FSDB
                                                opened through the built-in Verdi NPI backend. The design library is read
                                                from the FSDB itself; --kdb is only for when it has moved. On by default;
                                                RWAVE_TRACE_EN=0 turns it off.

Selection options (all five on every command except info, tree, and trace;
tree takes --scope and --depth only):
  --scope P1,P2     Restrict to hierarchy subtrees. A bare name matches an instance
                    name ('*' and '?' allowed); a path matches as a segment-aligned
                    suffix of a scope path, so 'u_tx.u_fifo' finds that subtree
                    wherever it sits.
  --depth N         Keep signals at most N levels below the matched --scope root; a
                    signal sitting directly in the scope is depth 1. Requires --scope.
  --filter K1,K2    Keep signals matching any pattern; omit to keep all.
  --exclude K1,K2   Drop signals matching any pattern; applied last, and usable on
                    its own.
  --exact           A wildcard-free --filter/--exclude pattern must be the whole
                    name, not a substring of it: 'req' then means req and not
                    req_strobe. Patterns with '*'/'?' are anchored either way.
                    Also applies to search's --condition/--show names. A vector's
                    name includes its range, so use 'state[2:0]', not 'state'.

tree reads --scope (or its SCOPE positional) and --depth with the same meaning:
N levels below the matched scope root, tree counting scopes where list counts
signals. Unlike elsewhere, tree accepts --depth without a scope, measuring from
the root. It ignores --filter and --exclude.

Patterns are comma-separated and case-insensitive. One with no separator matches
the signal's leaf name, so 'tx_err' finds the signal and not the synchronizer
instance named after it; one containing a '.' or '/' matches the whole path. Either
way, no '*' or '?' means substring (--exact makes it the whole name instead), and
'*'/'?' make it an anchored glob ('[' and ']' stay literal, for bus ranges). An
empty value ('') means \"not given\".

dump, summary, snapshot and compare print what the selection caught before the
rows —
\"Matched N signals: ...\" — so a pattern that reached further than intended is
visible without a second query. Where a waveform declares one signal under
several names, the matched name and the name the rows carry are both shown.

Selection is decided per alias path: a signal is kept when any one of its paths
clears every option, and list prints only the paths that did. search resolves its
--condition and --show names within the same selection, which is often what makes
an ambiguous name unique; a name spelled as a full path bypasses selection.

Global options:
  --json        Output compact structured JSON instead of text
  --limit N     Max rows/records to emit; default " ++
    toString defaultLimit ++ "; 0 = unlimited
  --verbose     Show extra fields; if --limit is omitted, disables truncation
  --batch       Load <file> once, then read commands (one per line) from stdin
  --version     Print version and exit
  -h, --help    Print this help and exit

Batch mode (--batch): open the file once, then run one command per stdin line;
a large waveform is slow to open, so pay that cost once. Blank and '#' lines
are skipped and a trailing '#tag' names a result. A line is what you would type
after 'rwave' minus the file: 'list --filter clk', 'dump --begin 1us --end 2us'.

Results come back in input order: with --json one NDJSON line each,
\x7b\"id\",\"ok\",\"result\"|\"error\"\x7d; without it a '#label' header before each. A failed
line is ok:false and does not stop the run, which still exits 0 — check every
line. [global-opts] are per-command defaults; a line overrides one, or lifts it
with an empty value (--filter '').

Supports both VCD and FST inputs; the format is auto-detected.
Time values accept fs/ps/ns/us/ms/s suffixes (e.g. 17.5us); a bare integer is raw ticks.
Condition values: decimal 5, hex 0xff, binary b1010, 4-state b1x0z. A '?' in a binary
literal is a don't-care bit: status=b?????1?? tests bit 2 of an 8-bit bus (a short
literal pads with 0, so write every bit; quote the condition in the shell).
A flag a command does not read is an error, not silence, so a mistyped time is
reported rather than ignored.
"

/-- Outcome of parsing `argv`. -/
inductive ParseOutcome where
  | run (args : Args)
  | batch (invocation : BatchInvocation)
  | print (text : String)
  | error (message : String)
  deriving DecidableEq, Repr

/-- The pre-scan of `parse`: whether `--batch` is given, unless there is something to print. -/
def preScan (batchMode skipNext : Bool) : List String → Except ParseOutcome Bool
  | [] => .ok batchMode
  | a :: rest =>
    if skipNext then preScan batchMode false rest
    else if a = "--version" then .error (.print ("rwave " ++ version))
    else if a = "-h" ∨ a = "--help" then .error (.print helpText)
    else preScan (batchMode || a == "--batch") (valueFlags.contains a) rest

/-- `resolve_single`. -/
def resolveSingle (acc : Acc) : Except String ParseOutcome :=
  match acc.command with
  | none => .ok (.print helpText)
  | some command =>
    match acc.positionals with
    | [] =>
      .error ("the following arguments are required: <file> (for '" ++ cmdName command ++ "')")
    | file :: rest => do
      checkCommandFlags command acc
      let allowed := if command.takesTarget then 2 else 1
      if acc.positionals.length > allowed then
        throw ("unexpected extra arguments: " ++ Str.join " " (acc.positionals.drop allowed))
      let target := rest.head?
      checkRequired command acc.at_ acc.condition target
      checkOfConflict command acc.of_ acc.scope acc.depth target
      checkLimit acc.limit
      checkDepth command acc.depth acc.scope
      return .run {
        command
        file
        json := acc.json
        limit := acc.limit
        verbose := acc.verbose
        beginAt := acc.beginAt
        endAt := acc.endAt
        scope := acc.scope
        depth := acc.depth
        filter := acc.filter
        exclude := acc.exclude
        exact := acc.exact
        at_ := acc.at_
        condition := acc.condition
        show_ := acc.show_
        target
        load := (dirOverride acc).getD false
        control := acc.control
        kdb := acc.kdb
        top := acc.top
        of_ := acc.of_ }

/-- The check of a session-wide depth, which may lack a scope. -/
def checkDefaultDepth : Option Int → Except String Unit
  | some n => if n ≤ 0 then .error ("depth must be positive; got " ++ toString n) else .ok ()
  | none => .ok ()

/-- `resolve_batch`. -/
def resolveBatch (acc : Acc) : Except String ParseOutcome := do
  if acc.positionals.any fun p => (Command.fromStr p).isSome then
    throw "--batch cannot be combined with a subcommand; commands are read from stdin"
  match acc.positionals with
  | [] => throw "the following arguments are required: <file>"
  | file :: rest =>
    if acc.positionals.length > 1 then
      throw ("unexpected extra arguments: " ++ Str.join " " rest)
    checkLimit acc.limit
    checkDefaultDepth acc.depth
    return .batch {
      file
      json := acc.json
      defaults := {
        limit := acc.limit
        verbose := acc.verbose
        beginAt := acc.beginAt
        endAt := acc.endAt
        scope := acc.scope
        depth := acc.depth
        filter := acc.filter
        exclude := acc.exclude
        exact := acc.exact
        at_ := acc.at_
        condition := acc.condition
        show_ := acc.show_
        load := dirOverride acc
        control := acc.control
        kdb := acc.kdb
        top := acc.top
        of_ := acc.of_ } }

/-- `parse_inner`. -/
def parseInner (argv : List String) (batchMode : Bool) : Except String ParseOutcome := do
  let acc ← accumulate batchMode {} argv
  if acc.batch then resolveBatch acc else resolveSingle acc

/-- `parse`. -/
def parse (argv : List String) : ParseOutcome :=
  match preScan false false argv with
  | .error outcome => outcome
  | .ok batchMode =>
    if argv.isEmpty then .print helpText
    else
      match parseInner argv batchMode with
      | .ok outcome => outcome
      | .error message => .error message

variable {acc acc' : Acc} {file : String} {tokens : List String}

/-! ## The resolvers -/

/-- The defaults of an invocation that gives none. -/
def Defaults.empty : Defaults :=
  { limit := none, verbose := false, beginAt := none, endAt := none, scope := none, depth := none,
    filter := none, exclude := none, exact := false, at_ := none, condition := [], show_ := none,
    load := none, control := false, kdb := none, top := none, of_ := none }

/-- The arguments of a line: what it gives, and the defaults for the rest. -/
def merged (command : Command) (acc : Acc) (file : String) (defaults : Defaults) : Args :=
  { command
    file
    json := false
    limit := acc.limit.or defaults.limit
    verbose := acc.verbose || defaults.verbose
    beginAt := acc.beginAt.or defaults.beginAt
    endAt := acc.endAt.or defaults.endAt
    scope := acc.scope.or defaults.scope
    depth := mergedDepth command acc defaults
    filter := acc.filter.or defaults.filter
    exclude := acc.exclude.or defaults.exclude
    exact := acc.exact || defaults.exact
    at_ := acc.at_.or defaults.at_
    condition := if acc.condition.isEmpty then defaults.condition else acc.condition
    show_ := acc.show_.or defaults.show_
    target := acc.positionals.head?
    load := ((dirOverride acc).or defaults.load).getD false
    control := acc.control || defaults.control
    kdb := acc.kdb.or defaults.kdb
    top := acc.top.or defaults.top
    of_ := acc.of_.or defaults.of_ }

/-- The checks on arguments, whichever way they were given. -/
structure Args.Checked (a : Args) : Prop where
  required : checkRequired a.command a.at_ a.condition a.target = .ok ()
  conflict : checkOfConflict a.command a.of_ a.scope a.depth a.target = .ok ()
  limit : checkLimit a.limit = .ok ()
  depth : checkDepth a.command a.depth a.scope = .ok ()

/-- The checks on what a line itself spells. -/
structure Acc.Spelled (acc : Acc) (command : Command) : Prop where
  found : acc.command = some command
  positionals : acc.positionals.length ≤ if command.takesTarget then 1 else 0
  flags : checkCommandFlags command acc = .ok ()

/-- The lines `parse_batch_line` accepts, and what it makes of them. -/
theorem parseBatchLine_eq_ok {defaults : Defaults} {a : Args} :
    parseBatchLine tokens file defaults = .ok a ↔
      ∃ acc command, accumulate false {} tokens = .ok acc ∧ acc.Spelled command ∧
        (merged command acc file defaults).Checked ∧ a = merged command acc file defaults := by
  rw [parseBatchLine, Misc.bind_eq_ok]
  refine exists_congr fun acc => ?_
  cases found : acc.command with
  | none =>
    refine iff_of_false (fun read => by cases read.2) ?_
    rintro ⟨command, -, spelled, -⟩
    cases found.symm.trans spelled.found
  | some command =>
    dsimp only
    by_cases extra : acc.positionals.length > if command.takesTarget then 1 else 0
    · rw [if_pos extra]
      refine iff_of_false ?_ ?_
      · split <;> exact fun read => by cases read.2
      · rintro ⟨command', -, spelled, -⟩
        cases found.symm.trans spelled.found
        exact absurd spelled.positionals extra.not_ge
    · rw [if_neg extra]
      simp only [Misc.check_eq_ok]
      constructor
      · rintro ⟨read, flags, required, conflict, limit, depth, new⟩
        cases new
        exact ⟨command, read, ⟨found, not_lt.mp extra, flags⟩, ⟨required, conflict, limit, depth⟩, rfl⟩
      · rintro ⟨command', read, spelled, checked, rfl⟩
        cases found.symm.trans spelled.found
        exact ⟨read, spelled.flags, checked.required, checked.conflict, checked.limit, checked.depth,
          rfl⟩

/-- Without defaults, a line has the options it gives. -/
theorem mergedDepth_empty (command : Command) (acc : Acc) :
    mergedDepth command acc .empty = acc.depth := by
  rw [mergedDepth]
  split
  · rename_i cleared
    simp only [Bool.and_eq_true, Option.isNone_iff_eq_none] at cleared
    exact cleared.1.2.symm
  · exact Option.or_none

theorem merged_empty (command : Command) (acc : Acc) (file : String) :
    merged command acc file .empty =
      { command
        file
        json := false
        limit := acc.limit
        verbose := acc.verbose
        beginAt := acc.beginAt
        endAt := acc.endAt
        scope := acc.scope
        depth := acc.depth
        filter := acc.filter
        exclude := acc.exclude
        exact := acc.exact
        at_ := acc.at_
        condition := acc.condition
        show_ := acc.show_
        target := acc.positionals.head?
        load := (dirOverride acc).getD false
        control := acc.control
        kdb := acc.kdb
        top := acc.top
        of_ := acc.of_ } := by
  have condition : (if acc.condition.isEmpty then [] else acc.condition) = acc.condition := by
    cases acc.condition <;> rfl
  rw [merged, mergedDepth_empty]
  simp only [Defaults.empty, Option.or_none, Bool.or_false, condition]

/-- The single commands `resolve_single` accepts: those whose line it would accept. -/
theorem resolveSingle_eq_run {a : Args} :
    resolveSingle (acc.insert file) = .ok (.run a) ↔
      ∃ command, acc.Spelled command ∧
        (merged command acc file .empty).Checked ∧
        a = { merged command acc file .empty with json := acc.json } := by
  rw [resolveSingle]
  cases found : acc.command with
  | none =>
    simp only [Acc.insert, found]
    refine iff_of_false (fun read => by cases read) ?_
    rintro ⟨command, spelled, -⟩
    cases found.symm.trans spelled.found
  | some command =>
    have flags : checkCommandFlags command (acc.insert file) = checkCommandFlags command acc := rfl
    have direction : dirOverride (acc.insert file) = dirOverride acc := rfl
    simp only [Acc.insert, found, merged_empty] at flags direction ⊢
    rw [Misc.check_eq_ok, flags]
    have count : (file :: acc.positionals).length > (if command.takesTarget then 2 else 1) ↔
        acc.positionals.length > if command.takesTarget then 1 else 0 := by
      rw [List.length_cons]
      split <;> omega
    by_cases extra : (file :: acc.positionals).length > if command.takesTarget then 2 else 1
    · rw [if_pos extra]
      refine iff_of_false (fun read => by cases read.2) ?_
      rintro ⟨command', spelled, -⟩
      cases found.symm.trans spelled.found
      exact absurd spelled.positionals (count.mp extra).not_ge
    · rw [if_neg extra]
      simp only [Misc.check_eq_ok, direction]
      constructor
      · rintro ⟨flags, required, conflict, limit, depth, new⟩
        cases new
        have fits := not_lt.mp (mt count.mpr extra)
        exact ⟨command, ⟨found, fits, flags⟩, ⟨required, conflict, limit, depth⟩, rfl⟩
      · rintro ⟨command', spelled, checked, rfl⟩
        cases found.symm.trans spelled.found
        exact ⟨spelled.flags, checked.required, checked.conflict, checked.limit, checked.depth, rfl⟩

/-! ## Lines and single commands -/

theorem preScan_plain {batchMode skipNext : Bool}
    (plain : ∀ flag ∈ ["--help", "-h", "--version", "--batch"], flag ∉ tokens) :
    preScan batchMode skipNext tokens = .ok batchMode := by
  induction tokens generalizing skipNext with
  | nil => rfl
  | cons tok rest ih =>
    have later : ∀ flag ∈ ["--help", "-h", "--version", "--batch"], flag ∉ rest := fun flag listed =>
      List.not_mem_of_not_mem_cons (plain flag listed)
    have here : ∀ flag ∈ ["--help", "-h", "--version", "--batch"], flag ≠ tok := fun flag listed =>
      List.ne_of_not_mem_cons (plain flag listed)
    simp only [List.forall_mem_cons, List.not_mem_nil, false_imp_iff, forall_const, and_true] at here
    obtain ⟨help, short, version, batch⟩ := here
    rw [preScan]
    split
    · exact ih later
    · have single : (tok == "--batch") = false := by simpa using batch.symm
      rw [if_neg version.symm, if_neg (by simp [help.symm, short.symm]), single, Bool.or_false]
      exact ih later

/-- A batch line without defaults means what the single command means that names the file right
after the command token. -/
theorem parseBatchLine_iff_run {argv : List String}
    (plain : ∀ flag ∈ ["--help", "-h", "--version", "--batch"], flag ∉ tokens)
    (name : Str.startsWith "-" file = false) (inserted : insertFile file tokens = some argv) :
    ((∃ a, parseBatchLine tokens file .empty = .ok a) ↔ ∃ a, parse argv = .run a) ∧
    ∀ a a', parseBatchLine tokens file .empty = .ok a → parse argv = .run a' →
      a = { a' with json := a.json } := by
  obtain ⟨⟨before, command, after⟩, split, rfl⟩ := Option.map_eq_some_iff.mp inserted
  have argvPlain : ∀ flag ∈ ["--help", "-h", "--version", "--batch"],
      flag ∉ before ++ command :: file :: after := by
    intro flag listed member
    have notFile : flag ≠ file := by
      rintro rfl
      fin_cases listed <;> cases name
    apply plain flag listed
    rw [splitAtCommand_eq split]
    simpa [notFile] using member
  have run (a' : Args) : parse (before ++ command :: file :: after) = .run a' ↔
      ∃ acc, accumulate false {} tokens = .ok acc ∧ resolveSingle (acc.insert file) = .ok (.run a') := by
    have nonempty : (before ++ command :: file :: after).isEmpty = false := by simp
    have withFile : accumulate false {} (before ++ command :: file :: after) =
        (accumulate false {} tokens).map (Acc.insert · file) :=
      accumulate_splitAtCommand rfl rfl name split
    simp only [parse, preScan_plain argvPlain, nonempty, parseInner, Bool.false_eq_true, if_false,
      withFile]
    cases read : accumulate false {} tokens with
    | error e => simp [Except.map, bind, Except.bind]
    | ok acc =>
      have single : (acc.insert file).batch = false :=
        accumulate_batch (plain "--batch" (by simp)) read
      simp only [Except.map, bind, Except.bind, single, Bool.false_eq_true, if_false]
      cases resolved : resolveSingle (acc.insert file) <;> simp [resolved]
  have line (a : Args) : parseBatchLine tokens file .empty = .ok a ↔
      ∃ acc command, accumulate false {} tokens = .ok acc ∧ acc.Spelled command ∧
        (merged command acc file .empty).Checked ∧ a = merged command acc file .empty :=
    parseBatchLine_eq_ok
  simp only [run, line, resolveSingle_eq_run]
  refine ⟨⟨?_, ?_⟩, ?_⟩
  · rintro ⟨a, acc, command, read, spelled, checked, -⟩
    exact ⟨_, acc, read, command, spelled, checked, rfl⟩
  · rintro ⟨a, acc, read, command, spelled, checked, -⟩
    exact ⟨_, acc, command, read, spelled, checked, rfl⟩
  · rintro a a' ⟨acc, command, read, spelled, -, rfl⟩ ⟨acc', read', command', spelled', -, rfl⟩
    cases read.symm.trans read'
    cases spelled.found.symm.trans spelled'.found
    rfl

theorem parseBatchLine_iff_run_list :
    parseBatchLine ["--limit", "5", "list", "--filter", "clk"] "x.vcd" .empty =
      .ok { merged .list {} "x.vcd" .empty with limit := some 5, filter := some "clk" } ∧
    ∃ a, parse ["--limit", "5", "list", "x.vcd", "--filter", "clk"] = .run a := by
  have line : parseBatchLine ["--limit", "5", "list", "--filter", "clk"] "x.vcd" .empty =
      .ok { merged .list {} "x.vcd" .empty with limit := some 5, filter := some "clk" } := by
    decide
  have inserted : insertFile "x.vcd" ["--limit", "5", "list", "--filter", "clk"] =
      some ["--limit", "5", "list", "x.vcd", "--filter", "clk"] := by
    decide
  exact ⟨line, (parseBatchLine_iff_run (by simp) rfl inserted).1.mp ⟨_, line⟩⟩

end RWave.Cli
