import RWave.Commands.Isolation

/-!
# Batch mode

`batch.rs`: one command per line of a stream, all of them on one open waveform. The trace cache is
handed from line to line. A line that fails yields an error entry and does not stop the batch; a
stream that cannot be read does.

A batch is its command lines run one after the other (`runLines_eq`), and every command is isolated.
So each line answers as it would alone on a freshly opened waveform.
-/

namespace RWave.Batch

open RWave.Backend RWave.Model RWave.Misc RWave.Commands RWave.Cli

variable {F : File}

inductive ExitCode where
  | success
  | failure
  deriving DecidableEq, Repr

/-- What the batch emits for one command. -/
structure Entry where
  id : String
  result : Except String Output

/-- A finished batch: what it emitted, the line on stderr, how it ended, and the cache it left. -/
structure Finished (F : File) where
  entries : List Entry
  error : Option String
  exit : ExitCode
  wave : Wave F

/-- The command of a line: its tokens are parsed with the file and the options of the batch, and
go to `compute` or to `render_text`. -/
def command (env : Env F) (inv : BatchInvocation) (tokens : List String) : Cmd F Output := do
  let args ← Prog.lift (parseBatchLine tokens inv.file inv.defaults)
  if inv.json then return .json (← compute env args)
  else return .text (← renderText env args)

/-- The loop of `run_batch`. `seq` is the number of commands so far. An item of the stream is a line
or the error of reading it. -/
def runLines (env : Env F) (inv : BatchInvocation) (seq : Nat) (w : Wave F) :
    List (Except String String) → Finished F
  | [] => ⟨[], none, .success, w⟩
  | .error e :: _ => ⟨[], some ("Error: failed to read command stream: " ++ e), .failure, w⟩
  | .ok line :: rest =>
    match splitLine line with
    | .error msg =>
      let next := runLines env inv (seq + 1) w rest
      { next with entries := ⟨toString (seq + 1), .error msg⟩ :: next.entries }
    | .ok (tokens, label) =>
      -- A blank line or a comment does not take a number.
      if tokens.isEmpty then runLines env inv seq w rest
      else
        let cmd := command env inv tokens
        let next := runLines env inv (seq + 1) (cmd.final w) rest
        { next with
          entries := ⟨label.getD (toString (seq + 1)), cmd.result w⟩ :: next.entries }

/-- `run_batch`. -/
def runBatch (env : Env F) (inv : BatchInvocation) (w : Wave F)
    (stream : List (Except String String)) : Finished F :=
  runLines env inv 0 w stream

/-- `emit`: the JSON framing of a result, and the text framing of a failure. -/
def emit (json : Bool) (id : String) (result : Except String Json) : List String :=
  if json then
    let obj := Obj.new.push "id" (.str id)
    let obj :=
      match result with
      | .ok value => (obj.push "ok" (.bool true)).push "result" value
      | .error msg => (obj.push "ok" (.bool false)).push "error" (.str msg)
    [obj.build.toCompactString]
  else
    ("#" ++ id) ::
      match result with
      | .ok _ => []
      | .error msg => ["Error: " ++ msg]

/-- What the batch prints for an entry. -/
def Entry.lines (json : Bool) (e : Entry) : List String :=
  match e.result with
  | .ok (.json value) => emit true e.id (.ok value)
  | .ok (.text lines) => ("#" ++ e.id) :: lines
  | .error msg => emit json e.id (.error msg)

/-! ## The command lines of a stream -/

/-- A line that takes a number: its id, with its tokens or why it has none. -/
structure CommandLine where
  id : String
  tokens : Except String (List String)

/-- The command lines of a stream, up to the first item that cannot be read. -/
def commandLines (seq : Nat) : List (Except String String) → List CommandLine
  | [] => []
  | .error _ :: _ => []
  | .ok line :: rest =>
    match splitLine line with
    | .error msg => ⟨toString (seq + 1), .error msg⟩ :: commandLines (seq + 1) rest
    | .ok (tokens, label) =>
      if tokens.isEmpty then commandLines seq rest
      else ⟨label.getD (toString (seq + 1)), .ok tokens⟩ :: commandLines (seq + 1) rest

namespace CommandLine

/-- The program of a command line. -/
def program (env : Env F) (inv : BatchInvocation) (l : CommandLine) : Cmd F Output := do
  command env inv (← Prog.lift l.tokens)

/-- The result of the line's command alone: a single invocation (`commands::run`) on a freshly
opened waveform. -/
def alone (env : Env F) (inv : BatchInvocation) (l : CommandLine) : Except String Output := do
  let args ← parseBatchLine (← l.tokens) inv.file inv.defaults
  (run env { args with json := inv.json }).result (Wave.fresh F)

end CommandLine

/-- What a batch line runs is a single invocation with the batch's `--json`: no command looks at
that option itself. -/
theorem command_run (env : Env F) (inv : BatchInvocation) (tokens : List String) :
    command env inv tokens = (do
      let args ← Prog.lift (parseBatchLine tokens inv.file inv.defaults)
      run env { args with json := inv.json }) := rfl

theorem CommandLine.program_result (env : Env F) (inv : BatchInvocation) (l : CommandLine) :
    (l.program env inv).result (Wave.fresh F) = l.alone env inv := by
  obtain ⟨id, tokens⟩ := l
  rw [program, alone, Prog.result_bind, Prog.result_lift]
  cases tokens with
  | error msg => rfl
  | ok tokens =>
    dsimp only
    rw [command_run, Prog.result_bind, Prog.result_lift]
    cases parsed : parseBatchLine tokens inv.file inv.defaults with
    | error msg => simp [bind, Except.bind, parsed]
    | ok args => simp [bind, Except.bind, parsed]

theorem isolated_command (env : Env F) (inv : BatchInvocation) (tokens : List String) :
    IsolatedCmd (command env inv tokens) :=
  Isolated.bind (Isolated.lift _) fun args => isolated_run env { args with json := inv.json }

theorem isolated_program (env : Env F) (inv : BatchInvocation) (l : CommandLine) :
    IsolatedCmd (l.program env inv) :=
  Isolated.bind (Isolated.lift _) fun tokens => isolated_command env inv tokens

/-- The loop runs the programs of the command lines one after the other. -/
theorem runLines_eq (env : Env F) (inv : BatchInvocation) (seq : Nat) (w : Wave F)
    (stream : List (Except String String)) :
    let lines := commandLines seq stream
    let all := runAll w (lines.map (CommandLine.program env inv))
    (runLines env inv seq w stream).entries =
      List.zipWith (fun l result => ⟨l.id, result⟩) lines all.1 ∧
    (runLines env inv seq w stream).wave = all.2 := by
  fun_induction runLines env inv seq w stream with
  | case1 seq w => exact ⟨rfl, rfl⟩
  | case2 seq w e rest => exact ⟨rfl, rfl⟩
  | case3 seq w line rest msg failed next ih =>
    rw [commandLines, failed]
    exact ⟨congrArg _ ih.1, ih.2⟩
  | case4 seq w line rest tokens label split empty ih =>
    rw [commandLines, split]
    simpa [empty] using ih
  | case5 seq w line rest tokens label split nonempty cmd next ih =>
    rw [commandLines, split]
    simp only [nonempty]
    exact ⟨congrArg _ ih.1, ih.2⟩

/-! ## Isolation -/

/-- The caches a session can reach: commands run, with any outcome, and within a command traces are
loaded and released. -/
inductive Reachable (env : Env F) : Wave F → Prop where
  | fresh : Reachable env (Wave.fresh F)
  | ensureLoaded {w : Wave F} (sids : List F.Sid) (before : Reachable env w) :
    Reachable env (w.ensureLoaded sids)
  | releaseTraces {w : Wave F} (sids : List F.Sid) (before : Reachable env w) :
    Reachable env (w.releaseTraces sids)
  | compute {w : Wave F} (args : Args) (before : Reachable env w) :
    Reachable env ((Commands.compute env args).final w)
  | renderText {w : Wave F} (args : Args) (before : Reachable env w) :
    Reachable env ((Commands.renderText env args).final w)

theorem Reachable.consistent {env : Env F} {w : Wave F} (reachable : Reachable env w) :
    w.Consistent := by
  induction reachable with
  | fresh => exact Wave.consistent_fresh F
  | ensureLoaded sids before ih => exact ih.ensureLoaded sids
  | releaseTraces sids before ih => exact ih.releaseTraces sids
  | compute args before ih => exact (isolated_compute env args).keeps ih
  | renderText args before ih => exact (isolated_renderText env args).keeps ih

/-- A command line that does not parse leaves the cache alone; one that does runs its command. -/
theorem command_final (env : Env F) (inv : BatchInvocation) (tokens : List String) (w : Wave F) :
    (command env inv tokens).final w =
      match parseBatchLine tokens inv.file inv.defaults with
      | .ok args =>
        if inv.json then (compute env args).final w else (renderText env args).final w
      | .error _ => w := by
  rw [command, Prog.final_bind, Prog.result_lift, Prog.final_lift]
  cases parseBatchLine tokens inv.file inv.defaults with
  | error msg => rfl
  | ok args =>
    dsimp only
    split
    · exact Prog.final_bind_pure _ _ w
    · exact Prog.final_bind_pure _ _ w

theorem Reachable.runLines {env : Env F} {w : Wave F} (reachable : Reachable env w)
    (inv : BatchInvocation) (seq : Nat) (stream : List (Except String String)) :
    Reachable env (runLines env inv seq w stream).wave := by
  fun_induction Batch.runLines env inv seq w stream with
  | case1 seq w => exact reachable
  | case2 seq w e rest => exact reachable
  | case3 seq w line rest msg failed next ih => exact ih reachable
  | case4 seq w line rest tokens label split empty ih => exact ih reachable
  | case5 seq w line rest tokens label split nonempty cmd next ih =>
    apply ih
    rw [command_final]
    split
    next args parsed =>
      split
      · exact .compute args reachable
      · exact .renderText args reachable
    next => exact reachable

/-- Batch isolation. In every reachable cache an entry is absent or complete; no command sees which
entries are resident; and every line of a batch answers as its command does alone on a freshly
opened waveform. -/
theorem batch_isolation (env : Env F) (inv : BatchInvocation)
    (stream : List (Except String String)) :
    (∀ w, Reachable env w →
      (∀ sid, w.traces sid = none ∨ w.traces sid = some (F.traceOf sid)) ∧
      ∀ args, (compute env args).result w = (compute env args).result (Wave.fresh F) ∧
        (renderText env args).result w = (renderText env args).result (Wave.fresh F)) ∧
    Reachable env (runBatch env inv (Wave.fresh F) stream).wave ∧
    (runBatch env inv (Wave.fresh F) stream).entries =
      (commandLines 0 stream).map fun l => ⟨l.id, l.alone env inv⟩ := by
  have fresh := Wave.consistent_fresh F
  refine ⟨fun w reachable => ⟨fun sid => ?_, fun args => ⟨?_, ?_⟩⟩,
    Reachable.fresh.runLines inv 0 stream, ?_⟩
  · cases found : w.traces sid with
    | none => exact .inl rfl
    | some tr => exact .inr (congrArg some (reachable.consistent sid tr found))
  · exact (isolated_compute env args).same _ _ reachable.consistent fresh
  · exact (isolated_renderText env args).same _ _ reachable.consistent fresh
  · have isolated : ∀ m ∈ (commandLines 0 stream).map (CommandLine.program env inv),
        IsolatedCmd m := by
      intro m member
      obtain ⟨l, -, rfl⟩ := List.mem_map.mp member
      exact isolated_program env inv l
    rw [runBatch, (runLines_eq env inv 0 (Wave.fresh F) stream).1,
      (runAll_results isolated fresh fresh).1, List.map_map, List.zipWith_map_right,
      List.zipWith_self]
    refine List.map_congr_left ?_
    intro l _
    rw [Function.comp_apply, l.program_result]

end RWave.Batch
