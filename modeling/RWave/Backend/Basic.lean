import RWave.Backend.Value

/-!
# The backend contract

`WaveformBackend` and `DesignQuery` as the domain model sees them. A backend answers from one
file, so its methods are functions of their arguments: `loadTraces` decodes one trace for each
requested handle, in order; `loadTracesWindowed` and the design queries are any functions.

That a handle has the same complete trace in every request is the contract of the trait. A WLF scan
that fails breaks it: that one request is then answered with incomplete, mostly empty, traces.
-/

namespace RWave.Backend

/-- Container format of a waveform file. -/
inductive FileFormat where
  | vcd
  | fst
  | ghw
  | unknown
  deriving DecidableEq, Repr

/-- `FileFormat::tag`. -/
def FileFormat.tag : FileFormat → String
  | .vcd => "vcd"
  | .fst => "fst"
  | .ghw => "ghw"
  | .unknown => "unknown"

structure Timescale where
  secondsPerTick : F64
  display : String
  deriving DecidableEq, Repr

/-! ## Design queries -/

/-- What kind of construct drives or reads a signal. -/
inductive HopKind where
  | contAssign
  | procedural
  | port
  | control
  | constant
  | other
  deriving DecidableEq, Repr

/-- `HopKind::tag`. -/
def HopKind.tag : HopKind → String
  | .contAssign => "assign"
  | .procedural => "procedural"
  | .port => "port"
  | .control => "control"
  | .constant => "constant"
  | .other => "other"

/-- One endpoint: a statement that drives or reads the queried signal. -/
structure Hop where
  group : Nat
  kind : HopKind
  npiType : String
  statement : String
  scope : String
  file : Option String
  line : Option Nat
  boundary : Bool
  signals : List String
  deriving DecidableEq, Repr

inductive TraceStatus where
  | resolved
  | notFound
  | boundaryOnly
  deriving DecidableEq, Repr

/-- `TraceStatus::tag`. -/
def TraceStatus.tag : TraceStatus → String
  | .resolved => "resolved"
  | .notFound => "no_driver_found"
  | .boundaryOnly => "boundary_only"

structure TraceOutcome where
  hops : List Hop
  status : TraceStatus
  deriving DecidableEq, Repr

inductive Direction where
  | driver
  | load
  deriving DecidableEq, Repr

/-- `Direction::tag`. -/
def Direction.tag : Direction → String
  | .driver => "driver"
  | .load => "load"

/-- `DesignQuery`: the answers are functions of the design library and the top-level hint. -/
structure DesignQuery where
  recordedDesignDir : Option String
  ensureDesign : (kdb : String) → (top : Option String) → Except String Unit
  trace : (kdb : String) → (top : Option String) → (signal : String) → Direction →
    (control : Bool) → Except String TraceOutcome

/-! ## The backend -/

structure WaveformBackend where
  path : String
  fileFormat : FileFormat
  timescale : Timescale
  date : String
  version : String
  comments : List String
  timeRange : Option (Int × Int)
  timeStepCount : Nat
  /-- The complete trace of a handle; an unknown handle has an empty one. -/
  loadTrace : BackendSid → SignalTrace
  supportsWindowed : Bool
  /-- `load_traces_windowed(sids, from, to)`; `to = none` means to the end. -/
  loadTracesWindowed : List BackendSid → Int → Option Int → List SignalTrace
  designQuery : Option DesignQuery

/-- `load_traces`: one trace per requested handle, in order. -/
def WaveformBackend.loadTraces (b : WaveformBackend) (sids : List BackendSid) : List SignalTrace :=
  sids.map b.loadTrace

end RWave.Backend
