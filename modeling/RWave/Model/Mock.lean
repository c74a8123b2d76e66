import RWave.Model.Wave
import RWave.Str

/-!
# The in-memory backend of the source's tests

The `MockBackend` of `windowed_equiv_tests`: a backend whose traces are given, which can serve
windows in either of the two documented shapes, or not at all. It is where the results about
every file are run on one file.
-/

namespace RWave.Model

open RWave.Backend

structure MockBackend where
  data : List (BackendSid × SignalTrace)
  windowed : Bool
  wlfSeedShape : Bool

namespace MockBackend

variable (m : MockBackend)

def changes (bsid : BackendSid) : SignalTrace :=
  match m.data.find? fun entry => entry.1 == bsid with
  | some (_, changes) => changes
  | none => []

/-- `window_trace`: the last change at or before `from` and the changes after it; in the WLF
shape, the last change before `from` tagged `from - 1` and the changes from `from` on. -/
def windowTrace (bsid : BackendSid) (frm : Int) (upto : Option Int) : SignalTrace :=
  let ch := m.changes bsid
  if m.wlfSeedShape then
    ((ch.reverse.find? fun c => decide (c.tick < frm)).map fun c => ⟨frm - 1, c.value⟩).toList ++
      ch.filter fun c => decide (c.tick ≥ frm) && upto.all fun hi => decide (c.tick ≤ hi)
  else
    (ch.reverse.find? fun c => decide (c.tick ≤ frm)).toList ++
      ch.filter fun c => decide (c.tick > frm) && upto.all fun hi => decide (c.tick ≤ hi)

def timeRange : Option (Int × Int) :=
  let ticks := m.data.flatMap fun entry => entry.2.times
  match ticks.min?, ticks.max? with
  | some lo, some hi => some (lo, hi)
  | _, _ => none

def backend : WaveformBackend where
  path := "mock"
  fileFormat := .unknown
  timescale := ⟨⟨0x3E112E0BE826D695⟩, "1ns"⟩
  date := ""
  version := ""
  comments := []
  timeRange := m.timeRange
  timeStepCount := 0
  loadTrace := m.changes
  supportsWindowed := m.windowed
  loadTracesWindowed sids frm upto := sids.map fun sid => m.windowTrace sid frm upto
  designQuery := none

/-- The signal table of the declared variables `top.s0`, `top.s1`, …. -/
def signals : List SignalInfo :=
  m.data.zipIdx.map fun (entry, i) =>
    { path := "top.s" ++ toString i
      aliases := ["top.s" ++ toString i]
      width := 1
      typeStr := "wire"
      kind := .bits
      aliasScopes := ["top"]
      declOrder := i
      backendSid := entry.1 }

def file : File where
  backend := m.backend
  signals := m.signals
  rawVarCount := m.data.length
  typeCounts := [("wire", m.data.length)]

/-- The in-memory backend declares its signals in order. -/
theorem file_distinct : m.file.DeclDistinct := by
  have decl : ∀ a : m.file.Sid, (m.file.signal a).declOrder = a := by
    rintro ⟨i, inside⟩
    change (m.signals.get ⟨i, inside⟩).declOrder = i
    rw [List.get_eq_getElem]
    simp [signals]
  intro a b same
  rw [decl, decl] at same
  exact Fin.ext same

/-- Its traces are in time order when the given ones are. -/
theorem file_ordered (ordered : ∀ entry ∈ m.data, SignalTrace.Ordered entry.2) :
    m.file.TracesOrdered := by
  intro sid
  change (m.changes (m.file.signal sid).backendSid).Ordered
  unfold changes
  split
  next found => exact ordered _ (List.mem_of_find?_eq_some found)
  next => exact List.Pairwise.nil

/-- A host for a file of logic values and ASCII names: none of its numbers is looked at. -/
def host : Host where
  display _ := "0"
  parse _ := none
  displaySci _ _ := "0e0"
  displayFixed _ _ := "0"
  mul x _ := x
  div x _ := x
  sub x _ := x
  add x _ := x
  abs x := x
  round x := x
  floor x := x
  trunc x := x
  isFinite _ := true
  eq x y := x == y
  lt _ _ := false
  ofI64 _ := ⟨0⟩
  toI64 _ := 0
  toLowercase := Str.toAsciiLowercase

end MockBackend

end RWave.Model
