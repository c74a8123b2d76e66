import RWave.Host

/-!
# Recorded values and traces

`RawValue`, `SignalTrace` and the neutral parts of `backend/mod.rs`. A tick is an `i64`; the
traces only compare ticks, so it is an `Int` here. A trace's `times` and `values` are two
vectors of one length; here they are the two columns of one list of changes, so that a trace
with columns of different lengths cannot be built.
-/

namespace RWave.Backend

/-- A signal's formatting class (`format::ValueKind`). -/
inductive ValueKind where
  | bits
  | real
  | str
  | event
  deriving DecidableEq, Repr

/-- A decoded value. The bits of a logic vector are a string, most significant bit first. -/
inductive RawValue where
  | bits (b : String)
  | real (r : F64)
  | str (s : String)
  | event
  deriving DecidableEq, Repr

/-- `RawValue::raw_str`: the string used for comparison and display. -/
def RawValue.rawStr (host : Host) : RawValue → String
  | .bits b => b
  | .real r => host.display r
  | .str s => s
  | .event => ""

/-- `values_equal`: reals by bit pattern, everything else by content. `plugin_backend` and
`fst_window` each have this function. -/
def valuesEqual : RawValue → RawValue → Bool
  | .real x, .real y => x.toBits == y.toBits
  | .bits a, .bits b => a == b
  | .str a, .str b => a == b
  | .event, .event => true
  | _, _ => false

/-- Reals are their bit patterns here, so `values_equal` is equality. -/
@[simp] theorem valuesEqual_iff {a b : RawValue} : valuesEqual a b = true ↔ a = b := by
  cases a <;> cases b <;> simp [valuesEqual]
  next x y => cases x; cases y; simp

/-- One value change: the tick and the value the signal took. -/
structure Change where
  tick : Int
  value : RawValue
  deriving DecidableEq, Repr

/-- A signal's decoded change history, in time order. -/
abbrev SignalTrace := List Change

/-- `t0 <= tick`, and `tick <= t1` when there is an upper bound. -/
def inWindow (t0 : Int) (t1 : Option Int) (tick : Int) : Bool :=
  decide (t0 ≤ tick) && t1.all fun t1 => decide (tick ≤ t1)

/-- Of a tick that is not past the end only the beginning is asked. -/
theorem inWindow_of_inTime {t0 tick : Int} {t1 : Option Int}
    (inTime : ¬ (t1.any fun t1 => decide (t1 < tick)) = true) :
    inWindow t0 t1 tick = decide (t0 ≤ tick) := by
  cases t1 with
  | none => simp [inWindow]
  | some t1 => simpa [inWindow] using fun _ => by simpa using inTime

theorem inWindow_some {t0 t1 tick : Int} :
    inWindow t0 (some t1) tick = true ↔ t0 ≤ tick ∧ tick ≤ t1 := by
  simp only [inWindow, Option.all_some, Bool.and_eq_true, decide_eq_true_eq]

namespace SignalTrace

def times (tr : SignalTrace) : List Int := tr.map Change.tick

/-- The times are non-decreasing. -/
def Ordered (tr : SignalTrace) : Prop := tr.Pairwise fun a b => a.tick ≤ b.tick

/-- Induction on a trace by its last change. -/
@[elab_as_elim]
theorem snocInduction {motive : SignalTrace → Prop} (nil : motive [])
    (snoc : ∀ (tr : SignalTrace) (c : Change), motive tr → motive (tr ++ [c]))
    (tr : SignalTrace) : motive tr :=
  List.reverseRecOn tr nil snoc

/-- The last change at or before `t`. -/
def lastBefore (tr : SignalTrace) (t : Int) : Option Change :=
  (tr.filter fun c => decide (c.tick ≤ t)).getLast?

/-- The changes inside a window. -/
def within (tr : SignalTrace) (t0 : Int) (t1 : Option Int) : SignalTrace :=
  tr.filter fun c => inWindow t0 t1 c.tick

end SignalTrace

/-- An opaque, backend-defined handle of an underlying signal. -/
abbrev BackendSid := Nat

end RWave.Backend
