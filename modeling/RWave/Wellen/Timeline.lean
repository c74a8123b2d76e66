import RWave.Misc.Overlap
import RWave.Wellen.SignalRecords
import RWave.Wellen.WaveMem

/-!
# Recordings

What a dump records, without blocks and bytes: the time steps in increasing order and the changes in
the order of the dump, each with its time. A time step that goes back is not recorded, and neither are
the changes up to the next time step that goes on (`Recording.step`).
-/

namespace RWave.Wellen

open RWave.Misc

/-- Time steps, and the signal, time and value of each change. -/
structure Timeline where
  times : List Nat
  changes : List (Nat × Nat × VcdValue)
  deriving DecidableEq

namespace Timeline

/-- No time and no changes. -/
def empty : Timeline := ⟨[], []⟩

/-- One time line behind another, which may begin with the last time step of the first. -/
def append (a b : Timeline) : Timeline := ⟨overlap a.times b.times, a.changes ++ b.changes⟩

/-- The time and the value of the changes of one signal. -/
def of (tl : Timeline) (id : Nat) : List (Nat × VcdValue) :=
  tl.changes.filterMap fun change => if change.1 = id then some change.2 else none

theorem append_assoc (a b d : Timeline) : (a.append b).append d = a.append (b.append d) := by
  simp only [append, overlap_assoc, List.append_assoc]

theorem empty_append (a : Timeline) : empty.append a = a := by
  simp only [empty, append, nil_overlap, List.nil_append]

theorem append_empty (a : Timeline) : a.append empty = a := by
  simp only [empty, append, overlap_nil, List.append_nil]

theorem of_append (a b : Timeline) (id : Nat) : (a.append b).of id = a.of id ++ b.of id :=
  List.filterMap_append ..

/-- Time lines in a row. -/
def join (tls : List Timeline) : Timeline := tls.foldl append empty

theorem join_concat (tls : List Timeline) (tl : Timeline) : join (tls ++ [tl]) = (join tls).append tl := by
  rw [join, List.foldl_append]
  rfl

theorem join_append (tls tls' : List Timeline) : join (tls ++ tls') = (join tls).append (join tls') := by
  induction tls' using List.reverseRecOn with
  | nil => rw [List.append_nil]; exact (append_empty _).symm
  | append_singleton tls' tl ih => rw [← List.append_assoc, join_concat, join_concat, ih, append_assoc]

end Timeline

/-! ## What is seen of it -/

/-- Two changes in a row that are both seen. -/
def SignalValue.Differ (a b : Nat × SignalValue) : Prop := a.2 ≠ b.2 ∨ b.2 = .event

instance : DecidableRel SignalValue.Differ := fun _ _ => inferInstanceAs (Decidable (_ ∨ _))

/-- The changes of a signal as a reader sees them: without those that set the value that the signal
has already. -/
def Timeline.signal (c : Crates) (tl : Timeline) (id : Nat) : List (Nat × SignalValue) :=
  ((tl.of id).map fun k => (k.1, k.2.value c)).destutter SignalValue.Differ

/-! ## What is recorded -/

/-- What has been recorded, and whether changes are being skipped. -/
structure Recording where
  timeline : Timeline
  skipping : Bool
  deriving DecidableEq

namespace Recording

def empty : Recording := ⟨.empty, false⟩

variable (c : Crates) (encodings : List (Option SignalEncoding))

/-- One more line. A change without a time, of no signal, or whose text is no value is a failure. -/
def step (r : Recording) : DumpOp → Option Recording
  | .time t =>
    match r.timeline.times.getLast? with
    | some last =>
      if last = t then some r
      else if t < last then some { r with skipping := true }
      else some ⟨⟨r.timeline.times ++ [t], r.timeline.changes⟩, false⟩
    | none => some ⟨⟨r.timeline.times ++ [t], r.timeline.changes⟩, false⟩
  | .value id text =>
    if r.skipping then some r
    else do
      let t ← r.timeline.times.getLast?
      let tpe ← (encodings[id]?).join
      let v ← VcdValue.parse c tpe text
      return { r with timeline := ⟨r.timeline.times, r.timeline.changes ++ [(id, t, v)]⟩ }

/-- Line by line. -/
def run (r : Recording) (ops : List DumpOp) : Option Recording := ops.foldlM (step c encodings) r

/-! ## What is recorded is in order -/

/-- Time steps go on, changes are at time steps and do not go back, and they are changes of signals. -/
structure Ordered (tl : Timeline) : Prop where
  times : tl.times.Pairwise (· < ·)
  changes : tl.changes.Pairwise fun a b => a.2.1 ≤ b.2.1
  inside : ∀ change ∈ tl.changes, change.2.1 ∈ tl.times
  values : ∀ change ∈ tl.changes, ∃ tpe, encodings[change.1]? = some (some tpe) ∧ change.2.2.Of tpe

theorem ordered_empty : Ordered encodings .empty := ⟨.nil, .nil, nofun, nofun⟩

variable {c encodings}

theorem Ordered.le_getLast {tl : Timeline} (ordered : Ordered encodings tl) {last t : Nat}
    (now : tl.times.getLast? = some last) (member : t ∈ tl.times) : t ≤ last := by
  obtain ⟨init, times⟩ := List.getLast?_eq_some_iff.mp now
  have increasing := ordered.times
  rw [times] at member increasing
  rcases List.mem_append.mp member with before | own
  · exact le_of_lt ((List.pairwise_append.mp increasing).2.2 t before last (List.mem_singleton_self _))
  · exact le_of_eq (List.mem_singleton.mp own)

theorem Ordered.head_le {tl : Timeline} (ordered : Ordered encodings tl) (nonempty : tl.times ≠ [])
    {t : Nat} (member : t ∈ tl.times) : tl.times.head nonempty ≤ t := by
  have increasing := ordered.times
  rw [← List.cons_head_tail nonempty] at increasing member
  rcases List.mem_cons.mp member with rfl | later
  · exact le_rfl
  · exact le_of_lt ((List.pairwise_cons.mp increasing).1 t later)

theorem Ordered.push {tl : Timeline} (ordered : Ordered encodings tl) {t : Nat}
    (later : ∀ last, tl.times.getLast? = some last → last < t) :
    Ordered encodings ⟨tl.times ++ [t], tl.changes⟩ := by
  refine ⟨List.pairwise_append.mpr ⟨ordered.times, List.pairwise_singleton .., ?_⟩, ordered.changes,
    fun change member => List.mem_append_left _ (ordered.inside change member), ordered.values⟩
  intro s member t' own
  rw [List.mem_singleton.mp own]
  obtain ⟨last, now⟩ : ∃ last, tl.times.getLast? = some last :=
    ⟨_, List.getLast?_eq_some_getLast (List.ne_nil_of_mem member)⟩
  exact (ordered.le_getLast now member).trans_lt (later last now)

theorem Ordered.step {r r' : Recording} {op : DumpOp} (ordered : Ordered encodings r.timeline)
    (step : r.step c encodings op = some r') : Ordered encodings r'.timeline := by
  cases op with
  | time t =>
    rw [Recording.step] at step
    cases now : r.timeline.times.getLast? with
    | none =>
      rw [now] at step
      cases step
      exact ordered.push fun last own => by rw [now] at own; cases own
    | some last =>
      rw [now] at step
      dsimp only at step
      split at step
      · cases step
        exact ordered
      next other =>
        split at step
        · cases step
          exact ordered
        next on =>
          cases step
          refine ordered.push fun last' own => ?_
          rw [now] at own
          cases own
          omega
  | value id text =>
    rw [Recording.step] at step
    split at step
    · cases step
      exact ordered
    · simp only [Option.bind_eq_bind, Option.bind_eq_some_iff] at step
      obtain ⟨t, now, tpe, known, v, parse, next⟩ := step
      cases next
      refine ⟨ordered.times, List.pairwise_append.mpr ⟨ordered.changes, List.pairwise_singleton .., ?_⟩,
        ?_, ?_⟩
      · intro change member change' own
        rw [List.mem_singleton.mp own]
        exact ordered.le_getLast now (ordered.inside change member)
      · intro change member
        rcases List.mem_append.mp member with old | own
        · exact ordered.inside change old
        · rw [List.mem_singleton.mp own]
          exact List.mem_of_getLast? now
      · intro change member
        rcases List.mem_append.mp member with old | own
        · exact ordered.values change old
        · rw [List.mem_singleton.mp own]
          exact ⟨tpe, Option.join_eq_some_iff.mp known, VcdValue.parse_of c parse⟩

theorem Ordered.run {ops : List DumpOp} {r r' : Recording} (ordered : Ordered encodings r.timeline)
    (run : r.run c encodings ops = some r') : Ordered encodings r'.timeline := by
  induction ops generalizing r with
  | nil =>
    cases run
    exact ordered
  | cons op ops ih =>
    obtain ⟨next, step, rest⟩ := Option.bind_eq_some_iff.mp run
    exact ih (ordered.step step) rest

end Recording

end RWave.Wellen
