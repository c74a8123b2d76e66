import RWave.Backend.FoldChange

/-!
# The windowed FST decode

`fst_window.rs`: the trace of one signal over a window, assembled by a `Collector` from two passes
of the reader. Phase 1 delivers the changes from the start of a data section on; phase 2, asked for
when phase 1 showed no change up to `from`, delivers the changes up to the seek point.

`assemble_eq` says what comes out: the last raw change at or before `from`, then the changes of the
full decode in `(from, to]`. The full decode has dropped redundant changes, the seed may be one;
where it is none, the result is the slice of the full decode.
-/

namespace RWave.Backend.FstWindow

open RWave.Backend

/-- How to interpret a signal's raw FST payload. -/
inductive WinKind where
  | bits
  | real
  | str
  | event
  deriving DecidableEq, Repr

/-- The duplicate check: a change whose value equals the previous one is dropped, events
excepted. -/
def redundant (kind : WinKind) (prev : Option RawValue) (c : Change) : Bool :=
  kind ≠ .event && prev.any fun prev => valuesEqual prev c.value

/-- Per-signal window reduction. -/
structure Collector where
  kind : WinKind
  /-- Last phase-1 emission at or before `from`. -/
  seed : Option Change
  /-- The seed candidate sits at a suspected frame timestamp. -/
  seedSuspect : Bool
  /-- In-window changes, consecutive duplicates suppressed. -/
  win : SignalTrace
  /-- This signal was handed to phase 2. -/
  demoted : Bool
  /-- Phase-2 result. -/
  seed2 : Option Change
  deriving DecidableEq, Repr

namespace Collector

def new (kind : WinKind) : Collector := ⟨kind, none, false, [], false, none⟩

/-- `seed_ref`: the seed candidate usable as a baseline. -/
def seedRef (c : Collector) : Option Change := if c.seedSuspect then none else c.seed

def onPhase1 (c : Collector) (ch : Change) (frm : Int) (upto : Option Int) (suspect : Bool) :
    Collector :=
  if ch.tick ≤ frm then
    { c with seed := some ch, seedSuspect := suspect }
  else if suspect then
    c
  else if upto.any fun hi => decide (ch.tick > hi) then
    c
  else
    let baseline := (c.win.getLast?.map Change.value).or (c.seedRef.map Change.value)
    if redundant c.kind baseline ch then
      c
    else
      { c with win := c.win ++ [ch] }

def needsPhase2 (c : Collector) : Bool := c.seed.isNone || c.seedSuspect

/-- The phase-2 callback: an ascending stream, the last one at or before `from` wins. -/
def onPhase2 (c : Collector) (ch : Change) (frm : Int) : Collector :=
  if ch.tick > frm then c
  else if !c.demoted then c
  else { c with seed2 := some ch }

def finish (c : Collector) : SignalTrace :=
  let seed := if c.demoted then c.seed2 else if c.seedSuspect then none else c.seed
  let win :=
    if c.demoted && c.kind ≠ .event then
      match seed, c.win with
      | some s, w0 :: rest => if valuesEqual s.value w0.value then rest else c.win
      | _, _ => c.win
    else c.win
  seed.toList ++ win

end Collector

/-! ## The two passes -/

/-- Phase 1 for one signal. `suspectTime` is the timestamp of a frame echo, if there is one. -/
def phase1 (kind : WinKind) (frm : Int) (upto : Option Int) (suspectTime : Option Int)
    (delivered : SignalTrace) : Collector :=
  delivered.foldl (fun c ch => c.onPhase1 ch frm upto (suspectTime == some ch.tick)) (.new kind)

/-- Phase 2 for one signal, when it is asked for. -/
def phase2 (frm : Int) (delivered : SignalTrace) (c : Collector) : Collector :=
  if c.needsPhase2 then
    delivered.foldl (fun c ch => c.onPhase2 ch frm) { c with demoted := true }
  else c

/-- The trace of one signal. -/
def assemble (kind : WinKind) (frm : Int) (upto suspectTime : Option Int)
    (delivered1 delivered2 : SignalTrace) : SignalTrace :=
  (phase2 frm delivered2 (phase1 kind frm upto suspectTime delivered1)).finish

/-- The seek point of phase 1: `from`, clamped to the recorded ticks. -/
def seekPoint (frm fileEnd : Int) : Int := min (max frm 0) fileEnd

/-- The end of phase 1, never before the seek point. -/
def phase1End (frm fileEnd : Int) (upto : Option Int) : Option Int :=
  upto.map fun t => max (max t 0) (seekPoint frm fileEnd)

/-- What the reader delivers for one signal: phase 1 everything from the section's start to the end
of the window, and possibly more; phase 2 everything up to the seek point, and possibly more. -/
structure Delivers (raw : SignalTrace) (sectionStart seek : Int) (end1 : Option Int)
    (delivered1 delivered2 : SignalTrace) : Prop where
  before : sectionStart ≤ seek
  prefix1 : delivered1 <+: raw.within sectionStart none
  all1 : delivered1.within sectionStart end1 = raw.within sectionStart end1
  prefix2 : delivered2 <+: raw
  all2 : delivered2.upTo seek = raw.upTo seek

/-! ## The full decode -/

/-- Drop every redundant change; `prev` is the value before the first. -/
def suppressFrom (kind : WinKind) (prev : Option RawValue) : SignalTrace → SignalTrace
  | [] => []
  | c :: rest =>
    if redundant kind prev c then
      suppressFrom kind prev rest
    else
      c :: suppressFrom kind (some c.value) rest

/-- The full decode of a signal's raw changes. -/
def fullDecode (kind : WinKind) (raw : SignalTrace) : SignalTrace := suppressFrom kind none raw

/-- The value a stretch of changes ends with, entered with `prev`. -/
def carry (prev : Option RawValue) (tr : SignalTrace) : Option RawValue :=
  (tr.getLast?.map Change.value).or prev

theorem carry_cons (prev : Option RawValue) (c : Change) (tr : SignalTrace) :
    carry prev (c :: tr) = carry (some c.value) tr := by
  simp only [carry, List.getLast?_cons]
  cases tr.getLast? <;> rfl

theorem redundant_iff {kind : WinKind} (level : kind ≠ .event) {prev : Option RawValue}
    {c : Change} : redundant kind prev c = true ↔ prev = some c.value := by
  cases prev <;> simp [redundant, level]

theorem redundant_carry {kind : WinKind} {prev : Option RawValue} {c : Change}
    (h : redundant kind prev c = true) : prev = some c.value := by
  cases prev <;> simp_all [redundant]

theorem suppressFrom_cons (kind : WinKind) (prev : Option RawValue) (c : Change)
    (tr : SignalTrace) : suppressFrom kind prev (c :: tr) =
      (if redundant kind prev c then [] else [c]) ++ suppressFrom kind (some c.value) tr := by
  rw [suppressFrom]
  by_cases h : redundant kind prev c = true
  · rw [if_pos h, if_pos h, redundant_carry h, List.nil_append]
  · rw [if_neg h, if_neg h, List.singleton_append]

theorem suppressFrom_append (kind : WinKind) (prev : Option RawValue) (a b : SignalTrace) :
    suppressFrom kind prev (a ++ b) =
      suppressFrom kind prev a ++ suppressFrom kind (carry prev a) b := by
  induction a generalizing prev with
  | nil => rfl
  | cons c a ih =>
    rw [List.cons_append, suppressFrom_cons, suppressFrom_cons, ih, carry_cons, List.append_assoc]

/-- Suppression keeps the value a stretch ends with. -/
theorem carry_suppressFrom (kind : WinKind) (prev : Option RawValue) (tr : SignalTrace) :
    carry prev (suppressFrom kind prev tr) = carry prev tr := by
  induction tr generalizing prev with
  | nil => rfl
  | cons c tr ih =>
    rw [suppressFrom_cons, carry_cons, ← ih (some c.value)]
    by_cases h : redundant kind prev c = true
    · rw [if_pos h, List.nil_append, redundant_carry h]
    · rw [if_neg h, List.singleton_append, carry_cons]

theorem suppressFrom_event (prev : Option RawValue) (tr : SignalTrace) :
    suppressFrom .event prev tr = tr := by
  induction tr generalizing prev with
  | nil => rfl
  | cons c tr ih => rw [suppressFrom_cons, ih]; rfl

/-- A change is kept exactly when it differs from the value before it. -/
theorem mem_suppressFrom {kind : WinKind} {prev : Option RawValue} {tr : SignalTrace} {c : Change} :
    c ∈ suppressFrom kind prev tr ↔
      ∃ pre post, tr = pre ++ c :: post ∧ redundant kind (carry prev pre) c = false := by
  induction tr generalizing prev with
  | nil => simp [suppressFrom]
  | cons d tr ih =>
    rw [suppressFrom_cons, List.mem_append, ih]
    constructor
    · rintro (first | ⟨pre, post, rfl, kept⟩)
      · split at first
        · cases first
        next kept =>
          obtain rfl := List.mem_singleton.mp first
          exact ⟨[], tr, rfl, by simpa [carry] using kept⟩
      · exact ⟨d :: pre, post, rfl, by rwa [carry_cons]⟩
    · rintro ⟨pre, post, cut, kept⟩
      cases pre with
      | nil =>
        obtain ⟨rfl, rfl⟩ := List.cons.inj cut
        have kept : redundant kind prev d = false := kept
        exact .inl (by simp [kept])
      | cons e pre =>
        obtain ⟨rfl, rfl⟩ := List.cons.inj cut
        rw [carry_cons] at kept
        exact .inr ⟨pre, post, rfl, kept⟩

/-! ## What is assembled -/

theorem within_append_singleton (tr : SignalTrace) (c : Change) (frm : Int) (upto : Option Int) :
    SignalTrace.within (tr ++ [c]) frm upto =
      tr.within frm upto ++ if inWindow frm upto c.tick then [c] else [] := by
  rw [SignalTrace.within, List.filter_append]
  by_cases inside : inWindow frm upto c.tick <;> simp [SignalTrace.within, inside]

/-- After phase 1 the seed is the last change at or before `from`, and the window holds the later
ones without the duplicates that show against it. -/
theorem phase1_eq (kind : WinKind) (frm : Int) (upto : Option Int) {delivered : SignalTrace}
    (ordered : delivered.Ordered) :
    phase1 kind frm upto none delivered =
      { kind
        seed := delivered.lastBefore frm
        seedSuspect := false
        win := suppressFrom kind (delivered.valueAt frm) (delivered.within (frm + 1) upto)
        demoted := false
        seed2 := none } := by
  induction delivered using SignalTrace.snocInduction with
  | nil => rfl
  | snoc delivered c ih =>
    obtain ⟨ordered, -, le⟩ := List.pairwise_append.mp ordered
    have le : ∀ d ∈ delivered, d.tick ≤ c.tick := fun d hd => le d hd c (by simp)
    have step : phase1 kind frm upto none (delivered ++ [c]) =
        (phase1 kind frm upto none delivered).onPhase1 c frm upto false := by
      simp [phase1]
    rw [step, ih ordered, within_append_singleton, Collector.onPhase1,
      SignalTrace.lastBefore_append_singleton]
    by_cases early : c.tick ≤ frm
    · -- The stream is still before the window.
      have none : delivered.within (frm + 1) upto = [] := by
        refine List.filter_eq_nil_iff.mpr ?_
        intro d hd
        have := le d hd
        simp only [inWindow, Bool.and_eq_true, decide_eq_true_eq, not_and]
        omega
      have out : inWindow (frm + 1) upto c.tick = false := by
        simp only [inWindow, Bool.and_eq_false_iff, decide_eq_false_iff_not]
        exact .inl (by omega)
      simp [early, none, out, suppressFrom]
    · have entered := SignalTrace.valueAt_append_of_lt delivered (not_le.mp early)
      have past : (upto.any fun hi => decide (c.tick > hi)) =
          !inWindow (frm + 1) upto c.tick := by
        have lower : decide (frm + 1 ≤ c.tick) = true := decide_eq_true (by omega)
        cases upto with
        | none =>
          rw [inWindow, lower]
          rfl
        | some hi =>
          rw [Bool.eq_iff_iff]
          simp only [inWindow, lower, Option.any_some, Option.all_some, Bool.true_and,
            decide_eq_true_eq, Bool.not_eq_true', decide_eq_false_iff_not]
          omega
      simp only [if_neg early, entered, past, Bool.false_eq_true, if_false]
      by_cases inside : inWindow (frm + 1) upto c.tick = true
      · have baseline : ((suppressFrom kind (delivered.valueAt frm)
            (delivered.within (frm + 1) upto)).getLast?.map Change.value).or
            ((delivered.lastBefore frm).map Change.value) =
            carry (delivered.valueAt frm) (delivered.within (frm + 1) upto) :=
          carry_suppressFrom kind (delivered.valueAt frm) (delivered.within (frm + 1) upto)
        simp only [inside, Bool.not_true, Bool.false_eq_true, if_false, if_true,
          Collector.seedRef, baseline, suppressFrom_append]
        by_cases same : redundant kind
          (carry (delivered.valueAt frm) (delivered.within (frm + 1) upto)) c = true
        · simp [same, suppressFrom]
        · simp [same, suppressFrom]
      · simp [inside]

/-- What phase 2 finds is the last change at or before `from`. -/
theorem phase2_seed (frm : Int) (delivered : SignalTrace) (c : Collector) (demoted : c.demoted = true)
    (none : c.seed2 = none) :
    delivered.foldl (fun c ch => c.onPhase2 ch frm) c =
      { c with seed2 := delivered.lastBefore frm } := by
  induction delivered using SignalTrace.snocInduction with
  | nil =>
    cases c
    cases none
    rfl
  | snoc delivered ch ih =>
    rw [List.foldl_append, List.foldl_cons, List.foldl_nil, ih, Collector.onPhase2,
      SignalTrace.lastBefore_append_singleton]
    by_cases early : ch.tick ≤ frm
    · simp [early, not_lt.mpr early, demoted]
    · simp [early, not_le.mp early]

/-- Suppressing against the seed afterwards is suppressing against it inline. -/
theorem suppressFrom_some {kind : WinKind} (level : kind ≠ .event) (s : Change) (tr : SignalTrace) :
    (match suppressFrom kind none tr with
      | w0 :: rest => if valuesEqual s.value w0.value then rest else w0 :: rest
      | [] => []) = suppressFrom kind (some s.value) tr := by
  cases tr with
  | nil => rfl
  | cons c tr =>
    have first : redundant kind none c = false := by simp [redundant]
    rw [suppressFrom_cons, suppressFrom_cons, first]
    by_cases same : s.value = c.value
    · have : redundant kind (some s.value) c = true := (redundant_iff level).mpr (by rw [same])
      rw [this]
      simp [same]
    · have : redundant kind (some s.value) c = false := by
        simpa using (redundant_iff level).not.mpr (by simpa using same)
      simp [same, this]

namespace Delivers

variable {raw delivered1 delivered2 : SignalTrace} {sectionStart seek : Int} {end1 : Option Int}
  (h : Delivers raw sectionStart seek end1 delivered1 delivered2)

include h

theorem ordered1 (ordered : raw.Ordered) : delivered1.Ordered :=
  (ordered.filter _).sublist h.prefix1.sublist

/-- Of the changes that phase 1 must deliver, it delivers all. -/
theorem filter1 {p : Change → Bool}
    (inside : ∀ c ∈ raw, sectionStart ≤ c.tick → p c = true → ∀ e ∈ end1, c.tick ≤ e) :
    delivered1.filter p = (raw.within sectionStart none).filter p := by
  have narrow : ∀ tr : SignalTrace, (∀ c ∈ tr, c ∈ raw ∧ sectionStart ≤ c.tick) →
      tr.filter p = (tr.within sectionStart end1).filter p := by
    intro tr sub
    rw [SignalTrace.within, List.filter_filter]
    refine List.filter_congr ?_
    intro c hc
    by_cases counted : p c = true
    · obtain ⟨inRaw, after⟩ := sub c hc
      have : inWindow sectionStart end1 c.tick = true := by
        simp only [inWindow, after, decide_true, Bool.true_and]
        cases end1 with
        | none => rfl
        | some e => simpa using inside c inRaw after counted e rfl
      simp [this]
    · simp [counted]
  have within_mem : ∀ c ∈ raw.within sectionStart none, c ∈ raw ∧ sectionStart ≤ c.tick := fun c hc =>
    ⟨(SignalTrace.mem_within.mp hc).1, (SignalTrace.mem_within.mp hc).2.1⟩
  have whole : SignalTrace.within (raw.within sectionStart none) sectionStart end1 =
      raw.within sectionStart end1 := by
    rw [SignalTrace.within, SignalTrace.within, List.filter_filter]
    refine List.filter_congr ?_
    intro c _
    simp only [inWindow, Option.all_none, Bool.and_true]
    cases decide (sectionStart ≤ c.tick) <;> simp
  rw [narrow _ fun c hc => within_mem c (h.prefix1.subset hc), h.all1, narrow _ within_mem, whole]

/-- The last change at or before `from` is the one phase 1 shows, if it shows one. -/
theorem lastBefore1 (ordered : raw.Ordered) {frm : Int}
    (inside : ∀ c ∈ raw, c.tick ≤ frm → ∀ e ∈ end1, c.tick ≤ e) {c : Change}
    (shown : delivered1.lastBefore frm = some c) : raw.lastBefore frm = some c := by
  rw [SignalTrace.lastBefore, h.filter1 fun c inRaw _ early => inside c inRaw (by simpa using early)]
    at shown
  have after : (raw.filter fun c => decide (c.tick ≤ frm) && decide (sectionStart - 1 < c.tick)) =
      (raw.within sectionStart none).filter fun c => decide (c.tick ≤ frm) := by
    rw [SignalTrace.within, List.filter_filter]
    refine List.filter_congr ?_
    intro c _
    rw [Bool.eq_iff_iff]
    simp only [inWindow, Option.all_none, Bool.and_true, Bool.and_eq_true, decide_eq_true_eq]
    omega
  rw [SignalTrace.lastBefore, ordered.filter_split _ (sectionStart - 1), List.getLast?_append, after,
    shown]
  rfl

/-- Phase 2 shows the last change at or before `from`. -/
theorem lastBefore2 {frm : Int} (inside : ∀ c ∈ raw, c.tick ≤ frm → c.tick ≤ seek) :
    delivered2.lastBefore frm = raw.lastBefore frm := by
  have narrow : ∀ tr : SignalTrace, (∀ c ∈ tr, c ∈ raw) → tr.upTo frm = (tr.upTo seek).upTo frm := by
    intro tr sub
    rw [SignalTrace.upTo, SignalTrace.upTo, SignalTrace.upTo, List.filter_filter]
    refine List.filter_congr ?_
    intro c hc
    have := inside c (sub c hc)
    rw [Bool.eq_iff_iff]
    simp only [Bool.and_eq_true, decide_eq_true_eq]
    omega
  rw [SignalTrace.lastBefore_eq, SignalTrace.lastBefore_eq raw, narrow _ fun c hc =>
    h.prefix2.subset hc, h.all2, narrow raw fun _ => id]

end Delivers

/-- The assembled trace: the last raw change at or before `from`, then the later changes of the
window that are not redundant. -/
theorem assemble_eq (kind : WinKind) {frm fileEnd sectionStart : Int} {upto : Option Int}
    {raw delivered1 delivered2 : SignalTrace} (ordered : raw.Ordered)
    (recorded : ∀ c ∈ raw, 0 ≤ c.tick ∧ c.tick ≤ fileEnd)
    (delivers : Delivers raw sectionStart (seekPoint frm fileEnd) (phase1End frm fileEnd upto)
      delivered1 delivered2) :
    assemble kind frm upto none delivered1 delivered2 =
      (raw.lastBefore frm).toList ++
        suppressFrom kind (raw.valueAt frm) (raw.within (frm + 1) upto) := by
  have seekable : ∀ c ∈ raw, c.tick ≤ frm → c.tick ≤ seekPoint frm fileEnd := by
    intro c hc early
    have := recorded c hc
    simp only [seekPoint]
    omega
  have window : delivered1.within (frm + 1) upto = raw.within (frm + 1) upto := by
    rw [SignalTrace.within, delivers.filter1, SignalTrace.within, List.filter_filter]
    · refine List.filter_congr ?_
      intro c hc
      by_cases inside : inWindow (frm + 1) upto c.tick = true
      · have late : sectionStart ≤ c.tick := by
          have lower : frm + 1 ≤ c.tick := by
            simp only [inWindow, Bool.and_eq_true, decide_eq_true_eq] at inside
            exact inside.1
          have := recorded c hc
          have := delivers.before
          simp only [seekPoint] at this
          omega
        simp [inWindow, late]
      · simp [inside]
    · intro c hc _ inside e he
      obtain ⟨t, rfl, rfl⟩ := Option.map_eq_some_iff.mp he
      simp only [inWindow_some] at inside
      omega
  have seed1 : ∀ c ∈ raw, c.tick ≤ frm → ∀ e ∈ phase1End frm fileEnd upto, c.tick ≤ e := by
    intro c hc early e he
    obtain ⟨t, rfl, rfl⟩ := Option.map_eq_some_iff.mp he
    have := seekable c hc early
    omega
  rw [assemble, phase1_eq kind frm upto (delivers.ordered1 ordered), phase2, window]
  cases shown : delivered1.lastBefore frm with
  | some c =>
    have last := delivers.lastBefore1 ordered seed1 shown
    simp [Collector.needsPhase2, Collector.finish, SignalTrace.valueAt, shown, last]
  | none =>
    have last := delivers.lastBefore2 seekable
    rw [if_pos (by simp [Collector.needsPhase2]), phase2_seed frm delivered2 _ rfl rfl, last]
    by_cases level : kind = .event
    · subst level
      simp [Collector.finish, suppressFrom_event]
    · simp only [Collector.finish, SignalTrace.valueAt, shown, Option.map_none, if_true, level,
        ne_eq, not_false_eq_true, decide_true, Bool.and_self]
      cases seed : raw.lastBefore frm with
      | none => rfl
      | some s =>
        rw [Option.map_some, ← suppressFrom_some level]
        cases suppressFrom kind none (raw.within (frm + 1) upto) <;> rfl

/-! ## Against the full decode -/

/-- The slice of a trace that the window contract documents. -/
def windowSlice (full : SignalTrace) (frm : Int) (upto : Option Int) : SignalTrace :=
  WindowShape.slice .seedAtTick full frm upto

/-- The last change at or before `from` stands at the tick of a change that is not redundant:
the first change of the signal, or one that differs from the change recorded just before it. -/
def SeedIsChange (raw : SignalTrace) (frm : Int) : Prop :=
  ∀ c, raw.lastBefore frm = some c → ∃ pre d post, raw = pre ++ d :: post ∧ d.tick = c.tick ∧
    pre.getLast?.map Change.value ≠ some d.value

theorem suppressFrom_sublist (kind : WinKind) (prev : Option RawValue) (tr : SignalTrace) :
    (suppressFrom kind prev tr).Sublist tr := by
  induction tr generalizing prev with
  | nil => exact List.Sublist.slnil
  | cons c tr ih =>
    rw [suppressFrom]
    split
    · exact (ih prev).cons c
    · exact (ih (some c.value)).cons_cons c

/-- Suppression in an ordered trace looks back, never ahead. -/
theorem suppressFrom_upTo (kind : WinKind) (prev : Option RawValue) {tr : SignalTrace}
    (ordered : tr.Ordered) (t : Int) :
    (suppressFrom kind prev tr).upTo t = suppressFrom kind prev (tr.upTo t) ∧
    (suppressFrom kind prev tr).filter (fun c => decide (t < c.tick)) =
      suppressFrom kind (carry prev (tr.upTo t)) (tr.filter fun c => decide (t < c.tick)) := by
  have early : ∀ c ∈ suppressFrom kind prev (tr.upTo t), c.tick ≤ t := fun c hc =>
    (SignalTrace.mem_upTo.mp ((suppressFrom_sublist ..).subset hc)).2
  have late : ∀ c ∈ suppressFrom kind (carry prev (tr.upTo t))
      (tr.filter fun c => decide (t < c.tick)), t < c.tick := fun c hc => by
    simpa using (List.mem_filter.mp ((suppressFrom_sublist ..).subset hc)).2
  have cut := suppressFrom_append kind prev (tr.upTo t) (tr.filter fun c => decide (t < c.tick))
  rw [ordered.split t] at cut
  rw [cut]
  constructor
  · have none : SignalTrace.upTo (suppressFrom kind (carry prev (tr.upTo t))
        (tr.filter fun c => decide (t < c.tick))) t = [] :=
      List.filter_eq_nil_iff.mpr fun c hc => by simpa using late c hc
    rw [SignalTrace.upTo_append, none, List.append_nil]
    exact List.filter_eq_self.mpr fun c hc => by simpa using early c hc
  · rw [List.filter_append, List.filter_eq_nil_iff.mpr fun c hc => by simpa using early c hc,
      List.filter_eq_self.mpr fun c hc => by simpa using late c hc, List.nil_append]

/-- The full decode inside a window is decided by the value entering the window. -/
theorem fullDecode_within (kind : WinKind) {raw : SignalTrace} (ordered : raw.Ordered) (frm : Int)
    (upto : Option Int) : (fullDecode kind raw).within (frm + 1) upto =
      suppressFrom kind (raw.valueAt frm) (raw.within (frm + 1) upto) := by
  have both : ∀ tr : SignalTrace, tr.within (frm + 1) upto =
      (tr.filter fun c => decide (frm < c.tick)).filter fun c =>
        upto.all fun t => decide (c.tick ≤ t) := by
    intro tr
    rw [SignalTrace.within, List.filter_filter]
    refine List.filter_congr ?_
    intro c _
    rw [inWindow, Bool.and_comm]
    rfl
  have entered : carry none (raw.upTo frm) = raw.valueAt frm := by
    rw [carry, Option.or_none]
    rfl
  rw [both, both, fullDecode, (suppressFrom_upTo kind none ordered frm).2, entered]
  cases upto with
  | none => simp
  | some t => exact (suppressFrom_upTo kind _ (ordered.filter _) t).1

/-- Dropping redundant changes keeps the last change of a stretch exactly when some change at its
tick is not redundant. -/
theorem suppressFrom_getLast_iff {kind : WinKind} (level : kind ≠ .event) {tr : SignalTrace}
    (ordered : tr.Ordered) :
    (suppressFrom kind none tr).getLast? = tr.getLast? ↔
      ∀ c, tr.getLast? = some c → ∃ pre d post, tr = pre ++ d :: post ∧ d.tick = c.tick ∧
        pre.getLast?.map Change.value ≠ some d.value := by
  have kept : ∀ {pre : SignalTrace} {d : Change}, redundant kind (carry none pre) d = false ↔
      pre.getLast?.map Change.value ≠ some d.value := by
    intro pre d
    rw [← Bool.not_eq_true, (redundant_iff level).not, carry, Option.or_none]
  constructor
  · intro same c last
    obtain ⟨pre, post, cut, keeps⟩ := mem_suppressFrom.mp (List.mem_of_getLast? (same.trans last))
    exact ⟨pre, c, post, cut, rfl, kept.mp keeps⟩
  · intro changes
    cases last : tr.getLast? with
    | none =>
      rw [List.getLast?_eq_none_iff.mp last]
      rfl
    | some c =>
      obtain ⟨pre, d, post, cut, tick, keeps⟩ := changes c last
      have member := mem_suppressFrom.mpr ⟨pre, post, cut, kept.mpr keeps⟩
      obtain ⟨e, final⟩ := Option.ne_none_iff_exists'.mp
        (mt List.getLast?_eq_none_iff.mp (List.ne_nil_of_mem member))
      have value : e.value = c.value := by
        have := carry_suppressFrom kind none tr
        simpa [carry, final, last] using this
      -- The last change kept stands between `d` and `c`, so at their common tick.
      have sub := suppressFrom_sublist kind none tr
      have after : d.tick ≤ e.tick :=
        SignalTrace.Ordered.le_getLast (ordered.sublist sub) member final
      have before : e.tick ≤ c.tick :=
        ordered.le_getLast (sub.subset (List.mem_of_getLast? final)) last
      have same : e.tick = c.tick := by omega
      rw [final]
      cases e
      cases c
      simp only at same value
      rw [same, value]

/-- The assembled trace is the window slice of the full decode exactly for events and for a seed
that is a change of the full decode. -/
theorem assemble_slice_iff (kind : WinKind) {frm fileEnd sectionStart : Int} {upto : Option Int}
    {raw delivered1 delivered2 : SignalTrace} (ordered : raw.Ordered)
    (recorded : ∀ c ∈ raw, 0 ≤ c.tick ∧ c.tick ≤ fileEnd)
    (delivers : Delivers raw sectionStart (seekPoint frm fileEnd) (phase1End frm fileEnd upto)
      delivered1 delivered2) :
    assemble kind frm upto none delivered1 delivered2 =
      windowSlice (fullDecode kind raw) frm upto ↔ kind = .event ∨ SeedIsChange raw frm := by
  rw [assemble_eq kind ordered recorded delivers, windowSlice, WindowShape.slice,
    fullDecode_within kind ordered, List.append_left_inj]
  have seed : (raw.lastBefore frm).toList = ((fullDecode kind raw).lastBefore frm).toList ↔
      (suppressFrom kind none (raw.upTo frm)).getLast? = (raw.upTo frm).getLast? := by
    rw [SignalTrace.lastBefore_eq, SignalTrace.lastBefore_eq, fullDecode,
      (suppressFrom_upTo kind none ordered frm).1]
    generalize (raw.upTo frm).getLast? = a
    generalize (suppressFrom kind none (raw.upTo frm)).getLast? = b
    cases a <;> cases b <;> simp [eq_comm]
  rw [seed]
  by_cases level : kind = .event
  · subst level
    simp [suppressFrom_event]
  · rw [suppressFrom_getLast_iff level (ordered.ordered_upTo frm)]
    simp only [level, false_or, SeedIsChange]
    refine forall_congr' fun c => imp_congr_right ?_
    intro last
    have early : c.tick ≤ frm := (SignalTrace.lastBefore_mem last).2
    constructor
    · rintro ⟨pre, d, post, cut, tick, differs⟩
      refine ⟨pre, d, post ++ raw.filter (fun c => decide (frm < c.tick)), ?_, tick, differs⟩
      conv => lhs; rw [← ordered.split frm, cut]
      simp
    · rintro ⟨pre, d, post, rfl, tick, differs⟩
      refine ⟨pre, d, SignalTrace.upTo post frm, ?_, tick, differs⟩
      have kept : SignalTrace.upTo pre frm = pre := by
        refine List.filter_eq_self.mpr ?_
        intro e he
        have := (List.pairwise_append.mp ordered).2.2 e he d (by simp)
        simpa using by omega
      have first : SignalTrace.upTo (d :: post) frm = d :: SignalTrace.upTo post frm := by
        simp [SignalTrace.upTo, tick.trans_le early]
      rw [SignalTrace.upTo_append, kept, first]

/-- The full decode keeps the value at every instant. -/
theorem keepsValues_fullDecode (kind : WinKind) : KeepsValues (fullDecode kind) := by
  intro tr ordered
  refine ⟨ordered.sublist (suppressFrom_sublist kind none tr), fun t => ?_⟩
  have entered := carry_suppressFrom kind none (tr.upTo t)
  rw [carry, carry, Option.or_none, Option.or_none, ← (suppressFrom_upTo kind none ordered t).1]
    at entered
  exact entered

/-- What is assembled is the full decode of the raw changes that the window contract names. -/
theorem assemble_eq_fullDecode (kind : WinKind) {frm fileEnd sectionStart : Int}
    {upto : Option Int} {raw delivered1 delivered2 : SignalTrace} (ordered : raw.Ordered)
    (recorded : ∀ c ∈ raw, 0 ≤ c.tick ∧ c.tick ≤ fileEnd)
    (delivers : Delivers raw sectionStart (seekPoint frm fileEnd) (phase1End frm fileEnd upto)
      delivered1 delivered2) :
    assemble kind frm upto none delivered1 delivered2 =
      fullDecode kind (windowSlice raw frm upto) := by
  rw [assemble_eq kind ordered recorded delivers, windowSlice, WindowShape.slice, fullDecode,
    suppressFrom_append, SignalTrace.valueAt]
  cases raw.lastBefore frm with
  | none => rfl
  | some c =>
    -- Nothing stands before the seed, so it is kept.
    have kept : suppressFrom kind none [c] = [c] := by simp [suppressFrom, redundant]
    rw [Option.toList_some, kept]
    rfl

/-- A dump that writes the unchanged value again at tick 10. -/
def dumpallRaw : SignalTrace := [⟨2, .bits "1"⟩, ⟨10, .bits "1"⟩, ⟨20, .bits "0"⟩]

theorem dumpallRaw_ordered : dumpallRaw.Ordered := by
  unfold SignalTrace.Ordered dumpallRaw
  decide

theorem dumpallRaw_recorded : ∀ c ∈ dumpallRaw, 0 ≤ c.tick ∧ c.tick ≤ 20 := by decide

theorem dumpallRaw_delivers :
    Delivers dumpallRaw 0 (seekPoint 10 20) (phase1End 10 20 (some 15)) dumpallRaw dumpallRaw where
  before := by decide
  prefix1 := by decide
  all1 := rfl
  prefix2 := List.prefix_rfl
  all2 := rfl

/-- The seed of a window from tick 10 on is the redundant write at tick 10; the full decode has
the change at tick 2. -/
theorem assemble_slice_dumpall :
    dumpallRaw.Ordered ∧ (∀ c ∈ dumpallRaw, 0 ≤ c.tick ∧ c.tick ≤ 20) ∧
    Delivers dumpallRaw 0 (seekPoint 10 20) (phase1End 10 20 (some 15)) dumpallRaw dumpallRaw ∧
    assemble .bits 10 (some 15) none dumpallRaw dumpallRaw ≠
      windowSlice (fullDecode .bits dumpallRaw) 10 (some 15) :=
  ⟨dumpallRaw_ordered, dumpallRaw_recorded, dumpallRaw_delivers, by decide⟩

theorem assemble_slice_iff_dumpall :
    assemble .bits 10 (some 15) none dumpallRaw dumpallRaw =
      windowSlice (fullDecode .bits dumpallRaw) 10 (some 15) ↔
      WinKind.bits = .event ∨ SeedIsChange dumpallRaw 10 :=
  assemble_slice_iff .bits dumpallRaw_ordered dumpallRaw_recorded dumpallRaw_delivers

end RWave.Backend.FstWindow
