import RWave.Wellen.Load

/-!
# A recording in parts

A dump whose times do not go back may be cut in front of its times. What is recorded of the parts,
put behind one another, is what is recorded of the whole (`Recording.run_parts`), and so are the
encoders of the parts (`Closes.appendAll`).
-/

namespace RWave.Wellen

open RWave.Misc

/-- The times of a dump. -/
def opTimes (ops : List DumpOp) : List Nat :=
  ops.filterMap fun
    | .time t => some t
    | .value _ _ => none

namespace Recording

variable {c : Crates} {encodings : List (Option SignalEncoding)}

theorem run_append (r : Recording) (ops ops' : List DumpOp) :
    r.run c encodings (ops ++ ops') = (r.run c encodings ops).bind fun r => r.run c encodings ops' :=
  List.foldlM_append ..

/-- A recording that goes on behind another time line. -/
structure Behind (base : Timeline) (r own : Recording) : Prop where
  timeline : r.timeline = base.append own.timeline
  skipping : r.skipping = own.skipping
  times_ne_nil : own.timeline.times ≠ []

theorem Behind.push {base : Timeline} {r own : Recording} (behind : Behind base r own) (t : Nat) :
    Behind base ⟨⟨r.timeline.times ++ [t], r.timeline.changes⟩, false⟩
      ⟨⟨own.timeline.times ++ [t], own.timeline.changes⟩, false⟩ := by
  refine ⟨?_, rfl, by simp⟩
  rw [behind.timeline]
  exact congrArg (Timeline.mk · _) (overlap_append _ behind.times_ne_nil [t]).symm

/-- The parts take a step together. -/
theorem Behind.step {base : Timeline} {r own r' : Recording} (behind : Behind base r own)
    {op : DumpOp} (step : r.step c encodings op = some r') :
    ∃ own', own.step c encodings op = some own' ∧ Behind base r' own' := by
  have last : r.timeline.times.getLast? = own.timeline.times.getLast? := by
    rw [behind.timeline]
    exact getLast?_overlap behind.times_ne_nil
  cases op with
  | time t =>
    rw [Recording.step, last] at step
    rw [Recording.step]
    cases now : own.timeline.times.getLast? with
    | none => exact absurd (List.getLast?_eq_none_iff.mp now) behind.times_ne_nil
    | some prev =>
      rw [now] at step
      dsimp only at step ⊢
      split at step
      next same =>
        cases step
        rw [if_pos same]
        exact ⟨own, rfl, behind⟩
      next other =>
        rw [if_neg other]
        split at step
        next back =>
          cases step
          rw [if_pos back]
          exact ⟨_, rfl, ⟨behind.timeline, rfl, behind.times_ne_nil⟩⟩
        next on =>
          cases step
          rw [if_neg on]
          exact ⟨_, rfl, behind.push t⟩
  | value id text =>
    rw [Recording.step, behind.skipping, last] at step
    rw [Recording.step]
    split at step
    next skip =>
      cases step
      exact ⟨own, if_pos skip, behind⟩
    next record =>
      rw [if_neg record]
      simp only [Option.bind_eq_bind, Option.bind_eq_some_iff] at step ⊢
      obtain ⟨t, now, tpe, known, v, parse, next⟩ := step
      cases next
      refine ⟨_, ⟨t, now, tpe, known, v, parse, rfl⟩, ?_, rfl, behind.times_ne_nil⟩
      rw [behind.timeline]
      exact congrArg (Timeline.mk _) (List.append_assoc ..)

theorem Behind.run {base : Timeline} {ops : List DumpOp} {r own r' : Recording}
    (behind : Behind base r own) (run : r.run c encodings ops = some r') :
    ∃ own', own.run c encodings ops = some own' ∧ Behind base r' own' := by
  induction ops generalizing r own with
  | nil =>
    cases run
    exact ⟨own, rfl, behind⟩
  | cons op ops ih =>
    obtain ⟨next, step, rest⟩ := Option.bind_eq_some_iff.mp run
    obtain ⟨next', step', behind'⟩ := behind.step step
    obtain ⟨own', rest', last⟩ := ih behind' rest
    exact ⟨own', Option.bind_eq_some_iff.mpr ⟨next', step', rest'⟩, last⟩

/-- A part that begins with a time which is not before those of the recording. -/
theorem run_part {r r' : Recording} {t : Nat} {ops : List DumpOp} (recording : r.skipping = false)
    (le : ∀ last, r.timeline.times.getLast? = some last → last ≤ t)
    (run : r.run c encodings (.time t :: ops) = some r') :
    ∃ own, empty.run c encodings (.time t :: ops) = some own ∧ Behind r.timeline r' own := by
  obtain ⟨next, step, rest⟩ := Option.bind_eq_some_iff.mp run
  have behind : Behind r.timeline next ⟨⟨[t], []⟩, false⟩ := by
    have changes : r.timeline.changes ++ [] = r.timeline.changes := List.append_nil _
    rw [Recording.step] at step
    cases now : r.timeline.times.getLast? with
    | none =>
      rw [now] at step
      cases step
      refine ⟨?_, rfl, List.cons_ne_nil _ _⟩
      rw [Timeline.append, changes, List.getLast?_eq_none_iff.mp now, nil_overlap]
      rfl
    | some last =>
      rw [now] at step
      dsimp only at step
      split at step
      next same =>
        cases step
        refine ⟨?_, recording, List.cons_ne_nil _ _⟩
        rw [Timeline.append, changes, overlap_last (same ▸ now)]
      next other =>
        rw [if_neg (Nat.not_lt.mpr (le last now))] at step
        cases step
        refine ⟨?_, rfl, List.cons_ne_nil _ _⟩
        rw [Timeline.append, changes, overlap, List.head?_cons, now,
          if_neg fun same => other (Option.some.inj same)]
  obtain ⟨own, rest', last⟩ := behind.run rest
  exact ⟨own, Option.bind_eq_some_iff.mpr ⟨_, rfl, rest'⟩, last⟩

/-! ## Times that do not go back -/

/-- Nothing is skipped, and the times to come are not before the last one. -/
def Fresh (r : Recording) (times : List Nat) : Prop :=
  r.skipping = false ∧ ∀ last, r.timeline.times.getLast? = some last → ∀ t ∈ times, last ≤ t

theorem fresh_empty (times : List Nat) : empty.Fresh times := ⟨rfl, nofun⟩

theorem Fresh.step {r r' : Recording} {op : DumpOp} {times : List Nat}
    (fresh : r.Fresh (opTimes [op] ++ times)) (ordered : (opTimes [op] ++ times).Pairwise (· ≤ ·))
    (step : r.step c encodings op = some r') : r'.Fresh times := by
  obtain ⟨recording, le⟩ := fresh
  cases op with
  | time t =>
    have later : ∀ t' ∈ times, t ≤ t' := (List.pairwise_cons.mp ordered).1
    have pushed : Fresh ⟨⟨r.timeline.times ++ [t], r.timeline.changes⟩, false⟩ times := by
      refine ⟨rfl, fun last now => ?_⟩
      rw [List.getLast?_concat] at now
      cases now
      exact later
    rw [Recording.step] at step
    cases now : r.timeline.times.getLast? with
    | none =>
      rw [now] at step
      cases step
      exact pushed
    | some last =>
      have before : last ≤ t := le last now t List.mem_cons_self
      rw [now] at step
      dsimp only at step
      split at step
      · cases step
        exact ⟨recording, fun last now t' member => le last now t' (.tail _ member)⟩
      · rw [if_neg (Nat.not_lt.mpr before)] at step
        cases step
        exact pushed
  | value id text =>
    rw [Recording.step, if_neg (by rw [recording]; exact Bool.false_ne_true)] at step
    simp only [Option.bind_eq_bind, Option.bind_eq_some_iff] at step
    obtain ⟨t, now, tpe, known, v, parse, next⟩ := step
    cases next
    exact ⟨recording, le⟩

theorem Fresh.run {ops : List DumpOp} {r r' : Recording} {times : List Nat}
    (fresh : r.Fresh (opTimes ops ++ times)) (ordered : (opTimes ops ++ times).Pairwise (· ≤ ·))
    (run : r.run c encodings ops = some r') : r'.Fresh times := by
  induction ops generalizing r with
  | nil =>
    cases run
    exact fresh
  | cons op ops ih =>
    obtain ⟨next, step, rest⟩ := Option.bind_eq_some_iff.mp run
    have cut : opTimes (op :: ops) ++ times = opTimes [op] ++ (opTimes ops ++ times) := by
      rw [← List.append_assoc]
      exact congrArg (· ++ times) (List.filterMap_append (l := [op]))
    rw [cut] at fresh ordered
    exact ih (fresh.step ordered step) (List.pairwise_append.mp ordered).2.1 rest

/-- A part that is empty or begins with a time. -/
def Starts (part : List DumpOp) : Prop := part = [] ∨ ∃ t ops, part = .time t :: ops

/-- Parts whose times do not go back can be recorded by themselves. -/
theorem run_parts {parts : List (List DumpOp)} (starts : ∀ part ∈ parts, Starts part)
    (ordered : (opTimes parts.flatten).Pairwise (· ≤ ·)) {r r' : Recording}
    (fresh : r.Fresh (opTimes parts.flatten)) (run : r.run c encodings parts.flatten = some r') :
    ∃ rs, List.Forall₂ (fun part own => empty.run c encodings part = some own) parts rs ∧
      r'.timeline = (rs.map timeline).foldl Timeline.append r.timeline := by
  induction parts generalizing r with
  | nil =>
    cases run
    exact ⟨[], .nil, rfl⟩
  | cons part parts ih =>
    have cut : opTimes (part :: parts).flatten = opTimes part ++ opTimes parts.flatten :=
      List.filterMap_append ..
    rw [cut] at fresh ordered
    rw [List.flatten_cons, run_append] at run
    obtain ⟨mid, first, rest⟩ := Option.bind_eq_some_iff.mp run
    obtain ⟨rs, recorded, whole⟩ := ih (fun part member => starts part (.tail _ member))
      (List.pairwise_append.mp ordered).2.1 (fresh.run ordered first) rest
    rcases starts part List.mem_cons_self with rfl | ⟨t, ops, rfl⟩
    · cases first
      refine ⟨empty :: rs, .cons rfl recorded, ?_⟩
      rw [whole, List.map_cons, List.foldl_cons]
      exact congrArg (List.foldl _ · _) (Timeline.append_empty _).symm
    · have le (last : Nat) (now : r.timeline.times.getLast? = some last) : last ≤ t :=
        fresh.2 last now t List.mem_cons_self
      obtain ⟨own, ranPart, behind⟩ := run_part fresh.1 le first
      refine ⟨own :: rs, .cons ranPart recorded, ?_⟩
      rw [whole, List.map_cons, List.foldl_cons, behind.timeline]

end Recording

/-! ## The encoders of the parts -/

/-- The encoders of the parts, appended to the first of them. -/
theorem Closes.appendAll {c : Crates} {encodings : List (Option SignalEncoding)} {tl : Timeline}
    {e : Encoder} (closes : Closes c encodings tl e) (nonempty : tl.times ≠ []) {tls : List Timeline}
    {others : List Encoder} (closed : List.Forall₂ (Closes c encodings) tls others) :
    ∃ all, others.foldlM (Encoder.append c) e = some all ∧
      Closes c encodings (tls.foldl Timeline.append tl) all := by
  induction closed generalizing tl e with
  | nil => exact ⟨e, rfl, closes⟩
  | cons first rest ih =>
    rename_i tl' other tls others
    obtain ⟨both, append, closes'⟩ := closes.append nonempty first
    have some' : (tl.append tl').times ≠ [] := by
      have longer : tl.times.length ≤ (tl.append tl').times.length := length_le_overlap ..
      have full := List.length_pos_iff.mpr nonempty
      exact List.length_pos_iff.mp (by omega)
    obtain ⟨all, appends, last⟩ := ih closes' some'
    refine ⟨all, ?_, last⟩
    rw [List.foldlM_cons, append]
    exact appends

/-- An encoder for each part. -/
theorem Closes.ofParts {c : Crates} {encodings : List (Option SignalEncoding)}
    {parts : List (List DumpOp)} {rs : List Recording}
    (recorded : List.Forall₂ (fun part own => Recording.empty.run c encodings part = some own) parts rs)
    (small : ∀ part ∈ parts, ∀ n e, (Encoder.new encodings).run c (part.take n) = some e → e.Small) :
    ∃ es, List.Forall₂ (fun part e => (Encoder.new encodings).run c part = some e) parts es ∧
      List.Forall₂ (Closes c encodings) (rs.map Recording.timeline) es := by
  induction recorded with
  | nil => exact ⟨[], .nil, .nil⟩
  | cons first rest ih =>
    obtain ⟨e, ran, refines, least⟩ :=
      (Refines.empty c encodings).run first (small _ List.mem_cons_self)
    obtain ⟨es, others, closed⟩ := ih fun part member => small part (.tail _ member)
    exact ⟨e :: es, .cons ran others, .cons (refines.closes least) closed⟩

/-- A dump in parts, each of them taken by an encoder of its own. The first part has a time, which is
what `append` relies on. -/
theorem finish_parts {c : Crates} {encodings : List (Option SignalEncoding)} {part : List DumpOp}
    {parts : List (List DumpOp)} (starts : ∀ own ∈ part :: parts, Recording.Starts own)
    (first : part ≠ []) (ordered : (opTimes (part :: parts).flatten).Pairwise (· ≤ ·)) {r : Recording}
    (recorded : Recording.empty.run c encodings (part :: parts).flatten = some r)
    (small : ∀ own ∈ part :: parts, ∀ n e,
      (Encoder.new encodings).run c (own.take n) = some e → e.Small)
    (steps : r.timeline.times.length < 2 ^ 32) :
    ∃ e es all reader, (Encoder.new encodings).run c part = some e ∧
      List.Forall₂ (fun part e => (Encoder.new encodings).run c part = some e) parts es ∧
      es.foldlM (Encoder.append c) e = some all ∧
      all.finish c = some (reader, r.timeline.times) ∧ Gives c encodings r.timeline reader := by
  obtain ⟨rs, owns, whole⟩ := Recording.run_parts starts ordered (Recording.fresh_empty _) recorded
  obtain ⟨es, ran, closed⟩ := Closes.ofParts owns small
  cases owns with
  | cons own others =>
    cases ran with
    | cons ranFirst rans =>
      cases closed with
      | cons closes closed =>
        rename_i ownFirst rs e es
        rw [List.map_cons, List.foldl_cons] at whole
        have base : Recording.empty.timeline.append ownFirst.timeline = ownFirst.timeline :=
          Timeline.empty_append _
        have nonempty : ownFirst.timeline.times ≠ [] := by
          obtain ⟨t, ops, rfl⟩ := (starts part List.mem_cons_self).resolve_left first
          obtain ⟨own', run', behind⟩ := Recording.run_part rfl
            (fun last now => (Recording.fresh_empty [t]).2 last now t List.mem_cons_self) own
          rw [own] at run'
          cases run'
          exact behind.times_ne_nil
        rw [base] at whole
        obtain ⟨all, appended, closes'⟩ := closes.appendAll nonempty closed
        rw [← whole] at closes'
        obtain ⟨reader, finish, gives⟩ := closes'.finish steps
        exact ⟨e, es, all, reader, ranFirst, rans, appended, finish, gives⟩

end RWave.Wellen
