import RWave.Model.Replay

/-!
# Positions in a trace

`lower_bound`, `upper_bound` and `last_at_or_before` are binary searches over a trace's times.
`partition_point` is documented for a slice that is partitioned by the predicate, where it is
the length of the leading run; an ordered trace is partitioned by every predicate used here.
-/

namespace RWave.Model

open RWave.Backend

/-- `slice::partition_point`. -/
def partitionPoint {α : Type} (p : α → Bool) (l : List α) : Nat := (l.takeWhile p).length

/-- First index whose time is `>= t`. -/
def lowerBound (times : List Int) (t : Int) : Nat := partitionPoint (fun x => decide (x < t)) times

/-- Count of elements `<= t`. -/
def upperBound (times : List Int) (t : Int) : Nat := partitionPoint (fun x => decide (x ≤ t)) times

/-- Index of the last change at or before `t`. -/
def lastAtOrBefore (times : List Int) (t : Int) : Option Nat :=
  if times.isEmpty || times.head?.any fun first => decide (first > t) then
    none
  else
    let count := partitionPoint (fun x => decide (x ≤ t)) times
    if count = 0 then none else some (count - 1)

theorem partitionPoint_cons {α : Type} (p : α → Bool) (a : α) (l : List α) :
    partitionPoint p (a :: l) = if p a then partitionPoint p l + 1 else 0 := by
  unfold partitionPoint
  rw [List.takeWhile_cons]
  split <;> simp

/-- In an ordered trace the run up to `t` is everything up to `t`. -/
theorem take_upperBound {tr : SignalTrace} (ordered : tr.Ordered) (t : Int) :
    tr.take (upperBound tr.times t) = tr.filter fun c => decide (c.tick ≤ t) := by
  induction tr with
  | nil => rfl
  | cons c tr ih =>
    obtain ⟨least, ordered⟩ := List.pairwise_cons.mp ordered
    simp only [SignalTrace.times, upperBound, List.map_cons, partitionPoint_cons] at ih ⊢
    by_cases early : c.tick ≤ t
    · simp [early, ih ordered]
    · have later : ∀ d ∈ tr, ¬ d.tick ≤ t := fun d hd => by have := least d hd; omega
      simpa [early] using later

/-- Of the changes up to `t1`, those from the lower bound of `t0` on are the window. -/
theorem drop_lowerBound {tr : SignalTrace} (ordered : tr.Ordered) (t0 : Int) (t1 : Option Int) :
    (tr.filter fun c => t1.all fun t1 => decide (c.tick ≤ t1)).drop (lowerBound tr.times t0) =
      tr.within t0 t1 := by
  induction tr with
  | nil => rfl
  | cons c tr ih =>
    obtain ⟨least, ordered'⟩ := List.pairwise_cons.mp ordered
    simp only [lowerBound, SignalTrace.times, SignalTrace.within, List.map_cons,
      partitionPoint_cons] at ih ⊢
    by_cases early : c.tick < t0
    · have outside : inWindow t0 t1 c.tick = false := by simp [inWindow, early]
      by_cases below : (t1.all fun t1 => decide (c.tick ≤ t1)) = true
      · simpa [early, outside, below] using ih ordered'
      · -- Past `t1` nothing is left.
        obtain ⟨t1, rfl, late⟩ : ∃ t, t1 = some t ∧ ¬ c.tick ≤ t := by
          cases t1 with
          | none => simp at below
          | some t1 => exact ⟨t1, rfl, by simpa using below⟩
        have none : ∀ d ∈ tr, ¬ d.tick ≤ t1 := fun d hd => by have := least d hd; omega
        have left : (tr.filter fun d => decide (d.tick ≤ t1)) = [] :=
          List.filter_eq_nil_iff.mpr (by simpa using none)
        have right : (tr.filter fun d => inWindow t0 (some t1) d.tick) = [] :=
          List.filter_eq_nil_iff.mpr (by simpa [inWindow] using fun d hd _ => by simpa using none d hd)
        simp [late, outside, left, right]
    · have from0 : ∀ d ∈ c :: tr, t0 ≤ d.tick := by
        simpa using ⟨by omega, fun d hd => by have := least d hd; omega⟩
      simp only [early, decide_false, Bool.false_eq_true, if_false, List.drop_zero]
      refine List.filter_congr ?_
      intro d hd
      simp [inWindow, from0 d hd]

/-- The changes up to a bound are the changes of the window that ends there. -/
theorem take_upper {tr : SignalTrace} (ordered : tr.Ordered) (t1 : Option Int) :
    tr.take (match t1 with
      | some t1 => upperBound tr.times t1
      | none => tr.length) = tr.filter fun c => t1.all fun t1 => decide (c.tick ≤ t1) := by
  cases t1 with
  | none => simp
  | some t1 => rw [take_upperBound ordered]; rfl

/-- `lo..hi` of `collect_events_bounded` is the window. -/
theorem range_eq_within {tr : SignalTrace} (ordered : tr.Ordered) (t0 : Int) (t1 : Option Int) :
    (tr.take (match t1 with
      | some t1 => upperBound tr.times t1
      | none => tr.times.length)).drop (lowerBound tr.times t0) = tr.within t0 t1 := by
  rw [← drop_lowerBound ordered, ← take_upper ordered, SignalTrace.times, List.length_map]

theorem upperBound_le (tr : SignalTrace) (t : Int) : upperBound tr.times t ≤ tr.length := by
  have := (List.takeWhile_sublist (fun x => decide (x ≤ t)) (l := tr.times)).length_le
  simpa [SignalTrace.times, upperBound, partitionPoint] using this

/-- `last_at_or_before` finds the last change at or before `t`. -/
theorem lastAtOrBefore_eq {tr : SignalTrace} (ordered : tr.Ordered) (t : Int) :
    ((lastAtOrBefore tr.times t).bind fun pos => tr[pos]?) = tr.lastBefore t := by
  have upto := take_upperBound ordered t
  have bound := upperBound_le tr t
  rw [SignalTrace.lastBefore, ← upto, List.getLast?_take]
  unfold lastAtOrBefore
  cases tr with
  | nil => rfl
  | cons c tr =>
    simp only [upperBound, SignalTrace.times, List.map_cons, partitionPoint_cons,
      List.isEmpty_cons, Bool.false_or, List.head?_cons, Option.any_some]
    by_cases early : c.tick ≤ t
    · simp only [upperBound, SignalTrace.times, List.map_cons, partitionPoint_cons, early,
        decide_true, if_true, List.length_cons] at bound
      simp [early, not_lt.mpr early, List.getElem?_eq_getElem (l := c :: tr) (Nat.lt_of_succ_le bound)]
    · simp [early, not_le.mp early]

/-- The changes after `t` begin where the next tick's do. -/
theorem upperBound_eq_lowerBound (times : List Int) (t : Int) :
    upperBound times t = lowerBound times (t + 1) := by
  have : (fun x : Int => decide (x ≤ t)) = fun x => decide (x < t + 1) := by
    funext x
    rw [decide_eq_decide]
    omega
  rw [upperBound, lowerBound, this]

/-- The change after the last one at or before `t` is the first one after `t`. -/
theorem lastAtOrBefore_succ {times : List Int} {t : Int} {pos : Nat}
    (found : lastAtOrBefore times t = some pos) : pos + 1 = upperBound times t := by
  rw [lastAtOrBefore] at found
  split at found
  · cases found
  · dsimp only at found
    split at found
    · cases found
    · rename_i some
      cases found
      exact Nat.sub_add_cancel (Nat.pos_of_ne_zero some)


end RWave.Model
