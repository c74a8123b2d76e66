import RWave.Commands.SearchLimit

/-!
# Rows at the end of the window

The collector guards against an empty row when the window itself is empty. When the observation
turns just at `t1`, the final pending group opens a row there and the final flush closes it at once:
the row `[t1, t1)`. That is the only way to an empty row.
-/

namespace RWave.Commands

open RWave.Backend RWave.Model RWave.Misc RWave.Format

variable {F : File}

/-- A row of the window that is not empty. -/
def IntervalRow.Proper (s : SearchSetup F) (r : IntervalRow) : Prop :=
  s.t0 ≤ r.beginTicks ∧ r.beginTicks < r.endTicks ∧ r.endTicks ≤ s.t1

instance (s : SearchSetup F) (r : IntervalRow) : Decidable (r.Proper s) :=
  inferInstanceAs (Decidable (_ ∧ _))

/-- The clauses come to hold, or a shown value changes while they do, at a tick. -/
def SearchSetup.Turns (host : Host) (w : Wave F) (s : SearchSetup F) (t : Int) : Prop :=
  Segments.Opening (fun t => s.observe (stateAt host w t)) s.t0 t

instance (host : Host) (w : Wave F) (s : SearchSetup F) (t : Int) : Decidable (s.Turns host w t) :=
  inferInstanceAs (Decidable (Segments.Opening _ _ _))

/-- They do so at the end of a window that is not empty, and the limit leaves room for the row. -/
def SearchSetup.TurnsAtEnd (host : Host) (w : Wave F) (s : SearchSetup F) : Prop :=
  s.t0 < s.t1 ∧ s.Turns host w s.t1 ∧
    (s.limit = 0 ∨ ((Finset.Ico s.t0 s.t1).filter (s.Turns host w)).card < s.limit)

/-- The rows are those there are without a limit, as many as it allows. -/
theorem searchIntervalCollect_take (host : Host) (w : Wave F)
    (H : BinaryHeap (HeapEntry.key (F := F))) (s : SearchSetup F) :
    (searchIntervalCollect host w H s).1 =
      if s.limit = 0 then (searchIntervalCollect host w H s.unlimited).1
      else (searchIntervalCollect host w H s.unlimited).1.take s.limit := by
  split
  · rename_i unlimited
    have same : s.unlimited = s := by
      rw [SearchSetup.unlimited, ← unlimited]
    rw [same]
  · rename_i limited
    exact (intervalCollect_clips host w H s (Nat.pos_of_ne_zero limited)).rows

section Proper

variable {host : Host} {w : Wave F} {s : SearchSetup F} {all : List IntervalRow}

/-- A row that begins inside the window is proper. -/
theorem proper_of_early
    (exact : Segments (fun t => s.observe (stateAt host w t)) s.t0 s.t1
      (all.map IntervalRow.segment)) {r : IntervalRow} (member : r ∈ all)
    (early : r.beginTicks < s.t1) : r.Proper s := by
  have listed : r.segment ∈ all.map IntervalRow.segment := List.mem_map_of_mem member
  obtain ⟨after, -, before⟩ := exact.bounds _ listed
  exact ⟨after, exact.nonempty listed early, before⟩

variable (exact : Segments (fun t => s.observe (stateAt host w t)) s.t0 s.t1
    (all.map IntervalRow.segment)) (nonempty : s.t0 < s.t1)
  (last : (∃ r ∈ all.map IntervalRow.segment, r.start = s.t1) ↔ s.Turns host w s.t1)
include exact last

/-- When the observation turns at `t1`, the last row begins there, after as many as there are turns
before. -/
theorem last_row (turns : s.Turns host w s.t1) :
    ∃ rows r, all = rows ++ [r] ∧ r.beginTicks = s.t1 ∧ r.endTicks = s.t1 ∧
      rows.length = ((Finset.Ico s.t0 s.t1).filter (s.Turns host w)).card ∧
      ∀ r ∈ rows, r.beginTicks < s.t1 := by
  obtain ⟨atEnd, member, start⟩ := last.mpr turns
  rcases exact.last_cases with early | ⟨before, v, split, exact', early⟩
  · exact absurd (early atEnd member) (by omega)
  · obtain ⟨rows, more, rfl, rfl, final⟩ := List.map_eq_append_iff.mp split
    obtain ⟨r, rfl, empty⟩ := List.map_eq_singleton_iff.mp final
    refine ⟨rows, r, rfl, congrArg Segment.start empty, congrArg Segment.finish empty, ?_, ?_⟩
    · exact (List.length_map _).symm.trans (exact'.card_openings early).symm
    · exact fun r member => early _ (List.mem_map_of_mem member)

/-- The limit leaves the row at `t1`. -/
theorem row_at_end (turns : s.TurnsAtEnd host w) :
    ∃ r ∈ if s.limit = 0 then all else all.take s.limit,
      r.beginTicks = s.t1 ∧ r.endTicks = s.t1 := by
  obtain ⟨-, turns, room⟩ := turns
  obtain ⟨rows, r, rfl, begins, ends, count, -⟩ := last_row exact last turns
  refine ⟨r, ?_, begins, ends⟩
  split
  · simp
  · rename_i limited
    have fits : (rows ++ [r]).length ≤ s.limit := by
      rw [List.length_append, List.length_singleton]
      omega
    rw [List.take_of_length_le fits]
    simp

include nonempty

/-- Without the row at `t1` the rows are proper. -/
theorem proper_inside (inside : ¬ s.TurnsAtEnd host w) {r : IntervalRow}
    (member : r ∈ if s.limit = 0 then all else all.take s.limit) : r.Proper s := by
  by_cases turns : s.Turns host w s.t1
  · obtain ⟨rows, atEnd, rfl, -, -, count, early⟩ := last_row exact last turns
    have full : s.limit ≠ 0 ∧ s.limit ≤ rows.length := by
      by_contra room
      exact inside ⟨nonempty, turns, by omega⟩
    rw [if_neg full.1, List.take_append_of_le_length full.2] at member
    have member' := List.mem_of_mem_take member
    exact proper_of_early exact (List.mem_append_left _ member') (early r member')
  · have member' : r ∈ all := by
      split at member
      · exact member
      · exact List.mem_of_mem_take member
    have listed : r.segment ∈ all.map IntervalRow.segment := List.mem_map_of_mem member'
    obtain ⟨-, le, within⟩ := exact.bounds _ listed
    refine proper_of_early exact member' (lt_of_le_of_ne (le.trans within) fun start => ?_)
    exact turns (last.mp ⟨_, listed, start⟩)

end Proper

/-- The rows of a window that is not empty have one that begins at `t1` just if they turn there. -/
theorem starts_at_end_iff (host : Host) (s : SearchSetup F) {w : Wave F}
    (H : BinaryHeap (HeapEntry.key (F := F))) (ordered : ∀ sid, (w.trace sid).Ordered)
    (nonneg : ∀ sid, ∀ c ∈ w.trace sid, 0 ≤ c.tick) (unlimited : s.limit = 0)
    (nonempty : s.t0 < s.t1) :
    (∃ r ∈ (searchIntervalCollect host w H s).1.map IntervalRow.segment, r.start = s.t1) ↔
      s.Turns host w s.t1 :=
  (searchIntervalCollect_segments host s H ordered unlimited nonneg nonempty.le).starts_at_end
    nonempty fun _ => searchIntervalCollect_last host s H ordered unlimited nonneg nonempty

/-- No row of interval or segment mode is empty, unless the clauses come to hold, or a shown value
changes while they do, just at the end of the window, and the limit leaves room for that row. -/
theorem intervalRows_proper (host : Host) (s : SearchSetup F) {w : Wave F}
    (H : BinaryHeap (HeapEntry.key (F := F))) (ordered : ∀ sid, (w.trace sid).Ordered)
    (nonneg : ∀ sid, ∀ c ∈ w.trace sid, 0 ≤ c.tick) (window : s.t0 ≤ s.t1) :
    (∀ r ∈ (searchIntervalCollect host w H s).1, r.Proper s) ↔ ¬ s.TurnsAtEnd host w := by
  have exact := searchIntervalCollect_segments host s.unlimited H ordered rfl nonneg window
  have last := starts_at_end_iff host s.unlimited H ordered nonneg rfl
  rw [searchIntervalCollect_take]
  constructor
  · intro proper turns
    obtain ⟨r, member, begins, ends⟩ := row_at_end (s := s) exact (last turns.1) turns
    have := (proper r member).2.1
    omega
  · intro inside r member
    rcases window.lt_or_eq with nonempty | empty
    · exact proper_inside (s := s) exact nonempty (last nonempty) inside member
    · have none := searchIntervalCollect_eq host s.unlimited H ordered rfl
      rw [if_neg (by simpa [SearchSetup.unlimited] using empty.ge), List.map_eq_nil_iff] at none
      simp [none] at member

/-- Nothing turns at the end of the window `[1, 9]`. -/
theorem intervalRows_proper_handshake :
    ¬ (ackSetup []).TurnsAtEnd MockBackend.host handshakeWave ∧
    ∀ r ∈ (searchIntervalCollect MockBackend.host handshakeWave (stdHeap _) (ackSetup [])).1,
      r.Proper (ackSetup []) := by
  have quiet : ¬ (ackSetup []).TurnsAtEnd MockBackend.host handshakeWave :=
    fun turns => absurd turns.2.1 (by decide +kernel)
  exact ⟨quiet, (intervalRows_proper _ _ _ handshakeWave_ordered handshakeWave_nonneg
    (by decide)).mpr quiet⟩

/-- `top.s1=1` comes to hold at 6, where the window ends; and `top.s0`, shown, changes at 3 while it
holds. -/
theorem intervalRows_empty :
    (∃ r ∈ (searchIntervalCollect MockBackend.host handshakeWave (stdHeap _)
      { ackSetup [] with t1 := 6 }).1, r.beginTicks = 6 ∧ r.endTicks = 6) ∧
    ∃ r ∈ (searchIntervalCollect MockBackend.host handshakeWave (stdHeap _)
      { ackSetup [handshakeMock.req] with t1 := 3 }).1, r.beginTicks = 3 ∧ r.endTicks = 3 := by
  decide +kernel

end RWave.Commands
