import RWave.Backend.Basic

/-!
# Window slices of a trace

What a seeking backend may return for a window `[from, to]`: the two shapes of
`load_traces_windowed`. A slice in either shape is ordered and carries, at every instant of the
window, the value the complete trace has there (`PointExact`). Its changes inside the window are
those of the complete trace, but for several changes at `from` itself, of which the first shape
keeps only the last (`slice_within`).
-/

namespace RWave.Backend

namespace SignalTrace

/-- The changes up to `t`. -/
def upTo (tr : SignalTrace) (t : Int) : SignalTrace := tr.filter fun c => decide (c.tick ≤ t)

theorem lastBefore_eq (tr : SignalTrace) (t : Int) : tr.lastBefore t = (tr.upTo t).getLast? := rfl

theorem upTo_append (a b : SignalTrace) (t : Int) :
    upTo (a ++ b) t = a.upTo t ++ b.upTo t :=
  List.filter_append ..

theorem upTo_singleton (c : Change) (t : Int) : upTo [c] t = if c.tick ≤ t then [c] else [] := by
  by_cases early : c.tick ≤ t <;> simp [upTo, early]

theorem Ordered.filter {tr : SignalTrace} (h : tr.Ordered) (p : Change → Bool) :
    SignalTrace.Ordered (List.filter p tr) :=
  List.Pairwise.filter p h

theorem Ordered.ordered_upTo {tr : SignalTrace} (h : tr.Ordered) (t : Int) : (tr.upTo t).Ordered :=
  h.filter _

theorem Ordered.le_getLast {tr : SignalTrace} (ordered : tr.Ordered) {c last : Change} (hc : c ∈ tr)
    (final : tr.getLast? = some last) : c.tick ≤ last.tick := by
  obtain ⟨front, rfl⟩ := List.getLast?_eq_some_iff.mp final
  rcases List.mem_append.mp hc with hc | hc
  · exact (List.pairwise_append.mp ordered).2.2 c hc last (by simp)
  · rw [List.mem_singleton.mp hc]

/-- An ordered trace is its changes up to `a` and then those after it. -/
theorem Ordered.split {tr : SignalTrace} (ordered : tr.Ordered) (a : Int) :
    tr.upTo a ++ tr.filter (fun c => decide (a < c.tick)) = tr := by
  induction tr with
  | nil => rfl
  | cons c tr ih =>
    obtain ⟨least, ordered⟩ := List.pairwise_cons.mp ordered
    simp only [upTo] at ih ⊢
    by_cases early : c.tick ≤ a
    · simp [early, ih ordered]
    · have none : tr.filter (fun d => decide (d.tick ≤ a)) = [] :=
        List.filter_eq_nil_iff.mpr fun d hd => by
          have := least d hd
          simpa using by omega
      have all : tr.filter (fun d => decide (a < d.tick)) = tr :=
        List.filter_eq_self.mpr fun d hd => by
          have := least d hd
          simpa using by omega
      simp [early, none, all, not_le.mp early]

theorem Ordered.filter_split {tr : SignalTrace} (ordered : tr.Ordered) (p : Change → Bool)
    (a : Int) :
    tr.filter p = tr.filter (fun c => p c && decide (c.tick ≤ a)) ++
      tr.filter (fun c => p c && decide (a < c.tick)) := by
  conv => lhs; rw [← ordered.split a]
  rw [List.filter_append, upTo, List.filter_filter, List.filter_filter]

/-- In an ordered trace the changes up to `b` are those up to `a` and then those in `(a, b]`. -/
theorem Ordered.upTo_split {tr : SignalTrace} (ordered : tr.Ordered) {a b : Int} (le : a ≤ b) :
    tr.upTo b = tr.upTo a ++ tr.within (a + 1) (some b) := by
  rw [upTo, ordered.filter_split _ a]
  congr 1 <;> refine List.filter_congr fun c _ => ?_
  · rw [Bool.eq_iff_iff]
    simpa using fun h => h.trans le
  · rw [Bool.eq_iff_iff]
    simp only [inWindow_some, Bool.and_eq_true, decide_eq_true_eq]
    omega

theorem mem_within {tr : SignalTrace} {t0 : Int} {t1 : Option Int} {c : Change} :
    c ∈ tr.within t0 t1 ↔ c ∈ tr ∧ t0 ≤ c.tick ∧ ∀ t ∈ t1, c.tick ≤ t := by
  simp only [within, inWindow, List.mem_filter, Bool.and_eq_true, decide_eq_true_eq]
  cases t1 <;> simp

end SignalTrace

/-- The two shapes of a windowed trace: the last change at or before `from` at its own tick, or
(the WLF backend) the value entering `from` tagged `from - 1`. -/
inductive WindowShape where
  | seedAtTick
  | seedBefore
  deriving DecidableEq, Repr

/-- The window `[from, to]` of a trace in a given shape. -/
def WindowShape.slice (shape : WindowShape) (full : SignalTrace) (frm : Int) (upto : Option Int) :
    SignalTrace :=
  match shape with
  | .seedAtTick => (full.lastBefore frm).toList ++ full.within (frm + 1) upto
  | .seedBefore =>
    ((full.lastBefore (frm - 1)).map fun c => ⟨frm - 1, c.value⟩).toList ++ full.within frm upto

/-- The tick before which a shape carries one change only. -/
def WindowShape.split (shape : WindowShape) (frm : Int) : Int :=
  match shape with
  | .seedAtTick => frm
  | .seedBefore => frm - 1

theorem WindowShape.split_le (shape : WindowShape) (frm : Int) : shape.split frm ≤ frm := by
  cases shape <;> simp only [split] <;> omega

/-- Both shapes carry the last change up to some tick, with the same value and no later tag, and
every change after it. -/
theorem WindowShape.slice_eq (shape : WindowShape) (full : SignalTrace) (frm : Int)
    (upto : Option Int) : ∃ seed : Change → Change, (∀ c, (seed c).value = c.value) ∧
      (∀ c ∈ full.lastBefore (shape.split frm), (seed c).tick ≤ shape.split frm) ∧
      (shape = .seedAtTick → seed = id) ∧
      shape.slice full frm upto = ((full.lastBefore (shape.split frm)).map seed).toList ++
        full.within (shape.split frm + 1) upto := by
  cases shape with
  | seedAtTick =>
    refine ⟨id, fun _ => rfl, fun c hc => ?_, fun _ => rfl, by simp [slice, split]⟩
    have := List.mem_of_getLast? hc
    simpa using (List.mem_filter.mp this).2
  | seedBefore =>
    exact ⟨fun c => ⟨frm - 1, c.value⟩, fun _ => rfl, fun _ _ => le_rfl, nofun,
      by simp [slice, split]⟩

theorem WindowShape.slice_ordered (shape : WindowShape) {full : SignalTrace}
    (ordered : full.Ordered) (frm : Int) (upto : Option Int) :
    (shape.slice full frm upto).Ordered := by
  obtain ⟨seed, -, early, -, eq⟩ := shape.slice_eq full frm upto
  rw [eq]
  refine List.pairwise_append.mpr ⟨?_, ordered.filter _, fun c hc d hd => ?_⟩
  · cases full.lastBefore (shape.split frm) <;> simp
  · obtain ⟨c', hc', rfl⟩ := by simpa using hc
    have := early c' hc'
    have := (SignalTrace.mem_within.mp hd).2.1
    omega

/-- Inside the window, the last change of a trace is the last one after the split, else the last
one before it. -/
theorem SignalTrace.Ordered.lastBefore_split {tr : SignalTrace} (ordered : tr.Ordered) {a t : Int}
    (le : a ≤ t) :
    tr.lastBefore t = (tr.within (a + 1) (some t)).getLast?.or (tr.lastBefore a) := by
  rw [SignalTrace.lastBefore_eq, ordered.upTo_split le, List.getLast?_append]
  rfl

/-- A slice's last change is that of the trace, up to the tag of the seed. -/
theorem WindowShape.slice_lastBefore_or (shape : WindowShape) (full : SignalTrace)
    {frm t : Int} {upto : Option Int} (split_le : shape.split frm ≤ t)
    (le_to : ∀ b ∈ upto, t ≤ b) :
    ∃ seed : Change → Change, (∀ c, (seed c).value = c.value) ∧
      (∀ c ∈ full.lastBefore (shape.split frm), (seed c).tick ≤ shape.split frm) ∧
      (shape = .seedAtTick → seed = id) ∧
      (shape.slice full frm upto).lastBefore t =
        (full.within (shape.split frm + 1) (some t)).getLast?.or
          ((full.lastBefore (shape.split frm)).map seed) := by
  obtain ⟨seed, value, early, own, eq⟩ := shape.slice_eq full frm upto
  have inside : SignalTrace.upTo (full.within (shape.split frm + 1) upto) t =
      full.within (shape.split frm + 1) (some t) := by
    rw [SignalTrace.upTo, SignalTrace.within, List.filter_filter]
    refine List.filter_congr ?_
    intro c _
    by_cases before : c.tick ≤ t
    · have : upto.all (fun b => decide (c.tick ≤ b)) = true :=
        Option.all_eq_true _ _ |>.mpr fun b hb => by
          have := le_to b hb
          simpa using by omega
      simp [inWindow, before, this]
    · simp [inWindow, before]
  have front : SignalTrace.upTo ((full.lastBefore (shape.split frm)).map seed).toList t =
      ((full.lastBefore (shape.split frm)).map seed).toList := by
    refine List.filter_eq_self.mpr ?_
    intro c hc
    obtain ⟨c', hc', rfl⟩ := by simpa using hc
    have := early c' hc'
    simpa using by omega
  refine ⟨seed, value, early, own, ?_⟩
  rw [eq, SignalTrace.lastBefore_eq, SignalTrace.upTo_append, front, inside,
    List.getLast?_append]
  cases full.lastBefore (shape.split frm) <;> rfl

/-- At every instant of the window, and at the tag of its seed, a slice has the value of the
complete trace. -/
theorem WindowShape.slice_lastBefore (shape : WindowShape) {full : SignalTrace}
    (ordered : full.Ordered) {frm t : Int} {upto : Option Int} (split_le : shape.split frm ≤ t)
    (le_to : ∀ b ∈ upto, t ≤ b) :
    ((shape.slice full frm upto).lastBefore t).map Change.value =
      (full.lastBefore t).map Change.value := by
  obtain ⟨seed, value, -, -, eq⟩ := shape.slice_lastBefore_or full split_le le_to
  rw [eq, ordered.lastBefore_split split_le]
  cases (full.within (shape.split frm + 1) (some t)).getLast? with
  | some c => rfl
  | none =>
    cases full.lastBefore (shape.split frm) with
    | none => rfl
    | some c => simpa using value c

/-- A slice in the first shape has the trace's own last change. -/
theorem slice_seedAtTick_lastBefore {full : SignalTrace} (ordered : full.Ordered) {frm t : Int}
    {upto : Option Int} (from_le : frm ≤ t) (le_to : ∀ b ∈ upto, t ≤ b) :
    (WindowShape.slice .seedAtTick full frm upto).lastBefore t = full.lastBefore t := by
  obtain ⟨seed, -, -, own, eq⟩ := WindowShape.seedAtTick.slice_lastBefore_or full from_le le_to
  rw [eq, ordered.lastBefore_split from_le, own rfl, Option.map_id]
  rfl

/-- What a point query needs of the answer to a window `[from, to]`: it is in time order, and at
every instant of the window it has the value of the complete trace. -/
structure PointExact (whole answer : SignalTrace) (frm : Int) (upto : Option Int) : Prop where
  ordered : answer.Ordered
  value : ∀ t, frm ≤ t → (∀ b ∈ upto, t ≤ b) →
    (answer.lastBefore t).map Change.value = (whole.lastBefore t).map Change.value

/-- The default of `load_traces_windowed` answers with the complete trace. -/
theorem PointExact.refl {whole : SignalTrace} (ordered : whole.Ordered) (frm : Int)
    (upto : Option Int) : PointExact whole whole frm upto :=
  ⟨ordered, fun _ _ _ => rfl⟩

theorem WindowShape.pointExact (shape : WindowShape) {full : SignalTrace} (ordered : full.Ordered)
    (frm : Int) (upto : Option Int) : PointExact full (shape.slice full frm upto) frm upto :=
  ⟨shape.slice_ordered ordered frm upto, fun _ from_le le_to =>
    shape.slice_lastBefore ordered ((shape.split_le frm).trans from_le) le_to⟩

/-! ## The changes inside the window -/

/-- The changes at one tick. -/
def SignalTrace.atTick (tr : SignalTrace) (t : Int) : SignalTrace :=
  tr.filter fun c => decide (c.tick = t)

/-- A window is its changes at `from` and then those after it. -/
theorem SignalTrace.Ordered.within_split {tr : SignalTrace} (ordered : tr.Ordered) {frm : Int}
    {upto : Option Int} (le : ∀ b ∈ upto, frm ≤ b) :
    tr.within frm upto = tr.atTick frm ++ tr.within (frm + 1) upto := by
  rw [within, ordered.filter_split _ frm]
  congr 1 <;> refine List.filter_congr fun c _ => ?_
  · rw [Bool.eq_iff_iff]
    simp only [inWindow, Bool.and_eq_true, decide_eq_true_eq]
    constructor
    · omega
    · rintro rfl
      refine ⟨⟨le_rfl, ?_⟩, le_rfl⟩
      cases upto with
      | none => rfl
      | some b => simpa using le b rfl
  · rw [Bool.eq_iff_iff]
    simp only [inWindow, Bool.and_eq_true, decide_eq_true_eq]
    constructor
    · rintro ⟨⟨-, before⟩, after⟩
      exact ⟨by omega, before⟩
    · rintro ⟨after, before⟩
      exact ⟨⟨by omega, before⟩, by omega⟩

theorem SignalTrace.within_within (tr : SignalTrace) {a b : Int} (le : a ≤ b)
    (upto : Option Int) : SignalTrace.within (tr.within b upto) a upto = tr.within b upto := by
  refine List.filter_eq_self.mpr ?_
  intro c hc
  have inside := (List.mem_filter.mp hc).2
  simp only [inWindow, Bool.and_eq_true, decide_eq_true_eq] at inside ⊢
  exact ⟨by omega, inside.2⟩

/-- The changes of a slice inside its window: all of the complete trace's, but of those at `from`
itself the first shape has only the last. -/
theorem WindowShape.slice_within (shape : WindowShape) {full : SignalTrace}
    (ordered : full.Ordered) {frm : Int} {upto : Option Int} (le : ∀ b ∈ upto, frm ≤ b) :
    (shape.slice full frm upto).within frm upto =
      match shape with
      | .seedAtTick => (full.atTick frm).getLast?.toList ++ full.within (frm + 1) upto
      | .seedBefore => full.within frm upto := by
  cases shape with
  | seedBefore =>
    have dropped : SignalTrace.within ((full.lastBefore (frm - 1)).map fun c =>
        (⟨frm - 1, c.value⟩ : Change)).toList frm upto = [] := by
      refine List.filter_eq_nil_iff.mpr ?_
      intro c hc
      obtain ⟨d, -, rfl⟩ := by simpa using hc
      simp [inWindow]
    rw [slice, SignalTrace.within, List.filter_append]
    exact congrArg₂ _ dropped (full.within_within le_rfl upto)
  | seedAtTick =>
    rw [slice, SignalTrace.within, List.filter_append]
    refine congrArg₂ _ ?_ (full.within_within (by omega) upto)
    have at_eq : full.within (frm - 1 + 1) (some frm) = full.atTick frm := by
      refine List.filter_congr ?_
      intro c _
      rw [Bool.eq_iff_iff]
      simp only [inWindow_some, decide_eq_true_eq]
      omega
    have last : full.lastBefore frm = (full.atTick frm).getLast?.or (full.lastBefore (frm - 1)) := by
      rw [SignalTrace.lastBefore_eq, ordered.upTo_split (show frm - 1 ≤ frm by omega),
        List.getLast?_append, at_eq]
      rfl
    rw [last]
    cases found : (full.atTick frm).getLast? with
    | some c =>
      have tick : c.tick = frm := by
        simpa using (List.mem_filter.mp (List.mem_of_getLast? found)).2
      have inside : inWindow frm upto frm = true := by
        cases upto with
        | none => simp [inWindow]
        | some b => simpa [inWindow] using le b rfl
      simp [tick, inside]
    | none =>
      refine List.filter_eq_nil_iff.mpr ?_
      intro c hc
      have last : full.lastBefore (frm - 1) = some c := by simpa using hc
      have early := (List.mem_filter.mp (List.mem_of_getLast? last)).2
      have : c.tick ≤ frm - 1 := by simpa using early
      simp only [inWindow, Bool.and_eq_true, decide_eq_true_eq, not_and]
      omega

end RWave.Backend
