import Mathlib

/-!
# Streams grouped by tick

A stream of elements in time order, consumed one tick at a time: a pending group grows until an
element of another tick arrives. `groups_eq` says that the groups of an ordered stream are the
elements of its ticks; `scan_eq` that a state applied to the stream group by group is, before and
after the group of a tick, the state of the stream before and up to the tick.
-/

namespace RWave.Misc

variable {α σ : Type}

/-- The stream is in time order. -/
def TimeOrdered (l : List (Int × α)) : Prop := l.Pairwise fun x y => x.1 ≤ y.1

/-- The elements of a tick. -/
def atTick (l : List (Int × α)) (g : Int) : List α := (l.filter fun x => decide (x.1 = g)).map Prod.snd

/-- The elements up to a tick. -/
def upToTick (l : List (Int × α)) (t : Int) : List α :=
  (l.filter fun x => decide (x.1 ≤ t)).map Prod.snd

/-- The groups of a stream with a pending group: it grows while its tick goes on. -/
def groupsFrom (g : Int) (group : List α) : List (Int × α) → List (Int × List α)
  | [] => [(g, group)]
  | (t, a) :: rest =>
    if t = g then groupsFrom g (group ++ [a]) rest else (g, group) :: groupsFrom t [a] rest

/-- The groups of a stream. -/
def groups : List (Int × α) → List (Int × List α)
  | [] => []
  | (t, a) :: rest => groupsFrom t [a] rest

/-- The ticks of a stream, each once. -/
def ticks (l : List (Int × α)) : List Int := (groups l).map Prod.fst

/-- The ticks of an ordered stream that is not over increase, from the pending one on. -/
theorem groupsFrom_ticks {g : Int} {group : List α} {l : List (Int × α)} (ordered : TimeOrdered l)
    (le : ∀ x ∈ l, g ≤ x.1) :
    ((groupsFrom g group l).map Prod.fst).Pairwise (· < ·) ∧
      ∀ t, t ∈ (groupsFrom g group l).map Prod.fst ↔ t = g ∨ ∃ a, (t, a) ∈ l := by
  fun_induction groupsFrom g group l with
  | case1 g group => simp
  | case2 group g a rest ih =>
    obtain ⟨-, ordered⟩ := List.pairwise_cons.mp ordered
    obtain ⟨sorted, mem⟩ := ih ordered fun x member => le x (List.mem_cons_of_mem _ member)
    refine ⟨sorted, ?_⟩
    intro t
    rw [mem]
    constructor
    · rintro (same | ⟨b, member⟩)
      · exact .inl same
      · exact .inr ⟨b, List.mem_cons_of_mem _ member⟩
    · rintro (same | ⟨b, member⟩)
      · exact .inl same
      · rcases List.mem_cons.mp member with same | member
        · exact .inl (congrArg Prod.fst same)
        · exact .inr ⟨b, member⟩
  | case3 g group t a rest other ih =>
    obtain ⟨least, ordered⟩ := List.pairwise_cons.mp ordered
    obtain ⟨sorted, mem⟩ := ih ordered least
    have lt : g < t := lt_of_le_of_ne (le _ List.mem_cons_self) (Ne.symm other)
    rw [List.map_cons]
    refine ⟨List.pairwise_cons.mpr ⟨?_, sorted⟩, ?_⟩
    · intro u member
      rcases (mem u).mp member with rfl | ⟨b, member⟩
      · exact lt
      · exact lt.trans_le (least _ member)
    · intro u
      rw [List.mem_cons, mem]
      constructor
      · rintro (same | rfl | ⟨b, member⟩)
        · exact .inl same
        · exact .inr ⟨a, List.mem_cons_self⟩
        · exact .inr ⟨b, List.mem_cons_of_mem _ member⟩
      · rintro (same | ⟨b, member⟩)
        · exact .inl same
        · rcases List.mem_cons.mp member with same | member
          · exact .inr (.inl (congrArg Prod.fst same))
          · exact .inr (.inr ⟨b, member⟩)

/-- The ticks of an ordered stream increase. -/
theorem ticks_sorted {l : List (Int × α)} (ordered : TimeOrdered l) :
    (ticks l).Pairwise (· < ·) := by
  cases l with
  | nil => exact List.Pairwise.nil
  | cons x l =>
    obtain ⟨least, ordered⟩ := List.pairwise_cons.mp ordered
    exact (groupsFrom_ticks ordered least).1

theorem mem_ticks {l : List (Int × α)} (ordered : TimeOrdered l) {t : Int} :
    t ∈ ticks l ↔ ∃ a, (t, a) ∈ l := by
  cases l with
  | nil => simp [ticks, groups]
  | cons x l =>
    obtain ⟨least, ordered⟩ := List.pairwise_cons.mp ordered
    rw [ticks, groups, (groupsFrom_ticks ordered least).2 t]
    constructor
    · rintro (rfl | ⟨b, member⟩)
      · exact ⟨x.2, List.mem_cons_self⟩
      · exact ⟨b, List.mem_cons_of_mem _ member⟩
    · rintro ⟨b, member⟩
      rcases List.mem_cons.mp member with same | member
      · exact .inl (congrArg Prod.fst same)
      · exact .inr ⟨b, member⟩

theorem atTick_cons (t : Int) (a : α) (l : List (Int × α)) (g : Int) :
    atTick ((t, a) :: l) g = if t = g then a :: atTick l g else atTick l g := by
  by_cases same : t = g <;> simp [atTick, same]

/-- A pending group is completed by the elements of its tick. -/
theorem groupsFrom_eq {g : Int} {group : List α} {l : List (Int × α)} (ordered : TimeOrdered l)
    (le : ∀ x ∈ l, g ≤ x.1) :
    groupsFrom g group l = ((groupsFrom g group l).map Prod.fst).map fun t =>
      (t, if t = g then group ++ atTick l g else atTick l t) := by
  fun_induction groupsFrom g group l with
  | case1 g group => simp [atTick]
  | case2 group g a rest ih =>
    obtain ⟨-, ordered⟩ := List.pairwise_cons.mp ordered
    refine (ih ordered fun x member => le x (List.mem_cons_of_mem _ member)).trans ?_
    apply List.map_congr_left
    intro t _
    by_cases same : t = g
    · simp [same, atTick_cons]
    · simp [same, atTick_cons, Ne.symm same]
  | case3 g group t a rest other ih =>
    obtain ⟨least, rest_ordered⟩ := List.pairwise_cons.mp ordered
    have lt : g < t := lt_of_le_of_ne (le _ List.mem_cons_self) (Ne.symm other)
    have none : atTick ((t, a) :: rest) g = [] := by
      rw [atTick, List.filter_eq_nil_iff.mpr, List.map_nil]
      intro x member
      rcases List.mem_cons.mp member with rfl | member
      · simpa using lt.ne'
      · simpa using (lt.trans_le (least x member)).ne'
    rw [List.map_cons, List.map_cons, none, List.append_nil, if_pos rfl]
    congr 1
    refine (ih rest_ordered least).trans ?_
    apply List.map_congr_left
    intro u member
    have later : g < u := by
      rcases ((groupsFrom_ticks rest_ordered least).2 u).mp member with rfl | ⟨b, member⟩
      · exact lt
      · exact lt.trans_le (least _ member)
    rw [if_neg later.ne', atTick_cons]
    by_cases same : u = t
    · simp [same]
    · simp [same, Ne.symm same]

/-- The groups of an ordered stream are the elements of its ticks. -/
theorem groups_eq {l : List (Int × α)} (ordered : TimeOrdered l) :
    groups l = (ticks l).map fun g => (g, atTick l g) := by
  cases l with
  | nil => rfl
  | cons x l =>
    obtain ⟨t, a⟩ := x
    obtain ⟨least, ordered⟩ := List.pairwise_cons.mp ordered
    refine (groupsFrom_eq ordered least).trans ?_
    apply List.map_congr_left
    intro u _
    rw [atTick_cons]
    by_cases same : u = t
    · simp [same]
    · simp [same, Ne.symm same]

/-! ## A state applied to the stream -/

theorem upToTick_congr {l : List (Int × α)} {t u : Int} (same : ∀ x ∈ l, x.1 ≤ t ↔ x.1 ≤ u) :
    upToTick l t = upToTick l u := by
  rw [upToTick, upToTick]
  congr 1
  apply List.filter_congr
  intro x member
  rw [Bool.eq_iff_iff, decide_eq_true_eq, decide_eq_true_eq]
  exact same x member

/-- Nothing is up to an instant that all elements are later than. -/
theorem filter_le_eq_nil {l : List (Int × α)} {x : Int × α} (least : ∀ y ∈ l, x.1 ≤ y.1) {lo : Int}
    (late : lo < x.1) : l.filter (fun y => decide (y.1 ≤ lo)) = [] := by
  apply List.filter_eq_nil_iff.mpr
  intro y member
  have := least y member
  simpa using by omega

/-- With nothing strictly between, the elements up to a tick are those up to an earlier instant and
those of the tick. -/
theorem upToTick_split {l : List (Int × α)} (ordered : TimeOrdered l) {lo t : Int} (lt : lo < t)
    (gap : ∀ x ∈ l, x.1 ≤ lo ∨ t ≤ x.1) : upToTick l t = upToTick l lo ++ atTick l t := by
  rw [upToTick, upToTick, atTick, ← List.map_append]
  congr 1
  induction l with
  | nil => rfl
  | cons x l ih =>
    obtain ⟨least, ordered⟩ := List.pairwise_cons.mp ordered
    have rest := ih ordered fun y member => gap y (List.mem_cons_of_mem _ member)
    rcases gap x List.mem_cons_self with early | late
    · have other : ¬ x.1 = t := by omega
      simp [early, early.trans lt.le, other, rest]
    · have none := @filter_le_eq_nil _ _ _ least lo (by omega)
      have out : ¬ x.1 ≤ lo := by omega
      have same : x.1 ≤ t ↔ x.1 = t := by omega
      simp only [List.filter_cons, out, same, none, rest, decide_false, Bool.false_eq_true,
        if_false, List.nil_append]

/-- Every group with its tick and the state before it. -/
def scan (apply : σ → α → σ) (s : σ) : List (Int × List α) → List (σ × Int × List α)
  | [] => []
  | (g, group) :: rest => (s, g, group) :: scan apply (group.foldl apply s) rest

/-- The state after the elements up to a tick. -/
def stateAfter (apply : σ → α → σ) (s : σ) (l : List (Int × α)) (t : Int) : σ :=
  (upToTick l t).foldl apply s

theorem scan_map (apply : σ → α → σ) (s : σ) {l : List (Int × α)} (ordered : TimeOrdered l)
    (ts : List Int) (lo : Int) (sorted : (lo :: ts).Pairwise (· < ·))
    (rest : ∀ x ∈ l, x.1 ≤ lo ∨ x.1 ∈ ts) :
    scan apply (stateAfter apply s l lo) (ts.map fun g => (g, atTick l g)) =
      ts.map fun g => (stateAfter apply s l (g - 1), g, atTick l g) := by
  induction ts generalizing lo with
  | nil => rfl
  | cons t ts ih =>
    obtain ⟨later, sorted⟩ := List.pairwise_cons.mp sorted
    have lt := later t List.mem_cons_self
    have after : ∀ x ∈ l, x.1 ≤ lo ∨ t ≤ x.1 := by
      intro x member
      refine (rest x member).imp_right ?_
      intro listed
      rcases List.mem_cons.mp listed with same | listed
      · exact same.ge
      · exact ((List.pairwise_cons.mp sorted).1 _ listed).le
    have before : upToTick l (t - 1) = upToTick l lo := by
      apply upToTick_congr
      intro x member
      have := after x member
      omega
    have next : (atTick l t).foldl apply (stateAfter apply s l lo) = stateAfter apply s l t := by
      rw [stateAfter, stateAfter, upToTick_split ordered lt after, List.foldl_append]
    rw [List.map_cons, List.map_cons, scan, next, ih t sorted]
    · rw [stateAfter, stateAfter, before]
    · intro x member
      rcases rest x member with early | listed
      · exact .inl (early.trans lt.le)
      · exact (List.mem_cons.mp listed).imp_left le_of_eq

/-- A state applied to an ordered stream group by group is, before the group of a tick, the state
of the elements before the tick. -/
theorem scan_eq (apply : σ → α → σ) (s : σ) {l : List (Int × α)} (ordered : TimeOrdered l) :
    scan apply s (groups l) =
      (ticks l).map fun g => (stateAfter apply s l (g - 1), g, atTick l g) := by
  cases first : ticks l with
  | nil =>
    rw [groups_eq ordered, first]
    rfl
  | cons t ts =>
    have sorted := first ▸ ticks_sorted ordered
    have listed : ∀ x ∈ l, x.1 ∈ t :: ts := fun x member =>
      first ▸ (mem_ticks ordered).mpr ⟨x.2, member⟩
    have none : upToTick l (t - 1) = [] := by
      rw [upToTick, List.filter_eq_nil_iff.mpr, List.map_nil]
      intro x member
      have : t ≤ x.1 := by
        rcases List.mem_cons.mp (listed x member) with same | later
        · exact same.ge
        · exact ((List.pairwise_cons.mp sorted).1 _ later).le
      simpa using by omega
    have start : stateAfter apply s l (t - 1) = s := by
      rw [stateAfter, none]
      rfl
    rw [groups_eq ordered, first]
    conv => lhs; rw [← start]
    apply scan_map apply s ordered (t :: ts) (t - 1)
    · refine List.pairwise_cons.mpr ⟨?_, sorted⟩
      intro u member
      rcases List.mem_cons.mp member with rfl | later
      · omega
      · have := (List.pairwise_cons.mp sorted).1 u later
        omega
    · exact fun x member => .inr (listed x member)

/-- The state after a group is that of the elements up to its tick. -/
theorem stateAfter_tick (apply : σ → α → σ) (s : σ) {l : List (Int × α)} (ordered : TimeOrdered l)
    (g : Int) : (atTick l g).foldl apply (stateAfter apply s l (g - 1)) = stateAfter apply s l g := by
  rw [stateAfter, stateAfter, upToTick_split ordered (show g - 1 < g by omega), List.foldl_append]
  intro x _
  omega

/-- Between two instants with no tick in between the state stays. -/
theorem stateAfter_congr (apply : σ → α → σ) (s : σ) {l : List (Int × α)} {t u : Int}
    (same : ∀ x ∈ l, x.1 ≤ t ↔ x.1 ≤ u) : stateAfter apply s l t = stateAfter apply s l u := by
  rw [stateAfter, stateAfter, upToTick_congr same]

/-! ## Cutting a stream at an instant -/

theorem TimeOrdered.filter {l : List (Int × α)} (ordered : TimeOrdered l) (p : Int × α → Bool) :
    TimeOrdered (l.filter p) :=
  List.Pairwise.filter p ordered

/-- An ordered stream is its elements up to an instant and then those after it. -/
theorem TimeOrdered.split {l : List (Int × α)} (ordered : TimeOrdered l) (lo : Int) :
    (l.filter fun x => decide (x.1 ≤ lo)) ++ (l.filter fun x => decide (lo < x.1)) = l := by
  induction l with
  | nil => rfl
  | cons x l ih =>
    obtain ⟨least, ordered⟩ := List.pairwise_cons.mp ordered
    by_cases early : x.1 ≤ lo
    · simp [early, ih ordered]
    · have none := @filter_le_eq_nil _ _ _ least lo (by omega)
      have all : l.filter (fun y => decide (lo < y.1)) = l := by
        apply List.filter_eq_self.mpr
        intro y member
        have := least y member
        simpa using by omega
      simp [early, none, all, not_le.mp early]

/-- Later states are reached from the state at a cut through the elements after it. -/
theorem stateAfter_split (apply : σ → α → σ) (s : σ) {l : List (Int × α)} (ordered : TimeOrdered l)
    {lo t : Int} (le : lo ≤ t) :
    stateAfter apply (stateAfter apply s l lo) (l.filter fun x => decide (lo < x.1)) t =
      stateAfter apply s l t := by
  have cut : upToTick l t = upToTick l lo ++ upToTick (l.filter fun x => decide (lo < x.1)) t := by
    have whole := congrArg (fun l => upToTick l t) (ordered.split lo)
    have early : (l.filter fun x => decide (x.1 ≤ lo)).filter (fun x => decide (x.1 ≤ t)) =
        l.filter fun x => decide (x.1 ≤ lo) := by
      apply List.filter_eq_self.mpr
      intro x member
      have := of_decide_eq_true (List.mem_filter.mp member).2
      simpa using this.trans le
    simp only [upToTick, List.filter_append, List.map_append] at whole ⊢
    rw [← whole, early]
  rw [stateAfter, stateAfter, stateAfter, cut, List.foldl_append]

theorem atTick_filter {l : List (Int × α)} {lo g : Int} (lt : lo < g) :
    atTick (l.filter fun x => decide (lo < x.1)) g = atTick l g := by
  rw [atTick, atTick, List.filter_filter]
  congr 1
  apply List.filter_congr
  intro x _
  rw [Bool.eq_iff_iff]
  simp only [Bool.and_eq_true, decide_eq_true_eq]
  omega

theorem mem_atTick {l : List (Int × α)} {g : Int} {a : α} : a ∈ atTick l g ↔ (g, a) ∈ l := by
  simp [atTick]

end RWave.Misc
