import Mathlib.Data.List.Destutter

/-!
# The last of each run

A list read as consecutive runs of elements of one key. `lastOfRuns` keeps the last element of
each run. `lastOfRuns_concat` and `destutter_concat` say what one more element at the end changes,
which is what a program that consumes a stream element by element can be compared with.
-/

namespace RWave.Misc

variable {α κ : Type} [DecidableEq κ]

/-- The last element of every run of elements with one key. -/
def lastOfRuns (key : α → κ) : List α → List α
  | [] => []
  | [a] => [a]
  | a :: b :: l =>
    if key a = key b then lastOfRuns key (b :: l) else a :: lastOfRuns key (b :: l)

variable {key : α → κ}

theorem lastOfRuns_sublist (l : List α) : (lastOfRuns key l).Sublist l := by
  fun_induction lastOfRuns key l with
  | case1 => exact List.Sublist.refl _
  | case2 a => exact List.Sublist.refl _
  | case3 a b l same ih => exact ih.cons a
  | case4 a b l other ih => exact ih.cons_cons a

/-- One more element replaces the last one kept when it goes on with its run, and is one more kept
when it does not. -/
theorem lastOfRuns_concat (l : List α) (c : α) :
    (lastOfRuns key (l ++ [c]) = lastOfRuns key l ++ [c] ∧
      ∀ d, l.getLast? = some d → key d ≠ key c) ∨
    ∃ kept d, lastOfRuns key l = kept ++ [d] ∧ key d = key c ∧
      lastOfRuns key (l ++ [c]) = kept ++ [c] := by
  fun_induction lastOfRuns key l with
  | case1 => exact .inl ⟨rfl, by simp⟩
  | case2 a =>
    by_cases same : key a = key c
    · exact .inr ⟨[], a, rfl, same, by simp [lastOfRuns, same]⟩
    · exact .inl ⟨by simp [lastOfRuns, same], by simpa using same⟩
  | case3 a b l same ih =>
    rw [List.cons_append, List.cons_append, lastOfRuns, if_pos same, ← List.cons_append,
      List.getLast?_cons_cons]
    exact ih
  | case4 a b l other ih =>
    rw [List.cons_append, List.cons_append, lastOfRuns, if_neg other, ← List.cons_append,
      List.getLast?_cons_cons]
    rcases ih with ⟨added, last⟩ | ⟨kept, d, eq, same, replaced⟩
    · exact .inl ⟨congrArg (a :: ·) added, last⟩
    · exact .inr ⟨a :: kept, d, congrArg (a :: ·) eq, same, congrArg (a :: ·) replaced⟩

/-- More elements of a run before one of it are not kept. -/
theorem lastOfRuns_partials (before : List α) {partials : List α} (c : α) (after : List α)
    (same : ∀ p ∈ partials, key p = key c) :
    lastOfRuns key (before ++ (partials ++ c :: after)) = lastOfRuns key (before ++ c :: after) := by
  induction before with
  | nil =>
    induction partials with
    | nil => rfl
    | cons p partials ih =>
      have rest := ih fun q member => same q (List.mem_cons_of_mem _ member)
      refine Eq.trans ?_ rest
      cases partials with
      | nil => exact if_pos (same p List.mem_cons_self)
      | cons q partials =>
        exact if_pos ((same p List.mem_cons_self).trans (same q (by simp)).symm)
  | cons a before ih =>
    cases before with
    | nil =>
      cases partials with
      | nil => rfl
      | cons p partials =>
        simp only [List.nil_append, List.cons_append, lastOfRuns] at ih ⊢
        rw [ih, same p List.mem_cons_self]
    | cons b before =>
      simp only [List.cons_append, lastOfRuns] at ih ⊢
      rw [ih]

/-- One more element survives when it is related to the last one that did. -/
theorem destutter_concat (R : α → α → Prop) [DecidableRel R] (l : List α) (c : α) :
    (l ++ [c]).destutter R =
      match (l.destutter R).getLast? with
      | some last => if R last c then l.destutter R ++ [c] else l.destutter R
      | none => [c] := by
  have run : ∀ (l : List α) (a : α), (l ++ [c]).destutter' R a =
      match (l.destutter' R a).getLast? with
      | some last => if R last c then l.destutter' R a ++ [c] else l.destutter' R a
      | none => [c] := by
    intro l
    induction l with
    | nil => intro a; by_cases h : R a c <;> simp [h]
    | cons b l ih =>
      intro a
      rw [List.cons_append, List.destutter'_cons, List.destutter'_cons]
      by_cases h : R a b
      · rw [if_pos h, if_pos h, ih]
        cases last : (l.destutter' R b).getLast? with
        | none => exact absurd (List.getLast?_eq_none_iff.mp last) (l.destutter'_ne_nil R)
        | some d =>
          have found : (a :: l.destutter' R b).getLast? = some d := by simp [List.getLast?_cons, last]
          simp only [found]
          split <;> rfl
      · rw [if_neg h, if_neg h, ih]
  cases l with
  | nil => rfl
  | cons a l => exact run l a

/-- One more element, put behind the last one kept when it is related to it. -/
def destutterStep (R : α → α → Prop) [DecidableRel R] (kept : List α) (a : α) : List α :=
  match kept.getLast? with
  | some last => if R last a then kept ++ [a] else kept
  | none => [a]

theorem destutterStep_concat (R : α → α → Prop) [DecidableRel R] (kept : List α) (last a : α) :
    destutterStep R (kept ++ [last]) a =
      if R last a then kept ++ [last] ++ [a] else kept ++ [last] := by
  rw [destutterStep, List.getLast?_concat]

theorem mem_destutterStep {R : α → α → Prop} [DecidableRel R] {kept : List α} {a b : α}
    (member : b ∈ destutterStep R kept a) : b ∈ kept ∨ b = a := by
  unfold destutterStep at member
  split at member
  · split at member
    · exact (List.mem_append.mp member).imp id List.mem_singleton.mp
    · exact .inl member
  · exact .inr (List.mem_singleton.mp member)

theorem mem_foldl_destutterStep {R : α → α → Prop} [DecidableRel R] {kept l : List α} {b : α}
    (member : b ∈ l.foldl (destutterStep R) kept) : b ∈ kept ∨ b ∈ l := by
  induction l generalizing kept with
  | nil => exact .inl member
  | cons a l ih =>
    rcases ih member with earlier | later
    · rcases mem_destutterStep earlier with old | rfl
      · exact .inl old
      · exact .inr List.mem_cons_self
    · exact .inr (List.mem_cons_of_mem _ later)

/-- Going through a list element by element. -/
theorem foldl_destutterStep (R : α → α → Prop) [DecidableRel R] (l : List α) :
    l.foldl (destutterStep R) [] = l.destutter R := by
  induction l using List.reverseRecOn with
  | nil => rfl
  | append_singleton l a ih =>
    rw [List.foldl_append, ih, destutter_concat]
    rfl

end RWave.Misc
