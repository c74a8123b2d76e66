import Mathlib.Data.List.Basic

/-!
# Lists that meet in one element

Two lists are joined so that an element with which the first ends and the second begins is there
only once. Joining is associative, and both lists can be found again in the result.
-/

namespace RWave.Misc

variable {α : Type} [DecidableEq α]

/-- The second list behind the first, where they may share an element. -/
def overlap (l m : List α) : List α := if l.getLast? = m.head? then l ++ m.tail else l ++ m

@[simp] theorem overlap_nil (l : List α) : overlap l [] = l := by
  unfold overlap
  split <;> exact List.append_nil l

@[simp] theorem nil_overlap (m : List α) : overlap [] m = m := by
  unfold overlap
  split
  next same =>
    cases m with
    | nil => rfl
    | cons a m => cases same
  next => rfl

/-- A list that is only the last element again adds nothing. -/
theorem overlap_last {l : List α} {a : α} (last : l.getLast? = some a) : overlap l [a] = l := by
  rw [overlap, List.head?_cons, if_pos last, List.tail_cons, List.append_nil]

theorem getLast?_overlap {l m : List α} (nonempty : m ≠ []) :
    (overlap l m).getLast? = m.getLast? := by
  unfold overlap
  split
  next same =>
    cases m with
    | nil => exact absurd rfl nonempty
    | cons a m =>
      cases m with
      | nil => rw [List.tail_cons, List.append_nil, same]; rfl
      | cons b m => rw [List.tail_cons, List.getLast?_append_cons, List.getLast?_cons_cons]
  next => exact List.getLast?_append_of_ne_nil _ nonempty

theorem head?_overlap {l m : List α} (nonempty : l ≠ []) : (overlap l m).head? = l.head? := by
  unfold overlap
  split <;> exact List.head?_append_of_ne_nil _ nonempty

theorem overlap_append (l : List α) {m : List α} (nonempty : m ≠ []) (n : List α) :
    overlap l (m ++ n) = overlap l m ++ n := by
  unfold overlap
  rw [List.head?_append_of_ne_nil _ nonempty, List.tail_append_of_ne_nil nonempty]
  split <;> rw [List.append_assoc]

theorem overlap_assoc (l m n : List α) : overlap (overlap l m) n = overlap l (overlap m n) := by
  rcases eq_or_ne m [] with rfl | nonempty
  · rw [overlap_nil, nil_overlap]
  · have last := getLast?_overlap (l := l) nonempty
    have head := head?_overlap (m := n) nonempty
    have tail : (overlap m n).tail = if m.getLast? = n.head? then m.tail ++ n.tail else m.tail ++ n := by
      unfold overlap
      split <;> exact List.tail_append_of_ne_nil nonempty
    rw [overlap, last, overlap.eq_def l (overlap m n), head, tail]
    unfold overlap
    split <;> split <;> simp only [List.append_assoc]

theorem getElem?_overlap_left {l : List α} (m : List α) {i : Nat} (inside : i < l.length) :
    (overlap l m)[i]? = l[i]? := by
  unfold overlap
  split <;> exact List.getElem?_append_left inside

/-- How far the second list's elements are behind their own places. -/
def overlapOffset (l m : List α) : Nat := if l.getLast? = m.head? then l.length - 1 else l.length

theorem getElem?_overlap_right {l m : List α} (nonempty : m ≠ []) (i : Nat) :
    (overlap l m)[overlapOffset l m + i]? = m[i]? := by
  obtain ⟨a, m, rfl⟩ := List.exists_cons_of_ne_nil nonempty
  unfold overlap overlapOffset
  split
  next same =>
    obtain ⟨init, rfl⟩ := List.getLast?_eq_some_iff.mp same
    have place : (init ++ [a]).length - 1 + i = init.length + i := by simp
    rw [List.tail_cons, place, List.append_assoc, List.singleton_append,
      List.getElem?_append_right (Nat.le_add_right ..), Nat.add_sub_cancel_left]
  next =>
    rw [List.getElem?_append_right (Nat.le_add_right ..), Nat.add_sub_cancel_left]

theorem length_overlap {l m : List α} (nonempty : m ≠ []) :
    (overlap l m).length = overlapOffset l m + m.length := by
  obtain ⟨a, m, rfl⟩ := List.exists_cons_of_ne_nil nonempty
  unfold overlap overlapOffset
  split
  next same =>
    obtain ⟨init, rfl⟩ := List.getLast?_eq_some_iff.mp same
    simp only [List.length_append, List.length_cons, List.tail_cons, List.length_nil]
    omega
  next => rw [List.length_append]

theorem length_le_overlap (l m : List α) : l.length ≤ (overlap l m).length := by
  unfold overlap
  split <;> rw [List.length_append] <;> omega

end RWave.Misc
