import Mathlib.Data.List.Basic

/-!
# Slices of a concatenation

Where the part of one element lies in the concatenation of the parts of all.
-/

namespace RWave.Misc

variable {α β : Type} {f : α → List β} {l : List α}

theorem slice_flatMap {i : Nat} {a : α} (found : l[i]? = some a) :
    ((l.take i).flatMap f).length + (f a).length ≤ (l.flatMap f).length ∧
      ((l.flatMap f).drop ((l.take i).flatMap f).length).take (f a).length = f a := by
  obtain ⟨inside, rfl⟩ := List.getElem?_eq_some_iff.mp found
  have parts : l.flatMap f =
      (l.take i).flatMap f ++ (f l[i] ++ (l.drop (i + 1)).flatMap f) := by
    rw [← List.flatMap_cons, ← List.drop_eq_getElem_cons, ← List.flatMap_append, List.take_append_drop]
  rw [parts, List.drop_left, List.take_left, List.length_append, List.length_append]
  exact ⟨by omega, rfl⟩

/-- Equally long parts. -/
theorem slice_flatMap_equal {n i : Nat} {a : α} (length : ∀ b ∈ l, (f b).length = n)
    (found : l[i]? = some a) :
    i * n + n ≤ (l.flatMap f).length ∧ ((l.flatMap f).drop (i * n)).take n = f a := by
  obtain ⟨inside, -⟩ := List.getElem?_eq_some_iff.mp found
  have before : ((l.take i).flatMap f).length = i * n := by
    have all : (l.take i).map (fun b => (f b).length) = List.replicate i n := by
      refine List.eq_replicate_iff.mpr ⟨?_, fun k member => ?_⟩
      · rw [List.length_map, List.length_take]
        omega
      · obtain ⟨b, early, rfl⟩ := List.mem_map.mp member
        exact length b (List.mem_of_mem_take early)
    rw [List.length_flatMap, all, List.sum_replicate_nat]
  obtain ⟨room, same⟩ := slice_flatMap (f := f) found
  rw [before, length a (List.mem_of_getElem? found)] at room same
  exact ⟨room, same⟩

end RWave.Misc
