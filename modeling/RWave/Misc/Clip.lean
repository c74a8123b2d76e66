import Mathlib

/-!
# Collecting up to a limit

A collector that keeps at most `limit` rows and stops at the first one over it, beside the same
collector without a limit. `Clipped` relates what the two have collected: as long as the limit is
not passed they have the same rows, and from then on the rows kept are the first `limit` of what the
other goes on to collect.
-/

namespace RWave.Misc

variable {α : Type} {limit total : Nat} {rows all all' : List α} {truncated : Bool}

/-- `rows`, `total` and `truncated` are what a limit leaves of `all`. -/
structure Clipped (limit : Nat) (rows : List α) (total : Nat) (truncated : Bool) (all : List α) :
    Prop where
  below : truncated = false → rows = all ∧ total = all.length ∧ all.length ≤ limit
  above : truncated = true → rows = all.take limit ∧ total = limit + 1 ∧ limit < all.length

namespace Clipped

theorem nil (limit : Nat) : Clipped limit ([] : List α) 0 false [] where
  below _ := ⟨rfl, rfl, Nat.zero_le _⟩
  above absurdity := nomatch absurdity

/-- What is collected after the limit was passed does not change the clipped rows. -/
theorem grow (h : Clipped limit rows total true all) (longer : all <+: all') :
    Clipped limit rows total true all' := by
  obtain ⟨first, count, passed⟩ := h.above rfl
  obtain ⟨more, rfl⟩ := longer
  refine ⟨by simp, fun _ => ⟨?_, count, ?_⟩⟩
  · rw [first, List.take_append_of_le_length passed.le]
  · rw [List.length_append]
    omega

/-- A row within the limit is kept. -/
theorem keep (h : Clipped limit rows total false all) (room : rows.length < limit) (row : α) :
    Clipped limit (rows ++ [row]) (total + 1) false (all ++ [row]) := by
  obtain ⟨rfl, rfl, -⟩ := h.below rfl
  refine ⟨fun _ => ⟨rfl, by simp, ?_⟩, by simp⟩
  rw [List.length_append, List.length_singleton]
  omega

/-- A row over the limit is counted and dropped. -/
theorem drop (h : Clipped limit rows total false all) (full : limit ≤ rows.length) (row : α) :
    Clipped limit rows (total + 1) true (all ++ [row]) := by
  obtain ⟨rfl, rfl, fits⟩ := h.below rfl
  have length : rows.length = limit := by omega
  refine ⟨by simp, fun _ => ⟨?_, by omega, ?_⟩⟩
  · rw [← length, List.take_left]
  · rw [List.length_append, List.length_singleton]
    omega

/-- What a limit does, once everything is collected. -/
theorem result (h : Clipped limit rows total truncated all) :
    rows = all.take limit ∧ (truncated = true ↔ limit < all.length) ∧
      total = min all.length (limit + 1) := by
  cases truncated with
  | false =>
    obtain ⟨rfl, rfl, fits⟩ := h.below rfl
    refine ⟨(List.take_of_length_le fits).symm, by simp [fits], by omega⟩
  | true =>
    obtain ⟨first, count, passed⟩ := h.above rfl
    exact ⟨first, by simp [passed], by omega⟩

end Clipped

end RWave.Misc
