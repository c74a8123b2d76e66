import Mathlib.Data.List.Basic

/-!
# Keys by their distances

A list of keyed elements in which each key is written as its distance to the key before. Adding the
distances up again, as a reader does that goes through the list once, gives the keys back, also when
the sum is kept in a machine word and starts at an offset.
-/

namespace RWave.Misc

variable {α σ : Type}

/-- Each key as its distance to the key before. -/
def deltas (prev : Nat) : List (Nat × α) → List (Nat × α)
  | [] => []
  | (i, a) :: l => (i - prev, a) :: deltas i l

/-- The key that the next distance is counted from. -/
def lastKey (prev : Nat) (l : List (Nat × α)) : Nat := (l.getLast?.map Prod.fst).getD prev

theorem lastKey_cons (prev : Nat) (k : Nat × α) (l : List (Nat × α)) :
    lastKey prev (k :: l) = lastKey k.1 l := by
  unfold lastKey
  cases l with
  | nil => rfl
  | cons k' l => rw [List.getLast?_cons_cons]; simp [List.getLast?_cons]

theorem lastKey_concat (prev : Nat) (l : List (Nat × α)) (k : Nat × α) :
    lastKey prev (l ++ [k]) = k.1 := by
  simp [lastKey]

theorem deltas_append (prev : Nat) (l m : List (Nat × α)) :
    deltas prev (l ++ m) = deltas prev l ++ deltas (lastKey prev l) m := by
  induction l generalizing prev with
  | nil => rfl
  | cons k l ih => rw [List.cons_append, deltas, deltas, ih, lastKey_cons, List.cons_append]

theorem map_snd_deltas (prev : Nat) (l : List (Nat × α)) :
    (deltas prev l).map Prod.snd = l.map Prod.snd := by
  induction l generalizing prev with
  | nil => rfl
  | cons k l ih => rw [deltas, List.map_cons, List.map_cons, ih]

theorem mem_deltas {prev bound : Nat} {l : List (Nat × α)} (below : ∀ k ∈ l, k.1 < bound)
    {d : Nat × α} (member : d ∈ deltas prev l) : d.1 < bound ∧ ∃ k ∈ l, k.2 = d.2 := by
  induction l generalizing prev with
  | nil => cases member
  | cons k l ih =>
    rcases List.mem_cons.mp member with rfl | later
    · have here := below k List.mem_cons_self
      exact ⟨by dsimp only; omega, k, List.mem_cons_self, rfl⟩
    · obtain ⟨small, k', inside, same⟩ := ih (fun k' inside => below k' (.tail _ inside)) later
      exact ⟨small, k', .tail _ inside, same⟩

/-- A reader that adds up the distances below `wrap` comes past the keys, shifted by the offset it
starts from. -/
theorem foldl_deltas (push : σ → Nat × α → σ) {wrap offset prev : Nat} {l : List (Nat × α)}
    (ordered : (prev :: l.map Prod.fst).Pairwise (· ≤ ·)) (below : ∀ k ∈ l, offset + k.1 < wrap)
    (state : σ) :
    (deltas prev l).foldl
        (fun (s : Nat × σ) d => ((s.1 + d.1) % wrap, push s.2 ((s.1 + d.1) % wrap, d.2)))
        (offset + prev, state) =
      (offset + lastKey prev l, (l.map fun k => (offset + k.1, k.2)).foldl push state) := by
  induction l generalizing prev state with
  | nil => rfl
  | cons k l ih =>
    obtain ⟨first, rest⟩ := List.pairwise_cons.mp ordered
    have least : prev ≤ k.1 := first k.1 List.mem_cons_self
    have sum : (offset + prev + (k.1 - prev)) % wrap = offset + k.1 := by
      rw [Nat.add_assoc, Nat.add_sub_cancel' least]
      exact Nat.mod_eq_of_lt (below k List.mem_cons_self)
    rw [deltas, List.foldl_cons, lastKey_cons, List.map_cons, List.foldl_cons]
    dsimp only
    rw [sum]
    exact ih rest (fun k' inside => below k' (.tail _ inside)) _

end RWave.Misc
