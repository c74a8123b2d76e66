import RWave.Misc.StableSort

/-!
# Max-heaps with unspecified ties

What `std::collections::BinaryHeap` documents and no more: `push` adds an element, `pop`
removes a greatest one, `into_iter` visits the elements in arbitrary order. Which of several
greatest elements `pop` takes is left open, and so is the order of `into_iter`. A
`BinaryHeap key` is one way of settling both, so a statement about every `BinaryHeap key` holds
of whatever the standard library does.

`tieHeap` settles them against a chosen set of elements, and is the adversary that shows a
statement about every heap false.
-/

namespace RWave.Misc

variable {α κ : Type} [LinearOrder κ]

/-- A max-heap of elements ordered by `key`. `intoVec` is `into_iter().collect()`. -/
structure BinaryHeap (key : α → κ) where
  Heap : Type
  new : Heap
  push : α → Heap → Heap
  pop : Heap → Option (α × Heap)
  intoVec : Heap → List α
  intoVec_new : intoVec new = []
  intoVec_push : ∀ a h, (intoVec (push a h)).Perm (a :: intoVec h)
  pop_none : ∀ {h}, pop h = none → intoVec h = []
  pop_some : ∀ {h a h'}, pop h = some (a, h') →
    (intoVec h).Perm (a :: intoVec h') ∧ ∀ b ∈ intoVec h, key b ≤ key a

namespace BinaryHeap

variable {key : α → κ} (H : BinaryHeap key)

/-- `BinaryHeap::len`. -/
def len (h : H.Heap) : Nat := (H.intoVec h).length

/-- `BinaryHeap::peek`: the element `pop` would remove. -/
def peek (h : H.Heap) : Option α := (H.pop h).map Prod.fst

/-- The heap after `pop`, whose result is discarded. -/
def popped (h : H.Heap) : H.Heap :=
  match H.pop h with
  | some (_, rest) => rest
  | none => h

@[simp] theorem len_new : H.len H.new = 0 := by simp [len, H.intoVec_new]

@[simp] theorem len_push (a : α) (h : H.Heap) : H.len (H.push a h) = H.len h + 1 := by
  simpa [len] using (H.intoVec_push a h).length_eq

theorem mem_push {a b : α} {h : H.Heap} :
    b ∈ H.intoVec (H.push a h) ↔ b = a ∨ b ∈ H.intoVec h := by
  rw [(H.intoVec_push a h).mem_iff, List.mem_cons]

theorem mem_of_pop {h h' : H.Heap} {a b : α} (popped : H.pop h = some (a, h')) :
    b ∈ H.intoVec h ↔ b = a ∨ b ∈ H.intoVec h' := by
  rw [(H.pop_some popped).1.mem_iff, List.mem_cons]

theorem len_of_pop {h h' : H.Heap} {a : α} (popped : H.pop h = some (a, h')) :
    H.len h = H.len h' + 1 := by
  simpa [len] using (H.pop_some popped).1.length_eq

end BinaryHeap

/-! ## The adversary -/

/-- Take a greatest element out of a list, by its last occurrence. -/
def extractMax (key : α → κ) : List α → Option (α × List α)
  | [] => none
  | a :: l =>
    match extractMax key l with
    | none => some (a, [])
    | some (m, rest) => if key a ≤ key m then some (m, a :: rest) else some (a, m :: rest)

theorem extractMax_none {key : α → κ} {l : List α} (h : extractMax key l = none) : l = [] := by
  cases l with
  | nil => rfl
  | cons a l =>
    simp only [extractMax] at h
    split at h
    · cases h
    · split at h <;> cases h

theorem extractMax_some {key : α → κ} {l : List α} {m : α} {rest : List α}
    (h : extractMax key l = some (m, rest)) :
    l.Perm (m :: rest) ∧ ∀ b ∈ l, key b ≤ key m := by
  induction l generalizing m rest with
  | nil => cases h
  | cons a l ih =>
    simp only [extractMax] at h
    split at h
    next none =>
      cases h
      simp [extractMax_none none]
    next m' rest' found =>
      obtain ⟨perm, greatest⟩ := ih found
      have mem : ∀ b, b ∈ l ↔ b = m' ∨ b ∈ rest' := fun b => by rw [perm.mem_iff, List.mem_cons]
      split at h
      next le =>
        cases h
        refine ⟨(perm.cons a).trans (List.Perm.swap m a rest'), ?_⟩
        simpa using ⟨le, greatest⟩
      next lt =>
        cases h
        refine ⟨perm.cons a, ?_⟩
        have above : key m' ≤ key a := (not_le.mp lt).le
        simpa using fun b hb => (greatest b hb).trans above

/-- Among the greatest elements, the ones outside `fav` are popped first, and `into_iter`
visits `fav` first. -/
def tieHeap (key : α → κ) (fav : α → Bool) : BinaryHeap key where
  Heap := List α
  new := []
  push := List.cons
  pop := extractMax fun a => toLex (key a, !fav a)
  intoVec h := h.filter fav ++ h.filter fun a => !fav a
  intoVec_new := rfl
  intoVec_push a h := by
    refine (List.filter_append_perm fav (a :: h)).trans ?_
    exact (List.filter_append_perm fav h).symm.cons a
  pop_none found := by simp [extractMax_none found]
  pop_some {h a h'} found := by
    obtain ⟨perm, greatest⟩ := extractMax_some found
    refine ⟨?_, fun b hb => ?_⟩
    · refine (List.filter_append_perm fav h).trans (perm.trans ?_)
      exact (List.filter_append_perm fav h').symm.cons a
    · have hb : b ∈ h := (List.filter_append_perm fav h).mem_iff.mp hb
      exact Prod.Lex.monotone_fst _ _ (greatest b hb)

/-- `tieHeap` pops an element of `fav` only when no other greatest element is left. -/
theorem tieHeap_pop_fav {key : α → κ} {fav : α → Bool} {h h' : List α} {a b : α}
    (popped : (tieHeap key fav).pop h = some (a, h')) (favA : fav a = true) (hb : b ∈ h)
    (tie : key b = key a) : fav b = true := by
  have le := (extractMax_some popped).2 b hb
  rw [Prod.Lex.toLex_le_toLex] at le
  rcases le with lt | ⟨-, le⟩
  · exact absurd tie lt.ne
  · simpa [favA, Bool.le_iff_imp] using le

end RWave.Misc
