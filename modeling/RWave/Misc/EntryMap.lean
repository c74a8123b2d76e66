import Mathlib

/-!
# Maps filled entry by entry

A map that a pass over some entries fills, where an entry changes the value at its own key and
nothing else. What the map has at a key in the end is the fold of the entries with this key
(`fillMap_apply`). Two ways to combine the entries of a key: keep the first one (`keepFirst`), or
keep a value only while it is the only one (`keepOnly`).
-/

namespace RWave.Misc

variable {α β κ : Type} [DecidableEq κ]

/-- The value at a key takes up one more entry. -/
def insertWith (combine : Option β → α → β) (m : κ → Option β) (k : κ) (a : α) : κ → Option β :=
  Function.update m k (some (combine (m k) a))

/-- A pass over entries of which some are kept. -/
def fillMap (combine : Option β → α → β) (key : α → κ) (keep : α → Bool) (entries : List α)
    (m : κ → Option β) : κ → Option β :=
  entries.foldl (fun m a => if keep a then insertWith combine m (key a) a else m) m

theorem fillMap_apply (combine : Option β → α → β) (key : α → κ) (keep : α → Bool)
    (entries : List α) (m : κ → Option β) (k : κ) :
    fillMap combine key keep entries m k =
      (entries.filter fun a => keep a && key a == k).foldl (fun slot a => some (combine slot a))
        (m k) := by
  induction entries generalizing m with
  | nil => rfl
  | cons a entries ih =>
    rw [fillMap, List.foldl_cons, ← fillMap, ih, List.filter_cons]
    by_cases kept : keep a = true
    · by_cases here : key a = k
      · simp [kept, here, insertWith]
      · simp [kept, here, insertWith, Function.update_of_ne (Ne.symm here)]
    · simp [kept]

/-- `or_insert`. -/
def keepFirst (slot : Option α) (a : α) : α := slot.getD a

theorem foldl_keepFirst (l : List α) (slot : Option α) :
    l.foldl (fun slot a => some (keepFirst slot a)) slot = slot.or l.head? := by
  induction l generalizing slot with
  | nil => simp
  | cons a l ih =>
    rw [List.foldl_cons, ih]
    cases slot <;> rfl

variable [DecidableEq α]

/-- `and_modify` and `or_insert`: a second value empties the slot for good. -/
def keepOnly (slot : Option (Option α)) (a : α) : Option α :=
  match slot with
  | some old => if old ≠ some a then none else old
  | none => some a

/-- A slot has a value in the end if there were values and all of them were this one. -/
theorem foldl_keepOnly {l : List α} {a : α} :
    l.foldl (fun slot a => some (keepOnly slot a)) none = some (some a) ↔
      l ≠ [] ∧ ∀ b ∈ l, b = a := by
  have loop (l : List α) (old : Option α) :
      l.foldl (fun slot a => some (keepOnly slot a)) (some old) = some (some a) ↔
        old = some a ∧ ∀ b ∈ l, b = a := by
    induction l generalizing old with
    | nil => simp
    | cons b l ih =>
      rw [List.foldl_cons, keepOnly, ih, List.forall_mem_cons]
      by_cases same : old = some b
      · rw [if_neg (not_not.mpr same), same, Option.some_inj]
        tauto
      · rw [if_pos same]
        constructor
        · rintro ⟨⟨⟩, -⟩
        · rintro ⟨own, rfl, -⟩
          exact absurd own same
  cases l with
  | nil => simp
  | cons b l =>
    rw [List.foldl_cons, keepOnly, loop, List.forall_mem_cons, Option.some_inj]
    simp

end RWave.Misc
