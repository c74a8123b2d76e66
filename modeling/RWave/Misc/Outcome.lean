import Mathlib

/-!
# Outcomes of computations that may fail

What a sequence of computations in `Except` answers, in terms of its parts.
-/

namespace RWave.Misc

variable {ε α β : Type}

/-- A sequence succeeds if its first part does, and what follows does with that part's result. -/
theorem bind_eq_ok {x : Except ε α} {f : α → Except ε β} {b : β} :
    (x >>= f) = .ok b ↔ ∃ a, x = .ok a ∧ f a = .ok b := by
  cases x with
  | error e => simp [bind, Except.bind]
  | ok a => simp [bind, Except.bind]

/-- What follows a check is reached just when the check passes. -/
theorem check_eq_ok {x : Except ε Unit} {f : Unit → Except ε β} {b : β} :
    (x >>= f) = .ok b ↔ x = .ok () ∧ f () = .ok b := by
  rw [bind_eq_ok]
  constructor
  · rintro ⟨⟨⟩, passed, rest⟩
    exact ⟨passed, rest⟩
  · rintro ⟨passed, rest⟩
    exact ⟨(), passed, rest⟩

/-- A computation for every member of a list succeeds if each of them does. -/
theorem mapM_eq_ok {f : α → Except ε β} {as : List α} {bs : List β} :
    as.mapM f = .ok bs ↔ List.Forall₂ (fun a b => f a = .ok b) as bs := by
  induction as generalizing bs with
  | nil =>
    rw [List.mapM_nil, List.forall₂_nil_left_iff]
    exact ⟨fun h => (Except.ok.inj h).symm, fun h => congrArg Except.ok h.symm⟩
  | cons a as ih =>
    rw [List.mapM_cons, List.forall₂_cons_left_iff]
    simp only [bind_eq_ok, ih]
    constructor
    · intro ⟨b, first, bs', others, result⟩
      exact ⟨b, bs', first, others, (Except.ok.inj result).symm⟩
    · intro ⟨b, bs', first, others, result⟩
      exact ⟨b, first, bs', others, congrArg Except.ok result.symm⟩

theorem ok_of_mem_of_mapM {f : α → Except ε β} {as : List α} {bs : List β}
    (each : as.mapM f = .ok bs) {a : α} (member : a ∈ as) : ∃ b ∈ bs, f a = .ok b := by
  have pairs := mapM_eq_ok.mp each
  clear each
  induction pairs with
  | nil => cases member
  | cons first _ ih =>
    cases List.mem_cons.mp member with
    | inl head => exact ⟨_, List.mem_cons_self, head ▸ first⟩
    | inr tail =>
      obtain ⟨b, among, done⟩ := ih tail
      exact ⟨b, List.mem_cons_of_mem _ among, done⟩

/-- Two computations for every member of a list, one list after the other, are one for each member. -/
theorem mapM_mapM_eq_ok {γ : Type} {f : α → Except ε β} {g : β → Except ε γ} {as : List α}
    {cs : List γ} :
    (∃ bs, as.mapM f = .ok bs ∧ bs.mapM g = .ok cs) ↔ as.mapM (fun a => f a >>= g) = .ok cs := by
  simp only [mapM_eq_ok, bind_eq_ok]
  constructor
  · rintro ⟨bs, first, second⟩
    induction first generalizing cs with
    | nil =>
      cases second
      exact .nil
    | cons done _ ih =>
      cases second with
      | cons done' rest => exact .cons ⟨_, done, done'⟩ (ih rest)
  · intro both
    induction both with
    | nil => exact ⟨[], .nil, .nil⟩
    | cons done _ ih =>
      obtain ⟨b, first, second⟩ := done
      obtain ⟨bs, firsts, seconds⟩ := ih
      exact ⟨b :: bs, .cons first firsts, .cons second seconds⟩

/-- A computation that succeeds for every member of a list succeeds for the list. -/
theorem exists_mapM_eq_ok {f : α → Except ε β} {as : List α} (each : ∀ a ∈ as, ∃ b, f a = .ok b) :
    ∃ bs, as.mapM f = .ok bs := by
  induction as with
  | nil => exact ⟨[], mapM_eq_ok.mpr .nil⟩
  | cons a as ih =>
    obtain ⟨b, first⟩ := each a List.mem_cons_self
    obtain ⟨bs, others⟩ := ih fun a member => each a (List.mem_cons_of_mem _ member)
    exact ⟨b :: bs, mapM_eq_ok.mpr (.cons first (mapM_eq_ok.mp others))⟩

/-- What holds of some result holds of what one of the members gave. -/
theorem exists_mem_of_mapM {f : α → Except ε β} {as : List α} {bs : List β}
    (each : as.mapM f = .ok bs) (q : β → Prop) :
    (∃ b ∈ bs, q b) ↔ ∃ a ∈ as, ∃ b, f a = .ok b ∧ q b := by
  have pairs := mapM_eq_ok.mp each
  clear each
  induction pairs with
  | nil => simp
  | cons first _ ih => simp [ih, first]

end RWave.Misc
