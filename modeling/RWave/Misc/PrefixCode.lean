import Mathlib

/-!
# Numbers and records off the front of a text

A prefix code writes numbers so that each can be read back off the front of whatever follows it. A
record is a number and a payload whose form the number tells. A loop that reads records as long as a
number can be read off the rest consumes a list of written records one by one (`readRecords_write`).
-/

namespace RWave.Misc

/-- A code for numbers below a bound. -/
structure PrefixCode (β : Type) where
  bound : Nat
  write : Nat → List β
  read : List β → Option (Nat × List β)
  read_write : ∀ n < bound, ∀ rest, read (write n ++ rest) = some (n, rest)
  read_nil : read [] = none

namespace PrefixCode

variable {α β σ : Type} (code : PrefixCode β)

theorem write_ne_nil {n : Nat} (small : n < code.bound) : code.write n ≠ [] := by
  intro empty
  have back := code.read_write n small []
  rw [empty, List.nil_append, code.read_nil] at back
  cases back

/-- Reads records off the front and hands them to `push`, until no number is there any more. A
number whose payload is missing is a failure. -/
def readRecords (payload : Nat → List β → Option (α × List β)) (push : σ → α → σ) :
    Nat → σ → List β → Option σ
  | 0, state, _ => some state
  | fuel + 1, state, text =>
    match code.read text with
    | none => some state
    | some (n, rest) =>
      match payload n rest with
      | none => none
      | some (a, rest) => readRecords payload push fuel (push state a) rest

/-- A way to write the elements of `γ` as records that a payload reader undoes. -/
structure Record (payload : Nat → List β → Option (α × List β)) (γ : Type) where
  head : γ → Nat
  body : γ → List β
  value : γ → α
  ok : γ → Prop
  head_lt : ∀ g, ok g → head g < code.bound
  payload_body : ∀ g, ok g → ∀ rest, payload (head g) (body g ++ rest) = some (value g, rest)

variable {code} {γ : Type} {payload : Nat → List β → Option (α × List β)}

/-- A written record. -/
def Record.write (record : code.Record payload γ) (g : γ) : List β :=
  code.write (record.head g) ++ record.body g

/-- Reading consumes written records in order. A symbol of fuel for each symbol of the text is
enough. -/
theorem readRecords_write (record : code.Record payload γ) (push : σ → α → σ) {records : List γ}
    (ok : ∀ g ∈ records, record.ok g) {fuel : Nat}
    (enough : (records.flatMap record.write).length ≤ fuel) (state : σ) :
    code.readRecords payload push fuel state (records.flatMap record.write) =
      some (records.foldl (fun state g => push state (record.value g)) state) := by
  induction records generalizing fuel state with
  | nil =>
    cases fuel with
    | zero => rfl
    | succ fuel => rw [List.flatMap_nil, readRecords, code.read_nil]; rfl
  | cons g records ih =>
    have here := ok g (by simp)
    have head := record.head_lt g here
    have later : ∀ h ∈ records, record.ok h := fun h member => ok h (List.mem_cons_of_mem _ member)
    have positive := List.length_pos_iff.mpr (code.write_ne_nil head)
    rw [List.flatMap_cons, List.length_append, Record.write, List.length_append] at enough
    obtain ⟨fuel, rfl⟩ : ∃ f, fuel = f + 1 := Nat.exists_eq_succ_of_ne_zero (by omega)
    rw [List.flatMap_cons, Record.write, List.append_assoc, readRecords,
      code.read_write _ head]
    simp only [record.payload_body g here]
    rw [ih later (by omega), List.foldl_cons]

end PrefixCode

end RWave.Misc
