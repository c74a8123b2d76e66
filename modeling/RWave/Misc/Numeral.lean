import Mathlib

/-!
# Positional numerals

The number a list of digits denotes, the most significant digit first: what a loop that reads the
digits from the left accumulates. Leading zeros change nothing, and a list of least significant
digits first that ends in no zero is determined by its number.
-/

namespace RWave.Misc.Numeral

variable {base : Nat}

/-- The number digits denote, the most significant one first. -/
def value (base : Nat) (digits : List Nat) : Nat := digits.foldl (fun n d => n * base + d) 0

@[simp] theorem value_nil : value base [] = 0 := rfl

theorem foldl_eq (digits : List Nat) (start : Nat) :
    digits.foldl (fun n d => n * base + d) start = start * base ^ digits.length + value base digits := by
  induction digits generalizing start with
  | nil => simp
  | cons d rest ih =>
    rw [value, List.foldl_cons, List.foldl_cons, ih, ih (0 * base + d), List.length_cons, pow_succ]
    ring

theorem value_append (high low : List Nat) :
    value base (high ++ low) = value base high * base ^ low.length + value base low := by
  rw [value, List.foldl_append, foldl_eq low]
  rfl

theorem value_cons (d : Nat) (digits : List Nat) :
    value base (d :: digits) = d * base ^ digits.length + value base digits := by
  rw [value, List.foldl_cons, foldl_eq]
  simp

/-- Digits denote zero when they are zeros, and only then. -/
theorem value_eq_zero (positive : 0 < base) (digits : List Nat) :
    value base digits = 0 ↔ ∀ d ∈ digits, d = 0 := by
  induction digits with
  | nil => simp
  | cons d rest ih =>
    have weight : base ^ rest.length ≠ 0 := (Nat.pow_pos positive).ne'
    rw [value_cons, Nat.add_eq_zero_iff, ih, List.forall_mem_cons, Nat.mul_eq_zero,
      or_iff_left weight]

theorem value_replicate_append (n : Nat) (digits : List Nat) :
    value base (List.replicate n 0 ++ digits) = value base digits := by
  induction n with
  | zero => rfl
  | succ n ih => rw [List.replicate_succ, List.cons_append, value_cons, ih, zero_mul, zero_add]

/-- Leading zeros do not count. -/
theorem value_dropWhile_zero (digits : List Nat) :
    value base (digits.dropWhile (· == 0)) = value base digits := by
  induction digits with
  | nil => rfl
  | cons d rest ih =>
    by_cases zero : d = 0
    · rw [List.dropWhile_cons_of_pos (by simpa using zero), ih, value_cons, zero, zero_mul, zero_add]
    · rw [List.dropWhile_cons_of_neg (by simpa using zero)]

/-- Two lists of least significant digits first that denote one number are equal, if neither ends
in a zero. -/
theorem ofDigits_injective {xs ys : List Nat} (large : 1 < base) (below : ∀ d ∈ xs, d < base)
    (below' : ∀ d ∈ ys, d < base) (top : xs.getLast? ≠ some 0) (top' : ys.getLast? ≠ some 0)
    (same : Nat.ofDigits base xs = Nat.ofDigits base ys) : xs = ys := by
  have digits (l : List Nat) (below : ∀ d ∈ l, d < base) (top : l.getLast? ≠ some 0) :
      Nat.digits base (Nat.ofDigits base l) = l := by
    apply Nat.digits_ofDigits base large l below
    intro nonempty zero
    exact top (by rw [List.getLast?_eq_some_getLast nonempty, zero])
  rw [← digits xs below top, ← digits ys below' top', same]

theorem value_eq_ofDigits (digits : List Nat) :
    value base digits = Nat.ofDigits base digits.reverse := by
  induction digits using List.reverseRecOn with
  | nil => rfl
  | append_singleton high low ih =>
    rw [value_append, ih, List.reverse_append, List.reverse_singleton, List.singleton_append,
      Nat.ofDigits_cons, value_cons]
    simp only [List.length_singleton, List.length_nil, pow_one, pow_zero, value_nil]
    ring

/-- Digits in equal number are determined by the number they denote. -/
theorem value_injective {xs ys : List Nat} (large : 1 < base) (length : xs.length = ys.length)
    (below : ∀ d ∈ xs, d < base) (below' : ∀ d ∈ ys, d < base)
    (same : value base xs = value base ys) : xs = ys := by
  rw [value_eq_ofDigits, value_eq_ofDigits] at same
  apply List.reverse_injective
  exact Nat.ofDigits_inj_of_len_eq large (by simpa using length) (by simpa using below)
    (by simpa using below') same

/-- Zeros past the most significant digit do not count. -/
theorem ofDigits_append_zeros {xs zeros : List Nat} (all : ∀ d ∈ zeros, d = 0) :
    Nat.ofDigits base (xs ++ zeros) = Nat.ofDigits base xs := by
  have same : zeros = List.replicate zeros.length 0 := List.eq_replicate_iff.mpr ⟨rfl, all⟩
  rw [same, Nat.ofDigits_append, Nat.ofDigits_replicate_zero, mul_zero, add_zero]

/-- Digits without a leading zero are the numeral of the number they denote. -/
theorem toDigits_value {d : Nat} {digits : List Nat} (large : 1 < base) (lead : d ≠ 0)
    (below : ∀ e ∈ d :: digits, e < base) :
    Nat.toDigits base (value base (d :: digits)) = (d :: digits).map Nat.digitChar := by
  induction digits using List.reverseRecOn with
  | nil => simp [value_cons, Nat.toDigits_of_lt_base (below d (by simp))]
  | append_singleton digits e ih =>
    have small : e < base := below e (by simp)
    have positive : 0 < value base (d :: digits) := by
      rw [value_cons]
      exact Nat.add_pos_left (Nat.mul_pos (Nat.pos_of_ne_zero lead) (Nat.pow_pos (by omega))) _
    have shifted : value base (d :: (digits ++ [e])) = base * value base (d :: digits) + e := by
      rw [← List.cons_append, value_append, mul_comm]
      simp [value]
    rw [shifted, ← Nat.toDigits_append_toDigits large positive small,
      ih fun e member => below e (by simp at member ⊢; tauto), Nat.toDigits_of_lt_base small]
    simp

end RWave.Misc.Numeral
