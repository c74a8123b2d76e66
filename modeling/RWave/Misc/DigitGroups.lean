import RWave.Misc.Numeral

/-!
# Digits in groups

A numeral in base `base` is cut into groups of `size` digits from its least significant end, so that
the first group may be short. A loop that reads the digits from the left and puts out a group
whenever it is full computes the numeral of the same number in base `base ^ size`
(`value_digitGroups`), and so every digit can be read back out of its group (`digitGroups_digit`).
-/

namespace RWave.Misc

open Numeral

variable {base size : Nat}

/-- The digits in groups of `size`. The first argument is the group that is being filled. -/
def digitGroups (base size : Nat) : Nat → List Nat → List Nat
  | _, [] => []
  | pending, d :: digits =>
    if digits.length % size = 0 then
      (pending * base + d) :: digitGroups base size 0 digits
    else digitGroups base size (pending * base + d) digits

/-- How many groups there are, one of them perhaps not full. -/
theorem length_digitGroups (positive : 0 < size) (pending : Nat) (digits : List Nat) :
    (digitGroups base size pending digits).length = (digits.length + (size - 1)) / size := by
  induction digits generalizing pending with
  | nil =>
    rw [digitGroups, List.length_nil, Nat.zero_add]
    exact (Nat.div_eq_of_lt (by omega)).symm
  | cons d digits ih =>
    rw [digitGroups]
    split
    next full =>
      obtain ⟨k, whole⟩ := Nat.dvd_of_mod_eq_zero full
      rw [List.length_cons, ih, List.length_cons, whole]
      have one (n : Nat) (small : n < size) : (size * k + n) / size = k := by
        rw [Nat.mul_add_div positive, Nat.div_eq_of_lt small, Nat.add_zero]
      have place : size * k + 1 + (size - 1) = size * (k + 1) := by
        rw [Nat.mul_succ]
        omega
      rw [one _ (by omega), place, Nat.mul_div_cancel_left _ positive]
    next partly =>
      rw [ih, List.length_cons]
      have below : digits.length % size < size := Nat.mod_lt _ positive
      have cut := Nat.div_add_mod digits.length size
      generalize digits.length / size = k at cut
      have one (n : Nat) (least : size ≤ n) (small : n < 2 * size) : (size * k + n) / size = k + 1 := by
        rw [Nat.mul_add_div positive, Nat.div_eq_of_lt_le (k := 1) (by omega) (by omega)]
      have left : digits.length + (size - 1) = size * k + (digits.length % size + (size - 1)) := by
        omega
      have right : digits.length + 1 + (size - 1) = size * k + (digits.length % size + size) := by
        omega
      rw [left, right, one _ (by omega) (by omega), one _ (by omega) (by omega)]

/-- The room of the group that is being filled when `count` digits are left. -/
def room (size count : Nat) : Nat := (size - count % size) % size

theorem room_succ_of_full {count : Nat} (positive : 0 < size) (full : count % size = 0) :
    room size (count + 1) = size - 1 := by
  obtain ⟨k, rfl⟩ := Nat.dvd_of_mod_eq_zero full
  rw [room, Nat.mul_add_mod]
  rcases Nat.lt_or_ge 1 size with large | small
  · rw [Nat.mod_eq_of_lt large, Nat.mod_eq_of_lt (by omega)]
  · have : size = 1 := by omega
    rw [this]

theorem room_succ_of_partly {count : Nat} (positive : 0 < size) (partly : count % size ≠ 0) :
    room size (count + 1) + 1 = room size count := by
  have below : count % size < size := Nat.mod_lt _ positive
  have wait : (size - count % size) % size = size - count % size := Nat.mod_eq_of_lt (by omega)
  rw [room, room, wait, ← Nat.mod_add_mod]
  generalize count % size = filled at partly below
  by_cases last : filled + 1 = size
  · rw [last, Nat.mod_self, Nat.sub_zero, Nat.mod_self]
    omega
  · rw [Nat.mod_eq_of_lt (by omega : filled + 1 < size), Nat.mod_eq_of_lt (by omega)]
    omega

/-- One more digit fits into the room there is. -/
theorem pending_lt {pending d count : Nat} (digit : d < base)
    (small : pending < base ^ room size (count + 1)) :
    pending * base + d < base ^ (room size (count + 1) + 1) :=
  calc pending * base + d < pending * base + base := by omega
    _ = (pending + 1) * base := by ring
    _ ≤ base ^ room size (count + 1) * base := Nat.mul_le_mul_right _ small
    _ = base ^ (room size (count + 1) + 1) := (pow_succ _ _).symm

/-- Every group is a digit of the larger base. -/
theorem digitGroups_lt (positive : 0 < size) {pending : Nat} {digits : List Nat}
    (below : ∀ d ∈ digits, d < base) (small : pending < base ^ room size digits.length) :
    ∀ g ∈ digitGroups base size pending digits, g < base ^ size := by
  induction digits generalizing pending with
  | nil => simp [digitGroups]
  | cons d digits ih =>
    have digit : d < base := below d (by simp)
    have rest : ∀ e ∈ digits, e < base := fun e member => below e (List.mem_cons_of_mem _ member)
    have grown := pending_lt digit small
    intro g member
    rw [digitGroups] at member
    split at member
    next full =>
      rcases List.mem_cons.mp member with rfl | later
      · rwa [room_succ_of_full positive full, Nat.sub_add_cancel positive] at grown
      · exact ih rest (Nat.pow_pos (by omega)) g later
    next partly =>
      rw [room_succ_of_partly positive partly] at grown
      exact ih rest grown g member

/-- The groups denote the number of the digits behind the pending ones. -/
theorem value_digitGroups_pending (positive : 0 < size) {pending : Nat} {digits : List Nat}
    (small : pending < base ^ room size digits.length) (below : ∀ d ∈ digits, d < base) :
    value (base ^ size) (digitGroups base size pending digits) =
      pending * base ^ digits.length + value base digits := by
  induction digits generalizing pending with
  | nil =>
    have nothing : pending = 0 := by
      rw [room, List.length_nil, Nat.zero_mod, Nat.sub_zero, Nat.mod_self, pow_zero] at small
      omega
    rw [nothing, digitGroups, value_nil, value_nil, Nat.zero_mul]
  | cons d digits ih =>
    have digit : d < base := below d (by simp)
    have rest : ∀ e ∈ digits, e < base := fun e member => below e (List.mem_cons_of_mem _ member)
    rw [digitGroups, value_cons]
    split
    next full =>
      obtain ⟨k, whole⟩ := Nat.dvd_of_mod_eq_zero full
      have count : (digitGroups base size 0 digits).length = k := by
        rw [length_digitGroups positive, whole, Nat.mul_add_div positive, Nat.div_eq_of_lt (by omega),
          Nat.add_zero]
      rw [value_cons, ih (Nat.pow_pos (by omega)) rest, count, ← pow_mul, ← whole,
        List.length_cons, pow_succ]
      ring
    next partly =>
      have grown := pending_lt digit small
      rw [room_succ_of_partly positive partly] at grown
      rw [ih grown rest, List.length_cons, pow_succ]
      ring

/-- Grouping does not change the number. -/
theorem value_digitGroups (positive : 0 < size) {digits : List Nat} (below : ∀ d ∈ digits, d < base)
    (nontrivial : 0 < base) :
    value (base ^ size) (digitGroups base size 0 digits) = value base digits := by
  rw [value_digitGroups_pending positive (Nat.pow_pos nontrivial) below, Nat.zero_mul, Nat.zero_add]

/-! ## One digit -/

theorem value_lt {digits : List Nat} (below : ∀ d ∈ digits, d < base) :
    value base digits < base ^ digits.length := by
  rw [value_eq_ofDigits, ← List.length_reverse]
  cases digits with
  | nil => simp
  | cons d digits =>
    have digit : d < base := below d (by simp)
    rcases Nat.lt_or_ge 1 base with large | small
    · exact Nat.ofDigits_lt_base_pow_length large (fun e member => below e (List.mem_reverse.mp member))
    · have one : base = 1 := by omega
      have zeros : ∀ e ∈ (d :: digits).reverse, e = 0 := fun e member => by
        have := below e (List.mem_reverse.mp member)
        omega
      have same : Nat.ofDigits base ([] ++ (d :: digits).reverse) = Nat.ofDigits base [] :=
        ofDigits_append_zeros zeros
      rw [List.nil_append] at same
      rw [same, one, one_pow]
      exact Nat.one_pos

/-- A digit of a numeral, counted from the least significant one. -/
theorem value_div_mod {digits : List Nat} (below : ∀ d ∈ digits, d < base) {i d : Nat}
    (found : digits.reverse[i]? = some d) : value base digits / base ^ i % base = d := by
  obtain ⟨inside, here⟩ := List.getElem?_eq_some_iff.mp found
  have cut : digits = (digits.reverse.drop (i + 1)).reverse ++ d ::
      (digits.reverse.take i).reverse := by
    have whole := List.take_append_drop i digits.reverse
    rw [List.drop_eq_getElem_cons inside, here] at whole
    have reversed := congrArg List.reverse whole
    rw [List.reverse_reverse, List.reverse_append, List.reverse_cons, List.append_assoc,
      List.singleton_append] at reversed
    exact reversed.symm
  have count : (digits.reverse.take i).reverse.length = i := by
    rw [List.length_reverse, List.length_take]
    omega
  have digit : d < base := below d (List.mem_reverse.mp (List.mem_of_getElem? found))
  have below' : ∀ e ∈ (digits.reverse.take i).reverse, e < base := fun e member =>
    below e (List.mem_reverse.mp (List.mem_of_mem_take (List.mem_reverse.mp member)))
  have small := value_lt below'
  rw [count] at small
  have positive : 0 < base ^ i := Nat.pow_pos (by omega)
  rw [cut, value_append, value_cons, List.length_cons, count, pow_succ]
  generalize value base (digits.reverse.drop (i + 1)).reverse = high
  generalize value base (digits.reverse.take i).reverse = low at small
  have split : high * (base ^ i * base) + (d * base ^ i + low) =
      base ^ i * (base * high + d) + low := by ring
  rw [split, Nat.mul_add_div positive, Nat.div_eq_of_lt small, Nat.add_zero, Nat.mul_add_mod,
    Nat.mod_eq_of_lt digit]

/-- A digit of a number is a digit of the group that has it. -/
theorem group_div_mod (positive : 0 < size) (n i : Nat) :
    n / (base ^ size) ^ (i / size) % base ^ size / base ^ (i % size) % base =
      n / base ^ i % base := by
  have below : i % size < size := Nat.mod_lt _ positive
  have whole : base ^ (i % size) * base ∣ base ^ size := by
    rw [← pow_succ]
    exact pow_dvd_pow base below
  rw [← Nat.mod_mul_right_div_self, Nat.mod_mod_of_dvd _ whole, Nat.mod_mul_right_div_self,
    Nat.div_div_eq_div_mul, ← pow_mul, ← pow_add, Nat.div_add_mod]

/-- Every digit is read back out of its group. -/
theorem digitGroups_digit (positive : 0 < size) {digits : List Nat} (below : ∀ d ∈ digits, d < base)
    {i d : Nat} (found : digits.reverse[i]? = some d) :
    ∃ g, (digitGroups base size 0 digits).reverse[i / size]? = some g ∧
      g / base ^ (i % size) % base = d := by
  obtain ⟨inside, -⟩ := List.getElem?_eq_some_iff.mp found
  have digit : d < base := below d (List.mem_reverse.mp (List.mem_of_getElem? found))
  rw [List.length_reverse] at inside
  have reach : i / size < (digitGroups base size 0 digits).reverse.length := by
    rw [List.length_reverse, length_digitGroups positive, Nat.div_lt_iff_lt_mul positive]
    have := Nat.div_add_mod (digits.length + (size - 1)) size
    have := Nat.mod_lt (digits.length + (size - 1)) positive
    rw [mul_comm]
    omega
  refine ⟨_, List.getElem?_eq_getElem reach, ?_⟩
  have grouped : ∀ g ∈ digitGroups base size 0 digits, g < base ^ size :=
    digitGroups_lt positive below (Nat.pow_pos (by omega : 0 < base))
  rw [← value_div_mod grouped (List.getElem?_eq_getElem reach), group_div_mod positive,
    value_digitGroups positive below (by omega), value_div_mod below found]

/-- The first group is short when the digits do not fill it. -/
theorem digitGroups_head_lt (positive : 0 < size) {digits rest : List Nat} {g : Nat}
    (below : ∀ d ∈ digits, d < base) (partly : digits.length % size ≠ 0)
    (first : digitGroups base size 0 digits = g :: rest) : g < base ^ (digits.length % size) := by
  have nonempty : digits ≠ [] := by
    rintro rfl
    exact partly (Nat.zero_mod size)
  have nontrivial : 0 < base := by
    obtain ⟨d, member⟩ := List.exists_mem_of_ne_nil digits nonempty
    exact Nat.zero_lt_of_lt (below d member)
  have count : (digitGroups base size 0 digits).length = (digits.length + (size - 1)) / size :=
    length_digitGroups positive 0 digits
  rw [first, List.length_cons] at count
  have cut := Nat.div_add_mod digits.length size
  have short := Nat.mod_lt digits.length positive
  have whole : size * rest.length = size * (digits.length / size) := by
    congr 1
    have up : digits.length + (size - 1) =
        size * (digits.length / size) + (digits.length % size - 1 + size) := by omega
    rw [up, Nat.mul_add_div positive, Nat.add_div_right _ positive,
      Nat.div_eq_of_lt (by omega : digits.length % size - 1 < size)] at count
    omega
  have small := value_lt below
  rw [← value_digitGroups positive below nontrivial, first, value_cons, ← pow_mul, whole] at small
  have bound : base ^ digits.length =
      base ^ (size * (digits.length / size)) * base ^ (digits.length % size) := by
    rw [← pow_add, cut]
  rw [bound] at small
  refine Nat.lt_of_mul_lt_mul_left (a := base ^ (size * (digits.length / size))) ?_
  rw [mul_comm _ g]
  omega

/-- The lowest digits of a number. -/
theorem ofDigits_div_pow (base n count : Nat) :
    Nat.ofDigits base ((List.range count).map fun i => n / base ^ i % base) = n % base ^ count := by
  induction count with
  | zero => rw [pow_zero, Nat.mod_one]; rfl
  | succ count ih =>
    rw [List.range_succ, List.map_append, Nat.ofDigits_append, ih, List.length_map,
      List.length_range, Nat.mod_pow_succ]
    simp

end RWave.Misc
