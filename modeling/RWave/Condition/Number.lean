import RWave.Condition
import RWave.Misc.Numeral

/-!
# The numbers of conditions

`BigUint` holds a natural number as limbs: `toNat`. Reading digits gives the number they denote, in
normal form, and two numbers in normal form are the same limbs if they are the same number, so
comparing limbs compares numbers.
-/

namespace RWave.Condition.BigUint

open RWave.Misc

/-- The base of the limbs. -/
abbrev limbBase : Nat := 2 ^ 32

/-- The number limbs hold. -/
def limbsNat (limbs : List UInt32) : Nat := Nat.ofDigits limbBase (limbs.map UInt32.toNat)

def toNat (n : BigUint) : Nat := limbsNat n.limbs

/-- No zero limb on top. -/
def Normal (n : BigUint) : Prop := n.limbs.getLast? ≠ some 0

@[simp] theorem limbsNat_nil : limbsNat [] = 0 := rfl

theorem limbsNat_cons (limb : UInt32) (rest : List UInt32) :
    limbsNat (limb :: rest) = limb.toNat + limbBase * limbsNat rest := by
  rw [limbsNat, List.map_cons, Nat.ofDigits_cons, limbsNat]

/-- The low half of a word. -/
theorem toNat_low (v : UInt64) : ((v &&& 0xFFFFFFFF).toUInt32).toNat = v.toNat % limbBase := by
  rw [UInt64.toNat_toUInt32, UInt64.toNat_and]
  exact (congrArg (· % 2 ^ 32) (Nat.and_two_pow_sub_one_eq_mod v.toNat 32)).trans (Nat.mod_mod _ _)

/-- The high half of a word. -/
theorem toNat_high (v : UInt64) : (v >>> 32).toNat = v.toNat / limbBase := by
  rw [UInt64.toNat_shiftRight, Nat.shiftRight_eq_div_pow]
  rfl

theorem limbsNat_carryLimbs (carry : UInt64) : limbsNat (carryLimbs carry) = carry.toNat := by
  fun_induction carryLimbs carry with
  | case1 => rfl
  | case2 carry nonzero ih =>
    rw [limbsNat_cons, ih, toNat_low, toNat_high, Nat.mod_add_div]

/-- One step of the loop does not overflow. -/
theorem toNat_step (limb mul : UInt32) (carry : UInt64) (small : carry.toNat < limbBase) :
    (limb.toUInt64 * mul.toUInt64 + carry).toNat = limb.toNat * mul.toNat + carry.toNat := by
  have limbBound : limb.toNat ≤ limbBase - 1 := Nat.le_sub_one_of_lt limb.toNat_lt
  have mulBound : mul.toNat ≤ limbBase - 1 := Nat.le_sub_one_of_lt mul.toNat_lt
  have product : limb.toNat * mul.toNat ≤ (limbBase - 1) * (limbBase - 1) :=
    Nat.mul_le_mul limbBound mulBound
  have room : (limbBase - 1) * (limbBase - 1) + limbBase ≤ 2 ^ 64 := by decide
  rw [UInt64.toNat_add, UInt64.toNat_mul, UInt32.toNat_toUInt64, UInt32.toNat_toUInt64,
    Nat.mod_eq_of_lt (a := _ * _) (by omega), Nat.mod_eq_of_lt (by omega)]

theorem limbsNat_mulSmallAddLimbs (mul : UInt32) (limbs : List UInt32) (carry : UInt64)
    (small : carry.toNat < limbBase) :
    limbsNat (mulSmallAddLimbs mul limbs carry) = limbsNat limbs * mul.toNat + carry.toNat := by
  induction limbs generalizing carry with
  | nil => simp [mulSmallAddLimbs, limbsNat_carryLimbs]
  | cons limb rest ih =>
    have step := toNat_step limb mul carry small
    have high : ((limb.toUInt64 * mul.toUInt64 + carry) >>> 32).toNat < limbBase := by
      rw [toNat_high]
      exact Nat.div_lt_of_lt_mul (UInt64.toNat_lt _)
    rw [mulSmallAddLimbs, limbsNat_cons, ih _ high, toNat_low, toNat_high, limbsNat_cons]
    calc _ = (limb.toUInt64 * mul.toUInt64 + carry).toNat
          + limbBase * (limbsNat rest * mul.toNat) := by
            rw [mul_add, add_left_comm, Nat.mod_add_div, add_comm]
      _ = _ := by rw [step]; ring

@[simp] theorem toNat_mulSmallAdd (n : BigUint) (mul add : UInt32) :
    (n.mulSmallAdd mul add).toNat = n.toNat * mul.toNat + add.toNat := by
  rw [mulSmallAdd, toNat, limbsNat_mulSmallAddLimbs, UInt32.toNat_toUInt64, toNat]
  rw [UInt32.toNat_toUInt64]
  exact add.toNat_lt

@[simp] theorem toNat_normalize (n : BigUint) : n.normalize.toNat = n.toNat := by
  have parts : n.limbs = (n.limbs.reverse.dropWhile (· == 0)).reverse ++
      (n.limbs.reverse.takeWhile (· == 0)).reverse := by
    rw [← List.reverse_append, List.takeWhile_append_dropWhile, List.reverse_reverse]
  rw [toNat, toNat, normalize, parts, limbsNat, limbsNat, List.map_append]
  rw [Numeral.ofDigits_append_zeros, ← parts]
  intro d member
  obtain ⟨limb, taken, rfl⟩ := List.mem_map.mp member
  have zero := List.mem_takeWhile_imp (List.mem_reverse.mp taken)
  rw [eq_of_beq zero]
  rfl

theorem normal_normalize (n : BigUint) : n.normalize.Normal := by
  rw [Normal, normalize, List.getLast?_reverse]
  intro top
  have := List.head?_dropWhile_not (· == (0 : UInt32)) n.limbs.reverse
  simp [top] at this

/-- Numbers in normal form are compared by their limbs. -/
theorem toNat_injective {m n : BigUint} (normal : m.Normal) (normal' : n.Normal)
    (same : m.toNat = n.toNat) : m = n := by
  have top (n : BigUint) (normal : n.Normal) : (n.limbs.map UInt32.toNat).getLast? ≠ some 0 := by
    rw [List.getLast?_map]
    intro zero
    obtain ⟨limb, last, limbZero⟩ := Option.map_eq_some_iff.mp zero
    exact normal (last.trans (congrArg some (UInt32.toNat_inj.mp limbZero)))
  have below (n : BigUint) : ∀ d ∈ n.limbs.map UInt32.toNat, d < limbBase := by
    intro d member
    obtain ⟨limb, -, rfl⟩ := List.mem_map.mp member
    exact limb.toNat_lt
  have limbs := Numeral.ofDigits_injective (by norm_num) (below m) (below n) (top m normal)
    (top n normal') same
  cases m
  cases n
  exact congrArg BigUint.mk (List.map_injective_iff.mpr (fun _ _ => UInt32.toNat_inj.mp) limbs)

/-- The loop over the digits computes the number they denote. -/
theorem toNat_foldl (base : UInt32) (value : UInt8 → UInt32) (bytes : List UInt8) (n : BigUint) :
    (bytes.foldl (fun n b => n.mulSmallAdd base (value b)) n).toNat =
      (bytes.map fun b => (value b).toNat).foldl (fun n d => n * base.toNat + d) n.toNat := by
  induction bytes generalizing n with
  | nil => rfl
  | cons b rest ih => rw [List.foldl_cons, ih, toNat_mulSmallAdd, List.map_cons, List.foldl_cons]

/-- Digits are read as a number just when there are some and they are digits of the base; the
number is the one they denote, in normal form. -/
theorem ofDigits_eq_some {isDigit : UInt8 → Bool} {value : UInt8 → UInt32} {base : UInt32}
    {s : String} {n : BigUint} :
    ofDigits isDigit value base s = some n ↔
      Str.bytes s ≠ [] ∧ (∀ b ∈ Str.bytes s, isDigit b) ∧ n.Normal ∧
        n.toNat = Numeral.value base.toNat ((Str.bytes s).map fun b => (value b).toNat) := by
  have read := toNat_foldl base value (Str.bytes s) zero
  rw [ofDigits]
  split
  · rename_i bad
    simp only [Bool.or_eq_true, List.isEmpty_iff, Bool.not_eq_true', ← Bool.not_eq_true,
      List.all_eq_true] at bad
    constructor
    · intro absurdity
      cases absurdity
    · rintro ⟨nonempty, all, -⟩
      exact absurd (bad.resolve_left nonempty) (by simpa using all)
  · rename_i good
    simp only [Bool.or_eq_true, List.isEmpty_iff, Bool.not_eq_true', ← Bool.not_eq_true,
      List.all_eq_true, not_or, not_not] at good
    constructor
    · rintro ⟨⟩
      refine ⟨good.1, good.2, normal_normalize _, ?_⟩
      rw [toNat_normalize, read]
      rfl
    · rintro ⟨-, -, normal, number⟩
      refine congrArg some (toNat_injective (normal_normalize _) normal ?_)
      rw [toNat_normalize, read, number]
      rfl

theorem normal_of_ofDigits {isDigit : UInt8 → Bool} {value : UInt8 → UInt32} {base : UInt32}
    {s : String} {n : BigUint} (read : ofDigits isDigit value base s = some n) : n.Normal :=
  (ofDigits_eq_some.mp read).2.2.1

theorem exists_ofDigits {isDigit : UInt8 → Bool} {value : UInt8 → UInt32} {base : UInt32}
    {s : String} (nonempty : Str.bytes s ≠ []) (all : ∀ b ∈ Str.bytes s, isDigit b) :
    ∃ n, ofDigits isDigit value base s = some n := by
  rw [ofDigits, if_neg (by simpa [nonempty] using all)]
  exact ⟨_, rfl⟩

end RWave.Condition.BigUint
