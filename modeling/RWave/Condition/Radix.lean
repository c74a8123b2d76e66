import RWave.Condition.Number
import RWave.Ascii

/-!
# One number, whatever the base

A numeral denotes a natural number, and `BigUint` is read from it in one of three bases. What is
read is that number in normal form, so numerals of different bases and lengths are read alike
exactly if they denote one number. Multiply-and-add keeps the normal form by itself.
-/

namespace RWave.Condition

open RWave.Misc

/-- The bases of targets. -/
inductive Radix where
  | decimal
  | hexadecimal
  | binary
  deriving DecidableEq, Repr

namespace Radix

def base : Radix → UInt32
  | decimal => 10
  | hexadecimal => 16
  | binary => 2

/-- `from_decimal`, `from_hex`, `from_binary`. -/
def read : Radix → String → Option BigUint
  | decimal => BigUint.fromDecimal
  | hexadecimal => BigUint.fromHex
  | binary => BigUint.fromBinary

/-- The bytes each of them takes for digits. -/
def isDigit : Radix → UInt8 → Bool
  | decimal => BigUint.isDigit
  | hexadecimal => BigUint.isHexDigit
  | binary => fun b => b == 0x30 || b == 0x31

/-- What they are worth. -/
def value : Radix → UInt8 → UInt32
  | hexadecimal => BigUint.hexValue
  | decimal | binary => fun b => (b - 0x30).toUInt32

theorem read_eq (r : Radix) (s : String) : r.read s = BigUint.ofDigits r.isDigit r.value r.base s := by
  cases r <;> rfl

end Radix

/-- What a character is worth as a digit, in either case of the letters. -/
def toDigit (base : Nat) (c : Char) : Option Nat :=
  let d :=
    if '0' ≤ c ∧ c ≤ '9' then c.toNat - '0'.toNat
    else if 'a' ≤ c ∧ c ≤ 'z' then c.toNat - 'a'.toNat + 10
    else if 'A' ≤ c ∧ c ≤ 'Z' then c.toNat - 'A'.toNat + 10
    else base
  if d < base then some d else none

/-- A string of digits of a base denotes a number. -/
def Denotes (base : Nat) (s : String) (n : Nat) : Prop :=
  s ≠ "" ∧ ∃ ds, s.toList.map (toDigit base) = ds.map some ∧ n = Numeral.value base ds

theorem toDigit_ascii {base : Nat} {c : Char} {d : Nat} (digit : toDigit base c = some d) :
    c.toNat < 128 := by
  have bounds : ∀ {lo hi : Char}, hi.toNat < 128 → lo ≤ c ∧ c ≤ hi → c.toNat < 128 := fun small h =>
    lt_of_le_of_lt (Char.le_def.mp h.2) small
  rw [toDigit] at digit
  by_cases decimal : '0' ≤ c ∧ c ≤ '9'
  · exact bounds (by decide) decimal
  by_cases lower : 'a' ≤ c ∧ c ≤ 'z'
  · exact bounds (by decide) lower
  by_cases upper : 'A' ≤ c ∧ c ≤ 'Z'
  · exact bounds (by decide) upper
  simp [if_neg decimal, if_neg lower, if_neg upper] at digit

namespace BigUint

/-! ## The normal form of the limbs -/

theorem carryLimbs_normal (carry : UInt64) : (carryLimbs carry).getLast? ≠ some 0 := by
  fun_induction carryLimbs carry with
  | case1 => simp
  | case2 carry nonzero ih =>
    cases rest : carryLimbs (carry >>> 32) with
    | nil =>
      have high : (carry >>> 32).toNat = 0 := by rw [← limbsNat_carryLimbs, rest]; rfl
      rw [toNat_high] at high
      rw [List.getLast?_singleton, Ne, Option.some_inj, ← UInt32.toNat_inj, toNat_low]
      intro zero
      apply nonzero
      apply UInt64.toNat_inj.mp
      have := Nat.mod_add_div carry.toNat limbBase
      rw [high, zero] at this
      exact this.symm
    | cons limb rest' =>
      rw [List.getLast?_cons_cons, ← rest]
      exact ih

theorem mulSmallAddLimbs_normal {mul : UInt32} (positive : mul ≠ 0) {limbs : List UInt32}
    {carry : UInt64} (small : carry.toNat < limbBase) (normal : limbs.getLast? ≠ some 0) :
    (mulSmallAddLimbs mul limbs carry).getLast? ≠ some 0 := by
  induction limbs generalizing carry with
  | nil => exact carryLimbs_normal carry
  | cons limb rest ih =>
    have high : ((limb.toUInt64 * mul.toUInt64 + carry) >>> 32).toNat < limbBase := by
      rw [toNat_high]
      exact Nat.div_lt_of_lt_mul (UInt64.toNat_lt _)
    have restNormal : rest.getLast? ≠ some 0 := by
      cases rest with
      | nil => simp
      | cons next rest => rwa [List.getLast?_cons_cons] at normal
    rw [mulSmallAddLimbs]
    cases result : mulSmallAddLimbs mul rest ((limb.toUInt64 * mul.toUInt64 + carry) >>> 32) with
    | cons next rest' =>
      rw [List.getLast?_cons_cons, ← result]
      exact ih high restNormal
    | nil =>
      -- Nothing is left above: the limb was the top one, and there is no carry.
      cases rest with
      | cons next rest => simp [mulSmallAddLimbs] at result
      | nil =>
        have value := limbsNat_mulSmallAddLimbs mul [] _ high
        rw [result, limbsNat_nil, zero_mul, zero_add, toNat_high,
          toNat_step limb mul carry small] at value
        have top : 0 < limb.toNat * mul.toNat := by
          refine Nat.mul_pos (Nat.pos_of_ne_zero ?_) (Nat.pos_of_ne_zero ?_)
          · intro zero
            exact normal (congrArg some (UInt32.toNat_inj.mp zero))
          · intro zero
            exact positive (UInt32.toNat_inj.mp zero)
        rw [List.getLast?_singleton, Ne, Option.some_inj, ← UInt32.toNat_inj, toNat_low,
          toNat_step limb mul carry small]
        intro (zero : _ = 0)
        have := Nat.mod_add_div (limb.toNat * mul.toNat + carry.toNat) limbBase
        rw [← value, zero, mul_zero] at this
        omega

/-- Multiply-and-add keeps the normal form. -/
theorem normal_mulSmallAdd {n : BigUint} {mul : UInt32} (positive : mul ≠ 0) (add : UInt32)
    (normal : n.Normal) : (n.mulSmallAdd mul add).Normal := by
  refine mulSmallAddLimbs_normal positive ?_ normal
  rw [UInt32.toNat_toUInt64]
  exact add.toNat_lt

end BigUint

/-! ## Reading numerals -/

namespace Radix

/-- The reader of a base takes its digits, for what they are worth. -/
theorem digit_byte (r : Radix) {c : Char} {d : Nat} (digit : toDigit r.base.toNat c = some d) :
    r.isDigit c.toUInt8 = true ∧ (r.value c.toUInt8).toNat = d := by
  have table : ∀ e ∈ toDigit r.base.toNat c,
      r.isDigit c.toUInt8 = true ∧ (r.value c.toUInt8).toNat = e := by
    cases r
    all_goals
      apply Str.ascii_induction _ (toDigit_ascii digit)
      decide
  exact table d digit

/-- A numeral is read as the number it denotes, in normal form. -/
theorem read_denotes (r : Radix) {s : String} {n : Nat} (denotes : Denotes r.base.toNat s n) :
    ∃ a, r.read s = some a ∧ a.Normal ∧ a.toNat = n := by
  obtain ⟨nonempty, ds, digits, rfl⟩ := denotes
  have digit : ∀ c ∈ s.toList, ∃ d, toDigit r.base.toNat c = some d := by
    intro c member
    have : toDigit r.base.toNat c ∈ ds.map some := digits ▸ List.mem_map_of_mem member
    obtain ⟨d, -, same⟩ := List.mem_map.mp this
    exact ⟨d, same.symm⟩
  have ascii : Str.IsAscii s := fun c member => toDigit_ascii (digit c member).choose_spec
  have bytes := Str.bytes_of_ascii ascii
  have all : ∀ b ∈ Str.bytes s, r.isDigit b = true := by
    intro b member
    rw [bytes] at member
    obtain ⟨c, inside, rfl⟩ := List.mem_map.mp member
    obtain ⟨d, worth⟩ := digit c inside
    exact (r.digit_byte worth).1
  have values : (Str.bytes s).map (fun b => (r.value b).toNat) = ds := by
    apply List.map_injective_iff.mpr (Option.some_injective Nat)
    rw [← digits, bytes, List.map_map, List.map_map]
    refine List.map_congr_left ?_
    intro c member
    obtain ⟨d, worth⟩ := digit c member
    exact (congrArg some (r.digit_byte worth).2).trans worth.symm
  obtain ⟨a, read⟩ := @BigUint.exists_ofDigits _ r.value r.base _ (Str.bytes_ne_nil nonempty) all
  obtain ⟨-, -, normal, number⟩ := BigUint.ofDigits_eq_some.mp read
  exact ⟨a, (r.read_eq s).trans read, normal, number.trans (congrArg _ values)⟩

end Radix

/-- Targets are base-independent: numerals of any bases and lengths are read as the same limbs exactly
if they denote the same number. The limbs hold what multiply-and-add says, without a zero on top. -/
theorem numerals_baseIndependent :
    (∀ (r r' : Radix) (s t : String) (m n : Nat),
      Denotes r.base.toNat s m → Denotes r'.base.toNat t n →
      ∃ a b, r.read s = some a ∧ r'.read t = some b ∧ a.toNat = m ∧ b.toNat = n ∧
        a.Normal ∧ b.Normal ∧ (a = b ↔ m = n)) ∧
    ∀ (a : BigUint) (mul add : UInt32),
      (a.mulSmallAdd mul add).toNat = a.toNat * mul.toNat + add.toNat ∧
      (mul ≠ 0 → a.Normal → (a.mulSmallAdd mul add).Normal) := by
  refine ⟨?_, ?_⟩
  · intro r r' s t m n denotes denotes'
    obtain ⟨a, read, normal, rfl⟩ := r.read_denotes denotes
    obtain ⟨b, read', normal', rfl⟩ := r'.read_denotes denotes'
    refine ⟨a, b, read, read', rfl, rfl, normal, normal', ?_⟩
    exact ⟨congrArg BigUint.toNat, BigUint.toNat_injective normal normal'⟩
  · intro a mul add
    exact ⟨BigUint.toNat_mulSmallAdd a mul add, fun positive => BigUint.normal_mulSmallAdd positive add⟩

/-- `18446744073709551615` and sixteen `f`, with a leading zero. -/
theorem numerals_baseIndependent_wide :
    ∃ a b, Radix.decimal.read "18446744073709551615" = some a ∧
      Radix.hexadecimal.read "0ffffffffffffffff" = some b ∧ a = b := by
  have decimal : Denotes (Radix.base .decimal).toNat "18446744073709551615" (2 ^ 64 - 1) :=
    ⟨by decide, [1, 8, 4, 4, 6, 7, 4, 4, 0, 7, 3, 7, 0, 9, 5, 5, 1, 6, 1, 5], by decide, by decide⟩
  have hexadecimal : Denotes (Radix.base .hexadecimal).toNat "0ffffffffffffffff" (2 ^ 64 - 1) :=
    ⟨by decide, 0 :: List.replicate 16 15, by decide, by decide⟩
  obtain ⟨a, b, read, read', -, -, -, -, same⟩ :=
    numerals_baseIndependent.1 _ _ _ _ _ _ decimal hexadecimal
  exact ⟨a, b, read, read', same.mpr rfl⟩

end RWave.Condition
