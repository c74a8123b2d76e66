import RWave.Misc.PrefixCode

/-!
# Numbers of seven bits a byte

The unsigned numbers of the LEB128 format: seven bits a byte, the lowest first, and the high bit set
in every byte but the last.
-/

namespace RWave.Misc.Leb128

/-- A number as bytes, at most `more` of them before the last. -/
def write : Nat → Nat → List UInt8
  | 0, n => [n.toUInt8]
  | more + 1, n =>
    if n < 128 then [n.toUInt8] else (128 + n % 128).toUInt8 :: write more (n / 128)

/-- The number at the front, and what comes after it. -/
def read : List UInt8 → Option (Nat × List UInt8)
  | [] => none
  | b :: rest =>
    if b.toNat < 128 then some (b.toNat, rest)
    else (read rest).map fun part => (b.toNat % 128 + 128 * part.1, part.2)

theorem read_write {more n : Nat} (small : n < 128 ^ (more + 1)) (rest : List UInt8) :
    read (write more n ++ rest) = some (n, rest) := by
  have last (m : Nat) (least : m < 128) : read ([m.toUInt8] ++ rest) = some (m, rest) := by
    have byte : m.toUInt8.toNat = m := Nat.mod_eq_of_lt (by omega)
    rw [List.singleton_append, read, byte, if_pos least]
  induction more generalizing n with
  | zero => exact last n (by simpa using small)
  | succ more ih =>
    rw [write]
    split
    next least => exact last n least
    next large =>
      have byte : (128 + n % 128).toUInt8.toNat = 128 + n % 128 := Nat.mod_eq_of_lt (by omega)
      have high : n / 128 < 128 ^ (more + 1) := by
        rw [Nat.div_lt_iff_lt_mul (by decide), ← pow_succ]
        exact small
      rw [List.cons_append, read, byte, if_neg (by omega), ih high, Option.map_some]
      have low : (128 + n % 128) % 128 + 128 * (n / 128) = n := by omega
      dsimp only
      rw [low]

theorem length_write (more n : Nat) : (write more n).length ≤ more + 1 := by
  induction more generalizing n with
  | zero => exact le_rfl
  | succ more ih =>
    rw [write]
    split
    · exact Nat.le_add_left 1 _
    · rw [List.length_cons]
      exact Nat.succ_le_succ (ih (n / 128))

/-- The format as a prefix code. -/
def code (more : Nat) : PrefixCode UInt8 where
  bound := 128 ^ (more + 1)
  write := write more
  read := read
  read_write _ small rest := read_write small rest
  read_nil := rfl

end RWave.Misc.Leb128
