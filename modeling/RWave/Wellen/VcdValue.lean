import RWave.Wellen.Value

/-!
# The value of a bit vector in a VCD

`decode_vcd_bit_vec_change` and `expand_special_vector_cases` of the vendored `wellen`'s `vcd.rs`. A
vector is written without the leading bits that its first bit tells, and they are put back before it
is stored. What comes out is a vector of the signal's width with the smallest encoding it fits into
(`vcdBits`).
-/

namespace RWave.Wellen

/-- `VcdBitVecChange`. -/
inductive VcdBitVecChange where
  | singleBit (bit : Bit)
  | multiBit (value : List UInt8)
  deriving DecidableEq, Repr

/-- The code of an ASCII character: `b'c'`. -/
def ascii (c : Char) : UInt8 := c.toNat.toUInt8

/-- `expand_special_vector_cases`. -/
def expandSpecialVectorCases (value : List UInt8) (len : Nat) : Option (List UInt8) :=
  if len ≤ value.length then none
  else
    match value with
    | [] => none
    | first :: _ =>
      if first = ascii '1' ∨ first = ascii '0' then
        some (List.replicate (len - value.length) (ascii '0') ++ value)
      else if first = ascii 'x' ∨ first = ascii 'X' ∨ first = ascii 'z' ∨ first = ascii 'Z' then
        some (List.replicate (len - value.length) first ++ value)
      else none

/-- The bits of a vector without what may stand in front of them. -/
def valueBits (value : List UInt8) : Option (List UInt8) := do
  let first ← value.head?
  let bits := if first = ascii 'b' ∨ first = ascii 'B' then value.tail else value
  -- special detection for pymtl3 which adds an extra `0b` for all bit vectors
  if bits.length ≤ 2 then return bits
  else if bits.take 2 = [ascii '0', ascii 'b'] then return bits.drop 2
  else return bits

/-- `decode_vcd_bit_vec_change`. No result is a panic. -/
def decodeVcdBitVecChange (len : Nat) (value : List UInt8) : Option (VcdBitVecChange × States) :=
  if len = 0 then none
  else if len = 1 then do
    let valueChar :=
      match value.getLast? with
      | none => ascii '0'
      | some c => if c = ascii 'b' then ascii '0' else c
    let bit ← bitCharToNum valueChar
    let states ← States.fromBit bit
    return (.singleBit bit, states)
  else do
    let bits ← valueBits value
    let states ← States.fromAscii bits
    if bits.length = len then return (.multiBit bits, states)
    else
      let expanded ← expandSpecialVectorCases bits len
      return (.multiBit expanded, states)

/-- The bits of a decoded change. -/
def VcdBitVecChange.bits : VcdBitVecChange → Option (List Bit)
  | .singleBit bit => some [bit]
  | .multiBit value => value.mapM bitCharToNum

/-- The bits that a text says a signal of `len` bits has. -/
def vcdBits (len : Nat) (value : List UInt8) : Option (List Bit) :=
  (decodeVcdBitVecChange len value).bind fun change => change.1.bits

/-! ## What is stored -/

theorem bitCharToNum_lt {c : UInt8} {b : Bit} (found : bitCharToNum c = some b) : b.toNat < 9 := by
  unfold bitCharToNum at found
  split at found <;> first | cases found; decide | cases found

theorem mapM_bitCharToNum {value : List UInt8} {bits : List Bit}
    (found : value.mapM bitCharToNum = some bits) :
    bits.length = value.length ∧ States.Valid bits := by
  induction value generalizing bits with
  | nil =>
    cases found
    exact ⟨rfl, by simp [States.Valid]⟩
  | cons c value ih =>
    rw [List.mapM_cons, Option.bind_eq_bind, Option.bind_eq_some_iff] at found
    obtain ⟨b, here, rest⟩ := found
    rw [Option.bind_eq_bind, Option.bind_eq_some_iff] at rest
    obtain ⟨bs, later, whole⟩ := rest
    cases whole
    obtain ⟨length, valid⟩ := ih later
    refine ⟨by rw [List.length_cons, List.length_cons, length], ?_⟩
    intro d member
    rcases List.mem_cons.mp member with rfl | inside
    · exact bitCharToNum_lt here
    · exact valid d inside

theorem fromBits_singleton {b : Bit} {states : States} (found : States.fromBit b = some states) :
    states = States.fromBits [b] := by
  rw [States.fromBits, List.foldl_cons, List.foldl_nil, UInt8.zero_or, States.fromUnion]
  unfold States.fromBit at found
  split at found
  next least =>
    have small : ¬ 4 ≤ b := fun large => absurd (UInt8.le_trans large least) (by decide)
    rw [if_neg small, if_pos least]
    exact (Option.some.inj found).symm
  next notLeast =>
    split at found
    next small =>
      have notLarge : ¬ 4 ≤ b := fun large => absurd (UInt8.le_trans large small) (by decide)
      rw [if_neg notLarge, if_neg notLeast]
      exact (Option.some.inj found).symm
    next large =>
      split at found
      next =>
        have four : 4 ≤ b := by
          rw [UInt8.not_le, UInt8.lt_iff_toNat_lt] at large
          exact UInt8.le_iff_toNat_le.mpr large
        rw [if_pos four]
        exact (Option.some.inj found).symm
      next => cases found

theorem mapM_replicate_append {c : UInt8} {b : Bit} {value : List UInt8} {bits : List Bit}
    (one : bitCharToNum c = some b) (found : value.mapM bitCharToNum = some bits) (n : Nat) :
    (List.replicate n c ++ value).mapM bitCharToNum = some (List.replicate n b ++ bits) := by
  induction n with
  | zero => exact found
  | succ n ih =>
    rw [List.replicate_succ, List.cons_append, List.mapM_cons, one, ih]
    rfl

/-- Putting the leading bits back makes a vector of the full width, and no larger encoding is needed
for it. -/
theorem expandSpecialVectorCases_bits {value expanded : List UInt8} {len : Nat} {bits : List Bit}
    (found : value.mapM bitCharToNum = some bits)
    (expand : expandSpecialVectorCases value len = some expanded) :
    ∃ all, expanded.mapM bitCharToNum = some all ∧ all.length = len ∧
      States.fromBits all = States.fromBits bits := by
  have length := (mapM_bitCharToNum found).1
  unfold expandSpecialVectorCases at expand
  split at expand
  · cases expand
  next shorter =>
    cases value with
    | nil => cases expand
    | cons first rest =>
      have fill {c : UInt8} {b : Bit} (one : bitCharToNum c = some b)
          (known : b = 0 ∨ b ∈ bits) :
          ∃ all, (List.replicate (len - (first :: rest).length) c ++ first :: rest).mapM
              bitCharToNum = some all ∧ all.length = len ∧
            States.fromBits all = States.fromBits bits := by
        refine ⟨_, mapM_replicate_append one found _, ?_, States.fromBits_replicate_append known _⟩
        rw [List.length_append, List.length_replicate, length]
        omega
      simp only at expand
      split at expand
      · rw [← Option.some.inj expand]
        exact fill (b := 0) (by decide) (.inl rfl)
      · split at expand
        · rw [← Option.some.inj expand]
          rw [List.mapM_cons, Option.bind_eq_bind, Option.bind_eq_some_iff] at found
          obtain ⟨b, here, more⟩ := found
          rw [Option.bind_eq_bind, Option.bind_eq_some_iff] at more
          obtain ⟨bs, -, whole⟩ := more
          cases whole
          exact fill here (.inr (by simp))
        · cases expand

/-- A change that is decoded is a vector of the width asked for. -/
theorem decodeVcdBitVecChange_bits {len : Nat} {value : List UInt8} {change : VcdBitVecChange}
    {states : States} (found : decodeVcdBitVecChange len value = some (change, states)) :
    ∃ bits, change.bits = some bits ∧ bits.length = len ∧ States.Valid bits ∧
      states = States.fromBits bits ∧
      (∀ bit, change = .singleBit bit → len = 1) ∧ (∀ text, change = .multiBit text → 1 < len) := by
  unfold decodeVcdBitVecChange at found
  split at found
  · cases found
  next =>
    split at found
    next one =>
      simp only [Option.bind_eq_bind, Option.bind_eq_some_iff] at found
      obtain ⟨bit, digit, own, least, whole⟩ := found
      cases whole
      refine ⟨[bit], rfl, one.symm, ?_, fromBits_singleton least, fun _ _ => one, nofun⟩
      intro b member
      rw [List.mem_singleton.mp member]
      exact bitCharToNum_lt digit
    next more =>
      simp only [Option.bind_eq_bind, Option.bind_eq_some_iff] at found
      obtain ⟨text, -, own, decoded, whole⟩ := found
      obtain ⟨bits, values, rfl⟩ := Option.map_eq_some_iff.mp decoded
      obtain ⟨length, valid⟩ := mapM_bitCharToNum values
      have large : 1 < len := by omega
      split at whole
      next full =>
        cases whole
        exact ⟨bits, values, length.trans full, valid, rfl, nofun, fun _ _ => large⟩
      next =>
        rw [Option.bind_eq_some_iff] at whole
        obtain ⟨expanded, expand, whole⟩ := whole
        cases whole
        obtain ⟨all, texts, full, same⟩ := expandSpecialVectorCases_bits values expand
        exact ⟨all, texts, full, (mapM_bitCharToNum texts).2, same.symm, nofun, fun _ _ => large⟩

end RWave.Wellen
