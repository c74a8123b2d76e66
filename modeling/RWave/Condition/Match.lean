import RWave.Condition.Number
import RWave.Condition.Pattern

/-!
# Matching a target

A target the parser lets through is a number in normal form or a bit pattern. Of `=` and `!=` at
most one holds of a recorded value; neither does where an unknown bit leaves the answer open.
-/

namespace RWave.Condition

open RWave.Misc

/-- What the parser makes: a number in normal form, or a pattern. -/
def Target.WellFormed (target : Target) : Prop :=
  match target.int with
  | some n => n.Normal
  | none => IsPattern target.raw

theorem isPattern_of_isMaskBits {s : String} (mask : isMaskBits s = true) : IsPattern s := by
  simp only [isMaskBits, Bool.and_eq_true, Bool.not_eq_true', List.isEmpty_eq_false_iff,
    List.all_eq_true, List.contains_iff_mem] at mask
  have ascii : Str.IsAscii s := by
    apply Str.ascii_of_bytes
    intro b member
    have all : ∀ b ∈ "01xz?".toList.map Char.toUInt8, b.toNat < 128 := by decide +kernel
    exact all b (mask.2 b member)
  refine ⟨?_, ?_⟩
  · rintro rfl
    exact mask.1 rfl
  · intro c member
    have byte : c.toUInt8 ∈ Str.bytes s := by
      rw [Str.bytes_of_ascii ascii]
      exact List.mem_map_of_mem member
    have char : c.toUInt8 ∈ "01xz?".toList.map Char.toUInt8 → c ∈ patternChars := by
      apply Str.ascii_induction _ (ascii c member)
      decide
    exact char (mask.2 _ byte)

theorem parseBinaryBody_wellFormed {body text : String} {target : Target}
    (parsed : parseBinaryBody body text = .ok target) : target.WellFormed := by
  rw [parseBinaryBody] at parsed
  split at parsed
  · cases parsed
  split at parsed
  · cases parsed
  split at parsed
  · rename_i n read
    cases parsed
    exact BigUint.normal_of_ofDigits read
  · split at parsed
    · rename_i mask
      cases parsed
      exact isPattern_of_isMaskBits mask
    · cases parsed

theorem parseBareTarget_wellFormed {raw text : String} {target : Target} (nonempty : raw ≠ "")
    (parsed : parseBareTarget raw text = .ok target) : target.WellFormed := by
  have bytes := Str.bytes_ne_nil nonempty
  rw [parseBareTarget] at parsed
  split at parsed
  · rename_i digits
    split at parsed
    · cases parsed
    · cases parsed
      obtain ⟨n, read⟩ := @BigUint.exists_ofDigits _ (fun b => (b - 0x30).toUInt32) 10 _ bytes
        (List.all_eq_true.mp digits)
      rw [Target.WellFormed, BigUint.fromDecimal, read]
      exact BigUint.normal_of_ofDigits read
  · split at parsed
    · cases parsed
    · split at parsed
      · rename_i literal
        cases parsed
        apply isPattern_of_isMaskBits
        simp only [isMaskBits, Bool.and_eq_true, Bool.not_eq_true', List.isEmpty_eq_false_iff,
          List.all_eq_true, List.contains_iff_mem] at literal ⊢
        have widen : "01xz".toList.map Char.toUInt8 ⊆ "01xz?".toList.map Char.toUInt8 := by
          decide
        exact ⟨bytes, fun b member => widen (literal b member)⟩
      · split at parsed <;> cases parsed

theorem parseTargetValue_wellFormed {host : Host} {text : String} {target : Target}
    (parsed : parseTargetValue host text = .ok target) : target.WellFormed := by
  rw [parseTargetValue] at parsed
  split at parsed
  · cases parsed
  rename_i nonempty
  split at parsed
  · cases parsed
  split at parsed
  · cases parsed
  split at parsed
  · split at parsed
    · cases parsed
    split at parsed
    · cases parsed
    split at parsed
    · rename_i n read
      cases parsed
      exact BigUint.normal_of_ofDigits read
    · cases parsed
  · split at parsed
    · exact parseBinaryBody_wellFormed parsed
    · split at parsed
      · exact parseBinaryBody_wellFormed parsed
      · split at parsed
        · cases parsed
        · exact parseBareTarget_wellFormed nonempty parsed

/-! ## The two operators -/

theorem isUnknown_readBit (c : Char) :
    (readBit c).isUnknown = !"01hl".toList.contains c.toLower := by
  rw [readBit]
  split <;> simp_all [Bit.isUnknown]

theorem hasUnknown_iff {v : String} : hasUnknown (some v) = true ↔ HasUnknownBit v := by
  simp only [hasUnknown, HasUnknownBit, readBits, List.any_eq_true, List.mem_map,
    exists_exists_and_eq_and, isUnknown_readBit]

theorem isCleanBinary_iff {v : String} :
    isCleanBinary v = true ↔ v ≠ "" ∧ ¬ HasUnknownBit v := by
  rw [← hasUnknown_iff, isCleanBinary, hasUnknown]
  simp [List.all_eq_not_any_not]

variable {v raw : String} {w : Nat} {target : Target}

/-- A number is compared with values that have no unknown bit. -/
theorem conditionMatch_number {n : BigUint} (number : target.int = some n) (nonempty : v ≠ "")
    {op : Op} (equality : op ≠ .ne) :
    conditionMatch (some v) (some raw) op target w = true ↔
      ¬ HasUnknownBit v ∧ BigUint.fromBinary (normalize4state v) = some n := by
  have : conditionMatch (some v) (some raw) op target w = valueMatches (some v) raw target w := by
    cases op with
    | eq => rfl
    | eqEq => rfl
    | ne => exact absurd rfl equality
  rw [this, valueMatches, number, Bool.and_eq_true, isCleanBinary_iff, beq_iff_eq]
  simp [nonempty]

theorem conditionMatch_number_ne {n : BigUint} (number : target.int = some n) (nonempty : v ≠ "") :
    conditionMatch (some v) (some raw) .ne target w = true ↔
      ¬ HasUnknownBit v ∧ BigUint.fromBinary (normalize4state v) ≠ some n := by
  have eq := @conditionMatch_number v raw w target n number nonempty .eq (by simp)
  rw [conditionMatch] at eq
  simp only [conditionMatch, number]
  by_cases unknown : HasUnknownBit v
  · simp [hasUnknown_iff.mpr unknown, unknown]
  · have known : hasUnknown (some v) = false := by
      rw [← Bool.not_eq_true, hasUnknown_iff]
      exact unknown
    simp only [known, Bool.false_eq_true, if_false, Bool.not_eq_true', ← Bool.not_eq_true, eq]
    simp [unknown]

theorem conditionMatch_pattern (mask : target.int = none) {op : Op} (equality : op ≠ .ne) :
    conditionMatch (some v) (some raw) op target w = (patternCompare v target.raw w).equal := by
  cases op with
  | eq => simp [conditionMatch, valueMatches, mask]
  | eqEq => simp [conditionMatch, valueMatches, mask]
  | ne => exact absurd rfl equality

theorem conditionMatch_pattern_ne (mask : target.int = none) :
    conditionMatch (some v) (some raw) .ne target w =
      (!(patternCompare v target.raw w).caredUnknown && !(patternCompare v target.raw w).equal) := by
  simp [conditionMatch, mask]

/-- The comparison with a pattern meets its specification, and for any target the parser makes `=`
and `!=` exclude each other. An unknown bit keeps `!=` from holding if a pattern asks for it; it
keeps both from holding of a number, wherever it is. -/
theorem bitPattern_matching (v : String) (w : Nat) (ascii : Str.IsAscii v) :
    (∀ p, IsPattern p →
      ((patternCompare v p w).equal = true ↔ Matches v p w) ∧
      ((patternCompare v p w).caredUnknown = true ↔ CaresUnknown v p w)) ∧
    (v ≠ "" → ∀ host text target, parseTargetValue host text = .ok target → ∀ raw op, op ≠ .ne →
      let holds := conditionMatch (some v) (some raw) op target w = true
      let differs := conditionMatch (some v) (some raw) .ne target w = true
      ¬ (holds ∧ differs) ∧
      (target.int = none →
        (CaresUnknown v target.raw w → ¬ differs) ∧
        (¬ CaresUnknown v target.raw w → (holds ↔ ¬ differs))) ∧
      (target.int ≠ none →
        (HasUnknownBit v → ¬ holds ∧ ¬ differs) ∧
        (¬ HasUnknownBit v → (holds ↔ ¬ differs)))) := by
  refine ⟨?_, ?_⟩
  · intro p pattern
    exact ⟨patternCompare_equal ascii pattern, patternCompare_caredUnknown ascii pattern⟩
  · intro nonempty host text target parsed raw op equality
    have wellFormed := parseTargetValue_wellFormed parsed
    rw [Target.WellFormed] at wellFormed
    cases int : target.int with
    | some n =>
      simp only [conditionMatch_number int nonempty equality, conditionMatch_number_ne int nonempty]
      by_cases unknown : HasUnknownBit v <;>
        by_cases same : BigUint.fromBinary (normalize4state v) = some n <;> simp [unknown, same]
    | none =>
      rw [int] at wellFormed
      simp only [conditionMatch_pattern int equality, conditionMatch_pattern_ne int,
        ← patternCompare_caredUnknown ascii wellFormed]
      obtain ⟨equal, caredUnknown⟩ := patternCompare v target.raw w
      cases equal <;> cases caredUnknown <;> simp

/-- The unknown upper bit of a value, against a pattern that does not ask for it. -/
theorem bitPattern_matching_example :
    (patternCompare "x1" "?1" 2).equal = true ↔ Matches "x1" "?1" 2 :=
  ((bitPattern_matching "x1" 2 (by simp [Str.IsAscii])).1 "?1"
    ⟨by decide, by simp [patternChars]⟩).1

end RWave.Condition
