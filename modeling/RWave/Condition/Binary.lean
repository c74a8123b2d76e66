import RWave.Condition.RoundTrip

/-!
# Binary targets either way

A target `b0101` is a number and is compared as one; `b?101` is a pattern and is compared bit by
bit. Where all bits are given the two comparisons are the same, for both operators: a number is
looked for at the positions of a vector wide enough for both sides.
-/

namespace RWave.Condition

open RWave.Misc

variable {v : String} {w : Nat} {bits : List Bit}

/-- A pattern that gives every bit asks for all bits of the signal. -/
theorem caresUnknown_render (fits : v.length ≤ w) (nonempty : v ≠ "") :
    CaresUnknown v (render bits) w ↔ HasUnknownBit v := by
  have wide : 1 ≤ w := by
    have : 0 < v.length := by
      rw [← String.length_toList]
      exact List.length_pos_of_ne_nil (by simpa using nonempty)
    omega
  have short : ¬ w < (readBits v).length := by
    rw [length_readBits]
    omega
  have vector : (∃ b ∈ Bits.fit w (readBits v), b.isUnknown) ↔ HasUnknownBit v :=
    (Bits.unknown_fit wide).trans (or_iff_right short)
  rw [← vector]
  constructor
  · rintro ⟨k, inside, -, unknown⟩
    rw [bitOfValue, if_neg (by omega), Bits.bitAt,
      List.getD_eq_getElem _ _ (by simpa using inside)] at unknown
    exact ⟨_, List.mem_reverse.mp (List.getElem_mem _), unknown⟩
  · rintro ⟨b, member, unknown⟩
    obtain ⟨k, inside, found⟩ := List.mem_iff_getElem.mp (List.mem_reverse.mpr member)
    have low : k < w := by simpa using inside
    refine ⟨k, low, by simp [bitOfPattern_render], ?_⟩
    rw [bitOfValue, if_neg (by omega), Bits.bitAt, List.getD_eq_getElem _ _ inside, found]
    exact unknown

/-- The bits of a known value, as a vector of any width it fits into has them. -/
theorem bitOfValue_known (fits : v.length ≤ w) (known : ¬ HasUnknownBit v) (k : Nat) :
    bitOfValue v w k = Bits.bitAt (readBits v) k := by
  have all : ∀ b ∈ readBits v, b.isUnknown = false := by simpa [HasUnknownBit] using known
  have short : (readBits v).length ≤ w := by rwa [length_readBits]
  rw [bitOfValue]
  by_cases above : w ≤ k
  · rw [if_pos above, Bits.bitAt_of_le (by omega) all]
  · rw [if_neg above, Bits.bitAt_fit (by omega), if_neg (by omega)]

/-- A value has the bits given just when none of its own is unknown and it is the same number. -/
theorem matches_known (fits : v.length ≤ w) (nonempty : v ≠ "")
    (known : ∀ b ∈ bits, b.isUnknown = false) :
    Matches v (render bits) w ↔
      ¬ HasUnknownBit v ∧ Bits.toNat (readBits v) = Bits.toNat bits := by
  have length : (render bits).length = bits.length := by
    rw [← String.length_toList, toList_render, List.length_map]
  have matches_iff : Matches v (render bits) w ↔
      ∀ k < max w bits.length, bitOfValue v w k = Bits.bitAt bits k := by
    simp only [Matches, length, bitOfPattern_render, Option.some_inj, forall_eq']
  rw [matches_iff]
  by_cases unknown : HasUnknownBit v
  · -- The unknown bit is asked for, and it is none of those given.
    refine iff_of_false ?_ (by simp [unknown])
    intro same
    have asked : CaresUnknown v (render bits) w :=
      (caresUnknown_render fits nonempty).mpr unknown
    obtain ⟨k, inside, -, bit⟩ := asked
    rw [same k (lt_max_of_lt_left inside), Bits.bitAt] at bit
    rcases lt_or_ge k bits.length with low | past
    · rw [List.getD_eq_getElem _ _ (by simpa using low),
        known _ (List.mem_reverse.mp (List.getElem_mem _))] at bit
      cases bit
    · rw [← Bits.bitAt, Bits.bitAt_of_le past known] at bit
      cases bit
  · have all : ∀ b ∈ readBits v, b.isUnknown = false := by simpa [HasUnknownBit] using unknown
    have short : (readBits v).length ≤ max w bits.length := by
      rw [length_readBits]
      exact le_max_of_le_left fits
    rw [and_iff_right unknown, ← Bits.bitAt_eq_iff short (le_max_right w _) all known]
    simp only [bitOfValue_known fits unknown]

/-- The bits a string of the digits `0` and `1` gives. -/
theorem digits_eq_render {d : String} (digits : ∀ c ∈ d.toList, c = '0' ∨ c = '1') :
    d = render (readBits d) ∧ ∀ b ∈ readBits d, b.isUnknown = false := by
  refine ⟨?_, ?_⟩
  · rw [render, readBits, List.map_map, ← String.toList_inj, String.toList_ofList]
    refine ((List.map_congr_left ?_).trans (List.map_id _)).symm
    intro c member
    rcases digits c member with rfl | rfl <;> rfl
  · intro b member
    obtain ⟨c, inside, rfl⟩ := List.mem_map.mp member
    rcases digits c inside with rfl | rfl <;> rfl

/-- A target with every bit given is compared as a number just as it would be as a pattern. The
recorded value is any ASCII text, in particular one of the nine states. -/
theorem binaryTarget_eq_pattern (host : Host) (lower : host.LowersAscii) (d : String)
    (nonempty : d ≠ "") (digits : ∀ c ∈ d.toList, c = '0' ∨ c = '1')
    (accepted : Str.len d ≤ maxSignalWidth) :
    ∃ target, parseTargetValue host ("b" ++ d) = .ok target ∧ target.int ≠ none ∧
      ∀ v raw w, v ≠ "" → Str.IsAscii v → v.length ≤ w →
        valueMatches (some v) raw target w = (patternCompare v d w).equal ∧
        (!hasUnknown (some v) && !valueMatches (some v) raw target w) =
          (!(patternCompare v d w).caredUnknown && !(patternCompare v d w).equal) ∧
        ∀ op, conditionMatch (some v) (some raw) op target w =
          conditionMatch (some v) (some raw) op ⟨d, none⟩ w := by
  obtain ⟨text, known⟩ := digits_eq_render digits
  generalize readBits d = bits at text known
  subst text
  rw [len_render] at accepted
  have given : bits ≠ [] := by
    rintro rfl
    exact nonempty rfl
  obtain ⟨n, parsed, normal, number⟩ := parse_known lower given accepted known
  refine ⟨_, parsed, by simp, ?_⟩
  intro v raw w recorded ascii fits
  have pattern := isPattern_render given
  have clean := isCleanBinary_iff.trans (and_iff_right recorded)
  have equal : valueMatches (some v) raw ⟨"b" ++ render bits, some n⟩ w =
      (patternCompare v (render bits) w).equal := by
    rw [Bool.eq_iff_iff, patternCompare_equal ascii pattern, matches_known fits recorded known,
      valueMatches, Bool.and_eq_true, clean, beq_iff_eq, normalize4state_eq ascii,
      fromBinary_render (by simpa [readBits] using recorded), number]
    refine and_congr_right fun unknown => ?_
    have all : ∀ b ∈ readBits v, b.isUnknown = false := by simpa [HasUnknownBit] using unknown
    exact ⟨fun h => h.2.2.symm, fun h => ⟨all, normal, h.symm⟩⟩
  have unknown : hasUnknown (some v) = (patternCompare v (render bits) w).caredUnknown := by
    rw [Bool.eq_iff_iff, patternCompare_caredUnknown ascii pattern, hasUnknown_iff,
      caresUnknown_render fits recorded]
  refine ⟨equal, by rw [equal, unknown], ?_⟩
  intro op
  cases op with
  | eq => exact equal
  | eqEq => exact equal
  | ne =>
    rw [@conditionMatch_pattern_ne v raw w ⟨render bits, none⟩ rfl, ← equal, ← unknown]
    simp only [conditionMatch]
    cases hasUnknown (some v) with
    | true => rfl
    | false => rfl

/-- Leading zeros, a short value and weak bits. -/
theorem binaryTarget_eq_pattern_weak :
    ∃ target, parseTargetValue Model.MockBackend.host ("b" ++ "000101") = .ok target ∧
      conditionMatch (some "HL1") (some "HL1") .eq target 4 =
        conditionMatch (some "HL1") (some "HL1") .eq ⟨"000101", none⟩ 4 := by
  obtain ⟨target, parsed, -, same⟩ := binaryTarget_eq_pattern Model.MockBackend.host
    (fun _ _ => rfl) "000101" (by decide) (by simp) (by decide)
  exact ⟨target, parsed, (same "HL1" "HL1" 4 (by decide) (by simp [Str.IsAscii])
    (by decide)).2.2 .eq⟩

end RWave.Condition
