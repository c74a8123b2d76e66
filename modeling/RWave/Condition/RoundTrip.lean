import RWave.Condition.Display
import RWave.Model.Mock

/-!
# Printed values as conditions

Reading a printed value back: `parse_target_value` takes it for what `fmt_val` meant, and the value
satisfies the condition it gives.
-/

namespace RWave.Condition

open RWave.Misc RWave.Format

/-- The characters of printed values. -/
def printedChars : List Char :=
  ['0', '1', '2', '3', '4', '5', '6', '7', '8', '9', 'a', 'b', 'c', 'd', 'e', 'f', 'x', 'z']

theorem plain_of_printed {c : Char} (printed : c ∈ printedChars) :
    c.toNat < 128 ∧ Str.isWhitespace c = false ∧ c.toLower = c := by
  revert c
  simp [printedChars, Str.isWhitespace]

/-- The text of a printed value is neither trimmed nor lowered. -/
theorem lower_trim_printed {host : Host} (lower : host.LowersAscii) {s : String}
    (printed : ∀ c ∈ s.toList, c ∈ printedChars) : host.toLowercase (Str.trim s) = s := by
  have plain (c : Char) (member : c ∈ s.toList) := plain_of_printed (printed c member)
  rw [Str.trim_of_plain fun c member => (plain c member).2.1,
    lower s fun c member => (plain c member).1,
    Str.toAsciiLowercase_of_lower fun c member => (plain c member).2.2]

theorem printed_render (bits : List Bit) : ∀ c ∈ (render bits).toList, c ∈ printedChars := by
  intro c member
  rw [toList_render] at member
  obtain ⟨b, -, rfl⟩ := List.mem_map.mp member
  cases b <;> decide

theorem digitChar_printed {d : Nat} (small : d < 16) : Nat.digitChar d ∈ printedChars := by
  interval_cases d <;> decide

/-! ## The parser on printed values -/

theorem isPattern_render {bits : List Bit} (nonempty : bits ≠ []) : IsPattern (render bits) := by
  refine ⟨?_, ?_⟩
  · intro empty
    have := congrArg String.toList empty
    simp [nonempty] at this
  · intro c member
    rw [toList_render] at member
    obtain ⟨b, -, rfl⟩ := List.mem_map.mp member
    cases b <;> decide

theorem isMaskBits_render {bits : List Bit} (nonempty : bits ≠ []) :
    isMaskBits (render bits) = true := by
  have byte (b : Bit) : bitByte b ∈ "01xz?".toList.map Char.toUInt8 := by
    cases b <;> decide
  simp only [isMaskBits, bytes_render, Bool.and_eq_true, Bool.not_eq_true', List.isEmpty_map,
    List.isEmpty_eq_false_iff, List.all_map, List.all_eq_true, Function.comp_apply,
    List.contains_iff_mem]
  exact ⟨nonempty, fun b _ => byte b⟩

/-- A bit string is read as a number just when none of its bits is unknown. -/
theorem fromBinary_render {bits : List Bit} (nonempty : bits ≠ []) {n : BigUint} :
    BigUint.fromBinary (render bits) = some n ↔
      (∀ b ∈ bits, b.isUnknown = false) ∧ n.Normal ∧ n.toNat = Bits.toNat bits := by
  have digit (b : Bit) : (bitByte b == 0x30 || bitByte b == 0x31) = !b.isUnknown := by
    cases b <;> decide
  rw [BigUint.fromBinary, BigUint.ofDigits_eq_some, bytes_render]
  simp only [ne_eq, List.map_eq_nil_iff, nonempty, not_false_eq_true, true_and, List.forall_mem_map,
    digit, Bool.not_eq_true']
  refine and_congr_right fun known => and_congr_right fun _ => ?_
  have value : (bits.map bitByte).map (fun b => ((b - 0x30).toUInt32).toNat) = bits.map Bit.toNat := by
    rw [List.map_map]
    refine List.map_congr_left fun b member => ?_
    have := known b member
    cases b with
    | zero | one => rfl
    | x | z => cases this
  rw [value]
  rfl

/-- Bits after a `b` are read as they are. -/
theorem parse_binary {host : Host} (lower : host.LowersAscii) {bits : List Bit}
    (narrow : bits.length ≤ maxSignalWidth) :
    parseTargetValue host ("b" ++ render bits) =
      parseBinaryBody (render bits) ("b" ++ render bits) := by
  have text : host.toLowercase (Str.trim ("b" ++ render bits)) = "b" ++ render bits := by
    apply lower_trim_printed lower
    intro c member
    rw [String.toList_append] at member
    rcases List.mem_append.mp member with member | member
    · obtain rfl : c = 'b' := by simpa using member
      decide
    · exact printed_render bits c member
  have short : ¬ Str.len ("b" ++ render bits) > maxValueArgLen := by
    rw [Str.len_append, len_render, show Str.len "b" = 1 from rfl, maxValueArgLen]
    omega
  rw [parseTargetValue]
  simp only [text]
  rw [if_neg (by simp), if_neg short, if_neg (by simp [Str.startsWith]),
    show Str.stripPrefix "0x" ("b" ++ render bits) = none by simp [Str.stripPrefix, Str.startsWith],
    show Str.stripPrefix "0b" ("b" ++ render bits) = none by simp [Str.stripPrefix, Str.startsWith],
    Str.stripPrefix_append]

theorem parse_unknown {host : Host} (lower : host.LowersAscii) {bits : List Bit}
    (narrow : bits.length ≤ maxSignalWidth) (unknown : ∃ b ∈ bits, b.isUnknown) :
    parseTargetValue host ("b" ++ render bits) = .ok ⟨render bits, none⟩ := by
  have nonempty : bits ≠ [] := by
    rintro rfl
    obtain ⟨b, member, -⟩ := unknown
    cases member
  have number : BigUint.fromBinary (render bits) = none := by
    apply Option.eq_none_iff_forall_ne_some.mpr
    intro n read
    obtain ⟨b, member, unknown⟩ := unknown
    have known := ((fromBinary_render nonempty).mp read).1 b member
    rw [unknown] at known
    cases known
  have body : render bits ≠ "" := (isPattern_render nonempty).nonempty
  rw [parse_binary lower narrow]
  simp only [parseBinaryBody, len_render]
  rw [if_neg body, if_neg (by omega), number, if_pos (isMaskBits_render nonempty)]

theorem parse_known {host : Host} (lower : host.LowersAscii) {bits : List Bit} (nonempty : bits ≠ [])
    (narrow : bits.length ≤ maxSignalWidth) (known : ∀ b ∈ bits, b.isUnknown = false) :
    ∃ n, parseTargetValue host ("b" ++ render bits) = .ok ⟨"b" ++ render bits, some n⟩ ∧
      n.Normal ∧ n.toNat = Bits.toNat bits := by
  have digits : ∀ b ∈ Str.bytes (render bits), (b == 0x30 || b == 0x31) = true := by
    rw [bytes_render]
    intro c member
    obtain ⟨b, inside, rfl⟩ := List.mem_map.mp member
    have clean := known b inside
    cases b with
    | zero | one => rfl
    | x | z => cases clean
  have body : render bits ≠ "" := (isPattern_render nonempty).nonempty
  obtain ⟨n, read⟩ := @BigUint.exists_ofDigits _ (fun b => (b - 0x30).toUInt32) 2 _
    (Str.bytes_ne_nil body) digits
  refine ⟨n, ?_, ((fromBinary_render nonempty).mp read).2⟩
  rw [parse_binary lower narrow]
  simp only [parseBinaryBody, len_render]
  rw [if_neg body, if_neg (by omega), show BigUint.fromBinary (render bits) = some n from read]

theorem hexDigit_digitChar {d : Nat} (small : d < 16) :
    BigUint.isHexDigit (Nat.digitChar d).toUInt8 = true ∧
      (BigUint.hexValue (Nat.digitChar d).toUInt8).toNat = d := by
  interval_cases d <;> decide

theorem bytes_hexText {ds : List Nat} (small : ∀ d ∈ ds, d < 16) :
    Str.bytes (.ofList (ds.map Nat.digitChar)) = ds.map fun d => (Nat.digitChar d).toUInt8 := by
  rw [Str.bytes_of_ascii, String.toList_ofList, List.map_map]
  · rfl
  · intro c member
    rw [String.toList_ofList] at member
    obtain ⟨d, inside, rfl⟩ := List.mem_map.mp member
    exact (plain_of_printed (digitChar_printed (small d inside))).1

/-- The digits of hexadecimal text, read back. -/
theorem hexValue_hexText {ds : List Nat} (small : ∀ d ∈ ds, d < 16) :
    (Str.bytes (.ofList (ds.map Nat.digitChar))).map (fun b => (BigUint.hexValue b).toNat) = ds := by
  rw [bytes_hexText small, List.map_map]
  refine (List.map_congr_left fun d member => ?_).trans (List.map_id ds)
  exact (hexDigit_digitChar (small d member)).2

theorem isHexDigit_hexText {ds : List Nat} (small : ∀ d ∈ ds, d < 16) :
    ∀ b ∈ Str.bytes (.ofList (ds.map Nat.digitChar)), BigUint.isHexDigit b = true := by
  intro b member
  rw [bytes_hexText small] at member
  obtain ⟨d, inside, rfl⟩ := List.mem_map.mp member
  exact (hexDigit_digitChar (small d inside)).1

theorem parse_hex {host : Host} (lower : host.LowersAscii) {ds : List Nat} (nonempty : ds ≠ [])
    (small : ∀ d ∈ ds, d < 16) (narrow : ds.length ≤ maxHexValueDigits) :
    ∃ n, parseTargetValue host ("0x" ++ .ofList (ds.map Nat.digitChar)) =
        .ok ⟨"0x" ++ .ofList (ds.map Nat.digitChar), some n⟩ ∧
      n.Normal ∧ n.toNat = Numeral.value 16 ds := by
  have text : host.toLowercase (Str.trim ("0x" ++ .ofList (ds.map Nat.digitChar))) =
      "0x" ++ .ofList (ds.map Nat.digitChar) := by
    apply lower_trim_printed lower
    intro c member
    rw [String.toList_append] at member
    rcases List.mem_append.mp member with member | member
    · rcases (by simpa using member : c = '0' ∨ c = 'x') with rfl | rfl <;> decide
    · rw [String.toList_ofList] at member
      obtain ⟨d, inside, rfl⟩ := List.mem_map.mp member
      exact digitChar_printed (small d inside)
  obtain ⟨n, read⟩ := @BigUint.exists_ofDigits BigUint.isHexDigit BigUint.hexValue 16
    (.ofList (ds.map Nat.digitChar)) (Str.bytes_ne_nil (by simpa using nonempty)) (isHexDigit_hexText small)
  obtain ⟨-, -, normal, number⟩ := BigUint.ofDigits_eq_some.mp read
  refine ⟨n, ?_, normal, ?_⟩
  · have length : Str.len (.ofList (ds.map Nat.digitChar)) = ds.length := by
      rw [Str.len, bytes_hexText small, List.length_map]
    have short : ¬ Str.len ("0x" ++ .ofList (ds.map Nat.digitChar)) > maxValueArgLen := by
      rw [Str.len_append, length, show Str.len "0x" = 2 from rfl]
      have : maxHexValueDigits ≤ maxSignalWidth := by decide
      rw [maxValueArgLen]
      omega
    have body : String.ofList (ds.map Nat.digitChar) ≠ "" := by simpa using nonempty
    rw [parseTargetValue]
    simp only [text]
    rw [if_neg (by simp), if_neg short, if_neg (by simp [Str.startsWith]), Str.stripPrefix_append]
    simp only [length]
    rw [if_neg body, if_neg (by omega), BigUint.fromHex, read]
  · rw [number, hexValue_hexText small]
    rfl

theorem parse_bit {host : Host} (lower : host.LowersAscii) {b : Bit} (known : b.isUnknown = false) :
    ∃ n, parseTargetValue host (render [b]) = .ok ⟨render [b], some n⟩ ∧
      n.Normal ∧ n.toNat = Bits.toNat [b] := by
  have text := lower_trim_printed lower (printed_render [b])
  have digit : BigUint.isDigit (bitByte b) = true ∧ ((bitByte b - 0x30).toUInt32).toNat = b.toNat := by
    cases b with
    | zero | one => decide
    | x | z => cases known
  obtain ⟨n, read⟩ := @BigUint.exists_ofDigits BigUint.isDigit
    (fun b => (b - 0x30).toUInt32) 10 (render [b]) (by simp [bytes_render]) (by simpa [bytes_render] using digit.1)
  obtain ⟨-, -, normal, number⟩ := BigUint.ofDigits_eq_some.mp read
  refine ⟨n, ?_, normal, ?_⟩
  · have bare : parseBareTarget (render [b]) (render [b]) = .ok ⟨render [b], some n⟩ := by
      rw [parseBareTarget, if_pos (by simpa [bytes_render] using digit.1),
        if_neg (by simp [maxDecimalValueDigits]), BigUint.fromDecimal, read]
    rw [parseTargetValue]
    simp only [text]
    cases b with
    | zero | one =>
      rw [if_neg (by decide), if_neg (by rw [len_render]; decide), if_neg (by decide)]
      exact bare
    | x | z => cases known
  · rw [number, bytes_render]
    simpa [Numeral.value, Bits.toNat] using digit.2

/-! ## A value and its own printed form -/

theorem bitOfPattern_render (bits : List Bit) (k : Nat) :
    bitOfPattern (render bits) k = some (Bits.bitAt bits k) := by
  have bit (b : Bit) : readPatternBit b.toChar = some b := by
    cases b <;> rfl
  have read : (render bits).toList.map readPatternBit = bits.map some := by
    rw [toList_render, List.map_map]
    exact List.map_congr_left fun b _ => bit b
  have fill : Bits.fill ((render bits).toList.head?.bind readPatternBit).toList = Bits.fill bits := by
    rw [toList_render]
    cases bits with
    | nil => rfl
    | cons b rest =>
      rw [List.map_cons, List.head?_cons, Option.bind_some, bit]
      rfl
  rw [bitOfPattern, read, fill, Bits.bitAt, ← List.map_reverse]
  by_cases inside : k < bits.length
  · simp [List.getD, inside]
  · rw [List.getD_eq_default _ _ (by simpa using inside),
      List.getD_eq_default _ _ (by simpa using inside)]

theorem matches_render (v : String) (w : Nat) :
    Matches v (render (Bits.fit w (readBits v))) w := by
  intro k inside b bit
  have length : (render (Bits.fit w (readBits v))).length = w := by
    rw [← String.length_toList, toList_render, List.length_map, Bits.length_fit]
  rw [length, max_self] at inside
  rw [bitOfPattern_render, Option.some_inj] at bit
  rw [bitOfValue, if_neg (by omega), bit]

variable {v raw : String} {w : Nat} {target : Target}

theorem length_readBits (v : String) : (readBits v).length = v.length := by
  rw [readBits, List.length_map, String.length_toList]

/-- A vector without unknown bits is one whose recorded value has none and is not too long. -/
theorem known_fit_iff (wide : 1 ≤ w) :
    (∀ b ∈ Bits.fit w (readBits v), b.isUnknown = false) ↔ v.length ≤ w ∧ ¬ HasUnknownBit v := by
  have unknown := not_congr (@Bits.unknown_fit (readBits v) w wide)
  push Not at unknown
  simpa [length_readBits, HasUnknownBit] using unknown

/-- The number of a known value is the number of its vector. -/
theorem conditionMatch_number_iff {n : BigUint} (ascii : Str.IsAscii v) (nonempty : v ≠ "")
    (known : ¬ HasUnknownBit v) (number : target.int = some n) (normal : n.Normal) :
    (∀ op, op ≠ .ne →
      (conditionMatch (some v) (some raw) op target w = true ↔ n.toNat = Bits.toNat (readBits v))) ∧
    (conditionMatch (some v) (some raw) .ne target w = true ↔ n.toNat ≠ Bits.toNat (readBits v)) := by
  have bits : readBits v ≠ [] := by simpa [readBits] using nonempty
  have read : BigUint.fromBinary (normalize4state v) = some n ↔ n.toNat = Bits.toNat (readBits v) := by
    have all : ∀ b ∈ readBits v, b.isUnknown = false := by simpa [HasUnknownBit] using known
    rw [normalize4state_eq ascii, fromBinary_render bits]
    exact ⟨fun h => h.2.2, fun h => ⟨all, normal, h⟩⟩
  refine ⟨?_, ?_⟩
  · intro op equality
    rw [conditionMatch_number number nonempty equality, read]
    exact and_iff_right known
  · rw [conditionMatch_number_ne number nonempty, Ne, read]
    exact and_iff_right known

/-- A printed value reads back as a condition that the value satisfies. -/
theorem printedValue_matches (host : Host) (lower : host.LowersAscii) (v : String) (w : Nat)
    (wide : 1 ≤ w) (narrow : w ≤ 65536) (nonempty : v ≠ "") (ascii : Str.IsAscii v) :
    ∃ target, parseTargetValue host (fmtVal v .bits w) = .ok target ∧
      ∀ raw, (∀ op, op ≠ .ne → conditionMatch (some v) (some raw) op target w = true) ∧
        conditionMatch (some v) (some raw) .ne target w = false := by
  have length : (Bits.fit w (readBits v)).length = w := Bits.length_fit
  -- A target that is the number of the vector, for a vector without unknown bits.
  have numeric (raw : String) (n : BigUint) (normal : n.Normal)
      (known : ∀ b ∈ Bits.fit w (readBits v), b.isUnknown = false)
      (same : n.toNat = Bits.toNat (Bits.fit w (readBits v))) :
      ∀ r, (∀ op, op ≠ .ne → conditionMatch (some v) (some r) op ⟨raw, some n⟩ w = true) ∧
        conditionMatch (some v) (some r) .ne ⟨raw, some n⟩ w = false := by
    intro r
    obtain ⟨fits, clean⟩ := (known_fit_iff wide).mp known
    have all : ∀ b ∈ readBits v, b.isUnknown = false := by simpa [HasUnknownBit] using clean
    rw [Bits.toNat_fit (by rwa [length_readBits]) all] at same
    obtain ⟨eq, ne⟩ := @conditionMatch_number_iff v r w ⟨raw, some n⟩ n ascii nonempty clean rfl
      normal
    refine ⟨fun op equality => (eq op equality).mpr same, ?_⟩
    rw [← Bool.not_eq_true, ne, not_not]
    exact same
  rw [fmtVal]
  rcases fmtBits_cases v wide with ⟨unknown, text⟩ | ⟨known, rfl, text⟩ |
    ⟨known, -, ds, text, digits, small, short, number⟩
  · refine ⟨_, text ▸ parse_unknown lower (by rwa [length]) unknown, fun r => ?_⟩
    have pattern : IsPattern (render (Bits.fit w (readBits v))) :=
      isPattern_render (List.ne_nil_of_length_pos (by omega))
    have equal := (patternCompare_equal ascii pattern).mpr (matches_render v w)
    refine ⟨fun op equality => ?_, ?_⟩
    · rw [conditionMatch_pattern rfl equality]
      exact equal
    · rw [conditionMatch_pattern_ne rfl, equal]
      exact Bool.and_false _
  · obtain ⟨b, bit⟩ := List.length_eq_one_iff.mp length
    rw [bit] at text known
    obtain ⟨n, parsed, normal, number⟩ := parse_bit lower (known b (by simp))
    exact ⟨_, text ▸ parsed, numeric _ n normal (by rwa [bit]) (by rwa [bit])⟩
  · have room : ds.length ≤ maxHexValueDigits := by
      rw [maxHexValueDigits, maxSignalWidth]
      omega
    obtain ⟨n, parsed, normal, value⟩ := parse_hex lower digits small room
    exact ⟨_, text ▸ parsed, numeric _ n normal known (value.trans number)⟩

/-- A value that is longer than its signal prints as unknown bits. -/
theorem printedValue_matches_overLong :
    ∃ target, parseTargetValue Model.MockBackend.host (fmtVal "10110" .bits 4) = .ok target ∧
      ∀ raw, (∀ op, op ≠ .ne → conditionMatch (some "10110") (some raw) op target 4 = true) ∧
        conditionMatch (some "10110") (some raw) .ne target 4 = false :=
  printedValue_matches Model.MockBackend.host (fun _ _ => rfl) "10110" 4 (by omega) (by omega)
    (by simp) (by simp [Str.IsAscii])

/-! ## Numbers as displayed -/

/-- The number hexadecimal digits show. -/
def hexNumber (s : String) : Option Nat :=
  if s ≠ "" ∧ (Str.bytes s).all BigUint.isHexDigit then
    some (Numeral.value 16 ((Str.bytes s).map fun b => (BigUint.hexValue b).toNat))
  else none

/-- The number a clean rendering shows: a single bit, or `0x` and hexadecimal digits. -/
def renderedNumber (s : String) : Option Nat :=
  if s = "0" then some 0
  else if s = "1" then some 1
  else (Str.stripPrefix "0x" s).bind hexNumber

theorem renderedNumber_unknown (bits : List Bit) : renderedNumber ("b" ++ render bits) = none := by
  have other : "b" ++ render bits ≠ "0" ∧ "b" ++ render bits ≠ "1" := by
    simp [← String.toList_inj]
  rw [renderedNumber, if_neg other.1, if_neg other.2]
  simp [Str.stripPrefix, Str.startsWith]

theorem renderedNumber_bit {b : Bit} (known : b.isUnknown = false) :
    renderedNumber (render [b]) = some (Bits.toNat [b]) := by
  cases b with
  | zero | one => decide
  | x | z => cases known

theorem renderedNumber_hex {ds : List Nat} (nonempty : ds ≠ []) (small : ∀ d ∈ ds, d < 16) :
    renderedNumber ("0x" ++ .ofList (ds.map Nat.digitChar)) = some (Numeral.value 16 ds) := by
  have other : "0x" ++ String.ofList (ds.map Nat.digitChar) ≠ "0" ∧
      "0x" ++ String.ofList (ds.map Nat.digitChar) ≠ "1" := by
    simp [← String.toList_inj]
  rw [renderedNumber, if_neg other.1, if_neg other.2, Str.stripPrefix_append, Option.bind_some,
    hexNumber, hexValue_hexText small, if_pos]
  exact ⟨by simpa using nonempty, List.all_eq_true.mpr (isHexDigit_hexText small)⟩

/-- The display shows a number for the values without unknown bits that are not too long. -/
theorem renderedNumber_fmtVal (v : String) {w : Nat} (wide : 1 ≤ w) :
    ((v.length ≤ w ∧ ¬ HasUnknownBit v) ∧
      renderedNumber (fmtVal v .bits w) = some (Bits.toNat (readBits v))) ∨
    (¬ (v.length ≤ w ∧ ¬ HasUnknownBit v) ∧ renderedNumber (fmtVal v .bits w) = none) := by
  rw [← known_fit_iff wide, fmtVal]
  have number (known : ∀ b ∈ Bits.fit w (readBits v), b.isUnknown = false) :
      Bits.toNat (Bits.fit w (readBits v)) = Bits.toNat (readBits v) := by
    obtain ⟨fits, clean⟩ := (known_fit_iff wide).mp known
    exact Bits.toNat_fit (by rwa [length_readBits]) (by simpa [HasUnknownBit] using clean)
  rcases fmtBits_cases v wide with ⟨⟨b, member, unknown⟩, text⟩ | ⟨known, rfl, text⟩ |
    ⟨known, -, ds, text, digits, small, -, value⟩
  · right
    refine ⟨fun known => ?_, by rw [text, renderedNumber_unknown]⟩
    have := known b member
    rw [unknown] at this
    cases this
  · left
    have length : (Bits.fit 1 (readBits v)).length = 1 := Bits.length_fit
    obtain ⟨b, bit⟩ := List.length_eq_one_iff.mp length
    refine ⟨known, ?_⟩
    rw [text, ← number known, bit, renderedNumber_bit (known b (by simp [bit]))]
  · left
    exact ⟨known, by rw [text, renderedNumber_hex digits small, value, number known]⟩

/-- A numeric condition holds of a value just as the value is displayed, except for a value without
unknown bits that is longer than its signal: that one is displayed as unknown and compared
nonetheless. -/
theorem numericCondition_displayed_iff (host : Host) (text : String) (target : Target)
    (parsed : parseTargetValue host text = .ok target) (n : BigUint) (number : target.int = some n)
    (v raw : String) (w : Nat) (wide : 1 ≤ w) (nonempty : v ≠ "") (ascii : Str.IsAscii v) :
    ((∀ op, op ≠ .ne → (conditionMatch (some v) (some raw) op target w = true ↔
        renderedNumber (fmtVal v .bits w) = some n.toNat)) ∧
      (conditionMatch (some v) (some raw) .ne target w = true ↔
        ∃ m, renderedNumber (fmtVal v .bits w) = some m ∧ m ≠ n.toNat)) ↔
    v.length ≤ w ∨ HasUnknownBit v := by
  have normal : n.Normal := by
    have := parseTargetValue_wellFormed parsed
    rwa [Target.WellFormed, number] at this
  by_cases unknown : HasUnknownBit v
  · -- Neither operator holds, and no number is displayed.
    have hidden : renderedNumber (fmtVal v .bits w) = none := by
      rcases renderedNumber_fmtVal v wide with ⟨⟨-, known⟩, -⟩ | ⟨-, none⟩
      · exact absurd unknown known
      · exact none
    refine iff_of_true ⟨fun op equality => ?_, ?_⟩ (.inr unknown)
    · rw [conditionMatch_number number nonempty equality, hidden]
      simp [unknown]
    · rw [conditionMatch_number_ne number nonempty, hidden]
      simp [unknown]
  · obtain ⟨eq, ne⟩ := @conditionMatch_number_iff v raw w target n ascii nonempty unknown number
      normal
    rw [ne]
    rcases renderedNumber_fmtVal v wide with ⟨⟨fits, -⟩, shown⟩ | ⟨long, hidden⟩
    · refine iff_of_true ⟨fun op equality => ?_, ?_⟩ (.inl fits)
      · rw [eq op equality, shown, Option.some_inj, eq_comm]
      · simp [shown, eq_comm]
    · -- One of the operators holds, though no number is displayed.
      have tooLong : ¬ v.length ≤ w := fun fits => long ⟨fits, unknown⟩
      rw [hidden]
      refine iff_of_false ?_ (by tauto)
      rintro ⟨equal, differs⟩
      have equal := (eq .eq (by simp)).symm.trans (equal .eq (by simp))
      simp_all

/-- On four bits `10110` is displayed as unknown, and a condition on its number still holds. -/
theorem numericCondition_overLong :
    parseTargetValue Model.MockBackend.host "22" = .ok ⟨"22", some ⟨[22]⟩⟩ ∧
      fmtVal "10110" .bits 4 = "bxxxx" ∧
      ¬ (conditionMatch (some "10110") (some "10110") .eq ⟨"22", some ⟨[22]⟩⟩ 4 = true ↔
        renderedNumber (fmtVal "10110" .bits 4) = some (BigUint.toNat ⟨[22]⟩)) := by
  decide +kernel

theorem numericCondition_displayed_iff_example :
    (∀ op, op ≠ .ne → (conditionMatch (some "01h0") (some "01h0") op ⟨"22", some ⟨[22]⟩⟩ 5 = true ↔
        renderedNumber (fmtVal "01h0" .bits 5) = some (BigUint.toNat ⟨[22]⟩))) ∧
      (conditionMatch (some "01h0") (some "01h0") .ne ⟨"22", some ⟨[22]⟩⟩ 5 = true ↔
        ∃ m, renderedNumber (fmtVal "01h0" .bits 5) = some m ∧ m ≠ BigUint.toNat ⟨[22]⟩) :=
  (numericCondition_displayed_iff Model.MockBackend.host "22" ⟨"22", some ⟨[22]⟩⟩
    (by decide +kernel) ⟨[22]⟩ rfl "01h0" "01h0" 5 (by omega) (by simp)
    (by simp [Str.IsAscii])).mpr (.inl (by decide))

/-! ## Values that are displayed alike -/

/-- Bit strings are displayed alike exactly if they stand for the same vector. -/
theorem fmtBits_inj {u v : String} {w : Nat} (wide : 1 ≤ w) :
    fmtBits u w = fmtBits v w ↔ Bits.fit w (readBits u) = Bits.fit w (readBits v) := by
  have letter (bits bits' : List Bit) : "b" ++ render bits ≠ render bits' := by
    intro same
    have member : 'b' ∈ (render bits').toList := by simp [← same]
    obtain ⟨b, -, char⟩ := List.mem_map.mp (toList_render bits' ▸ member)
    cases b <;> exact absurd char (by decide)
  have number (bits : List Bit) (ds : List Nat) :
      "b" ++ render bits ≠ "0x" ++ .ofList (ds.map Nat.digitChar) := by
    simp [← String.toList_inj]
  constructor
  · intro same
    rcases fmtBits_cases u wide with ⟨-, text⟩ | ⟨-, bit, text⟩ |
      ⟨known, wider, ds, text, -, small, -, value⟩
    · rw [text] at same
      rcases fmtBits_cases v wide with ⟨-, text'⟩ | ⟨-, -, text'⟩ | ⟨-, -, ds', text', -⟩
      · rw [text'] at same
        exact render_injective (by simpa [← String.toList_inj] using same)
      · rw [text'] at same
        exact absurd same (letter _ _)
      · rw [text'] at same
        exact absurd same (number _ _)
    · rw [text] at same
      rcases fmtBits_cases v wide with ⟨-, text'⟩ | ⟨-, -, text'⟩ | ⟨-, wider', -⟩
      · rw [text'] at same
        exact absurd same.symm (letter _ _)
      · rw [text'] at same
        exact render_injective same
      · omega
    · rw [text] at same
      rcases fmtBits_cases v wide with ⟨-, text'⟩ | ⟨-, bit', -⟩ |
        ⟨known', -, ds', text', -, small', -, value'⟩
      · rw [text'] at same
        exact absurd same.symm (number _ _)
      · omega
      · rw [text'] at same
        have digits : ds.map Nat.digitChar = ds'.map Nat.digitChar := by
          simpa [← String.toList_inj] using same
        have equal : ds = ds' := by
          rw [← hexValue_hexText small, ← hexValue_hexText small', digits]
        refine Bits.toNat_injective (by rw [Bits.length_fit, Bits.length_fit]) known known' ?_
        rw [← value, ← value', equal]
  · intro same
    rw [fmtBits_eq u wide, fmtBits_eq v wide, same]

/-- `fmt_val` is faithful: two values print alike exactly if they stand for one vector of the signal's
bits, a vector without unknown bits as the numeral of its number and any other bit by bit. -/
theorem fmtVal_faithful (w : Nat) (wide : 1 ≤ w) :
    (∀ u v, fmtVal u .bits w = fmtVal v .bits w ↔
      Bits.fit w (readBits u) = Bits.fit w (readBits v)) ∧
    ∀ v, ((∀ b ∈ Bits.fit w (readBits v), b.isUnknown = false) → 1 < w → fmtVal v .bits w =
        "0x" ++ .ofList (Nat.toDigits 16 (Bits.toNat (Bits.fit w (readBits v))))) ∧
      ((∃ b ∈ Bits.fit w (readBits v), b.isUnknown = true) →
        fmtVal v .bits w = "b" ++ render (Bits.fit w (readBits v))) := by
  refine ⟨fun u v => fmtBits_inj wide, ?_⟩
  intro v
  have bits : Bits.fit w (readBits v) ≠ [] := by
    apply List.ne_nil_of_length_pos
    rw [Bits.length_fit]
    exact wide
  refine ⟨?_, ?_⟩
  · intro known wider
    have clean : ¬ (Bits.fit w (readBits v)).any Bit.isUnknown = true := by simpa using known
    rw [fmtVal, fmtBits_eq v wide, if_neg clean, if_neg wider.ne', binaryToHexUnpadded_eq bits known]
  · intro unknown
    rw [fmtVal, fmtBits_eq v wide, if_pos (List.any_eq_true.mpr unknown)]

/-- A short value and its extension; ten bits, a number and an unknown bit. -/
theorem fmtVal_faithful_ten :
    fmtVal "h01" .bits 10 = fmtVal "0000000101" .bits 10 ∧
    fmtVal "1011101111" .bits 10 = "0x" ++ .ofList (Nat.toDigits 16 751) ∧
    fmtVal "z1" .bits 10 = "b" ++ "zzzzzzzzz1" := by
  have faithful := fmtVal_faithful 10 (by omega)
  refine ⟨(faithful.1 _ _).mpr (by decide), ?_, ?_⟩
  · exact ((faithful.2 "1011101111").1 (by decide) (by omega)).trans (by decide)
  · exact ((faithful.2 "z1").2 (by decide)).trans (by decide)

end RWave.Condition
