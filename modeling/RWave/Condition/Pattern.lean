import RWave.Condition
import RWave.Misc.FourState
import RWave.Ascii

/-!
# Bit patterns

What a bit pattern says about a recorded value, in four-state bits: `Matches` and `CaresUnknown`.
`pattern_compare` decides both, whatever the lengths of the value, the pattern and the signal.
-/

namespace RWave.Condition

open RWave.Misc

/-- A recorded bit. `h` and `l` are weak forms of `1` and `0`; any other character that is not one
of `0`, `1` and `z` is an unknown bit. -/
def readBit (c : Char) : Bit :=
  match c.toLower with
  | '0' | 'l' => .zero
  | '1' | 'h' => .one
  | 'z' => .z
  | _ => .x

/-- The bits of a recorded value. -/
def readBits (v : String) : List Bit := v.toList.map readBit

/-- The bit of a recorded value at a position of a signal `w` bits wide. Above the width it is `0`. -/
def bitOfValue (v : String) (w k : Nat) : Bit :=
  if w ≤ k then .zero else Bits.bitAt (Bits.fit w (readBits v)) k

/-- A bit of a pattern; `?` stands for no bit. -/
def readPatternBit : Char → Option Bit
  | '0' => some .zero
  | '1' => some .one
  | 'x' => some .x
  | 'z' => some .z
  | _ => none

/-- The characters of a pattern. -/
def patternChars : List Char := ['0', '1', 'x', 'z', '?']

/-- A pattern as the parser lets it through. -/
structure IsPattern (p : String) : Prop where
  nonempty : p ≠ ""
  chars : ∀ c ∈ p.toList, c ∈ patternChars

/-- The bit a pattern asks for at a position: above its own length its first bit, if that is unknown,
and `0` otherwise. -/
def bitOfPattern (p : String) (k : Nat) : Option Bit :=
  (p.toList.map readPatternBit).reverse.getD k
    (some (Bits.fill (p.toList.head?.bind readPatternBit).toList))

/-- The value has every bit the pattern asks for. -/
def Matches (v p : String) (w : Nat) : Prop :=
  ∀ k < max w p.length, ∀ b, bitOfPattern p k = some b → bitOfValue v w k = b

/-- The pattern asks for a bit of the signal that the value leaves unknown. -/
def CaresUnknown (v p : String) (w : Nat) : Prop :=
  ∃ k < w, bitOfPattern p k ≠ none ∧ (bitOfValue v w k).isUnknown = true

/-- Some bit of the recorded value is unknown. -/
def HasUnknownBit (v : String) : Prop := ∃ b ∈ readBits v, b.isUnknown = true

/-! ## Bytes and bits -/

/-- The byte of a bit in the four-state alphabet. -/
def bitByte (b : Bit) : UInt8 := b.toChar.toUInt8

theorem bitByte_injective : Function.Injective bitByte := by
  intro a b same
  cases a <;> cases b <;> first | rfl | exact absurd same (by decide)

@[simp] theorem isXz_bitByte (b : Bit) : isXz (bitByte b) = b.isUnknown := by
  cases b <;> decide

theorem bitByte_ne_care (b : Bit) : bitByte b ≠ '?'.toUInt8 := by
  cases b <;> decide

theorem normBit_toUInt8 {c : Char} (small : c.toNat < 128) :
    normBit c.toUInt8 = bitByte (readBit c) := by
  apply Str.ascii_induction _ small
  decide

/-- The padding of both sides is the one of four-state bit strings. -/
theorem pad_eq_fill (b : Bit) (bits : List Bit) :
    (if isXz (bitByte b) then bitByte b else '0'.toUInt8) = bitByte (Bits.fill (b :: bits)) := by
  cases b <;> rfl

theorem getD_reverse_map {α β : Type} (f : α → β) (l : List α) (k : Nat) (fallback : α)
    (fallback' : β) (inside : k < l.length) :
    (l.map f).getD (l.length - 1 - k) fallback' = f (l.reverse.getD k fallback) := by
  have low : l.length - 1 - k < l.length := by omega
  simp [List.getD, inside, low]

theorem valueBit_eq {v : String} (ascii : Str.IsAscii v) (w k : Nat) :
    valueBit (Str.bytes v) w k = bitByte (bitOfValue v w k) := by
  have bytes : (Str.bytes v).map normBit = (readBits v).map bitByte := by
    rw [Str.bytes_of_ascii ascii, readBits, List.map_map, List.map_map]
    exact List.map_congr_left fun c member => normBit_toUInt8 (ascii c member)
  have length : (Str.bytes v).length = (readBits v).length := by
    simpa using congrArg List.length bytes
  rw [valueBit, bitOfValue, length]
  by_cases above : w ≤ k
  · rw [if_pos above, if_pos above]
    rfl
  · rw [if_neg above, if_neg above, Bits.bitAt_fit (by omega)]
    by_cases long : w < (readBits v).length
    · rw [if_pos long, if_pos long]
      rfl
    · rw [if_neg long, if_neg long, Bits.bitAt]
      by_cases inside : k < (readBits v).length
      · have index : (readBits v).length - 1 - k < (Str.bytes v).length := by omega
        have same : normBit ((Str.bytes v).getD ((readBits v).length - 1 - k) 0) =
            ((Str.bytes v).map normBit).getD ((readBits v).length - 1 - k) 0 := by
          simp [List.getD, index]
        rw [if_pos inside, same, bytes, getD_reverse_map _ _ _ (Bits.fill (readBits v)) _ inside]
      · rw [if_neg inside, ← List.head?_map, bytes,
          List.getD_eq_default _ _ (by simpa using inside)]
        cases readBits v with
        | nil => rfl
        | cons b rest => exact pad_eq_fill b rest

theorem IsPattern.ascii {p : String} (pattern : IsPattern p) : Str.IsAscii p := by
  intro c member
  have := pattern.chars c member
  simp only [patternChars, List.mem_cons, List.not_mem_nil, or_false] at this
  rcases this with rfl | rfl | rfl | rfl | rfl <;> decide

/-- The byte that stands for a pattern bit. -/
def patternByte (b : Option Bit) : UInt8 := b.elim '?'.toUInt8 bitByte

theorem patternByte_read {c : Char} (char : c ∈ patternChars) :
    c.toUInt8 = patternByte (readPatternBit c) := by
  simp only [patternChars, List.mem_cons, List.not_mem_nil, or_false] at char
  rcases char with rfl | rfl | rfl | rfl | rfl <;> decide

theorem patternBit_eq {p : String} (pattern : IsPattern p) (k : Nat) :
    patternBit (Str.bytes p) k = patternByte (bitOfPattern p k) := by
  have bytes : Str.bytes p = (p.toList.map readPatternBit).map patternByte := by
    rw [Str.bytes_of_ascii pattern.ascii, List.map_map]
    exact List.map_congr_left fun c member => patternByte_read (pattern.chars c member)
  have length : (Str.bytes p).length = (p.toList.map readPatternBit).length := by
    rw [bytes, List.length_map]
  rw [patternBit, bitOfPattern, length]
  by_cases inside : k < (p.toList.map readPatternBit).length
  · rw [if_pos inside, bytes, getD_reverse_map _ _ _ _ _ inside]
  · rw [if_neg inside, List.getD_eq_default _ _ (by simpa using inside), bytes]
    cases p.toList with
    | nil => rfl
    | cons c rest =>
      cases bit : readPatternBit c with
      | none => simp [bit, patternByte, isXz]; rfl
      | some b => simpa [bit, patternByte] using pad_eq_fill b []

/-! ## The comparison -/

/-- What the loop over the positions accumulates. -/
theorem foldl_compare (pattern value : Nat → UInt8) (offs : List Nat) (start : PatternCmp) :
    offs.foldl
      (fun cmp off =>
        let pb := pattern off
        if pb = '?'.toUInt8 then cmp
        else
          let vb := value off
          { equal := cmp.equal && vb == pb
            caredUnknown := cmp.caredUnknown || isXz vb })
      start =
      ⟨start.equal && offs.all fun off => pattern off == '?'.toUInt8 || value off == pattern off,
        start.caredUnknown || offs.any fun off => pattern off != '?'.toUInt8 && isXz (value off)⟩ := by
  induction offs generalizing start with
  | nil => simp
  | cons off rest ih =>
    rw [List.foldl_cons, ih, List.all_cons, List.any_cons]
    by_cases care : pattern off = '?'.toUInt8
    · simp [care]
    · have cares : (pattern off == '?'.toUInt8) = false := beq_eq_false_iff_ne.mpr care
      simp only [care, if_false, bne, cares, Bool.false_or, Bool.not_false, Bool.true_and,
        Bool.and_assoc, Bool.or_assoc]

theorem patternCompare_equal {v p : String} {w : Nat} (ascii : Str.IsAscii v)
    (pattern : IsPattern p) : (patternCompare v p w).equal = true ↔ Matches v p w := by
  rw [patternCompare, foldl_compare, ← Str.len, Str.len_of_ascii pattern.ascii]
  simp only [Bool.true_and, List.all_eq_true, List.mem_range, Bool.or_eq_true, beq_iff_eq,
    patternBit_eq pattern, valueBit_eq ascii]
  refine forall₂_congr fun k inside => ?_
  cases bitOfPattern p k with
  | none => simp [patternByte]
  | some b => simp [patternByte, bitByte_ne_care, bitByte_injective.eq_iff]

theorem patternCompare_caredUnknown {v p : String} {w : Nat} (ascii : Str.IsAscii v)
    (pattern : IsPattern p) :
    (patternCompare v p w).caredUnknown = true ↔ CaresUnknown v p w := by
  rw [patternCompare, foldl_compare, ← Str.len, Str.len_of_ascii pattern.ascii]
  simp only [Bool.false_or, List.any_eq_true, List.mem_range, Bool.and_eq_true, bne_iff_ne,
    patternBit_eq pattern, valueBit_eq ascii, isXz_bitByte]
  have care (k : Nat) : patternByte (bitOfPattern p k) ≠ '?'.toUInt8 ↔ bitOfPattern p k ≠ none := by
    cases bitOfPattern p k with
    | none => simp [patternByte]
    | some b => simp [patternByte, bitByte_ne_care]
  simp only [care]
  constructor
  · rintro ⟨k, -, cared, unknown⟩
    refine ⟨k, ?_, cared, unknown⟩
    -- A bit above the width is `0`.
    by_contra above
    rw [bitOfValue, if_pos (by omega)] at unknown
    cases unknown
  · rintro ⟨k, inside, cared, unknown⟩
    exact ⟨k, by omega, cared, unknown⟩

end RWave.Condition
