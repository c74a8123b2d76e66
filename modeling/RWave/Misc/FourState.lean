import RWave.Misc.Numeral

/-!
# Four-state bit strings

A bit of a logic value is `0`, `1`, unknown or high-impedance. A bit string has its most significant
bit first. Where it is shorter than the vector it stands for it is extended on the left, by its own
first bit when that is unknown and by `0` otherwise; a string that is too long says nothing about
the vector, all of whose bits are unknown then.
-/

namespace RWave.Misc

/-- A four-state bit. -/
inductive Bit where
  | zero
  | one
  | x
  | z
  deriving DecidableEq, Repr

namespace Bit

/-- Is the bit neither `0` nor `1`? -/
def isUnknown : Bit → Bool
  | .x | .z => true
  | .zero | .one => false

def toNat : Bit → Nat
  | .one => 1
  | .zero | .x | .z => 0

def toChar : Bit → Char
  | .zero => '0'
  | .one => '1'
  | .x => 'x'
  | .z => 'z'

end Bit

namespace Bits

variable {bits : List Bit} {w k : Nat}

/-- What a bit string is extended with. -/
def fill (bits : List Bit) : Bit :=
  match bits.head? with
  | some b => if b.isUnknown then b else .zero
  | none => .zero

/-- The bit at a position, counted from the least significant one. -/
def bitAt (bits : List Bit) (k : Nat) : Bit := bits.reverse.getD k (fill bits)

/-- A vector of `w` bits, as the bit string gives it. -/
def fit (w : Nat) (bits : List Bit) : List Bit :=
  if w < bits.length then List.replicate w .x
  else List.replicate (w - bits.length) (fill bits) ++ bits

/-- The number of a bit string. -/
def toNat (bits : List Bit) : Nat := Numeral.value 2 (bits.map Bit.toNat)

@[simp] theorem length_fit : (fit w bits).length = w := by
  rw [fit]
  split
  · simp
  · rw [List.length_append, List.length_replicate]
    omega

theorem fit_of_lt (long : w < bits.length) : fit w bits = List.replicate w .x := if_pos long

theorem fit_of_le (fits : bits.length ≤ w) :
    fit w bits = List.replicate (w - bits.length) (fill bits) ++ bits := if_neg (by omega)

theorem bitAt_fit (inside : k < w) :
    bitAt (fit w bits) k = if w < bits.length then .x else bitAt bits k := by
  by_cases long : w < bits.length
  · simp [fit_of_lt long, bitAt, if_pos long, List.getD, inside]
  · rw [if_neg long, fit_of_le (by omega), bitAt, bitAt, List.reverse_append]
    by_cases low : k < bits.length
    · rw [List.getD_append _ _ _ _ (by simpa using low)]
      simp [List.getD, low]
    · have past : k - bits.length < w - bits.length := by omega
      rw [List.getD_append_right _ _ _ _ (by simpa using low)]
      simp [List.getD, past, List.getElem?_eq_none (l := bits.reverse) (by simpa using low)]

theorem fill_known (known : ∀ b ∈ bits, b.isUnknown = false) : fill bits = .zero := by
  rw [fill]
  cases bits with
  | nil => rfl
  | cons b rest => simp [known b (by simp)]

/-- A vector has an unknown bit if its bit string has one or is too long. -/
theorem unknown_fit (wide : 0 < w) :
    (∃ b ∈ fit w bits, b.isUnknown) ↔ w < bits.length ∨ ∃ b ∈ bits, b.isUnknown := by
  by_cases long : w < bits.length
  · rw [fit_of_lt long]
    exact ⟨fun _ => .inl long, fun _ => ⟨.x, by simp [wide.ne'], rfl⟩⟩
  · rw [fit_of_le (by omega)]
    constructor
    · rintro ⟨b, member, unknown⟩
      right
      by_contra known
      push Not at known
      rcases List.mem_append.mp member with member | member
      · rw [fill_known (by simpa using known)] at member
        rw [List.eq_of_mem_replicate member] at unknown
        cases unknown
      · exact known b member unknown
    · rintro (absurdity | ⟨b, member, unknown⟩)
      · exact absurd absurdity long
      · exact ⟨b, List.mem_append_right _ member, unknown⟩

/-- Extending a bit string that has no unknown bit does not change its number. -/
theorem toNat_fit (fits : bits.length ≤ w) (known : ∀ b ∈ bits, b.isUnknown = false) :
    toNat (fit w bits) = toNat bits := by
  rw [fit_of_le fits, fill_known known, toNat, List.map_append, List.map_replicate]
  exact Numeral.value_replicate_append _ _

/-- Bit strings of one length without unknown bits are determined by their numbers. -/
theorem toNat_injective {bits' : List Bit} (length : bits.length = bits'.length)
    (known : ∀ b ∈ bits, b.isUnknown = false) (known' : ∀ b ∈ bits', b.isUnknown = false)
    (same : toNat bits = toNat bits') : bits = bits' := by
  have below (l : List Bit) : ∀ d ∈ l.map Bit.toNat, d < 2 := by
    intro d member
    obtain ⟨b, -, rfl⟩ := List.mem_map.mp member
    cases b <;> decide
  have digits := Numeral.value_injective (by decide) (by simpa using length) (below bits)
    (below bits') same
  let read (n : Nat) : Bit := if n = 1 then .one else .zero
  have back (l : List Bit) (known : ∀ b ∈ l, b.isUnknown = false) :
      (l.map Bit.toNat).map read = l := by
    rw [List.map_map]
    refine (List.map_congr_left fun b member => ?_).trans (List.map_id l)
    have clean := known b member
    cases b with
    | zero | one => rfl
    | x | z => cases clean
  rw [← back bits known, ← back bits' known', digits]

/-- Above its own length a bit string without unknown bits has zeros. -/
theorem bitAt_of_le (past : bits.length ≤ k) (known : ∀ b ∈ bits, b.isUnknown = false) :
    bitAt bits k = .zero := by
  rw [bitAt, List.getD_eq_default _ _ (by simpa using past), fill_known known]

theorem known_fit (fits : bits.length ≤ w) (known : ∀ b ∈ bits, b.isUnknown = false) :
    ∀ b ∈ fit w bits, b.isUnknown = false := by
  intro b member
  rw [fit_of_le fits, fill_known known] at member
  rcases List.mem_append.mp member with pad | own
  · rw [List.eq_of_mem_replicate pad]
    rfl
  · exact known b own

/-- Vectors of one width are equal when they are at every position. -/
theorem fit_ext {bits' : List Bit} (same : ∀ k < w, bitAt (fit w bits) k = bitAt (fit w bits') k) :
    fit w bits = fit w bits' := by
  apply List.reverse_injective
  refine List.ext_getElem (by simp) ?_
  intro k inside inside'
  have at_k := same k (by simpa using inside)
  rwa [bitAt, bitAt, List.getD_eq_getElem _ _ inside, List.getD_eq_getElem _ _ inside'] at at_k

/-- Bit strings without unknown bits, whatever their lengths, agree at every position of a vector
they fit into exactly if they have one number. -/
theorem bitAt_eq_iff {bits' : List Bit} (fits : bits.length ≤ w) (fits' : bits'.length ≤ w)
    (known : ∀ b ∈ bits, b.isUnknown = false) (known' : ∀ b ∈ bits', b.isUnknown = false) :
    (∀ k < w, bitAt bits k = bitAt bits' k) ↔ toNat bits = toNat bits' := by
  have same_at : ∀ k < w, (bitAt bits k = bitAt bits' k ↔
      bitAt (fit w bits) k = bitAt (fit w bits') k) := by
    intro k inside
    rw [bitAt_fit inside, bitAt_fit inside, if_neg (by omega), if_neg (by omega)]
  rw [← toNat_fit fits known, ← toNat_fit fits' known']
  constructor
  · intro same
    rw [fit_ext fun k inside => (same_at k inside).mp (same k inside)]
  · intro same k inside
    rw [same_at k inside, toNat_injective (by simp) (known_fit fits known) (known_fit fits' known') same]

end Bits

end RWave.Misc
