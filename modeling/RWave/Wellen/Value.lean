import RWave.Misc.DigitGroups

/-!
# Logic vectors in memory

`signal/value.rs` of the vendored `wellen`, and `write_n_state_from_ascii` of `wavemem.rs`. A bit
takes one, two or four bits of a byte, by how many values the bits of its vector may have; the bytes
are big-endian, and the first of them is the one that may be short.
-/

namespace RWave.Wellen

open RWave.Misc

/-- `Bit`: a logic value by its number. -/
abbrev Bit := UInt8

/-- `NINE_STATE_LOOKUP`. -/
def nineStateLookup : List Char := ['0', '1', 'x', 'z', 'h', 'u', 'w', 'l', '-']

/-- `Bit::as_ascii`; there is no tenth value. -/
def Bit.asAscii (b : Bit) : Option Char := nineStateLookup[b.toNat]?

/-- `bit_char_to_num`. -/
def bitCharToNum (c : UInt8) : Option Bit :=
  match Char.ofNat c.toNat with
  | '0' => some 0
  | '1' => some 1
  | 'x' | 'X' => some 2
  | 'z' | 'Z' => some 3
  | 'h' | 'H' => some 4
  | 'u' | 'U' => some 5
  | 'w' | 'W' => some 6
  | 'l' | 'L' => some 7
  | '-' => some 8
  | _ => none

/-- `States`: how many values the bits of a vector may have. -/
inductive States where
  | two
  | four
  | nine
  deriving DecidableEq, Repr

namespace States

/-- `states as u8`. -/
def toByte : States → UInt8
  | two => 0
  | four => 1
  | nine => 2

/-- `States::try_from_primitive`. -/
def tryFromPrimitive (n : UInt8) : Option States :=
  if n = 0 then some two else if n = 1 then some four else if n = 2 then some nine else none

/-- `States::join`. -/
def join (a b : States) : States := if a.toByte < b.toByte then b else a

/-- `States::bits`: how many bits a logic value takes. -/
def bits : States → Nat
  | two => 1
  | four => 2
  | nine => 4

/-- `States::mask`. -/
def mask : States → UInt8
  | two => 0x1
  | four => 0x3
  | nine => 0xf

/-- `States::bits_in_a_byte`. -/
def bitsInAByte (states : States) : Nat := 8 / states.bits

/-- `States::bytes_required`. -/
def bytesRequired (states : States) (bits : Nat) : Nat :=
  match states with
  | two => (bits + 7) >>> 3
  | four => (bits + 3) >>> 2
  | nine => (bits + 1) >>> 1

/-- `States::from_bit`. -/
def fromBit (value : Bit) : Option States :=
  if value ≤ 1 then some two
  else if value ≤ 3 then some four
  else if value.toNat < nineStateLookup.length then some nine
  else none

/-- `States::from_union`. -/
def fromUnion (union : UInt8) : States :=
  if 4 ≤ union then nine else if union ≤ 1 then two else four

/-- `States::from_bits`. -/
def fromBits (bits : List Bit) : States := fromUnion (bits.foldl (· ||| ·) 0)

/-- `States::from_ascii`. -/
def fromAscii (string : List UInt8) : Option States :=
  (string.mapM bitCharToNum).map fun values => fromBits values

/-- `States::get_bit`, of a bit that the data have. -/
def getBit (states : States) (data : List UInt8) (bit : Nat) : Bit :=
  let bitInByte := bit % states.bitsInAByte
  let littleEndianByteIndex := bit / states.bitsInAByte
  let byte := data.getD (data.length - 1 - littleEndianByteIndex) 0
  states.mask &&& (byte >>> (bitInByte * states.bits).toUInt8)

/-- The bits of a vector, the most significant first: `BitVecRef::iter_msb_to_lsb`. -/
def iterMsbToLsb (states : States) (width : Nat) (data : List UInt8) : List Bit :=
  (List.range width).reverse.map (states.getBit data)

/-- The loop of `write_n_state_from_ascii`, over the numbers of the characters. `metaData` goes into
the first byte. -/
def packFrom (states : States) (metaData : UInt8) (workingByte : UInt8) : List Bit → List UInt8
  | [] => []
  | value :: rest =>
    let workingByte := (workingByte <<< states.bits.toUInt8) + value
    if (rest.length * states.bits) % 8 = 0 then
      (workingByte ||| metaData) :: packFrom states 0 0 rest
    else packFrom states metaData workingByte rest

/-- The bytes of a vector. -/
def pack (states : States) (bits : List Bit) : List UInt8 := packFrom states 0 0 bits

end States

/-- `write_n_state_from_ascii`: the bytes that it appends. No meta-data are meta-data of zero. -/
def writeNStateFromAscii (states : States) (value : List UInt8) (metaData : Option UInt8) :
    Option (List UInt8) :=
  (value.mapM bitCharToNum).map (states.packFrom (metaData.getD 0) 0)

/-! ## Bytes and numbers -/

namespace States

variable (states : States)

theorem bitsInAByte_pos : 0 < states.bitsInAByte := by cases states <;> decide

/-- A byte is a group of logic values. -/
theorem byte_eq : (2 ^ states.bits) ^ states.bitsInAByte = 256 := by cases states <;> decide

/-- The groups end where the bytes do. -/
theorem full_iff (n : Nat) : (n * states.bits) % 8 = 0 ↔ n % states.bitsInAByte = 0 := by
  cases states <;> simp only [bits, bitsInAByte] <;> omega

theorem bytesRequired_eq (width : Nat) :
    states.bytesRequired width = (width + (states.bitsInAByte - 1)) / states.bitsInAByte := by
  cases states <;> simp only [bytesRequired, bitsInAByte, bits, Nat.shiftRight_eq_div_pow]

/-- The bits fit their encoding. -/
def Fit (bits : List Bit) : Prop := ∀ b ∈ bits, b.toNat < 2 ^ states.bits

instance (bits : List Bit) : Decidable (states.Fit bits) :=
  inferInstanceAs (Decidable (∀ b ∈ bits, b.toNat < 2 ^ states.bits))

variable {states}

/-- One more value in a byte that has room for it. -/
theorem shift_add_toNat {working value : UInt8} {count : Nat} (fit : value.toNat < 2 ^ states.bits)
    (small : working.toNat < (2 ^ states.bits) ^ room states.bitsInAByte (count + 1)) :
    ((working <<< states.bits.toUInt8) + value).toNat =
      working.toNat * 2 ^ states.bits + value.toNat := by
  have grown := pending_lt fit small
  have byte : (2 ^ states.bits) ^ (room states.bitsInAByte (count + 1) + 1) ≤ 256 := by
    rw [← byte_eq states]
    apply Nat.pow_le_pow_right (Nat.pow_pos (by decide))
    exact Nat.mod_lt _ (bitsInAByte_pos states)
  have shift : states.bits.toUInt8.toNat % 8 = states.bits := by cases states <;> rfl
  rw [UInt8.toNat_add, UInt8.toNat_shiftLeft, shift, Nat.shiftLeft_eq,
    Nat.mod_eq_of_lt (a := working.toNat * _) (by omega), Nat.mod_eq_of_lt (by omega)]

/-- Without meta-data the loop groups numbers. -/
theorem packFrom_toNat (working : UInt8) {values : List Bit} (fit : states.Fit values)
    (small : working.toNat < (2 ^ states.bits) ^ room states.bitsInAByte values.length) :
    (states.packFrom 0 working values).map UInt8.toNat =
      digitGroups (2 ^ states.bits) states.bitsInAByte working.toNat (values.map UInt8.toNat) := by
  induction values generalizing working with
  | nil => rfl
  | cons value rest ih =>
    have here : value.toNat < 2 ^ states.bits := fit value (by simp)
    have later : states.Fit rest := fun b member => fit b (List.mem_cons_of_mem _ member)
    have byte := shift_add_toNat here small
    rw [packFrom, List.map_cons, digitGroups, List.length_map]
    simp only [full_iff, UInt8.or_zero]
    split
    · rw [List.map_cons, byte, ih 0 later (Nat.pow_pos (Nat.pow_pos (by decide)))]
      rfl
    next partly =>
      have grown := pending_lt here small
      rw [room_succ_of_partly (bitsInAByte_pos states) partly, ← byte] at grown
      rw [ih _ later grown, byte]

theorem length_pack {values : List Bit} (fit : states.Fit values) :
    (states.pack values).length = states.bytesRequired values.length := by
  have same := congrArg List.length
    (packFrom_toNat 0 fit (Nat.pow_pos (Nat.pow_pos (by decide))))
  rw [List.length_map, length_digitGroups (bitsInAByte_pos states), List.length_map] at same
  rw [pack, same, bytesRequired_eq]

/-- Masking a shifted byte takes one digit out of its number. -/
theorem mask_shift_toNat (byte : UInt8) (i : Nat) :
    (states.mask &&& (byte >>> (i % states.bitsInAByte * states.bits).toUInt8)).toNat =
      byte.toNat / (2 ^ states.bits) ^ (i % states.bitsInAByte) % 2 ^ states.bits := by
  have small : i % states.bitsInAByte * states.bits < 8 := by
    have := Nat.mod_lt i (bitsInAByte_pos states)
    cases states <;> simp only [bits, bitsInAByte] at this ⊢ <;> omega
  have shift : (i % states.bitsInAByte * states.bits).toUInt8.toNat % 8 =
      i % states.bitsInAByte * states.bits := by
    rw [Nat.toUInt8_eq, UInt8.toNat_ofNat', Nat.mod_mod_of_dvd _ (by decide), Nat.mod_eq_of_lt small]
  have mask : states.mask.toNat = 2 ^ states.bits - 1 := by cases states <;> rfl
  rw [UInt8.toNat_and, UInt8.toNat_shiftRight, shift, mask, Nat.and_comm,
    Nat.and_two_pow_sub_one_eq_mod, Nat.shiftRight_eq_div_pow, ← pow_mul, mul_comm states.bits]

/-- The bytes from the least significant one on. -/
theorem getBit_eq {data : List UInt8} {bit : Nat} {byte : UInt8}
    (found : data.reverse[bit / states.bitsInAByte]? = some byte) :
    states.getBit data bit = states.mask &&&
      (byte >>> (bit % states.bitsInAByte * states.bits).toUInt8) := by
  obtain ⟨inside, -⟩ := List.getElem?_eq_some_iff.mp found
  rw [List.length_reverse] at inside
  rw [List.getElem?_reverse inside] at found
  simp only [getBit, List.getD_eq_getElem?_getD, found, Option.getD_some]

/-- A value is read back from the bytes of its vector. -/
theorem getBit_pack {values : List Bit} (fit : states.Fit values) {i : Nat} {value : Bit}
    (found : values.reverse[i]? = some value) : states.getBit (states.pack values) i = value := by
  have below : ∀ d ∈ values.map UInt8.toNat, d < 2 ^ states.bits := by
    intro d member
    obtain ⟨b, inside, rfl⟩ := List.mem_map.mp member
    exact fit b inside
  have digit : (values.map UInt8.toNat).reverse[i]? = some value.toNat := by
    rw [← List.map_reverse, List.getElem?_map, found, Option.map_some]
  obtain ⟨g, group, same⟩ := digitGroups_digit (bitsInAByte_pos states) below digit
  have bytes := packFrom_toNat 0 fit (Nat.pow_pos (Nat.pow_pos (by decide)))
  rw [UInt8.toNat_zero] at bytes
  rw [← bytes, ← List.map_reverse, List.getElem?_map, Option.map_eq_some_iff] at group
  obtain ⟨byte, here, rfl⟩ := group
  apply UInt8.toNat_inj.mp
  rw [pack, getBit_eq here, mask_shift_toNat, same]

/-- A vector is read back from its bytes. -/
theorem iterMsbToLsb_pack {values : List Bit} (fit : states.Fit values) :
    states.iterMsbToLsb values.length (states.pack values) = values := by
  apply List.reverse_injective
  rw [iterMsbToLsb, ← List.map_reverse, List.reverse_reverse]
  apply List.ext_getElem?
  intro i
  rw [List.getElem?_map]
  rcases Nat.lt_or_ge i values.length with inside | outside
  · have found : values.reverse[i]? = some (values.reverse.get ⟨i, by simpa using inside⟩) :=
      List.getElem?_eq_getElem _
    rw [List.getElem?_range inside, Option.map_some, getBit_pack fit found, found]
  · rw [List.getElem?_eq_none (by simpa using outside),
      List.getElem?_eq_none (by simpa using outside)]
    rfl

/-! ## The smallest encoding -/

theorem foldl_or (bits : List Bit) (union : UInt8) :
    bits.foldl (· ||| ·) union = union ||| bits.foldl (· ||| ·) 0 := by
  induction bits generalizing union with
  | nil => simp
  | cons b bits ih => rw [List.foldl_cons, List.foldl_cons, ih, ih (0 ||| b), UInt8.zero_or,
      UInt8.or_assoc]

theorem or_foldl_of_mem {b : Bit} {bits : List Bit} (member : b ∈ bits) :
    b ||| bits.foldl (· ||| ·) 0 = bits.foldl (· ||| ·) 0 := by
  induction bits with
  | nil => cases member
  | cons c bits ih =>
    rw [List.foldl_cons, UInt8.zero_or, foldl_or]
    rcases List.mem_cons.mp member with rfl | later
    · rw [← UInt8.or_assoc, UInt8.or_self]
    · rw [← UInt8.or_assoc, UInt8.or_comm b, UInt8.or_assoc, ih later]

/-- More of a value that a vector has, or of zeros, need no larger encoding. -/
theorem fromBits_replicate_append {b : Bit} {bits : List Bit} (known : b = 0 ∨ b ∈ bits) (n : Nat) :
    fromBits (List.replicate n b ++ bits) = fromBits bits := by
  have same : b ||| bits.foldl (· ||| ·) 0 = bits.foldl (· ||| ·) 0 := by
    rcases known with rfl | member
    · exact UInt8.zero_or
    · exact or_foldl_of_mem member
  have union : (List.replicate n b ++ bits).foldl (· ||| ·) 0 = bits.foldl (· ||| ·) 0 := by
    induction n with
    | zero => rfl
    | succ n ih =>
      rw [List.replicate_succ, List.cons_append, List.foldl_cons, UInt8.zero_or, foldl_or, ih, same]
  rw [fromBits, union, fromBits]

/-- The nine values. -/
def Valid (bits : List Bit) : Prop := ∀ b ∈ bits, b.toNat < 9

/-- A vector fits the encoding that its bits ask for. -/
theorem fit_fromBits {bits : List Bit} (valid : Valid bits) : (fromBits bits).Fit bits := by
  intro b member
  have bound : b.toNat ≤ (bits.foldl (· ||| ·) 0).toNat := by
    rw [← or_foldl_of_mem member, UInt8.toNat_or]
    exact Nat.left_le_or
  rw [fromBits, fromUnion]
  split
  · exact Nat.lt_of_lt_of_le (valid b member) (by decide)
  next small =>
    rw [UInt8.not_le, UInt8.lt_iff_toNat_lt] at small
    split
    next least =>
      rw [UInt8.le_iff_toNat_le] at least
      exact Nat.lt_of_le_of_lt (bound.trans least) (by decide)
    next => exact Nat.lt_of_le_of_lt bound small

end States

end RWave.Wellen
