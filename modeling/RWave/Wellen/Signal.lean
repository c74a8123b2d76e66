import RWave.Host
import RWave.Wellen.Value

/-!
# Signals in memory

`signal/mod.rs` of the vendored `wellen`, and the slots that `fst.rs` and `wavemem.rs` fill. The
values of a logic signal lie in slots of one length, each in the smallest encoding it fits in. Two
bits at the front of a slot say which that is; they share a byte with the value where there is room
for both, and have a byte of their own where there is none.
-/

namespace RWave.Wellen

open RWave.Misc

/-- `SignalEncoding`. A bit vector without bits is an event. -/
inductive SignalEncoding where
  | string
  | real
  | bitVector (width : Nat)
  deriving DecidableEq, Repr

/-- `BitVecRef`. -/
structure BitVecRef where
  states : States
  width : Nat
  data : List UInt8
  length_data : states.bytesRequired width = data.length

/-- `BitVecRef::new`, which asserts the length. -/
def BitVecRef.new (states : States) (width : Nat) (data : List UInt8) : Option BitVecRef :=
  if h : states.bytesRequired width = data.length then some ⟨states, width, data, h⟩ else none

/-- `BitVecRef::iter_msb_to_lsb`. -/
def BitVecRef.iterMsbToLsb (v : BitVecRef) : List Bit := v.states.iterMsbToLsb v.width v.data

/-- `SignalValueRef`. -/
inductive SignalValueRef where
  | event
  | bitVec (v : BitVecRef)
  | string (s : String)
  | real (r : F64)

/-! ## Slots -/

/-- `get_len_and_meta`: the bytes of a value, and whether its meta-data need one more. -/
def getLenAndMeta (states : States) (bits : Nat) : Nat × Bool :=
  (states.bytesRequired bits, states ≠ .two && bits % states.bitsInAByte = 0)

/-- `get_bytes_per_entry`. -/
def getBytesPerEntry (len : Nat) (hasMeta : Bool) : Nat := if hasMeta then len + 1 else len

/-- The slot of a value that is encoded as `buf`, in a signal of `signalStates`. -/
def slot (signalStates : States) (bits : Nat) (localEncoding : States) (buf : List UInt8) :
    List UInt8 :=
  let (len, hasMeta) := getLenAndMeta signalStates bits
  let metaData := localEncoding.toByte <<< 6
  let (localLen, localHasMeta) := getLenAndMeta localEncoding bits
  if localLen = len ∧ localHasMeta = hasMeta then
    -- same meta-data location and length as the maximum
    if hasMeta then metaData :: buf else (metaData ||| buf.headD 0) :: buf.tail
  else
    -- smaller encoding than the maximum
    metaData :: (List.replicate (if hasMeta then len - localLen else len - localLen - 1) 0 ++ buf)

/-- What `get_value_at` reads out of the slot of a bit vector. -/
def readSlot (maxStates : States) (width : Nat) (metaByte : Bool) (rawData : List UInt8) :
    Option BitVecRef :=
  let data := if metaByte then rawData.tail else rawData
  match maxStates with
  | .two => BitVecRef.new maxStates width data
  | .four | .nine => do
    let states ← States.tryFromPrimitive ((rawData.headD 0 >>> 6) &&& 0x3)
    BitVecRef.new states width (data.drop (data.length - states.bytesRequired width))

/-- `FixedWidthEncoding`. -/
inductive FixedWidthEncoding where
  | bitVector (maxStates : States) (width : Nat) (metaByte : Bool)
  | real
  | event
  deriving DecidableEq, Repr

/-- `SignalChangeData`. -/
inductive SignalChangeData where
  | fixedLength (encoding : FixedWidthEncoding) (bytesPerEntry : Nat) (bytes : List UInt8)
  | variableLength (strings : List String)

/-- `f64::to_le_bytes`. -/
def toLeBytes (r : F64) : List UInt8 :=
  (List.range 8).map fun i => (r.toBits.toNat / 256 ^ i).toUInt8

/-- `f64::from_le_bytes`, of eight bytes. -/
def fromLeBytes (bytes : List UInt8) : F64 :=
  ⟨(Nat.ofDigits 256 (bytes.map UInt8.toNat)).toUInt64⟩

/-- `get_value_at`. A slot that is not there is a panic. -/
def SignalChangeData.getValueAt (offset : Nat) : SignalChangeData → Option SignalValueRef
  | .fixedLength encoding bytesPerEntry bytes =>
    let start := offset * bytesPerEntry
    if start + bytesPerEntry ≤ bytes.length then
      let rawData := (bytes.drop start).take bytesPerEntry
      match encoding with
      | .event => some .event
      | .bitVector maxStates width metaByte =>
        (readSlot maxStates width metaByte rawData).map .bitVec
      | .real => some (.real (fromLeBytes rawData))
    else none
  | .variableLength strings => strings[offset]?.map .string

/-- `Signal`. -/
structure Signal where
  timeIndices : List Nat
  data : SignalChangeData

/-- `iter_changes`, all the way to the end. -/
def Signal.iterChanges (signal : Signal) : Option (List (Nat × SignalValueRef)) :=
  signal.timeIndices.zipIdx.mapM fun (timeIdx, offset) =>
    (signal.data.getValueAt offset).map fun value => (timeIdx, value)

/-! ## Reading a slot back -/

section Slot

variable {signalStates localEncoding : States} {bits : List Bit}

theorem BitVecRef.new_eq {states : States} {width : Nat} {data : List UInt8}
    (length : states.bytesRequired width = data.length) :
    BitVecRef.new states width data = some ⟨states, width, data, length⟩ :=
  dif_pos length

/-- Meta-data above the bits that a byte has are not read as bits. -/
theorem getBit_or_cons {m b : UInt8} {rest : List UInt8} {i : Nat}
    (clear : rest.length ≤ i / localEncoding.bitsInAByte →
      localEncoding.mask &&&
        (m >>> (i % localEncoding.bitsInAByte * localEncoding.bits).toUInt8) = 0) :
    localEncoding.getBit ((m ||| b) :: rest) i = localEncoding.getBit (b :: rest) i := by
  simp only [States.getBit, List.length_cons, Nat.add_sub_cancel]
  rcases Nat.lt_or_ge (i / localEncoding.bitsInAByte) rest.length with inside | first
  · obtain ⟨k, more⟩ := Nat.exists_eq_succ_of_ne_zero (Nat.sub_ne_zero_of_lt inside)
    rw [more, List.getD_cons_succ, List.getD_cons_succ]
  · apply UInt8.toNat_inj.mp
    rw [Nat.sub_eq_zero_of_le first, List.getD_cons_zero, List.getD_cons_zero, UInt8.shiftRight_or,
      UInt8.toNat_and, UInt8.toNat_or, Nat.and_or_distrib_left, ← UInt8.toNat_and, clear first,
      UInt8.toNat_zero, Nat.zero_or, ← UInt8.toNat_and]

/-- The two bits in front of a byte that leaves them free name the encoding. -/
theorem tryFromPrimitive_metaData {b : UInt8} (free : b.toNat < 64) :
    States.tryFromPrimitive (((localEncoding.toByte <<< 6 ||| b) >>> 6) &&& 0x3) =
      some localEncoding := by
  have low : b >>> 6 = 0 := by
    apply UInt8.toNat_inj.mp
    rw [UInt8.toNat_shiftRight]
    exact Nat.shiftRight_eq_zero _ _ free
  rw [UInt8.shiftRight_or, low, UInt8.or_zero]
  cases localEncoding <;> rfl

/-- Next to a value that does not fill its first byte there is room for meta-data. -/
theorem iterMsbToLsb_metaData {b : UInt8} {rest : List UInt8} (valid : States.Valid bits)
    (partly : States.fromBits bits = .two ∨
      bits.length % (States.fromBits bits).bitsInAByte ≠ 0)
    (packed : (States.fromBits bits).pack bits = b :: rest) :
    (States.fromBits bits).iterMsbToLsb bits.length
      (((States.fromBits bits).toByte <<< 6 ||| b) :: rest) = bits := by
  have whole := States.iterMsbToLsb_pack (States.fit_fromBits valid)
  have length := States.length_pack (States.fit_fromBits valid)
  rw [packed] at whole length
  refine Eq.trans ?_ whole
  apply List.map_congr_left
  intro i member
  rw [List.mem_reverse, List.mem_range] at member
  apply getBit_or_cons
  intro first
  generalize States.fromBits bits = states at *
  have below := Nat.mod_lt i (States.bitsInAByte_pos states)
  have cut := Nat.div_add_mod i states.bitsInAByte
  rw [States.bytesRequired_eq, List.length_cons] at length
  cases states with
  | two =>
    have zero : States.two.toByte <<< 6 = 0 := rfl
    rw [zero, UInt8.zero_shiftRight, UInt8.and_zero]
  | four =>
    have short : i % 4 = 0 ∨ i % 4 = 1 ∨ i % 4 = 2 := by
      simp only [States.bitsInAByte, States.bits, reduceCtorEq, false_or] at *
      omega
    simp only [States.bitsInAByte, States.bits]
    rcases short with place | place | place <;> rw [place] <;> rfl
  | nine =>
    have short : i % 2 = 0 := by
      simp only [States.bitsInAByte, States.bits, reduceCtorEq, false_or] at *
      omega
    simp only [States.bitsInAByte, States.bits]
    rw [short]
    rfl

/-- A value whose meta-data share its first byte leaves the bits for them free. -/
theorem pack_free {b : UInt8} {rest : List UInt8} (valid : States.Valid bits)
    (more : signalStates ≠ .two) (apart : bits.length % signalStates.bitsInAByte ≠ 0)
    (sameLength : (States.fromBits bits).bytesRequired bits.length =
      signalStates.bytesRequired bits.length)
    (partly : States.fromBits bits = .two ∨
      bits.length % (States.fromBits bits).bitsInAByte ≠ 0)
    (packed : (States.fromBits bits).pack bits = b :: rest) : b.toNat < 64 := by
  have fit := States.fit_fromBits valid
  have bytes := States.packFrom_toNat 0 fit (Nat.pow_pos (Nat.pow_pos (by decide)))
  rw [← States.pack, packed, List.map_cons, UInt8.toNat_zero] at bytes
  have below : ∀ d ∈ bits.map UInt8.toNat, d < 2 ^ (States.fromBits bits).bits := by
    intro d member
    obtain ⟨c, inside, rfl⟩ := List.mem_map.mp member
    exact fit c inside
  have head := @digitGroups_head_lt _ _ (States.bitsInAByte_pos (States.fromBits bits)) _
    (rest.map UInt8.toNat) b.toNat below
  rw [List.length_map] at head
  rw [States.bytesRequired_eq, States.bytesRequired_eq] at sameLength
  generalize States.fromBits bits = states at *
  cases states with
  | two =>
    have short : bits.length % 8 ≤ 3 ∧ bits.length % 8 ≠ 0 := by
      cases signalStates with
      | two => exact absurd rfl more
      | four => simp only [States.bitsInAByte, States.bits] at sameLength apart; omega
      | nine => simp only [States.bitsInAByte, States.bits] at sameLength apart; omega
    have small := head (by simpa only [States.bitsInAByte, States.bits] using short.2) bytes.symm
    refine small.trans_le ?_
    simp only [States.bitsInAByte, States.bits, pow_one]
    exact (Nat.pow_le_pow_right (by decide) short.1).trans (by decide)
  | four =>
    have filled := partly.resolve_left (by decide)
    refine (head filled bytes.symm).trans_le ?_
    simp only [States.bitsInAByte, States.bits] at filled ⊢
    have short : bits.length % 4 ≤ 3 := by omega
    exact (Nat.pow_le_pow_right (by decide) short).trans (by decide)
  | nine =>
    have filled := partly.resolve_left (by decide)
    refine (head filled bytes.symm).trans_le ?_
    simp only [States.bitsInAByte, States.bits] at filled ⊢
    have short : bits.length % 2 ≤ 1 := by omega
    exact (Nat.pow_le_pow_right (by decide) short).trans (by decide)

/-- A vector in the smallest encoding that it fits into. -/
def Smallest (v : BitVecRef) (bits : List Bit) : Prop :=
  v.states = States.fromBits bits ∧ v.width = bits.length ∧ v.iterMsbToLsb = bits

theorem readSlot_eq {width : Nat} {hasMeta : Bool} {rawData buf : List UInt8} (front : List UInt8)
    (more : signalStates ≠ .two) (whole : width = bits.length)
    (which : States.tryFromPrimitive ((rawData.headD 0 >>> 6) &&& 0x3) =
      some (States.fromBits bits))
    (data : (if hasMeta then rawData.tail else rawData) = front ++ buf)
    (length : (States.fromBits bits).bytesRequired width = buf.length)
    (same : (States.fromBits bits).iterMsbToLsb width buf = bits) :
    ∃ v, readSlot signalStates width hasMeta rawData = some v ∧ Smallest v bits := by
  have tail : (front ++ buf).drop ((front ++ buf).length -
      (States.fromBits bits).bytesRequired width) = buf := by
    rw [length, List.length_append, Nat.add_sub_cancel, List.drop_left]
  refine ⟨⟨States.fromBits bits, width, buf, length⟩, ?_, rfl, whole, same⟩
  unfold readSlot
  rw [data]
  cases signalStates with
  | two => exact absurd rfl more
  | four | nine =>
    simp only [which, Option.bind_eq_bind, Option.bind_some, tail]
    exact BitVecRef.new_eq length

theorem tryFromPrimitive_metaOnly (states : States) :
    States.tryFromPrimitive (((states.toByte <<< 6) >>> 6) &&& 0x3) = some states := by
  cases states <;> rfl

theorem exists_pack_cons (valid : States.Valid bits) (nonempty : bits ≠ []) :
    ∃ b rest, (States.fromBits bits).pack bits = b :: rest := by
  have width : 0 < bits.length := List.length_pos_iff.mpr nonempty
  apply List.exists_cons_of_length_pos
  rw [States.length_pack (States.fit_fromBits valid)]
  cases States.fromBits bits <;> simp only [States.bytesRequired, Nat.shiftRight_eq_div_pow] <;>
    omega

/-- A smaller encoding needs no more bytes. -/
theorem bytesRequired_le {states : States} (le : states.toByte ≤ signalStates.toByte)
    (width : Nat) : states.bytesRequired width ≤ signalStates.bytesRequired width := by
  cases states <;> cases signalStates <;>
    first
    | exact absurd le (by decide)
    | simp only [States.bytesRequired, Nat.shiftRight_eq_div_pow]; omega

/-- Where the signal's meta-data fit into the first byte and a value's do not, the value is shorter. -/
theorem bytesRequired_ne {states : States} {width : Nat} (le : states.toByte ≤ signalStates.toByte)
    (more : signalStates ≠ .two) (noMeta : (getLenAndMeta signalStates width).2 = false)
    (ownMeta : (getLenAndMeta states width).2 = true) :
    states.bytesRequired width ≠ signalStates.bytesRequired width := by
  intro sameLength
  rw [getLenAndMeta, Bool.and_eq_true, decide_eq_true_eq, decide_eq_true_eq] at ownMeta
  simp only [getLenAndMeta, Bool.and_eq_false_iff, decide_eq_false_iff_not, ne_eq, not_not] at noMeta
  have apart := noMeta.resolve_left more
  obtain ⟨other, full⟩ := ownMeta
  rw [States.bytesRequired_eq, States.bytesRequired_eq] at sameLength
  cases states <;> cases signalStates <;>
    first
    | exact other rfl
    | exact absurd le (by decide)
    | simp only [States.bitsInAByte, States.bits] at full apart; omega

/-- Data of the length that all slots of a signal have, and of which the value is read back. -/
def ReadsBack (signalStates : States) (bits : List Bit) (data : List UInt8) : Prop :=
  data.length = getBytesPerEntry (getLenAndMeta signalStates bits.length).1
      (getLenAndMeta signalStates bits.length).2 ∧
    ∃ v, readSlot signalStates bits.length (getLenAndMeta signalStates bits.length).2 data = some v ∧
      Smallest v bits

/-- A signal of two values has no meta-data. -/
theorem readsBack_two (valid : States.Valid bits) (nonempty : bits ≠ [])
    (two : States.fromBits bits = .two) :
    ReadsBack .two bits (slot .two bits.length (States.fromBits bits)
      ((States.fromBits bits).pack bits)) := by
  have length := States.length_pack (States.fit_fromBits valid)
  have whole := States.iterMsbToLsb_pack (States.fit_fromBits valid)
  obtain ⟨b, rest, packed⟩ := exists_pack_cons valid nonempty
  rw [two] at length whole packed ⊢
  have plain : slot .two bits.length .two (States.two.pack bits) = States.two.pack bits := by
    have unchanged : States.two.toByte <<< 6 ||| b = b := UInt8.zero_or
    rw [packed]
    simp only [slot, and_self, if_true, List.headD_cons, unchanged, List.tail_cons]
    rfl
  rw [plain]
  exact ⟨length, _, BitVecRef.new_eq length.symm, two.symm, rfl, whole⟩

/-- The meta-data are where the signal's widest values have them. -/
theorem readsBack_same (valid : States.Valid bits) (nonempty : bits ≠ [])
    (more : signalStates ≠ .two)
    (same : getLenAndMeta (States.fromBits bits) bits.length =
      getLenAndMeta signalStates bits.length) :
    ReadsBack signalStates bits (slot signalStates bits.length (States.fromBits bits)
      ((States.fromBits bits).pack bits)) := by
  have length := States.length_pack (States.fit_fromBits valid)
  have whole := States.iterMsbToLsb_pack (States.fit_fromBits valid)
  have sameLength : (States.fromBits bits).bytesRequired bits.length =
    signalStates.bytesRequired bits.length := congrArg Prod.fst same
  have which := tryFromPrimitive_metaOnly (States.fromBits bits)
  obtain ⟨b, rest, packed⟩ := exists_pack_cons valid nonempty
  rw [packed] at length whole ⊢
  simp only [ReadsBack, slot, same, and_self, if_true, getBytesPerEntry]
  cases needsMeta : (getLenAndMeta signalStates bits.length).2 with
  | true =>
    refine ⟨?_, readSlot_eq [] more rfl which rfl length.symm whole⟩
    rw [if_pos rfl, if_pos rfl, List.length_cons, length, sameLength]
    rfl
  | false =>
    have partly : States.fromBits bits = .two ∨
        bits.length % (States.fromBits bits).bitsInAByte ≠ 0 := by
      have own := (congrArg Prod.snd same).trans needsMeta
      simpa only [getLenAndMeta, Bool.and_eq_false_iff, decide_eq_false_iff_not, ne_eq, not_not]
        using own
    have apart : bits.length % signalStates.bitsInAByte ≠ 0 := by
      simp only [getLenAndMeta, Bool.and_eq_false_iff, decide_eq_false_iff_not, ne_eq, not_not]
        at needsMeta
      exact needsMeta.resolve_left more
    have free := pack_free valid more apart sameLength partly packed
    refine ⟨?_, readSlot_eq [] more rfl (tryFromPrimitive_metaData free) rfl
      length.symm (iterMsbToLsb_metaData valid partly packed)⟩
    rw [if_neg Bool.false_ne_true, if_neg Bool.false_ne_true]
    exact length.trans sameLength

/-- A value in a smaller encoding has a byte of meta-data and is filled up behind it. -/
theorem readsBack_smaller (valid : States.Valid bits) (nonempty : bits ≠ [])
    (more : signalStates ≠ .two) (le : (States.fromBits bits).toByte ≤ signalStates.toByte)
    (other : getLenAndMeta (States.fromBits bits) bits.length ≠
      getLenAndMeta signalStates bits.length) :
    ReadsBack signalStates bits (slot signalStates bits.length (States.fromBits bits)
      ((States.fromBits bits).pack bits)) := by
  have length := States.length_pack (States.fit_fromBits valid)
  have whole := States.iterMsbToLsb_pack (States.fit_fromBits valid)
  have shorter := bytesRequired_le le bits.length
  have which := tryFromPrimitive_metaOnly (States.fromBits bits)
  obtain ⟨b, rest, packed⟩ := exists_pack_cons valid nonempty
  rw [packed] at length whole ⊢
  have apart : ¬ ((getLenAndMeta (States.fromBits bits) bits.length).1 =
        (getLenAndMeta signalStates bits.length).1 ∧
      (getLenAndMeta (States.fromBits bits) bits.length).2 =
        (getLenAndMeta signalStates bits.length).2) := fun both => other (Prod.ext both.1 both.2)
  simp only [ReadsBack, slot, if_neg apart, getBytesPerEntry]
  cases needsMeta : (getLenAndMeta signalStates bits.length).2 with
  | true =>
    refine ⟨?_, readSlot_eq _ more rfl which rfl length.symm whole⟩
    simp only [getLenAndMeta, if_true, List.length_cons, List.length_append, List.length_replicate]
    rw [← length, List.length_cons] at shorter ⊢
    omega
  | false =>
    have strictly : (States.fromBits bits).bytesRequired bits.length <
        signalStates.bytesRequired bits.length := by
      refine Nat.lt_of_le_of_ne shorter fun sameLength => ?_
      refine bytesRequired_ne le more needsMeta (Bool.not_eq_false _ ▸ fun noMeta => ?_) sameLength
      exact apart ⟨sameLength, noMeta.trans needsMeta.symm⟩
    refine ⟨?_, readSlot_eq _ more rfl which (List.cons_append ..).symm length.symm whole⟩
    simp only [getLenAndMeta, Bool.false_eq_true, if_false, List.length_cons, List.length_append,
      List.length_replicate]
    rw [← length, List.length_cons] at strictly ⊢
    omega

/-- A value is read back from its slot, and all slots of a signal are equally long. -/
theorem readSlot_slot (valid : States.Valid bits) (nonempty : bits ≠ [])
    (le : (States.fromBits bits).toByte ≤ signalStates.toByte) :
    (slot signalStates bits.length (States.fromBits bits)
        ((States.fromBits bits).pack bits)).length =
      getBytesPerEntry (getLenAndMeta signalStates bits.length).1
        (getLenAndMeta signalStates bits.length).2 ∧
    ∃ v, readSlot signalStates bits.length (getLenAndMeta signalStates bits.length).2
      (slot signalStates bits.length (States.fromBits bits)
        ((States.fromBits bits).pack bits)) = some v ∧ Smallest v bits := by
  rcases eq_or_ne signalStates .two with rfl | more
  · have two : States.fromBits bits = .two := by
      cases own : States.fromBits bits with
      | two => rfl
      | four | nine => rw [own] at le; exact absurd le (by decide)
    exact readsBack_two valid nonempty two
  · by_cases same : getLenAndMeta (States.fromBits bits) bits.length =
      getLenAndMeta signalStates bits.length
    · exact readsBack_same valid nonempty more same
    · exact readsBack_smaller valid nonempty more le same

end Slot

end RWave.Wellen
