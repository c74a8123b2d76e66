import RWave.Misc.Deltas
import RWave.Misc.Runs
import RWave.Misc.Slices
import RWave.Wellen.SignalEncoder

/-!
# What a signal's bytes say

`VcdValue` is what the text of a change says. An encoder writes it as a record (`addVcdChange_eq`),
and the functions that load a block come past the changes that were written, in order, and keep
those that differ from the one kept before (`loadData_write`).
-/

namespace RWave.Wellen

open RWave.Misc

/-- What the text of a change says. -/
inductive VcdValue where
  | event
  | bits (bits : List Bit)
  | text (bytes : List UInt8)
  | real (r : F64)
  deriving DecidableEq

/-- What a loaded value says. -/
inductive SignalValue where
  | event
  | bits (bits : List Bit)
  | string (s : String)
  | real (r : F64)
  deriving DecidableEq

/-- The value behind the reference. -/
def SignalValueRef.value : SignalValueRef → SignalValue
  | .event => .event
  | .bitVec v => .bits v.iterMsbToLsb
  | .string s => .string s
  | .real r => .real r

namespace VcdValue

variable (c : Crates)

/-- The value of a text in a VCD, for a signal of the encoding. -/
def parse (tpe : SignalEncoding) (value : List UInt8) : Option VcdValue :=
  match tpe with
  | .bitVector 0 => some .event
  | .bitVector len => (vcdBits len value).map .bits
  | .string =>
    value.head?.bind fun first =>
      if first = ascii 's' ∨ first = ascii 'S' then some (.text value.tail) else none
  | .real =>
    value.head?.bind fun first =>
      if first = ascii 'r' ∨ first = ascii 'R' then (c.parseReal value.tail).map .real else none

/-- What is loaded of a value. -/
def value : VcdValue → SignalValue
  | .event => .event
  | .bits bs => .bits bs
  | .text bytes => .string (c.fromUtf8Lossy bytes)
  | .real r => .real r

/-- A value of a signal with the encoding. -/
def Of (tpe : SignalEncoding) (v : VcdValue) : Prop :=
  match tpe, v with
  | .bitVector 0, .event => True
  | .bitVector (len + 1), .bits bs => bs.length = len + 1 ∧ States.Valid bs
  | .string, .text _ => True
  | .real, .real _ => True
  | _, _ => False

/-- The encoding that a value needs. -/
def states : VcdValue → States
  | .bits bs => .fromBits bs
  | _ => .two

/-- The number in front of a record. -/
def head (timeIdxDelta : Nat) : VcdValue → Nat
  | .bits [bit] => (timeIdxDelta <<< 4) + bit.toNat
  | .bits bs => (timeIdxDelta <<< 2) ||| (States.fromBits bs).toByte.toNat
  | _ => timeIdxDelta

/-- The payload of a record. -/
def body : VcdValue → List UInt8
  | .event | .bits [_] => []
  | .bits bs => (States.fromBits bs).pack bs
  | .text bytes => c.leb128.write bytes.length ++ bytes
  | .real r => toLeBytes r

/-- The record of a change. -/
def write (d : Nat × VcdValue) : List UInt8 := c.leb128.write (d.2.head d.1) ++ d.2.body c

theorem parse_of {tpe : SignalEncoding} {text : List UInt8} {v : VcdValue}
    (found : parse c tpe text = some v) : v.Of tpe := by
  cases tpe with
  | string =>
    obtain ⟨first, -, rest⟩ := Option.bind_eq_some_iff.mp found
    split at rest
    · cases rest
      trivial
    · cases rest
  | real =>
    obtain ⟨first, -, rest⟩ := Option.bind_eq_some_iff.mp found
    split at rest
    · obtain ⟨r, -, rfl⟩ := Option.map_eq_some_iff.mp rest; trivial
    · cases rest
  | bitVector len =>
    cases len with
    | zero => cases found; trivial
    | succ len =>
      obtain ⟨bits, all, rfl⟩ := Option.map_eq_some_iff.mp found
      obtain ⟨⟨change, states⟩, decoded, same⟩ := Option.bind_eq_some_iff.mp all
      obtain ⟨bits', own, length, valid, -⟩ := decodeVcdBitVecChange_bits decoded
      cases own.symm.trans same
      exact ⟨length, valid⟩

end VcdValue

theorem States.join_two (states : States) : states.join .two = states := by cases states <;> rfl

theorem States.le_join_left (a b : States) : a.toByte ≤ (a.join b).toByte := by
  cases a <;> cases b <;> decide

theorem States.le_join_right (a b : States) : b.toByte ≤ (a.join b).toByte := by
  cases a <;> cases b <;> decide

/-- A change that is not a panic appends its record. -/
theorem SignalEncoder.addVcdChange_eq (c : Crates) (enc : SignalEncoder) (timeIndex : Nat)
    (text : List UInt8) :
    enc.addVcdChange c timeIndex text = (VcdValue.parse c enc.tpe text).map fun v =>
      { enc with
        data := enc.data ++ VcdValue.write c (timeIndex - enc.prevTimeIdx, v)
        prevTimeIdx := timeIndex
        maxStates := enc.maxStates.join v.states } := by
  obtain ⟨data, tpe, prev, maxStates⟩ := enc
  cases tpe with
  | string =>
    simp only [addVcdChange, VcdValue.parse]
    cases text.head? with
    | none => rfl
    | some first =>
      simp only [Option.bind_eq_bind, Option.bind_some]
      split
      · have two : (VcdValue.text text.tail).states = .two := rfl
        rw [Option.map_some, two, States.join_two]
        simp [VcdValue.write, VcdValue.head, VcdValue.body]
      · rfl
  | real =>
    simp only [addVcdChange, VcdValue.parse]
    cases text.head? with
    | none => rfl
    | some first =>
      simp only [Option.bind_eq_bind, Option.bind_some]
      split
      · cases c.parseReal text.tail with
        | none => rfl
        | some r =>
          have two : (VcdValue.real r).states = .two := rfl
          rw [Option.map_some, Option.map_some, two, States.join_two]
          rfl
      · rfl
  | bitVector len =>
    cases len with
    | zero =>
      simp only [addVcdChange, VcdValue.parse, Option.map_some, VcdValue.states, States.join_two]
      simp [VcdValue.write, VcdValue.head, VcdValue.body]
    | succ len =>
      simp only [addVcdChange, VcdValue.parse, vcdBits, Option.bind_eq_bind]
      cases decoded : decodeVcdBitVecChange (len + 1) text with
      | none => rfl
      | some change =>
        obtain ⟨change, states⟩ := change
        obtain ⟨bits, own, length, valid, rfl, one, more⟩ := decodeVcdBitVecChange_bits decoded
        simp only [Option.bind_some, own, Option.map_some]
        cases change with
        | singleBit bit =>
          cases own
          simp [VcdValue.write, VcdValue.head, VcdValue.body, VcdValue.states]
        | multiBit value =>
          have large := more value rfl
          have bytes : writeNStateFromAscii (States.fromBits bits) value none =
              some ((States.fromBits bits).pack bits) := by
            simp only [writeNStateFromAscii, VcdBitVecChange.bits] at own ⊢
            rw [own]
            rfl
          simp only [bytes]
          obtain ⟨a, b, rest, rfl⟩ : ∃ a b rest, bits = a :: b :: rest := by
            obtain ⟨a, bits, rfl⟩ := List.exists_cons_of_length_eq_add_one length
            rw [List.length_cons] at length
            obtain ⟨b, rest, rfl⟩ := List.exists_cons_of_length_pos (l := bits) (by omega)
            exact ⟨a, b, rest, rfl⟩
          rfl

/-! ## Records -/

section Records

variable (c : Crates)

/-- What fits into a record: the distance is one inside a block, and the payload is not larger than
a block may be. -/
def VcdValue.Fits (tpe : SignalEncoding) (d : Nat × VcdValue) : Prop :=
  d.2.Of tpe ∧ d.1 < 2 ^ 16 ∧ (d.2.body c).length < 2 ^ 32

/-- The part of a vector's record that the signal's encoding decides. -/
def VcdValue.entry (maxStates : States) : VcdValue → List UInt8
  | .bits bs => slot maxStates bs.length (States.fromBits bs) ((States.fromBits bs).pack bs)
  | .real r => toLeBytes r
  | _ => []

variable {c}

theorem States.toByte_lt (states : States) : states.toByte.toNat < 4 := by cases states <;> decide

theorem VcdValue.head_lt {tpe : SignalEncoding} {d : Nat × VcdValue} (of : d.2.Of tpe)
    (small : d.1 < 2 ^ 16) : d.2.head d.1 < c.leb128.bound := by
  obtain ⟨delta, v⟩ := d
  refine lt_of_lt_of_le ?_ c.leb128_bound
  cases v with
  | event | text bytes | real r => exact small.trans (by decide)
  | bits bs =>
    match tpe, bs, of with
    | .bitVector (len + 1), [b], of =>
      have bit := of.2 b (by simp)
      simp only [VcdValue.head, Nat.shiftLeft_eq]
      omega
    | .bitVector (len + 1), a :: b :: rest, of =>
      have states : (States.fromBits (a :: b :: rest)).toByte.toNat < 2 ^ 2 := States.toByte_lt _
      simp only [VcdValue.head]
      rw [← Nat.shiftLeft_add_eq_or_of_lt states, Nat.shiftLeft_eq]
      omega

/-- A record is not empty, and has its payload. -/
theorem VcdValue.length_write {tpe : SignalEncoding} {d : Nat × VcdValue} (of : d.2.Of tpe)
    (small : d.1 < 2 ^ 16) : (d.2.body c).length < (VcdValue.write c d).length := by
  have positive := List.length_pos_iff.mpr (c.leb128.write_ne_nil (VcdValue.head_lt of small))
  rw [VcdValue.write, List.length_append]
  omega

/-- The payload of a change is shorter than all the records. -/
theorem VcdValue.length_body {tpe : SignalEncoding} {changes : List (Nat × VcdValue)}
    (of : ∀ k ∈ changes, k.1 < 2 ^ 16 ∧ k.2.Of tpe) {k : Nat × VcdValue} (member : k ∈ changes) :
    (k.2.body c).length < ((deltas 0 changes).flatMap (VcdValue.write c)).length := by
  have same := List.mem_map_of_mem (f := Prod.snd) member
  rw [← map_snd_deltas 0] at same
  obtain ⟨d, inside, values⟩ := List.mem_map.mp same
  obtain ⟨small, -⟩ := mem_deltas (fun k inside => (of k inside).1) inside
  have isOf : d.2.Of tpe := values ▸ (of k member).2
  obtain ⟨i, found⟩ := List.mem_iff_getElem?.mp inside
  obtain ⟨room, -⟩ := slice_flatMap (f := VcdValue.write c) found
  have own := VcdValue.length_write (c := c) isOf small
  rw [values] at own
  omega

def eventRecord : c.leb128.Record eventPayload (Nat × VcdValue) where
  head d := d.2.head d.1
  body d := d.2.body c
  value d := (d.1, ())
  ok := VcdValue.Fits c (.bitVector 0)
  head_lt _ fits := VcdValue.head_lt fits.1 fits.2.1
  payload_body := by
    rintro ⟨delta, v⟩ ⟨of, small, -⟩ rest
    cases v with
    | event =>
      have same : delta % 2 ^ 32 = delta := Nat.mod_eq_of_lt (by omega)
      simp only [eventPayload, VcdValue.head, VcdValue.body, List.nil_append, same]
    | _ => cases of

theorem length_toLeBytes (r : F64) : (toLeBytes r).length = 8 := by simp [toLeBytes]

def realRecord : c.leb128.Record realPayload (Nat × VcdValue) where
  head d := d.2.head d.1
  body d := d.2.body c
  value d := (d.1, d.2.entry .two)
  ok := VcdValue.Fits c .real
  head_lt _ fits := VcdValue.head_lt fits.1 fits.2.1
  payload_body := by
    rintro ⟨delta, v⟩ ⟨of, small, -⟩ rest
    cases v with
    | real r =>
      have same : delta % 2 ^ 32 = delta := Nat.mod_eq_of_lt (by omega)
      have length := length_toLeBytes r
      simp only [realPayload, VcdValue.head, VcdValue.body, VcdValue.entry, same]
      rw [if_pos (by simp [length]), ← length, List.take_left, List.drop_left]
    | _ => cases of

/-- The string of a value, if it is one. -/
def VcdValue.string (c : Crates) : VcdValue → String
  | .text bytes => c.fromUtf8Lossy bytes
  | _ => ""

def stringRecord : c.leb128.Record (stringPayload c) (Nat × VcdValue) where
  head d := d.2.head d.1
  body d := d.2.body c
  value d := (d.1, d.2.string c)
  ok := VcdValue.Fits c .string
  head_lt _ fits := VcdValue.head_lt fits.1 fits.2.1
  payload_body := by
    rintro ⟨delta, v⟩ ⟨of, small, short⟩ rest
    cases v with
    | text bytes =>
      have same : delta % 2 ^ 32 = delta := Nat.mod_eq_of_lt (by omega)
      have length : bytes.length < c.leb128.bound := by
        refine lt_of_lt_of_le ?_ c.leb128_bound
        simp only [VcdValue.body, List.length_append] at short
        omega
      simp only [stringPayload, VcdValue.head, VcdValue.body, same, List.append_assoc]
      rw [c.leb128.read_write _ length]
      simp [VcdValue.string]
    | _ => cases of

theorem States.fromBit_eq {b : Bit} (valid : b.toNat < 9) :
    States.fromBit b = some (States.fromBits [b]) := by
  obtain ⟨states, found⟩ : ∃ states, States.fromBit b = some states := by
    unfold States.fromBit
    split
    · exact ⟨_, rfl⟩
    · split
      · exact ⟨_, rfl⟩
      · exact ⟨_, if_pos valid⟩
  rw [found, fromBits_singleton found]

theorem States.tryFromPrimitive_toByte (states : States) :
    States.tryFromPrimitive states.toByte.toNat.toUInt8 = some states := by cases states <;> rfl

/-- A number made of two parts, taken apart again. -/
theorem shift_parts (high low width : Nat) (small : low < 2 ^ width)
    (fits : high * 2 ^ width + low < 2 ^ 32) :
    ((high <<< width ||| low) % 2 ^ 32) &&& (2 ^ width - 1) = low ∧
      ((high <<< width ||| low) % 2 ^ 32) >>> width = high := by
  rw [← Nat.shiftLeft_add_eq_or_of_lt small, Nat.shiftLeft_eq, Nat.mod_eq_of_lt fits,
    Nat.and_two_pow_sub_one_eq_mod, Nat.shiftRight_eq_div_pow, Nat.mul_comm]
  refine ⟨?_, ?_⟩
  · rw [Nat.mul_add_mod, Nat.mod_eq_of_lt small]
  · rw [Nat.mul_add_div (Nat.two_pow_pos width), Nat.div_eq_of_lt small, Nat.add_zero]

/-- The slot of a single bit is one byte. -/
theorem VcdValue.entry_one (maxStates : States) (b : Bit) :
    (VcdValue.bits [b]).entry maxStates = [b ||| (States.fromBits [b]).toByte <<< 6] := by
  have packed (states : States) : states.pack [b] = [b] := by
    simp [States.pack, States.packFrom]
  simp only [VcdValue.entry, packed, slot, List.length_singleton, List.headD_cons, List.tail_cons]
  rw [UInt8.or_comm]
  cases maxStates <;> cases States.fromBits [b] <;> rfl

def fixedLenRecord (len : Nat) (signalStates : States) :
    c.leb128.Record (fixedLenPayload (len + 1) signalStates) (Nat × VcdValue) where
  head d := d.2.head d.1
  body d := d.2.body c
  value d := (d.1, d.2.entry signalStates)
  ok := VcdValue.Fits c (.bitVector (len + 1))
  head_lt _ fits := VcdValue.head_lt fits.1 fits.2.1
  payload_body := by
    rintro ⟨delta, v⟩ ⟨of, small, -⟩ rest
    cases v with
    | bits bs =>
      match bs, of with
      | [b], ⟨length, valid⟩ =>
        have bit := valid b (by simp)
        have one : len + 1 = 1 := length.symm
        obtain ⟨low, high⟩ := shift_parts delta b.toNat 4 (by omega)
          (by omega)
        rw [← Nat.shiftLeft_add_eq_or_of_lt (by omega)] at low high
        have mask : 2 ^ 4 - 1 = 0xf := rfl
        rw [mask] at low
        simp only [fixedLenPayload, if_pos one, VcdValue.head, VcdValue.body, low, high,
          List.nil_append, VcdValue.entry_one signalStates b]
        rw [show b.toNat.toUInt8 = b from UInt8.ofNat_toNat, States.fromBit_eq bit]
        rfl
      | a :: b :: rest', ⟨length, valid⟩ =>
        have more : (a :: b :: rest').length ≠ 1 := by simp
        have states := (States.fromBits (a :: b :: rest')).toByte_lt
        have own := States.length_pack (States.fit_fromBits valid)
        obtain ⟨low, high⟩ := shift_parts delta _ 2 states (by omega)
        have mask : 2 ^ 2 - 1 = 0x3 := rfl
        rw [mask] at low
        simp only [fixedLenPayload, ← length, if_neg more, VcdValue.head, VcdValue.body, low, high,
          States.tryFromPrimitive_toByte, Option.bind_eq_bind, Option.bind_some]
        rw [← own, if_pos (by simp), List.take_left, List.drop_left]
        rfl
    | _ => cases of

end Records

/-! ## Loading -/

section Load

variable (c : Crates) (maxStates : States)

/-- Two changes in a row are two changes. An event always is one. -/
def Differ (a b : Nat × VcdValue) : Prop := a.2.value c ≠ b.2.value c ∨ b.2 = .event

instance : DecidableRel (Differ c) := fun _ _ => inferInstanceAs (Decidable (_ ∨ _))

/-- The strings of a value. -/
def VcdValue.strings : VcdValue → List String
  | .text bytes => [c.fromUtf8Lossy bytes]
  | _ => []

/-- What is loaded when these changes are kept. -/
def Loaded.of (kept : List (Nat × VcdValue)) : Loaded where
  timeIndices := kept.map Prod.fst
  dataBytes := kept.flatMap fun k => k.2.entry maxStates
  strings := kept.flatMap fun k => k.2.strings c

/-- A value of a signal with the encoding, among those that need no more than `maxStates`. -/
def VcdValue.In (tpe : SignalEncoding) (v : VcdValue) : Prop :=
  v.Of tpe ∧ v.states.toByte ≤ maxStates.toByte

variable {c maxStates}

theorem push_event (kept : List (Nat × VcdValue)) (t : Nat) :
    (Loaded.of c maxStates kept).push (fun loaded (_ : Unit) => (true, loaded)) (t, ()) =
      Loaded.of c maxStates (destutterStep (Differ c) kept (t, .event)) := by
  have whole : destutterStep (Differ c) kept (t, .event) = kept ++ [(t, .event)] := by
    rcases List.eq_nil_or_concat' kept with rfl | ⟨init, last, rfl⟩
    · rfl
    · rw [destutterStep_concat, if_pos (.inr rfl)]
  rw [whole]
  simp [Loaded.push, Loaded.of, VcdValue.entry, VcdValue.strings]

theorem push_string {kept : List (Nat × VcdValue)} {t : Nat} {bytes : List UInt8}
    (of : ∀ k ∈ kept, k.2.Of .string) :
    (Loaded.of c maxStates kept).push
        (fun loaded strValue =>
          let changed := loaded.strings.getLast? ≠ some strValue
          (changed,
            if changed then { loaded with strings := loaded.strings ++ [strValue] } else loaded))
        (t, c.fromUtf8Lossy bytes) =
      Loaded.of c maxStates (destutterStep (Differ c) kept (t, .text bytes)) := by
  rcases List.eq_nil_or_concat' kept with rfl | ⟨init, last, rfl⟩
  · simp [Loaded.push, Loaded.of, VcdValue.entry, VcdValue.strings, destutterStep]
  · obtain ⟨lastT, lastV⟩ := last
    have lastOf := of (lastT, lastV) (by simp)
    cases lastV with
    | text lastBytes =>
      have same : Differ c (lastT, .text lastBytes) (t, .text bytes) ↔
          c.fromUtf8Lossy lastBytes ≠ c.fromUtf8Lossy bytes := by simp [Differ, VcdValue.value]
      rw [destutterStep_concat]
      by_cases differ : c.fromUtf8Lossy lastBytes = c.fromUtf8Lossy bytes
      · rw [if_neg (same.not.mpr (not_not.mpr differ))]
        simp [Loaded.push, Loaded.of, VcdValue.entry, VcdValue.strings, differ]
      · rw [if_pos (same.mpr differ)]
        simp [Loaded.push, Loaded.of, VcdValue.entry, VcdValue.strings, differ]
    | _ => cases lastOf

theorem fromLeBytes_toLeBytes (r : F64) : fromLeBytes (toLeBytes r) = r := by
  have digits : (toLeBytes r).map UInt8.toNat =
      (List.range 8).map fun i => r.toBits.toNat / 256 ^ i % 256 := by
    rw [toLeBytes, List.map_map]
    rfl
  have whole : r.toBits.toNat % 256 ^ 8 = r.toBits.toNat := Nat.mod_eq_of_lt r.toBits.toNat_lt
  rw [fromLeBytes, digits, ofDigits_div_pow, whole]
  exact congrArg F64.mk UInt64.ofNat_toNat

theorem toLeBytes_inj {r s : F64} : toLeBytes r = toLeBytes s ↔ r = s :=
  ⟨fun same => by rw [← fromLeBytes_toLeBytes r, same, fromLeBytes_toLeBytes], congrArg toLeBytes⟩

theorem push_real {kept : List (Nat × VcdValue)} {t : Nat} {r : F64}
    (of : ∀ k ∈ kept, k.2.Of .real) :
    (Loaded.of c maxStates kept).push
        (fun loaded buf =>
          let out := loaded.dataBytes
          let changed := out.isEmpty || out.drop (out.length - 8) ≠ buf
          (changed, if changed then { loaded with dataBytes := out ++ buf } else loaded))
        (t, toLeBytes r) =
      Loaded.of c maxStates (destutterStep (Differ c) kept (t, .real r)) := by
  rcases List.eq_nil_or_concat' kept with rfl | ⟨init, last, rfl⟩
  · simp [Loaded.push, Loaded.of, VcdValue.entry, VcdValue.strings, destutterStep]
  · obtain ⟨lastT, lastV⟩ := last
    have lastOf := of (lastT, lastV) (by simp)
    cases lastV with
    | real s =>
      have same : Differ c (lastT, .real s) (t, .real r) ↔ s ≠ r := by simp [Differ, VcdValue.value]
      have length := length_toLeBytes s
      have nonempty : toLeBytes s ≠ [] := List.ne_nil_of_length_eq_add_one length
      rw [destutterStep_concat]
      by_cases differ : s = r
      · rw [if_neg (same.not.mpr (not_not.mpr differ)), ← differ]
        simp [Loaded.push, Loaded.of, VcdValue.entry, VcdValue.strings, length, nonempty]
      · rw [if_pos (same.mpr differ)]
        simp [Loaded.push, Loaded.of, VcdValue.entry, VcdValue.strings, length, toLeBytes_inj,
          differ]
    | _ => cases lastOf

theorem checkIfChangedAndTruncate_first {n : Nat} {entry : List UInt8} (positive : 0 < n)
    (length : entry.length = n) : checkIfChangedAndTruncate n entry = (true, entry) := by
  have short : entry.length < 2 * n := by omega
  simp [checkIfChangedAndTruncate, short]

/-- An entry behind an equal one is taken away again. -/
theorem checkIfChangedAndTruncate_concat {n : Nat} (out : List UInt8) {last entry : List UInt8}
    (length : last.length = n) (length' : entry.length = n) :
    checkIfChangedAndTruncate n (out ++ last ++ entry) =
      if last = entry then (false, out ++ last) else (true, out ++ last ++ entry) := by
  have long : ¬ (out ++ last ++ entry).length < 2 * n := by
    simp only [List.length_append]
    omega
  have front : (out ++ last ++ entry).length - 2 * n = out.length := by
    simp only [List.length_append]
    omega
  have middle : (out ++ last ++ entry).length - n = (out ++ last).length := by
    simp only [List.length_append]
    omega
  have prev : ((out ++ last ++ entry).drop out.length).take n = last := by
    rw [List.append_assoc, List.drop_left, ← length, List.take_left]
  have new : (out ++ last ++ entry).drop (out ++ last).length = entry := List.drop_left
  have before : (out ++ last ++ entry).take (out ++ last).length = out ++ last := List.take_left
  simp only [checkIfChangedAndTruncate, front, middle, prev, new, before, long, decide_false,
    Bool.false_or]
  by_cases same : last = entry <;> simp [same]

/-- The slots of a signal are equally long, and tell the values apart. -/
theorem entry_bits {len : Nat} {bs : List Bit}
    (inside : (VcdValue.bits bs).In maxStates (.bitVector (len + 1))) :
    ((VcdValue.bits bs).entry maxStates).length = getBytesPerEntry
        (getLenAndMeta maxStates (len + 1)).1 (getLenAndMeta maxStates (len + 1)).2 ∧
      ∃ v, readSlot maxStates (len + 1) (getLenAndMeta maxStates (len + 1)).2
        ((VcdValue.bits bs).entry maxStates) = some v ∧ Smallest v bs := by
  obtain ⟨⟨length, valid⟩, le⟩ := inside
  rw [← length]
  exact readSlot_slot valid (List.ne_nil_of_length_eq_add_one length) le

theorem entry_pos {len : Nat} {bs : List Bit}
    (inside : (VcdValue.bits bs).In maxStates (.bitVector (len + 1))) :
    0 < ((VcdValue.bits bs).entry maxStates).length := by
  have bytes : 0 < (getLenAndMeta maxStates (len + 1)).1 := by
    cases maxStates <;>
      simp only [getLenAndMeta, States.bytesRequired, Nat.shiftRight_eq_div_pow] <;> omega
  rw [(entry_bits inside).1, getBytesPerEntry]
  split <;> omega

theorem entry_bits_inj {len : Nat} {bs bs' : List Bit}
    (inside : (VcdValue.bits bs).In maxStates (.bitVector (len + 1)))
    (inside' : (VcdValue.bits bs').In maxStates (.bitVector (len + 1))) :
    (VcdValue.bits bs).entry maxStates = (VcdValue.bits bs').entry maxStates ↔ bs = bs' := by
  refine ⟨fun same => ?_, fun same => by rw [same]⟩
  obtain ⟨v, read, -, -, own⟩ := (entry_bits inside).2
  obtain ⟨v', read', -, -, own'⟩ := (entry_bits inside').2
  rw [same, read'] at read
  cases read
  exact own.symm.trans own'

theorem push_bits {len : Nat} {kept : List (Nat × VcdValue)} {t : Nat} {bs : List Bit}
    (of : ∀ k ∈ kept, k.2.In maxStates (.bitVector (len + 1)))
    (inside : (VcdValue.bits bs).In maxStates (.bitVector (len + 1))) :
    (Loaded.of c maxStates kept).push
        (fun loaded entry =>
          let (changed, out) := checkIfChangedAndTruncate
            (getBytesPerEntry (getLenAndMeta maxStates (len + 1)).1
              (getLenAndMeta maxStates (len + 1)).2) (loaded.dataBytes ++ entry)
          (changed, { loaded with dataBytes := out }))
        (t, (VcdValue.bits bs).entry maxStates) =
      Loaded.of c maxStates (destutterStep (Differ c) kept (t, .bits bs)) := by
  have length := (entry_bits inside).1
  generalize getBytesPerEntry (getLenAndMeta maxStates (len + 1)).1
    (getLenAndMeta maxStates (len + 1)).2 = n at length ⊢
  rcases List.eq_nil_or_concat' kept with rfl | ⟨init, last, rfl⟩
  · have first := checkIfChangedAndTruncate_first (entry_pos inside) rfl
    rw [length] at first
    simp [Loaded.push, Loaded.of, first, VcdValue.strings, destutterStep]
  · obtain ⟨lastT, lastV⟩ := last
    have lastIn := of (lastT, lastV) (by simp)
    cases lastV with
    | bits bs' =>
      have same : Differ c (lastT, .bits bs') (t, .bits bs) ↔ bs' ≠ bs := by
        simp [Differ, VcdValue.value]
      have lastLength : ((VcdValue.bits bs').entry maxStates).length = n :=
        (entry_bits lastIn).1.trans ((entry_bits inside).1.symm.trans length)
      have check := checkIfChangedAndTruncate_concat
        (init.flatMap fun k => k.2.entry maxStates) lastLength length
      have values := entry_bits_inj lastIn inside
      rw [destutterStep_concat]
      by_cases differ : bs' = bs
      · rw [if_neg (same.not.mpr (not_not.mpr differ))]
        rw [if_pos (values.mpr differ)] at check
        simp only [List.append_assoc] at check
        simp [Loaded.push, Loaded.of, VcdValue.strings, check]
      · rw [if_pos (same.mpr differ)]
        rw [if_neg (values.not.mpr differ)] at check
        simp only [List.append_assoc] at check
        simp [Loaded.push, Loaded.of, VcdValue.strings, check]
    | _ => cases lastIn.1

theorem loadLoop_write {α : Type} {payload : Nat → List UInt8 → Option ((Nat × α) × List UInt8)}
    {append : Loaded → α → Bool × Loaded} (record : c.leb128.Record payload (Nat × VcdValue))
    (entry : VcdValue → α) (value : ∀ d, record.value d = (d.1, entry d.2))
    {changes : List (Nat × VcdValue)} {offset : Nat} (ok : ∀ d ∈ deltas 0 changes, record.ok d)
    (ordered : (changes.map Prod.fst).Pairwise (· ≤ ·))
    (below : ∀ k ∈ changes, offset + k.1 < 2 ^ 32) (loaded : Loaded) :
    loadLoop c payload append ((deltas 0 changes).flatMap record.write) offset loaded =
      some ((changes.map fun k => (offset + k.1, k.2)).foldl
        (fun loaded k => loaded.push append (k.1, entry k.2)) loaded) := by
  have ascending : (0 :: changes.map Prod.fst).Pairwise (· ≤ ·) :=
    List.pairwise_cons.mpr ⟨fun _ _ => Nat.zero_le _, ordered⟩
  rw [loadLoop, PrefixCode.readRecords_write record _ ok le_rfl, Option.map_some]
  simp only [value]
  exact congrArg (fun state => some state.2)
    (foldl_deltas (fun loaded k => Loaded.push append loaded (k.1, entry k.2)) ascending below loaded)

/-- Going through the changes keeps those that differ from the one kept before. -/
theorem foldl_push {α : Type} {append : Loaded → α → Bool × Loaded} (entry : VcdValue → α)
    {ok : VcdValue → Prop}
    (step : ∀ kept : List (Nat × VcdValue), (∀ k ∈ kept, ok k.2) → ∀ t v, ok v →
      (Loaded.of c maxStates kept).push append (t, entry v) =
        Loaded.of c maxStates (destutterStep (Differ c) kept (t, v)))
    {kept changes : List (Nat × VcdValue)} (before : ∀ k ∈ kept, ok k.2)
    (here : ∀ k ∈ changes, ok k.2) :
    changes.foldl (fun loaded k => loaded.push append (k.1, entry k.2))
        (Loaded.of c maxStates kept) =
      Loaded.of c maxStates (changes.foldl (destutterStep (Differ c)) kept) := by
  induction changes generalizing kept with
  | nil => rfl
  | cons k changes ih =>
    have first := here k List.mem_cons_self
    rw [List.foldl_cons, List.foldl_cons, step kept before k.1 k.2 first]
    refine ih (fun k' member => ?_) fun k' member => here k' (.tail _ member)
    rcases mem_destutterStep member with old | rfl
    · exact before k' old
    · exact first

/-- The data of a block are loaded as the changes that were written. -/
theorem loadData_write {tpe : SignalEncoding} {kept changes : List (Nat × VcdValue)} {offset : Nat}
    (before : ∀ k ∈ kept, k.2.In maxStates tpe)
    (fits : ∀ k ∈ changes, k.1 < 2 ^ 16 ∧ k.2.In maxStates tpe ∧ (k.2.body c).length < 2 ^ 32)
    (ordered : (changes.map Prod.fst).Pairwise (· ≤ ·))
    (below : ∀ k ∈ changes, offset + k.1 < 2 ^ 32) :
    loadData c tpe maxStates ((deltas 0 changes).flatMap (VcdValue.write c)) offset
        (Loaded.of c maxStates kept) =
      some (Loaded.of c maxStates ((changes.map fun k => (offset + k.1, k.2)).foldl
        (destutterStep (Differ c)) kept)) := by
  have here : ∀ k ∈ changes.map fun k => (offset + k.1, k.2), k.2.In maxStates tpe := by
    intro k member
    obtain ⟨k', inside, rfl⟩ := List.mem_map.mp member
    exact (fits k' inside).2.1
  have ok : ∀ d ∈ deltas 0 changes, VcdValue.Fits c tpe d := by
    intro d member
    obtain ⟨small, k, inside, same⟩ := mem_deltas (fun k inside => (fits k inside).1) member
    have own := (fits k inside).2
    rw [same] at own
    exact ⟨own.1.1, small, own.2⟩
  match tpe, before, here, ok with
  | .string, before, here, ok =>
    refine (loadLoop_write stringRecord (VcdValue.string c) (fun _ => rfl) ok ordered below _).trans ?_
    refine congrArg some (foldl_push (VcdValue.string c) ?_ before here)
    intro kept all t v own
    cases v with
    | text bytes => exact push_string fun k member => (all k member).1
    | _ => cases own.1
  | .real, before, here, ok =>
    refine (loadLoop_write realRecord (VcdValue.entry .two) (fun _ => rfl) ok ordered below _).trans ?_
    refine congrArg some (foldl_push (VcdValue.entry .two) ?_ before here)
    intro kept all t v own
    cases v with
    | real r => exact push_real fun k member => (all k member).1
    | _ => cases own.1
  | .bitVector 0, before, here, ok =>
    refine (loadLoop_write eventRecord (fun _ => ()) (fun _ => rfl) ok ordered below _).trans ?_
    refine congrArg some (foldl_push (fun _ => ()) ?_ before here)
    intro kept all t v own
    cases v with
    | event => exact push_event kept t
    | _ => cases own.1
  | .bitVector (len + 1), before, here, ok =>
    refine (loadLoop_write (fixedLenRecord len maxStates) (VcdValue.entry maxStates)
      (fun _ => rfl) ok ordered below _).trans ?_
    refine congrArg some (foldl_push (VcdValue.entry maxStates) ?_ before here)
    intro kept all t v own
    cases v with
    | bits bs => exact push_bits all own
    | _ => cases own.1

theorem iterChanges_of {valueAt : Nat → Option SignalValueRef} {kept : List (Nat × VcdValue)}
    (first : Nat)
    (found : ∀ i k, kept[i]? = some k →
      ∃ v, valueAt (first + i) = some v ∧ v.value = k.2.value c) :
    ∃ changes, ((kept.map Prod.fst).zipIdx first).mapM
        (fun (timeIdx, offset) => (valueAt offset).map fun value => (timeIdx, value)) = some changes ∧
      changes.map (fun k => (k.1, k.2.value)) = kept.map fun k => (k.1, k.2.value c) := by
  induction kept generalizing first with
  | nil => exact ⟨[], rfl, rfl⟩
  | cons k kept ih =>
    obtain ⟨v, here, same⟩ := found 0 k rfl
    obtain ⟨changes, rest, values⟩ := ih (first + 1) fun i k' inside => by
      rw [Nat.add_assoc, Nat.add_comm 1 i]
      exact found (i + 1) k' inside
    refine ⟨(k.1, v) :: changes, ?_, ?_⟩
    · rw [Nat.add_zero] at here
      rw [List.map_cons, List.zipIdx_cons, List.mapM_cons, rest]
      simp only [here, Option.map_some]
      rfl
    · rw [List.map_cons, List.map_cons, values, same]

/-- The signal that is loaded has the changes that were kept. -/
theorem loadCompressedSignal_of (md : SignalMetaData) {tpe : SignalEncoding}
    {kept : List (Nat × VcdValue)} (inside : ∀ k ∈ kept, k.2.In md.maxStates tpe)
    (folded : md.blocks.foldlM (loadBlock c tpe md.maxStates) ⟨[], [], []⟩ =
      some (Loaded.of c md.maxStates kept)) :
    ∃ signal changes, loadCompressedSignal c md tpe = some signal ∧
      signal.iterChanges = some changes ∧
      changes.map (fun k => (k.1, k.2.value)) = kept.map fun k => (k.1, k.2.value c) := by
  obtain ⟨data, loaded, values⟩ : ∃ data,
      loadCompressedSignal c md tpe = some ⟨kept.map Prod.fst, data⟩ ∧
      ∀ i k, kept[i]? = some k → ∃ v, data.getValueAt i = some v ∧ v.value = k.2.value c := by
    rw [loadCompressedSignal, folded]
    simp only [Option.bind_eq_bind, Option.bind_some]
    match tpe, inside with
    | .string, inside =>
      have strings : (Loaded.of c md.maxStates kept).strings = kept.map fun k => k.2.string c := by
        rw [List.map_eq_flatMap]
        refine List.flatMap_congr fun k member => ?_
        obtain ⟨t, v⟩ := k
        cases v with
        | text bytes => rfl
        | _ => cases (inside _ member).1
      refine ⟨_, if_pos (by rw [strings]; simp [Loaded.of]), fun i k found => ?_⟩
      refine ⟨.string (k.2.string c), ?_, ?_⟩
      · rw [strings]
        simp [SignalChangeData.getValueAt, found]
      · obtain ⟨t, v⟩ := k
        cases v with
        | text bytes => rfl
        | _ => cases (inside _ (List.mem_of_getElem? found)).1
    | .real, inside =>
      refine ⟨_, rfl, fun i k found => ?_⟩
      have length : ∀ k ∈ kept, (k.2.entry md.maxStates).length = 8 := by
        rintro ⟨t, v⟩ member
        cases v with
        | real r => exact length_toLeBytes r
        | _ => cases (inside _ member).1
      obtain ⟨room, raw⟩ := slice_flatMap_equal length found
      refine ⟨.real (fromLeBytes (k.2.entry md.maxStates)), ?_, ?_⟩
      · simp only [SignalChangeData.getValueAt, Loaded.of, if_pos room, raw]
      · obtain ⟨t, v⟩ := k
        cases v with
        | real r => exact congrArg SignalValue.real (fromLeBytes_toLeBytes r)
        | _ => cases (inside _ (List.mem_of_getElem? found)).1
    | .bitVector 0, inside =>
      refine ⟨_, rfl, fun i k found => ⟨.event, by simp [SignalChangeData.getValueAt], ?_⟩⟩
      obtain ⟨t, v⟩ := k
      cases v with
      | event => rfl
      | _ => cases (inside _ (List.mem_of_getElem? found)).1
    | .bitVector (len + 1), inside =>
      refine ⟨_, rfl, fun i k found => ?_⟩
      have length : ∀ k ∈ kept, (k.2.entry md.maxStates).length = getBytesPerEntry
          (getLenAndMeta md.maxStates (len + 1)).1 (getLenAndMeta md.maxStates (len + 1)).2 := by
        rintro ⟨t, v⟩ member
        cases v with
        | bits bs => exact (entry_bits (inside _ member)).1
        | _ => cases (inside _ member).1
      obtain ⟨room, raw⟩ := slice_flatMap_equal length found
      obtain ⟨t, v⟩ := k
      have own := inside _ (List.mem_of_getElem? found)
      cases v with
      | bits bs =>
        obtain ⟨v, read, -, -, same⟩ := (entry_bits own).2
        refine ⟨.bitVec v, ?_, congrArg SignalValue.bits same⟩
        simp only [SignalChangeData.getValueAt, Loaded.of, if_pos room, raw, read, Option.map_some]
      | _ => cases own.1
  obtain ⟨changes, all, same⟩ := iterChanges_of 0 fun i k found => by
    rw [Nat.zero_add]
    exact values i k found
  exact ⟨_, changes, loaded, all, same⟩

end Load

end RWave.Wellen
