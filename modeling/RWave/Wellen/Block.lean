import RWave.Wellen.SignalRecords
import RWave.Wellen.WaveMem

/-!
# The signals of a block

What `finish_block` puts into a block for a signal is what `collect_signal_meta_data` takes out
again: the offsets cut the data where one signal ends and the next begins, and the number in front of
a signal's data tells how they were compressed.
-/

namespace RWave.Wellen

open RWave.Misc

/-! ## Meta-data -/

namespace SignalEncodingMetaData

/-- The lengths that meta-data can hold. -/
def Encodes (md : SignalEncodingMetaData) : Prop :=
  ∀ n, md.compression = .lz4 n → n < 2 ^ 32 ∧ n % signalDecompressedLenDiv = 0

/-- The number of compressed data is a sum of three parts. -/
theorem encode_lz4 {n : Nat} {states : States} (fits : Encodes ⟨.lz4 n, states⟩) :
    encode ⟨.lz4 n, states⟩ = n / 32 * 8 + (4 + states.toByte.toNat) := by
  obtain ⟨small, whole⟩ := fits n rfl
  simp only [signalDecompressedLenDiv] at whole
  have units : (n % 2 ^ 32 + (signalDecompressedLenDiv - 1)) / signalDecompressedLenDiv = n / 32 := by
    simp only [signalDecompressedLenDiv]
    omega
  have low : 1 <<< 2 ||| states.toByte.toNat = 4 + states.toByte.toNat := by
    cases states <;> rfl
  have small : 4 + states.toByte.toNat < 2 ^ 3 := by cases states <;> decide
  simp only [encode, units]
  rw [Nat.or_assoc, low, ← Nat.shiftLeft_add_eq_or_of_lt small, Nat.shiftLeft_eq]

theorem encode_lt {md : SignalEncodingMetaData} (fits : md.Encodes) : md.encode < 2 ^ 64 := by
  obtain ⟨compression, states⟩ := md
  have byte := states.toByte_lt
  cases compression with
  | none =>
    simp only [encode]
    omega
  | lz4 n =>
    have small := (fits n rfl).1
    rw [encode_lz4 fits]
    omega

theorem decode_encode {md : SignalEncodingMetaData} (fits : md.Encodes) :
    decode md.encode = some md := by
  obtain ⟨compression, states⟩ := md
  cases compression with
  | none => cases states <;> rfl
  | lz4 n =>
    obtain ⟨small, whole⟩ := fits n rfl
    simp only [signalDecompressedLenDiv] at whole
    have byte := states.toByte_lt
    have low : (n / 32 * 8 + (4 + states.toByte.toNat)) &&& 3 = states.toByte.toNat := by
      rw [Nat.and_two_pow_sub_one_eq_mod _ 2]
      omega
    have flag : (n / 32 * 8 + (4 + states.toByte.toNat)) >>> 2 &&& 1 = 1 := by
      rw [Nat.and_two_pow_sub_one_eq_mod _ 1, Nat.shiftRight_eq_div_pow]
      omega
    have high : ((n / 32 * 8 + (4 + states.toByte.toNat)) >>> 3 &&& (2 ^ 32 - 1)) % 2 ^ 32 *
        signalDecompressedLenDiv % 2 ^ 32 = n := by
      rw [Nat.and_two_pow_sub_one_eq_mod, Nat.shiftRight_eq_div_pow]
      simp only [signalDecompressedLenDiv]
      omega
    simp only [encode_lz4 fits, decode, low, flag, high, if_true, States.tryFromPrimitive_toByte]
    rfl

end SignalEncodingMetaData

/-! ## The data of a signal -/

variable {c : Crates}

/-- The data of a block's signal as they were before `finish`. -/
def uncompressed (c : Crates) (dataBlock : List UInt8) (md : SignalEncodingMetaData) :
    Option (List UInt8) :=
  match md.compression with
  | .lz4 uncompressedLen => c.decompress dataBlock uncompressedLen
  | .none => some dataBlock

theorem loadBlock_eq (tpe : SignalEncoding) (maxStates : States) (loaded : Loaded)
    (offset : Nat) (dataBlock : List UInt8) (md : SignalEncodingMetaData) :
    loadBlock c tpe maxStates loaded (offset, dataBlock, md) =
      (uncompressed c dataBlock md).bind fun data => loadData c tpe maxStates data offset loaded := by
  obtain ⟨compression, states⟩ := md
  cases compression <;> rfl

/-- What `finish` makes of data: nothing of no data, and else something that is not larger and holds
them. -/
theorem SignalEncoder.finish_spec {enc : SignalEncoder} (small : enc.data.length + 31 < 2 ^ 32) :
    (enc.data = [] ∧ enc.finish c = none) ∨
    ∃ dataBlock md, enc.finish c = some (dataBlock, md) ∧ enc.data ≠ [] ∧ md.Encodes ∧
      md.maxStates = enc.maxStates ∧ uncompressed c dataBlock md = some enc.data ∧
      dataBlock.length ≤ enc.data.length := by
  unfold finish
  by_cases empty : enc.data = []
  · exact .inl ⟨empty, by simp [empty]⟩
  · refine .inr ?_
    rw [if_neg (by simpa using empty)]
    split
    · exact ⟨_, _, rfl, empty, nofun, rfl, rfl, le_rfl⟩
    · dsimp only
      split
      · exact ⟨_, _, rfl, empty, nofun, rfl, rfl, le_rfl⟩
      next larger =>
        refine ⟨_, _, rfl, empty, ?_, rfl, ?_, by omega⟩
        · rintro n ⟨⟩
          simp only [signalDecompressedLenDiv]
          omega
        · refine c.decompress_compress _ _ ?_
          simp only [signalDecompressedLenDiv]
          omega

/-! ## The layout of a block -/

/-- What a signal adds to the data of a block. -/
def chunk (c : Crates) (signal : Option SignalEncoder) : List UInt8 :=
  match signal.bind (·.finish c) with
  | some (signalData, isCompressed) => c.leb128.write isCompressed.encode ++ signalData
  | none => []

theorem SignalDataOffset.new_eq {index : Nat} (small : index + 1 < 2 ^ 32) :
    SignalDataOffset.new index = some ⟨index + 1⟩ := by
  have same : index % 2 ^ 32 = index := Nat.mod_eq_of_lt (by omega)
  rw [SignalDataOffset.new, same]
  exact if_pos small

/-- Where the first of the signals begins, if there is one with data. -/
def firstOffset (offsets : List (Option SignalDataOffset)) (end_ : Nat) : Nat :=
  (offsets.findSome? fun o => o).elim end_ SignalDataOffset.getIndex

/-- The place of a signal's data, if it has any, by the offsets. -/
def locate (offsets : List (Option SignalDataOffset)) (end_ id : Nat) :
    Option (Option (Nat × Nat)) :=
  offsets[id]?.map fun offset => offset.map fun offset =>
    (offset.getIndex, firstOffset (offsets.drop (id + 1)) end_ - offset.getIndex)

theorem Block.getOffsetAndLength_eq (block : Block) (id : Nat) :
    block.getOffsetAndLength id = locate block.offsets block.data.length id := by
  unfold getOffsetAndLength locate
  cases block.offsets[id]? with
  | none => rfl
  | some offset => cases offset <;> rfl

/-- The signals' data lie in a row behind what was there before. -/
theorem finishSignals_spec (signals : List (Option SignalEncoder)) (data : List UInt8)
    (small : data.length + (signals.flatMap (chunk c)).length + 1 < 2 ^ 32) :
    ∃ offsets, Encoder.finishSignals c signals data =
        some (offsets, data ++ signals.flatMap (chunk c)) ∧
      firstOffset offsets (data ++ signals.flatMap (chunk c)).length = data.length ∧
      ∀ (id : Nat) (signal : Option SignalEncoder), signals[id]? = some signal →
        locate offsets (data ++ signals.flatMap (chunk c)).length id =
          some ((signal.bind (·.finish c)).map fun _ =>
            (data.length + ((signals.take id).flatMap (chunk c)).length,
              (chunk c signal).length)) := by
  induction signals generalizing data with
  | nil => exact ⟨[], by simp [Encoder.finishSignals], by simp [firstOffset], by simp⟩
  | cons signal signals ih =>
    rw [List.flatMap_cons, List.length_append] at small
    obtain ⟨offsets, rest, first, each⟩ := ih (data ++ chunk c signal) (by
      rw [List.length_append]
      omega)
    rw [List.append_assoc, ← List.flatMap_cons] at rest first
    simp only [List.append_assoc, ← List.flatMap_cons] at each
    have later (offset : Option SignalDataOffset) (id : Nat) (other : Option SignalEncoder)
        (found : signals[id]? = some other) :
        locate (offset :: offsets) (data ++ (signal :: signals).flatMap (chunk c)).length (id + 1) =
          some ((other.bind (·.finish c)).map fun _ =>
            (data.length + (((signal :: signals).take (id + 1)).flatMap (chunk c)).length,
              (chunk c other).length)) := by
      refine (each id other found).trans ?_
      rw [List.take_succ_cons, List.flatMap_cons, List.length_append, List.length_append,
        Nat.add_assoc]
    cases own : signal.bind (·.finish c) with
    | none =>
      have empty : chunk c signal = [] := by rw [chunk, own]
      rw [empty, List.append_nil] at rest first
      refine ⟨none :: offsets, ?_, first, ?_⟩
      · simp only [Encoder.finishSignals, own, rest]
        rfl
      · rintro (_ | id) other found
        · cases found
          rw [own]
          rfl
        · exact later none id other found
    | some finished =>
      have here : chunk c signal = c.leb128.write finished.2.encode ++ finished.1 := by
        rw [chunk, own]
      refine ⟨some ⟨data.length + 1⟩ :: offsets, ?_, rfl, ?_⟩
      · simp only [Encoder.finishSignals, own]
        rw [SignalDataOffset.new_eq (by omega), ← here, rest]
        rfl
      · rintro (_ | id) other found
        · cases found
          rw [own, locate, List.getElem?_cons_zero, List.drop_succ_cons, List.drop_zero, first,
            List.length_append, List.take_zero]
          simp [SignalDataOffset.getIndex]
        · exact later _ id other found

end RWave.Wellen
