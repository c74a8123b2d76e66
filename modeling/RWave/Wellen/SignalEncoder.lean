import RWave.Misc.Leb128
import RWave.Wellen.Signal
import RWave.Wellen.VcdValue

/-!
# One signal's changes as bytes

The `SignalEncoder` of the vendored `wellen`'s `wavemem.rs` and the functions that load what it has
written. A change is a number and a payload. The number holds the distance in time indices to the
change before it, and for a logic vector also the encoding of the payload, or for a single bit the
value itself.
-/

namespace RWave.Wellen

open RWave.Misc

/-- What the store takes from the crates `leb128` and `lz4_flex` and from the standard library. -/
structure Crates where
  /-- `leb128::write::unsigned` and `leb128::read::unsigned`. -/
  leb128 : PrefixCode UInt8
  leb128_bound : 2 ^ 64 ≤ leb128.bound
  length_leb128 : ∀ n < 2 ^ 64, (leb128.write n).length ≤ 10
  /-- `lz4_flex::compress`. -/
  compress : List UInt8 → List UInt8
  /-- `lz4_flex::decompress`, which is told how much room the data need at least. -/
  decompress : List UInt8 → Nat → Option (List UInt8)
  decompress_compress : ∀ data room, data.length ≤ room →
    decompress (compress data) room = some data
  /-- `String::from_utf8_lossy`. -/
  fromUtf8Lossy : List UInt8 → String
  /-- `str::from_utf8` and `str::parse::<f64>`. -/
  parseReal : List UInt8 → Option F64
  /-- `val as u64` for an `f64` whose `fract` is zero. -/
  wholeReal : F64 → Option Nat

/-- `Compression`. -/
inductive Compression where
  | none
  | lz4 (uncompressedLen : Nat)
  deriving DecidableEq, Repr

/-- `SignalEncodingMetaData`. -/
structure SignalEncodingMetaData where
  compression : Compression
  maxStates : States
  deriving DecidableEq, Repr

/-- `SIGNAL_DECOMPRESSED_LEN_DIV`. -/
def signalDecompressedLenDiv : Nat := 32

namespace SignalEncodingMetaData

/-- `SignalEncodingMetaData::compressed`: the length is an `u32` and rounded up. -/
def compressed (maxStates : States) (uncompressedLen : Nat) : SignalEncodingMetaData :=
  let lenBits := (uncompressedLen % 2 ^ 32 + (signalDecompressedLenDiv - 1)) / signalDecompressedLenDiv
  ⟨.lz4 (lenBits * signalDecompressedLenDiv % 2 ^ 32), maxStates⟩

/-- `SignalEncodingMetaData::encode`. -/
def encode (md : SignalEncodingMetaData) : Nat :=
  match md.compression with
  | .lz4 decompressedLen =>
    let lenBits := (decompressedLen % 2 ^ 32 + (signalDecompressedLenDiv - 1)) /
      signalDecompressedLenDiv
    (lenBits <<< 3) ||| (1 <<< 2) ||| md.maxStates.toByte.toNat
  | .none => md.maxStates.toByte.toNat

/-- `SignalEncodingMetaData::decode`. -/
def decode (data : Nat) : Option SignalEncodingMetaData := do
  let maxStates ← States.tryFromPrimitive (data &&& 3).toUInt8
  let compression :=
    if (data >>> 2) &&& 1 = 1 then
      let lenBits := ((data >>> 3) &&& (2 ^ 32 - 1)) % 2 ^ 32
      Compression.lz4 (lenBits * signalDecompressedLenDiv % 2 ^ 32)
    else .none
  return ⟨compression, maxStates⟩

end SignalEncodingMetaData

/-! ## Writing -/

/-- `SignalEncoder`. -/
structure SignalEncoder where
  data : List UInt8
  tpe : SignalEncoding
  prevTimeIdx : Nat
  maxStates : States

/-- `MIN_SIZE_TO_COMPRESS`. -/
def minSizeToCompress : Nat := 32

namespace SignalEncoder

/-- `SignalEncoder::new`. -/
def new (tpe : SignalEncoding) : SignalEncoder := ⟨[], tpe, 0, .two⟩

variable (c : Crates)

/-- `add_vcd_change`. No result is a panic. -/
def addVcdChange (enc : SignalEncoder) (timeIndex : Nat) (value : List UInt8) :
    Option SignalEncoder :=
  let timeIdxDelta := timeIndex - enc.prevTimeIdx
  match enc.tpe with
  | .bitVector 0 =>
    some { enc with data := enc.data ++ c.leb128.write timeIdxDelta, prevTimeIdx := timeIndex }
  | .bitVector len => do
    let (data, states) ← decodeVcdBitVecChange len value
    let maxStates := enc.maxStates.join states
    let written ← match data with
      | .singleBit bitValue => some (c.leb128.write ((timeIdxDelta <<< 4) + bitValue.toNat))
      | .multiBit dataToWrite => do
        let bytes ← writeNStateFromAscii states dataToWrite none
        some (c.leb128.write ((timeIdxDelta <<< 2) ||| states.toByte.toNat) ++ bytes)
    return { enc with data := enc.data ++ written, prevTimeIdx := timeIndex, maxStates }
  | .string => do
    let first ← value.head?
    if first = ascii 's' ∨ first = ascii 'S' then
      return { enc with
        data := enc.data ++ (c.leb128.write timeIdxDelta ++
          (c.leb128.write (value.length - 1) ++ value.tail))
        prevTimeIdx := timeIndex }
    else none
  | .real => do
    let first ← value.head?
    if first = ascii 'r' ∨ first = ascii 'R' then
      let floatValue ← c.parseReal value.tail
      return { enc with
        data := enc.data ++ (c.leb128.write timeIdxDelta ++ toLeBytes floatValue)
        prevTimeIdx := timeIndex }
    else none

/-- `finish`: what goes into the block, if there is anything. -/
def finish (enc : SignalEncoder) : Option (List UInt8 × SignalEncodingMetaData) :=
  if enc.data.isEmpty then none
  else if enc.data.length < minSizeToCompress then some (enc.data, ⟨.none, enc.maxStates⟩)
  else
    let compressed := c.compress enc.data
    if enc.data.length ≤ compressed.length + 1 then some (enc.data, ⟨.none, enc.maxStates⟩)
    else some (compressed, .compressed enc.maxStates enc.data.length)

/-- The encoder behind a `finish`. -/
def restart (enc : SignalEncoder) : SignalEncoder := { enc with data := [], prevTimeIdx := 0 }

end SignalEncoder

/-! ## Loading -/

/-- What `load_compressed_signal` has loaded so far. -/
structure Loaded where
  timeIndices : List Nat
  dataBytes : List UInt8
  strings : List String

/-- `check_if_changed_and_truncate`. -/
def checkIfChangedAndTruncate (bytesPerEntry : Nat) (out : List UInt8) : Bool × List UInt8 :=
  let newStart := out.length - bytesPerEntry
  let changed := out.length < 2 * bytesPerEntry ||
    (out.drop (out.length - 2 * bytesPerEntry)).take bytesPerEntry ≠ out.drop newStart
  (changed, if changed then out else out.take newStart)

section Load

variable (c : Crates)

/-- A change that `append` takes gets its time index. -/
def Loaded.push {α : Type} (append : Loaded → α → Bool × Loaded) (loaded : Loaded)
    (change : Nat × α) : Loaded :=
  let (changed, loaded) := append loaded change.2
  if changed then { loaded with timeIndices := loaded.timeIndices ++ [change.1] } else loaded

/-- The loop of the four `load_` functions: as long as a number can be read, the time index and the
loaded values go on with it. The index is an `u32`. -/
def loadLoop {α : Type} (payload : Nat → List UInt8 → Option ((Nat × α) × List UInt8))
    (append : Loaded → α → Bool × Loaded) (data : List UInt8) (timeIdxOffset : Nat)
    (loaded : Loaded) : Option Loaded :=
  (c.leb128.readRecords payload (fun (state : Nat × Loaded) (change : Nat × α) =>
    let lastTimeIdx := (state.1 + change.1) % 2 ^ 32
    (lastTimeIdx, state.2.push append (lastTimeIdx, change.2)))
    data.length (timeIdxOffset, loaded) data).map Prod.snd

/-- Behind the number of an event there is nothing. -/
def eventPayload (value : Nat) (data : List UInt8) : Option ((Nat × Unit) × List UInt8) :=
  some ((value % 2 ^ 32, ()), data)

/-- `load_events`. -/
def loadEvents : List UInt8 → Nat → Loaded → Option Loaded :=
  loadLoop c eventPayload fun loaded _ => (true, loaded)

/-- Behind the number of a real there are its eight bytes. -/
def realPayload (value : Nat) (data : List UInt8) : Option ((Nat × List UInt8) × List UInt8) :=
  if 8 ≤ data.length then some ((value % 2 ^ 32, data.take 8), data.drop 8) else none

/-- `load_reals`. -/
def loadReals : List UInt8 → Nat → Loaded → Option Loaded :=
  loadLoop c realPayload fun loaded buf =>
    let out := loaded.dataBytes
    let changed := out.isEmpty || out.drop (out.length - 8) ≠ buf
    (changed, if changed then { loaded with dataBytes := out ++ buf } else loaded)

/-- Behind the number of a string there are its length and its bytes. -/
def stringPayload (value : Nat) (data : List UInt8) : Option ((Nat × String) × List UInt8) := do
  let (len, data) ← c.leb128.read data
  if len ≤ data.length then
    some ((value % 2 ^ 32, c.fromUtf8Lossy (data.take len)), data.drop len)
  else none

/-- `load_signal_strings`. -/
def loadSignalStrings : List UInt8 → Nat → Loaded → Option Loaded :=
  loadLoop c (stringPayload c) fun loaded strValue =>
    let changed := loaded.strings.getLast? ≠ some strValue
    (changed, if changed then { loaded with strings := loaded.strings ++ [strValue] } else loaded)

/-- Behind the number of a vector of more than one bit there are its bytes, in the encoding that the
lower two bits tell. A single bit is part of the number. What is loaded is a slot. -/
def fixedLenPayload (bits : Nat) (signalStates : States) (value : Nat) (data : List UInt8) :
    Option ((Nat × List UInt8) × List UInt8) :=
  let timeIdxDeltaRaw := value % 2 ^ 32
  if bits = 1 then do
    let value := (timeIdxDeltaRaw &&& 0xf).toUInt8
    let states ← States.fromBit value
    let metaData := states.toByte <<< 6
    -- time delta is encoded together with the value
    some ((timeIdxDeltaRaw >>> 4, [value ||| metaData]), data)
  else do
    let localEncoding ← States.tryFromPrimitive (timeIdxDeltaRaw &&& 0x3).toUInt8
    let numBytes := localEncoding.bytesRequired bits
    if numBytes ≤ data.length then
      some ((timeIdxDeltaRaw >>> 2,
        slot signalStates bits localEncoding (data.take numBytes)), data.drop numBytes)
    else none

/-- `load_fixed_len_signal`. -/
def loadFixedLenSignal (bits : Nat) (signalStates : States) :
    List UInt8 → Nat → Loaded → Option Loaded :=
  let (len, hasMeta) := getLenAndMeta signalStates bits
  let bytesPerEntry := getBytesPerEntry len hasMeta
  loadLoop c (fixedLenPayload bits signalStates) fun loaded entry =>
    let (changed, out) := checkIfChangedAndTruncate bytesPerEntry (loaded.dataBytes ++ entry)
    (changed, { loaded with dataBytes := out })

/-- The data of one block, by the encoding of the signal. -/
def loadData (tpe : SignalEncoding) (maxStates : States) : List UInt8 → Nat → Loaded → Option Loaded :=
  match tpe with
  | .string => loadSignalStrings c
  | .bitVector 0 => loadEvents c
  | .bitVector signalLen => loadFixedLenSignal c signalLen maxStates
  | .real => loadReals c

/-- `SignalMetaData`: for each block that has the signal its time offset, data and meta-data. -/
structure SignalMetaData where
  maxStates : States
  blocks : List (Nat × List UInt8 × SignalEncodingMetaData)

/-- One block of `load_compressed_signal`. -/
def loadBlock (tpe : SignalEncoding) (maxStates : States) (loaded : Loaded)
    (block : Nat × List UInt8 × SignalEncodingMetaData) : Option Loaded := do
  let (timeIdxOffset, dataBlock, metaData) := block
  let data ← match metaData.compression with
    | .lz4 uncompressedLen => c.decompress dataBlock uncompressedLen
    | .none => some dataBlock
  loadData c tpe maxStates data timeIdxOffset loaded

/-- `load_compressed_signal`. -/
def loadCompressedSignal (md : SignalMetaData) (tpe : SignalEncoding) : Option Signal := do
  let loaded ← md.blocks.foldlM (loadBlock c tpe md.maxStates) ⟨[], [], []⟩
  match tpe with
  | .string =>
    if loaded.timeIndices.length = loaded.strings.length then
      return ⟨loaded.timeIndices, .variableLength loaded.strings⟩
    else none
  | .bitVector 0 => return ⟨loaded.timeIndices, .fixedLength .event 0 loaded.dataBytes⟩
  | .bitVector width =>
    let (bytes, metaByte) := getLenAndMeta md.maxStates width
    return ⟨loaded.timeIndices, .fixedLength (.bitVector md.maxStates width metaByte)
      (getBytesPerEntry bytes metaByte) loaded.dataBytes⟩
  | .real => return ⟨loaded.timeIndices, .fixedLength .real 8 loaded.dataBytes⟩

end Load

end RWave.Wellen
