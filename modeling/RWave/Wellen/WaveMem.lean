import RWave.Wellen.SignalEncoder

/-!
# The waveform in memory

The `Encoder` and the `Reader` of the vendored `wellen`'s `wavemem.rs`. An encoder takes time steps
and changes in the order of the dump. It closes a block when a block has no time index left, and
several encoders, each for a part of the dump, are appended to one another. A block holds the data of
all its signals in a row, with an offset for each signal that has any. No result is a panic.
-/

namespace RWave.Wellen

/-- `SignalDataOffset`: one more than an index, as an `u32` that is not zero. -/
structure SignalDataOffset where
  raw : Nat
  deriving DecidableEq, Repr

namespace SignalDataOffset

/-- `SignalDataOffset::new`. -/
def new (index : Nat) : Option SignalDataOffset :=
  let raw := index % 2 ^ 32 + 1
  if raw < 2 ^ 32 then some ⟨raw⟩ else none

/-- `get_index`. -/
def getIndex (offset : SignalDataOffset) : Nat := offset.raw - 1

end SignalDataOffset

/-- `Block`. -/
structure Block where
  startTime : Nat
  timeTable : List Nat
  offsets : List (Option SignalDataOffset)
  data : List UInt8

/-- `get_offset_and_length`, of a signal that has data in the block. -/
def Block.getOffsetAndLength (block : Block) (id : Nat) : Option (Option (Nat × Nat)) := do
  match ← block.offsets[id]? with
  | none => return none
  | some offset =>
    let offset := offset.getIndex
    -- find the next offset or take the data len
    let nextOffset := ((block.offsets.drop (id + 1)).findSome? fun o => o).elim block.data.length
      SignalDataOffset.getIndex
    return some (offset, nextOffset - offset)

/-! ## The encoder -/

/-- What the parser of a dump's body calls an encoder with. -/
inductive DumpOp where
  | time (t : Nat)
  | value (id : Nat) (text : List UInt8)

/-- `Encoder`. -/
structure Encoder where
  timeTable : List Nat
  signals : List (Option SignalEncoder)
  hasNewData : Bool
  skippingTimeStep : Bool
  blocks : List Block

namespace Encoder

variable (c : Crates)

/-- `BlockTimeIdx::MAX`. -/
def blockTimeIdxMax : Nat := 2 ^ 16 - 1

/-- `Encoder::new`, from the hierarchy's `ground_signal_encodings`. -/
def new (groundSignalEncodings : List (Option SignalEncoding)) : Encoder :=
  ⟨[], groundSignalEncodings.map (·.map SignalEncoder.new), false, false, []⟩

/-- The loop of `finish_block`. -/
def finishSignals : List (Option SignalEncoder) → List UInt8 →
    Option (List (Option SignalDataOffset) × List UInt8)
  | [], data => some ([], data)
  | signal :: signals, data =>
    match signal.bind (·.finish c) with
    | some (signalData, isCompressed) => do
      let offset ← SignalDataOffset.new data.length
      let metaData := isCompressed.encode
      let (offsets, data) ←
        finishSignals signals (data ++ (c.leb128.write metaData ++ signalData))
      return (some offset :: offsets, data)
    | none => do
      let (offsets, data) ← finishSignals signals data
      return (none :: offsets, data)

/-- `finish_block`. -/
def finishBlock (e : Encoder) : Option Encoder :=
  if e.hasNewData then do
    let (offsets, data) ← finishSignals c e.signals []
    let startTime ← e.timeTable.head?
    -- the next block might continue the time step
    let endTime ← e.timeTable.getLast?
    let block : Block := ⟨startTime, e.timeTable, offsets, data⟩
    return { e with
      timeTable := [endTime]
      signals := e.signals.map (·.map SignalEncoder.restart)
      hasNewData := false
      blocks := e.blocks ++ [block] }
  else some e

/-- The end of `time_change`, for a time that goes on. -/
def pushTime (e : Encoder) (time : Nat) : Option Encoder := do
  let e ← if blockTimeIdxMax ≤ e.timeTable.length then e.finishBlock c else some e
  return { e with
    timeTable := e.timeTable ++ [time], hasNewData := true, skippingTimeStep := false }

/-- `time_change`. -/
def timeChange (e : Encoder) (time : Nat) : Option Encoder :=
  match e.timeTable.getLast? with
  | some prevTime =>
    -- ignore calls that do not change anything
    if prevTime = time then some e
    -- the time decreased: skip what comes with it
    else if time < prevTime then some { e with skippingTimeStep := true }
    else e.pushTime c time
  | none => e.pushTime c time

/-- `vcd_value_change`. -/
def vcdValueChange (e : Encoder) (id : Nat) (value : List UInt8) : Option Encoder :=
  if e.skippingTimeStep then some e
  else if e.timeTable.isEmpty then none
  else do
    let timeIdx := (e.timeTable.length - 1) % 2 ^ 32
    let signal ← (e.signals[id]?).join
    let signal ← signal.addVcdChange c timeIdx value
    return { e with signals := e.signals.set id (some signal), hasNewData := true }

/-- A call of the parser of a dump's body. -/
def step (e : Encoder) : DumpOp → Option Encoder
  | .time t => e.timeChange c t
  | .value id text => e.vcdValueChange c id text

/-- Call by call. -/
def run (e : Encoder) (ops : List DumpOp) : Option Encoder := ops.foldlM (step c) e

/-- `append`: the other encoder's blocks come behind this one's. -/
def append (e other : Encoder) : Option Encoder := do
  let e ← e.finishBlock c
  let other ← other.finishBlock c
  if other.blocks.isEmpty then return e
  else if e.blocks.isEmpty then none
  else return { e with blocks := e.blocks ++ other.blocks }

/-- One block of `combine_time_tables`. -/
def combineBlock (combined : List Nat × Option Nat) (block : Block) :
    Option (List Nat × Option Nat) := do
  let (table, prevEndTime) := combined
  let startTime ← block.timeTable.head?
  let endTime ← block.timeTable.getLast?
  -- avoid duplicate entries for overlapping time tables
  let more := if prevEndTime = some startTime then block.timeTable.tail else block.timeTable
  return (table ++ more, some endTime)

/-- `combine_time_tables`. -/
def combineTimeTables (blocks : List Block) : Option (List Nat) :=
  (blocks.foldlM combineBlock ([], none)).map Prod.fst

end Encoder

/-! ## The reader -/

/-- `Reader`. -/
structure Reader where
  blocks : List Block

/-- `Encoder::finish`: the reader and the time table. -/
def Encoder.finish (c : Crates) (e : Encoder) : Option (Reader × List Nat) := do
  let e ← e.finishBlock c
  return (⟨e.blocks⟩, ← combineTimeTables e.blocks)

namespace Reader

variable (c : Crates)

/-- What `collect_signal_meta_data` knows between two blocks. -/
structure Collected where
  timeIdxOffset : Nat
  prevEndTime : Option Nat
  blockMetaData : List (Nat × List UInt8 × SignalEncodingMetaData)

/-- The data and the meta-data of a signal in a block. -/
def signalData (block : Block) (startIi dataLen : Nat) :
    Option (List UInt8 × SignalEncodingMetaData) :=
  if startIi + dataLen ≤ block.data.length then do
    let (metaDataRaw, dataBlock) ← c.leb128.read ((block.data.drop startIi).take dataLen)
    let metaData ← SignalEncodingMetaData.decode metaDataRaw
    return (dataBlock, metaData)
  else none

/-- One block of `collect_signal_meta_data`. -/
def collectBlock (id : Nat) (collected : Collected) (block : Block) : Option Collected := do
  -- adjust time index offset to take overlapping blocks into account
  let endTime ← block.timeTable.getLast?
  let timeIdxOffset :=
    if collected.prevEndTime = some block.startTime then
      (collected.timeIdxOffset + (2 ^ 32 - 1)) % 2 ^ 32
    else collected.timeIdxOffset
  let blockMetaData ← match ← block.getOffsetAndLength id with
    | some (startIi, dataLen) => do
      let (dataBlock, metaData) ← signalData c block startIi dataLen
      pure (collected.blockMetaData ++ [(timeIdxOffset, dataBlock, metaData)])
    | none => pure collected.blockMetaData
  return ⟨(timeIdxOffset + block.timeTable.length) % 2 ^ 32, some endTime, blockMetaData⟩

/-- `collect_signal_meta_data`. -/
def collectSignalMetaData (reader : Reader) (id : Nat) : Option SignalMetaData := do
  let collected ← reader.blocks.foldlM (collectBlock c id) ⟨0, none, []⟩
  let states := collected.blockMetaData.map fun block => block.2.2.maxStates
  let maxStates := match states with
    | [] => States.nine
    | first :: rest => rest.foldl States.join first
  return ⟨maxStates, collected.blockMetaData⟩

/-- `load_signal`. -/
def loadSignal (reader : Reader) (id : Nat) (tpe : SignalEncoding) : Option Signal := do
  loadCompressedSignal c (← reader.collectSignalMetaData c id) tpe

end Reader

end RWave.Wellen
