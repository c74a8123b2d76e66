import RWave.Wellen.WaveMem

/-!
# The body of a VCD

The part of the vendored `wellen`'s `vcd.rs` that reads what follows the header: `parse_body` with its
tokens, the `VcdEncoder` that it calls, and `read_values`, which reads the body in one go or in chunks,
each with an encoder of its own.
-/

namespace RWave.Wellen

/-- Why a body is not read: an error, or a panic. -/
inductive BodyFailure where
  /-- The errors of `str::from_utf8` and `str::parse::<u64>`. -/
  | time (token : List UInt8)
  | vcdUnexpectedBodyToken (token : List UInt8)
  | vcdEmptyId
  | panic
  deriving DecidableEq, Repr

/-- The bytes of an ASCII string: `b"text"`. -/
def asciiBytes (text : String) : List UInt8 := text.toList.map ascii

/-! ## Tokens -/

/-- `str::parse::<u64>`, of the bytes. -/
def parseU64 (text : List UInt8) : Option Nat :=
  let digits := if text.head? = some (ascii '+') then text.tail else text
  if digits.isEmpty || digits.any (fun b => b < ascii '0' || ascii '9' < b) then none
  else
    let n := digits.foldl (fun n b => 10 * n + (b - ascii '0').toNat) 0
    if n < 2 ^ 64 then some n else none

/-- `FirstTokenResult`. -/
inductive FirstTokenResult where
  | time (value : Nat)
  | oneBitValue
  | multiBitValue
  | commentStart
  | ignoredCmd
  deriving DecidableEq, Repr

/-- `parse_first_token`, of a token that is not empty. -/
def parseFirstToken (c : Crates) (token : List UInt8) : Except BodyFailure FirstTokenResult :=
  match token with
  | [] => .error .panic
  | first :: rest =>
    if first = ascii '#' then
      -- Try parsing as u64, then as f64 without a fractional part
      match parseU64 rest with
      | some value => .ok (.time value)
      | none =>
        match (c.parseReal rest).bind c.wholeReal with
        | some value => .ok (.time value)
        | none => .error (.time rest)
    else if first ∈ asciiBytes "01zZxXhHuUwWlL-" then .ok .oneBitValue
    else if first ∈ asciiBytes "bBrRsS" then .ok .multiBitValue
    else if token = asciiBytes "$comment" then .ok .commentStart
    else if token ∈ ["$dumpall", "$dumpvars", "$end", "$dumpoff", "$dumpon"].map asciiBytes then
      .ok .ignoredCmd
    else .error (.vcdUnexpectedBodyToken token)

/-! ## The loop -/

/-- `u8::is_ascii_whitespace`. -/
def isAsciiWhitespace (b : UInt8) : Bool := b ∈ [32, 9, 10, 12, 13]

/-- `BodyState`. -/
inductive BodyState where
  | skippingNewLine
  | parsingFirstToken
  | parsingIdToken
  | lookingForEndToken
  deriving DecidableEq, Repr

/-- The variables of `parse_body`'s loop. -/
structure BodyParser where
  state : BodyState
  first : List UInt8
  id : List UInt8
  hasEscape : Bool
  deriving DecidableEq, Repr

/-- A call of the loop's output. A time comes with the length of its token. -/
inductive BodyCall where
  | time (value tokenLen : Nat)
  | value (value id : List UInt8) (hasEscape : Bool)
  deriving DecidableEq, Repr

namespace BodyParser

/-- The parser in front of the chunk. -/
def new : BodyParser := ⟨.skippingNewLine, [], [], false⟩

/-- The parser in front of a line. -/
def lineStart : BodyParser := ⟨.parsingFirstToken, [], [], false⟩

/-- What the loop does with a byte, and the call that it makes. -/
def step (c : Crates) (p : BodyParser) (b : UInt8) :
    Except BodyFailure (BodyParser × Option BodyCall) :=
  match p.state with
  | .skippingNewLine =>
    .ok (if b = ascii '\n' then { p with state := .parsingFirstToken } else p, none)
  | .parsingFirstToken =>
    if isAsciiWhitespace b then
      -- we are in front of the token => nothing to do
      if p.first.isEmpty then .ok (p, none)
      else do
        let cleared : BodyParser := { p with first := [], hasEscape := false }
        match ← parseFirstToken c p.first with
        | .time value => return (cleared, some (.time value p.first.length))
        | .oneBitValue => return (cleared, some (.value (p.first.take 1) (p.first.drop 1) false))
        | .multiBitValue => return ({ p with state := .parsingIdToken }, none)
        | .commentStart => return ({ cleared with state := .lookingForEndToken }, none)
        | .ignoredCmd => return (cleared, none)
    else .ok ({ p with hasEscape := p.hasEscape || b = ascii '\\', first := p.first ++ [b] }, none)
  | .parsingIdToken =>
    if isAsciiWhitespace b then
      if p.id.isEmpty then .ok (p, none)
      else .ok (lineStart, some (.value p.first p.id p.hasEscape))
    else .ok ({ p with id := p.id ++ [b] }, none)
  | .lookingForEndToken =>
    if isAsciiWhitespace b then
      if p.first.isEmpty then .ok (p, none)
      else
        let state := if p.first = asciiBytes "$end" then .parsingFirstToken else p.state
        .ok ({ p with state, first := [], hasEscape := false }, none)
    else .ok ({ p with first := p.first ++ [b] }, none)

end BodyParser

/-- `ParseBodyOutput`. -/
structure ParseBodyOutput (σ : Type) where
  time : σ → Nat → Except BodyFailure σ
  value : σ → List UInt8 → List UInt8 → Bool → Except BodyFailure σ

namespace ParseBodyOutput

variable {σ : Type} (out : ParseBodyOutput σ) (c : Crates)

/-- The end of `parse_body`, at the end of the file. -/
def finish (p : BodyParser) (s : σ) : Except BodyFailure σ :=
  match p.state with
  | .parsingFirstToken =>
    if p.first.isEmpty then .ok s
    else do
      match ← parseFirstToken c p.first with
      | .time value => out.time s value
      | .oneBitValue => out.value s (p.first.take 1) (p.first.drop 1) false
      | _ => return s
  | .parsingIdToken => out.value s p.first p.id p.hasEscape
  | _ => .ok s

/-- The loop of `parse_body`, from the byte at `pos` on. It ends early at a time whose token begins
past the stop position. -/
def parseFrom (stopPos : Nat) : Nat → BodyParser → σ → List UInt8 → Except BodyFailure σ
  | _, p, s, [] => out.finish c p s
  | pos, p, s, b :: input => do
    let (p, call) ← p.step c b
    match call with
    | none => parseFrom stopPos (pos + 1) p s input
    | some (.time value tokenLen) =>
      let timeTokenStart := pos - tokenLen - 1
      if stopPos < timeTokenStart then return s
      else parseFrom stopPos (pos + 1) p (← out.time s value) input
    | some (.value value id hasEscape) =>
      parseFrom stopPos (pos + 1) p (← out.value s value id hasEscape) input

/-- `parse_body`. -/
def parseBody (stopPos : Nat) (s : σ) (input : List UInt8) : Except BodyFailure σ :=
  out.parseFrom c stopPos 0 .new s input

end ParseBodyOutput

/-! ## Identifiers and values -/

/-- `ID_CHAR_MIN`. -/
def idCharMin : UInt8 := ascii '!'

/-- `ID_CHAR_MAX`. -/
def idCharMax : UInt8 := ascii '~'

/-- `NUM_ID_CHARS`. -/
def numIdChars : Nat := (idCharMax - idCharMin).toNat + 1

/-- `id_to_int`: the characters are the digits of a number, the last of them the highest. -/
def idToInt (id : List UInt8) : Option Nat :=
  if id.isEmpty then none
  else do
    let result ← id.reverse.foldlM (fun result i =>
      if i < idCharMin || idCharMax < i then none
      else
        let c := (i - idCharMin).toNat + 1
        let result := result * numIdChars + c
        if result < 2 ^ 64 then some result else none) 0
    return result - 1

/-- `hex_digit_to_value`. -/
def hexDigitToValue (b : UInt8) : Option UInt8 :=
  if ascii '0' ≤ b && b ≤ ascii '9' then some (b - ascii '0')
  else if ascii 'a' ≤ b && b ≤ ascii 'f' then some (b - ascii 'a' + 10)
  else if ascii 'A' ≤ b && b ≤ ascii 'F' then some (b - ascii 'A' + 10)
  else none

/-- `is_octal_digit`. -/
def isOctalDigit (b : UInt8) : Bool := ascii '0' ≤ b && b ≤ ascii '7'

/-- `map_single_escape`. -/
def mapSingleEscape (ch : UInt8) : Option UInt8 :=
  match Char.ofNat ch.toNat with
  | 'a' => some 0x07
  | 'b' => some 0x08
  | 'f' => some 0x0c
  | 'n' => some 0x0a
  | 'r' => some 0x0d
  | 't' => some 0x09
  | 'v' => some 0x0b
  | '"' => some 0x22
  | '\'' => some 0x27
  | '\\' => some 0x5c
  | '?' => some 0x3f
  | _ => none

/-- The byte that an escape at the front stands for, and how many bytes the escape has. -/
def escapeAt (value : List UInt8) : Option (UInt8 × Nat) :=
  let hex : Option UInt8 :=
    match value with
    | b :: x :: h :: l :: _ =>
      if b = ascii '\\' && x = ascii 'x' then do
        let hi ← hexDigitToValue h
        let lo ← hexDigitToValue l
        return hi <<< 4 ||| lo
      else none
    | _ => none
  let octal : Option UInt8 :=
    match value with
    | b :: x :: y :: z :: _ =>
      if b = ascii '\\' && isOctalDigit x && isOctalDigit y && isOctalDigit z then
        some (((x - ascii '0') <<< 6) + ((y - ascii '0') <<< 3) + (z - ascii '0'))
      else none
    | _ => none
  let single : Option UInt8 :=
    match value with
    | b :: x :: _ => if b = ascii '\\' then mapSingleEscape x else none
    | _ => none
  match hex, octal, single with
  | some code, _, _ => some (code, 4)
  | none, some code, _ => some (code, 4)
  | none, none, some mapped => some (mapped, 2)
  | none, none, none => none

/-- The loop of `unescape_vcd_value`: the bytes, and whether any of them was substituted. The fuel is
the length. -/
def substitute : Nat → List UInt8 → List UInt8 × Bool
  | 0, _ => ([], false)
  | _, [] => ([], false)
  | fuel + 1, b :: value =>
    match escapeAt (b :: value) with
    | some (code, len) => (code :: (substitute fuel ((b :: value).drop len)).1, true)
    | none =>
      let (rest, any) := substitute fuel value
      (b :: rest, any)

/-- A byte as a `char`, in UTF-8. -/
def latin1ToUtf8 (b : UInt8) : List UInt8 :=
  if b < 0x80 then [b] else [(0xc0 : UInt8) ||| b >>> 6, (0x80 : UInt8) ||| (b &&& 0x3f)]

/-- `unescape_vcd_value`. -/
def unescapeVcdValue (value : List UInt8) : List UInt8 :=
  let (buf, substituted) := substitute value.length value
  -- Convert ISO-8859-1 bytes to UTF-8 by mapping each byte to a char
  if substituted then buf.flatMap latin1ToUtf8 else value

/-! ## The encoder of a chunk -/

/-- `IdLookup`: a table of the identifiers, where they are not numbers themselves. -/
abbrev IdLookup := Option (List UInt8 → Option Nat)

/-- `VcdEncoder`. -/
structure VcdEncoder where
  enc : Encoder
  isFirstPartOfVcd : Bool
  foundFirstTimeStep : Bool

namespace VcdEncoder

variable (c : Crates) (lookup : IdLookup)

/-- `VcdEncoder::new`. -/
def new (encodings : List (Option SignalEncoding)) (isFirstPartOfVcd : Bool) : VcdEncoder :=
  ⟨.new encodings, isFirstPartOfVcd, false⟩

/-- `time`. -/
def time (e : VcdEncoder) (value : Nat) : Except BodyFailure VcdEncoder :=
  match e.enc.timeChange c value with
  | some enc => .ok { e with foundFirstTimeStep := true, enc }
  | none => .error .panic

/-- The number of an identifier. -/
def numId (id : List UInt8) : Except BodyFailure Nat :=
  match lookup with
  | none =>
    match idToInt id with
    | some ii => .ok ii
    | none => .error .vcdEmptyId
  | some lookup =>
    match lookup id with
    | some ii => .ok ii
    | none => .error .panic

/-- `value`. -/
def value (e : VcdEncoder) (value id : List UInt8) (hasEscape : Bool) :
    Except BodyFailure VcdEncoder := do
  -- In the first thread, we might encounter a dump values which dumps all initial values
  -- without specifying a timestamp
  let e ← if e.isFirstPartOfVcd && !e.foundFirstTimeStep then e.time c 0 else .ok e
  -- if we are not the first part of the VCD, we are skipping value changes until the
  -- first timestep is found which serves as a synchronization point
  if e.foundFirstTimeStep then
    let numId ← numId lookup id
    match e.enc.vcdValueChange c numId (if hasEscape then unescapeVcdValue value else value) with
    | some enc => .ok { e with enc }
    | none => .error .panic
  else .ok e

/-- The encoder as the output of `parse_body`. -/
def output : ParseBodyOutput VcdEncoder := ⟨time c, value c lookup⟩

end VcdEncoder

/-! ## Chunks -/

/-- `MIN_CHUNK_SIZE`. -/
def minChunkSize : Nat := 8 * 1024

/-- `u64::div_ceil`. -/
def divCeil (a b : Nat) : Nat := (a + (b - 1)) / b

/-- `determine_thread_chunks`, of a body that is not empty. -/
def determineThreadChunks (maxThreads bodyLen : Nat) : List (Nat × Nat) :=
  let numThreads := min maxThreads (divCeil bodyLen minChunkSize)
  let chunkSize := divCeil bodyLen numThreads
  (List.range numThreads).map fun ii => (ii * chunkSize, chunkSize)

section ReadValues

variable (c : Crates) (lookup : IdLookup) (encodings : List (Option SignalEncoding))

/-- `read_single_stream_of_values`. -/
def readSingleStreamOfValues (input : List UInt8) (stopPos : Nat) (isFirst : Bool) :
    Except BodyFailure Encoder := do
  let e ← (VcdEncoder.output c lookup).parseBody c stopPos (.new encodings isFirst) input
  return e.enc

/-- A panic. -/
def orPanic {α : Type} : Option α → Except BodyFailure α
  | some a => .ok a
  | none => .error .panic

/-- `read_values`, with so many threads if there are to be several. -/
def readValues (input : List UInt8) (threads : Option Nat) :
    Except BodyFailure (Reader × List Nat) :=
  if input.isEmpty then .error .panic
  else
    match threads with
    | some maxThreads => do
      let chunks := determineThreadChunks maxThreads input.length
      let encoders ← chunks.mapM fun (start, len) =>
        if start ≤ input.length then
          readSingleStreamOfValues c lookup encodings (input.drop start) (len - 1) (start = 0)
        else .error .panic
      -- combine encoders
      match encoders with
      | [] => .error .panic
      | encoder :: others => do
        let encoder ← orPanic (others.foldlM (Encoder.append c) encoder)
        orPanic (encoder.finish c)
    | none => do
      let encoder ← readSingleStreamOfValues c lookup encodings input (input.length - 1) true
      orPanic (encoder.finish c)

end ReadValues

end RWave.Wellen
