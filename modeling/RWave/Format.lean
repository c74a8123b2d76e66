import RWave.Str
import RWave.Backend.Value

/-!
# Values and times as text

`format.rs`: how a recorded value and a tick are shown, and the grammar of time arguments. The
floating-point steps are those of a `Host`.
-/

namespace RWave.Format

open RWave.Backend

/-! ## Quoting for messages -/

/-- `{:02x}`. -/
def hex2 (n : Nat) : List Char := [Nat.digitChar (n / 16 % 16), Nat.digitChar (n % 16)]

/-- `pyrepr`: one character inside quotes. -/
def pyreprChar (quote c : Char) : List Char :=
  if c = '\\' then ['\\', '\\']
  else if c = '\n' then ['\\', 'n']
  else if c = '\r' then ['\\', 'r']
  else if c = '\t' then ['\\', 't']
  else if c = quote then ['\\', c]
  else if c.toNat < 0x20 ∨ c.toNat = 0x7f ∨ (0x80 ≤ c.toNat ∧ c.toNat ≤ 0xa0) then
    ['\\', 'x'] ++ hex2 c.toNat
  else [c]

/-- `pyrepr`: single quotes, unless the text has one and no double quote. -/
def pyrepr (s : String) : String :=
  let quote := if s.toList.contains '\'' && !s.toList.contains '"' then '"' else '\''
  .ofList ([quote] ++ s.toList.flatMap (pyreprChar quote) ++ [quote])

/-! ## Values -/

/-- `normalize_bits`: one bit, in the four-state alphabet. -/
def normalizeBit (c : Char) : Char :=
  match c.toLower with
  | '0' => '0'
  | '1' => '1'
  | 'z' => 'z'
  | 'x' => 'x'
  | 'h' => '1'
  | 'l' => '0'
  | _ => 'x'

/-- `normalize_bits`. -/
def normalizeBits (raw : String) : String := .ofList (raw.toList.map normalizeBit)

/-- `bits_have_unknown`. -/
def bitsHaveUnknown (raw : String) : Bool :=
  (Str.bytes raw).any fun b => !("01hl".toList.map Char.toUInt8).contains (Str.byteLower b)

/-- `is_4state`. -/
def is4state (s : String) : Bool := !s.toList.isEmpty && s.toList.all fun c => "01xz".toList.contains c

/-- The number four binary digits denote. -/
def nibble (chunk : List Char) : Nat :=
  chunk.foldl (fun nib c => nib * 2 + if c = '1' then 1 else 0) 0

/-- The hexadecimal digits of binary digits, four at a time. -/
def hexDigits : List Char → List Char
  | a :: b :: c :: d :: rest => Nat.digitChar (nibble [a, b, c, d]) :: hexDigits rest
  | _ => []

/-- `binary_to_hex_unpadded`. -/
def binaryToHexUnpadded (bits : String) : Option String :=
  if bits.toList.isEmpty || !(bits.toList.all fun c => c == '0' || c == '1') then
    none
  else
    let pad := (4 - bits.toList.length % 4) % 4
    let trimmed := (hexDigits (List.replicate pad '0' ++ bits.toList)).dropWhile (· == '0')
    some (if trimmed.isEmpty then "0" else .ofList trimmed)

/-- `fmt_bits`. The bit string is normalized, read as all unknown when it is longer than the signal
is wide, and extended on the left. -/
def fmtBits (raw : String) (width : Nat) : String :=
  let width := max width 1
  let value := normalizeBits raw
  let value :=
    if Str.len value > width ∧ is4state value = true then Str.replicate width 'x' else value
  let value :=
    if Str.len value < width then
      let msb := value.toList.head?.getD '0'
      let pad := if msb = 'x' ∨ msb = 'z' then msb else '0'
      Str.replicate (width - Str.len value) pad ++ value
    else value
  if value.toList.contains 'x' || value.toList.contains 'z' then
    "b" ++ value
  else if width = 1 then
    value
  else
    match binaryToHexUnpadded value with
    | some hex => "0x" ++ hex
    | none => "b" ++ value

/-- `fmt_val`. -/
def fmtVal (raw : String) (kind : ValueKind) (width : Nat) : String :=
  match kind with
  | .event => "triggered"
  | .real | .str => raw
  | .bits => fmtBits raw width

/-! ## Time arguments -/

/-- `UNITS`: the time-unit suffixes, as factors in seconds. -/
def units : List (String × F64) :=
  [("fs", ⟨0x3CD203AF9EE75616⟩), ("ps", ⟨0x3D719799812DEA11⟩), ("ns", ⟨0x3E112E0BE826D695⟩),
    ("us", ⟨0x3EB0C6F7A0B5ED8D⟩), ("ms", ⟨0x3F50624DD2F1A9FC⟩), ("s", ⟨0x3FF0000000000000⟩)]

def maxTimeArgLen : Nat := 100

/-- `MAX_TIME_TICKS`: `i64::MAX`. -/
def maxTimeTicks : Int := 2 ^ 63 - 1

/-- `unit_factor`. -/
def unitFactor (unit : String) : Option F64 := (units.find? fun u => u.1 == unit).map Prod.snd

def zero : F64 := ⟨0⟩
def half : F64 := ⟨0x3FE0000000000000⟩
def thousand : F64 := ⟨0x408F400000000000⟩
def negThousand : F64 := ⟨0xC08F400000000000⟩

/-- The digits and the first dot of a number, and what follows them. -/
def numberSpan (sawDot : Bool) : List Char → List Char × List Char
  | [] => ([], [])
  | c :: cs =>
    if c.isDigit then
      let (num, rest) := numberSpan sawDot cs
      (c :: num, rest)
    else if c = '.' ∧ sawDot = false then
      let (num, rest) := numberSpan true cs
      (c :: num, rest)
    else ([], c :: cs)

/-- `match_time`: the sign, the number and the unit of a time. -/
def matchTime (s : String) : Option (Char × String × Option String) :=
  match s.toList with
  | [] => none
  | c :: cs =>
    let (sign, body) := if c = '+' ∨ c = '-' then (c, cs) else ('+', c :: cs)
    let (num, rest) := numberSpan false body
    -- A lone dot is no number; with no digit there is nothing else it could be.
    if num.any Char.isDigit || (num.contains '.' && num.length > 1) then
      if rest.isEmpty then some (sign, .ofList num, none)
      else if (unitFactor (.ofList rest)).isSome then some (sign, .ofList num, some (.ofList rest))
      else none
    else none

/-- The digits of `strip_int_underscores`: an underscore stands between two digits only. -/
def stripUnderscores (prevWasDigit : Bool) : List Char → Option (List Char)
  | [] => some []
  | c :: cs =>
    if c.isDigit then
      (stripUnderscores true cs).map (c :: ·)
    else if c = '_' then
      if prevWasDigit && cs.head?.any Char.isDigit then stripUnderscores false cs else none
    else none

/-- `strip_int_underscores`. -/
def stripIntUnderscores (s : String) : Option String :=
  let (sign, digits) :=
    match s.toList with
    | '+' :: rest => (['+'], rest)
    | '-' :: rest => (['-'], rest)
    | rest => ([], rest)
  if digits.isEmpty then none
  else (stripUnderscores false digits).map fun ds => .ofList (sign ++ ds)

def invalidTime (original : String) : String :=
  "invalid time value " ++ pyrepr original ++
    "; expected integer ticks or value with fs/ps/ns/us/ms/s suffix"

def timeTooLarge (original : String) : String :=
  "time value too large; got " ++ pyrepr original ++ ", max ticks is " ++ toString maxTimeTicks

def timeNegative (original : String) : String := "time must be non-negative; got " ++ pyrepr original

/-- `parse_ticks_decimal`. -/
def parseTicksDecimal (num original : String) : Except String Int :=
  match stripIntUnderscores num with
  | none => .error (invalidTime original)
  | some cleaned =>
    let body := (Str.stripPrefix "-" cleaned).getD cleaned
    let isNeg := Str.startsWith "-" cleaned
    let allDigits := !body.toList.isEmpty && body.toList.all Char.isDigit
    match Str.parseI64 cleaned with
    | some v => .ok v
    | none =>
      if allDigits && !isNeg then .error (timeTooLarge original) else .error (invalidTime original)

/-- `check_time_range`. -/
def checkTimeRange (v : Int) (original : String) : Except String Int :=
  if v < 0 then .error (timeNegative original) else .ok v

/-- `round_half_even`. -/
def roundHalfEven (host : Host) (x : F64) : F64 :=
  if host.eq (host.abs (host.sub x (host.trunc x))) half then
    let floor := host.floor x
    if (host.toI64 floor).tmod 2 = 0 then floor else host.add floor ⟨0x3FF0000000000000⟩
  else host.round x

/-- `parse_time`. -/
def parseTime (host : Host) (s : String) (tsSec : F64) : Except String Int :=
  if Str.len s > maxTimeArgLen then
    .error ("time value too long; max length is " ++ toString maxTimeArgLen)
  else
    let stripped := Str.trim s
    match matchTime stripped with
    | some (sign, num, unit) =>
      if sign = '-' ∧ Str.trimMatches (fun c => c == '0' || c == '.') num ≠ "" then
        .error (timeNegative s)
      else
        match unit with
        | none =>
          if num.toList.contains '.' then
            .error ("bare numeric time must be integer ticks; got " ++ pyrepr s ++
              ". Use a unit suffix for fractional times, e.g. " ++ num ++ "ns")
          else do
            let v ← parseTicksDecimal num s
            checkTimeRange v s
        | some unit =>
          if host.lt tsSec zero || host.eq tsSec zero then
            .error "cannot convert time with unit because timescale is 0 or invalid"
          else
            match unitFactor unit with
            | none => .error ("invalid time unit in " ++ pyrepr s)
            | some factor =>
              match host.parse num with
              | none => .error ("invalid time value " ++ pyrepr s)
              | some val =>
                let scaled := host.div (host.mul val factor) tsSec
                if !host.isFinite scaled then
                  .error ("time value " ++ pyrepr s ++ " is not finite")
                else
                  let rounded := roundHalfEven host scaled
                  if host.lt rounded zero then
                    .error (timeNegative s)
                  else if host.lt (host.ofI64 maxTimeTicks) rounded ||
                      host.eq rounded (host.ofI64 maxTimeTicks) then
                    .error (timeTooLarge s)
                  else checkTimeRange (host.toI64 rounded) s
    | none => do
      let v ← parseTicksDecimal stripped s
      checkTimeRange v s

/-! ## Times as text -/

/-- `strip_trailing_zeros`. -/
def stripTrailingZeros (s : String) : String :=
  if s.toList.contains '.' then
    let trimmed := Str.trimEndMatches (· == '.') (Str.trimEndMatches (· == '0') s)
    if trimmed = "" ∨ trimmed = "-" then "0" else trimmed
  else s

/-- `split_exp`: mantissa and exponent of a number in scientific form. An exponent is an `i32`. -/
def splitExp (sci : String) : String × Int :=
  match Str.splitOnce ['e'] sci.toList with
  | some (mantissa, exp) =>
    let exp :=
      match Str.parseI64 (.ofList exp) with
      | some e => if -2 ^ 31 ≤ e ∧ e < 2 ^ 31 then e else 0
      | none => 0
    (.ofList mantissa, exp)
  | none => (sci, 0)

/-- `{:02}` of a natural number. -/
def pad2 (n : Nat) : String := if n < 10 then "0" ++ toString n else toString n

/-- `fmt_g`. -/
def fmtG (host : Host) (x : F64) : String :=
  if host.eq x zero then "0"
  else
    let (mantissa, exp) := splitExp (host.displaySci 5 x)
    if exp < -4 ∨ 6 ≤ exp then
      stripTrailingZeros mantissa ++ "e" ++ (if exp < 0 then "-" else "+") ++ pad2 exp.natAbs
    else
      stripTrailingZeros (host.displayFixed (max (6 - 1 - exp) 0).toNat x)

/-- `round_sig`. -/
def roundSig (host : Host) (x : F64) : F64 :=
  if host.eq x zero || !host.isFinite x then x
  else (host.parse (host.displaySci 5 x)).getD x

/-- The unit loop of `fmt_time`: the first unit whose printed number is below a thousand. -/
def fmtScaled (host : Host) (sec : F64) : List (String × F64) → String
  | [] => fmtG host sec ++ "s"
  | (u, f) :: rest =>
    let scaled := host.div sec f
    if (host.lt negThousand (roundSig host scaled) && host.lt (roundSig host scaled) thousand) ||
        u == "s" then
      fmtG host scaled ++ u
    else fmtScaled host sec rest

/-- `fmt_time`. -/
def fmtTime (host : Host) (ticks : Int) (tsSec : F64) : String :=
  if ticks = 0 then "0s"
  else if !host.isFinite tsSec || host.lt tsSec zero || host.eq tsSec zero then "?"
  else
    let sec := host.mul (host.ofI64 ticks) tsSec
    if !host.isFinite sec then "?" else fmtScaled host sec units

end RWave.Format
