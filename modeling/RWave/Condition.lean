import RWave.Format

/-!
# Search conditions

`condition.rs`: the terms of a condition, their parser, and how a recorded value is matched against
a target. Patterns and values are compared byte by byte, as the source does.
-/

namespace RWave.Condition

open RWave.Format

def maxSignalWidth : Nat := 65536
def maxValueArgLen : Nat := maxSignalWidth + 2
def maxDecimalValueDigits : Nat := 100
def maxHexValueDigits : Nat := (maxSignalWidth + 3) / 4

/-- Comparison operator of a term. -/
inductive Op where
  | eq
  | eqEq
  | ne
  deriving DecidableEq, Repr

/-- `Op::as_str`. -/
def Op.asStr : Op → String
  | .eq => "="
  | .eqEq => "=="
  | .ne => "!="

/-! ## Numbers of any size -/

/-- `BigUint`: little-endian limbs to the base 2^32. -/
structure BigUint where
  limbs : List UInt32
  deriving DecidableEq, Repr

namespace BigUint

def zero : BigUint := ⟨[]⟩

/-- `normalize`: no zero limb on top. -/
def normalize (n : BigUint) : BigUint := ⟨(n.limbs.reverse.dropWhile (· == 0)).reverse⟩

/-- The limbs of a carry. -/
def carryLimbs (carry : UInt64) : List UInt32 :=
  if carry = 0 then [] else (carry &&& 0xFFFFFFFF).toUInt32 :: carryLimbs (carry >>> 32)
termination_by carry.toNat
decreasing_by
  have pos : 0 < carry.toNat := Nat.pos_of_ne_zero fun zero => ‹¬ carry = 0› (UInt64.toNat_inj.mp zero)
  rw [UInt64.toNat_shiftRight, Nat.shiftRight_eq_div_pow]
  exact Nat.div_lt_self pos (by decide)

/-- The loop of `mul_small_add` over the limbs. -/
def mulSmallAddLimbs (mul : UInt32) : List UInt32 → UInt64 → List UInt32
  | [], carry => carryLimbs carry
  | limb :: rest, carry =>
    let v := limb.toUInt64 * mul.toUInt64 + carry
    (v &&& 0xFFFFFFFF).toUInt32 :: mulSmallAddLimbs mul rest (v >>> 32)

/-- `mul_small_add`. -/
def mulSmallAdd (n : BigUint) (mul add : UInt32) : BigUint :=
  ⟨mulSmallAddLimbs mul n.limbs add.toUInt64⟩

/-- `u8::is_ascii_digit`. -/
def isDigit (b : UInt8) : Bool := 0x30 ≤ b && b ≤ 0x39

/-- `u8::is_ascii_hexdigit`. -/
def isHexDigit (b : UInt8) : Bool :=
  isDigit b || (0x41 ≤ b && b ≤ 0x46) || (0x61 ≤ b && b ≤ 0x66)

/-- `char::to_digit(16)` of a hexadecimal digit. -/
def hexValue (b : UInt8) : UInt32 :=
  if isDigit b then (b - 0x30).toUInt32
  else if b ≤ 0x46 then (b - 0x41 + 10).toUInt32
  else (b - 0x61 + 10).toUInt32

/-- `from_decimal`, `from_hex` and `from_binary`: the number its digits denote, when there is one
and all of them are digits of the base. -/
def ofDigits (isDigit : UInt8 → Bool) (value : UInt8 → UInt32) (base : UInt32) (s : String) :
    Option BigUint :=
  if (Str.bytes s).isEmpty || !(Str.bytes s).all isDigit then
    none
  else
    some ((Str.bytes s).foldl (fun n b => n.mulSmallAdd base (value b)) zero).normalize

/-- `from_decimal`. -/
def fromDecimal (s : String) : Option BigUint := ofDigits isDigit (fun b => (b - 0x30).toUInt32) 10 s

/-- `from_hex`. -/
def fromHex (s : String) : Option BigUint := ofDigits isHexDigit hexValue 16 s

/-- `from_binary`. -/
def fromBinary (s : String) : Option BigUint :=
  ofDigits (fun b => b == 0x30 || b == 0x31) (fun b => (b - 0x30).toUInt32) 2 s

end BigUint

/-! ## Targets -/

/-- A parsed target: a number, or a four-state bit pattern when `int` is `none`. -/
structure Target where
  raw : String
  int : Option BigUint
  deriving DecidableEq, Repr

/-- `Target::dedup_key`. -/
def Target.dedupKey (t : Target) : String := t.raw ++ ":" ++ toString t.int.isSome

/-- `Target::is_mask`. -/
def Target.isMask (t : Target) : Bool := t.int.isNone && t.raw.toList.contains '?'

/-- `is_mask_bits`: four-state bits, with `?` among them. -/
def isMaskBits (s : String) : Bool :=
  !(Str.bytes s).isEmpty &&
    (Str.bytes s).all fun b => ("01xz?".toList.map Char.toUInt8).contains b

/-- `parse_binary_body`. -/
def parseBinaryBody (body text : String) : Except String Target :=
  if body = "" then
    .error "binary target must contain at least one bit"
  else if Str.len body > maxSignalWidth then
    .error ("binary target too wide; max bits is " ++ toString maxSignalWidth)
  else
    match BigUint.fromBinary body with
    | some n => .ok ⟨"b" ++ body, some n⟩
    | none =>
      if isMaskBits body then .ok ⟨body, none⟩
      else .error ("invalid binary target " ++ pyrepr text ++
        "; expected only 0/1/x/z, or ? for a don't-care bit")

/-- The bare form of `parse_target_value`: decimal when all are digits, else a four-state literal. -/
def parseBareTarget (raw text : String) : Except String Target :=
  if (Str.bytes raw).all BigUint.isDigit then
    if Str.len raw > maxDecimalValueDigits then
      .error ("decimal target too long; max digits is " ++ toString maxDecimalValueDigits)
    else .ok ⟨raw, BigUint.fromDecimal raw⟩
  else if Str.len raw > maxSignalWidth then
    .error ("literal target too wide; max characters is " ++ toString maxSignalWidth)
  else if (Str.bytes raw).all fun b => ("01xz".toList.map Char.toUInt8).contains b then
    .ok ⟨raw, none⟩
  else if isMaskBits raw then
    .error ("don't-care target " ++ pyrepr text ++ " needs a binary prefix, e.g. b" ++ raw)
  else
    .error ("invalid target " ++ pyrepr text ++ "; expected decimal, 0x.., b.., or 0/1/x/z literal")

/-- `parse_target_value`. -/
def parseTargetValue (host : Host) (text : String) : Except String Target :=
  let raw := host.toLowercase (Str.trim text)
  if raw = "" then
    .error "target value must not be empty"
  else if Str.len raw > maxValueArgLen then
    .error ("target value too long; max length is " ++ toString maxValueArgLen)
  else if Str.startsWith "-" raw then
    .error "negative target values are not supported for waveform matching"
  else
    match Str.stripPrefix "0x" raw with
    | some body =>
      if body = "" then
        .error "hex target must contain at least one digit"
      else if Str.len body > maxHexValueDigits then
        .error ("hex target too wide; max hex digits is " ++ toString maxHexValueDigits)
      else
        match BigUint.fromHex body with
        | some n => .ok ⟨raw, some n⟩
        | none => .error ("invalid hex target " ++ pyrepr text ++
            "; x/z and ? literals must use binary form like b1x0z or b1??0")
    | none =>
      match Str.stripPrefix "0b" raw with
      | some body => parseBinaryBody body text
      | none =>
        match Str.stripPrefix "b" raw with
        | some body => parseBinaryBody body text
        | none =>
          if Str.startsWith "+" raw then
            .error "signed target values are not supported; write unsigned values"
          else parseBareTarget raw text

/-! ## Terms -/

/-- The body of a term. -/
inductive TermBody where
  | level (op : Op) (target : Target) (valueText : String)
  | changed
  deriving DecidableEq, Repr

/-- A term before its signal is resolved. -/
structure ParsedCondition where
  pattern : String
  term : TermBody
  original : String
  deriving DecidableEq, Repr

/-- `parse_changed_term`. -/
def parseChangedTerm (item : String) : Except String (Option ParsedCondition) :=
  if (item.toList.take 8).map Char.toLower ≠ "changed(".toList then
    .ok none
  else
    let body := String.ofList (item.toList.drop 8)
    match Str.stripSuffix ")" body with
    | some inner =>
      let inner := Str.trim inner
      if inner = "" then .error "changed() requires a signal, e.g. changed(req)"
      else .ok (some ⟨inner, .changed, item⟩)
    | none =>
      if body.toList.contains ')' then
        .error ("invalid term " ++ pyrepr item ++
          ": changed(SIG) is a predicate and takes no comparison")
      else
        .error ("invalid term " ++ pyrepr item ++
          ": unclosed changed( — missing ')'? note changed() takes exactly one signal: a comma " ++
          "inside the parens is read as an AND separator, so \"both changed\" is " ++
          "changed(a),changed(b)")

/-- `split_condition`: `!=` is looked for first, then `==`, then `=`. -/
def splitCondition (item : String) : Option (String × Op × String) :=
  let cut := fun (pat : String) (op : Op) =>
    (Str.splitOnce pat.toList item.toList).map fun (sig, val) =>
      (Str.trim (.ofList sig), op, Str.trim (.ofList val))
  (cut "!=" .ne).or ((cut "==" .eqEq).or (cut "=" .eq))

/-- One item of `parse_conditions`. -/
def parseItem (host : Host) (item : String) : Except String ParsedCondition := do
  match ← parseChangedTerm item with
  | some term => return term
  | none =>
    match splitCondition item with
    | none => .error ("invalid condition " ++ pyrepr item ++
        "; expected SIG=VAL, SIG==VAL, SIG!=VAL, or changed(SIG)")
    | some (sig, op, val) =>
      if sig = "" ∨ val = "" then
        .error ("invalid empty signal/value in condition " ++ pyrepr item)
      else
        let target ← parseTargetValue host val
        return ⟨sig, .level op target val, item⟩

/-- `parse_conditions`. -/
def parseConditions (host : Host) (text : String) : Except String (List ParsedCondition) :=
  if Str.trim text = "" then
    .error "search requires --condition"
  else do
    let items := ((Str.split (· == ',') text).map Str.trim).filter (· ≠ "")
    let out ← items.mapM (parseItem host)
    if out.isEmpty then .error "search requires at least one condition" else return out

/-! ## Matching -/

/-- `norm_bit`: one value bit, in the four-state alphabet. -/
def normBit (b : UInt8) : UInt8 :=
  let b := Str.byteLower b
  if b = '0'.toUInt8 ∨ b = 'l'.toUInt8 then '0'.toUInt8
  else if b = '1'.toUInt8 ∨ b = 'h'.toUInt8 then '1'.toUInt8
  else if b = 'z'.toUInt8 then 'z'.toUInt8
  else 'x'.toUInt8

/-- `normalize_4state`. -/
def normalize4state (bits : String) : String :=
  .ofList ((Str.bytes bits).map fun b => Char.ofUInt8 (normBit b))

/-- `is_clean_binary`. -/
def isCleanBinary (bits : String) : Bool :=
  !bits.toList.isEmpty && bits.toList.all fun c => "01hl".toList.contains c.toLower

/-- `has_unknown`. -/
def hasUnknown : Option String → Bool
  | none => false
  | some b => b.toList.any fun c => !"01hl".toList.contains c.toLower

/-- Outcome of comparing a value with a pattern. -/
structure PatternCmp where
  equal : Bool
  caredUnknown : Bool
  deriving DecidableEq, Repr

/-- Is a byte `x` or `z`? -/
def isXz (b : UInt8) : Bool := b == 'x'.toUInt8 || b == 'z'.toUInt8

/-- The pattern bit at an offset from the right, extended by its own first bit when that is `x` or
`z`, by `0` otherwise. -/
def patternBit (p : List UInt8) (off : Nat) : UInt8 :=
  if off < p.length then p.getD (p.length - 1 - off) 0
  else
    match p.head? with
    | some c => if isXz c then c else '0'.toUInt8
    | none => '0'.toUInt8

/-- The value bit at an offset from the right: `0` above the width, unknown when the value is longer
than the signal is wide. -/
def valueBit (v : List UInt8) (width off : Nat) : UInt8 :=
  if off ≥ width then '0'.toUInt8
  else if v.length > width then 'x'.toUInt8
  else if off < v.length then normBit (v.getD (v.length - 1 - off) 0)
  else
    match v.head?.map normBit with
    | some c => if isXz c then c else '0'.toUInt8
    | none => '0'.toUInt8

/-- `pattern_compare`. -/
def patternCompare (valueBits pattern : String) (width : Nat) : PatternCmp :=
  let v := Str.bytes valueBits
  let p := Str.bytes pattern
  (List.range (max width p.length)).foldl
    (fun cmp off =>
      let pb := patternBit p off
      if pb = '?'.toUInt8 then cmp
      else
        let vb := valueBit v width off
        { equal := cmp.equal && vb == pb
          caredUnknown := cmp.caredUnknown || isXz vb })
    ⟨true, false⟩

/-- `value_matches`. -/
def valueMatches (valueBits : Option String) (rawValue : String) (target : Target) (width : Nat) :
    Bool :=
  match target.int with
  | some ti =>
    match valueBits with
    | some bits =>
      isCleanBinary bits && BigUint.fromBinary (normalize4state bits) == some ti
    | none => false
  | none =>
    match valueBits with
    | some bits => (patternCompare bits target.raw width).equal
    | none => rawValue == target.raw

/-- `condition_match`. -/
def conditionMatch (valueBits rawValue : Option String) (op : Op) (target : Target) (width : Nat) :
    Bool :=
  match rawValue with
  | none => false
  | some raw =>
    match op with
    | .eq | .eqEq => valueMatches valueBits raw target width
    | .ne =>
      match target.int, valueBits with
      | none, some bits =>
        let m := patternCompare bits target.raw width
        !m.caredUnknown && !m.equal
      | _, _ => if hasUnknown valueBits then false else !valueMatches valueBits raw target width

end RWave.Condition
