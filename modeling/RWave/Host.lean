import Mathlib

/-!
# What the program takes from outside

`Host` collects what `rwave` asks of Rust's floating point and Unicode tables. The development
holds for every choice of these functions. A double is its bit pattern, which is the only thing
the program looks at itself (`f64::to_bits`).
-/

namespace RWave

/-- An `f64`, by its bit pattern. -/
structure F64 where
  toBits : UInt64
  deriving DecidableEq, Repr

/-- Operations of the standard library that the model leaves open. -/
structure Host where
  /-- `format!("{r}")`: the shortest decimal that reads back as `r`. -/
  display : F64 → String
  /-- `str::parse::<f64>`. -/
  parse : String → Option F64
  /-- `format!("{:.*e}", prec, x)`. -/
  displaySci : Nat → F64 → String
  /-- `format!("{:.*}", prec, x)`. -/
  displayFixed : Nat → F64 → String
  mul : F64 → F64 → F64
  div : F64 → F64 → F64
  sub : F64 → F64 → F64
  add : F64 → F64 → F64
  abs : F64 → F64
  round : F64 → F64
  floor : F64 → F64
  trunc : F64 → F64
  isFinite : F64 → Bool
  eq : F64 → F64 → Bool
  lt : F64 → F64 → Bool
  /-- `i as f64`. -/
  ofI64 : Int → F64
  /-- `x as i64`, which saturates. -/
  toI64 : F64 → Int
  /-- `str::to_lowercase`. -/
  toLowercase : String → String

end RWave
