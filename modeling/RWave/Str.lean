import RWave.Host

/-!
# Strings as Rust has them

The string functions the program calls, under the names of Rust's standard library. A string is
worked on as its characters; where the source goes by bytes, as its UTF-8 bytes.
-/

namespace RWave.Str

/-- `char::is_whitespace`: the characters with Unicode's `White_Space` property. -/
def isWhitespace (c : Char) : Bool :=
  (0x09 ≤ c.toNat && c.toNat ≤ 0x0D) || (0x2000 ≤ c.toNat && c.toNat ≤ 0x200A) ||
    [0x20, 0x85, 0xA0, 0x1680, 0x2028, 0x2029, 0x202F, 0x205F, 0x3000].contains c.toNat

/-- `as_bytes`. -/
def bytes (s : String) : List UInt8 := s.toList.flatMap String.utf8EncodeChar

/-- `len`: the number of bytes. -/
def len (s : String) : Nat := (bytes s).length

/-- `trim_start_matches`. -/
def trimStartMatches (p : Char → Bool) (s : String) : String := .ofList (s.toList.dropWhile p)

/-- `trim_end_matches`. -/
def trimEndMatches (p : Char → Bool) (s : String) : String :=
  .ofList (s.toList.reverse.dropWhile p).reverse

/-- `trim_matches`. -/
def trimMatches (p : Char → Bool) (s : String) : String := trimEndMatches p (trimStartMatches p s)

/-- `trim`. -/
def trim (s : String) : String := trimMatches isWhitespace s

/-- `is_empty`. -/
def isEmpty (s : String) : Bool := s.toList.isEmpty

/-- `contains` of a character pattern. -/
def containsChar (p : Char → Bool) (s : String) : Bool := s.toList.any p

/-- `starts_with`. -/
def startsWith (pat s : String) : Bool := pat.toList.isPrefixOf s.toList

/-- `strip_prefix`. -/
def stripPrefix (pat s : String) : Option String :=
  if startsWith pat s then some (.ofList (s.toList.drop pat.toList.length)) else none

/-- `strip_suffix`. -/
def stripSuffix (pat s : String) : Option String :=
  if pat.toList.isSuffixOf s.toList then
    some (.ofList (s.toList.take (s.toList.length - pat.toList.length)))
  else none

/-- `find`: what stands before the first occurrence of `pat`, and what after it. -/
def splitOnce (pat : List Char) : List Char → Option (List Char × List Char)
  | [] => if pat.isEmpty then some ([], []) else none
  | c :: cs =>
    if pat.isPrefixOf (c :: cs) then some ([], (c :: cs).drop pat.length)
    else (splitOnce pat cs).map fun (before, after) => (c :: before, after)

/-- `contains` of a string pattern. -/
def contains (pat s : String) : Bool := (splitOnce pat.toList s.toList).isSome

/-- `rfind` of a character pattern: what stands before its last occurrence, and what after it. -/
def rsplitOnce (p : Char → Bool) (s : String) : Option (String × String) :=
  let after := s.toList.reverse.takeWhile fun c => !p c
  match s.toList.reverse.drop after.length with
  | [] => none
  | _ :: before => some (.ofList before.reverse, .ofList after.reverse)

/-- `split` at a character pattern. -/
def split (p : Char → Bool) (s : String) : List String := (s.toList.splitOnP p).map String.ofList

/-- `get(n..)`: the characters from byte `n` on, if a character begins there. -/
def getFrom (n : Nat) : List Char → Option (List Char)
  | [] => if n = 0 then some [] else none
  | c :: cs =>
    if n = 0 then some (c :: cs)
    else if c.utf8Size ≤ n then getFrom (n - c.utf8Size) cs
    else none

/-- `join`. -/
def join (sep : String) (parts : List String) : String := sep.intercalate parts

/-- `repeat` of one character. -/
def replicate (n : Nat) (c : Char) : String := .ofList (List.replicate n c)

/-- `u8::to_ascii_lowercase`. -/
def byteLower (b : UInt8) : UInt8 := if 0x41 ≤ b ∧ b ≤ 0x5A then b + 0x20 else b

/-- `str::to_ascii_lowercase`. -/
def toAsciiLowercase (s : String) : String := .ofList (s.toList.map Char.toLower)

/-- `to_uppercase` of ASCII text. -/
def toAsciiUppercase (s : String) : String := .ofList (s.toList.map Char.toUpper)

/-- `str::parse::<i64>`: an optional sign and digits, in range. -/
def parseI64 (s : String) : Option Int :=
  let (neg, digits) :=
    match s.toList with
    | '-' :: rest => (true, rest)
    | '+' :: rest => (false, rest)
    | rest => (false, rest)
  if digits.isEmpty || !digits.all Char.isDigit then
    none
  else
    let n : Int := digits.foldl (fun n c => n * 10 + (c.toNat - '0'.toNat)) (0 : Nat)
    let v := if neg then -n else n
    if -2 ^ 63 ≤ v ∧ v < 2 ^ 63 then some v else none

end RWave.Str
