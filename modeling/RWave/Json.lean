import RWave.Str

/-!
# JSON values and their text

`json.rs`: the values the commands build and the compact serializer. Object members keep the order
in which they are pushed.
-/

namespace RWave

inductive Json where
  | null
  | bool (b : Bool)
  | int (n : Int)
  | str (s : String)
  | array (items : List Json)
  | object (members : List (String × Json))
  deriving Repr

namespace Json

/-- `Json::opt_str`. -/
def optStr : Option String → Json
  | some s => .str s
  | none => .null

/-- `Json::opt_int`. -/
def optInt : Option Int → Json
  | some n => .int n
  | none => .null

/-- `{:04x}` of a control character. -/
def hex4 (c : Char) : String :=
  .ofList ['0', '0', Nat.digitChar (c.toNat / 16), Nat.digitChar (c.toNat % 16)]

/-- `write_json_string`: one character of it. -/
def escape (c : Char) : String :=
  match c with
  | '"' => "\\\""
  | '\\' => "\\\\"
  | '\n' => "\\n"
  | '\r' => "\\r"
  | '\t' => "\\t"
  | '\x08' => "\\b"
  | '\x0c' => "\\f"
  | c => if c.toNat < 0x20 then "\\u" ++ hex4 c else .ofList [c]

/-- `write_json_string`. -/
def writeString (s : String) : String := "\"" ++ String.join (s.toList.map escape) ++ "\""

mutual

/-- `to_compact_string`. -/
def toCompactString : Json → String
  | .null => "null"
  | .bool true => "true"
  | .bool false => "false"
  | .int n => toString n
  | .str s => writeString s
  | .array items => "[" ++ Str.join "," (itemTexts items) ++ "]"
  | .object members => "\x7b" ++ Str.join "," (memberTexts members) ++ "\x7d"

def itemTexts : List Json → List String
  | [] => []
  | item :: rest => toCompactString item :: itemTexts rest

def memberTexts : List (String × Json) → List String
  | [] => []
  | (k, v) :: rest => (writeString k ++ ":" ++ toCompactString v) :: memberTexts rest

end

end Json

/-- `Obj`: the members of an object under construction. -/
structure Obj where
  members : List (String × Json)

namespace Obj

def new : Obj := ⟨[]⟩

def push (o : Obj) (key : String) (value : Json) : Obj := ⟨o.members ++ [(key, value)]⟩

def build (o : Obj) : Json := .object o.members

end Obj

end RWave
