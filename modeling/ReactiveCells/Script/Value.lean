import ReactiveCells.OrderedSet

/-!
# Script values — what the containers of a script hold

Scripts use one kind of value for everything: booleans, integers of 64 bits, floats, strings and
lists. Values of different kinds are never equal, and floats compare as numbers, so a NaN differs
from itself even inside a list.

The text of a value is its shortest form in the exchange format: no spaces, floats by their bits,
and only quotes, backslashes and control characters escaped in strings.
-/

namespace ReactiveCells.Script

/-- A value of a script. -/
inductive Value where
  | bool (b : Bool)
  | int (n : Int64)
  | float (x : Float)
  | str (s : String)
  | list (vs : List Value)

instance : Inhabited Value := ⟨.bool false⟩


namespace Value

mutual

/-- Equality by structure. -/
def equal : Value → Value → Bool
  | .bool a, .bool b => a == b
  | .int a, .int b => a == b
  | .float a, .float b => a == b
  | .str a, .str b => a == b
  | .list vs, .list ws => equalAll vs ws
  | _, _ => false

def equalAll : List Value → List Value → Bool
  | [], [] => true
  | v :: vs, w :: ws => equal v w && equalAll vs ws
  | _, _ => false

end

instance : BEq Value := ⟨equal⟩

/-- A list has its elements; any other value stands for the list of itself. -/
instance : HasElements Value Value where
  elements
    | .list vs => vs
    | v => [v]
  ofElements := .list

/-- The four bits of a number as a lower-case digit. -/
def hexDigit (n : UInt64) : Char :=
  let d := n.toNat % 16
  if d < 10 then Char.ofNat ('0'.toNat + d) else Char.ofNat ('a'.toNat + (d - 10))

/-- The lowest `digits` hexadecimal digits of a number, the highest first. -/
def hexText (digits : Nat) (n : UInt64) : String :=
  String.ofList ((List.range digits).reverse.map fun i => hexDigit (n >>> (4 * i).toUInt64))

/-- The bits of a float, with one pattern for every NaN. -/
def floatBits (x : Float) : UInt64 :=
  if x.isNaN then 0x7ff8000000000000 else x.toBits

/-- The text of a float: its sixteen hexadecimal digits. -/
def floatText (x : Float) : String :=
  hexText 16 (floatBits x)

/-- How a character is written inside quotes. -/
def escaped (c : Char) : String :=
  if c = '"' then "\\\""
  else if c = '\\' then "\\\\"
  else if c = '\n' then "\\n"
  else if c = '\r' then "\\r"
  else if c = '\t' then "\\t"
  else if c.toNat = 8 then "\\b"
  else if c.toNat = 12 then "\\f"
  else if c.toNat < 32 then "\\u" ++ hexText 4 c.toNat.toUInt64
  else c.toString

/-- A string between quotes. -/
def quoted (s : String) : String :=
  "\"" ++ String.join (s.toList.map escaped) ++ "\""

mutual

/-- The text of a value. -/
def text : Value → String
  | .bool b => flagText b
  | .int n => toString n.toInt
  | .float x => "\x7b\"f\":\"" ++ floatText x ++ "\"\x7d"
  | .str s => quoted s
  | .list vs => "[" ++ ",".intercalate (texts vs) ++ "]"

def texts : List Value → List String
  | [] => []
  | v :: vs => text v :: texts vs

end

end Value

end ReactiveCells.Script
