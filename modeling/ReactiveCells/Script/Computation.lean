import ReactiveCells.Script.Value

/-!
# Computations — the functions of a script that only compute

A computation applied to a value of a kind it is not for returns the value unchanged. Integers
wrap at 64 bits; divisors are never zero and bounds never crossed, which `div?`, `mod?` and
`clamp?` see to.
-/

namespace ReactiveCells.Script

/-- A function that computes a value from a value. -/
inductive Computation where
  | identity
  | const (v : Value)
  | add (v : Value)
  | mul (v : Value)
  | neg
  /-- The quotient, rounded toward zero. -/
  | div (n : Int64)
  /-- The remainder that is not negative. -/
  | mod (n : Int64)
  | clamp (lo hi : Int64)
  /-- The decimal digits of an integer. -/
  | str
  /-- The integer that a string spells, or zero. -/
  | parse
  | append (v : Value)
  | concat (vs : List Value)
  | rev
  | len
  | even
  | not
  | wrap
  | first
  | take (n : Nat)
  | drop (n : Nat)
  | dup

/-- A function that computes a value from two values. -/
inductive Combination where
  | sum
  | max
  | hypot
  | pair
  | left
  | right
  | equal

/-- A property of a value, or of how often an observer was called. -/
inductive Test where
  | any
  | eq (v : Value)
  | ne (v : Value)
  | gt (n : Int64)
  | lt (n : Int64)
  | even
  /-- Holds at the `k`-th call of an observer. -/
  | call (k : Int64)

namespace Computation

/-- Division by a number that is not zero. -/
def div? (n : Int64) : Option Computation :=
  if n = 0 then none else some (.div n)

/-- The remainder by a number that is not zero. -/
def mod? (n : Int64) : Option Computation :=
  if n = 0 then none else some (.mod n)

/-- The nearest number between two bounds in order. -/
def clamp? (lo hi : Int64) : Option Computation :=
  if hi < lo then none else some (.clamp lo hi)

/-- The number that decimal digits spell; there must be some. -/
def digitsValue : List Char → Option Nat
  | [] => none
  | cs => if cs.all Char.isDigit then
      some (cs.foldl (fun n c => 10 * n + (c.toNat - '0'.toNat)) 0) else none

/-- The integer that a text spells: at most one sign, then digits, within 64 bits. -/
def integerOf (cs : List Char) : Option Int :=
  let signed : Option Int :=
    match cs with
    | '-' :: ds => (digitsValue ds).map fun n => -(n : Int)
    | '+' :: ds => (digitsValue ds).map fun n => (n : Int)
    | ds => (digitsValue ds).map fun n => (n : Int)
  signed.filter fun n => Int64.minValue.toInt ≤ n && n ≤ Int64.maxValue.toInt

/-- The value of a computation at a value. -/
def apply : Computation → Value → Value
  | .const v, _ => v
  | .add (.int n), .int m => .int (m + n)
  | .add (.float y), .float x => .float (x + y)
  | .mul (.int n), .int m => .int (m * n)
  | .mul (.float y), .float x => .float (x * y)
  | .neg, .int m => .int (-m)
  | .neg, .float x => .float (-x)
  | .div n, .int m => .int (m / n)
  | .mod n, .int m => .int (Int64.ofInt (m.toInt % n.toInt))
  | .clamp lo hi, .int m => .int (if m < lo then lo else if hi < m then hi else m)
  | .str, .int m => .str (toString m.toInt)
  | .parse, .str s => .int (Int64.ofInt ((integerOf s.toList).getD 0))
  | .append (.str t), .str s => .str (s ++ t)
  | .append v, .list vs => .list (vs ++ [v])
  | .concat ws, .list vs => .list (vs ++ ws)
  | .rev, .list vs => .list vs.reverse
  | .rev, .str s => .str (String.ofList s.toList.reverse)
  | .len, .list vs => .int (Int64.ofInt vs.length)
  | .len, .str s => .int (Int64.ofInt s.length)
  | .even, .int m => .bool (m.toInt % 2 == 0)
  | .not, .bool b => .bool !b
  | .wrap, v => .list [v]
  | .first, .list (v :: _) => v
  | .take n, .list vs => .list (vs.take n)
  | .drop n, .list vs => .list (vs.drop n)
  | .dup, .list vs => .list (vs ++ vs)
  | _, v => v

end Computation

/-- The value of a combination at two values; arguments of the wrong kinds give the left one. -/
def Combination.apply : Combination → Value → Value → Value
  | .sum, .int a, .int b => .int (a + b)
  | .sum, .float a, .float b => .float (a + b)
  | .max, .int a, .int b => .int (if a < b then b else a)
  | .hypot, .float a, .float b => .float (a * a + b * b).sqrt
  | .pair, a, b => .list [a, b]
  | .right, _, b => b
  | .equal, a, b => .bool (a == b)
  | _, a, _ => a

/-- Whether a test holds of a value at the given call of an observer, if it is one's. -/
def Test.holds (calls : Option Nat) : Test → Value → Bool
  | .any, _ => true
  | .eq w, v => v == w
  | .ne w, v => v != w
  | .gt n, .int m => n < m
  | .lt n, .int m => m < n
  | .even, .int m => m.toInt % 2 == 0
  | .call k, _ => calls.any fun n => (n : Int) == k.toInt
  | _, _ => false

end ReactiveCells.Script
