import ApiGraph.Number.Shortest

/-!
# Numbers on the wire

A wire number is an integer of at most 64 bits or a finite floating point number; the two are
different numbers even where their values agree.

## What is here

* `WireNumber.same`: equality, for which an integer never equals a float.
* `WireNumber.read`: what the digits of a written number denote.
* `WireNumber.text`: how a number is written.
-/

set_option autoImplicit false

namespace ApiGraph

/-- A number as the wire carries it. -/
inductive WireNumber where
  /-- An integer from `-2 ^ 63` to `2 ^ 64 - 1`. -/
  | int (value : Int)
  /-- A finite floating point number. -/
  | float (value : Binary64)
deriving DecidableEq, Repr

namespace WireNumber

/-- Equality of two integers or of two floats. -/
def same : WireNumber → WireNumber → Bool
  | .int a, .int b => a == b
  | .float a, .float b => a.same b
  | _, _ => false

/-- The number as a signed 64-bit integer; floats are never one. -/
def toInt64? : WireNumber → Option Int
  | .int n => if n.toNat < Nat.pow 2 63 then some n else none
  | .float _ => none

/-- The number as a float, rounded if need be. -/
def toFloat : WireNumber → Binary64
  | .int n => .ofInt n
  | .float x => x

/-! ## Reading -/

/-- The leading digits that fit into 64 bits, read as a number, and how many digits are left. -/
def leading (soFar : Nat) : List Nat → Nat × Nat
  | [] => (soFar, 0)
  | d :: rest =>
    if Nat.pow 2 64 ≤ soFar * 10 + d then (soFar, rest.length + 1) else leading (soFar * 10 + d) rest

/-- What a written number denotes: an integer if it has neither fraction nor exponent and fits into
64 bits, and a float otherwise.  Nothing is beyond the range, and minus zero is a float. -/
def read (negative : Bool) (whole fraction : List Nat) (exponent : Option Int) :
    Option WireNumber :=
  let (significand, left) := leading 0 (whole ++ fraction)
  if fraction.isEmpty && exponent.isNone && left == 0 &&
      (!negative || (0 < significand && significand ≤ Nat.pow 2 63)) then
    some (.int (if negative then -significand else significand))
  else
    (Binary64.ofDecimal negative significand
      (exponent.getD 0 - fraction.length + left)).map .float

/-! ## Writing -/

/-- Floats are written without an exponent from `10 ^ -5` to below `10 ^ 16`. -/
def floatNotation : FloatNotation := ⟨-5, 15⟩

/-- The text of a number; a float always shows a fraction or an exponent. -/
def text : WireNumber → String
  | .int n => toString n
  | .float x => floatNotation.render x

end WireNumber

end ApiGraph
