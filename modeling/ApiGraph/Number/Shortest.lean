import ApiGraph.Number.Binary64

/-!
# The fewest digits that read back

A floating point number is written with the fewest decimal digits that still lie in its rounding
interval, the nearer one of two such decimals.  All comparisons are between natural numbers.

## What is here

* `Interval`: the reals that round to a number, and `Interval.contains`.
* `shortest`: the digits and the power of ten of the chosen decimal.
* `FloatNotation`: where the point or an exponent is written, and `FloatNotation.render`.
-/

set_option autoImplicit false

namespace ApiGraph

/-- The reals between `low / den` and `high / den`, with their ends if `closed`. -/
structure Interval where
  /-- Numerator of the lower end. -/
  low : Nat
  /-- Numerator of the number itself. -/
  centre : Nat
  /-- Numerator of the upper end. -/
  high : Nat
  /-- The common denominator. -/
  den : Nat
  /-- Whether the ends belong to it. -/
  closed : Bool

namespace Interval

/-- The reals that round to a number: half way to its neighbours, ends included if its significand
is even.  Below a power of two the neighbour is twice as near. -/
def of (x : Binary64) : Interval :=
  let up := Nat.pow 2 x.exponent.toNat
  let down := Nat.pow 2 (-x.exponent).toNat
  let below := if x.significand == Nat.pow 2 52 && -1074 < x.exponent then 1 else 2
  { low := (4 * x.significand - below) * up
    centre := 4 * x.significand * up
    high := (4 * x.significand + 2) * up
    den := 4 * down
    closed := x.significand % 2 == 0 }

/-- The two sides of a comparison of `d · 10 ^ e` with `n / den`, without the denominators. -/
def sides (i : Interval) (n d : Nat) (e : Int) : Nat × Nat :=
  (d * Nat.pow 10 e.toNat * i.den, n * Nat.pow 10 (-e).toNat)

/-- Whether the decimal `d · 10 ^ e` lies in the interval. -/
def contains (i : Interval) (d : Nat) (e : Int) : Bool :=
  let (a, b) := i.sides i.low d e
  let (c, f) := i.sides i.high d e
  if i.closed then b ≤ a && c ≤ f else b < a && c < f

end Interval

/-- A positive decimal `digits · 10 ^ exponent`. -/
structure Decimal where
  /-- The digits, read as a number. -/
  digits : Nat
  /-- The power of ten. -/
  exponent : Int
deriving DecidableEq, Repr

namespace Decimal

/-- The better of the two grid points around a number that lie in its interval: the nearer one, and
of two equally near the even one. -/
def choose (i : Interval) (d : Nat) (e : Int) : Option Decimal :=
  match i.contains d e, i.contains (d + 1) e with
  | false, false => none
  | true, false => some ⟨d, e⟩
  | false, true => some ⟨d + 1, e⟩
  | true, true =>
    let (twice, sum) := i.sides (2 * i.centre) (2 * d + 1) e
    if sum < twice || (sum == twice && d % 2 == 0) then some ⟨d, e⟩ else some ⟨d + 1, e⟩

/-- The least power of ten above a positive number. -/
def magnitude (x : Binary64) (i : Interval) : Int :=
  let guess := ((Nat.log2 x.significand : Int) + x.exponent) * 30103 / 100000
  let below (k : Int) : Bool :=
    let (a, b) := i.sides i.centre 1 k
    b < a
  if below guess then guess else if below (guess + 1) then guess + 1 else guess + 2

/-- Drops the zeros at the end of the digits, at most `fuel` of them. -/
def strip : Nat → Nat → Int → Decimal
  | 0, d, e => ⟨d, e⟩
  | fuel + 1, d, e => if d % 10 == 0 then strip fuel (d / 10) (e + 1) else ⟨d, e⟩

/-- The decimal of the fewest digits that reads back as a positive number. -/
def shortest (x : Binary64) : Decimal :=
  let i := Interval.of x
  let k := magnitude x i
  let grid (n : Nat) : Option Decimal :=
    let e := k - n
    choose i ((i.centre * Nat.pow 10 (-e).toNat) / (i.den * Nat.pow 10 e.toNat)) e
  match (List.range 18).findSome? fun n ↦ if n = 0 then none else grid n with
  | some d => strip 18 d.digits d.exponent
  | none => ⟨x.ratio.1, 0⟩

end Decimal

/-- How a decimal is laid out. -/
structure FloatNotation where
  /-- The least power of ten of the first digit that is written without an exponent. -/
  leastPlain : Int
  /-- The greatest power of ten of the first digit that is written without an exponent. -/
  greatestPlain : Int

namespace FloatNotation

/-- The text of a run of zeros. -/
def zeros (n : Nat) : String := String.ofList (List.replicate n '0')

/-- The text of a positive decimal. -/
def layout (style : FloatNotation) (d : Decimal) : String :=
  let digits := toString d.digits
  let count : Int := digits.length
  let first := d.exponent + count - 1
  if style.leastPlain ≤ first && first ≤ style.greatestPlain then
    if first < 0 then "0." ++ zeros (-first - 1).toNat ++ digits
    else if count ≤ first + 1 then digits ++ zeros (first + 1 - count).toNat ++ ".0"
    else
      let chars := digits.toList
      String.ofList (chars.take (first + 1).toNat) ++ "." ++
        String.ofList (chars.drop (first + 1).toNat)
  else
    let fraction := String.ofList (digits.toList.drop 1)
    String.ofList (digits.toList.take 1) ++ (if fraction.isEmpty then "" else "." ++ fraction) ++
      (if 0 ≤ first then "e+" else "e-") ++ toString first.natAbs

/-- The text of a number, with a minus if its sign bit is set. -/
def render (style : FloatNotation) (x : Binary64) : String :=
  let magnitude := if x.isZero then "0.0" else style.layout (Decimal.shortest x)
  if x.negative then "-" ++ magnitude else magnitude

end FloatNotation

end ApiGraph
