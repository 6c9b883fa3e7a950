/-!
# Finite floating point numbers, by their exact value

A `Binary64` is one of the finite values of the 64-bit format: a sign and a magnitude `m · 2 ^ q`
with at most 53 bits in `m`.  Arithmetic is exact on natural numbers and rounds once at the end,
to the nearest value and to the even one of two.

## What is here

* `Binary64.ofRatio`: the value nearest to a quotient of natural numbers.
* `ofNat`, `mul`, `div`: the operations that reading a decimal needs.
* `ofDecimal`: the reading rule for a decimal significand and a power of ten.
-/

set_option autoImplicit false

namespace ApiGraph

/-- A finite number of the 64-bit format: `m · 2 ^ q`, negated if `negative`. -/
structure Binary64 where
  /-- Whether the sign bit is set; zero has two signs. -/
  negative : Bool
  /-- The significand `m`, below `2 ^ 53`, and at least `2 ^ 52` unless the exponent is least. -/
  significand : Nat
  /-- The exponent `q`, from `-1074` to `971`. -/
  exponent : Int
deriving DecidableEq, Repr

namespace Binary64

/-- The zero of a sign. -/
def zero (negative : Bool) : Binary64 := ⟨negative, 0, -1074⟩

/-- Whether the number is a zero of either sign. -/
def isZero (x : Binary64) : Bool := x.significand == 0

/-- Equality of the numbers, for which the two zeros are one. -/
def same (x y : Binary64) : Bool := x == y || (x.isZero && y.isZero)

/-- The number with the opposite sign. -/
def neg (x : Binary64) : Binary64 := { x with negative := !x.negative }

/-! ## Rounding -/

/-- The natural number nearest to a quotient, the even one of two. -/
def roundDiv (num den : Nat) : Nat :=
  let quotient := num / den
  let rest := num % den
  if den < 2 * rest || (2 * rest == den && quotient % 2 == 1) then quotient + 1 else quotient

/-- A quotient divided by a power of two, again as a quotient. -/
def scaleDown (num den : Nat) (q : Int) : Nat × Nat :=
  if 0 ≤ q then (num, den * Nat.pow 2 q.toNat) else (num * Nat.pow 2 (-q).toNat, den)

/-- The value nearest to `num / den`, and nothing if that is beyond the largest value. -/
def ofRatio (negative : Bool) (num den : Nat) : Option Binary64 :=
  if num = 0 then some (zero negative)
  else
    let guess : Int := (Nat.log2 num : Int) - Nat.log2 den - 52
    let (n, d) := scaleDown num den guess
    let q := max (if n < Nat.pow 2 52 * d then guess - 1 else guess) (-1074)
    let (n, d) := scaleDown num den q
    let m := roundDiv n d
    let (m, q) := if m = Nat.pow 2 53 then (Nat.pow 2 52, q + 1) else (m, q)
    if 971 < q then none else some ⟨negative, m, q⟩

/-- The magnitude as a quotient of natural numbers. -/
def ratio (x : Binary64) : Nat × Nat :=
  if 0 ≤ x.exponent then (x.significand * Nat.pow 2 x.exponent.toNat, 1)
  else (x.significand, Nat.pow 2 (-x.exponent).toNat)

/-- The value nearest to a natural number that has at most 64 bits. -/
def ofNat (n : Nat) : Binary64 := (ofRatio false n 1).getD (zero false)

/-- The value nearest to an integer of at most 64 bits. -/
def ofInt (n : Int) : Binary64 := if n < 0 then (ofNat n.natAbs).neg else ofNat n.natAbs

/-- The product, rounded once. -/
def mul (x y : Binary64) : Option Binary64 :=
  let (a, b) := x.ratio
  let (c, d) := y.ratio
  ofRatio (x.negative != y.negative) (a * c) (b * d)

/-- The quotient by a number other than zero, rounded once. -/
def div (x y : Binary64) : Option Binary64 :=
  let (a, b) := x.ratio
  let (c, d) := y.ratio
  ofRatio (x.negative != y.negative) (a * d) (b * c)

/-! ## Decimals -/

/-- The value nearest to a power of ten within the format's range. -/
def powerOfTen (k : Nat) : Binary64 := (ofRatio false (Nat.pow 10 k) 1).getD (zero false)

/-- The number `significand · 10 ^ exponent`: the significand is rounded first, and then multiplied
or divided by rounded powers of ten of at most 308 digits.  Nothing is beyond the range. -/
def ofDecimal (negative : Bool) (significand : Nat) (exponent : Int) : Option Binary64 :=
  let start := ofNat significand
  let magnitude :=
    if start.isZero then some start
    else if 308 < exponent then none
    else if 0 ≤ exponent then start.mul (powerOfTen exponent.toNat)
    else if -308 ≤ exponent then start.div (powerOfTen (-exponent).toNat)
    else if -616 ≤ exponent then
      (start.div (powerOfTen 308)).bind fun x ↦ x.div (powerOfTen (-exponent - 308).toNat)
    else some (zero false)
  magnitude.map fun x ↦ { x with negative := negative }

end Binary64

end ApiGraph
