/-!
# Digits

## What is here

* `digitIn`: the value of a digit of a base.
* `ofDigits`: the number that digits denote.
-/

set_option autoImplicit false

namespace ApiGraph

/-- The value of a digit of a base of at most 16, with letters of either case. -/
def digitIn (base : Nat) (c : Char) : Option Nat :=
  let value :=
    if '0' ≤ c && c ≤ '9' then some (c.toNat - '0'.toNat)
    else if 'a' ≤ c && c ≤ 'f' then some (c.toNat - 'a'.toNat + 10)
    else if 'A' ≤ c && c ≤ 'F' then some (c.toNat - 'A'.toNat + 10)
    else none
  value.filter fun n ↦ n < base

/-- The number that digits of a base denote, the first one weighing most. -/
def ofDigits (base : Nat) (digits : List Nat) : Nat := digits.foldl (fun n d ↦ n * base + d) 0

end ApiGraph
