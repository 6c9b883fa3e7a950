import ApiGraph.Text.Digit
import ApiGraph.Wire.Value

/-!
# Date-times in the internet format

A date-time text is a date, one separating character, a time of day with seconds, and an offset
from universal time.  Reading is split from checking: `DateTime.parse?` says which texts have the
form, `DateTime.Valid` which of them name an instant.

## What is here

* `DateTime.parse?`: the grammar.
* `DateTime.valid`: the ranges, and the one place where a second 60 may stand.
* `isDateTime`: whether a wire value is the text of a date-time.
-/

set_option autoImplicit false

namespace ApiGraph

/-- The fields of a date-time text. -/
structure DateTime where
  year : Nat
  month : Nat
  day : Nat
  hour : Nat
  minute : Nat
  second : Nat
  /-- Minutes ahead of universal time. -/
  offset : Int
deriving DecidableEq, Repr

namespace DateTime

/-! ## The grammar -/

/-- The value of a decimal digit. -/
def digit? (c : Char) : Option Nat := digitIn 10 c

/-- Reads a given number of digits onto a number. -/
def digits (soFar : Nat) : Nat → List Char → Option (Nat × List Char)
  | 0, rest => some (soFar, rest)
  | _ + 1, [] => none
  | n + 1, c :: rest => (digit? c).bind fun d ↦ digits (soFar * 10 + d) n rest

/-- Reads one given character. -/
def mark (c : Char) : List Char → Option (List Char)
  | [] => none
  | d :: rest => if d = c then some rest else none

/-- Reads a separator: any character of one byte. -/
def separator : List Char → Option (List Char)
  | [] => none
  | c :: rest => if c.toNat < 128 then some rest else none

/-- Skips a fraction of a second: a point and at least one digit, or nothing. -/
def fraction : List Char → Option (List Char)
  | '.' :: c :: rest =>
    (digit? c).map fun _ ↦ rest.dropWhile fun c ↦ (digit? c).isSome
  | '.' :: [] => none
  | rest => some rest

/-- Reads an offset in minutes: `Z`, or a sign, hours below 24 and minutes below 60. -/
def zone : List Char → Option (Int × List Char)
  | [] => none
  | c :: rest =>
    if c = 'Z' || c = 'z' then some (0, rest)
    else if c = '+' || c = '-' then do
      let (hours, rest) ← digits 0 2 rest
      let rest ← mark ':' rest
      let (minutes, rest) ← digits 0 2 rest
      if hours ≤ 23 && minutes ≤ 59 then
        let total : Int := hours * 60 + minutes
        some (if c = '-' then -total else total, rest)
      else none
    else none

/-- Reads a date-time text to its end. -/
def parse? (text : String) : Option DateTime := do
  let (year, rest) ← digits 0 4 text.toList
  let rest ← mark '-' rest
  let (month, rest) ← digits 0 2 rest
  let rest ← mark '-' rest
  let (day, rest) ← digits 0 2 rest
  let rest ← separator rest
  let (hour, rest) ← digits 0 2 rest
  let rest ← mark ':' rest
  let (minute, rest) ← digits 0 2 rest
  let rest ← mark ':' rest
  let (second, rest) ← digits 0 2 rest
  let rest ← fraction rest
  let (offset, rest) ← zone rest
  if rest.isEmpty then some ⟨year, month, day, hour, minute, second, offset⟩ else none

/-! ## The calendar -/

/-- Whether a year has a 29th of February. -/
def isLeap (year : Nat) : Bool := year % 4 == 0 && (year % 100 != 0 || year % 400 == 0)

/-- The number of days of a month. -/
def monthLength (year month : Nat) : Nat :=
  if month = 2 then if isLeap year then 29 else 28
  else if month = 4 || month = 6 || month = 9 || month = 11 then 30
  else 31

/-- Whether the minute is, in universal time, the last one of a month. -/
def endsMonth (t : DateTime) : Bool :=
  let minutes : Int := t.hour * 60 + t.minute - t.offset
  if minutes == 1439 then t.day == monthLength t.year t.month
  else if minutes == -1 then t.day == 1
  else if minutes == 2879 then t.day + 1 == monthLength t.year t.month
  else false

/-- Whether the fields name an instant: all in range, with a second 60 only where a month ends in
universal time. -/
def valid (t : DateTime) : Bool :=
  1 ≤ t.month && t.month ≤ 12 && 1 ≤ t.day && t.day ≤ monthLength t.year t.month &&
    t.hour ≤ 23 && t.minute ≤ 59 && (t.second ≤ 59 || (t.second == 60 && t.endsMonth))

end DateTime

/-- Whether a wire value is the text of a date-time. -/
def isDateTime : WireValue → Bool
  | .string text => ((DateTime.parse? text).map DateTime.valid).getD false
  | _ => false

end ApiGraph
