import ApiGraph.DateTime
import ApiGraph.Toml.Item
import ApiGraph.Toml.Text

/-!
# Numbers, truth values and times in a TOML document

Whatever is neither a text nor a bracket is a word, and a word is one of these or an error.

## What is here

* `integer?`, `float?`, `dateTime?`: the words of each kind.
* `scalar?`: what a word stands for.
-/

set_option autoImplicit false

namespace ApiGraph.Toml

/-! ## Numbers -/

/-- The digits of a base, at least one, with single underscores between them. -/
def digits? (base : Nat) : List Char → Option (List Nat)
  | [] => none
  | [c] => (digitIn base c).map fun d ↦ [d]
  | c :: '_' :: rest => do
    let d ← digitIn base c
    let ds ← digits? base rest
    return d :: ds
  | c :: rest => do
    let d ← digitIn base c
    let ds ← digits? base rest
    return d :: ds

/-- The digits of a decimal whole number, which has no leading zero. -/
def whole? (word : List Char) : Option (List Nat) :=
  (digits? 10 word).filter fun ds ↦ ds.length == 1 || ds.head? != some 0

/-- The sign of a word, and the word without it. -/
def sign : List Char → Bool × List Char
  | '-' :: rest => (true, rest)
  | '+' :: rest => (false, rest)
  | word => (false, word)

/-- The integer of a word: decimal with a sign if any, or of base 16, 8 or 2 without one. -/
def integer? : List Char → Option Int
  | '0' :: 'x' :: rest => (digits? 16 rest).map fun ds ↦ ofDigits 16 ds
  | '0' :: 'o' :: rest => (digits? 8 rest).map fun ds ↦ ofDigits 8 ds
  | '0' :: 'b' :: rest => (digits? 2 rest).map fun ds ↦ ofDigits 2 ds
  | word =>
    let (negative, word) := sign word
    (whole? word).map fun ds ↦
      if negative then -(ofDigits 10 ds : Int) else ofDigits 10 ds

/-- The exponent of a float, if it has one. -/
def exponent? : List Char → Option (Option Int)
  | [] => some none
  | _ :: rest =>
    let (negative, rest) := sign rest
    (digits? 10 rest).map fun ds ↦
      some (if negative then -(ofDigits 10 ds : Int) else ofDigits 10 ds)

/-- Whether a character starts an exponent. -/
def isExponentMark (c : Char) : Bool := c = 'e' || c = 'E'

/-- The float nearest to a number of decimal digits and a power of ten, and nothing if that is
beyond the range.  Powers far out of range are not raised. -/
def nearest? (negative : Bool) (digits : List Nat) (power : Int) : Option Binary64 :=
  let digits := digits.dropWhile (· == 0)
  let size := power + digits.length
  if digits.isEmpty || size < -330 then some (.zero negative)
  else if 309 < size then none
  else if 0 ≤ power then
    Binary64.ofRatio negative (ofDigits 10 digits * Nat.pow 10 power.toNat) 1
  else Binary64.ofRatio negative (ofDigits 10 digits) (Nat.pow 10 (-power).toNat)

/-- The float of a word: a whole part with a fraction, an exponent or both, or a word for what is
not finite. -/
def float? (word : List Char) : Option Item := do
  let (negative, word) := sign word
  if word = "inf".toList || word = "nan".toList then some (.float none)
  else
    let front := word.takeWhile fun c ↦ !isExponentMark c
    let whole ← whole? (front.takeWhile fun c ↦ c ≠ '.')
    let fraction ← match front.dropWhile fun c ↦ c ≠ '.' with
      | [] => some []
      | _ :: rest => digits? 10 rest
    let exponent ← exponent? (word.dropWhile fun c ↦ !isExponentMark c)
    if fraction.isEmpty && exponent.isNone then none
    else
      let value ← nearest? negative (whole ++ fraction) (exponent.getD 0 - fraction.length)
      some (.float (some value))

/-! ## Times -/

/-- Reads a date of the calendar. -/
def date? (s : List Char) : Option (List Char) := do
  let (year, s) ← DateTime.digits 0 4 s
  let s ← DateTime.mark '-' s
  let (month, s) ← DateTime.digits 0 2 s
  let s ← DateTime.mark '-' s
  let (day, s) ← DateTime.digits 0 2 s
  if 1 ≤ month && month ≤ 12 && 1 ≤ day && day ≤ DateTime.monthLength year month then some s
  else none

/-- Reads the seconds of a time of day, with a fraction if any; they may be left out. -/
def seconds? : List Char → Option (List Char)
  | ':' :: s => do
    let (second, s) ← DateTime.digits 0 2 s
    let s ← DateTime.fraction s
    if second ≤ 60 then some s else none
  | s => some s

/-- Reads a time of day. -/
def time? (s : List Char) : Option (List Char) := do
  let (hour, s) ← DateTime.digits 0 2 s
  let s ← DateTime.mark ':' s
  let (minute, s) ← DateTime.digits 0 2 s
  let s ← seconds? s
  if hour ≤ 23 && minute ≤ 59 then some s else none

/-- Whether a word is a date, a time of day or both, the latter with an offset if any. -/
def isDateTimeWord (word : List Char) : Bool :=
  match date? word with
  | some [] => true
  | some (c :: rest) =>
    (c = 'T' || c = 't' || c = ' ') &&
      match time? rest with
      | some [] => true
      | some rest => ((DateTime.zone rest).map fun (_, rest) ↦ rest.isEmpty).getD false
      | none => false
  | none => time? word == some []

/-! ## Words -/

/-- What a word stands for. -/
def scalar? (word : List Char) : Option Item :=
  if word = "true".toList then some (.boolean true)
  else if word = "false".toList then some (.boolean false)
  else ((integer? word).map .integer).or <| (float? word).or <|
    if isDateTimeWord word then some (.dateTime (.ofList word)) else none

end ApiGraph.Toml
