import ApiGraph.Json.Document
import ApiGraph.Text.Digit

/-!
# Reading JSON

The readers of a part give it with what follows it, or nothing if it is malformed.  Values nest, so
their readers carry a bound; every step consumes a character, so the length of the text is a bound
that is never met.

## What is here

* `Json.readText`, `Json.readNumber`: texts and numbers.
* `Json.parse?`: the document of a text.
-/

set_option autoImplicit false

namespace ApiGraph.Json

/-- Without the blanks at the front. -/
def dropBlanks (s : List Char) : List Char :=
  s.dropWhile fun c ↦ c = ' ' || c = '\t' || c = '\n' || c = '\r'

/-! ## Texts -/

/-- The number of four digits of base 16. -/
def code? (a b c d : Char) : Option Nat :=
  ([a, b, c, d].mapM (digitIn 16)).map (ofDigits 16)

/-- The character that two halves of a surrogate pair stand for. -/
def joined (high low : Nat) : Char :=
  .ofNat (0x10000 + (high - 0xd800) * 0x400 + (low - 0xdc00))

/-- The character that a letter stands for after a backslash. -/
def unescaped (c : Char) : Option Char :=
  if c = 'n' then some '\n'
  else if c = 't' then some '\t'
  else if c = 'r' then some '\r'
  else if c = 'b' then some '\x08'
  else if c = 'f' then some '\x0c'
  else if c = '\"' || c = '\\' || c = '/' then some c
  else none

/-- The rest of a text after its opening quote. -/
def readText (soFar : List Char) (s : List Char) : Option (String × List Char) :=
  match s with
  | '\"' :: rest => some (.ofList soFar.reverse, rest)
  | '\\' :: 'u' :: a :: b :: c :: d :: rest =>
    match code? a b c d, rest with
    | none, _ => none
    | some high, '\\' :: 'u' :: e :: f :: g :: h :: more =>
      if 0xd800 ≤ high && high < 0xdc00 then
        match code? e f g h with
        | some low => readText (joined high low :: soFar) more
        | none => none
      else readText (.ofNat high :: soFar) ('\\' :: 'u' :: e :: f :: g :: h :: more)
    | some n, rest => readText (.ofNat n :: soFar) rest
  | '\\' :: c :: rest =>
    match unescaped c with
    | some c => readText (c :: soFar) rest
    | none => none
  | c :: rest => readText (c :: soFar) rest
  | [] => none
termination_by s.length
decreasing_by all_goals simp only [List.length_cons]; omega

/-! ## Numbers -/

/-- The digits at the front, with what follows them. -/
def readDigits (s : List Char) : List Nat × List Char :=
  ((s.takeWhile Char.isDigit).filterMap (digitIn 10), s.dropWhile Char.isDigit)

/-- A sign at the front: whether it is a minus, and what follows. -/
def readSign : List Char → Bool × List Char
  | '-' :: rest => (true, rest)
  | '+' :: rest => (false, rest)
  | s => (false, s)

/-- An exponent at the front, if there is one. -/
def readExponent : List Char → Option Int × List Char
  | c :: rest =>
    if c = 'e' || c = 'E' then
      let (negative, rest) := readSign rest
      let (digits, rest) := readDigits rest
      let n : Int := Int.ofNat (ofDigits 10 digits)
      (some (if negative then -n else n), rest)
    else (none, c :: rest)
  | [] => (none, [])

/-- A number at the front. -/
def readNumber (s : List Char) : Option (WireNumber × List Char) :=
  let (negative, s) := match s with
    | '-' :: rest => (true, rest)
    | s => (false, s)
  let (whole, s) := readDigits s
  let (fraction, s) := match s with
    | '.' :: rest => readDigits rest
    | s => ([], s)
  let (exponent, s) := readExponent s
  if whole.isEmpty then none
  else (WireNumber.read negative whole fraction exponent).map fun n ↦ (n, s)

/-! ## Documents -/

mutual

/-- A value at the front. -/
def readValue : Nat → List Char → Option (Json × List Char)
  | 0, _ => none
  | n + 1, s =>
    match dropBlanks s with
    | 'n' :: 'u' :: 'l' :: 'l' :: rest => some (.null, rest)
    | 't' :: 'r' :: 'u' :: 'e' :: rest => some (.boolean true, rest)
    | 'f' :: 'a' :: 'l' :: 's' :: 'e' :: rest => some (.boolean false, rest)
    | '\"' :: rest => (readText [] rest).map fun (text, rest) ↦ (.string text, rest)
    | '[' :: rest =>
      match dropBlanks rest with
      | ']' :: rest => some (.array [], rest)
      | rest => readItems n [] rest
    | '\x7b' :: rest =>
      match dropBlanks rest with
      | '\x7d' :: rest => some (.object [], rest)
      | rest => readEntries n [] rest
    | s => (readNumber s).map fun (value, rest) ↦ (.number value, rest)

/-- The rest of an array, after some items in reverse. -/
def readItems : Nat → List Json → List Char → Option (Json × List Char)
  | 0, _, _ => none
  | n + 1, soFar, s => do
    let (item, s) ← readValue n s
    match dropBlanks s with
    | ',' :: rest => readItems n (item :: soFar) rest
    | ']' :: rest => some (.array (item :: soFar).reverse, rest)
    | _ => none

/-- The rest of an object, after some entries in reverse; of equal keys the last value counts. -/
def readEntries : Nat → List (String × Json) → List Char → Option (Json × List Char)
  | 0, _, _ => none
  | n + 1, soFar, s =>
    match dropBlanks s with
    | '\"' :: rest => do
      let (key, rest) ← readText [] rest
      match dropBlanks rest with
      | ':' :: rest =>
        let (value, s) ← readValue n rest
        match dropBlanks s with
        | ',' :: rest => readEntries n ((key, value) :: soFar) rest
        | '\x7d' :: rest =>
          some (.object (OrderedMap.ofEntries ((key, value) :: soFar).reverse), rest)
        | _ => none
      | _ => none
    | _ => none

end

/-- The document of a text. -/
def parse? (text : String) : Option Json :=
  match readValue (2 * text.length + 2) text.toList with
  | some (j, rest) => if (dropBlanks rest).isEmpty then some j else none
  | none => none

end ApiGraph.Json
