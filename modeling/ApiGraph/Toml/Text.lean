import ApiGraph.Text.Digit

/-!
# Texts in a TOML document

There are four forms of text: on one line or on many, with escapes or without.  A reader takes what
follows the opening quotes and gives the text with what is left after the closing ones.

## What is here

* `basic`, `literal`: texts on one line.
* `basicLines`, `literalLines`: texts on many lines.
-/

set_option autoImplicit false

namespace ApiGraph.Toml

/-- Whether a character may stand in a text or a comment: no control character but the tab. -/
def isTextChar (c : Char) : Bool := c = '\t' || (0x20 ≤ c.toNat && c.toNat ≠ 0x7f)

/-- Whether a character is a space or a tab. -/
def isSpace (c : Char) : Bool := c = ' ' || c = '\t'

/-- The character of a code in base 16, if there is one. -/
def codePoint (digits : List Char) : Option Char := do
  let code := ofDigits 16 (← digits.mapM (digitIn 16))
  if code < 0xd800 || (0xe000 ≤ code && code < 0x110000) then some (.ofNat code) else none

/-- The character that a letter stands for after a backslash. -/
def shortEscape (c : Char) : Option Char :=
  if c = 'b' then some '\x08'
  else if c = 't' then some '\t'
  else if c = 'n' then some '\n'
  else if c = 'f' then some '\x0c'
  else if c = 'r' then some '\r'
  else if c = 'e' then some '\x1b'
  else if c = '\"' then some '\"'
  else if c = '\\' then some '\\'
  else none

/-- What stands after a backslash: a letter or a code, with what follows it. -/
def escape : List Char → Option (Char × List Char)
  | 'x' :: a :: b :: rest => (codePoint [a, b]).map fun c ↦ (c, rest)
  | 'u' :: a :: b :: c :: d :: rest => (codePoint [a, b, c, d]).map fun c ↦ (c, rest)
  | 'U' :: a :: b :: c :: d :: e :: f :: g :: h :: rest =>
    (codePoint [a, b, c, d, e, f, g, h]).map fun c ↦ (c, rest)
  | c :: rest => (shortEscape c).map fun c ↦ (c, rest)
  | [] => none

/-- An escape is not empty. -/
theorem escape_length {s rest : List Char} {c : Char} (h : escape s = some (c, rest)) :
    rest.length < s.length := by
  unfold escape at h
  split at h <;> simp only [Option.map_eq_some_iff, Prod.mk.injEq, reduceCtorEq] at h <;>
    obtain ⟨_, _, _, rfl⟩ := h <;> simp only [List.length_cons] <;> omega

/-- A text and what follows it. -/
abbrev TextResult := Option (String × List Char)

/-! ## One line -/

/-- The rest of a text between single quotes, which has no escapes. -/
def literal (soFar : List Char) : List Char → TextResult
  | '\'' :: rest => some (.ofList soFar.reverse, rest)
  | c :: rest => if isTextChar c then literal (c :: soFar) rest else none
  | [] => none

/-- The rest of a text between double quotes. -/
def basic (soFar : List Char) (s : List Char) : TextResult :=
  match s with
  | '\"' :: rest => some (.ofList soFar.reverse, rest)
  | '\\' :: rest =>
    match _h : escape rest with
    | some (c, rest) => basic (c :: soFar) rest
    | none => none
  | c :: rest => if isTextChar c then basic (c :: soFar) rest else none
  | [] => none
termination_by s.length
decreasing_by
  · have := escape_length _h
    simp only [List.length_cons]
    omega
  · simp

/-! ## Many lines -/

/-- A newline of one or two characters at the front. -/
def newline? : List Char → Option (List Char)
  | '\n' :: rest => some rest
  | '\r' :: '\n' :: rest => some rest
  | _ => none

/-- Without a newline at the front. -/
def dropNewline (s : List Char) : List Char := (newline? s).getD s

/-- The end of a text on many lines: the quotes that still belong to it, and what follows. -/
def closing (quote : Char) : List Char → Option (List Char × List Char)
  | a :: b :: c :: d :: e :: rest =>
    if a ≠ quote || b ≠ quote || c ≠ quote then none
    else if d ≠ quote then some ([], d :: e :: rest)
    else if e ≠ quote then some ([quote], e :: rest)
    else some ([quote, quote], rest)
  | [a, b, c, d] =>
    if a ≠ quote || b ≠ quote || c ≠ quote then none
    else if d ≠ quote then some ([], [d])
    else some ([quote], [])
  | [a, b, c] => if a ≠ quote || b ≠ quote || c ≠ quote then none else some ([], [])
  | _ => none

/-- The rest of a text on many lines between single quotes. -/
def literalLines (soFar : List Char) (s : List Char) : TextResult :=
  match closing '\'' s with
  | some (quotes, rest) => some (.ofList (quotes ++ soFar).reverse, rest)
  | none =>
    match s with
    | '\r' :: '\n' :: rest => literalLines ('\n' :: '\r' :: soFar) rest
    | c :: rest => if isTextChar c || c = '\n' then literalLines (c :: soFar) rest else none
    | [] => none
termination_by s.length

/-- Without the blanks and newlines at the front. -/
def dropLines (s : List Char) : List Char :=
  match s with
  | '\r' :: '\n' :: rest => dropLines rest
  | c :: rest => if isSpace c || c = '\n' then dropLines rest else c :: rest
  | [] => []

/-- Nothing is added by dropping. -/
theorem dropLines_length (s : List Char) : (dropLines s).length ≤ s.length := by
  fun_induction dropLines s <;> simp only [List.length_cons, List.length_nil] at * <;> omega

/-- What follows a backslash that ends a line, without the blanks and newlines there. -/
def lineEnd? (s : List Char) : Option (List Char) :=
  if (newline? (s.dropWhile isSpace)).isSome then some (dropLines s) else none

/-- What follows the end of a line is no longer than the line with it. -/
theorem lineEnd?_length {s rest : List Char} (h : lineEnd? s = some rest) :
    rest.length ≤ s.length := by
  unfold lineEnd? at h
  split at h
  · cases h
    exact dropLines_length s
  · cases h

/-- The rest of a text on many lines between double quotes. -/
def basicLines (soFar : List Char) (s : List Char) : TextResult :=
  match closing '\"' s with
  | some (quotes, rest) => some (.ofList (quotes ++ soFar).reverse, rest)
  | none =>
    match s with
    | '\\' :: rest =>
      match _h : lineEnd? rest with
      | some rest => basicLines soFar rest
      | none =>
        match _h : escape rest with
        | some (c, rest) => basicLines (c :: soFar) rest
        | none => none
    | '\r' :: '\n' :: rest => basicLines ('\n' :: '\r' :: soFar) rest
    | c :: rest => if isTextChar c || c = '\n' then basicLines (c :: soFar) rest else none
    | [] => none
termination_by s.length
decreasing_by
  · have := lineEnd?_length _h
    simp only [List.length_cons]
    omega
  · have := escape_length _h
    simp only [List.length_cons]
    omega
  all_goals simp only [List.length_cons]; omega

end ApiGraph.Toml
