import ApiGraph.Toml.Scalar

/-!
# Reading a TOML document

A document is a sequence of lines: a key with its value, a header, or nothing, each perhaps with a
comment.  The readers of a part give it with what follows it, or nothing if it is malformed.

Values nest, so their readers carry a bound.  Every step of theirs consumes a character, so the
length of the text is a bound that is never met.  How deep values may nest and how long keys may be
has a limit of its own.

## What is here

* `key?`: dotted keys.
* `value?`: values; `array?` and `braces?` for those that nest.
* `document?`: the table of a whole document.
-/

set_option autoImplicit false

namespace ApiGraph.Toml

/-! ## Blanks -/

/-- Without the spaces and tabs at the front. -/
def dropSpaces (s : List Char) : List Char := s.dropWhile isSpace

/-- Without the comment at the front, if there is one; a newline is no part of it. -/
def dropComment : List Char → List Char
  | '#' :: rest => rest.dropWhile isTextChar
  | s => s

/-- Without the blanks, comments and newlines at the front. -/
def dropBlanks (s : List Char) : List Char :=
  match s with
  | '\n' :: rest => dropBlanks rest
  | '\r' :: '\n' :: rest => dropBlanks rest
  | '#' :: rest => dropBlanks (rest.dropWhile isTextChar)
  | c :: rest => if isSpace c then dropBlanks rest else c :: rest
  | [] => []
termination_by s.length
decreasing_by
  all_goals simp only [List.length_cons]
  all_goals try omega
  have : rest.dropWhile isTextChar <:+ rest := List.dropWhile_suffix isTextChar
  have := this.length_le
  omega

/-- What follows the end of a line, which may have a comment. -/
def endLine? (s : List Char) : Option (List Char) :=
  match dropComment (dropSpaces s) with
  | [] => some []
  | s => newline? s

/-! ## Keys -/

/-- Whether a character may stand in a key without quotes. -/
def isKeyChar (c : Char) : Bool :=
  ('a' ≤ c && c ≤ 'z') || ('A' ≤ c && c ≤ 'Z') || ('0' ≤ c && c ≤ '9') || c = '-' || c = '_'

/-- Reads one part of a key. -/
def keyPart? : List Char → Option (String × List Char)
  | '\"' :: rest => basic [] rest
  | '\'' :: rest => literal [] rest
  | s =>
    let part := s.takeWhile isKeyChar
    if part.isEmpty then none else some (.ofList part, s.dropWhile isKeyChar)

/-- Reads a dotted key of at most the given number of parts. -/
def keyWithin? : Nat → List Char → Option (List String × List Char)
  | 0, _ => none
  | n + 1, s => do
    let (part, s) ← keyPart? (dropSpaces s)
    match dropSpaces s with
    | '.' :: rest =>
      let (parts, s) ← keyWithin? n rest
      some (part :: parts, s)
    | s => some ([part], s)

/-- How many parts a key may have, and how many brackets and braces may be open at a time. -/
def maxNesting : Nat := 80

/-- Reads a dotted key and the spaces after it. -/
def key? (s : List Char) : Option (List String × List Char) := keyWithin? maxNesting s

/-! ## Values -/

/-- Whether a character may stand in a word. -/
def isWordChar (c : Char) : Bool := isKeyChar c || c = '+' || c = '.' || c = ':'

/-- The word at the front; a date goes on after a space if a digit follows. -/
def word (s : List Char) : List Char × List Char :=
  let first := s.takeWhile isWordChar
  match date? first, s.dropWhile isWordChar with
  | some [], ' ' :: c :: rest =>
    if (DateTime.digit? c).isSome then
      (first ++ ' ' :: (c :: rest).takeWhile isWordChar, (c :: rest).dropWhile isWordChar)
    else (first, ' ' :: c :: rest)
  | _, rest => (first, rest)

/-- Reads a text with its quotes, or a word. -/
def simple? : List Char → Option (Item × List Char)
  | '\"' :: '\"' :: '\"' :: rest =>
    (basicLines [] (dropNewline rest)).map fun (text, rest) ↦ (.string text, rest)
  | '\'' :: '\'' :: '\'' :: rest =>
    (literalLines [] (dropNewline rest)).map fun (text, rest) ↦ (.string text, rest)
  | '\"' :: rest => (basic [] rest).map fun (text, rest) ↦ (.string text, rest)
  | '\'' :: rest => (literal [] rest).map fun (text, rest) ↦ (.string text, rest)
  | s =>
    let (word, rest) := word s
    (scalar? word).map fun item ↦ (item, rest)

mutual

/-- Reads a value in which the first number of brackets and braces may be open at a time. -/
def value? (room : Nat) : Nat → List Char → Option (Item × List Char)
  | 0, _ => none
  | n + 1, '[' :: rest =>
    match room with
    | 0 => none
    | room + 1 => array? room n [] rest
  | n + 1, '\x7b' :: rest =>
    match room with
    | 0 => none
    | room + 1 => braces? room n [] rest
  | _ + 1, s => simple? s

/-- Reads the rest of a list between brackets, after some items. -/
def array? (room : Nat) : Nat → List Item → List Char → Option (Item × List Char)
  | 0, _, _ => none
  | n + 1, items, s =>
    match dropBlanks s with
    | ']' :: rest => some (.array items.reverse, rest)
    | s => do
      let (item, s) ← value? room n s
      match dropBlanks s with
      | ',' :: rest => array? room n (item :: items) rest
      | ']' :: rest => some (.array (item :: items).reverse, rest)
      | _ => none

/-- Reads the rest of a table between braces, after some entries.  Blanks may stand everywhere but
within a key. -/
def braces? (room : Nat) : Nat → Table → List Char → Option (Item × List Char)
  | 0, _, _ => none
  | n + 1, entries, s =>
    match dropBlanks s with
    | '\x7d' :: rest => some (.table .inline entries, rest)
    | s => do
      let (path, s) ← key? s
      let s ← DateTime.mark '=' (dropBlanks s)
      let (item, s) ← value? room n (dropBlanks s)
      let entries ← entries.define path item
      match dropBlanks s with
      | ',' :: rest => braces? room n entries rest
      | '\x7d' :: rest => some (.table .inline entries, rest)
      | _ => none

end

/-! ## Documents -/

/-- Reads a key with its value into the table of a header. -/
def keyLine? (header : List String) (t : Table) (s : List Char) : Option (Table × List Char) := do
  let (path, s) ← key? s
  let s ← DateTime.mark '=' s
  let s := dropSpaces s
  let (item, s) ← value? maxNesting (s.length + 1) s
  let t ← t.defineUnder header path item
  let s ← endLine? s
  some (t, s)

/-- Reads the rest of a header and opens its table. -/
def tableLine? (t : Table) (s : List Char) : Option (List String × Table × List Char) := do
  let (path, s) ← key? s
  let s ← DateTime.mark ']' s
  let t ← t.openTable path
  let s ← endLine? s
  some (path, t, s)

/-- Reads the rest of a header in double brackets and opens a row. -/
def rowLine? (t : Table) (s : List Char) : Option (List String × Table × List Char) := do
  let (path, s) ← key? s
  let s ← DateTime.mark ']' s
  let s ← DateTime.mark ']' s
  let t ← t.openRow path
  let s ← endLine? s
  some (path, t, s)

/-- Reads at most the given number of lines under a header. -/
def lines? : Nat → List String → Table → List Char → Option Table
  | 0, _, _, _ => none
  | n + 1, header, t, s =>
    match dropBlanks s with
    | [] => some t
    | '[' :: '[' :: rest => do
      let (header, t, s) ← rowLine? t rest
      lines? n header t s
    | '[' :: rest => do
      let (header, t, s) ← tableLine? t rest
      lines? n header t s
    | s => do
      let (t, s) ← keyLine? header t s
      lines? n header t s

/-- The table of a document, which may start with a byte order mark. -/
def document? (text : String) : Option Table :=
  let s := match text.toList with
    | '\ufeff' :: rest => rest
    | s => s
  lines? (s.length + 1) [] [] s

end ApiGraph.Toml
