import ApiGraph.Json.Document
import ApiGraph.Script.Program

/-!
# The scope of a scripted program

A scripted program is read from documents in which classes, enums, scalars and nodes go by names.
The scope holds what each name stands for, the callables that have been read so far, and the supply
of identities for data of the program.

## What is here

* `Scope` and `Reading`, the computations that read into a scope.
* `Scope.cls`, `Scope.enum` and their like: what a name stands for.
* `Reading.declaration`: enters a declaration.
-/

set_option autoImplicit false

namespace ApiGraph.Script

/-- What the names of a scripted program stand for. -/
structure Scope where
  /-- The declarations so far, in order. -/
  declared : List (String × Declared) := []
  supply : KeySupply := {}
  enums : OrderedMap String EnumDef := []
  scalars : OrderedMap String ScalarNode := []
  nodes : OrderedMap String GraphNode := []
  program : Program := {}
  /-- The identity of the next piece of data. -/
  nextToken : Nat := 0

/-- What is wrong with a document. -/
inductive NotationError where
  /-- A part of the given name is missing or of the wrong form. -/
  | malformed (part : String)
  /-- A name that stands for nothing where something of a kind is needed. -/
  | unknown (kind name : String)
deriving DecidableEq, Repr

/-- The text of an error. -/
def NotationError.message : NotationError → String
  | .malformed part => "bad input: " ++ part
  | .unknown kind name => "bad input: " ++ kind ++ " " ++ name

/-- A computation that reads into a scope. -/
abbrev Reading := ExceptT NotationError (StateM Scope)

namespace Scope

/-- The classes by name, in the order of their declaration. -/
def classes (s : Scope) : List (String × ClassRef) :=
  s.declared.filterMap fun (name, d) ↦ d.class?.map fun c ↦ (name, c)

/-- The name of a class. -/
def className (s : Scope) (c : ClassRef) : String :=
  ((s.classes.find? fun (_, d) ↦ d == c).map Prod.fst).getD c.name

/-- The name of an enum. -/
def enumName (s : Scope) (d : EnumDef) : String :=
  ((s.enums.find? fun (_, e) ↦ e == d).map Prod.fst).getD ""

end Scope

namespace Reading

/-- Something that must be there. -/
def need {α : Type} (error : NotationError) : Option α → Reading α
  | some a => return a
  | none => throw error

/-- The class of a name. -/
def cls (name : String) : Reading ClassRef := do
  need (.unknown "class" name) (OrderedMap.find (← get).classes name)

/-- The enum of a name. -/
def enum (name : String) : Reading EnumDef := do
  need (.unknown "enum" name) (OrderedMap.find (← get).enums name)

/-- The scalar of a name. -/
def scalar (name : String) : Reading ScalarNode := do
  need (.unknown "scalar" name) (OrderedMap.find (← get).scalars name)

/-- The node of a name. -/
def node (name : String) : Reading GraphNode := do
  need (.unknown "node" name) (OrderedMap.find (← get).nodes name)

/-- The part of a document under a key. -/
def part (j : Json) (key : String) : Reading Json := need (.malformed key) (j.get? key)

/-- The text under a key. -/
def text (j : Json) (key : String) : Reading String := need (.malformed key) (j.textAt? key)

/-- The class whose name is under a key. -/
def classAt (j : Json) (key : String) : Reading ClassRef := do cls (← text j key)

/-- The classes whose names are listed under a key. -/
def classesAt (j : Json) (key : String) : Reading (List ClassRef) :=
  ((j.itemsAt key).filterMap Json.text?).mapM cls

/-- A new piece of data. -/
def data (label : String) : Reading HostData :=
  modifyGet fun s ↦ ({ token := s.nextToken, label }, { s with nextToken := s.nextToken + 1 })

/-- Enters a callable into the program. -/
def enter {α : Type} (add : Program → α × Program) : Reading α :=
  modifyGet fun s ↦
    let (id, program) := add s.program
    (id, { s with program })

/-! ## Wire values -/

/-- An entry of an object, written as a list of a key and a value. -/
def asPair? : Json → Option (String × Json)
  | .array [.string key, value] => some (key, value)
  | _ => none

mutual

/-- The wire value of a document; an object with the key `$` is an enum member or lists its
entries. -/
def wire : Json → WireValue
  | .null => .null
  | .boolean value => .boolean value
  | .number value => .number value
  | .string text => .string text
  | .array items => .list (wireItems items)
  | .object (("$", .string "enum") :: rest) =>
    .enum ((OrderedMap.find rest "name").bind Json.text? |>.getD "")
  | .object (("$", .string "object") :: ("entries", .array entries) :: _) =>
    .object (OrderedMap.ofEntries (wirePairs entries))
  | .object entries => .object (wireEntries entries)

/-- The wire values of several documents. -/
def wireItems : List Json → List WireValue
  | [] => []
  | j :: rest => wire j :: wireItems rest

/-- The wire values of entries. -/
def wireEntries : List (String × Json) → List (String × WireValue)
  | [] => []
  | (key, j) :: rest => (key, wire j) :: wireEntries rest

/-- The wire values of entries written as lists. -/
def wirePairs : List Json → List (String × WireValue)
  | [] => []
  | .array [.string key, j] :: rest => (key, wire j) :: wirePairs rest
  | _ :: rest => wirePairs rest

end

/-! ## Declarations -/

/-- The members of an enum: numbered, with texts, or given one by one. -/
def enumMembers (j : Json) : Reading (List EnumMember) := do
  match j.get? "numeric", j.get? "strings" with
  | some names, _ => return EnumDef.numbered (names.items.filterMap Json.text?)
  | none, some pairs =>
    return EnumDef.texts ((pairs.items.filterMap asPair?).map fun (name, v) ↦
      (name, v.text?.getD ""))
  | none, none =>
    (j.itemsAt "members").mapM fun m ↦ do
      return {
        name := ← text m "name"
        value := wire (← part m "value")
        description := m.textAt? "description"
        deprecation := m.textAt? "deprecated" }

/-- The check of a custom scalar: its values are those of one kind. -/
def validator (kind : String) : Reading (WireValue → Bool) :=
  match kind with
  | "string" => return fun v ↦ (v matches .string _)
  | "number" => return fun v ↦ (v matches .number _)
  | "object" => return fun v ↦ (v matches .object _)
  | "never" => return fun _ ↦ false
  | other => throw (.unknown "validator" other)

/-- Makes a declaration under a name. -/
def declareAs (name : String) (d : Declaration) : Reading Declared :=
  modifyGet fun s ↦
    let (made, supply) := declare (s.declared.map Prod.snd) s.supply d
    (made, { s with declared := s.declared ++ [(name, made)], supply })

/-- The position of an earlier class. -/
def parentPosition (name : String) : Reading Nat := do
  let declared := (← get).declared
  need (.unknown "class" name) (declared.findIdx? fun (n, d) ↦ n == name && d.class?.isSome)

/-- Enters the declaration of a class, an enum or a scalar. -/
def declaration (j : Json) : Reading Unit := do
  match j.textAt? "class", j.textAt? "enum", j.textAt? "scalar" with
  | some name, _, _ =>
    let parent ← (j.textAt? "extends").mapM parentPosition
    let _ ← declareAs name (.cls ((j.textAt? "name").getD name) parent)
  | none, some name, _ =>
    let members ← enumMembers j
    let made ← declareAs name .enum
    modify fun s ↦ { s with enums := OrderedMap.put s.enums name { key := made.key, members } }
  | none, none, some name =>
    let validator ← (j.textAt? "validator").mapM validator
    modify fun s ↦
      let node : ScalarNode :=
        { id := .custom s.scalars.length
          name := (j.textAt? "name").getD name
          description := j.textAt? "description"
          validator }
      { s with scalars := OrderedMap.put s.scalars name node }
  | none, none, none => throw (.malformed "declaration")

end Reading

end ApiGraph.Script
