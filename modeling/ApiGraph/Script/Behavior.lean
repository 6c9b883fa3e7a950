import ApiGraph.Host

/-!
# Behaviours of scripted methods

A scripted program is one whose callables are data.  A `Behavior` says what a method does: it is an
expression over the source and the arguments, which may fail, count and report what it was called
with.

## What is here

* `Report` and `ScriptState`: what a program has reported and counted.
* `Behavior` and its evaluation `Behavior.eval`.
-/

set_option autoImplicit false

namespace ApiGraph.Script

/-! ## What a program leaves behind -/

/-- A report of a callable. -/
inductive Report where
  | method (tag : String) (source : HostValue) (args : List HostValue)
  | before (tag : String) (data : ResolverData)
  | after (tag : String) (value : HostValue) (data : ResolverData)
  | discriminated (tag : String) (value : HostValue) (context : Option RequestContext)
      (info : ResolveInfo)
  | constructed (cls : ClassRef)
  /-- A deferred reference of a label was forced. -/
  | forced (label : String)

/-- The state of a scripted program. -/
structure ScriptState where
  /-- The reports in order. -/
  reports : List Report := []
  /-- How often each counter was counted up. -/
  counters : OrderedMap String Nat := []

namespace ScriptState

/-- Adds a report. -/
def report (s : ScriptState) (r : Report) : ScriptState := { s with reports := s.reports ++ [r] }

/-- Counts a counter up and gives its new value. -/
def count (s : ScriptState) (name : String) : Nat × ScriptState :=
  let n := (OrderedMap.find s.counters name).getD 0 + 1
  (n, { s with counters := OrderedMap.put s.counters name n })

end ScriptState

/-! ## Behaviours -/

/-- What a method does with its source and its arguments. -/
inductive Behavior where
  | const (value : HostValue)
  /-- The argument at a position, undefined if there is none. -/
  | arg (position : Nat)
  /-- The list of all arguments. -/
  | args
  /-- The source. -/
  | this
  /-- A property of a value, undefined if there is none. -/
  | get (property : String) (of : Behavior)
  | fail (text : String)
  /-- Fails if a test is true, and goes on if not. -/
  | failIf (test next : Behavior)
  /-- Reports the call and goes on. -/
  | log (tag : String) (next : Behavior)
  /-- Counts a counter up and gives its new value. -/
  | count (name : String)
  | list (items : List Behavior)
  | object (entries : List (String × Behavior))
  /-- A new instance of a class. -/
  | new (cls : ClassRef) (props : List (String × Behavior))
  /-- The texts of several values, one after the other. -/
  | concat (parts : List Behavior)

/-- The text of a value where texts are put together. -/
def textOf : HostValue → String
  | .scalar (.string text) => text
  | .scalar (.number value) => value.text
  | .scalar (.boolean value) => if value then "true" else "false"
  | .undefined => "undefined"
  | .null => "null"
  | .foreign (.context data) => data.label
  | _ => "?"

/-- Whether a value is the truth value true. -/
def isTrue : HostValue → Bool
  | .scalar (.boolean value) => value
  | _ => false

/-- An evaluation, which may fail. -/
abbrev Eval := ExceptT FieldError (StateM ScriptState)

namespace Behavior

mutual

/-- The value of a behaviour on a source and arguments. -/
def eval (source : HostValue) (args : List HostValue) : Behavior → Eval HostValue
  | .const value => return value
  | .arg position => return (args[position]?).getD .undefined
  | .args => return .list args
  | .this => return source
  | .get property of => do
    let value ← eval source args of
    return (value.get property).getD .undefined
  | .fail text => throw (.failed text)
  | .failIf test next => do
    let value ← eval source args test
    if isTrue value then throw (.failed "failed on demand") else eval source args next
  | .log tag next => do
    modify (·.report (.method tag source args))
    eval source args next
  | .count name => do
    let n ← modifyGet (·.count name)
    return .scalar (.ofInt (Int.ofNat n))
  | .list items => do
    let values ← evalAll source args items
    return .list values
  | .object entries => do
    let values ← evalEntries source args entries
    return .object (OrderedMap.ofEntries values)
  | .new cls props => do
    let values ← evalEntries source args props
    return .instanceOf cls (OrderedMap.ofEntries values) []
  | .concat parts => do
    let values ← evalAll source args parts
    return .ofText (String.join (values.map textOf))

/-- The values of several behaviours in order. -/
def evalAll (source : HostValue) (args : List HostValue) : List Behavior → Eval (List HostValue)
  | [] => return []
  | b :: rest => do
    let one ← eval source args b
    let others ← evalAll source args rest
    return one :: others

/-- The values of entries, under the same keys. -/
def evalEntries (source : HostValue) (args : List HostValue) :
    List (String × Behavior) → Eval (List (String × HostValue))
  | [] => return []
  | (key, b) :: rest => do
    let one ← eval source args b
    let others ← evalEntries source args rest
    return (key, one) :: others

end

end Behavior

end ApiGraph.Script
