import ApiGraph.Execution.Objection

/-!
# Refusals

A request is refused as a whole if its selection sets lie in one another too deep for the engine, or
else if it is for an operation that the schema lacks, or else if it exceeds a limit of the schema,
or else if there are objections to its arguments, which are all told in the order of the request.

## What is here

* `Refusal`: why a request is not run.
* `Executable.refusals`: the refusals of a request.
-/

set_option autoImplicit false

namespace ApiGraph

/-- How many selection sets may lie in one another within the outermost one. -/
def maxLevels : Nat := 32

/-- Why a request is not run. -/
inductive Refusal where
  /-- Selection sets lie in one another to more levels than the engine follows. -/
  | tooManyLevels
  | tooComplex
  | tooDeep
  | noMutation
  /-- There is an objection to an argument. -/
  | invalidArgument (place : List PathStep) (objection : Objection)
deriving DecidableEq, Repr

/-- The text of a refusal. -/
def Refusal.message : Refusal → String
  | .tooManyLevels =>
    "The recursion depth of the query cannot be greater than \x60" ++ toString maxLevels ++ "\x60"
  | .tooComplex => "Query is too complex."
  | .tooDeep => "Query is nested too deep."
  | .noMutation => "Schema is not configured for mutations."
  | .invalidArgument place objection =>
    "Invalid value for argument \"" ++ ".".intercalate (place.map PathStep.display) ++ "\", " ++
      objection.message

namespace Executable

/-- The output fields of an object type or an interface. -/
def fieldsOf (x : Executable) (type : String) : FieldMap :=
  match x.find type with
  | some (.object _ fields) | some (.interface _ fields) => fields
  | _ => []

/-- The refusals of the arguments of a field. -/
def argumentRefusals (x : Executable) (vars : OrderedMap String WireValue)
    (field : CompiledField) (args : List (String × QueryValue)) : List Refusal :=
  args.filterMap fun (name, value) ↦
    (OrderedMap.find field.args name).bind fun arg ↦
      (x.objection? (value.resolve vars) arg.type).map fun (place, o) ↦
        .invalidArgument (.key name :: place) o

mutual

/-- The refusals of the arguments in a selection on a type. -/
def selectionRefusals (x : Executable) (vars : OrderedMap String WireValue) :
    String → Selection → List Refusal
  | parent, .field name _ args select =>
    match OrderedMap.find (x.fieldsOf parent) name with
    | some field =>
      x.argumentRefusals vars field args ++
        selectionsRefusals x vars field.type.node.name select
    | none => []
  | _, .fragment type select => selectionsRefusals x vars type select

/-- The refusals of the arguments in a selection set on a type. -/
def selectionsRefusals (x : Executable) (vars : OrderedMap String WireValue) :
    String → List Selection → List Refusal
  | _, [] => []
  | parent, s :: rest =>
    selectionRefusals x vars parent s ++ selectionsRefusals x vars parent rest

end

/-- The name of the root type of an operation. -/
def root? (x : Executable) : Operation → Option String
  | .query => some x.query
  | .mutation => x.mutation

/-- Why a request is not run; nothing if it is. -/
def refusals (x : Executable) (request : Request) : List Refusal :=
  if maxLevels < Selection.levelsAll request.select then [.tooManyLevels]
  else match x.root? request.operation with
    | none => [.noMutation]
    | some root =>
      if x.config.maxComplexity < Selection.fieldCounts request.select then [.tooComplex]
      else if x.config.maxDepth < Selection.depths request.select then [.tooDeep]
      else x.selectionsRefusals request.vars root request.select

end Executable

end ApiGraph
