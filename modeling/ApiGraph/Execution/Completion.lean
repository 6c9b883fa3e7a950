import ApiGraph.Execution.Response
import ApiGraph.Execution.Result

/-!
# Running a request

Every field of a selection set is a process.  The fields of an object run one after the other,
those of a query run side by side, and so do the items of a list.  A field that fails is left out of
its object and its error is recorded, but what a failed list has recorded before stays recorded.

## What is here

* `Serve`: a process that records errors.
* `Executable.complete`: the completion of a value by its type.
* `Executable.serveAll`: the fields of a selection set.
* `Executable.execute`: the response to a request.
-/

set_option autoImplicit false

namespace ApiGraph

variable {σ : Type}

/-- A process over a workspace that records errors. -/
abbrev Serve (σ : Type) := Process (Workspace σ × List ResponseError)

/-- A part of a response that can fail. -/
abbrev Part (σ : Type) := ExceptT ResponseError (Serve σ)

/-- The fields of a response object, before they are merged. -/
abbrev ServedFields := List (String × WireValue)

/-- A step over the workspace that can fail as a field does. -/
def Part.ofExecute {α : Type} (e : Execute σ α) : Part σ α :=
  ExceptT.mk <| Process.ofState fun (w, errors) ↦
    let (result, w) := e.run w
    (result.mapError .failed, (w, errors))

/-- A resolver, which sees the state of the program alone. -/
def Part.ofResolve {α : Type} (r : Resolve σ α) : Part σ α :=
  ExceptT.mk <| Except.mapError ResponseError.failed <$>
    r.run.within (fun (w, _) ↦ w.host) fun host (w, errors) ↦ ({ w with host }, errors)

/-- The number of a call of a resolver. -/
def Part.nextCall : Part σ Nat :=
  ExceptT.lift <| Process.ofState fun (w, errors) ↦
    (w.nextCall, { w with nextCall := w.nextCall + 1 }, errors)

/-- Fails at a place, given with the last step first. -/
def Part.fault {α : Type} (place : List PathStep) (fault : CompletionFault) : Part σ α :=
  throw (.incomplete place.reverse fault)

/-- Records the error of a part that failed. -/
def Serve.keep {α : Type} (part : Part σ α) : Serve σ (Option α) := do
  match ← part.run with
  | .ok a => return some a
  | .error e =>
    modify fun (w, errors) ↦ (w, errors ++ [e])
    return none

/-! ## Completing values -/

/-- How the fields of an object type are served on a source at a place. -/
abbrev ServeObject (σ : Type) :=
  ObjectNode × FieldMap → HostValue → List PathStep → Serve σ ServedFields

namespace Executable

/-- The object type of a name, if it claims an interface of another name. -/
def implementor? (x : Executable) (interface object : String) : Option (ObjectNode × FieldMap) :=
  (x.object? object).filter fun (n, _) ↦ n.interfaces.any fun i ↦ i.name == interface

/-- Completes an object type of the schema on a source. -/
def completeObject (serve : ServeObject σ) (source : HostValue) (place : List PathStep)
    (type : ObjectNode × FieldMap) : Part σ WireValue := do
  let fields ← (serve type source place : Serve σ ServedFields)
  return responseObject fields

/-- Completes a value at a node. -/
def completeNode (x : Executable) (serve : ServeObject σ) (place : List PathStep) :
    GraphNode → EngineValue → Part σ WireValue
  | .scalar n, .wire value =>
    if engineScalars.contains n.name || n.accepts value then return value
    else Part.fault place (.scalar n.name)
  | .scalar n, _ => Part.fault place (.scalar n.name)
  | .input _, .wire value => return value
  | .input n, _ => Part.fault place (.scalar n.name)
  | .enum n, .wire (.enum name) =>
    if (n.definition.valueOf? name).isSome then return .enum name
    else Part.fault place (.enumItem n.name)
  | .enum n, _ => Part.fault place (.enumItem n.name)
  | .object n, value =>
    match x.object? n.name with
    | some type => completeObject serve value.toSource place type
    | none => return .null
  | .union n, .typed source name =>
    match if n.members.any fun m ↦ m.name == name then x.object? name else none with
    | some type => completeObject serve source place type
    | none => Part.fault place (.notAMember n.name name)
  | .union n, _ => Part.fault place (.untypedUnion n.name)
  | .interface n, .typed source name =>
    match x.implementor? n.name name with
    | some type => completeObject serve source place type
    | none => Part.fault place (.notAnImplementor name n.name)
  | .interface n, _ => Part.fault place (.untypedInterface n.name)

/-- Completes a value by its type; a missing value is null where the type allows it. -/
def complete (x : Executable) (serve : ServeObject σ) :
    GraphType → Option EngineValue → List PathStep → Part σ WireValue
  | .nonNull _, none, place => Part.fault place .noValue
  | .nonNull inner, some value, place => x.complete serve inner (some value) place
  | .named _, none, _ | .list _, none, _ => return .null
  | .named node, some value, place => x.completeNode serve place node value
  | .list item, some value, place =>
    match value with
    | .list items =>
      WireValue.list <$> ExceptT.mk (Process.join <| items.zipIdx.map fun (v, i) ↦
        (x.complete serve item (some v) (.index i :: place)).run)
    | _ => Part.fault place .notAList

/-! ## Serving selections -/

/-- The engine's value of a field of an object type. -/
def resolveField (host : Host σ) (request : Request) (parent : String) (field : CompiledField)
    (args : List (String × QueryValue)) (source : HostValue) : Part σ (Option EngineValue) := do
  let supplied := args.map fun (name, value) ↦ (name, value.resolve request.vars)
  let read ← Part.ofExecute (readArguments host field.args supplied)
  let call ← Part.nextCall
  let info : ResolveInfo :=
    { parentType := parent, fieldName := field.name, returnType := field.type.display, call }
  let value ← Part.ofResolve (field.resolver.call host source read request.context info)
  Part.ofExecute (field.type.toEngine host value request.context info)

/-- The name of a root type, as the schema tells it. -/
def rootName (key name : String) (select : List Selection) : ServedFields :=
  [(key, responseObject ((Selection.allFieldsOn "__Type" select).filterMap fun s ↦
    match s with
    | .field "name" other _ _ => some (other.getD "name", .string name)
    | .field "__typename" other _ _ => some (other.getD "__typename", .string "__Type")
    | _ => none))]

/-- What a schema tells about itself: the names of its roots. -/
def introspect (x : Executable) (select : List Selection) : WireValue :=
  responseObject ((Selection.allFieldsOn "__Schema" select).flatMap fun s ↦
    match s with
    | .field "queryType" other _ select => rootName (other.getD "queryType") x.query select
    | .field "mutationType" other _ select =>
      match x.mutation with
      | some name => rootName (other.getD "mutationType") name select
      | none => [(other.getD "mutationType", .null)]
    | .field "__typename" other _ _ => [(other.getD "__typename", .string "__Schema")]
    | _ => [])

/-- Processes one after the other. -/
def inSequence (parts : List (Serve σ ServedFields)) : Serve σ ServedFields :=
  List.flatten <$> parts.mapM fun part ↦ part

mutual

/-- What a selection asks for on a source of an object type: one process for each field. -/
def serveOne (host : Host σ) (x : Executable) (request : Request) : Selection →
    ObjectNode × FieldMap → HostValue → List PathStep → List (Serve σ ServedFields)
  | .fragment name select, (node, fields), source, place =>
    if node.name == name || node.interfaces.any fun i ↦ i.name == name then
      serveAll host x request select (node, fields) source place
    else []
  | .field name other args select, (node, fields), source, place =>
    let key := other.getD name
    if name == "__typename" then [return [(key, .string node.name)]]
    else if name == "__schema" && x.config.introspection && node.name == x.query then
      [return [(key, x.introspect select)]]
    else match OrderedMap.find fields name with
      | none => []
      | some field =>
        let place := .key key :: place
        let serve : ServeObject σ := fun type source place ↦
          inSequence (serveAll host x request select type source place)
        let served := Serve.keep do
          let value ← resolveField host request node.name field args source
          x.complete serve field.type value place
        [do return ((← served).map fun value ↦ (key, value)).toList]

/-- What the selections of a set ask for, in order. -/
def serveAll (host : Host σ) (x : Executable) (request : Request) : List Selection →
    ObjectNode × FieldMap → HostValue → List PathStep → List (Serve σ ServedFields)
  | [], _, _, _ => []
  | s :: rest, type, source, place =>
    serveOne host x request s type source place ++ serveAll host x request rest type source place

end

/-- The fields of a root: those of a query come in the order in which they end. -/
def serveRoot (operation : Operation) (parts : List (Serve σ ServedFields)) :
    Serve σ ServedFields :=
  match operation with
  | .query => List.flatten <$> Process.inCompletionOrder parts
  | .mutation => inSequence parts

/-- The response to a request. -/
def execute (host : Host σ) (x : Executable) (request : Request) : Action σ Response := do
  match x.refusals request with
  | refusal :: more => return { data := .null, errors := (refusal :: more).map .refused }
  | [] =>
    match (x.root? request.operation).bind x.object? with
    | none => return { data := .null }
    | some root =>
      let parts := serveAll host x request request.select root .undefined []
      let (fields, errors) ← ((serveRoot request.operation parts).withLocal []).finish
      return { data := responseObject fields, errors }

end Executable

end ApiGraph
