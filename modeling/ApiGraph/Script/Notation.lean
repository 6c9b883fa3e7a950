import ApiGraph.Script.Scope
import ApiGraph.Session.Registration

/-!
# The notation of scripted programs

Values, behaviours, types and registrations are written as documents.  Texts, numbers and lists
stand for themselves; everything else is an object whose first key says what it is.

Values may hold instances with methods, and behaviours may hold values, so the two are read
together, to a bound that the depth of the document sets.

## What is here

* `Reading.value`, `Reading.method`: values and methods.
* `Reading.signature`, `Reading.type`: static signatures and type references.
* `Reading.fieldSpec` and its like: registrations.
-/

set_option autoImplicit false

namespace ApiGraph.Script

namespace Reading

/-! ## Values and behaviours -/

/-- A list that is a key and a document. -/
def pair (j : Json) : Reading (String × Json) := need (.malformed "pair") (asPair? j)

mutual

/-- Reads a value of at most the given depth. -/
def valueWithin : Nat → Json → Reading HostValue
  | 0, _ => throw (.malformed "value")
  | n + 1, j => do
    match j with
    | .null => return .null
    | .boolean value => return .scalar (.boolean value)
    | .number value => return .scalar (.number value)
    | .string text => return .scalar (.string text)
    | .array items => HostValue.list <$> items.mapM (valueWithin n)
    | .object entries =>
      match j.get? "$" with
      | none =>
        HostValue.object <$> entries.mapM fun (key, v) ↦ do return (key, ← valueWithin n v)
      | some tag =>
        match tag with
        | .string "undefined" => return .undefined
        | .string "object" =>
          return .object (OrderedMap.ofEntries (← entriesWithin n (j.itemsAt "entries")))
        | .string "instance" => return (← instanceWithin n j).value
        | .string "opaque" => return .foreign (.data (← data (← text j "tag")))
        | .string "scalar" => return .scalar (wire (← part j "value"))
        | .string "from_value" => return .ofWire (wire (← part j "value"))
        | .string "from_json" => return .ofWire (WireValue.ofJson (← part j "value")).sorted
        | .string "some" => valueWithin n (← part j "value")
        | .string "none" => return .null
        | .string "f64" => return .scalar .null
        | _ => throw (.malformed "value")

/-- Reads entries written as lists. -/
def entriesWithin : Nat → List Json → Reading (List (String × HostValue))
  | 0, _ => throw (.malformed "entries")
  | n + 1, js => js.mapM fun j ↦ do
    let (key, v) ← pair j
    return (key, ← valueWithin n v)

/-- Reads an instance of a class. -/
def instanceWithin : Nat → Json → Reading Instance
  | 0, _ => throw (.malformed "instance")
  | n + 1, j => do
    let cls ← classAt j "class"
    let props ← entriesWithin n (j.itemsAt "props")
    let methods ← (j.itemsAt "methods").mapM fun m ↦ do
      let (name, b) ← pair m
      return (name, ← methodWithin n b)
    return { cls, props := OrderedMap.ofEntries props, methods := OrderedMap.ofEntries methods }

/-- Reads a method and enters it into the program. -/
def methodWithin : Nat → Json → Reading MethodId
  | 0, _ => throw (.malformed "method")
  | n + 1, j => do
    let m ← match j with
      | .object (("async", delay) :: _) => do
        let behavior ← behaviorWithin n (← part j "then")
        pure { delay := delay.nat?.getD 0, behavior }
      | _ => do
        let behavior ← behaviorWithin n j
        pure { behavior }
    enter (·.addMethod m)

/-- Reads a behaviour. -/
def behaviorWithin : Nat → Json → Reading Behavior
  | 0, _ => throw (.malformed "behavior")
  | n + 1, j => do
    match j with
    | .object ((key, v) :: _) =>
      match key with
      | "const" => Behavior.const <$> valueWithin n v
      | "arg" => return .arg (v.nat?.getD 0)
      | "args" => return .args
      | "this" => return .this
      | "get" =>
        let (property, of) ← pair v
        Behavior.get property <$> behaviorWithin n of
      | "fail" => return .fail (v.text?.getD "")
      | "fail_if" =>
        let test ← behaviorWithin n v
        Behavior.failIf test <$> behaviorWithin n (← part j "then")
      | "log" => Behavior.log (v.text?.getD "") <$> behaviorWithin n (← part j "then")
      | "count" => return .count (v.text?.getD "")
      | "list" => Behavior.list <$> v.items.mapM (behaviorWithin n)
      | "object" => Behavior.object <$> behaviorEntriesWithin n v.items
      | "new" => do
        let c ← cls (v.text?.getD "")
        Behavior.new c <$> behaviorEntriesWithin n (j.itemsAt "props")
      | "concat" => Behavior.concat <$> v.items.mapM (behaviorWithin n)
      | other => throw (.unknown "behavior" other)
    | _ => throw (.malformed "behavior")

/-- Reads the behaviours of entries written as lists. -/
def behaviorEntriesWithin : Nat → List Json → Reading (List (String × Behavior))
  | 0, _ => throw (.malformed "entries")
  | n + 1, js => js.mapM fun j ↦ do
    let (key, b) ← pair j
    return (key, ← behaviorWithin n b)

end

/-- A bound that reading a document does not meet: each level of it is passed in at most three
steps. -/
def bound (j : Json) : Nat := 3 * j.depth + 3

/-- Reads a value. -/
def value (j : Json) : Reading HostValue := valueWithin (bound j) j

/-- Reads the value under a key. -/
def valueAt (j : Json) (key : String) : Reading HostValue := do value (← part j key)

/-- Reads entries written as lists under a key. -/
def entriesAt (j : Json) (key : String) : Reading (OrderedMap String HostValue) :=
  OrderedMap.ofEntries <$> entriesWithin (bound j) (j.itemsAt key)

/-- Reads an instance. -/
def readInstance (j : Json) : Reading Instance := instanceWithin (bound j) j

/-- Reads a method. -/
def method (j : Json) : Reading MethodId := methodWithin (bound j) j

/-! ## Types and signatures -/

/-- The native scalar of a name. -/
def nativeScalar? (name : String) : Option NativeScalar :=
  match name with
  | "String" | "string" => some .string
  | "Number" | "number" => some .number
  | "Boolean" | "boolean" => some .boolean
  | "Date" | "date" => some .date
  | "Int" | "int" => some .int
  | "Id" | "id" => some .id
  | _ => none

/-- The signature of a name that is no scalar's. -/
def namedSignature (name : String) : Reading Signature :=
  match name with
  | "null" => return .null
  | "undefined" => return .undefined
  | "object" => return .object
  | "bare_array" => return .bareArray
  | "bare_promise" => return .barePromise
  | other => throw (.unknown "signature" other)

/-- The literal type of a document. -/
def literal : Json → Reading Literal
  | .boolean value => return .boolean value
  | .string text => return .string text
  | .number value => return .number value
  | _ => throw (.malformed "literal")

mutual

/-- Reads a signature. -/
def signature : Json → Reading Signature
  | .string name =>
    match nativeScalar? name with
    | some s => return .scalar s
    | none => namedSignature name
  | .object (("lit", v) :: _) => Signature.literal <$> literal v
  | .object (("class", .string name) :: _) => Signature.cls <$> cls name
  | .object (("enum", .string name) :: _) => Signature.enum <$> enum name
  | .object (("array", v) :: _) => Signature.array <$> signature v
  | .object (("union", .array members) :: _) => Signature.union <$> signatures members
  | .object (("promise", v) :: _) => Signature.promise <$> signature v
  | .object (("generic", .string name) :: ("params", .array params) :: _) =>
    Signature.generic name <$> signatures params
  | .object (("nullable", v) :: _) => Signature.orNull <$> signature v
  | .object (("optional", v) :: _) => Signature.orUndefined <$> signature v
  | .object ((key, _) :: _) => throw (.unknown "signature" key)
  | _ => throw (.malformed "signature")

/-- Reads several signatures. -/
def signatures : List Json → Reading (List Signature)
  | [] => return []
  | j :: rest => do
    let one ← signature j
    let others ← signatures rest
    return one :: others

end

mutual

/-- Reads a type reference. -/
def type : Json → Reading TypeRef
  | .string name => TypeRef.scalar <$> need (.unknown "type" name) (nativeScalar? name)
  | .object (("class", .string name) :: _) => TypeRef.cls <$> cls name
  | .object (("enum", .string name) :: _) => TypeRef.enum <$> enum name
  | .object (("scalar", .string name) :: _) => (fun n ↦ .node (.scalar n)) <$> scalar name
  | .object (("node", .string name) :: _) => TypeRef.node <$> node name
  | .object (("list", v) :: _) => TypeRef.list <$> type v
  | .object (("array", .array items) :: _) => TypeRef.array <$> types items
  | .object (("lazy", .string name) :: _) => (fun c ↦ .thunk none (.cls c)) <$> cls name
  | .object (("thunk", v) :: rest) =>
    TypeRef.thunk ((OrderedMap.find rest "log").bind Json.text?) <$> type v
  | .object ((key, _) :: _) => throw (.unknown "type" key)
  | _ => throw (.malformed "type")

/-- Reads several type references. -/
def types : List Json → Reading (List TypeRef)
  | [] => return []
  | j :: rest => do
    let one ← type j
    let others ← types rest
    return one :: others

end

/-- Reads the type reference under a key, if it is given. -/
def typeAt? (j : Json) (key : String) : Reading (Option TypeRef) := (j.given? key).mapM type

/-- Reads the signature under a key, if it is given. -/
def signatureAt? (j : Json) (key : String) : Reading (Option Signature) :=
  (j.given? key).mapM signature

/-! ## Registrations -/

/-- The options of an object type. -/
def objectSpec (j : Json) : Reading ObjectSpec := do
  return {
    name := j.textAt? "name"
    description := j.textAt? "description"
    mixins := ← classesAt j "mixins"
    implements := ← classesAt j "implements" }

/-- The options of an input type. -/
def inputSpec (j : Json) : InputSpec :=
  { name := j.textAt? "name", description := j.textAt? "description" }

/-- A condition of a discriminator. -/
def condition (j : Json) : Reading Condition := do
  match j.get? "has", j.get? "eq", j.get? "context", j.get? "field" with
  | some (.string property), _, _, _ => return .has property
  | _, some eq, _, _ => do
    let (property, v) ← pair eq
    return .eq property (← value v)
  | _, _, some (.string label), _ => return .context label
  | _, _, _, some (.string name) => return .field name
  | _, _, _, _ => throw (.malformed "case")

/-- The discriminator of a type, if it has one of its own. -/
def discriminator (j : Json) : Reading (Option DiscriminatorId) :=
  (j.given? "resolve_type").mapM fun d ↦ do
    let cases ← (d.itemsAt "cases").mapM fun c ↦ do
      return (← condition c, ← typeAt? c "type")
    let script : DiscriminatorScript :=
      { tag := d.textAt? "log", cases, otherwise := ← typeAt? d "else" }
    enter (·.addDiscriminator script)

/-- The options of an interface. -/
def interfaceSpec (j : Json) : Reading InterfaceSpec := do
  return {
    name := j.textAt? "name"
    description := j.textAt? "description"
    discriminator := ← discriminator j }

/-- The options of a union. -/
def unionSpec (j : Json) : Reading UnionSpec := do
  return {
    members := ← classesAt j "types"
    name := j.textAt? "name"
    description := j.textAt? "description"
    discriminator := ← discriminator j }

/-- The options of a schema root of a class. -/
def rootSpec (c : ClassRef) (j : Json) : Reading RootSpec := do
  let constructor ← (j.given? "constructor").mapM fun made ↦ do
    let made ← readInstance made
    enter (·.addRoot { cls := c, made })
  return { constructor }

/-- A parameter of a method. -/
def param (j : Json) : Reading Param := do
  return { name := ← text j "name", signature := ← signatureAt? j "sig" }

/-- An output field. -/
def fieldSpec (j : Json) : Reading FieldSpec := do
  return {
    property := ← text j "property"
    name := j.textAt? "name"
    description := j.textAt? "description"
    type := ← typeAt? j "type"
    nullable := j.truthAt? "nullable"
    itemNullable := (j.truthAt? "item_nullable").getD false
    deprecation := j.textAt? "deprecated"
    onlyDeclaredArgs := (j.truthAt? "only_decorated_args").getD false
    params := ← (j.itemsAt "params").mapM param
    returns := ← signatureAt? j "returns"
    method := ← (j.given? "method").mapM method }

/-- An input field. -/
def inputFieldSpec (j : Json) : Reading InputFieldSpec := do
  return {
    property := ← text j "property"
    name := j.textAt? "name"
    description := j.textAt? "description"
    type := ← typeAt? j "type"
    nullable := j.truthAt? "nullable"
    itemNullable := (j.truthAt? "item_nullable").getD false
    signature := ← signatureAt? j "sig"
    default := (j.get? "default").map wire
    deprecation := j.textAt? "deprecated" }

/-- The metadata of a parameter. -/
def argSpec (j : Json) : Reading ArgSpec := do
  return {
    name := j.textAt? "name"
    type := ← typeAt? j "type"
    nullable := (j.truthAt? "nullable").getD false
    description := j.textAt? "description"
    default := (j.get? "default").map wire }

/-- An injector. -/
def injector : Json → Reading Injector
  | .string "context" => return .context
  | .string "source" => return .source
  | .string "info" => return .info
  | .object (("arg", .string name) :: _) => Injector.host <$> enter (·.addInjector (.arg name))
  | .object (("const", v) :: _) => do
    let v ← value v
    Injector.host <$> enter (·.addInjector (.const v))
  | _ => throw (.malformed "injector")

/-- A hook. -/
def hook (j : Json) : Reading Hook := do
  let condition ← (j.given? "fail_if").mapM fun c ↦ do
    return (← text c "arg", ← valueAt c "eq")
  let script : HookScript :=
    { tag := (j.textAt? "tag").getD "", delay := j.natAt? "async", failure := j.textAt? "fail",
      condition }
  enter (·.addHook script)

end Reading

end ApiGraph.Script
