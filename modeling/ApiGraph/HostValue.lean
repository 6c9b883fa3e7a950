import ApiGraph.Callable
import ApiGraph.Class
import ApiGraph.OrderedMap
import ApiGraph.Wire.Value

/-!
# Values that flow through resolvers

Methods, hooks and injectors receive and return `HostValue`s: wire values, lists, plain objects,
instances of classes, and data that the library only passes on.

## What is here

* `HostValue`, with `get` and `isNullish`.
* `HostValue.same`: equality, for which objects are compared regardless of the order of their keys.
* `HostValue.toWire` and `HostValue.ofWire`: the way to the wire and back.
* `Instance`: an object made from a class.
-/

set_option autoImplicit false

namespace ApiGraph

/-- Where in the graph a field is resolved. -/
structure ResolveInfo where
  parentType : String := ""
  fieldName : String := ""
  returnType : String := ""
  /-- The number of the call that is described, which tells equal descriptions apart. -/
  call : Nat := 0
deriving DecidableEq, Repr

/-- Data of the program, known by an identity. -/
structure HostData where
  /-- The identity: data is equal to nothing but itself. -/
  token : Nat
  /-- What the program calls it. -/
  label : String
deriving DecidableEq, Repr

/-- Data that the library passes through untouched. -/
inductive Foreign where
  /-- Data of the program. -/
  | data (data : HostData)
  /-- The context of a request. -/
  | context (data : HostData)
  /-- A description of a place in the graph, made for the parameter at a position. -/
  | info (info : ResolveInfo) (position : Nat)
deriving Repr

/-- Whether two pieces of foreign data are the same piece. -/
def Foreign.same : Foreign → Foreign → Bool
  | .data a, .data b => a.token == b.token
  | .context a, .context b => a.token == b.token
  | .info a i, .info b j => a.call == b.call && i == j
  | _, _ => false

/-- A value on the side of the program. -/
inductive HostValue where
  | undefined
  | null
  /-- A wire value; lists and objects have forms of their own, but one may hide in here. -/
  | scalar (value : WireValue)
  | list (items : List HostValue)
  /-- A plain object. -/
  | object (entries : List (String × HostValue))
  /-- An object made from a class, perhaps with methods of its own. -/
  | instanceOf (cls : ClassRef) (props : List (String × HostValue))
      (methods : List (String × MethodId))
  | foreign (data : Foreign)
deriving Repr

/-- An object made from a class. -/
structure Instance where
  cls : ClassRef
  /-- The properties in the order in which they were first set. -/
  props : OrderedMap String HostValue := []
  /-- Methods that replace declared ones on this object. -/
  methods : OrderedMap String MethodId := []

namespace HostValue

instance : Inhabited HostValue := ⟨.undefined⟩

/-- A text. -/
def ofText (text : String) : HostValue := .scalar (.string text)

/-- Whether a value counts as absent. -/
def isNullish : HostValue → Bool
  | .undefined | .null | .scalar .null => true
  | _ => false

/-- The property of an object or an instance. -/
def get (v : HostValue) (key : String) : Option HostValue :=
  match v with
  | .object entries => OrderedMap.find entries key
  | .instanceOf _ props _ => OrderedMap.find props key
  | _ => none

/-- The value as an instance. -/
def instance? : HostValue → Option Instance
  | .instanceOf cls props methods => some { cls, props, methods }
  | _ => none

/-- The value as a list. -/
def list? : HostValue → Option (List HostValue)
  | .list items => some items
  | _ => none

/-- The word for the form of a value. -/
def kind : HostValue → String
  | .undefined => "undefined"
  | .null => "null"
  | .scalar _ => "scalar"
  | .list _ => "list"
  | .object _ => "object"
  | .instanceOf _ _ _ => "instance"
  | .foreign _ => "opaque"

/-! ## Equality -/

mutual

/-- Equality of values: objects and properties regardless of order, instances only of one class,
foreign data only with itself. -/
def same : HostValue → HostValue → Bool
  | .undefined, .undefined => true
  | .null, .null => true
  | .scalar a, .scalar b => a.same b
  | .list as, .list bs => sameItems as bs
  | .object as, .object bs => as.length == bs.length && sameEntries as bs
  | .instanceOf c as _, .instanceOf d bs _ =>
    c == d && (as.length == bs.length && sameEntries as bs)
  | .foreign a, .foreign b => a.same b
  | _, _ => false

/-- Equality of lists, item by item. -/
def sameItems : List HostValue → List HostValue → Bool
  | [], [] => true
  | a :: as, b :: bs => same a b && sameItems as bs
  | _, _ => false

/-- Whether every entry has an equal one under its key. -/
def sameEntries : List (String × HostValue) → List (String × HostValue) → Bool
  | [], _ => true
  | (key, a) :: rest, bs =>
    (match OrderedMap.find bs key with
      | some b => same a b
      | none => false) && sameEntries rest bs

end

/-! ## To the wire -/

mutual

/-- The wire value of a value; what the wire cannot carry becomes null. -/
def toWire : HostValue → WireValue
  | .undefined | .null | .foreign _ => .null
  | .scalar value => value
  | .list items => .list (itemsToWire items)
  | .object entries => .object (entriesToWire entries)
  | .instanceOf _ props _ => .object (entriesToWire props)

/-- The wire values of the items of a list. -/
def itemsToWire : List HostValue → List WireValue
  | [] => []
  | v :: rest => toWire v :: itemsToWire rest

/-- The wire values of entries, under the same keys. -/
def entriesToWire : List (String × HostValue) → List (String × WireValue)
  | [] => []
  | (key, v) :: rest => (key, toWire v) :: entriesToWire rest

end

/-! ## From the wire -/

mutual

/-- The value of a wire value: null, lists and objects take their own forms at every depth. -/
def ofWire : WireValue → HostValue
  | .null => .null
  | .list items => .list (itemsOfWire items)
  | .object entries => .object (entriesOfWire entries)
  | other => .scalar other

/-- The values of the items of a list. -/
def itemsOfWire : List WireValue → List HostValue
  | [] => []
  | v :: rest => ofWire v :: itemsOfWire rest

/-- The values of entries, under the same keys. -/
def entriesOfWire : List (String × WireValue) → List (String × HostValue)
  | [] => []
  | (key, v) :: rest => (key, ofWire v) :: entriesOfWire rest

end

end HostValue

namespace Instance

/-- An instance as a value. -/
def value (i : Instance) : HostValue := .instanceOf i.cls i.props i.methods

/-- The property of an instance. -/
def get (i : Instance) (key : String) : Option HostValue := OrderedMap.find i.props key

/-- Sets a property. -/
def set (i : Instance) (key : String) (value : HostValue) : Instance :=
  { i with props := OrderedMap.put i.props key value }

/-- Gives the instance a method of its own. -/
def withMethod (i : Instance) (name : String) (method : MethodId) : Instance :=
  { i with methods := OrderedMap.put i.methods name method }

/-- Whether an instance's class has a key among its ancestors or as its own. -/
def isA (i : Instance) (key : TypeKey) : Bool := i.cls.isA key

end Instance

end ApiGraph
