import ApiGraph.Callable
import ApiGraph.DateTime
import ApiGraph.Enum
import ApiGraph.Scalar

/-!
# Nodes of the type graph

A node is a named type of the compiled graph.  It is a plain value with an identity: one session
makes one node for a declaration in a role, and two nodes are the same exactly if their identities
are.  The fields of objects, interfaces and inputs are no part of a node, since they are found when
they are first asked for.

## What is here

* `NodeId`: identities.
* `ScalarNode`, `EnumNode`, `InputNode`, `InterfaceNode`, `ObjectNode`, `UnionNode`.
* `GraphNode`: any of them, with `name`, `isInput`, `isOutput` and `same`.
-/

set_option autoImplicit false

namespace ApiGraph

/-- The two operations of a schema. -/
inductive Operation where
  | query
  | mutation
deriving DecidableEq, Repr

/-- The roles in which a declaration can be compiled. -/
inductive Role where
  | object
  | input
  | enum
  | union
  | interface
deriving DecidableEq, Repr

/-- The number of a session. -/
abbrev SessionId := Nat

/-- The identity of a node. -/
inductive NodeId where
  /-- The node of a native scalar. -/
  | native (scalar : NativeScalar)
  /-- A node made by the program: that of a scalar, or of an enum. -/
  | custom (serial : Nat)
  /-- The node that a session made for a declaration in a role. -/
  | compiled (session : SessionId) (role : Role) (key : TypeKey)
  /-- A root of the schema of a serial number. -/
  | root (schema : Nat) (operation : Operation)
deriving DecidableEq, Repr

/-! ## Scalars -/

/-- A named scalar. -/
structure ScalarNode where
  id : NodeId
  name : String
  description : Option String := none
  /-- Whether the query engine has the scalar already. -/
  builtin : Bool := false
  /-- The check of the scalar's values; without one every value is accepted. -/
  validator : Option (WireValue → Bool) := none

/-- Whether a scalar accepts a value. -/
def ScalarNode.accepts (node : ScalarNode) (value : WireValue) : Bool :=
  match node.validator with
  | some valid => valid value
  | none => true

/-- The node of a native scalar; date-times are checked, and are not known to the engine. -/
def NativeScalar.node (s : NativeScalar) : ScalarNode :=
  match s with
  | .date =>
    { id := .native s
      name := s.graphName
      description := some "A date-time string in RFC 3339 format"
      validator := some isDateTime }
  | _ => { id := .native s, name := s.graphName, builtin := true }

/-! ## Compiled nodes -/

/-- An enum type.  The program may make one of its own, with items that no enum has. -/
structure EnumNode where
  id : NodeId
  name : String
  description : Option String
  /-- The items of the type, with the key of the enum that they are said to be of. -/
  definition : EnumDef

/-- An input object type. -/
structure InputNode where
  id : NodeId
  name : String
  description : Option String
  cls : ClassRef

/-- An interface type. -/
structure InterfaceNode where
  id : NodeId
  name : String
  description : Option String
  cls : ClassRef
  /-- The program's own discriminator, which replaces the look-up among the implementors. -/
  custom : Option DiscriminatorId

/-- An object type; the roots of a schema have no class. -/
structure ObjectNode where
  id : NodeId
  name : String
  description : Option String
  cls : Option ClassRef
  /-- The interfaces that the type claims, in order. -/
  interfaces : List InterfaceNode
  /-- Classes whose fields the type takes over. -/
  mixins : List ClassRef

/-- A union type. -/
structure UnionNode where
  id : NodeId
  name : String
  description : Option String
  cls : ClassRef
  /-- The members in the order of their declaration. -/
  members : List ObjectNode
  /-- The program's own discriminator, which replaces the look-up among the members. -/
  custom : Option DiscriminatorId

/-- A named type of the graph. -/
inductive GraphNode where
  | scalar (node : ScalarNode)
  | object (node : ObjectNode)
  | input (node : InputNode)
  | enum (node : EnumNode)
  | union (node : UnionNode)
  | interface (node : InterfaceNode)

namespace GraphNode

/-- The identity of a node. -/
def id : GraphNode → NodeId
  | .scalar n => n.id
  | .object n => n.id
  | .input n => n.id
  | .enum n => n.id
  | .union n => n.id
  | .interface n => n.id

/-- The name of a node. -/
def name : GraphNode → String
  | .scalar n => n.name
  | .object n => n.name
  | .input n => n.name
  | .enum n => n.name
  | .union n => n.name
  | .interface n => n.name

/-- The description of a node. -/
def description : GraphNode → Option String
  | .scalar n => n.description
  | .object n => n.description
  | .input n => n.description
  | .enum n => n.description
  | .union n => n.description
  | .interface n => n.description

/-- The word for the kind of a node. -/
def kind : GraphNode → String
  | .scalar _ => "scalar"
  | .object _ => "object"
  | .input _ => "input"
  | .enum _ => "enum"
  | .union _ => "union"
  | .interface _ => "interface"

/-- Kind and name of a node. -/
def display (n : GraphNode) : String := n.kind ++ "(" ++ n.name ++ ")"

/-- Whether a field may have the type. -/
def isOutput : GraphNode → Bool
  | .input _ => false
  | _ => true

/-- Whether an argument or an input field may have the type. -/
def isInput : GraphNode → Bool
  | .scalar _ | .enum _ | .input _ => true
  | _ => false

/-- Whether two nodes are the same node. -/
def same (a b : GraphNode) : Bool := a.id == b.id

end GraphNode

end ApiGraph
