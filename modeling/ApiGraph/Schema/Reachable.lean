import ApiGraph.Compile.FieldMap

/-!
# The types that a schema reaches

From the roots one reaches the types of fields and arguments, the interfaces of an object, the
implementors of an interface, the members of a union and the types of input fields.  The walk keeps
a stack of nodes to visit and a map of visited ones by name; two nodes of one name are an error.

## What is here

* `GraphNode.successors`: the nodes that a node leads to, which asks for its fields.
* `Workspace.typeCount`: how many types with successors there can be.
* `collectTypes`: all that is reached, in the order of the visits.
-/

set_option autoImplicit false

namespace ApiGraph

variable {σ : Type}

/-- The nodes of the types of a field: of the field itself and of its arguments. -/
def CompiledField.nodes (f : CompiledField) : List GraphNode :=
  f.type.node :: (OrderedMap.values f.args).map fun a ↦ a.type.node

/-- The nodes of the types of fields. -/
def FieldMap.nodes (fields : FieldMap) : List GraphNode :=
  (OrderedMap.values fields).flatMap CompiledField.nodes

namespace GraphNode

/-- Whether a node can lead to others. -/
def isComposite : GraphNode → Bool
  | .scalar _ | .enum _ => false
  | _ => true

/-- The nodes to which a node leads, in order. -/
def successors (host : Host σ) : GraphNode → Compile σ (List GraphNode)
  | .object n => do
    let fields ← n.fields host
    return FieldMap.nodes fields ++ n.interfaces.map .interface
  | .interface n => do
    let fields ← n.fields host
    let objects ← n.implementations
    return FieldMap.nodes fields ++ objects.map .object
  | .union n => return n.members.map .object
  | .input n => do
    let fields ← n.fields host
    return (OrderedMap.values fields).map fun f ↦ f.type.node
  | .enum _ | .scalar _ => return []

end GraphNode

/-- How many types a session can compile that lead to others. -/
def Registries.typeCount (r : Registries) : Nat :=
  r.objects.length + r.inputs.length + r.unions.length + r.interfaces.length

/-- How many types that lead to others a workspace can hold. -/
def Workspace.typeCount (w : Workspace σ) : Nat :=
  w.sessions.foldr (fun s n ↦ s.registries.typeCount + n) w.roots.length

/-- Visits nodes from a stack, at most as many composite ones as the first number says. -/
def visit (host : Host σ) (left : Nat) (pending : List GraphNode)
    (seen : OrderedMap String GraphNode) : Compile σ (OrderedMap String GraphNode) :=
  match pending with
  | [] => return seen
  | node :: rest =>
    match OrderedMap.find seen node.name with
    | some known =>
      if known.same node then visit host left rest seen
      else throw (.assembly (.duplicateTypeName node.name))
    | none =>
      let seen := OrderedMap.put seen node.name node
      if node.isComposite then
        match left with
        | 0 => throw (.assembly .unboundedGraph)
        | left + 1 => do
          let found ← node.successors host
          visit host left (found.reverse ++ rest) seen
      else visit host left rest seen
termination_by (left, pending.length)

/-- Every node reached from some nodes, the last of them first, in the order of the visits. -/
def collectTypes (host : Host σ) (start : List GraphNode) : Compile σ (List GraphNode) := do
  let seen ← visit host (← get).typeCount start.reverse []
  return OrderedMap.values seen

end ApiGraph
