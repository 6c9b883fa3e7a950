import ApiGraph.Graph.Type

/-!
# Type references

A `TypeRef` is what a declaration points at before anything is compiled.  A deferred reference is
data too: forcing it yields the same reference every time, and is reported to the host under the
label that it carries.

## What is here

* `TypeRef` and its text.
-/

set_option autoImplicit false

namespace ApiGraph

/-- A type as written at a declaration. -/
inductive TypeRef where
  /-- A node supplied directly, usually a scalar of the program. -/
  | node (node : GraphNode)
  | scalar (scalar : NativeScalar)
  /-- A class, in whatever role it is registered. -/
  | cls (cls : ClassRef)
  | enum (definition : EnumDef)
  /-- A list type; a valid one has one item type. -/
  | array (items : List TypeRef)
  /-- A deferred reference. -/
  | thunk (label : Option String) (target : TypeRef)

namespace TypeRef

/-- The list type of an item. -/
def list (item : TypeRef) : TypeRef := .array [item]

mutual

/-- The text of a reference. -/
def display : TypeRef → String
  | .node n => n.name
  | .scalar s => s.graphName
  | .cls c => c.name
  | .enum d => "enum" ++ d.key.display
  | .array items => "[" ++ ", ".intercalate (displays items) ++ "]"
  | .thunk _ _ => "<thunk>"

/-- The texts of several references. -/
def displays : List TypeRef → List String
  | [] => []
  | t :: rest => t.display :: displays rest

end

/-- Whether a reference is deferred. -/
def isThunk : TypeRef → Bool
  | .thunk _ _ => true
  | _ => false

end TypeRef

end ApiGraph
