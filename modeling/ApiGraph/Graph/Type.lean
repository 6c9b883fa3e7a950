import ApiGraph.Graph.Node

/-!
# Types of fields and arguments

## What is here

* `TypeExpr`: a type written with names, as the query language writes it, and `TypeExpr.covers`,
  the engine's comparison of two of them.
* `GraphType`: a type over nodes.  `GraphType.required` never wraps a non-null type again.
-/

set_option autoImplicit false

namespace ApiGraph

/-- A type of the query language. -/
inductive TypeExpr where
  | named (name : String)
  | nonNull (inner : TypeExpr)
  | list (item : TypeExpr)
deriving DecidableEq, Repr

namespace TypeExpr

/-- The text of a type. -/
def display : TypeExpr → String
  | .named name => name
  | .nonNull inner => inner.display ++ "!"
  | .list item => "[" ++ item.display ++ "]"

/-- Whether the first type counts as a sub-type of the second: the same type, or the same with
fewer non-null marks. -/
def covers : TypeExpr → TypeExpr → Bool
  | .nonNull a, .nonNull b => covers a b
  | a, .nonNull b => covers a b
  | .named a, .named b => a == b
  | .list a, .list b => covers a b
  | _, _ => false

end TypeExpr

/-- The type of a field or an argument: a node and its wrapping. -/
inductive GraphType where
  | named (node : GraphNode)
  | nonNull (inner : GraphType)
  | list (item : GraphType)

namespace GraphType

/-- The non-null form of a type. -/
def required : GraphType → GraphType
  | .nonNull inner => .nonNull inner
  | other => .nonNull other

/-- Whether a type is non-null at the outside. -/
def isNonNull : GraphType → Bool
  | .nonNull _ => true
  | _ => false

/-- The node at the bottom of a type. -/
def node : GraphType → GraphNode
  | .named n => n
  | .nonNull inner => inner.node
  | .list item => item.node

/-- The type of the items of a list type, required or not. -/
def item? : GraphType → Option GraphType
  | .named _ => none
  | .nonNull inner => inner.item?
  | .list item => some item

/-- How many lists a type has around its node. -/
def listDepth : GraphType → Nat
  | .named _ => 0
  | .nonNull inner => inner.listDepth
  | .list item => item.listDepth + 1

/-- The type with the name of its node. -/
def expr : GraphType → TypeExpr
  | .named n => .named n.name
  | .nonNull inner => .nonNull inner.expr
  | .list item => .list item.expr

/-- The text of a type. -/
def display (t : GraphType) : String := t.expr.display

@[simp] theorem required_required (t : GraphType) : t.required.required = t.required := by
  cases t <;> rfl

@[simp] theorem node_required (t : GraphType) : t.required.node = t.node := by cases t <;> rfl

end GraphType

end ApiGraph
