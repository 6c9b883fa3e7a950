/-!
# Native scalars

## What is here

* `NativeScalar`: the scalars that every declaration may use without registering anything.
* `NativeScalar.graphName`: their names in the graph.
-/

set_option autoImplicit false

namespace ApiGraph

/-- The scalars that need no registration. -/
inductive NativeScalar where
  | string
  | number
  | boolean
  | date
  | int
  | id
deriving DecidableEq, Repr

/-- The name of a native scalar in the graph. -/
def NativeScalar.graphName : NativeScalar → String
  | .string => "String"
  | .number => "Float"
  | .boolean => "Boolean"
  | .date => "DateTime"
  | .int => "Int"
  | .id => "ID"

end ApiGraph
