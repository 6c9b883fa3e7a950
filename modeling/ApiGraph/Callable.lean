/-!
# Names of the program's own code

Methods, hooks, injectors, discriminators and constructors are code of the program that uses the
library.  Declarations hold names of them; what the names stand for is said by a `Host`.

## What is here

* `MethodId`, `Hook`, `InjectorId`, `DiscriminatorId`, `ConstructorId`.
* `Injector`: where an injected parameter comes from.
-/

set_option autoImplicit false

namespace ApiGraph

/-- The name of a field method. -/
structure MethodId where
  index : Nat
deriving DecidableEq, Repr

/-- The name of a hook. -/
structure Hook where
  index : Nat
deriving DecidableEq, Repr

/-- The name of an injector of the program. -/
structure InjectorId where
  index : Nat
deriving DecidableEq, Repr

/-- The name of a function that picks the concrete type of a value. -/
structure DiscriminatorId where
  index : Nat
deriving DecidableEq, Repr

/-- The name of the constructor of a schema root. -/
structure ConstructorId where
  index : Nat
deriving DecidableEq, Repr

/-- Where an injected parameter gets its value from. -/
inductive Injector where
  /-- The context of the request, null without one. -/
  | context
  /-- The value on which the field is resolved. -/
  | source
  /-- The place in the graph at which the field is resolved. -/
  | info
  /-- A function of the program. -/
  | host (id : InjectorId)
deriving DecidableEq, Repr

end ApiGraph
