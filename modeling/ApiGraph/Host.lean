import ApiGraph.Error
import ApiGraph.HostValue
import ApiGraph.Process.Basic

/-!
# The program behind the declarations

A `Host` says what the names of callables stand for.  Its code may look at and change a state of
its own, of which the library knows nothing.  Every call of a callable is one step of that state,
except that methods and hooks may pause.

## What is here

* `ResolverData`: what hooks and injectors may look at.
* `Host`: the meaning of every kind of callable.
-/

set_option autoImplicit false

namespace ApiGraph

/-- Data that the caller attaches to a request. -/
abbrev RequestContext := HostData

/-- Everything that a hook or an injector may look at. -/
structure ResolverData where
  source : HostValue
  /-- The supplied arguments by name. -/
  args : OrderedMap String HostValue := []
  context : Option RequestContext := none
  info : ResolveInfo := {}

/-- The meaning of the program's callables, over a state of the program. -/
structure Host (σ : Type) where
  /-- Takes note that a deferred reference of a label is forced. -/
  forced : Option String → StateM σ Unit
  /-- Makes the instance of a schema root. -/
  construct : ConstructorId → StateM σ Instance
  /-- Picks the concrete type of a value. -/
  discriminate : DiscriminatorId → HostValue → Option RequestContext → ResolveInfo →
    StateM σ (Option TypeRef)
  /-- Runs a method on a source and positional arguments. -/
  method : MethodId → HostValue → List HostValue → Process σ (Except FieldError HostValue)
  /-- Calls a hook before a field, which leaves a process to be run. -/
  before : Hook → ResolverData → StateM σ (Process σ (Except FieldError Unit))
  /-- Calls a hook after a field, on the field's value, which leaves a process to be run. -/
  after : Hook → HostValue → ResolverData → StateM σ (Process σ (Except FieldError Unit))
  /-- Supplies an injected parameter. -/
  inject : InjectorId → ResolverData → StateM σ HostValue

end ApiGraph
