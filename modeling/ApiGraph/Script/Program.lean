import ApiGraph.Script.Behavior

/-!
# Scripted programs

## What is here

* `MethodScript`, `HookScript`, `InjectorScript`, `DiscriminatorScript`, `RootScript`: callables as
  data.
* `Program`: tables of callables, each found under the index of its name.
* `Program.host`: the host that runs a scripted program.
-/

set_option autoImplicit false

namespace ApiGraph.Script

/-! ## Callables as data -/

/-- A method: it pauses a number of times and then does what its behaviour says. -/
structure MethodScript where
  delay : Nat := 0
  behavior : Behavior

/-- A hook: it reports that it runs and then, if its condition holds, may fail. -/
structure HookScript where
  tag : String
  /-- How often the hook pauses before it runs; without a delay it runs as it is called. -/
  delay : Option Nat := none
  /-- The text with which the hook fails. -/
  failure : Option String := none
  /-- The argument and the value on which failing depends. -/
  condition : Option (String × HostValue) := none

/-- Whether the condition of a hook holds. -/
def HookScript.applies (h : HookScript) (data : ResolverData) : Bool :=
  match h.condition with
  | none => true
  | some (name, value) => (OrderedMap.find data.args name).any fun v ↦ v.same value

/-- What becomes of a hook. -/
def HookScript.result (h : HookScript) (data : ResolverData) : Except FieldError Unit :=
  match h.failure with
  | some text => if h.applies data then .error (.failed text) else .ok ()
  | none => .ok ()

/-- Runs a hook, which makes the given report. -/
def HookScript.run (h : HookScript) (data : ResolverData) (told : String → Report) :
    StateM ScriptState (Except FieldError Unit) := do
  modify (·.report (told h.tag))
  return h.result data

/-- Calls a hook.  Without a delay it runs at once, and what is left gives the result. -/
def HookScript.call (h : HookScript) (data : ResolverData) (told : String → Report) :
    StateM ScriptState (Process ScriptState (Except FieldError Unit)) := do
  match h.delay with
  | none =>
    let result ← h.run data told
    return pure result
  | some n => return do
    Process.pause n
    h.run data told

/-- An injector of a program. -/
inductive InjectorScript where
  /-- The supplied argument of a name, undefined without one. -/
  | arg (name : String)
  | const (value : HostValue)

/-- The value that an injector supplies. -/
def InjectorScript.supply (data : ResolverData) : InjectorScript → HostValue
  | .arg name => (OrderedMap.find data.args name).getD .undefined
  | .const value => value

/-- A condition on a value whose concrete type is sought. -/
inductive Condition where
  | has (property : String)
  | eq (property : String) (value : HostValue)
  | context (label : String)
  | field (name : String)

/-- Whether a condition holds. -/
def Condition.holds (value : HostValue) (context : Option RequestContext) (info : ResolveInfo) :
    Condition → Bool
  | .has property => (value.get property).isSome
  | .eq property expected => (value.get property).any fun v ↦ v.same expected
  | .context label => context.any fun c ↦ c.label == label
  | .field name => info.fieldName == name

/-- A discriminator: the first case that holds says the type. -/
structure DiscriminatorScript where
  /-- The tag under which it reports its calls, if it does. -/
  tag : Option String := none
  cases : List (Condition × Option TypeRef) := []
  otherwise : Option TypeRef := none

/-- The type that a discriminator gives. -/
def DiscriminatorScript.choose (d : DiscriminatorScript) (value : HostValue)
    (context : Option RequestContext) (info : ResolveInfo) : Option TypeRef :=
  match d.cases.find? fun (condition, _) ↦ condition.holds value context info with
  | some (_, type) => type
  | none => d.otherwise

/-- A constructor of a schema root, which reports each construction. -/
structure RootScript where
  cls : ClassRef
  made : Instance

/-! ## Programs -/

/-- Tables of callables. -/
structure Program where
  methods : Array MethodScript := #[]
  hooks : Array HookScript := #[]
  injectors : Array InjectorScript := #[]
  discriminators : Array DiscriminatorScript := #[]
  roots : Array RootScript := #[]

namespace Program

/-- The program without callables. -/
instance : Inhabited Program := ⟨{}⟩

/-- Adds a method and gives its name. -/
def addMethod (p : Program) (m : MethodScript) : MethodId × Program :=
  (⟨p.methods.size⟩, { p with methods := p.methods.push m })

/-- Adds a hook and gives its name. -/
def addHook (p : Program) (h : HookScript) : Hook × Program :=
  (⟨p.hooks.size⟩, { p with hooks := p.hooks.push h })

/-- Adds an injector and gives its name. -/
def addInjector (p : Program) (i : InjectorScript) : InjectorId × Program :=
  (⟨p.injectors.size⟩, { p with injectors := p.injectors.push i })

/-- Adds a discriminator and gives its name. -/
def addDiscriminator (p : Program) (d : DiscriminatorScript) : DiscriminatorId × Program :=
  (⟨p.discriminators.size⟩, { p with discriminators := p.discriminators.push d })

/-- Adds a constructor and gives its name. -/
def addRoot (p : Program) (r : RootScript) : ConstructorId × Program :=
  (⟨p.roots.size⟩, { p with roots := p.roots.push r })

/-- Adds a report. -/
def report (r : Report) : StateM ScriptState Unit := modify (·.report r)

/-- Picks the concrete type of a value by a scripted discriminator. -/
def discriminate (p : Program) (id : DiscriminatorId) (value : HostValue)
    (context : Option RequestContext) (info : ResolveInfo) : StateM ScriptState (Option TypeRef) :=
  match p.discriminators[id.index]? with
  | none => return none
  | some d => do
    if let some tag := d.tag then report (.discriminated tag value context info)
    return d.choose value context info

/-- Runs a scripted method. -/
def method (p : Program) (id : MethodId) (source : HostValue) (args : List HostValue) :
    Process ScriptState (Except FieldError HostValue) :=
  match p.methods[id.index]? with
  | none => return .ok .undefined
  | some m => do
    Process.pause m.delay
    (m.behavior.eval source args).run

/-- Calls a scripted hook, which makes the given report. -/
def hook (p : Program) (id : Hook) (data : ResolverData) (told : String → Report) :
    StateM ScriptState (Process ScriptState (Except FieldError Unit)) :=
  match p.hooks[id.index]? with
  | none => return pure (.ok ())
  | some h => h.call data told

/-- Makes the instance of a scripted root. -/
def construct (p : Program) (id : ConstructorId) : StateM ScriptState Instance :=
  match p.roots[id.index]? with
  | none => return { cls := .base ⟨0⟩ "" }
  | some r => do
    report (.constructed r.cls)
    return r.made

/-- The host that runs a scripted program. -/
def host (p : Program) : Host ScriptState where
  forced label := match label with
    | some tag => report (.forced tag)
    | none => return ()
  construct := p.construct
  discriminate := p.discriminate
  method := p.method
  before id data := p.hook id data fun tag ↦ .before tag data
  after id value data := p.hook id data fun tag ↦ .after tag value data
  inject id data := return ((p.injectors[id.index]?).map (·.supply data)).getD .undefined

end Program

end ApiGraph.Script
