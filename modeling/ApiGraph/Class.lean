/-!
# Classes and their keys

A class is a declaration with an identity of its own: two classes of one name are different, and
everything that is registered hangs off a class's key.  A class has at most one parent, fixed when
it is declared, so its lineage ends.

## What is here

* `TypeKey` and `KeySupply`: identities, handed out one after the other.
* `ClassRef`: a class with its chain of ancestors.
* `ClassRef.lineage`, `ClassRef.oldestFirst`, `ClassRef.isA`: the ancestors of a class.
* `Declared`: the declarations of a run, in order, each with a fresh key.
-/

set_option autoImplicit false

namespace ApiGraph

/-- The identity of a class or of an enum. -/
structure TypeKey where
  /-- The number behind the identity. -/
  number : UInt32
deriving DecidableEq, Repr

/-- The text of a key. -/
def TypeKey.display (key : TypeKey) : String := "#" ++ toString key.number.toNat

/-- A supply of keys: the number that the next declaration gets. -/
structure KeySupply where
  next : UInt32 := 1
deriving DecidableEq, Repr

/-- Takes the next key; the numbers wrap around after `2 ^ 32` declarations. -/
def KeySupply.take (supply : KeySupply) : TypeKey × KeySupply :=
  (⟨supply.next⟩, ⟨supply.next + 1⟩)

/-! ## Classes -/

/-- A class: its key, its name and, if it inherits, its parent. -/
inductive ClassRef where
  /-- A class without a parent. -/
  | base (key : TypeKey) (name : String)
  /-- A class that inherits from another. -/
  | derived (key : TypeKey) (name : String) (parent : ClassRef)
deriving Repr

namespace ClassRef

/-- The identity of a class. -/
def key : ClassRef → TypeKey
  | .base key _ => key
  | .derived key _ _ => key

/-- The name of a class. -/
def name : ClassRef → String
  | .base _ name => name
  | .derived _ name _ => name

/-- The class that a class inherits from. -/
def parent? : ClassRef → Option ClassRef
  | .base _ _ => none
  | .derived _ _ parent => some parent

/-- Classes are equal if their keys are. -/
instance : BEq ClassRef := ⟨fun a b ↦ a.key == b.key⟩

/-- A class followed by its ancestors, nearest first. -/
def lineage : ClassRef → List ClassRef
  | .base key name => [.base key name]
  | .derived key name parent => .derived key name parent :: parent.lineage

/-- The ancestors of a class, oldest first, and the class itself at the end. -/
def oldestFirst (c : ClassRef) : List ClassRef := c.lineage.reverse

/-- Whether a key is the key of a class or of one of its ancestors. -/
def isA : ClassRef → TypeKey → Bool
  | .base own _, key => own == key
  | .derived own _ parent, key => own == key || parent.isA key

/-- A class has the key of exactly the classes in its lineage. -/
theorem isA_iff_mem_lineage (c : ClassRef) (key : TypeKey) :
    c.isA key = true ↔ key ∈ c.lineage.map ClassRef.key := by
  induction c with
  | base own name =>
    simp only [isA, lineage, ClassRef.key, beq_iff_eq, List.map_cons, List.map_nil,
      List.mem_singleton]
    exact eq_comm
  | derived own name parent ih =>
    simp only [isA, lineage, ClassRef.key, Bool.or_eq_true, beq_iff_eq, List.map_cons,
      List.mem_cons, ih]
    exact or_congr_left eq_comm

end ClassRef

/-! ## Runs of declarations -/

/-- A declaration as it is made: a class, perhaps with the position of an earlier class as its
parent, or an enum. -/
inductive Declaration where
  | cls (name : String) (parent : Option Nat)
  | enum
deriving Repr

/-- What a declaration yields. -/
inductive Declared where
  | cls (c : ClassRef)
  | enum (key : TypeKey)
deriving Repr

namespace Declared

/-- The key of a declaration. -/
def key : Declared → TypeKey
  | .cls c => c.key
  | .enum key => key

/-- The class of a declaration, if it is one. -/
def class? : Declared → Option ClassRef
  | .cls c => some c
  | .enum _ => none

end Declared

/-- Makes one declaration after those already made; a parent that is no earlier class is none. -/
def declare (made : List Declared) (supply : KeySupply) : Declaration → Declared × KeySupply
  | .cls name parent =>
    let (key, supply) := supply.take
    match (parent.bind fun i ↦ made[i]?).bind Declared.class? with
    | some p => (.cls (.derived key name p), supply)
    | none => (.cls (.base key name), supply)
  | .enum =>
    let (key, supply) := supply.take
    (.enum key, supply)

/-- Makes declarations in order. -/
def declareAll (declarations : List Declaration) : List Declared × KeySupply :=
  declarations.foldl
    (fun (made, supply) d ↦
      let (one, supply) := declare made supply d
      (made ++ [one], supply))
    ([], {})

end ApiGraph
