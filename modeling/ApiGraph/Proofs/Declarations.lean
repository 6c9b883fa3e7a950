import ApiGraph.Inference
import ApiGraph.Proofs.OrderedMap
import ApiGraph.Session.Registries

/-!
# What a program declares

The classes and enums of a program are told apart by their keys, and the nodes that it makes, of
scalars and of enums, by their identities.  Registrations refer to these, and to nodes that a
session has made already.

## What is here

* `Declarations`: the classes and enums of a program, and the nodes that it makes.
* `TypeRef.Within`, `Signature.Within` and their like: what a registration may refer to.
* `Signature.Within.infer`: what is read off a signature refers to what the signature refers to.
-/

set_option autoImplicit false

namespace ApiGraph

/-! ## What a program declares -/

/-- The classes and the enums of a program, and the nodes that it makes by hand: of scalars, and of
enums with whatever items.  Each has an identity of its own. -/
structure Declarations where
  classes : ClassRef → Prop
  enums : EnumDef → Prop
  scalars : ScalarNode → Prop
  /-- The nodes of enums that no session has made. -/
  enumNodes : EnumNode → Prop := fun _ ↦ False
  classes_inj : ∀ {c c' : ClassRef}, classes c → classes c' → c.key = c'.key → c = c'
  enums_inj : ∀ {e e' : EnumDef}, enums e → enums e' → e.key = e'.key → e = e'
  scalars_inj : ∀ {n n' : ScalarNode}, scalars n → scalars n' → n.id = n'.id → n = n'
  scalars_custom : ∀ {n : ScalarNode}, scalars n →
    n.builtin = false ∧ ∃ serial, n.id = .custom serial
  enumNodes_inj : ∀ {n n' : EnumNode}, enumNodes n → enumNodes n' → n.id = n'.id → n = n' := by
    exact fun h ↦ h.elim
  enumNodes_custom : ∀ {n : EnumNode}, enumNodes n →
    (∃ serial, n.id = .custom serial) ∧ ∀ n', scalars n' → n'.id ≠ n.id := by
    exact fun h ↦ h.elim

/-- The program that declares some classes and nothing else. -/
def Declarations.ofClasses (l : List ClassRef) (h : (l.map ClassRef.key).Nodup) : Declarations where
  classes c := c ∈ l
  enums _ := False
  scalars _ := False
  classes_inj hc hc' hkey := List.inj_on_of_nodup_map h hc hc' hkey
  enums_inj he := he.elim
  scalars_inj hn := hn.elim
  scalars_custom hn := hn.elim

/-- A node that the program makes by hand. -/
inductive Declarations.Makes (d : Declarations) : GraphNode → Prop
  | scalar {n : ScalarNode} (h : d.scalars n) : Declarations.Makes d (.scalar n)
  | enum {n : EnumNode} (h : d.enumNodes n) : Declarations.Makes d (.enum n)

theorem Declarations.Makes.custom {d : Declarations} {n : GraphNode} (h : d.Makes n) :
    ∃ serial, n.id = .custom serial := by
  cases h with
  | scalar h => exact (d.scalars_custom h).2
  | enum h => exact (d.enumNodes_custom h).1

theorem Declarations.Makes.eq_of_id_eq {d : Declarations} {n n' : GraphNode} (h : d.Makes n)
    (h' : d.Makes n') (hid : n.id = n'.id) : n = n' := by
  cases h with
  | scalar h =>
    cases h' with
    | scalar h' => exact congrArg GraphNode.scalar (d.scalars_inj h h' hid)
    | enum h' => exact absurd hid ((d.enumNodes_custom h').2 _ h)
  | enum h =>
    cases h' with
    | scalar h' => exact absurd hid.symm ((d.enumNodes_custom h).2 _ h')
    | enum h' => exact congrArg GraphNode.enum (d.enumNodes_inj h h' hid)

/-- A reference to what is declared, or to a node that is offered. -/
inductive TypeRef.Within (d : Declarations) (offered : GraphNode → Prop) : TypeRef → Prop
  | node {n : GraphNode} (h : offered n) : TypeRef.Within d offered (.node n)
  | scalar (scalar : NativeScalar) : TypeRef.Within d offered (.scalar scalar)
  | cls {c : ClassRef} (h : d.classes c) : TypeRef.Within d offered (.cls c)
  | enum {e : EnumDef} (h : d.enums e) : TypeRef.Within d offered (.enum e)
  | array {items : List TypeRef} (h : ∀ t ∈ items, TypeRef.Within d offered t) :
    TypeRef.Within d offered (.array items)
  | thunk {label : Option String} {target : TypeRef} (h : TypeRef.Within d offered target) :
    TypeRef.Within d offered (.thunk label target)

/-- A signature over what is declared. -/
inductive Signature.Within (d : Declarations) : Signature → Prop
  | scalar (scalar : NativeScalar) : Signature.Within d (.scalar scalar)
  | literal (literal : Literal) : Signature.Within d (.literal literal)
  | null : Signature.Within d .null
  | undefined : Signature.Within d .undefined
  | cls {c : ClassRef} (h : d.classes c) : Signature.Within d (.cls c)
  | enum {e : EnumDef} (h : d.enums e) : Signature.Within d (.enum e)
  | array {item : Signature} (h : Signature.Within d item) : Signature.Within d (.array item)
  | union {members : List Signature} (h : ∀ m ∈ members, Signature.Within d m) :
    Signature.Within d (.union members)
  | generic {wrapper : String} {params : List Signature} (h : ∀ p ∈ params, Signature.Within d p) :
    Signature.Within d (.generic wrapper params)
  | object : Signature.Within d .object
  | bareArray : Signature.Within d .bareArray
  | barePromise : Signature.Within d .barePromise

/-- A parameter over what is declared. -/
def Param.Within (d : Declarations) (p : Param) : Prop := ∀ g ∈ p.signature, g.Within d

/-- A field over what is declared and offered. -/
structure FieldSpec.Within (d : Declarations) (offered : GraphNode → Prop) (f : FieldSpec) :
    Prop where
  type : ∀ t ∈ f.type, t.Within d offered
  params : ∀ p ∈ f.params, p.Within d
  returns : ∀ g ∈ f.returns, g.Within d

/-- An argument over what is declared and offered. -/
def ArgSpec.Within (d : Declarations) (offered : GraphNode → Prop) (a : ArgSpec) : Prop :=
  ∀ t ∈ a.type, t.Within d offered

/-- An input field over what is declared and offered. -/
structure InputFieldSpec.Within (d : Declarations) (offered : GraphNode → Prop)
    (f : InputFieldSpec) : Prop where
  type : ∀ t ∈ f.type, t.Within d offered
  signature : ∀ g ∈ f.signature, g.Within d

/-- Registries over what is declared and offered. -/
structure Registries.Within (d : Declarations) (offered : GraphNode → Prop) (r : Registries) :
    Prop where
  implements : ∀ spec ∈ OrderedMap.values r.objects, ∀ c ∈ spec.implements, d.classes c
  members : ∀ spec ∈ OrderedMap.values r.unions, ∀ c ∈ spec.members, d.classes c
  implementors : ∀ cs ∈ OrderedMap.values r.implementors, ∀ c ∈ cs, d.classes c
  fields : r.fields.All (FieldSpec.Within d offered)
  args : r.args.All (ArgSpec.Within d offered)
  inputFields : r.inputFields.All (InputFieldSpec.Within d offered)

section Within

variable {d : Declarations} {offered offered' : GraphNode → Prop}

theorem TypeRef.Within.imp (ho : ∀ n, offered n → offered' n) {t : TypeRef}
    (h : t.Within d offered) : t.Within d offered' := by
  induction h with
  | node h => exact .node (ho _ h)
  | scalar s => exact .scalar s
  | cls h => exact .cls h
  | enum h => exact .enum h
  | array _ ih => exact .array ih
  | thunk _ ih => exact .thunk ih

theorem FieldSpec.Within.imp (ho : ∀ n, offered n → offered' n) {f : FieldSpec}
    (h : f.Within d offered) : f.Within d offered' :=
  ⟨fun t ht ↦ (h.type t ht).imp ho, h.params, h.returns⟩

theorem ArgSpec.Within.imp (ho : ∀ n, offered n → offered' n) {a : ArgSpec}
    (h : a.Within d offered) : a.Within d offered' :=
  fun t ht ↦ (h t ht).imp ho

theorem InputFieldSpec.Within.imp (ho : ∀ n, offered n → offered' n) {f : InputFieldSpec}
    (h : f.Within d offered) : f.Within d offered' :=
  ⟨fun t ht ↦ (h.type t ht).imp ho, h.signature⟩

theorem Registries.Within.imp (ho : ∀ n, offered n → offered' n) {r : Registries}
    (h : r.Within d offered) : r.Within d offered' where
  implements := h.implements
  members := h.members
  implementors := h.implementors
  fields := h.fields.imp fun _ ↦ FieldSpec.Within.imp ho
  args := h.args.imp fun _ ↦ ArgSpec.Within.imp ho
  inputFields := h.inputFields.imp fun _ ↦ InputFieldSpec.Within.imp ho

theorem Registries.Within.of_implementorsOf {r : Registries} (h : r.Within d offered)
    {i c : ClassRef} (hc : c ∈ r.implementorsOf i) : d.classes c := by
  rw [implementorsOf] at hc
  cases hf : OrderedMap.find r.implementors i.key with
  | none => rw [hf] at hc; cases hc
  | some cs =>
    rw [hf] at hc
    exact h.implementors cs (OrderedMap.mem_values_of_find hf) c hc

mutual

theorem Signature.Within.of_mem_flat {m : Signature} :
    ∀ {s : Signature}, s.Within d → m ∈ s.flat → m.Within d
  | .union members, .union h, hm => Signature.Within.of_mem_flats h (by simpa [flat] using hm)
  | .scalar _, h, hm | .literal _, h, hm | .null, h, hm | .undefined, h, hm | .cls _, h, hm
  | .enum _, h, hm | .array _, h, hm | .generic _ _, h, hm | .object, h, hm | .bareArray, h, hm
  | .barePromise, h, hm => by
    rw [flat, List.mem_singleton] at hm
    · exact hm ▸ h
    · simp

theorem Signature.Within.of_mem_flats {m : Signature} :
    ∀ {ms : List Signature}, (∀ s ∈ ms, s.Within d) → m ∈ flats ms → m.Within d
  | [], _, hm => by simp [flats] at hm
  | s :: rest, h, hm => by
    rw [flats, List.mem_append] at hm
    rcases hm with hm | hm
    · exact Signature.Within.of_mem_flat (h s List.mem_cons_self) hm
    · exact Signature.Within.of_mem_flats (fun x hx ↦ h x (List.mem_cons_of_mem _ hx)) hm

end

/-- What a signature over declarations says is a reference to declarations. -/
theorem Signature.Within.infer {s : Signature} (h : s.Within d) {t : TypeRef}
    (ht : s.infer.type = some t) : t.Within d offered := by
  fun_induction Signature.infer s generalizing t with
  | case1 | case2 | case11 | case14 => cases ht; exact .scalar _
  | case3 => cases ht; cases h with | cls h => exact .cls h
  | case4 => cases ht; cases h with | enum h => exact .enum h
  | case7 item _ t hi ih =>
    cases ht
    cases h with
    | array h =>
      refine .array fun x hx ↦ ?_
      rw [List.mem_singleton.1 hx]
      exact ih h hi
  | case9 wrapper inner ih =>
    cases h with
    | generic h => exact ih (h inner (List.mem_singleton_self _)) ht
  | case13 members _ _ single hs ih =>
    cases h with
    | union h =>
      have hm : single ∈ flats members :=
        (List.mem_filter.1 (hs ▸ List.mem_singleton_self single)).1
      exact ih (Within.of_mem_flats h hm) ht
  | case5 | case6 | case8 | case10 | case12 | case15 | case16 | case17 | case18 => cases ht

end Within

end ApiGraph
