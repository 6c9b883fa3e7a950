import ApiGraph.Proofs.FieldMap.Collapse
import ApiGraph.Proofs.Schema.Leftover
import ApiGraph.Proofs.Schema.RootFields

/-!
# Errors that point at their field

A reference that has no type is met deep in a compilation: while a schema is walked, a type is asked
for its fields, and one of these refers to something that cannot be compiled.  The error does not
say what the walk was doing, but which declaration is to be corrected.  It names the class and the
property of a field whose own reference has no type, or has one that no output field may have; and
what it says of the reference is what resolving it says when nothing else has been asked for.

An error is ascribed to a field where the field is compiled, and nowhere else.  Resolving a
reference makes nodes but never asks a node for its fields, so an error that is ascribed to a field
is never ascribed to a second one.

## What is here

* `Misfit`: what is wrong with a reference, in the words of the field that has it;
  `compileField_misfit` and `compileInputField_misfit`.
* `FieldFault`, `InputFault`: a class declares a field whose reference is wrong.
* `SchemaFault`: the fields that a schema compiles, and the fault of one of them;
  `GraphNode.fault_of_successors` for the types and `exists_fault_of_compileRoots` for the roots.
* `compileSchema_fault`: there is no other reason for a resolve error.
-/

set_option autoImplicit false

namespace ApiGraph

open Compile (Settles Respects)
open CompileError (OfArgument OfObject OfReference)
open OrderedMap (values)

variable {σ α β : Type} {d : Declarations} {host : Host σ} {w u w₁ : Workspace σ} {s : SessionId}
  {roots : List ClassRef}

/-! ## What is wrong with a reference -/

/-- Whether an error is about a reference only, and not about a field that has it. -/
def ResolveError.isPlain : ResolveError → Bool
  | .inField .. | .notOutputType .. => false
  | _ => true

/-- The reference of a field: the explicit type, or the one that the signature says. -/
def FieldSpec.reference? (f : FieldSpec) : Option TypeRef :=
  f.type.or (Signature.infer? f.returns).type

/-- The place and the modifiers of the reference of a field. -/
def FieldSpec.options (f : FieldSpec) : ResolveOptions where
  nullable := f.nullable.getD (Signature.infer? f.returns).nullable
  itemNullable := f.itemNullable

/-- The reference of an input field: the explicit type, or the one that the signature says. -/
def InputFieldSpec.reference? (f : InputFieldSpec) : Option TypeRef :=
  f.type.or (Signature.infer? f.signature).type

/-- The place and the modifiers of the reference of an input field. -/
def InputFieldSpec.options (f : InputFieldSpec) : ResolveOptions where
  argument := true
  nullable := f.nullable.getD (Signature.infer? f.signature).nullable
  itemNullable := f.itemNullable

/-- What is wrong with a reference, in the words of the field that has it: it has no type, for the
reason that resolving it gives, or it has a type that no output field may have. -/
inductive Misfit (host : Host σ) (w : Workspace σ) (s : SessionId) (cls : ClassRef)
    (property : String) (t : TypeRef) (o : ResolveOptions) : ResolveError → Prop
  | unresolved {source : ResolveError} (hplain : source.isPlain = true)
    (hsource : ((resolveType host s t o).runIn w).1 = .error (.resolve source)) :
    Misfit host w s cls property t o (.inField cls.name property source)
  | notOutput {type : GraphType} (ho : o.argument = false)
    (htype : ((resolveType host s t o).runIn w).1 = .ok type)
    (hout : type.node.isOutput = false) :
    Misfit host w s cls property t o (.notOutputType cls.name property type.display)

theorem CompileError.OfReference.isPlain {source : ResolveError}
    (h : (CompileError.resolve source).OfReference) : source.isPlain = true := by
  cases source <;> first | rfl | cases h

/-- A reference that is resolved for a field fails for what is wrong with it. -/
theorem Misfit.of_tryCatch {cls : ClassRef} {property : String} {t : TypeRef} {o : ResolveOptions}
    {e : ResolveError}
    (h : ((tryCatch (resolveType host s t o) fun e ↦
      throw (inField cls property e)).runIn w).1 = .error (.resolve e)) :
    Misfit host w s cls property t o e := by
  rcases hrun : (resolveType host s t o).runIn w with ⟨e' | type, w'⟩
  · rw [Compile.runIn_tryCatch_of_error hrun] at h
    have href : e'.OfReference := resolveType_failsOnly s host t o w e' (congrArg Prod.fst hrun)
    replace h : inField cls property e' = .resolve e := Except.error.inj h
    rw [inField.eq_def] at h
    split at h
    · exact absurd href.isPlain Bool.false_ne_true
    · cases h
      exact .unresolved href.isPlain (congrArg Prod.fst hrun)
    · rename_i hother
      exact absurd h (hother e)
  · rw [Compile.runIn_tryCatch_of_ok hrun] at h
    cases h

theorem inferenceError_ne_resolve (cls : ClassRef) (property : String) (shape : Option Uninferable)
    (e : ResolveError) : inferenceError cls property shape ≠ .resolve e := by
  cases shape <;> nofun

/-- **A field is blamed for its own reference.** -/
theorem compileField_misfit {owner : ClassRef} {spec : FieldSpec} {root : Option Instance}
    {e : ResolveError}
    (h : ((compileField host s owner spec root).runIn w).1 = .error (.resolve e)) :
    ∃ t, spec.reference? = some t ∧ Misfit host w s owner spec.property t spec.options e := by
  rw [compileField] at h
  dsimp only at h
  split at h
  · exact absurd (Except.error.inj h) (inferenceError_ne_resolve _ _ _ e)
  rename_i t ht
  refine ⟨t, ht, ?_⟩
  obtain he | ⟨type, w', hrun, h⟩ := Compile.runIn_bind_eq_error h
  · exact .of_tryCatch he
  have htype := congrArg Prod.fst (Compile.runIn_eq_ok_of_tryCatch hrun)
  split at h
  · -- once the type is there, only arguments can fail
    have hargs : OfArgument (.resolve e) := by
      refine FailsOnly.bind (compileArgs_failsOnly s host owner spec) (fun _ ↦ .get fun v ↦ ?_)
        w' (.resolve e) h
      split
      · exact (FailsOnly.ofHost _).bind fun _ ↦ .pure _
      · exact .pure _
    cases hargs
  · rename_i hout
    split at h
    · exact absurd (Except.error.inj h) (inferenceError_ne_resolve _ _ _ e)
    · cases h
      exact .notOutput rfl htype (Bool.eq_false_iff.2 hout)

/-- **An input field is blamed for its own reference**, in the name of the input type. -/
theorem compileInputField_misfit {cls : ClassRef} {spec : InputFieldSpec} {e : ResolveError}
    (h : ((compileInputField host s cls spec).runIn w).1 = .error (.resolve e)) :
    ∃ t, spec.reference? = some t ∧ Misfit host w s cls spec.property t spec.options e := by
  rw [compileInputField] at h
  split at h
  · exact absurd (Except.error.inj h) (inferenceError_ne_resolve _ _ _ e)
  rename_i t ht
  refine ⟨t, ht, ?_⟩
  obtain he | ⟨type, w', -, h⟩ := Compile.runIn_bind_eq_error h
  · exact .of_tryCatch he
  · split at h <;> cases h

/-! ## Which declaration is at fault -/

/-- A class declares a field whose reference is wrong. -/
inductive FieldFault (host : Host σ) (w : Workspace σ) (s : SessionId) (owner : ClassRef) :
    ResolveError → Prop
  | intro {spec : FieldSpec} {t : TypeRef} {e : ResolveError}
    (hspec : (w.registries s).fields.get? owner.key spec.property = some spec)
    (ht : spec.reference? = some t) (he : Misfit host w s owner spec.property t spec.options e) :
    FieldFault host w s owner e

/-- A class declares an input field whose reference is wrong, which is said in the name of the class
of an input type. -/
inductive InputFault (host : Host σ) (w : Workspace σ) (s : SessionId) (cls owner : ClassRef) :
    ResolveError → Prop
  | intro {spec : InputFieldSpec} {t : TypeRef} {e : ResolveError}
    (hspec : (w.registries s).inputFields.get? owner.key spec.property = some spec)
    (ht : spec.reference? = some t) (he : Misfit host w s cls spec.property t spec.options e) :
    InputFault host w s cls owner e

/-- What is registered is found under its property. -/
theorem Registry.Keyed.get?_eq {κ ν : Type} [DecidableEq κ] {property : ν → κ} {r : Registry κ ν}
    (h : r.Keyed property) {owner : TypeKey} {v : ν} (hv : v ∈ values (r.getAll owner)) :
    r.get? owner (property v) = some v := by
  obtain ⟨e, he, rfl⟩ := List.mem_map.1 hv
  rw [(h owner).2 e he]
  exact (OrderedMap.find_eq_some_iff (h owner).1).2 he

theorem FieldFault.of_compileField (hr : (w.registries s).Keyed) {owner : ClassRef}
    {spec : FieldSpec} (hspec : spec ∈ values ((w.registries s).fields.getAll owner.key))
    {root : Option Instance} {e : ResolveError}
    (h : ((compileField host s owner spec root).runIn w).1 = .error (.resolve e)) :
    FieldFault host w s owner e := by
  obtain ⟨t, ht, he⟩ := compileField_misfit h
  exact .intro (hr.fields.get?_eq hspec) ht he

theorem InputFault.of_compileInputField (hr : (w.registries s).Keyed) {cls owner : ClassRef}
    {spec : InputFieldSpec}
    (hspec : spec ∈ values ((w.registries s).inputFields.getAll owner.key)) {e : ResolveError}
    (h : ((compileInputField host s cls spec).runIn w).1 = .error (.resolve e)) :
    InputFault host w s cls owner e := by
  obtain ⟨t, ht, he⟩ := compileInputField_misfit h
  exact .intro (hr.inputFields.get?_eq hspec) ht he

/-! ## One field after the other -/

/-- If one of several computations fails, it does so in a workspace of which everything holds that
they preserve. -/
theorem Compile.exists_error_of_mapM {p : Workspace σ → Prop} {f : α → Compile σ β} {l : List α}
    (hp : ∀ a ∈ l, ∀ u, p u → p ((f a).runIn u).2) (hu : p u) {e : CompileError}
    (h : ((l.mapM f).runIn u).1 = .error e) :
    ∃ a ∈ l, ∃ v, p v ∧ ((f a).runIn v).1 = .error e := by
  induction l generalizing u with
  | nil => cases h
  | cons a rest ih =>
    rw [List.mapM_cons] at h
    obtain he | ⟨b, v, hrun, h⟩ := runIn_bind_eq_error h
    · exact ⟨a, List.mem_cons_self, u, hu, he⟩
    have hv : p ((f a).runIn u).2 := hp a List.mem_cons_self u hu
    rw [hrun] at hv
    obtain he | ⟨bs, v', -, h⟩ := runIn_bind_eq_error h
    · obtain ⟨x, hx, hfails⟩ := ih (fun x hx ↦ hp x (List.mem_cons_of_mem _ hx)) hv he
      exact ⟨x, List.mem_cons_of_mem _ hx, hfails⟩
    · cases h

theorem runIn_compileEntry {ν : Type} (f : ν → Compile σ β) (e : String × ν) (u : Workspace σ) :
    (compileEntry f e).runIn u =
      (((f e.2).runIn u).1.map fun b ↦ (e.1, b), ((f e.2).runIn u).2) := by
  rw [compileEntry, bind_pure_comp, Compile.runIn_map]

/-- If one of several entries cannot be compiled in an aged workspace, it could not be at first. -/
theorem exists_error_of_mapM_compileEntry {ν : Type} {f : ν → Compile σ β}
    {nodes : β → List GraphNode} {entries : List (String × ν)} (hw : w.Coherent d)
    (hf : ∀ e ∈ entries, Settles d host w [] (f e.2) nodes)
    (hr : ∀ e ∈ entries, ∀ u, w.Aged d host u → Respects (w.Beside u) (f e.2))
    (hu : w.Aged d host u) {e : CompileError}
    (h : ((entries.mapM (compileEntry f)).runIn u).1 = .error e) :
    ∃ entry ∈ entries, ((f entry.2).runIn w).1 = .error e := by
  have haged : ∀ entry ∈ entries, ∀ v, w.Aged d host v →
      w.Aged d host ((compileEntry f entry).runIn v).2 := by
    intro entry hentry v hv
    rw [runIn_compileEntry]
    exact ((hf entry hentry).aged hw hv (hr entry hentry v hv)).2.2
  obtain ⟨entry, hentry, v, hv, he⟩ := Compile.exists_error_of_mapM haged hu h
  rw [runIn_compileEntry, ((hf entry hentry).aged hw hv (hr entry hentry v hv)).1] at he
  refine ⟨entry, hentry, ?_⟩
  cases hout : ((f entry.2).runIn w).1 with
  | error e' => rw [hout] at he; cases he; rfl
  | ok b => rw [hout] at he; cases he

section Fields

variable (hw : w.Coherent d) (hr : (w.registries s).Keyed) (hs : s < w.sessions.length)
  (hu : w.Aged d host u)
include hw hr hs hu

/-- If fields on a walk cannot be resolved, one that a class of the walk declares is at fault. -/
theorem exists_fault_of_compileFields {cls : ClassRef} {walk : List ClassRef} {e : ResolveError}
    (h : ((compileFields host s cls walk).runIn u).1 = .error (.resolve e)) :
    ∃ owner ∈ walk, FieldFault host w s owner e := by
  have hrun : (compileFields host s cls walk).runIn u =
      (ExceptT.mk (pure (collectFields (u.registries s) cls walk)) >>= fun declared ↦
        declared.mapM (compileEntry fun x ↦ compileField host s x.1 x.2 none) :
          Compile σ FieldMap).runIn u := rfl
  rw [hrun, hu.kin.registries] at h
  obtain ⟨hok, herr⟩ := collectFields_outcome (w.registries s) cls walk
  cases hcollect : collectFields (w.registries s) cls walk with
  | error e' =>
    obtain ⟨-, -, field, rfl⟩ := herr e' hcollect
    rw [hcollect, Compile.runIn_bind_of_error (Compile.runIn_mk_pure _ u)] at h
    cases h
  | ok declared =>
    have hwithin := (collectFields_spec (hw.registries s).fields).1 _ hcollect
    rw [hcollect, Compile.runIn_bind_of_ok (Compile.runIn_mk_pure _ u)] at h
    obtain ⟨x, hx, he⟩ := exists_error_of_mapM_compileEntry hw
      (fun e he ↦ compileField_settles hw hs e.2.1 (hwithin e he) none)
      (fun e _ v hv ↦ compileField_respects (hv.kin.congruence s).concord host e.2.1 e.2.2 none)
      hu h
    obtain ⟨-, rfl⟩ := hok declared hcollect
    obtain ⟨y, hy, rfl⟩ := List.mem_map.1 (OrderedMap.mem_of_mem_ofEntries hx)
    obtain ⟨howner, hspec⟩ := mem_declaredOn.1 hy
    exact ⟨y.1, howner, .of_compileField hr (List.mem_of_mem_filter hspec) he⟩

/-- If the fields of an input type cannot be resolved, one of its lineage is at fault. -/
theorem exists_fault_of_compileInputFields {cls : ClassRef} {e : ResolveError}
    (h : ((compileInputFields host s cls).runIn u).1 = .error (.resolve e)) :
    ∃ owner ∈ cls.lineage, InputFault host w s cls owner e := by
  have hrun : (compileInputFields host s cls).runIn u =
      ((collectInputFields (u.registries s) cls.oldestFirst).mapM
        (compileEntry (compileInputField host s cls)) : Compile σ InputMap).runIn u := rfl
  rw [hrun, hu.kin.registries] at h
  have hcollect := collectInputFields_eq (w.registries s) cls.oldestFirst
  generalize collectInputFields (w.registries s) cls.oldestFirst = declared at h hcollect
  have hdeclared : ∀ e ∈ declared,
      ∃ owner ∈ cls.lineage, e.2 ∈ (w.registries s).ownInputs owner := by
    rw [hcollect]
    intro e he
    obtain ⟨y, hy, rfl⟩ := List.mem_map.1 (OrderedMap.mem_of_mem_ofEntries he)
    obtain ⟨howner, hspec⟩ := mem_declaredOn.1 hy
    exact ⟨y.1, List.mem_reverse.1 howner, hspec⟩
  have hwithin : ∀ e ∈ declared, e.2.Within d (w.Offers d) := by
    intro e he
    obtain ⟨owner, -, hspec⟩ := hdeclared e he
    exact (hw.registries s).inputFields owner.key e.2 hspec
  obtain ⟨x, hx, he⟩ := exists_error_of_mapM_compileEntry hw
    (fun e he ↦ compileInputField_settles hw hs cls (hwithin e he))
    (fun e _ v hv ↦ compileInputField_respects (hv.kin.congruence s).concord host cls e.2) hu h
  obtain ⟨owner, howner, hspec⟩ := hdeclared x hx
  exact ⟨owner, howner, .of_compileInputField hr hspec he⟩

end Fields

/-! ## A type whose successors cannot be told -/

/-- A field of a type is at fault: one that a class on its walk declares in the session of the
type. -/
inductive GraphNode.Fault (host : Host σ) (w : Workspace σ) : GraphNode → ResolveError → Prop
  | object {n : ObjectNode} {b : SessionId} {role : Role} {key : TypeKey} {owner : ClassRef}
    {e : ResolveError} (hid : n.id = .compiled b role key) (howner : owner ∈ n.walk)
    (he : FieldFault host w b owner e) : Fault host w (.object n) e
  | interface {n : InterfaceNode} {b : SessionId} {role : Role} {key : TypeKey} {owner : ClassRef}
    {e : ResolveError} (hid : n.id = .compiled b role key) (howner : owner ∈ n.cls.lineage)
    (he : FieldFault host w b owner e) : Fault host w (.interface n) e
  | input {n : InputNode} {b : SessionId} {role : Role} {key : TypeKey} {owner : ClassRef}
    {e : ResolveError} (hid : n.id = .compiled b role key) (howner : owner ∈ n.cls.lineage)
    (he : InputFault host w b n.cls owner e) : Fault host w (.input n) e

/-- What cannot be resolved for a table of an open session is what was to be made for it. -/
theorem Workspace.Aged.resolve_error_of_remember (hu : w.Aged d host u) {t : CacheTable}
    {key : TypeKey} {make : Compile σ t.Value} {e : ResolveError}
    (h : ((Compile.remember s t key (do
      Compile.requireOpen s
      make)).runIn u).1 = .error (.resolve e)) :
    s < w.sessions.length ∧ (make.runIn u).1 = .error (.resolve e) := by
  cases hentry : u.entry s t key with
  | some v =>
    rw [Compile.runIn_remember_of_entry hentry] at h
    cases h
  | none =>
    cases hopen : u.isOpen s with
    | true =>
      exact ⟨lt_length_of_isOpen ((hu.kin.isOpen s).symm.trans hopen),
        (Compile.runIn_remember_open hentry hopen).symm.trans h⟩
    | false =>
      rw [Compile.runIn_remember_of_closed hentry hopen] at h
      cases h

/-- The implementors of an interface are object types, and say so if they cannot be made. -/
theorem InterfaceNode.implementations_failsOnly (n : InterfaceNode) :
    FailsOnly (fun e ↦ e = .sessionDropped ∨ e.OfObject)
      (n.implementations : Compile σ (List ObjectNode)) := by
  rw [implementations]
  split
  · refine (FailsOnly.requireOpen (.inl rfl) _).bind fun _ ↦ .get fun w ↦ .mapM fun c _ ↦ ?_
    exact (compileObject_failsOnly _ c).imp fun _ ↦ .inr
  · exact .throw (.inl rfl)

section Nodes

variable (hw : w.Coherent d) (hr : ∀ b, (w.registries b).Keyed) (hu : w.Aged d host u)
include hw hr hu

theorem GraphNode.Fault.of_objectFields {n : ObjectNode} {e : ResolveError}
    (h : ((n.fields host).runIn u).1 = .error (.resolve e)) : Fault host w (.object n) e := by
  rw [ObjectNode.fields] at h
  split at h
  · rename_i b _ key cls hid _
    obtain ⟨hb, h⟩ := hu.resolve_error_of_remember h
    obtain ⟨owner, howner, he⟩ := exists_fault_of_compileFields hw (hr b) hb hu h
    exact .object hid howner he
  · -- the fields of a root type have been compiled with it
    rw [Compile.runIn_get_bind] at h
    split at h <;> cases h
  · cases h

theorem GraphNode.Fault.of_interfaceFields {n : InterfaceNode} {e : ResolveError}
    (h : ((n.fields host).runIn u).1 = .error (.resolve e)) : Fault host w (.interface n) e := by
  rw [InterfaceNode.fields] at h
  split at h
  · rename_i b _ key hid
    obtain ⟨hb, h⟩ := hu.resolve_error_of_remember h
    obtain ⟨owner, howner, he⟩ := exists_fault_of_compileFields hw (hr b) hb hu h
    exact .interface hid (List.mem_reverse.1 howner) he
  · cases h

theorem GraphNode.Fault.of_inputFields {n : InputNode} {e : ResolveError}
    (h : ((n.fields host).runIn u).1 = .error (.resolve e)) : Fault host w (.input n) e := by
  rw [InputNode.fields] at h
  split at h
  · rename_i b _ key hid
    obtain ⟨hb, h⟩ := hu.resolve_error_of_remember h
    obtain ⟨owner, howner, he⟩ := exists_fault_of_compileInputFields hw (hr b) hb hu h
    exact .input hid howner he
  · cases h

/-- **A type is blamed for a field of its walk.** -/
theorem GraphNode.fault_of_successors {n : GraphNode} {e : ResolveError}
    (h : ((n.successors host).runIn u).1 = .error (.resolve e)) : n.Fault host w e := by
  cases n with
  | object n =>
    rw [successors] at h
    obtain he | ⟨fields, v, -, h⟩ := Compile.runIn_bind_eq_error h
    · exact .of_objectFields hw hr hu he
    · cases h
  | interface n =>
    rw [successors] at h
    obtain he | ⟨fields, v, -, h⟩ := Compile.runIn_bind_eq_error h
    · exact .of_interfaceFields hw hr hu he
    · have herror : CompileError.resolve e = .sessionDropped ∨ OfObject (.resolve e) :=
        (n.implementations_failsOnly.bind fun _ ↦ .pure _) v _ h
      rcases herror with he | he <;> cases he
  | input n =>
    rw [successors] at h
    obtain he | ⟨fields, v, -, h⟩ := Compile.runIn_bind_eq_error h
    · exact .of_inputFields hw hr hu he
    · cases h
  | union n | enum n | scalar n => cases h

end Nodes

/-! ## Roots that cannot be made -/

/-- Root fields are gathered of registered roots only. -/
theorem isRoot_of_gatherRoots {fields : RootFields}
    (h : ((gatherRoots host s roots).runIn w).1 = .ok fields) :
    ∀ root ∈ roots, (w.registries s).isRoot root.key = true := by
  have hall : ∀ (roots : List ClassRef) (w : Workspace σ) (before : RootFields),
      ((roots.foldlM (gatherRoot host s) before).runIn w).1 = .ok fields →
        ∀ root ∈ roots, (w.registries s).isRoot root.key = true := by
    intro roots
    induction roots with
    | nil => exact fun _ _ _ ↦ List.forall_mem_nil _
    | cons root rest ih =>
      intro w before h
      rw [List.foldlM_cons] at h
      obtain ⟨next, v, hone, h⟩ := Compile.runIn_bind_eq_ok (Prod.ext h rfl)
      cases hspec : OrderedMap.find (w.registries s).roots root.key with
      | none =>
        rw [gatherRoot_of_none hspec] at hone
        cases hone
      | some spec =>
        obtain ⟨served, state, -, hrun⟩ := gatherRoot_of_some host hspec before
        cases congrArg Prod.snd (hrun.symm.trans hone)
        exact List.forall_mem_cons.2
          ⟨Option.isSome_iff_exists.2 ⟨spec, hspec⟩,
            ih { w with host := state } next (congrArg Prod.fst h)⟩
  exact hall roots w {} h

/-- The youngest class with a root field is one of the lineage, and declares the field. -/
theorem Registries.Youngest.mem {r : Registries} {name : String} {lineage : List ClassRef}
    {owner : ClassRef} {spec : FieldSpec} (h : r.Youngest name lineage owner spec) :
    owner ∈ lineage ∧ spec ∈ r.rootSpecs owner := by
  induction h with
  | here hspec => exact ⟨List.mem_cons_self, hspec⟩
  | older _ _ ih => exact ⟨List.mem_cons_of_mem _ ih.1, ih.2⟩

section Roots

variable (hw : w.Coherent d) (hr : (w.registries s).Keyed) (hs : s < w.sessions.length)
include hw hs

/-- If the root fields of an operation cannot be compiled, one of them cannot. -/
theorem exists_error_of_compileRootFields (hu : w.Aged d host u)
    {fields : OrderedMap String RootField} (hf : ∀ e ∈ fields, e.2.spec.Within d (w.Offers d))
    {e : CompileError} (h : ((compileRootFields host s fields).runIn u).1 = .error e) :
    ∃ entry ∈ fields, ((compileField host s entry.2.owner entry.2.spec
      (some entry.2.served)).runIn w).1 = .error e :=
  exists_error_of_mapM_compileEntry
    (f := fun field : RootField ↦ compileField host s field.owner field.spec (some field.served))
    hw (fun entry hentry ↦ compileField_settles hw hs _ (hf entry hentry) _)
    (fun _ _ _ hv ↦ compileField_respects (hv.kin.congruence s).concord host _ _ _) hu h

/-- If the root types cannot be made, a root field cannot be compiled. -/
theorem exists_error_of_makeRoots (hu : w.Aged d host u) {fields : RootFields}
    (hf : fields.Within d (w.Offers d)) {e : CompileError}
    (h : ((makeRoots host s fields).runIn u).1 = .error e) :
    ∃ operation, ∃ entry ∈ fields.of operation, ((compileField host s entry.2.owner entry.2.spec
      (some entry.2.served)).runIn w).1 = .error e := by
  rw [makeRoots, Compile.runIn_get_bind] at h
  dsimp only at h
  obtain he | ⟨queryMap, v, hq, h⟩ := Compile.runIn_bind_eq_error h
  · exact ⟨.query, exists_error_of_compileRootFields hw hs hu hf.query he⟩
  have hsettles : Settles d host w [] _ _ := compileRootFields_settles hw hs hf.query
  have hv := (hsettles.aged hw hu
    (compileRootFields_respects (hu.kin.congruence s).concord host fields.query)).2.2
  rw [hq] at hv
  obtain he | ⟨mutationMap, v', -, h⟩ := Compile.runIn_bind_eq_error h
  · exact ⟨.mutation, exists_error_of_compileRootFields hw hs hv hf.mutation he⟩
  · cases h

include hr

/-- **A root is blamed for a field of its lineage.** -/
theorem exists_fault_of_compileRoots {e : ResolveError}
    (h : ((compileRoots host s roots).runIn w).1 = .error (.resolve e)) :
    ∃ root ∈ roots, ∃ owner ∈ root.lineage, FieldFault host w s owner e := by
  obtain ⟨⟨state, hstate⟩, hwithin⟩ : (∃ state,
      ((gatherRoots host s roots).runIn w).2 = { w with host := state }) ∧
      ∀ fields, ((gatherRoots host s roots).runIn w).1 = .ok fields →
        fields.Within d (w.Offers d) := gatherRoots_spec hw s roots
  rw [compileRoots] at h
  obtain he | ⟨fields, v, hgather, h⟩ := Compile.runIn_bind_eq_error h
  · cases gatherRoots_failsOnly host s roots w _ he
  rw [hgather] at hstate hwithin
  cases hstate
  split at h
  · cases h
  have hroots := isRoot_of_gatherRoots (congrArg Prod.fst hgather)
  have hgathered := (RootFields.gatherRoots_gathered host hroots).1 fields
    (congrArg Prod.fst hgather)
  obtain ⟨operation, entry, hentry, he⟩ :=
    exists_error_of_makeRoots hw hs ((Workspace.Aged.refl hw).ofHost state) (hwithin fields rfl) h
  obtain ⟨hroot, hyoungest, -⟩ := hgathered.youngest operation entry hentry
  obtain ⟨howner, hspec⟩ := hyoungest.mem
  exact ⟨_, hroot, _, howner, .of_compileField hr (List.mem_of_mem_filter hspec) he⟩

end Roots

/-! ## The schema -/

/-- A field of a schema is at fault: a root field that a class of a root's lineage declares, or a
field of a type that the roots reach. -/
inductive SchemaFault (host : Host σ) (w : Workspace σ) (s : SessionId) (roots : List ClassRef) :
    ResolveError → Prop
  | root {root owner : ClassRef} {e : ResolveError} (hroot : root ∈ roots)
    (howner : owner ∈ root.lineage) (he : FieldFault host w s owner e) :
    SchemaFault host w s roots e
  | type {made : SchemaRoots} {w₁ : Workspace σ} {n : GraphNode} {e : ResolveError}
    (hmade : (compileRoots host s roots).runIn w = (.ok made, w₁))
    (hn : w₁.Reaches host made.nodes n) (he : n.Fault host w e) : SchemaFault host w s roots e

/-- The roots of a schema do not age a workspace by more than what they enter. -/
theorem Workspace.Enrolled.aged {made : SchemaRoots} (h : w.Enrolled d host made w₁) :
    w.Aged d host w₁ := by
  obtain ⟨w₀, hw₀, hw₁⟩ := h.grown
  have haged := hw₀.aged
  rw [hw₁]
  refine haged.of_same { haged.kin with roots := fun hserial ↦ ?_ } fun _ ↦ rfl
  exact h.older hserial

/-- **Errors point at their field.**  In every session of every run and for every list of roots, a
schema that is refused for a reference that does not resolve is refused in the name of a field: one
that a class of a root's lineage declares, or one that is declared on the walk of a type that the
roots reach.  Its own reference, explicit or inferred, is what is wrong: resolving it fails, for the
reason that the error gives and that is itself ascribed to no field, or gives a type that no output
field may have.  A deferred reference has one target, however often it is forced, so what fails once
fails again. -/
theorem compileSchema_fault (hw : w.Reachable d host) (hs : w.isOpen s = true)
    (roots : List ClassRef) {e : ResolveError}
    (h : ((compileSchema host s roots).runIn w).1 = .error (.resolve e)) :
    SchemaFault host w s roots e := by
  have hsound := hw.sound
  have hlength := Workspace.lt_length_of_isOpen hs
  rcases hmade : (compileRoots host s roots).runIn w with ⟨e' | made, w₁⟩
  · rw [runIn_compileSchema_of_error hmade] at h
    cases h
    obtain ⟨root, hroot, owner, howner, he⟩ :=
      exists_fault_of_compileRoots hsound.coherent (hw.keyed s) hlength (congrArg Prod.fst hmade)
    exact .root hroot howner he
  · have haged := ((compileRoots_spec hsound hlength roots).1 made w₁ hmade).aged
    cases compileSchema_error hsound hs hmade h with
    | successors hn he =>
      exact .type hmade hn (GraphNode.fault_of_successors hsound.coherent hw.keyed haged he)

/-! ### An instance -/

namespace Strays

/-- The root of the query type. -/
def root : ClassRef := .base ⟨1⟩ "Root"

/-- A class that has an animal. -/
def keeper : ClassRef := .base ⟨2⟩ "Keeper"

/-- An object type that inherits from it. -/
def person : ClassRef := .derived ⟨3⟩ "Person" keeper

/-- A class that is registered nowhere. -/
def pet : ClassRef := .base ⟨4⟩ "Pet"

/-- The four classes. -/
def declared : Declarations := .ofClasses [root, keeper, person, pet] (by decide)

/-- The animal of a keeper. -/
def animal : FieldSpec := { property := "animal", type := some (.cls pet) }

/-- The person that a query finds. -/
def me : FieldSpec where
  property := "me"
  type := some (.cls person)
  method := some ⟨0⟩

/-- A session in which persons inherit a field whose type is missing. -/
def workspace : Workspace Unit :=
  ((((Workspace.openSession { host := () } {}).2.modifyRegistries 0
    (·.schemaRoot root {})).modifyRegistries 0
    (·.objectType person {})).modifyRegistries 0
    (Registries.field keeper animal).apply).modifyRegistries 0
    (Registries.rootField root me .query).apply

theorem reachable : workspace.Reachable declared .idle := by
  have hperson : declared.classes person := by simp [declared, Declarations.ofClasses]
  have hpet : declared.classes pet := by simp [declared, Declarations.ofClasses]
  have hobject : ∀ offered, Registries.Change declared offered (·.objectType person {}) :=
    fun _ ↦ .objectType hperson nofun
  have hanimal : ∀ offered, animal.Within declared offered := by
    refine fun _ ↦ ⟨fun t ht ↦ ?_, nofun, nofun⟩
    cases ht
    exact .cls hpet
  have hme : ∀ offered, me.Within declared offered := by
    refine fun _ ↦ ⟨fun t ht ↦ ?_, nofun, nofun⟩
    cases ht
    exact .cls hperson
  have hroot : Workspace.Reachable declared .idle _ :=
    (Workspace.Reachable.opened () {}).registered (s := 0) rfl (.schemaRoot root {})
  exact ((hroot.registered (s := 0) rfl (hobject _)).registered (s := 0) rfl
    (.field keeper (hanimal _))).registered (s := 0) rfl (.rootField root .query (hme _))

end Strays

open Strays in
/-- The class that declares the field is blamed, and not the type that inherits it. -/
theorem compileSchema_fault_strays :
    workspace.Reachable declared .idle ∧ workspace.isOpen 0 = true ∧
      ((compileSchema .idle 0 [root]).runIn workspace).1 =
        .error (.resolve (.inField "Keeper" "animal" (.unresolvable "Pet"))) ∧
      SchemaFault .idle workspace 0 [root] (.inField "Keeper" "animal" (.unresolvable "Pet")) := by
  have herror : ((compileSchema .idle 0 [root]).runIn workspace).1 =
      .error (.resolve (.inField "Keeper" "animal" (.unresolvable "Pet"))) := by cbv
  exact ⟨reachable, rfl, herror, compileSchema_fault reachable rfl [root] herror⟩

end ApiGraph
