import ApiGraph.Proofs.Argument.Termination

/-!
# What becomes of an input object

An object that is converted at an input type becomes an instance of the class of the type.  For each
field of the type there is something to convert, or nothing: the value that is supplied under the
name of the field, even if it is null, or else the default.  It is stored under the property of the
field, in the order of the fields.  Two fields of different names may have one property, since a
class that declares a property again under another name does not replace the field that it inherits;
the instance then has what the later of them has left.

## What is here

* `CompiledInputField.raw?`: what is converted for a field.
* `CompiledInputField.Decides`: a field is the last one to write a property.
* `CompiledInputField.KeptIn`: an instance has of a field what was supplied for it, or its default,
  and nothing if there is neither.
* `InputNode.keptIn_iff`: what an instance holds, and when it keeps a field.
-/

set_option autoImplicit false

namespace ApiGraph

open OrderedMap (find)

variable {σ : Type} {d : Declarations} {host : Host σ} {w : Workspace σ}
  {fields : List CompiledInputField} {supplied : List (String × WireValue)}

/-- The last one of a name has one in its place in every list that has the same names in the same
places, and that is the last one there. -/
theorem LastNamed.exists_of_forall₂ {α β κ : Type} {name : α → κ} {name' : β → κ} {key : κ} {a : α}
    {l : List α} {l' : List β} {r : α → β → Prop} (h : LastNamed name l key a)
    (hl : List.Forall₂ r l l') (hr : ∀ a b, r a b → name' b = name a) :
    ∃ b, LastNamed name' l' key b ∧ r a b := by
  obtain ⟨before, after, rfl, hname, hafter⟩ := h
  induction before generalizing l' with
  | nil =>
    cases hl with
    | @cons _ b _ rest hb hrest =>
      refine ⟨b, ⟨[], rest, rfl, (hr a b hb).trans hname, fun c hc ↦ ?_⟩, hb⟩
      obtain ⟨x, hx, hxc⟩ := exists_left_of_forall₂ hrest hc
      exact hr x c hxc ▸ hafter x hx
  | cons x before ih =>
    cases hl with
    | @cons _ y _ rest _ hrest =>
      obtain ⟨b, ⟨before', after', rfl, hb⟩, hab⟩ := ih hrest
      exact ⟨b, ⟨y :: before', after', rfl, hb⟩, hab⟩

/-! ## What is converted -/

namespace CompiledInputField

/-- What is converted for a field: the value that is supplied under its name, or else its
default. -/
def raw? (supplied : List (String × WireValue)) (f : CompiledInputField) : Option WireValue :=
  (find supplied f.name).or f.default

theorem raw?_of_supplied {f : CompiledInputField} {x : WireValue}
    (h : find supplied f.name = some x) : f.raw? supplied = some x := by
  rw [raw?, h, Option.some_or]

theorem raw?_of_absent {f : CompiledInputField} (h : find supplied f.name = none) :
    f.raw? supplied = f.default := by
  rw [raw?, h, Option.none_or]

/-- The fields for which there is something to convert. -/
def filled (fields : List CompiledInputField) (supplied : List (String × WireValue)) :
    List CompiledInputField :=
  fields.filter fun f ↦ (f.raw? supplied).isSome

/-- Of the fields that have a property and something to convert, the last one. -/
def Decides (fields : List CompiledInputField) (supplied : List (String × WireValue))
    (key : String) (f : CompiledInputField) : Prop :=
  LastNamed property (filled fields supplied) key f

theorem Decides.exists_raw {key : String} {f : CompiledInputField}
    (h : Decides fields supplied key f) : f ∈ fields ∧ ∃ x, f.raw? supplied = some x := by
  obtain ⟨hf, hraw⟩ := List.mem_filter.1 (LastNamed.mem h)
  exact ⟨hf, Option.isSome_iff_exists.1 hraw⟩

theorem exists_decides {f : CompiledInputField} (hf : f ∈ fields) {x : WireValue}
    (hx : f.raw? supplied = some x) : ∃ g, Decides fields supplied f.property g :=
  exists_lastNamed (List.mem_filter.2 ⟨hf, Option.isSome_iff_exists.2 ⟨x, hx⟩⟩)

end CompiledInputField

/-! ## What is filled in -/

section Filled

variable {convert : GraphType → WireValue → Answer HostValue}

/-- An entry of an instance is what a field has to convert, converted, under its property. -/
def CompiledInputField.Writes (convert : GraphType → WireValue → Answer HostValue)
    (supplied : List (String × WireValue)) (f : CompiledInputField) (e : String × HostValue) :
    Prop :=
  e.1 = f.property ∧ ∃ x, f.raw? supplied = some x ∧ convert f.type x = Answer.given (.ok e.2)

theorem CompiledInputField.fill_eq_ok {f : CompiledInputField} {p : Option (String × HostValue)}
    (h : f.fill convert supplied = Answer.given (.ok p)) :
    (f.raw? supplied = none ∧ p = none) ∨
      (f.raw? supplied).isSome = true ∧ ∃ e, p = some e ∧ f.Writes convert supplied e := by
  cases hraw : f.raw? supplied with
  | none =>
    rw [fill, ← raw?, hraw] at h
    cases h
    exact .inl ⟨rfl, rfl⟩
  | some x =>
    rw [fill_of_raw hraw] at h
    obtain ⟨y, hy, hp⟩ := Answer.bind_eq_ok h
    cases hp
    exact .inr ⟨rfl, _, rfl, rfl, x, hraw, hy⟩

/-- The entries of an instance are written one by one, by the fields that have something to
convert. -/
theorem forall₂_writes {props : List (Option (String × HostValue))}
    (h : List.Forall₂ (fun f p ↦ f.fill convert supplied = Answer.given (.ok p)) fields props) :
    List.Forall₂ (CompiledInputField.Writes convert supplied)
      (CompiledInputField.filled fields supplied) (props.filterMap fun p ↦ p) := by
  induction h with
  | nil => exact .nil
  | cons hf _ ih =>
    rw [CompiledInputField.filled, List.filter_cons]
    rcases CompiledInputField.fill_eq_ok hf with ⟨hnone, rfl⟩ | ⟨hsome, e, rfl, hwrites⟩
    · rw [if_neg (by simp [hnone]), List.filterMap_cons_none rfl]
      exact ih
    · rw [if_pos hsome]
      exact .cons hwrites ih

/-- Under a property stands what the field has that is the last one to write it. -/
theorem find_of_writes {entries : List (String × HostValue)}
    (h : List.Forall₂ (CompiledInputField.Writes convert supplied)
      (CompiledInputField.filled fields supplied) entries) {key : String} {y : HostValue} :
    find (OrderedMap.ofEntries entries) key = some y ↔
      ∃ f x, CompiledInputField.Decides fields supplied key f ∧ f.raw? supplied = some x ∧
        convert f.type x = Answer.given (.ok y) := by
  rw [OrderedMap.find_ofEntries_eq_some_iff]
  constructor
  · intro hlast
    obtain ⟨f, hf, -, x, hx, hy⟩ : ∃ f, CompiledInputField.Decides fields supplied key f ∧
        CompiledInputField.Writes convert supplied f (key, y) :=
      hlast.exists_of_forall₂ h.flip fun _ _ hw ↦ hw.1.symm
    exact ⟨f, x, hf, hx, hy⟩
  · rintro ⟨f, x, hf, hx, hy⟩
    obtain ⟨⟨key', y'⟩, he, hkey, x', hx', hy'⟩ : ∃ e, LastNamed Prod.fst entries key e ∧
        CompiledInputField.Writes convert supplied f e :=
      LastNamed.exists_of_forall₂ hf h fun _ _ hw ↦ hw.1
    cases hx.symm.trans hx'
    cases hy.symm.trans hy'
    obtain rfl : key' = key := he.name_eq
    exact he

end Filled

/-! ## What an instance keeps -/

/-- The properties of an instance keep what an object has for a field: the conversion of the value
that is supplied for it, null for null; if none is, that of its default; and nothing without one. -/
structure CompiledInputField.KeptIn (host : Host σ) (w : Workspace σ)
    (supplied : List (String × WireValue)) (props : List (String × HostValue))
    (f : CompiledInputField) : Prop where
  given : ∀ x, find supplied f.name = some x →
    ∃ y, ((convertArgument host f.type x).runIn w).1 = .ok y ∧ find props f.property = some y
  null : find supplied f.name = some .null → find props f.property = some .null
  default : find supplied f.name = none → ∀ x, f.default = some x →
    ∃ y, ((convertArgument host f.type x).runIn w).1 = .ok y ∧ find props f.property = some y
  absent : find supplied f.name = none → f.default = none → find props f.property = none

/-- Null is converted to null at every type. -/
theorem runIn_convertArgument_null (t : GraphType) (w : Workspace σ) :
    ((convertArgument host t .null).runIn w).1 = .ok .null := by
  obtain ⟨onDefault, hrun⟩ := exists_runIn_convertArgument host t .null w
  rw [hrun, convert_null]
  rfl

/-- All cases in one: what is converted for a field stands under its property. -/
theorem CompiledInputField.keptIn_iff_raw {f : CompiledInputField}
    {props : List (String × HostValue)} :
    f.KeptIn host w supplied props ↔
      (∀ x, f.raw? supplied = some x → ∃ y,
        ((convertArgument host f.type x).runIn w).1 = .ok y ∧ find props f.property = some y) ∧
      (f.raw? supplied = none → find props f.property = none) := by
  refine ⟨fun h ↦ ?_, fun ⟨hsome, hnone⟩ ↦ ?_⟩
  · cases hfind : find supplied f.name with
    | some x =>
      rw [raw?_of_supplied hfind]
      exact ⟨fun x' hx ↦ h.given x' (hfind.trans hx), nofun⟩
    | none =>
      rw [raw?_of_absent hfind]
      exact ⟨h.default hfind, h.absent hfind⟩
  · have hsupplied : ∀ x, find supplied f.name = some x → ∃ y,
        ((convertArgument host f.type x).runIn w).1 = .ok y ∧ find props f.property = some y :=
      fun x hx ↦ hsome x (raw?_of_supplied hx)
    refine ⟨hsupplied, fun hnull ↦ ?_, fun hfind x hx ↦ hsome x ((raw?_of_absent hfind).trans hx),
      fun hfind hx ↦ hnone ((raw?_of_absent hfind).trans hx)⟩
    obtain ⟨y, hy, hprops⟩ := hsupplied _ hnull
    rw [runIn_convertArgument_null] at hy
    cases hy
    exact hprops

/-- What an instance has of the fields of its type: under every property the conversion of what the
field has to convert that is the last one to write it; properties stand in the order in which they
are first written. -/
structure Instance.FilledBy (host : Host σ) (w : Workspace σ) (fields : List CompiledInputField)
    (supplied : List (String × WireValue)) (props : List (String × HostValue)) : Prop where
  converted : ∀ f ∈ fields, ∀ x, f.raw? supplied = some x →
    ∃ y, ((convertArgument host f.type x).runIn w).1 = .ok y
  keys : OrderedMap.keys props =
    ((CompiledInputField.filled fields supplied).map CompiledInputField.property).eraseDups
  entry : ∀ key y, find props key = some y ↔ ∃ (f : CompiledInputField) (x : WireValue),
    f.Decides fields supplied key ∧ f.raw? supplied = some x ∧
      ((convertArgument host f.type x).runIn w).1 = .ok y

namespace Instance.FilledBy

variable {props : List (String × HostValue)} (h : FilledBy host w fields supplied props)
include h

/-- An instance keeps a field exactly if the field that decides its property, if there is one, has
come to the same. -/
theorem keptIn_iff {f : CompiledInputField} (hf : f ∈ fields) :
    f.KeptIn host w supplied props ↔
      ∀ (g : CompiledInputField) (z : WireValue), g.Decides fields supplied f.property →
        g.raw? supplied = some z → ∃ x, f.raw? supplied = some x ∧
          ((convertArgument host f.type x).runIn w).1 =
            ((convertArgument host g.type z).runIn w).1 := by
  rw [CompiledInputField.keptIn_iff_raw]
  constructor
  · intro ⟨hsome, hnone⟩ g z hg hz
    obtain ⟨y, hy⟩ := h.converted g hg.exists_raw.1 z hz
    have hfind := (h.entry f.property y).2 ⟨g, z, hg, hz, hy⟩
    cases hraw : f.raw? supplied with
    | none => cases (hnone hraw).symm.trans hfind
    | some x =>
      obtain ⟨y', hy', hfind'⟩ := hsome x hraw
      cases hfind.symm.trans hfind'
      exact ⟨x, rfl, hy'.trans hy.symm⟩
  · intro hsame
    refine ⟨fun x hx ↦ ?_, fun hnone ↦ ?_⟩
    · obtain ⟨g, hg⟩ := CompiledInputField.exists_decides hf hx
      obtain ⟨hgmem, z, hz⟩ := hg.exists_raw
      obtain ⟨y, hy⟩ := h.converted g hgmem z hz
      obtain ⟨x', hx', hconvert⟩ := hsame g z hg hz
      cases hx.symm.trans hx'
      exact ⟨y, hconvert.trans hy, (h.entry f.property y).2 ⟨g, z, hg, hz, hy⟩⟩
    · cases hfind : find props f.property with
      | none => rfl
      | some y =>
        obtain ⟨g, z, hg, hz, -⟩ := (h.entry f.property y).1 hfind
        obtain ⟨x, hx, -⟩ := hsame g z hg hz
        cases hnone.symm.trans hx

/-- If no two fields have one property, every field is kept. -/
theorem keptIn_of_nodup (hnodup : (fields.map CompiledInputField.property).Nodup)
    {f : CompiledInputField} (hf : f ∈ fields) : f.KeptIn host w supplied props := by
  refine (h.keptIn_iff hf).2 fun g z hg hz ↦ ?_
  obtain rfl : g = f := List.inj_on_of_nodup_map hnodup hg.exists_raw.1 hf (LastNamed.name_eq hg)
  exact ⟨z, hz, rfl⟩

end Instance.FilledBy

/-- **What becomes of an input object.**  In every workspace of every run, for every input type and
every object that can be converted at it: the result is an instance of the class of the type, which
has under every property the conversion of what the last field of this property has to convert that
has something to convert, in the order of the fields, and no other entry.  It keeps a field, as
supplied, null or by default, exactly if what decides the property of the field comes to the same as
the field; so it keeps all of them if no two have one property. -/
theorem convertArgument_instance (hw : w.Reachable d host) {n : InputNode}
    (hn : w.Holds d (.input n)) {made : HostValue}
    (h : ((convertArgument host (.named (.input n)) (.object supplied)).runIn w).1 = .ok made) :
    ∃ (fields : InputMap) (props : List (String × HostValue)),
      ((n.fields host).runIn w).1 = .ok fields ∧ made = .instanceOf n.cls props [] ∧
      Instance.FilledBy host w (OrderedMap.values fields) supplied props ∧
      (∀ f ∈ OrderedMap.values fields, f.KeptIn host w supplied props ↔
        ∀ (g : CompiledInputField) (z : WireValue),
          g.Decides (OrderedMap.values fields) supplied f.property →
          g.raw? supplied = some z → ∃ x, f.raw? supplied = some x ∧
            ((convertArgument host f.type x).runIn w).1 =
              ((convertArgument host g.type z).runIn w).1) ∧
      (((OrderedMap.values fields).map CompiledInputField.property).Nodup →
        ∀ f ∈ OrderedMap.values fields, f.KeptIn host w supplied props) := by
  have hc := hw.sound.coherent
  have htype : w.FillsType d host (.named (.input n)) := .of_holds hc hn
  rw [convertArgument_eq hc htype] at h
  rcases hanswer : fromInput (w.inputFieldsOf host) (.named (.input n)) (.object supplied)
    with _ | r
  · rw [hanswer] at h
    cases h
  obtain rfl : r = .ok made := by rwa [hanswer] at h
  obtain ⟨fields, props, hfields, hprops, rfl⟩ := fromInput_object_ok hanswer
  have hwrites := forall₂_writes hprops
  have hconvert : ∀ f ∈ OrderedMap.values fields, ∀ x y,
      fromInput (w.inputFieldsOf host) f.type x = Answer.given (.ok y) ↔
        ((convertArgument host f.type x).runIn w).1 = .ok y := by
    intro f hf x y
    rw [convertArgument_eq hc ((htype _ rfl).fields hc hfields hf)]
    rcases fromInput (w.inputFieldsOf host) f.type x with _ | r
    · exact ⟨nofun, nofun⟩
    · exact Option.some_inj
  have hfilled : Instance.FilledBy host w (OrderedMap.values fields) supplied
      (OrderedMap.ofEntries (props.filterMap fun p ↦ p)) := by
    refine ⟨fun f hf x hx ↦ ?_, ?_, fun key y ↦ ?_⟩
    · obtain ⟨e, -, -, x', hx', hy⟩ := exists_right_of_forall₂ hwrites
        (List.mem_filter.2 ⟨hf, Option.isSome_iff_exists.2 ⟨x, hx⟩⟩)
      cases hx.symm.trans hx'
      exact ⟨e.2, (hconvert f hf x e.2).1 hy⟩
    · have hnames := List.forall₂_map_left_iff.2 (List.forall₂_map_right_iff.2
        (hwrites.imp fun _ _ he ↦ he.1.symm))
      rw [OrderedMap.keys_ofEntries]
      exact congrArg List.eraseDups (List.forall₂_eq_eq_eq ▸ hnames).symm
    · rw [find_of_writes hwrites]
      refine exists_congr fun f ↦ exists_congr fun x ↦ ⟨fun ⟨hf, hx, hy⟩ ↦ ?_,
        fun ⟨hf, hx, hy⟩ ↦ ?_⟩
      · exact ⟨hf, hx, (hconvert f hf.exists_raw.1 x y).1 hy⟩
      · exact ⟨hf, hx, (hconvert f hf.exists_raw.1 x y).2 hy⟩
  exact ⟨fields, _, hfields, rfl, hfilled, fun f hf ↦ hfilled.keptIn_iff hf,
    fun hnodup f hf ↦ hfilled.keptIn_of_nodup hnodup hf⟩

/-! ### An instance -/

namespace Renamed

/-- A class with an input field. -/
def base : ClassRef := .base ⟨1⟩ "Base"

/-- A class that inherits the field. -/
def child : ClassRef := .derived ⟨2⟩ "Child" base

/-- The two classes. -/
def declared : Declarations := .ofClasses [base, child] (by decide)

/-- A size. -/
def size : InputFieldSpec where
  property := "size"
  type := some (.scalar .int)

/-- The size again, under another name and with a default. -/
def width : InputFieldSpec where
  property := "size"
  name := some "width"
  type := some (.scalar .int)
  default := some (.number (.int 5))

/-- A session in which both classes declare the property, the younger one under another name. -/
def registered : Workspace Unit :=
  (((Workspace.openSession { host := () } {}).2.modifyRegistries 0
    (·.inputType child {})).modifyRegistries 0 (·.inputField base size)).modifyRegistries 0
    (·.inputField child width)

/-- The workspace once the type has been asked for. -/
def workspace : Workspace Unit := ((compileInput 0 child).runIn registered).2

/-- The node of the type. -/
def node : InputNode where
  id := .compiled 0 .input child.key
  name := "Child"
  description := none
  cls := child

/-- The field that is inherited, compiled. -/
def sizeField : CompiledInputField where
  name := "size"
  property := "size"
  type := .nonNull (.named (.scalar NativeScalar.int.node))
  description := none
  default := none
  deprecation := none

/-- The field that has its property, compiled. -/
def widthField : CompiledInputField :=
  { sizeField with name := "width", default := some (.number (.int 5)) }

theorem reachable : workspace.Reachable declared .idle := by
  have hint : ∀ (spec : InputFieldSpec) offered, spec.type = some (.scalar .int) →
      spec.signature = none → spec.Within declared offered := by
    refine fun spec _ htype hsignature ↦ ⟨fun t ht ↦ ?_, fun t ht ↦ ?_⟩
    · cases htype.symm.trans ht
      exact .scalar .int
    · cases hsignature.symm.trans ht
  have htype : Workspace.Reachable declared .idle _ :=
    (Workspace.Reachable.opened () {}).registered (s := 0) rfl (.inputType child {})
  have hsize := htype.registered (s := 0) rfl (.inputField base (hint size _ rfl rfl))
  have hregistered : registered.Reachable declared .idle :=
    hsize.registered (s := 0) rfl (.inputField child (hint width _ rfl rfl))
  exact hregistered.tail (.asked (.input (s := 0) rfl (List.mem_cons_of_mem _ List.mem_cons_self)))

end Renamed

open Renamed in
/-- A size that is supplied is lost to the default of the width, which has the same property. -/
theorem convertArgument_instance_renamed :
    workspace.Reachable declared .idle ∧ workspace.Holds declared (.input node) ∧
      ((node.fields .idle).runIn workspace).1 =
        .ok [("size", sizeField), ("width", widthField)] ∧
      ((convertArgument .idle (.named (.input node))
        (.object [("size", .number (.int 1))])).runIn workspace).1 =
          .ok (.instanceOf child [("size", .scalar (.number (.int 5)))] []) ∧
      ¬ sizeField.KeptIn .idle workspace [("size", .number (.int 1))]
        [("size", .scalar (.number (.int 5)))] ∧
      widthField.KeptIn .idle workspace [("size", .number (.int 1))]
        [("size", .scalar (.number (.int 5)))] := by
  have hheld : workspace.Holds declared (.input node) := ⟨0, child.key, by cbv⟩
  have hfields : ((node.fields .idle).runIn workspace).1 =
      .ok [("size", sizeField), ("width", widthField)] := by cbv
  have hconvert : ((convertArgument .idle (.named (.input node))
      (.object [("size", .number (.int 1))])).runIn workspace).1 =
        .ok (.instanceOf child [("size", .scalar (.number (.int 5)))] []) := by cbv
  obtain ⟨fields, props, hfields', hmade, -, hkept, -⟩ :=
    convertArgument_instance reachable hheld hconvert
  cases hfields.symm.trans hfields'
  cases hmade
  have hdecides : widthField.Decides [sizeField, widthField] [("size", .number (.int 1))] "size" :=
    ⟨[sizeField], [], rfl, rfl, List.forall_mem_nil _⟩
  refine ⟨reachable, hheld, hfields, hconvert, fun hsize ↦ ?_, ?_⟩
  · obtain ⟨x, hx, hsame⟩ := (hkept sizeField List.mem_cons_self).1 hsize widthField _ hdecides rfl
    cases hx
    cases hsame
  · refine (hkept widthField (List.mem_cons_of_mem _ List.mem_cons_self)).2 fun g z hg hz ↦ ?_
    obtain rfl := hg.unique hdecides
    exact ⟨z, hz, rfl⟩

end ApiGraph
