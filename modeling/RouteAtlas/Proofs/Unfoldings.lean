import Mathlib
import RouteAtlas.Proofs.Entries
import RouteAtlas.Shape.Example

/-!
# Types written out in full

A type that never leads back to itself unfolds to a tree: lists of what their members unfold to,
the members that choices fall on, and objects with what their fields unfold to, however they are
written. The example of a type has objects inside of objects of the same text left empty, so it is the
whole of what the type unfolds to unless an object that is not empty stands inside of another one that
is written alike.
-/

namespace RouteAtlas

open Syntax
open Project (Scope)

/-- What an example is made of at its outermost layer: a value as it stands, the shapes of a list, the
shape that a choice falls on, or the fields of an object with a text. -/
inductive Layer where
  | leaf (v : Option Value)
  | list (items : List Shape)
  | choice (chosen : Shape)
  | object (text : String)

/-- A type written out in full. -/
inductive Unfolding where
  | leaf (v : Option Value)
  | list (items : List Unfolding)
  | choice (chosen : Unfolding)
  | object (text : String) (fields : List (String × Unfolding))

namespace Field

/-- Whether a field is part of an example: methods and names for internal use are not. -/
def isWritten (f : Field) : Bool :=
  !(f.isMethod || Text.startsWith f.name "__")

end Field

namespace Shape

section Layers

/-- The outermost layer of a shape. -/
def layer (s : Shape) : Layer :=
  match s with
  | literal _ v => .leaf (some v)
  | truth _ b => .leaf (some (.bool b))
  | s =>
    if s.text == "true" || s.text == "false" then .leaf (some (.bool (s.text == "true")))
    else
      match s with
      | plain .string _ => .leaf (some (.str ""))
      | plain .number _ | plain .bigint _ => .leaf (some (.int 0))
      | plain .boolean _ => .leaf (some (.bool false))
      | plain .undefined _ | plain .void _ | plain .never _ => .leaf none
      | plain .null _ => .leaf (some .null)
      | array _ element => .list [element]
      | tuple _ members => .list members
      | union _ members =>
        match members.find? fun m => !m.isNullish with
        | some m => .choice m
        | none => .leaf none
      | enumeration t members =>
        match members with
        | (name, _) :: _ => .leaf (some (.str name))
        | [] => .leaf (some (.str (lastPart t)))
      | enumMember t _ _ => .leaf (some (.str (lastPart t)))
      | builtin _ name => .leaf (ofPlatform name).1
      | object t _ _ => .object t
      | _ => .leaf (some (.map []))

/-- An example is written layer by layer. -/
theorem exampleUsing_succ
    (fieldsOf : Shape → Except Fault (List Field))
    (typeOf : Field → Except Fault Shape)
    (n : Nat)
    (around : List String)
    (s : Shape) :
    exampleUsing fieldsOf typeOf (n + 1) around s =
      match s.layer with
      | .leaf v => .ok v
      | .list items => do
        return some (.list (← examplesOf (exampleUsing fieldsOf typeOf n around) items))
      | .choice m => exampleUsing fieldsOf typeOf n around m
      | .object t =>
        if around.contains t then .ok (some (.map []))
        else do
          let fs ← fieldsOf s
          let entries ← entriesOf
            (fun f => do exampleUsing fieldsOf typeOf n (t :: around) (← typeOf f)) [] fs
          return some (.map entries) := by
  cases s with
  | literal t v => rfl
  | truth t b => rfl
  | plain k t =>
    simp only [exampleUsing, layer]
    split
    · rfl
    · cases k <;> rfl
  | array t element =>
    simp only [exampleUsing, layer]
    split
    · rfl
    · cases h : exampleUsing fieldsOf typeOf n around element with
      | error e => simp [examplesOf, h, bind, Except.bind]
      | ok v => simp [examplesOf, h, bind, Except.bind, pure, Except.pure]
  | union t members =>
    simp only [exampleUsing, layer]
    split
    · rfl
    · cases members.find? fun m => !m.isNullish <;> rfl
  | enumeration t members =>
    simp only [exampleUsing, layer]
    split
    · rfl
    · cases members <;> rfl
  | tuple t members | enumMember t name v | builtin t name | object t name fields =>
    simp only [exampleUsing, layer]
    split <;> rfl

theorem exampleWithin_succ
    (scope : Scope)
    (n : Nat)
    (around : List String)
    (s : Shape) :
    exampleWithin scope (n + 1) around s =
      match s.layer with
      | .leaf v => .ok v
      | .list items => do return some (.list (← examplesOf (exampleWithin scope n around) items))
      | .choice m => exampleWithin scope n around m
      | .object t =>
        if around.contains t then .ok (some (.map []))
        else do
          let fs ← s.fieldList scope
          let entries ← entriesOf
            (fun f => do exampleWithin scope n (t :: around) (← f.shape scope)) [] fs
          return some (.map entries) :=
  exampleUsing_succ (fieldList scope) (Field.shape scope) n around s

end Layers

section Relation

variable (scope : Scope)

mutual

/-- What a shape unfolds to. Nothing is known here of the texts that it is written by. -/
inductive Unfolds : Shape → Unfolding → Prop
  | leaf {s : Shape} {v : Option Value} (h : s.layer = .leaf v) :
      Unfolds s (.leaf v)
  | list {s : Shape} {items : List Shape} {us : List Unfolding}
      (h : s.layer = .list items) (hitems : UnfoldsAll items us) :
      Unfolds s (.list us)
  | choice {s m : Shape} {u : Unfolding} (h : s.layer = .choice m) (hchosen : Unfolds m u) :
      Unfolds s (.choice u)
  | object {s : Shape} {t : String} {fs : List Field} {us : List (String × Unfolding)}
      (h : s.layer = .object t) (hread : s.fieldList scope = .ok fs)
      (hfields : UnfoldsFields (fs.filter Field.isWritten) us) :
      Unfolds s (.object t us)

/-- What shapes unfold to, one by one. -/
inductive UnfoldsAll : List Shape → List Unfolding → Prop
  | nil : UnfoldsAll [] []
  | cons {s : Shape} {u : Unfolding} {rest : List Shape} {us : List Unfolding}
      (h : Unfolds s u) (hrest : UnfoldsAll rest us) :
      UnfoldsAll (s :: rest) (u :: us)

/-- What the types of fields unfold to, with the names of the fields. -/
inductive UnfoldsFields : List Field → List (String × Unfolding) → Prop
  | nil : UnfoldsFields [] []
  | cons {f : Field} {s : Shape} {u : Unfolding} {rest : List Field}
      {us : List (String × Unfolding)}
      (hread : f.shape scope = .ok s) (h : Unfolds s u) (hrest : UnfoldsFields rest us) :
      UnfoldsFields (f :: rest) ((f.name, u) :: us)

end

end Relation

end Shape

namespace Unfolding

section Values

mutual

/-- The full example of a type, no matter how its parts are written. -/
def whole : Unfolding → Option Value
  | leaf v => v
  | list items => some (.list (wholes items))
  | choice u => u.whole
  | object _ fields => some (.map (ofPairs (entries fields)))

/-- The full examples of the members of a list. -/
def wholes : List Unfolding → List Value
  | [] => []
  | u :: rest => u.whole.toList ++ wholes rest

/-- The full examples of the fields of an object. -/
def entries : List (String × Unfolding) → List (String × Value)
  | [] => []
  | (name, u) :: rest => (u.whole.map (name, ·)).toList ++ entries rest

end

mutual

/-- How many layers lie below the outermost one. -/
def depth : Unfolding → Nat
  | leaf _ => 0
  | list items => depthBelow items
  | choice u => u.depth + 1
  | object _ fields => depthOfFields fields

/-- How many layers the members of a list have. -/
def depthBelow : List Unfolding → Nat
  | [] => 0
  | u :: rest => max (u.depth + 1) (depthBelow rest)

/-- How many layers the fields of an object have. -/
def depthOfFields : List (String × Unfolding) → Nat
  | [] => 0
  | (_, u) :: rest => max (u.depth + 1) (depthOfFields rest)

end

mutual

/-- A type without the fields of objects that stand inside of others of the same text. -/
def cut : List String → Unfolding → Unfolding
  | _, leaf v => leaf v
  | around, list items => list (cutAll around items)
  | around, choice u => choice (u.cut around)
  | around, object t fields =>
    if t ∈ around then object t [] else object t (cutFields (t :: around) fields)

/-- The members of a list, each cut. -/
def cutAll : List String → List Unfolding → List Unfolding
  | _, [] => []
  | around, u :: rest => u.cut around :: cutAll around rest

/-- The fields of an object, each cut. -/
def cutFields : List String → List (String × Unfolding) → List (String × Unfolding)
  | _, [] => []
  | around, (name, u) :: rest => (name, u.cut around) :: cutFields around rest

end

/-- The fields that show in the example of an object: those with a value, the last one of each name. -/
def shown (fields : List (String × Unfolding)) : List (String × Unfolding) :=
  ofPairs (fields.filter fun f => f.2.whole.isSome)

/-- Whether an object that is not empty shows inside of another one of the same text. -/
inductive Repeats : List String → Unfolding → Prop
  | here {around : List String} {t : String} {fields : List (String × Unfolding)}
      (h : t ∈ around) (hfull : shown fields ≠ []) :
      Repeats around (object t fields)
  | field {around : List String} {t name : String} {fields : List (String × Unfolding)}
      {u : Unfolding} (hmem : (name, u) ∈ shown fields) (h : Repeats (t :: around) u) :
      Repeats around (object t fields)
  | item {around : List String} {items : List Unfolding} {u : Unfolding}
      (hmem : u ∈ items) (h : Repeats around u) :
      Repeats around (list items)
  | choice {around : List String} {u : Unfolding} (h : Repeats around u) :
      Repeats around (choice u)

end Values

section Induction

/-- What holds of a type if it holds of its parts holds of every type. -/
@[elab_as_elim]
theorem induction
    {motive : Unfolding → Prop}
    (leaf : ∀ v, motive (.leaf v))
    (list : ∀ items, (∀ u ∈ items, motive u) → motive (.list items))
    (choice : ∀ u, motive u → motive (.choice u))
    (object : ∀ t fields, (∀ f ∈ fields, motive f.2) → motive (.object t fields))
    (u : Unfolding) :
    motive u := by
  refine @Unfolding.rec motive (fun items => ∀ u ∈ items, motive u)
    (fun fields => ∀ f ∈ fields, motive f.2) (fun f => motive f.2) leaf list choice object
    ?_ ?_ ?_ ?_ ?_ u
  · simp
  · exact fun u rest hu hrest => List.forall_mem_cons.2 ⟨hu, hrest⟩
  · simp
  · exact fun f rest hf hrest => List.forall_mem_cons.2 ⟨hf, hrest⟩
  · exact fun name u hu => hu

end Induction

section Fields

/-- Whether a type shows in an example does not depend on what encloses it. -/
theorem isSome_whole_cut
    (u : Unfolding)
    (around : List String) :
    (u.cut around).whole.isSome = u.whole.isSome := by
  induction u using Unfolding.induction generalizing around with
  | leaf v => rfl
  | list items _ => rfl
  | choice u ih => simpa [cut, whole] using ih around
  | object t fields _ =>
    rw [cut]
    split <;> rfl

/-- The value of a part that shows. -/
def shownValue (u : Unfolding) : Value :=
  u.whole.getD .null

theorem shownValue_eq_iff
    {u v : Unfolding}
    (h : u.whole.isSome = v.whole.isSome)
    (hv : v.whole.isSome) :
    u.shownValue = v.shownValue ↔ u.whole = v.whole := by
  obtain ⟨x, hx⟩ := Option.isSome_iff_exists.1 (h.trans hv)
  obtain ⟨y, hy⟩ := Option.isSome_iff_exists.1 hv
  simp [shownValue, hx, hy]

theorem cutFields_eq_map
    (around : List String)
    (fields : List (String × Unfolding)) :
    cutFields around fields = fields.map fun f => (f.1, f.2.cut around) := by
  induction fields with
  | nil => rfl
  | cons f rest ih => rw [cutFields, ih, List.map_cons]

theorem entries_eq (fields : List (String × Unfolding)) :
    entries fields =
      (fields.filter fun f => f.2.whole.isSome).map fun f => (f.1, f.2.shownValue) := by
  induction fields with
  | nil => rfl
  | cons f rest ih =>
    obtain ⟨name, u⟩ := f
    rw [entries, ih, List.filter_cons]
    cases hu : u.whole with
    | none => simp
    | some v => simp [shownValue, hu]

theorem entries_cutFields
    (around : List String)
    (fields : List (String × Unfolding)) :
    entries (cutFields around fields) =
      (fields.filter fun f => f.2.whole.isSome).map fun f =>
        (f.1, (f.2.cut around).shownValue) := by
  rw [entries_eq, cutFields_eq_map, List.filter_map, List.map_map]
  simp only [Function.comp_def, isSome_whole_cut]

theorem isSome_of_mem_shown
    {fields : List (String × Unfolding)}
    {f : String × Unfolding}
    (h : f ∈ shown fields) :
    f.2.whole.isSome := by
  have hall : ∀ f ∈ shown fields, f.2.whole.isSome :=
    forall_mem_ofPairs fun f hf => (List.mem_filter.1 hf).2
  exact hall f h

theorem mem_of_mem_shown
    {fields : List (String × Unfolding)}
    {f : String × Unfolding}
    (h : f ∈ shown fields) :
    f ∈ fields := by
  have hall : ∀ f ∈ shown fields, f ∈ fields :=
    forall_mem_ofPairs fun f hf => (List.mem_filter.1 hf).1
  exact hall f h

theorem whole_object
    (t : String)
    (fields : List (String × Unfolding)) :
    (object t fields).whole =
      some (.map ((shown fields).map fun f => (f.1, f.2.shownValue))) := by
  rw [whole, entries_eq, ofPairs_map, shown]

theorem whole_cut_object
    {around : List String}
    {t : String}
    (h : t ∉ around)
    (fields : List (String × Unfolding)) :
    ((object t fields).cut around).whole =
      some (.map ((shown fields).map fun f => (f.1, (f.2.cut (t :: around)).shownValue))) := by
  rw [cut, if_neg h, whole, entries_cutFields]
  exact congrArg (fun entries => some (Value.map entries))
    (ofPairs_map (fun u : Unfolding => (u.cut (t :: around)).shownValue) _)

/-- Lists of types are the same in full if their members are. -/
theorem wholes_cutAll_eq_iff
    (around : List String)
    (items : List Unfolding) :
    wholes (cutAll around items) = wholes items ↔
      ∀ u ∈ items, (u.cut around).whole = u.whole := by
  induction items with
  | nil => simp [cutAll]
  | cons u rest ih =>
    have hshown := isSome_whole_cut u around
    rw [cutAll, wholes, wholes, List.forall_mem_cons, ← ih]
    cases hu : u.whole with
    | none =>
      rw [hu, Option.isSome_none, Option.isSome_eq_false_iff, Option.isNone_iff_eq_none] at hshown
      simp [hshown]
    | some v =>
      rw [hu] at hshown
      obtain ⟨w, hw⟩ := Option.isSome_iff_exists.1 hshown
      simp [hw]

end Fields

section Cutting

/-- A type is whole in spite of the cuts if and only if no object that is not empty shows inside of
another one of the same text. -/
theorem whole_cut_eq_iff
    (u : Unfolding)
    (around : List String) :
    (u.cut around).whole = u.whole ↔ ¬ u.Repeats around := by
  induction u using Unfolding.induction generalizing around with
  | leaf v => exact iff_of_true rfl nofun
  | list items ih =>
    rw [cut, whole, whole, Option.some.injEq, Value.list.injEq, wholes_cutAll_eq_iff]
    constructor
    · rintro hall (_ | _ | ⟨hmem, h⟩)
      exact (ih _ hmem around).1 (hall _ hmem) h
    · exact fun hno u hu => (ih u hu around).2 fun h => hno (.item hu h)
  | choice u ih =>
    rw [cut, whole, whole, ih]
    exact not_congr ⟨.choice, fun | .choice h => h⟩
  | object t fields ih =>
    by_cases ht : t ∈ around
    -- The object is left empty, which makes no difference if none of its fields shows.
    · rw [whole_object, cut, if_pos ht]
      constructor
      · rintro hwhole h
        have hempty : shown fields = [] := by simpa [whole, entries, ofPairs] using hwhole.symm
        cases h with
        | here _ hfull => exact hfull hempty
        | field hmem => simp [hempty] at hmem
      · intro hno
        have hempty : shown fields = [] := by_contra fun hfull => hno (.here ht hfull)
        simp [hempty, whole, entries, ofPairs]
    · rw [whole_object, whole_cut_object ht, Option.some.injEq, Value.map.injEq, List.map_inj_left]
      have hfield {f : String × Unfolding} (hf : f ∈ shown fields) :
          (f.1, (f.2.cut (t :: around)).shownValue) = (f.1, f.2.shownValue) ↔
            ¬ f.2.Repeats (t :: around) := by
        rw [Prod.mk.injEq, eq_self, true_and,
          shownValue_eq_iff (isSome_whole_cut _ _) (isSome_of_mem_shown hf),
          ih f (mem_of_mem_shown hf)]
      constructor
      · rintro hall (⟨h, _⟩ | ⟨hmem, h⟩)
        · exact ht h
        · exact (hfield hmem).1 (hall _ hmem) h
      · exact fun hno f hf => (hfield hf).2 fun h => hno (.field hf h)

end Cutting

section Depth

theorem depthBelow_lt_iff
    {items : List Unfolding}
    {n : Nat} :
    depthBelow items < n + 1 ↔ ∀ u ∈ items, u.depth < n := by
  induction items with
  | nil => simp [depthBelow]
  | cons u rest ih =>
    rw [depthBelow, List.forall_mem_cons, ← ih]
    omega

theorem depthOfFields_lt_iff
    {fields : List (String × Unfolding)}
    {n : Nat} :
    depthOfFields fields < n + 1 ↔ ∀ f ∈ fields, f.2.depth < n := by
  induction fields with
  | nil => simp [depthOfFields]
  | cons f rest ih =>
    rw [depthOfFields, List.forall_mem_cons, ← ih]
    omega

end Depth

end Unfolding

namespace Shape

section Examples

variable {scope : Scope}

theorem examplesOf_of_unfoldsAll
    {example? : Shape → Except Fault (Option Value)}
    {around : List String}
    {items : List Shape}
    {us : List Unfolding}
    (hus : UnfoldsAll scope items us)
    (h : ∀ u ∈ us, ∀ s, Unfolds scope s u → example? s = .ok (u.cut around).whole) :
    examplesOf example? items = .ok (Unfolding.wholes (Unfolding.cutAll around us)) := by
  induction items generalizing us with
  | nil =>
    cases hus
    rfl
  | cons s rest ih =>
    obtain _ | ⟨hs, hrest⟩ := hus
    rw [List.forall_mem_cons] at h
    rw [examplesOf, h.1 s hs, ih hrest h.2]
    rfl

theorem entriesOf_of_unfoldsFields
    {example? : Shape → Except Fault (Option Value)}
    {around : List String}
    {fs : List Field}
    {us : List (String × Unfolding)}
    (hus : UnfoldsFields scope (fs.filter Field.isWritten) us)
    (h : ∀ f ∈ us, ∀ s, Unfolds scope s f.2 → example? s = .ok (f.2.cut around).whole)
    (entries : List (String × Value)) :
    entriesOf (fun f => do example? (← f.shape scope)) entries fs =
      .ok ((Unfolding.entries (Unfolding.cutFields around us)).foldl
        (fun acc p => putEntry p.1 p.2 acc) entries) := by
  induction fs generalizing us entries with
  | nil =>
    cases hus
    rfl
  | cons f rest ih =>
    rw [entriesOf]
    cases hf : f.isWritten with
    | false =>
      rw [List.filter_cons_of_neg (by simp [hf])] at hus
      rw [Field.isWritten, Bool.not_eq_false'] at hf
      rw [if_pos hf]
      exact ih hus h entries
    | true =>
      rw [List.filter_cons_of_pos hf] at hus
      rw [Field.isWritten, Bool.not_eq_true'] at hf
      rw [if_neg (by simp [hf])]
      obtain _ | @⟨_, s, u, _, us, hread, hs, hrest⟩ := hus
      rw [List.forall_mem_cons] at h
      have hone : (do example? (← f.shape scope)) = .ok (u.cut around).whole := by
        rw [hread]
        exact h.1 s hs
      rw [hone, Unfolding.cutFields, Unfolding.entries]
      cases (u.cut around).whole with
      | none => exact ih hrest h.2 entries
      | some v => exact ih hrest h.2 _

/-- The example of a shape is what it unfolds to, cut, if that is not deeper than is written out. -/
theorem exampleWithin_of_unfolds
    {n : Nat}
    {s : Shape}
    {u : Unfolding}
    (h : Unfolds scope s u)
    (hdepth : u.depth < n)
    (around : List String) :
    exampleWithin scope n around s = .ok (u.cut around).whole := by
  induction n generalizing s u around with
  | zero => exact absurd hdepth (Nat.not_lt_zero _)
  | succ n ih =>
    rw [exampleWithin_succ]
    cases h with
    | leaf hs =>
      rw [hs]
      rfl
    | @list _ items us hs hitems =>
      have hbelow := Unfolding.depthBelow_lt_iff.1 hdepth
      have hall := examplesOf_of_unfoldsAll hitems fun u hu s hs => ih hs (hbelow u hu) around
      simp only [hs, hall]
      rfl
    | choice hs hchosen =>
      simp only [hs]
      exact ih hchosen (Nat.lt_of_succ_lt_succ hdepth) around
    | @object _ t fs us hs hread hfields =>
      simp only [hs, List.contains_iff_mem]
      by_cases ht : t ∈ around
      · rw [if_pos ht, Unfolding.cut, if_pos ht]
        rfl
      · have hbelow := Unfolding.depthOfFields_lt_iff.1 hdepth
        have hall := entriesOf_of_unfoldsFields hfields
          (fun f hf s hs => ih hs (hbelow f hf) (t :: around)) []
        rw [if_neg ht, Unfolding.cut, if_neg ht, hread]
        simp only [bind, Except.bind] at hall ⊢
        rw [hall]
        rfl

end Examples

section Searching

theorem eq_ok_of_toOption
    {α : Type}
    {r : Except Fault α}
    {x : α}
    (h : r.toOption = some x) :
    r = .ok x := by
  cases r with
  | error e => cases h
  | ok y => exact congrArg Except.ok (Option.some.inj h)

variable (scope : Scope)

/-- The shape of an interface that is used by its name alone. -/
def interface?
    (file : SourceFile)
    (bound : List (String × Shape))
    (name : String) :
    Option Shape :=
  match entryOf? name bound, ofUtility? name name [], scope.type name file with
  | none, none, .ok (.ok found) =>
    if found.node.kind = .interfaceDeclaration then
      some (object name none (.ofInterface found.node found.file (boundBy found.node [])))
    else none
  | _, _, _ => none

/-- The shape of a field whose type is a word of the language or the name of an interface. -/
def plainShape? (f : Field) : Option Shape := do
  let ⟨written, file, bound⟩ ← f.type
  let ascription ← written
  if ascription.kind = .typeAscription then
    let type ← ascription.parts.head?
    match type.kind, ofWord? type.text with
    | .predefinedType, some s => some s
    | .typeIdentifier, none => interface? scope file bound type.text
    | _, _ => none
  else none

variable {scope}

theorem ofName_of_interface?
    {file : SourceFile}
    {bound : List (String × Shape)}
    {name : String}
    {s : Shape}
    (h : interface? scope file bound name = some s) :
    ofName scope [] file bound name name [] = .ok s := by
  unfold interface? at h
  split at h
  · next found hbound hutility hfound =>
    split at h
    · next hkind =>
      have hargs : ofNodes scope [] file bound [] = .ok [] := by rw [ofNodes]
      rw [ofName, hbound, hargs]
      simp only [bind, Except.bind, hutility, hfound]
      rw [dif_neg (by simp [maxOpenNames]), ofDeclaration, hkind, Option.some.inj h]
    · cases h
  · cases h

theorem ofNode_typeAscription
    {file : SourceFile}
    {bound : List (String × Shape)}
    {n type : Node}
    (hkind : n.kind = .typeAscription)
    (htype : n.parts.head? = some type) :
    ofNode scope [] file bound n = ofNode scope [] file bound type := by
  rw [ofNode, hkind]
  simp only
  split
  · next hparts => simp [hparts] at htype
  · next hparts =>
    rw [hparts, List.head?_cons] at htype
    rw [Option.some.inj htype]

theorem shape_of_plainShape?
    {f : Field}
    {s : Shape}
    (h : plainShape? scope f = some s) :
    f.shape scope = .ok s := by
  unfold plainShape? at h
  simp only [Option.bind_eq_bind, Option.bind_eq_some_iff] at h
  obtain ⟨⟨written, file, bound⟩, hf, ascription, rfl, h⟩ := h
  split at h
  · next hkind =>
    obtain ⟨type, htype, h⟩ := Option.bind_eq_some_iff.1 h
    rw [Field.shape, hf]
    simp only
    rw [ofNode_typeAscription hkind htype]
    split at h
    · next hpredefined hword =>
      rw [ofNode, hpredefined, hword, Option.some.inj h]
      rfl
    · next hidentifier hword =>
      rw [ofNode, hidentifier, hword]
      exact ofName_of_interface? h
    · cases h
  · cases h

/-- What a shape unfolds to in less than so many layers, if its fields are written plainly. -/
def unfolding?
    (scope : Scope) :
    Nat → Shape → Option Unfolding
  | 0, _ => none
  | n + 1, s =>
    match s.layer with
    | .leaf v => some (.leaf v)
    | .list items => do return .list (← items.mapM (unfolding? scope n))
    | .choice m => do return .choice (← unfolding? scope n m)
    | .object t => do
      let fs ← (s.fieldList scope).toOption
      let us ← (fs.filter Field.isWritten).mapM fun f => do
        return (f.name, ← unfolding? scope n (← plainShape? scope f))
      return .object t us

theorem unfoldsAll_of_mapM
    {unfolded? : Shape → Option Unfolding}
    {items : List Shape}
    {us : List Unfolding}
    {n : Nat}
    (h : ∀ s u, unfolded? s = some u → Unfolds scope s u ∧ u.depth < n)
    (hitems : items.mapM unfolded? = some us) :
    UnfoldsAll scope items us ∧ ∀ u ∈ us, u.depth < n := by
  induction items generalizing us with
  | nil =>
    obtain rfl : [] = us := by simpa using hitems
    exact ⟨.nil, by simp⟩
  | cons s rest ih =>
    simp only [List.mapM_cons, Option.bind_eq_bind, Option.bind_eq_some_iff, Option.pure_def,
      Option.some.injEq] at hitems
    obtain ⟨u, hu, rest', hrest, rfl⟩ := hitems
    obtain ⟨hunfolds, hdepth⟩ := h s u hu
    obtain ⟨hall, hdepths⟩ := ih hrest
    exact ⟨.cons hunfolds hall, List.forall_mem_cons.2 ⟨hdepth, hdepths⟩⟩

theorem unfoldsFields_of_mapM
    {unfolded? : Shape → Option Unfolding}
    {fs : List Field}
    {us : List (String × Unfolding)}
    {n : Nat}
    (h : ∀ s u, unfolded? s = some u → Unfolds scope s u ∧ u.depth < n)
    (hfields : fs.mapM (fun f => do return (f.name, ← unfolded? (← plainShape? scope f))) = some us) :
    UnfoldsFields scope fs us ∧ ∀ f ∈ us, f.2.depth < n := by
  induction fs generalizing us with
  | nil =>
    obtain rfl : [] = us := by simpa using hfields
    exact ⟨.nil, by simp⟩
  | cons f rest ih =>
    simp only [List.mapM_cons, Option.bind_eq_bind, Option.bind_eq_some_iff, Option.pure_def,
      Option.some.injEq] at hfields
    obtain ⟨_, ⟨s, hs, u, hu, rfl⟩, rest', hrest, rfl⟩ := hfields
    obtain ⟨hunfolds, hdepth⟩ := h s u hu
    obtain ⟨hall, hdepths⟩ := ih hrest
    exact ⟨.cons (shape_of_plainShape? hs) hunfolds hall, List.forall_mem_cons.2 ⟨hdepth, hdepths⟩⟩

/-- What is found to be the unfolding of a shape is that, and has no more layers than were allowed. -/
theorem unfolds_of_unfolding?
    {n : Nat}
    {s : Shape}
    {u : Unfolding}
    (h : unfolding? scope n s = some u) :
    Unfolds scope s u ∧ u.depth < n := by
  induction n generalizing s u with
  | zero => simp [unfolding?] at h
  | succ n ih =>
    rw [unfolding?] at h
    cases hs : s.layer with
    | leaf v =>
      simp only [hs, Option.some.injEq] at h
      subst h
      exact ⟨.leaf hs, Nat.succ_pos n⟩
    | list items =>
      simp only [hs, Option.bind_eq_bind, Option.bind_eq_some_iff, Option.pure_def,
        Option.some.injEq] at h
      obtain ⟨us, hus, rfl⟩ := h
      obtain ⟨hall, hdepths⟩ := unfoldsAll_of_mapM (fun s u => ih) hus
      exact ⟨.list hs hall, Unfolding.depthBelow_lt_iff.2 hdepths⟩
    | choice m =>
      simp only [hs, Option.bind_eq_bind, Option.bind_eq_some_iff, Option.pure_def,
        Option.some.injEq] at h
      obtain ⟨u, hu, rfl⟩ := h
      obtain ⟨hchosen, hdepth⟩ := ih hu
      exact ⟨.choice hs hchosen, Nat.succ_lt_succ hdepth⟩
    | object t =>
      simp only [hs, Option.bind_eq_bind, Option.bind_eq_some_iff, Option.pure_def,
        Option.some.injEq] at h
      obtain ⟨fs, hfs, us, hus, rfl⟩ := h
      obtain ⟨hall, hdepths⟩ := unfoldsFields_of_mapM (fun s u => ih) (by simpa using hus)
      exact ⟨.object hs (eq_ok_of_toOption hfs) hall, Unfolding.depthOfFields_lt_iff.2 hdepths⟩

end Searching

section Results

variable {scope : Scope}

/-- The example of a type that unfolds to no more layers than are written out has every part of it,
unless an object that is not empty shows inside of another one that is written by the same text. -/
theorem example?_eq_whole_iff
    {s : Shape}
    {u : Unfolding}
    {maxDepth : Int}
    (h : Unfolds scope s u)
    (hdepth : u.depth ≤ maxDepth) :
    s.example? scope maxDepth = .ok u.whole ↔ ¬ u.Repeats [] := by
  rw [example?, exampleWithin_of_unfolds h (by omega) [], Except.ok.injEq]
  exact Unfolding.whole_cut_eq_iff u []

/-- The files of a project without a configuration. -/
def filesOf (files : List (String × String)) : Project :=
  ⟨⟨.directory (files.map fun f => (f.1, .file (.text f.2)))⟩, Files.Path.root, none,
    files.map fun f => ⟨true, [f.1]⟩, []⟩

theorem exists_unfolds
    (project : Project)
    (path : Files.Path)
    (name : String)
    (n : Nat)
    (p : Unfolding → Bool)
    (h : ((project.sourceFile? path).bind fun file =>
      (interface? ⟨some project⟩ file [] name).bind (unfolding? ⟨some project⟩ n)).any p = true) :
    ∃ file s u, project.sourceFile? path = some file ∧
      ofName ⟨some project⟩ [] file [] name name [] = .ok s ∧ Unfolds ⟨some project⟩ s u ∧
      p u = true := by
  simp only [Option.any_eq_true, Option.bind_eq_some_iff] at h
  obtain ⟨u, ⟨file, hfile, s, hs, hu⟩, hp⟩ := h
  exact ⟨file, s, u, hfile, ofName_of_interface? hs, (unfolds_of_unfolding? hu).1, hp⟩

/-- Two files, with a type of which a part is declared in the other file. -/
def labelled : Project :=
  filesOf [
    ("a.ts", "import \x7b Label \x7d from \"./b\"; interface Item \x7b label: Label; count: number \x7d"),
    ("b.ts", "export interface Label \x7b text: string \x7d")]

/-- What the type unfolds to. -/
def labelledItem : Unfolding :=
  .object "Item" [("label", .object "Label" [("text", .leaf (some (.str "")))]),
    ("count", .leaf (some (.int 0)))]

/-- Whether an unfolding is this one. -/
def isLabelledItem : Unfolding → Bool
  | .object "Item" [("label", .object "Label" [("text", .leaf (some (.str "")))]),
      ("count", .leaf (some (.int 0)))] => true
  | _ => false

theorem unfolds_labelled :
    ∃ file s, labelled.sourceFile? ⟨true, ["a.ts"]⟩ = some file ∧
      ofName ⟨some labelled⟩ [] file [] "Item" "Item" [] = .ok s ∧
      Unfolds ⟨some labelled⟩ s labelledItem := by
  obtain ⟨file, s, u, hfile, hs, hunfolds, hu⟩ :=
    exists_unfolds labelled ⟨true, ["a.ts"]⟩ "Item" 3 isLabelledItem (by decide +kernel)
  refine ⟨file, s, hfile, hs, ?_⟩
  unfold isLabelledItem at hu
  split at hu
  · exact hunfolds
  · cases hu

theorem example?_labelled :
    ∃ file s, labelled.sourceFile? ⟨true, ["a.ts"]⟩ = some file ∧
      ofName ⟨some labelled⟩ [] file [] "Item" "Item" [] = .ok s ∧
      Unfolds ⟨some labelled⟩ s labelledItem ∧ (labelledItem.depth : Int) ≤ 3 ∧
      s.example? ⟨some labelled⟩ 3 =
        .ok (some (.map [("label", .map [("text", .str "")]), ("count", .int 0)])) := by
  obtain ⟨file, s, hfile, hs, hunfolds⟩ := unfolds_labelled
  have hdepth : (labelledItem.depth : Int) ≤ 3 := by decide
  have hwhole : ¬ labelledItem.Repeats [] := (Unfolding.whole_cut_eq_iff labelledItem []).1 rfl
  exact ⟨file, s, hfile, hs, hunfolds, hdepth, (example?_eq_whole_iff hunfolds hdepth).2 hwhole⟩

/-- Two files, each with a type of the same name, of which one is a part of the other. -/
def namesakes : Project :=
  filesOf [
    ("a.ts", "import \x7b Other \x7d from \"./b\"; interface Item \x7b other: Other \x7d"),
    ("b.ts", "interface Item \x7b id: number \x7d export interface Other \x7b item: Item \x7d")]

/-- What the type of the first file unfolds to. -/
def namesakesItem : Unfolding :=
  .object "Item" [("other", .object "Other" [("item", .object "Item" [("id", .leaf (some (.int 0)))])])]

/-- Whether an unfolding is this one. -/
def isNamesakesItem : Unfolding → Bool
  | .object "Item" [("other", .object "Other"
      [("item", .object "Item" [("id", .leaf (some (.int 0)))])])] => true
  | _ => false

/-- An example may lack the fields of a type that is not recursive, if it has the same name as another
one. -/
theorem example?_ne_whole_namesakes :
    ∃ file s, namesakes.sourceFile? ⟨true, ["a.ts"]⟩ = some file ∧
      ofName ⟨some namesakes⟩ [] file [] "Item" "Item" [] = .ok s ∧
      Unfolds ⟨some namesakes⟩ s namesakesItem ∧ (namesakesItem.depth : Int) ≤ 3 ∧
      namesakesItem.whole =
        some (.map [("other", .map [("item", .map [("id", .int 0)])])]) ∧
      s.example? ⟨some namesakes⟩ 3 = .ok (some (.map [("other", .map [("item", .map [])])])) ∧
      s.example? ⟨some namesakes⟩ 3 ≠ .ok namesakesItem.whole := by
  obtain ⟨file, s, u, hfile, hs, hunfolds, hu⟩ :=
    exists_unfolds namesakes ⟨true, ["a.ts"]⟩ "Item" 4 isNamesakesItem (by decide +kernel)
  unfold isNamesakesItem at hu
  split at hu
  · have hexample : s.example? ⟨some namesakes⟩ 3 =
        .ok (some (.map [("other", .map [("item", .map [])])])) :=
      exampleWithin_of_unfolds hunfolds (by decide) []
    refine ⟨file, s, hfile, hs, hunfolds, by decide, rfl, hexample, ?_⟩
    rw [hexample]
    simp [namesakesItem, Unfolding.whole, Unfolding.entries, ofPairs, putEntry]
  · cases hu

end Results

end Shape

end RouteAtlas
