import Mathlib
import RouteAtlas.Proofs.NestingLimit
import RouteAtlas.Proofs.SchemaValues

/-!
# Methods of object schemas

A call that does not come to the limit on nesting has the schema that is made of those of its parts, each read
on its own. So the methods that make other objects of an object can be told by what they do to its fields:
`pick` and `omit` split them, `extend` puts other schemas in the place of some of them and adds the others at the
end, `merge` does the same with the fields of another object, `partial` and `required` set one flag of each.

No key comes twice among the fields of a schema that is read, and none of the methods touches the flags and the
default of the object itself.
-/

namespace RouteAtlas.Schema

open Syntax Project

section Composition

/-- Every expression read on its own, with no name being resolved. -/
def alone (scope : Scope) : Reading :=
  fun e file _ => ofExpression scope file e

/-- An expression that does not come to the limit on nesting. -/
def Fits
    (scope : Scope)
    (file : SourceFile)
    (e : Node) :
    Prop :=
  NestsBelow scope ⟨some e, file, []⟩ maxNesting

variable {scope : Scope} {file : SourceFile} {e : Node}

theorem ofExpression_unwrap
    (scope : Scope)
    (file : SourceFile)
    (e : Node) :
    ofExpression scope file (some e.unwrap) = ofExpression scope file (some e) :=
  readUpTo_congr scope (Node.unwrap_unwrap e) maxNesting file []

theorem Fits.ofExpression_eq (h : Fits scope file e) :
    ofExpression scope file (some e) = readFreely scope (some e) file [] :=
  readUpTo_eq_readFreely h

/-- What a call comes to is read as on its own. -/
theorem Fits.ofExpression_part
    (h : Fits scope file e)
    (hcall : e.unwrap.kind = .callExpression)
    {y : Subject}
    (hy : Subject.ComesToIn (readFreely scope)
      (Subject.parts scope (readFreely scope) ⟨some e, file, []⟩) y) :
    y.file = file ∧ NestsBelow scope y maxNesting ∧
      y.readBy (readFreely scope) = ofExpression scope file y.node := by
  have hnest : NestsBelow scope y maxNesting := NestsBelow.mono (NestsBelow.part h hy) (by decide)
  -- a part of a call stands in the same file, and no name is opened on the way to it
  have hparts : Subject.parts scope (readFreely scope) ⟨some e, file, []⟩ = _ := partsWhen_call rfl hcall
  have hmem := hy.mem
  rw [hparts] at hmem
  obtain ⟨n, -, rfl⟩ := List.mem_map.1 hmem
  exact ⟨rfl, hnest, (readUpTo_eq_readFreely hnest).symm⟩

/-- A call is made of its parts, each read on its own. -/
theorem Fits.ofExpression_call
    (h : Fits scope file e)
    (hcall : e.unwrap.kind = .callExpression) :
    ofExpression scope file (some e) = called (alone scope) scope file [] e.unwrap := by
  let x : Subject := ⟨some e, file, []⟩
  have hstep : x.readBy (step scope (readFreely scope)) = x.readBy (step scope (alone scope)) := by
    refine step_congr fun y hy => ?_
    obtain ⟨hfile, -, hread⟩ := h.ofExpression_part hcall hy
    rw [hread, ← hfile]
    rfl
  rw [h.ofExpression_eq, readFreely_eq_step]
  refine hstep.trans ?_
  simp [x, Subject.readBy, step, hcall]

/-- An expression calls a method of another one, which is not the library. -/
structure CallsMethod
    (file : SourceFile)
    (e receiver : Node)
    (method : String)
    (args : List Node) :
    Prop where
  call : e.unwrap.kind = .callExpression
  callee : calleeOf file e.unwrap = .method (some receiver.unwrap) method
  arguments : e.unwrap.callArguments = args

/-- An expression calls a constructor of the library. -/
structure CallsConstructor
    (file : SourceFile)
    (e : Node)
    (name : String)
    (args : List Node) :
    Prop where
  call : e.unwrap.kind = .callExpression
  callee : calleeOf file e.unwrap = .constructor name
  arguments : e.unwrap.callArguments = args

variable {receiver : Node} {method name : String} {args : List Node} {s : Schema}

/-- A method is applied to the schema that its receiver has on its own. -/
theorem CallsMethod.ofExpression_eq
    (h : CallsMethod file e receiver method args)
    (hfit : Fits scope file e) :
    ofExpression scope file (some e) =
      ofExpression scope file (some receiver) >>= fun s => applied (alone scope) file [] s method args := by
  rw [hfit.ofExpression_call h.call, called_eq_of_callee, h.callee, h.arguments]
  exact congrArg (· >>= _) (ofExpression_unwrap scope file receiver)

theorem CallsConstructor.ofExpression_eq
    (h : CallsConstructor file e name args)
    (hfit : Fits scope file e) :
    ofExpression scope file (some e) = constructed (alone scope) scope file [] name args := by
  rw [hfit.ofExpression_call h.call, called_eq_of_callee, h.callee, h.arguments]

theorem CallsMethod.of_unwrap
    (h : CallsMethod file e receiver method args) :
    CallsMethod file e.unwrap receiver method args := by
  constructor
  · rw [Node.unwrap_unwrap]
    exact h.call
  · rw [Node.unwrap_unwrap]
    exact h.callee
  · rw [Node.unwrap_unwrap]
    exact h.arguments

/-- The receiver is come to first. -/
theorem CallsMethod.comesToIn_receiver (h : CallsMethod file e receiver method args) :
    Subject.ComesToIn (readFreely scope) (Subject.parts scope (readFreely scope) ⟨some e, file, []⟩)
      ⟨some receiver.unwrap, file, []⟩ := by
  rw [Subject.parts, partsWhen_call rfl h.call, callParts, h.callee]
  exact Subject.comesToIn_head

theorem CallsMethod.fits_receiver
    (h : CallsMethod file e receiver method args)
    (hfit : Fits scope file e) :
    Fits scope file receiver.unwrap :=
  (hfit.ofExpression_part h.call h.comesToIn_receiver).2.1

/-- A first part that a method of an object reads does not come to the limit either. -/
theorem CallsMethod.fits_argument
    {a : Node}
    {more : List Node}
    (h : CallsMethod file e receiver method args)
    (hfit : Fits scope file e)
    (hs : ofExpression scope file (some receiver) = .ok s)
    (hobject : s.kind = .object)
    (harg : methodParts method args = a :: more) :
    Fits scope file a := by
  have hreceiver : readFreely scope (some receiver.unwrap) file [] = .ok s := by
    obtain ⟨-, -, hread⟩ := hfit.ofExpression_part h.call h.comesToIn_receiver
    exact hread.trans ((ofExpression_unwrap scope file receiver).trans hs)
  have hcallee : calleeOf file e.unwrap = .method (some receiver.unwrap) method := h.callee
  have hon : Subject.isOnObject (readFreely scope) ⟨some e, file, []⟩ = true := by
    simp [Subject.isOnObject, hcallee, hreceiver, hobject]
  -- the argument is come to after the receiver, which is read as an object
  refine (hfit.ofExpression_part (y := ⟨some a, file, []⟩) h.call ?_).2.1
  rw [Subject.parts, hon, partsWhen_call rfl h.call, callParts, hcallee, h.arguments]
  simp only [if_true, harg, List.map_cons]
  exact Subject.ComesToIn.tail hreceiver Subject.comesToIn_head

end Composition

section Fields

/-- The fields of an object. -/
def fields (s : Schema) : List (String × Schema) :=
  s.children.getD []

/-- The fields with which an object is rendered. -/
def rendered (s : Schema) : List (String × Value) :=
  s.fields.filterMap fun c => c.2.example?.map fun v => (c.1, v)

/-- The fields that an object expression gives, each read on its own. -/
def fieldsOf
    (scope : Scope)
    (file : SourceFile)
    (e : Node) :
    Except Fault (List (String × Schema)) :=
  shape (alone scope) file [] (some e)

variable {scope : Scope} {file : SourceFile} {s : Schema}

/-- No key comes twice among the fields of what is read. -/
theorem nodup_keys_of_ofExpression
    {e : Node}
    (h : ofExpression scope file (some e) = .ok s) :
    (s.fields.map Prod.fst).Nodup :=
  (isSound_readUpTo scope maxNesting (some e) file [] s h).areEntries.1

theorem nodup_keys_of_fieldsOf
    {e : Node}
    {children : List (String × Schema)}
    (h : fieldsOf scope file e = .ok children) :
    (children.map Prod.fst).Nodup := by
  obtain ⟨pairs, -, hchildren⟩ := exists_of_bind_eq_ok h
  cases hchildren
  exact nodup_keys_ofPairs pairs

end Fields

section Laws

variable {scope : Scope} {file : SourceFile} {receiver e : Node} {s : Schema} {method : String}
  {args : List Node}

/-- The same schema with other fields. -/
def withFields
    (s : Schema)
    (children : List (String × Schema)) :
    Schema :=
  { s with children := some children }

@[simp] theorem fields_withFields
    (s : Schema)
    (children : List (String × Schema)) :
    (s.withFields children).fields = children := rfl

/-- Fields of which every one may be missing, or none may. -/
def allOptional
    (optional : Bool)
    (children : List (String × Schema)) :
    List (String × Schema) :=
  children.map fun c => (c.1, { c.2 with optional := optional })

theorem allOptional_allOptional
    (optional optional' : Bool)
    (children : List (String × Schema)) :
    allOptional optional (allOptional optional' children) = allOptional optional children := by
  simp [allOptional]

/-- An object is rendered with its fields, unless something else stands for it. -/
theorem example?_eq_map_rendered
    (hkind : s.kind = .object)
    (hdefault : s.default = none)
    (hnullable : s.nullable = false)
    (hoptional : s.optional = false) :
    s.example? = some (.map s.rendered) := by
  rw [example?_eq]
  simp [hdefault, hnullable, hoptional, placeholder, hkind, rendered, fields]

theorem isSome_example?_iff (s : Schema) :
    s.example?.isSome ↔ s.default.isSome ∨ s.nullable = true ∨ s.optional = false := by
  rw [example?_eq]
  cases s.default with
  | some v => simp
  | none => cases s.nullable <;> cases s.optional <;> simp

/-- A field is rendered if it has an example. -/
theorem mem_keys_rendered_iff
    {c : String × Schema}
    (h : (s.fields.map Prod.fst).Nodup)
    (hc : c ∈ s.fields) :
    c.1 ∈ s.rendered.map Prod.fst ↔ c.2.example?.isSome := by
  have hsame : ∀ c' ∈ s.fields, c'.1 = c.1 → c' = c := fun c' hc' hkey =>
    List.inj_on_of_nodup_map h hc' hc hkey
  constructor
  · intro hmem
    obtain ⟨_, hr, hkey⟩ := List.mem_map.1 hmem
    obtain ⟨c', hc', hvalue⟩ := List.mem_filterMap.1 hr
    obtain ⟨v, hv, rfl⟩ := Option.map_eq_some_iff.1 hvalue
    obtain rfl := hsame c' hc' hkey
    exact Option.isSome_of_eq_some hv
  · intro hsome
    obtain ⟨v, hv⟩ := Option.isSome_iff_exists.1 hsome
    exact List.mem_map.2 ⟨(c.1, v), List.mem_filterMap.2 ⟨c, hc, by rw [hv]; rfl⟩, rfl⟩

/-- What may be missing is rendered only if something stands for it. -/
theorem mem_keys_rendered_allOptional_iff
    {c : String × Schema}
    (h : (s.fields.map Prod.fst).Nodup)
    (hc : c ∈ s.fields) :
    c.1 ∈ (s.withFields (allOptional true s.fields)).rendered.map Prod.fst ↔
      c.2.default.isSome ∨ c.2.nullable = true := by
  have hkeys : (((s.withFields (allOptional true s.fields)).fields).map Prod.fst).Nodup := by
    simpa [allOptional, Function.comp_def] using h
  have hmem : (c.1, { c.2 with optional := true }) ∈ (s.withFields (allOptional true s.fields)).fields :=
    List.mem_map.2 ⟨c, hc, rfl⟩
  rw [mem_keys_rendered_iff hkeys hmem, isSome_example?_iff]
  simp

/-- A method that makes another object of an object. -/
theorem applied_object
    {read : Reading}
    {open_ : List (Files.Path × String)}
    (hobject : s.kind = .object)
    (hmethod : method ∈ MethodCall.shapeMethods) :
    applied read file open_ s method args = reshaped read file open_ s method args := by
  simp only [MethodCall.shapeMethods, List.mem_cons, List.not_mem_nil, or_false] at hmethod
  rcases hmethod with rfl | rfl | rfl | rfl | rfl | rfl <;> simp [applied, modifiers, hobject]

/-- An expression calls a method on something that has a schema, and does not come to the limit on nesting. -/
structure CallsOn
    (scope : Scope)
    (file : SourceFile)
    (s : Schema)
    (e : Node)
    (method : String)
    (args : List Node) :
    Prop where
  receiver :
    ∃ receiver, CallsMethod file e receiver method args ∧ ofExpression scope file (some receiver) = .ok s
  fits : Fits scope file e

theorem CallsOn.ofExpression_eq
    (h : CallsOn scope file s e method args)
    (hobject : s.kind = .object)
    (hmethod : method ∈ MethodCall.shapeMethods) :
    ofExpression scope file (some e) = reshaped (alone scope) file [] s method args := by
  obtain ⟨receiver, hcall, hs⟩ := h.receiver
  rw [hcall.ofExpression_eq h.fits, hs]
  exact applied_object hobject hmethod

theorem CallsOn.nodup_keys
    (h : CallsOn scope file s e method args) :
    (s.fields.map Prod.fst).Nodup := by
  obtain ⟨receiver, -, hs⟩ := h.receiver
  exact nodup_keys_of_ofExpression hs

/-- The names that a mask mentions. -/
def maskKeys (mask : Node) : List String :=
  mask.properties.map Node.Property.name

/-- Fields are split in two by their keys, each half in the order of the whole. -/
structure SplitsAt
    (keys : List String)
    (all picked omitted : List (String × Schema)) :
    Prop where
  picked_sublist : picked.Sublist all
  omitted_sublist : omitted.Sublist all
  perm : (picked ++ omitted).Perm all
  mem_keys_of_picked : ∀ c ∈ picked, c.1 ∈ keys
  not_mem_keys_of_omitted : ∀ c ∈ omitted, c.1 ∉ keys

theorem splitsAt_filter
    (keys : List String)
    (all : List (String × Schema)) :
    SplitsAt keys all (all.filter fun c => keys.contains c.1) (all.filter fun c => !keys.contains c.1) where
  picked_sublist := List.filter_sublist
  omitted_sublist := List.filter_sublist
  perm := List.filter_append_perm _ all
  mem_keys_of_picked c hc := by simpa using (List.mem_filter.1 hc).2
  not_mem_keys_of_omitted c hc := by simpa using (List.mem_filter.1 hc).2

/-- No method that makes another object changes what is not a field. -/
theorem exists_withFields_of_reshaped
    {read : Reading}
    {open_ : List (Files.Path × String)}
    {s' : Schema}
    (h : reshaped read file open_ s method args = .ok s') :
    s' = s ∨ ∃ children, s' = s.withFields children := by
  unfold reshaped at h
  split at h
  · cases h
    exact .inr ⟨_, rfl⟩
  · cases h
    exact .inr ⟨_, rfl⟩
  · obtain ⟨more, -, h⟩ := exists_of_bind_eq_ok h
    cases h
    exact .inr ⟨_, rfl⟩
  · obtain ⟨other, -, h⟩ := exists_of_bind_eq_ok h
    cases h
    exact .inr ⟨_, rfl⟩
  · cases h
    exact .inr ⟨_, rfl⟩
  · cases h
    exact .inr ⟨_, rfl⟩
  · cases h
    exact .inl rfl

/-- Extending an object puts fields over its own. -/
theorem CallsOn.ofExpression_extend
    {entries : Node}
    {more : List Node}
    (h : CallsOn scope file s e "extend" (entries :: more))
    (hobject : s.kind = .object) :
    ofExpression scope file (some e) =
      (fieldsOf scope file entries).map fun fields => s.withFields (overridden s.fields fields) := by
  rw [h.ofExpression_eq hobject (by decide)]
  change (fieldsOf scope file entries >>= fun fields =>
    pure (s.withFields (fields.foldl (fun acc c => putEntry c.1 c.2 acc) s.fields))) = _
  cases hfields : fieldsOf scope file entries with
  | error fault => rfl
  | ok fields =>
    have hfold := foldl_putEntry h.nodup_keys (nodup_keys_of_fieldsOf hfields)
    exact congrArg (fun children => Except.ok (s.withFields children)) hfold

/-- Merging an object with another one does the same with the fields of that one. -/
theorem CallsOn.ofExpression_merge
    {other : Node}
    {more : List Node}
    (h : CallsOn scope file s e "merge" (other :: more))
    (hobject : s.kind = .object) :
    ofExpression scope file (some e) =
      (ofExpression scope file (some other)).map fun t => s.withFields (overridden s.fields t.fields) := by
  rw [h.ofExpression_eq hobject (by decide)]
  change (ofExpression scope file (some other) >>= fun t =>
    pure (s.withFields (t.fields.foldl (fun acc c => putEntry c.1 c.2 acc) s.fields))) = _
  cases ht : ofExpression scope file (some other) with
  | error fault => rfl
  | ok t =>
    have hfold := foldl_putEntry h.nodup_keys (nodup_keys_of_ofExpression ht)
    exact congrArg (fun children => Except.ok (s.withFields children)) hfold

/-- The object of some entries has them as its fields. -/
theorem CallsConstructor.ofExpression_object
    {entries : Node}
    {more : List Node}
    (h : CallsConstructor file e "object" (entries :: more))
    (hfit : Fits scope file e) :
    ofExpression scope file (some e) = (fieldsOf scope file entries).map objectOf := by
  rw [h.ofExpression_eq hfit]
  change (fieldsOf scope file entries >>= fun children => pure (objectOf children)) = _
  cases fieldsOf scope file entries <;> rfl

/-- What the methods make of an object, by the schema that the object has. The calls that are compared may be
on any receivers that have this schema, in any files. -/
structure ObjectLaws
    (scope : Scope)
    (s : Schema) :
    Prop where
  keys_apart : (s.fields.map Prod.fst).Nodup
  splits :
    ∀ {file file' : SourceFile} {picking omitting mask mask' : Node} {more more' : List Node},
      CallsOn scope file s picking "pick" (mask :: more) →
      CallsOn scope file' s omitting "omit" (mask' :: more') →
      maskKeys mask' = maskKeys mask →
      ∃ picked omitted,
        ofExpression scope file (some picking) = .ok (s.withFields picked) ∧
          ofExpression scope file' (some omitting) = .ok (s.withFields omitted) ∧
          SplitsAt (maskKeys mask) s.fields picked omitted
  overrides :
    ∀ {file : SourceFile} {extending entries : Node} {more : List Node},
      CallsOn scope file s extending "extend" (entries :: more) →
      ofExpression scope file (some extending) =
        (fieldsOf scope file entries).map fun fields => s.withFields (overridden s.fields fields)
  merges :
    ∀ {file file' : SourceFile} {extending merging other entries entries' : Node}
      {more more' more'' : List Node},
      CallsOn scope file s extending "extend" (entries :: more) →
      CallsOn scope file' s merging "merge" (other :: more') →
      CallsConstructor file' other "object" (entries' :: more'') →
      fieldsOf scope file' entries' = fieldsOf scope file entries →
      (ofExpression scope file' (some merging)).map example? =
        (ofExpression scope file (some extending)).map example?
  requires :
    ∀ {file file' : SourceFile} {receiver weakened restored requiring : Node} {args args' args'' : List Node},
      ofExpression scope file (some receiver) = .ok s →
      CallsMethod file weakened receiver "partial" args →
      CallsMethod file restored weakened "required" args' → Fits scope file restored →
      CallsOn scope file' s requiring "required" args'' →
      ∃ required, ofExpression scope file' (some requiring) = .ok required ∧
        ∃ again, ofExpression scope file (some restored) = .ok again ∧ again.fields = required.fields
  renders :
    ∀ {file : SourceFile} {weakened : Node} {args : List Node},
      CallsOn scope file s weakened "partial" args →
      ∃ weak, ofExpression scope file (some weakened) = .ok weak ∧
        weak = s.withFields (allOptional true s.fields) ∧
        (s.default = none → s.nullable = false → s.optional = false →
          weak.example? = some (.map weak.rendered)) ∧
        ∀ c ∈ s.fields, c.1 ∈ weak.rendered.map Prod.fst ↔ c.2.default.isSome ∨ c.2.nullable = true
  keeps_flags :
    ∀ {file : SourceFile} {e : Node} {method : String} {args : List Node} {s' : Schema},
      method ∈ MethodCall.shapeMethods →
      CallsOn scope file s e method args →
      ofExpression scope file (some e) = .ok s' →
      s'.kind = .object ∧ s'.optional = s.optional ∧ s'.nullable = s.nullable ∧ s'.default = s.default

/-- The methods of objects split, override and weaken the fields of every object, and leave the object's own
flags and default alone. -/
theorem objectLaws_of_ofExpression
    (scope : Scope)
    (file : SourceFile)
    (receiver : Node)
    (s : Schema)
    (hs : ofExpression scope file (some receiver) = .ok s)
    (hobject : s.kind = .object) :
    ObjectLaws scope s := by
  have hkeys := nodup_keys_of_ofExpression hs
  constructor
  case keys_apart => exact hkeys
  case splits =>
    intro file file' picking omitting mask mask' more more' hpick homit hmask
    refine ⟨_, _, hpick.ofExpression_eq hobject (by decide), homit.ofExpression_eq hobject (by decide), ?_⟩
    have hsplits := splitsAt_filter (maskKeys mask) s.fields
    unfold maskKeys at hmask hsplits ⊢
    rwa [hmask]
  case overrides => exact fun hextend => hextend.ofExpression_extend hobject
  case merges =>
    intro file file' extending merging other entries entries' more more' more'' hextend hmerge hother hfields
    obtain ⟨receiver, hcall, hreceiver⟩ := hmerge.receiver
    have hotherFit : Fits scope file' other := hcall.fits_argument hmerge.fits hreceiver hobject rfl
    rw [hextend.ofExpression_extend hobject, hmerge.ofExpression_merge hobject,
      hother.ofExpression_object hotherFit, hfields]
    cases fieldsOf scope file entries <;> rfl
  case requires =>
    intro file file' receiver weakened restored requiring args args' args'' hreceiver hweak hrestore hfits
      hrequire
    have hweakOn : CallsOn scope file s weakened.unwrap "partial" args :=
      ⟨⟨receiver, hweak.of_unwrap, hreceiver⟩, hrestore.fits_receiver hfits⟩
    have hweakened : ofExpression scope file (some weakened) =
        .ok (s.withFields (allOptional true s.fields)) :=
      (ofExpression_unwrap scope file weakened).symm.trans (hweakOn.ofExpression_eq hobject (by decide))
    have hrestoreOn : CallsOn scope file (s.withFields (allOptional true s.fields)) restored "required" args' :=
      ⟨⟨weakened, hrestore, hweakened⟩, hfits⟩
    refine ⟨_, hrequire.ofExpression_eq hobject (by decide), _,
      hrestoreOn.ofExpression_eq hobject (by decide), ?_⟩
    exact allOptional_allOptional false true s.fields
  case renders =>
    intro file weakened args hweak
    refine ⟨_, hweak.ofExpression_eq hobject (by decide), rfl, ?_, fun c hc => ?_⟩
    · exact fun hdefault hnullable hoptional => example?_eq_map_rendered hobject hdefault hnullable hoptional
    · exact mem_keys_rendered_allOptional_iff hkeys hc
  case keeps_flags =>
    intro file e method args s' hmethod hcall hs'
    rw [hcall.ofExpression_eq hobject hmethod] at hs'
    obtain rfl | ⟨children, rfl⟩ := exists_withFields_of_reshaped hs'
    · exact ⟨hobject, rfl, rfl, rfl⟩
    · exact ⟨hobject, rfl, rfl, rfl⟩

/-- A call `z.name(args)`. -/
def libraryCall
    (role : Option Role)
    (name : String)
    (args : List Node) :
    Node :=
  methodCall role (leading .identifier (some .object) "z" []) name args

/-- An object expression whose values are calls `z.name()`. -/
def entriesOf (entries : List (String × String)) : Node :=
  leading .object none "" (entries.map fun e =>
    leading .pair none "" [leading .propertyIdentifier (some .key) e.1 [], libraryCall (some .value) e.2 []])

/-- The object `z.object({ a: z.string(), b: z.number() })`. -/
def pairObject : Node :=
  libraryCall (some .object) "object" [entriesOf [("a", "string"), ("b", "number")]]

/-- The entries `{ b: z.boolean(), c: z.date() }`. -/
def newEntries : Node :=
  entriesOf [("b", "boolean"), ("c", "date")]

/-- The call `z.object({ a: z.string(), b: z.number() }).extend({ b: z.boolean(), c: z.date() })`. -/
def extendedPair : Node :=
  methodCall none pairObject "extend" [newEntries]

/-- The object that has the new entries alone. -/
def newObject : Node :=
  libraryCall none "object" [newEntries]

/-- The call `z.object({ a: z.string(), b: z.number() }).merge(z.object({ b: z.boolean(), c: z.date() }))`. -/
def mergedPair : Node :=
  methodCall none pairObject "merge" [newObject]

/-- The schema of `pairObject`. -/
def pairSchema : Schema :=
  objectOf [("a", ofKind .string), ("b", ofKind .number)]

/-- Merging the pair with the new object renders as extending it with the new entries. -/
theorem objectLaws_pairObject :
    ofExpression ⟨none⟩ bareFile (some pairObject) = .ok pairSchema ∧
      pairSchema.kind = .object ∧
      (ofExpression ⟨none⟩ bareFile (some mergedPair)).map example? =
        (ofExpression ⟨none⟩ bareFile (some extendedPair)).map example? ∧
      (ofExpression ⟨none⟩ bareFile (some extendedPair)).map example? =
        .ok (some (.map [("a", .str ""), ("b", .bool false), ("c", .null)])) := by
  have hpair : ofExpression ⟨none⟩ bareFile (some pairObject) = .ok pairSchema := by cbv
  have hextend : CallsMethod bareFile extendedPair pairObject "extend" [newEntries] :=
    ⟨by cbv, by cbv, by cbv⟩
  have hmerge : CallsMethod bareFile mergedPair pairObject "merge" [newObject] := ⟨by cbv, by cbv, by cbv⟩
  have hother : CallsConstructor bareFile newObject "object" [newEntries] := ⟨by cbv, by cbv, by cbv⟩
  have hextendFit : Fits ⟨none⟩ bareFile extendedPair := nestsBelow_of_reachable_eq_nil (by cbv)
  have hmergeFit : Fits ⟨none⟩ bareFile mergedPair := nestsBelow_of_reachable_eq_nil (by cbv)
  have hlaws := objectLaws_of_ofExpression ⟨none⟩ bareFile pairObject pairSchema hpair rfl
  have hsame := hlaws.merges ⟨⟨pairObject, hextend, hpair⟩, hextendFit⟩ ⟨⟨pairObject, hmerge, hpair⟩, hmergeFit⟩
    hother rfl
  exact ⟨hpair, rfl, hsame, by cbv⟩

end Laws

end RouteAtlas.Schema
