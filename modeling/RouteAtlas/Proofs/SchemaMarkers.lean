import Mathlib
import RouteAtlas.Proofs.Markers
import RouteAtlas.Proofs.PlainPaths
import RouteAtlas.Proofs.SchemaChains

/-!
# Schemas with markers

A schema may hold whatever reading an expression gives: a default, a literal, the options of an enumeration.
Here it is read and rendered with both markers among the values, and each check for one of them is made where
the value is taken up. What is read that way is the schema that is read without markers, so what is rendered
is its example, or the marker for what is left out.
-/

namespace RouteAtlas

/-- What is known about the values that a schema accepts, with markers among them. -/
structure MarkedSchema where
  kind : SchemaKind
  optional : Bool
  nullable : Bool
  default : Option Marked
  literal : Marked
  options : List Marked
  children : Option (List (String × MarkedSchema))
  items : Option MarkedSchema
  reason : Option String

namespace MarkedSchema

open Syntax Project

section Rendering

/-- The marker or the example of a schema, given what is rendered for its items and for its entries. -/
def renderWith
    (s : MarkedSchema)
    (item : Option Marked)
    (entries : List (String × Marked)) :
    Marked :=
  match s.default with
  | some m => m
  | none =>
    if s.nullable then .ofValue .null
    else if s.optional then .absent
    else
      match s.kind with
      | .string => .ofValue (.str "")
      | .number => .ofValue (.int 0)
      | .boolean => .ofValue (.bool false)
      | .array => .list (item.toList.filter fun m => !m.isAbsent)
      | .object => .map (entries.filter fun e => !e.2.isAbsent)
      | .enum => s.options.headD (.ofValue .null)
      | .literal => s.literal
      | .other _ => .ofValue .null

mutual

/-- The marker or the example of a schema. -/
def render : MarkedSchema → Marked
  | ⟨kind, optional, nullable, default, literal, options, children, items, reason⟩ =>
    renderWith ⟨kind, optional, nullable, default, literal, options, children, items, reason⟩
      (renderItems items) (renderChildren children)

/-- What is rendered for the items of a list. -/
def renderItems : Option MarkedSchema → Option Marked
  | none => none
  | some s => some (render s)

/-- What is rendered for the entries of a mapping. -/
def renderChildren : Option (List (String × MarkedSchema)) → List (String × Marked)
  | none => []
  | some children => renderEntries children

/-- What is rendered for entries, in their order. -/
def renderEntries : List (String × MarkedSchema) → List (String × Marked)
  | [] => []
  | (k, s) :: rest => (k, render s) :: renderEntries rest

end

end Rendering

section Making

/-- A schema of a kind about which nothing more is known. -/
def ofKind (kind : SchemaKind) : MarkedSchema :=
  ⟨kind, false, false, none, .ofValue .null, [], none, none, none⟩

/-- A schema that is not understood, for a reason. -/
def unknown (reason : String) : MarkedSchema :=
  { ofKind (.other "unknown") with reason := some reason }

/-- A schema after a method that says what else is accepted. A default that is not literal is passed over. -/
def modified
    (s : MarkedSchema)
    (method : String)
    (args : List Node) :
    MarkedSchema :=
  match method with
  | "optional" => { s with optional := true }
  | "nullable" => { s with nullable := true }
  | "nullish" => { s with optional := true, nullable := true }
  | _ =>
    match args with
    | [] => s
    | a :: _ => if a.markedValue.isNotLiteral then s else { s with default := some a.markedValue }

/-- Whether this may be an option of an enumeration. -/
def isOption : Marked → Bool
  | .scalar v => Schema.isOption v
  | _ => false

/-- The options that an argument lists. -/
def listedOptions (arg : Option Node) : List Marked :=
  match arg.elim .notLiteral Node.markedValue with
  | .list items => items.filter isOption
  | _ => []

/-- The number of the next member of an enumeration, after one with a value. -/
def numberAfter
    (next : Int) :
    Marked → Int
  | .scalar ⟨.int i, _⟩ => i + 1
  | .scalar ⟨.bool b, _⟩ => if b then 2 else 1
  | _ => next

/-- The values of the members of an enumeration. A member whose value is not literal is passed over. -/
def memberValues : Int → List Node → List Marked
  | _, [] => []
  | next, m :: rest =>
    match m.kind with
    | .enumAssignment =>
      let value := (m.child? .value).elim .notLiteral Node.markedLiteral
      if value.isNotLiteral then memberValues next rest
      else value :: memberValues (numberAfter next value) rest
    | .propertyIdentifier | .string => .ofValue (.int next) :: memberValues (next + 1) rest
    | _ => memberValues next rest

/-- The values of the enumeration that an argument names. -/
def enumerationValues
    (scope : Scope)
    (file : SourceFile)
    (arg : Option Node) :
    Except Fault (List Marked) :=
  match arg.map Node.unwrap with
  | none => .ok []
  | some e =>
    if e.kind == .identifier then do
      match ← scope.type e.text file with
      | .error _ => return []
      | .ok found =>
        if found.node.kind == .enumDeclaration then
          return memberValues 0 (((found.node.child? .body).map Node.namedChildren).getD [])
        else return []
    else .ok []

/-- A literal as a part of a schema: null where the expression is not literal. -/
def literalOf (arg : Option Node) : Marked :=
  let value := arg.elim .notLiteral Node.markedLiteral
  if value.isNotLiteral then .ofValue .null else value

end Making

section Reading

/-- How an expression in a file is read as a schema, while some names are being resolved. -/
abbrev Reading : Type :=
  Option Node → SourceFile → List (Files.Path × String) → Except Fault MarkedSchema

/-- The entries of an object expression as schemas. -/
def shape
    (read : Reading)
    (file : SourceFile)
    (open_ : List (Files.Path × String))
    (arg : Option Node) :
    Except Fault (List (String × MarkedSchema)) := do
  let entries ← ((arg.map Node.properties).getD []).mapM fun p => do
    let s ← read (some p.value) file open_
    return (p.name, s)
  return ofPairs entries

/-- The first option of a union, whose options are the last argument. -/
def firstOption? (args : List Node) : Option Node :=
  match args.getLast?.map Node.unwrap with
  | some e =>
    match e.kind, e.namedChildren with
    | .array, first :: _ => some first
    | _, _ => none
  | none => none

/-- A schema that a constructor makes of another schema, by saying what else is accepted. -/
def wrapped
    (read : Reading)
    (file : SourceFile)
    (open_ : List (Files.Path × String))
    (name : String)
    (args : List Node) :
    Except Fault MarkedSchema :=
  match name, args with
  | "optional", a :: _ => do return { ← read (some a) file open_ with optional := true }
  | "nullable", a :: _ => do return { ← read (some a) file open_ with nullable := true }
  | _, _ => .ok (unknown ("unsupported base type " ++ name))

/-- A schema that a constructor of the library makes. -/
def constructed
    (read : Reading)
    (scope : Scope)
    (file : SourceFile)
    (open_ : List (Files.Path × String))
    (name : String)
    (args : List Node) :
    Except Fault MarkedSchema :=
  match entryOf? name Schema.primitives with
  | some kind => .ok (ofKind kind)
  | none =>
    match name with
    | "array" =>
      match args with
      | [] => .ok (ofKind .array)
      | a :: _ => do return { ofKind .array with items := some (← read (some a) file open_) }
    | "object" | "strictObject" | "looseObject" => do
      return { ofKind .object with children := some (← shape read file open_ args.head?) }
    | "enum" => .ok { ofKind .enum with options := listedOptions args.head? }
    | "nativeEnum" => do
      return { ofKind .enum with options := ← enumerationValues scope file args.head? }
    | "literal" => .ok { ofKind .literal with literal := literalOf args.head? }
    | "union" | "discriminatedUnion" =>
      match firstOption? args with
      | some first => read (some first) file open_
      | none => .ok (unknown "union without static options")
    | "record" => .ok { ofKind .object with children := some [] }
    | "lazy" => .ok (unknown "lazy schemas are not expanded")
    | _ => wrapped read file open_ name args

/-- An object schema after one of its methods; a method that is none of them changes nothing. -/
def reshaped
    (read : Reading)
    (file : SourceFile)
    (open_ : List (Files.Path × String))
    (s : MarkedSchema)
    (method : String)
    (args : List Node) :
    Except Fault MarkedSchema :=
  let children := s.children.getD []
  let withChildren (cs : List (String × MarkedSchema)) : MarkedSchema := { s with children := some cs }
  match method, args with
  | "partial", _ =>
    .ok (withChildren (children.map fun c => (c.1, { c.2 with optional := true })))
  | "required", _ =>
    .ok (withChildren (children.map fun c => (c.1, { c.2 with optional := false })))
  | "extend", a :: _ => do
    let more ← shape read file open_ (some a)
    return withChildren (more.foldl (fun acc c => putEntry c.1 c.2 acc) children)
  | "merge", a :: _ => do
    let other ← read (some a) file open_
    return withChildren ((other.children.getD []).foldl (fun acc c => putEntry c.1 c.2 acc) children)
  | "pick", a :: _ =>
    let keys := a.properties.map Node.Property.name
    .ok (withChildren (children.filter fun c => keys.contains c.1))
  | "omit", a :: _ =>
    let keys := a.properties.map Node.Property.name
    .ok (withChildren (children.filter fun c => !keys.contains c.1))
  | _, _ => .ok s

/-- A schema after a method of its chain. Refinements of other schemas than objects change nothing. -/
def applied
    (read : Reading)
    (file : SourceFile)
    (open_ : List (Files.Path × String))
    (s : MarkedSchema)
    (method : String)
    (args : List Node) :
    Except Fault MarkedSchema :=
  if Schema.modifiers.contains method then .ok (modified s method args)
  else if method == "array" then .ok { ofKind .array with items := some s }
  else if s.kind == .object then reshaped read file open_ s method args
  else .ok s

/-- A schema that a name stands for. -/
def named
    (read : Reading)
    (scope : Scope)
    (file : SourceFile)
    (open_ : List (Files.Path × String))
    (name : String) :
    Except Fault MarkedSchema :=
  let key := (file.path, name)
  if open_.contains key then .ok (unknown ("recursive schema reference " ++ name))
  else do
    match ← scope.value name file with
    | .error _ => return unknown ("unresolved identifier " ++ name)
    | .ok found => read (some found.node) found.file (key :: open_)

/-- A schema that a call makes. -/
def called
    (read : Reading)
    (scope : Scope)
    (file : SourceFile)
    (open_ : List (Files.Path × String))
    (call : Node) :
    Except Fault MarkedSchema :=
  let function := (call.child? .function).map Node.unwrap
  let args := call.callArguments
  match function with
  | none => .ok (unknown "unsupported call ")
  | some f =>
    if f.kind == .memberExpression then
      let method := f.propertyText
      let base := (f.child? .object).map Node.unwrap
      if (base.map (Schema.isLibrary file)).getD false then
        constructed read scope file open_ method args
      else do
        let s ← read base file open_
        applied read file open_ s method args
    else .ok (unknown ("unsupported call " ++ f.text))

/-- The schema that an expression stands for, nested no deeper than the first argument says. -/
def readUpTo
    (scope : Scope) :
    Nat → Reading
  | 0 => fun e _ _ =>
    match e with
    | none => .ok (unknown "empty expression")
    | some _ => .ok (unknown "schema nesting too deep")
  | depth + 1 => fun e file open_ =>
    match e.map Node.unwrap with
    | none => .ok (unknown "empty expression")
    | some e =>
      match e.kind with
      | .identifier | .shorthandPropertyIdentifier =>
        named (readUpTo scope depth) scope file open_ e.text
      | .callExpression => called (readUpTo scope depth) scope file open_ e
      | .memberExpression => .ok (unknown ("unsupported schema reference " ++ e.text))
      | kind => .ok (unknown ("unsupported schema expression " ++ kind.name))

/-- The schema that an expression of a file stands for. -/
def ofExpression
    (scope : Scope)
    (file : SourceFile)
    (e : Option Node) :
    Except Fault MarkedSchema :=
  readUpTo scope Schema.maxNesting e file []

end Reading

section Embedding

mutual

/-- A schema as it is, without markers. -/
def ofSchema : Schema → MarkedSchema
  | ⟨kind, optional, nullable, default, literal, options, children, items, reason⟩ =>
    ⟨kind, optional, nullable, default.map .ofValue, .ofValue literal, options.map .ofValue,
      ofChildren children, ofItems items, reason⟩

/-- The schema of the items of a list as it is. -/
def ofItems : Option Schema → Option MarkedSchema
  | none => none
  | some s => some (ofSchema s)

/-- The schemas of the entries of a mapping as they are. -/
def ofChildren : Option (List (String × Schema)) → Option (List (String × MarkedSchema))
  | none => none
  | some children => some (ofEntries children)

/-- The schemas of entries as they are. -/
def ofEntries : List (String × Schema) → List (String × MarkedSchema)
  | [] => []
  | (k, s) :: rest => (k, ofSchema s) :: ofEntries rest

end

variable {s : Schema}

theorem ofEntries_eq (children : List (String × Schema)) :
    ofEntries children = children.map fun c => (c.1, ofSchema c.2) := by
  induction children with
  | nil => rfl
  | cons c rest ih => rw [ofEntries, ih, List.map_cons]

theorem ofSchema_withOptional
    (s : Schema)
    (optional : Bool) :
    ofSchema { s with optional := optional } = { ofSchema s with optional := optional } := by
  cases s
  rfl

theorem ofSchema_withNullable
    (s : Schema)
    (nullable : Bool) :
    ofSchema { s with nullable := nullable } = { ofSchema s with nullable := nullable } := by
  cases s
  rfl

theorem ofSchema_withChildren
    (s : Schema)
    (children : List (String × Schema)) :
    ofSchema { s with children := some children } =
      { ofSchema s with children := some (children.map fun c => (c.1, ofSchema c.2)) } := by
  cases s
  rw [← ofEntries_eq]
  rfl

theorem children_ofSchema (s : Schema) :
    (ofSchema s).children.getD [] = (s.children.getD []).map fun c => (c.1, ofSchema c.2) := by
  obtain ⟨kind, optional, nullable, default, literal, options, children, items, reason⟩ := s
  cases children with
  | none => rfl
  | some children => exact ofEntries_eq children

theorem foldl_putEntry_map
    (more children : List (String × Schema)) :
    (more.map fun c => (c.1, ofSchema c.2)).foldl (fun acc c => putEntry c.1 c.2 acc)
        (children.map fun c => (c.1, ofSchema c.2)) =
      (more.foldl (fun acc c => putEntry c.1 c.2 acc) children).map fun c => (c.1, ofSchema c.2) := by
  induction more generalizing children with
  | nil => rfl
  | cons c rest ih =>
    rw [List.map_cons, List.foldl_cons, List.foldl_cons, ← ih]
    exact congrArg (List.foldl _ · _) (putEntry_map ofSchema c.1 c.2 children)

theorem ofSchema_objectOf (children : List (String × Schema)) :
    ofSchema (Schema.objectOf children) =
      { ofKind .object with children := some (children.map fun c => (c.1, ofSchema c.2)) } := by
  rw [← ofEntries_eq]
  rfl

mutual

/-- What is rendered for a schema without markers is its example, or the marker for what is left out. -/
theorem render_ofSchema : ∀ s : Schema, (ofSchema s).render = .orAbsent s.example?
  | ⟨kind, optional, nullable, default, literal, options, children, items, reason⟩ => by
    have hlist : ((renderItems (ofItems items)).toList.filter fun m => !m.isAbsent) =
        (items.bind Schema.example?).toList.map .ofValue := by
      rw [renderItems_ofItems items]
      rcases items with _ | s
      · rfl
      · cases hs : s.example? <;> simp [hs]
    have hmap : ((renderChildren (ofChildren children)).filter fun e => !e.2.isAbsent) =
        ((children.getD []).filterMap fun c => c.2.example?.map fun v => (c.1, v)).map
          fun e => (e.1, .ofValue e.2) := by
      rw [renderChildren_ofChildren children]
      exact Marked.filter_map_entry_orAbsent Prod.fst (fun c => c.2.example?) (children.getD [])
    rw [ofSchema, render, Schema.example?_eq]
    cases default with
    | some v => rfl
    | none =>
      cases nullable
      · cases optional
        · cases kind with
          | array => simp [renderWith, Schema.placeholder, hlist]
          | object => simp [renderWith, Schema.placeholder, hmap]
          | enum => cases options <;> rfl
          | _ => rfl
        · rfl
      · rfl

theorem renderItems_ofItems : ∀ items : Option Schema,
    renderItems (ofItems items) = items.map fun s => .orAbsent s.example?
  | none => rfl
  | some s => congrArg some (render_ofSchema s)

theorem renderChildren_ofChildren : ∀ children : Option (List (String × Schema)),
    renderChildren (ofChildren children) = (children.getD []).map fun c => (c.1, .orAbsent c.2.example?)
  | none => rfl
  | some children => renderEntries_ofEntries children

theorem renderEntries_ofEntries : ∀ children : List (String × Schema),
    renderEntries (ofEntries children) = children.map fun c => (c.1, .orAbsent c.2.example?)
  | [] => rfl
  | (k, s) :: rest => by
    rw [ofEntries, renderEntries, render_ofSchema s, renderEntries_ofEntries rest]
    rfl

end

end Embedding

section Agreement

section Values

theorem isOption_ofValue (v : Value) : isOption (.ofValue v) = Schema.isOption v := by
  cases v <;> rfl

theorem listedOptions_eq (arg : Option Node) :
    listedOptions arg = (Schema.listedOptions arg).map .ofValue := by
  have hvalue : arg.elim .notLiteral Node.markedValue = .orNotLiteral (arg.bind Node.staticValue?) := by
    cases arg with
    | none => rfl
    | some n => exact n.markedValue_eq
  rw [listedOptions, Schema.listedOptions, hvalue]
  rcases arg.bind Node.staticValue? with _ | v
  · rfl
  rw [Marked.orNotLiteral, Option.elim_some]
  cases v with
  | list items => simp [List.filter_map, Function.comp_def, isOption_ofValue]
  | map entries => simp
  | _ => rfl

theorem memberValues_eq
    (next : Int)
    (members : List Node) :
    memberValues next members = (Schema.memberValues next members).map .ofValue := by
  induction members generalizing next with
  | nil => rfl
  | cons m rest ih =>
    have hvalue : (m.child? .value).elim .notLiteral Node.markedLiteral =
        .orNotLiteral ((m.child? .value).bind Node.literalValue?) := by
      cases m.child? .value <;> rfl
    rw [memberValues, Schema.memberValues]
    generalize m.kind = kind
    cases kind with
    | enumAssignment =>
      dsimp only
      rw [hvalue]
      rcases (m.child? .value).bind Node.literalValue? with _ | v
      · exact ih next
      · cases v <;> simp [Marked.orNotLiteral, Marked.isNotLiteral, Marked.ofValue, numberAfter, ih]
    | propertyIdentifier => simp only [ih, List.map_cons]
    | string => simp only [ih, List.map_cons]
    | _ => exact ih next

theorem mirrors_enumerationValues
    (scope : Scope)
    (file : SourceFile)
    (arg : Option Node) :
    Mirrors (List.map .ofValue) (Schema.enumerationValues scope file arg)
      (enumerationValues scope file arg) := by
  rw [Schema.enumerationValues, enumerationValues]
  rcases arg.map Node.unwrap with _ | e
  · exact mirrors_ok rfl
  dsimp only
  split
  · refine mirrors_bind_left _ fun found => ?_
    rcases found with reason | found
    · exact mirrors_ok rfl
    · dsimp only
      split
      · exact mirrors_ok (memberValues_eq 0 _)
      · exact mirrors_ok rfl
  · exact mirrors_ok rfl

theorem literalOf_eq (arg : Option Node) :
    literalOf arg = .ofValue ((arg.bind Node.literalValue?).getD .null) := by
  rcases arg with _ | n
  · rfl
  rw [literalOf, Option.elim_some, Node.markedLiteral, Option.bind_some]
  rcases n.literalValue? with _ | v
  · rfl
  · simp [Marked.orNotLiteral]

theorem modified_ofSchema
    (s : Schema)
    (method : String)
    (args : List Node) :
    modified (ofSchema s) method args = ofSchema (Schema.modified s method args) := by
  unfold modified Schema.modified
  split
  · cases s
    rfl
  · cases s
    rfl
  · cases s
    rfl
  · next hoptional hnullable hnullish =>
    rcases args with _ | ⟨a, rest⟩
    · simp
    dsimp only [List.head?_cons, Option.bind_some]
    -- The check for the marker is the case split on the static value.
    rw [a.markedValue_eq, Marked.isNotLiteral_orNotLiteral]
    rcases a.staticValue? with _ | v
    · simp
    · cases s
      simp [ofSchema, Marked.orNotLiteral]

end Values

section Steps

variable {read : Schema.Reading} {read' : Reading} {scope : Scope} {file : SourceFile}
  {open_ : List (Files.Path × String)} {s : Schema} {name method : String} {args : List Node}

/-- Whether two ways to read expressions differ in nothing but that the one allows for markers. -/
def Agrees
    (read : Schema.Reading)
    (read' : Reading) :
    Prop :=
  ∀ e file open_, Mirrors ofSchema (read e file open_) (read' e file open_)

variable (h : Agrees read read')
include h

theorem mirrors_shape (arg : Option Node) :
    Mirrors (List.map fun c => (c.1, ofSchema c.2)) (Schema.shape read file open_ arg)
      (shape read' file open_ arg) := by
  have hentry : ∀ p : Node.Property, Mirrors (fun c : String × Schema => (c.1, ofSchema c.2))
      (do return (p.name, ← read (some p.value) file open_))
      (do return (p.name, ← read' (some p.value) file open_)) :=
    fun p => (h _ _ _).bind fun s => mirrors_ok rfl
  exact (mirrors_mapM hentry _).bind fun entries => mirrors_ok (ofPairs_map ofSchema entries)

theorem mirrors_union :
    Mirrors ofSchema
      (match args.getLast?.map Node.unwrap with
      | some e =>
        match e.kind, e.namedChildren with
        | .array, first :: _ => read (some first) file open_
        | _, _ => .ok (Schema.unknown "union without static options")
      | none => .ok (Schema.unknown "union without static options"))
      (match firstOption? args with
      | some first => read' (some first) file open_
      | none => .ok (unknown "union without static options")) := by
  rw [firstOption?]
  rcases args.getLast?.map Node.unwrap with _ | e
  · exact mirrors_ok rfl
  dsimp only
  split
  · exact h _ _ _
  · exact mirrors_ok rfl

theorem mirrors_wrapped :
    Mirrors ofSchema
      (match name, args with
      | "optional", a :: _ => do return { ← read (some a) file open_ with optional := true }
      | "nullable", a :: _ => do return { ← read (some a) file open_ with nullable := true }
      | _, _ => .ok (Schema.unknown ("unsupported base type " ++ name)))
      (wrapped read' file open_ name args) := by
  unfold wrapped
  split
  · exact (h _ _ _).bind fun s => mirrors_ok (ofSchema_withOptional s true).symm
  · exact (h _ _ _).bind fun s => mirrors_ok (ofSchema_withNullable s true).symm
  · exact mirrors_ok rfl

theorem mirrors_constructed :
    Mirrors ofSchema (Schema.constructed read scope file open_ name args)
      (constructed read' scope file open_ name args) := by
  unfold Schema.constructed constructed
  rcases entryOf? name Schema.primitives with _ | kind
  · dsimp only
    split
    · rcases args with _ | ⟨a, rest⟩
      · exact mirrors_ok rfl
      · exact (h _ _ _).bind fun s => mirrors_ok rfl
    · exact (mirrors_shape h _).bind fun cs => mirrors_ok (ofSchema_objectOf cs).symm
    · exact (mirrors_shape h _).bind fun cs => mirrors_ok (ofSchema_objectOf cs).symm
    · exact (mirrors_shape h _).bind fun cs => mirrors_ok (ofSchema_objectOf cs).symm
    · refine mirrors_ok ?_
      rw [listedOptions_eq]
      rfl
    · exact (mirrors_enumerationValues scope file _).bind fun vs => mirrors_ok rfl
    · refine mirrors_ok ?_
      rw [literalOf_eq]
      rfl
    · exact mirrors_union h
    · exact mirrors_union h
    · exact mirrors_ok rfl
    · exact mirrors_ok rfl
    · exact (mirrors_wrapped h).congr_right (by simp)
  · exact mirrors_ok rfl

theorem mirrors_reshaped :
    Mirrors ofSchema (Schema.reshaped read file open_ s method args)
      (reshaped read' file open_ (ofSchema s) method args) := by
  have hchildren := children_ofSchema s
  unfold Schema.reshaped reshaped
  dsimp only
  rw [hchildren]
  split
  · refine mirrors_ok ?_
    rw [ofSchema_withChildren]
    simp [ofSchema_withOptional]
  · refine mirrors_ok ?_
    rw [ofSchema_withChildren]
    simp [ofSchema_withOptional]
  · refine (mirrors_shape h _).bind fun more => mirrors_ok ?_
    rw [ofSchema_withChildren, foldl_putEntry_map]
  · refine (h _ _ _).bind fun other => mirrors_ok ?_
    rw [ofSchema_withChildren, children_ofSchema other, foldl_putEntry_map]
  · refine mirrors_ok ?_
    rw [ofSchema_withChildren]
    simp [List.filter_map, Function.comp_def]
  · refine mirrors_ok ?_
    rw [ofSchema_withChildren]
    simp [List.filter_map, Function.comp_def]
  · exact (mirrors_ok rfl).congr_right (by simp)

theorem mirrors_applied :
    Mirrors ofSchema (Schema.applied read file open_ s method args)
      (applied read' file open_ (ofSchema s) method args) := by
  have hkind : (ofSchema s).kind = s.kind := by
    cases s
    rfl
  unfold Schema.applied applied
  rw [hkind]
  split
  · exact mirrors_ok (modified_ofSchema s method args)
  split
  · exact mirrors_ok rfl
  split
  · exact mirrors_reshaped h
  · exact mirrors_ok rfl

theorem mirrors_named :
    Mirrors ofSchema (Schema.named read scope file open_ name) (named read' scope file open_ name) := by
  unfold Schema.named named
  dsimp only
  split
  · exact mirrors_ok rfl
  · refine mirrors_bind_left _ fun found => ?_
    rcases found with reason | found
    · exact mirrors_ok rfl
    · exact h _ _ _

theorem mirrors_called (call : Node) :
    Mirrors ofSchema (Schema.called read scope file open_ call) (called read' scope file open_ call) := by
  unfold Schema.called called
  dsimp only
  rcases (call.child? .function).map Node.unwrap with _ | f
  · exact mirrors_ok rfl
  dsimp only
  split
  · split
    · exact mirrors_constructed h
    · exact (h _ _ _).bind fun s => mirrors_applied h
  · exact mirrors_ok rfl

end Steps

theorem agrees_readUpTo
    (scope : Scope)
    (depth : Nat) :
    Agrees (Schema.readUpTo scope depth) (readUpTo scope depth) := by
  induction depth with
  | zero =>
    rintro (_ | e) file open_
    · exact mirrors_ok rfl
    · exact mirrors_ok rfl
  | succ depth ih =>
    intro e file open_
    rw [Schema.readUpTo, readUpTo]
    dsimp only
    rcases e.map Node.unwrap with _ | e
    · exact mirrors_ok rfl
    dsimp only
    -- Both sides branch on the kind alone, so it can be told apart from the expression.
    generalize e.kind = kind
    cases kind with
    | identifier => exact mirrors_named ih
    | shorthandPropertyIdentifier => exact mirrors_named ih
    | callExpression => exact mirrors_called ih e
    | _ => exact mirrors_ok rfl

/-- A schema is read with markers as it is read without. -/
theorem mirrors_ofExpression
    (scope : Scope)
    (file : SourceFile)
    (e : Option Node) :
    Mirrors ofSchema (Schema.ofExpression scope file e) (ofExpression scope file e) :=
  agrees_readUpTo scope Schema.maxNesting e file []

/-- What is rendered for an expression is the example of its schema, or the marker for what is left out. -/
theorem map_render_ofExpression
    (scope : Scope)
    (file : SourceFile)
    (e : Option Node) :
    (ofExpression scope file e).map render =
      (Schema.ofExpression scope file e).map fun s => .orAbsent s.example? := by
  rw [mirrors_ofExpression scope file e]
  cases Schema.ofExpression scope file e with
  | error f => rfl
  | ok s => exact congrArg Except.ok (render_ofSchema s)

/-- What is rendered for an expression can be printed as its body. -/
theorem body?_render
    {scope : Scope}
    {file : SourceFile}
    {e : Option Node}
    {s : MarkedSchema}
    (h : ofExpression scope file e = .ok s) :
    s.render.IsClean ∧ s.render.body? = some (Schema.bodyOfExpression scope file e) := by
  rw [mirrors_ofExpression scope file e] at h
  obtain ⟨s, hs, rfl⟩ := exists_of_map_eq_ok h
  rw [render_ofSchema, Schema.bodyOfExpression, hs]
  exact ⟨Marked.isClean_orAbsent _, Marked.body?_orAbsent _⟩

end Agreement

end MarkedSchema

end RouteAtlas
