import RouteAtlas.Project.Symbols
import RouteAtlas.Shape.Basic

/-!
# Reading type annotations

The shape of an annotation follows its syntax. A name is looked up as a type parameter, as one of the
utility types, and then among the declarations of its file and of the files that it imports from.
A name that comes again while it is being looked up in the same file stays unresolved, and so does
one at the end of too long a chain of declarations; so reading ends.
-/

namespace RouteAtlas

open Syntax
open Project (Scope)

namespace Shape

section Names

/-- Well-known classes of the platform, which are never read as objects. -/
def platformNames : List String :=
  ["Date", "Blob", "File", "Buffer", "ArrayBuffer", "Uint8Array", "ReadableStream",
    "WritableStream", "Readable", "Writable", "Stream", "RegExp", "Map", "WeakMap", "Set",
    "WeakSet", "FormData", "URLSearchParams", "Promise", "Request", "Response", "NextRequest",
    "NextResponse", "NextApiRequest", "NextApiResponse", "IncomingMessage", "ServerResponse",
    "FastifyRequest", "FastifyReply"]

/-- The longest chain of declarations that is followed. -/
def maxOpenNames : Nat :=
  24

/-- The names that are being looked up, each with the file in which it is used. -/
abbrev OpenNames : Type :=
  List (Files.Path × String)

/-- The last part of a dotted text. -/
def lastPart (t : String) : String :=
  (Text.split '.' t).getLastD ""

end Names

section Utilities

/-- The members of a choice, or the one shape. -/
def alternatives : Shape → List Shape
  | union _ ms => ms
  | s => [s]

/-- The names that a shape of literals selects. -/
def selectedNames (keys : Shape) : List String :=
  keys.alternatives.filterMap fun
    | literal _ ⟨.str s, _⟩ => some s
    | _ => none

/-- A shape without the members that have no value to speak of. -/
def nonNullable
    (t : String) :
    Shape → Shape
  | union _ ms => choice t (ms.filter fun m => !m.isNullish)
  | s => s

/-- An object all of whose fields are made optional or required, or left as they are. -/
def withOptional
    (t : String)
    (optional : Option Bool) :
    Shape → Shape
  | object u name fields => object t none (.adjusted optional (object u name fields))
  | s => s

/-- The shape of a utility type with arguments, when the name is that of one. -/
def ofUtility?
    (name t : String)
    (args : List Shape) :
    Option Shape :=
  match name, args with
  | "Array", [] | "ReadonlyArray", [] => some (array t anything)
  | "Array", a :: _ | "ReadonlyArray", a :: _ => some (array t a)
  | "Partial", a :: _ => some (a.withOptional t (some true))
  | "Required", a :: _ => some (a.withOptional t (some false))
  | "Readonly", a :: _ => some (a.withOptional t none)
  | "NonNullable", a :: _ => some (a.nonNullable t)
  | "Pick", [target, keys] => some (object t none (.selected true keys.selectedNames target))
  | "Omit", [target, keys] => some (object t none (.selected false keys.selectedNames target))
  | "Record", _ => some (object t (some "Record") .absent)
  | _, _ => none

/-- What type parameters stand for: the arguments in order, and then what their declaration says,
unread. -/
def bindParameters : List Node → List Shape → List (String × Shape)
  | [], _ => []
  | p :: rest, args =>
    let later := bindParameters rest args.tail
    match p.child? .name with
    | none => later
    | some name =>
      let shape :=
        match args with
        | a :: _ => a
        | [] =>
          match p.child? .value with
          | some d => unresolved d.text
          | none => anything
      (name.text, shape) :: later

/-- What the type parameters of a declaration stand for. -/
def boundBy
    (declaration : Node)
    (args : List Shape) :
    List (String × Shape) :=
  match declaration.child? .typeParameters with
  | some ps =>
    ofPairs (bindParameters (ps.namedChildren.filter fun c => c.kind == .typeParameter) args)
  | none => []

end Utilities

section Syntax

mutual

/-- The operands of a chain of one operator, chains within it being taken apart too. -/
def operandsOf (k : Kind) : Node → List Node
  | .mk k' r s t cs =>
    if k' == k then operandsAmong k cs
    else if k' == .token || k' == .comment then []
    else [.mk k' r s t cs]

/-- The operands in a list of children. -/
def operandsAmong (k : Kind) : List Node → List Node
  | [] => []
  | c :: rest => operandsOf k c ++ operandsAmong k rest

end

/-- The annotation of a member of a tuple; a rest has none. -/
def tupleMember? (c : Node) : Option Node :=
  match c.kind with
  | .restType => none
  | .optionalType | .requiredParameter | .optionalParameter =>
    match c.child? .type with
    | some a => some a
    | none => some (c.namedChildren.getLast?.getD c)
  | _ => some c

/-- The shape of a literal. -/
def ofLiteral (n : Node) : Shape :=
  match n.namedChildren with
  | [] => unresolved n.text
  | inner :: _ =>
    match inner.kind with
    | .trueWord => truth n.text true
    | .falseWord => truth n.text false
    | .nullWord => plain .null n.text
    | .undefinedWord => plain .undefined n.text
    | _ =>
      match h : inner.literalValue? with
      | some v => literal n.text ⟨v, Node.isScalar_of_literalValue? h⟩
      | none => unresolved n.text

/-- The shape of a qualified name: a member of an enumeration, or a class of the platform. -/
def ofQualifiedName
    (scope : Scope)
    (n : Node)
    (file : SourceFile) :
    Except Fault Shape := do
  let t := singleSpaced n.text
  let other := if platformNames.contains (lastPart t) then builtin t (lastPart t) else unresolved t
  match n.child? .container, n.child? .name with
  | some container, some name =>
    if container.kind == .identifier then
      match ← scope.type container.text file with
      | .ok found =>
        if found.node.kind == .enumDeclaration then
          let members := ofPairs (enumMembers found.node)
          return enumMember t name.text ((entryOf? name.text members).getD .null)
        else return other
      | .error _ => return other
    else return other
  | _, _ => return other

end Syntax

section Sizes

mutual

theorem countForest_operandsOf_le
    (k : Kind) :
    (n : Node) → Node.countForest (operandsOf k n) ≤ n.count
  | .mk k' r s t cs => by
    have := countForest_operandsAmong_le k cs
    unfold operandsOf
    split
    · simp [Node.count]; omega
    · split
      · simp [Node.countForest]
      · simp [Node.countForest, Node.count]

theorem countForest_operandsAmong_le
    (k : Kind) :
    (ns : List Node) → Node.countForest (operandsAmong k ns) ≤ Node.countForest ns
  | [] => by simp [operandsAmong, Node.countForest]
  | c :: rest => by
    have h₁ := countForest_operandsOf_le k c
    have h₂ := countForest_operandsAmong_le k rest
    simp [operandsAmong, Node.countForest, Node.countForest_append]
    omega

end

theorem count_le_of_tupleMember?
    {c m : Node}
    (h : tupleMember? c = some m) :
    m.count ≤ c.count := by
  have child {a : Node} (ha : c.child? .type = some a) : a.count ≤ c.count :=
    Nat.le_of_lt (Node.count_lt_of_child? ha)
  have last : (c.namedChildren.getLast?.getD c).count ≤ c.count := by
    cases hl : c.namedChildren.getLast? with
    | none => simp
    | some d =>
      have hd := Node.count_le_countForest (List.mem_of_getLast? hl)
      have := Node.countForest_namedChildren_lt c
      simp
      omega
  unfold tupleMember? at h
  split at h
  · simp at h
  all_goals first
    | (split at h
       · rename_i ha
         simp only [Option.some.injEq] at h
         exact h ▸ child ha
       · simp only [Option.some.injEq] at h
         exact h ▸ last)
    | (simp only [Option.some.injEq] at h
       exact h ▸ Nat.le_refl _)

theorem countForest_tupleMembers_le (ns : List Node) :
    Node.countForest (ns.filterMap tupleMember?) ≤ Node.countForest ns := by
  induction ns with
  | nil => simp
  | cons c rest ih =>
    cases h : tupleMember? c with
    | none =>
      simp [List.filterMap, h, Node.countForest]
      omega
    | some m =>
      have := count_le_of_tupleMember? h
      simp [List.filterMap, h, Node.countForest]
      omega

end Sizes

section Reading

mutual

/-- The shape of an annotation in a file, while some names are being looked up. -/
def ofNode
    (scope : Scope)
    (open_ : OpenNames)
    (file : SourceFile)
    (bound : List (String × Shape))
    (n : Node) :
    Except Fault Shape :=
  let t := singleSpaced n.text
  match n.kind with
  | .typeAscription | .optingTypeAscription | .readonlyType | .parenthesizedType =>
    match _h : n.parts with
    | [] => .ok anything
    | c :: _ => ofNode scope open_ file bound c
  | .predefinedType => .ok ((ofWord? n.text).getD (plain .unknown n.text))
  | .literalType => .ok (ofLiteral n)
  | .typeIdentifier | .identifier =>
    match ofWord? n.text, entryOf? n.text bound with
    | some s, none => .ok s
    | _, _ => ofName scope open_ file bound n.text n.text []
  | .nestedTypeIdentifier => ofQualifiedName scope n file
  | .genericType =>
    match n.child? .name with
    | none => .ok (unresolved t)
    | some name =>
      if name.kind == .nestedTypeIdentifier then ofQualifiedName scope name file
      else
        match _h : n.child? .typeArguments with
        | some args => ofName scope open_ file bound name.text t args.parts
        | none => ofName scope open_ file bound name.text t []
  | .arrayType =>
    match _h : n.parts with
    | [] => .ok (array t anything)
    | c :: _ => do return array t (← ofNode scope open_ file bound c)
  | .tupleType => do
    return tuple t (← ofNodes scope open_ file bound (n.parts.filterMap tupleMember?))
  | .unionType => do
    return choice t (← ofNodes scope open_ file bound (operandsAmong .unionType n.children))
  | .intersectionType => do
    let members ← ofNodes scope open_ file bound (operandsAmong .intersectionType n.children)
    return object t none (.merged members)
  | .objectType => .ok (object t none (.ofBody n file bound))
  | .templateLiteralType => .ok (plain .string t)
  | .functionType | .constructorType => .ok (plain .function t)
  | _ => .ok (unresolved t)
  termination_by (maxOpenNames + 2 - open_.length, 3 * n.count)
  decreasing_by
    all_goals apply Prod.Lex.right
    · have h₁ := Node.countForest_parts_lt n
      have h₂ := Node.count_le_countForest (show c ∈ n.parts by simp [_h])
      omega
    · have := Node.count_pos n
      simp [Node.countForest]
      omega
    · have h₁ := Node.count_lt_of_child? _h
      have h₂ := Node.countForest_parts_lt args
      omega
    · have := Node.count_pos n
      simp [Node.countForest]
      omega
    · have h₁ := Node.countForest_parts_lt n
      have h₂ := Node.count_le_countForest (show c ∈ n.parts by simp [_h])
      omega
    · have h₁ := Node.countForest_parts_lt n
      have h₂ := countForest_tupleMembers_le n.parts
      omega
    · have h₁ := countForest_operandsAmong_le .unionType n.children
      have h₂ := Node.countForest_children n
      omega
    · have h₁ := countForest_operandsAmong_le .intersectionType n.children
      have h₂ := Node.countForest_children n
      omega

/-- The shapes of a list of annotations. -/
def ofNodes
    (scope : Scope)
    (open_ : OpenNames)
    (file : SourceFile)
    (bound : List (String × Shape)) :
    List Node → Except Fault (List Shape)
  | [] => .ok []
  | n :: rest => do
    let s ← ofNode scope open_ file bound n
    let ss ← ofNodes scope open_ file bound rest
    return s :: ss
  termination_by ns => (maxOpenNames + 2 - open_.length, 3 * Node.countForest ns + 1)
  decreasing_by
    · apply Prod.Lex.right
      simp only [Node.countForest]
      omega
    · apply Prod.Lex.right
      have := Node.count_pos n
      simp only [Node.countForest]
      omega

/-- The shape that a name with arguments stands for, the whole being written as the given text. -/
def ofName
    (scope : Scope)
    (open_ : OpenNames)
    (file : SourceFile)
    (bound : List (String × Shape))
    (name t : String)
    (args : List Node) :
    Except Fault Shape :=
  match entryOf? name bound with
  | some s => .ok s
  | none => do
    let args ← ofNodes scope open_ file bound args
    match ofUtility? name t args with
    | some s => return s
    | none =>
      if _h : open_.contains (file.path, name) || decide (maxOpenNames < open_.length) then
        return unresolved t
      else
        match ← scope.type name file with
        | .error _ => return if platformNames.contains name then builtin t name else unresolved t
        | .ok found =>
          ofDeclaration scope ((file.path, name) :: open_) found.file found.node args t
  termination_by (maxOpenNames + 2 - open_.length, 3 * Node.countForest args + 2)
  decreasing_by
    · apply Prod.Lex.right
      omega
    · apply Prod.Lex.left
      simp at _h ⊢
      omega

/-- The shape that a declaration with arguments gives to the text by which it is used. -/
def ofDeclaration
    (scope : Scope)
    (open_ : OpenNames)
    (file : SourceFile)
    (declaration : Node)
    (args : List Shape)
    (t : String) :
    Except Fault Shape :=
  let bound := boundBy declaration args
  match declaration.kind with
  | .typeAliasDeclaration =>
    match _h : declaration.child? .value with
    | none => .ok anything
    | some v => do return (← ofNode scope open_ file bound v).renamed t
  | .interfaceDeclaration => .ok (object t none (.ofInterface declaration file bound))
  | .classDeclaration | .abstractClassDeclaration =>
    .ok (object t none (.ofClass declaration file))
  | .enumDeclaration => .ok (enumeration t (enumMembers declaration))
  | _ => .ok (unresolved t)
  termination_by (maxOpenNames + 2 - open_.length, 3 * declaration.count)
  decreasing_by
    apply Prod.Lex.right
    have := Node.count_lt_of_child? _h
    omega

end

end Reading

end Shape

end RouteAtlas
