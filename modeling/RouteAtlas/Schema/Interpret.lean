import RouteAtlas.Project.Symbols
import RouteAtlas.Schema.Basic
import RouteAtlas.Syntax.Static

/-!
# Reading schemas

A schema is built in the source by a chain of calls: a constructor of the schema library, followed
by methods that modify or refine it. This module reads such chains. Names are looked up over one
import, a name that refers to itself is given up, and so is a chain that is nested too deep.
-/

namespace RouteAtlas

namespace Schema

open Syntax Project

section Namespaces

/-- The names under which a file knows the schema library. -/
def libraryNames (file : SourceFile) : List String :=
  "z" :: (file.imports.filter fun i =>
    i.moduleName == "zod" || Text.startsWith i.moduleName "zod/").flatMap fun i =>
      (i.named.filter fun n => n.2 == "z").map Prod.fst ++
        (i.namespaceName.filter fun n => !n.isEmpty).toList ++
        (i.defaultName.filter fun n => !n.isEmpty).toList

/-- Whether an expression is the schema library itself, or its part that converts. -/
def isLibrary
    (file : SourceFile)
    (e : Node) :
    Bool :=
  let names := libraryNames file
  match e.kind with
  | .identifier => names.contains e.text
  | .memberExpression =>
    match e.child? .object with
    | some o => o.kind == .identifier && names.contains o.text && e.propertyText == "coerce"
    | none => false
  | _ => false

end Namespaces

section Modifiers

/-- The kinds of values that have a constructor without parts. -/
def primitives : List (String × SchemaKind) :=
  [("string", .string), ("number", .number), ("bigint", .number), ("boolean", .boolean),
   ("date", .date)]

/-- A schema after a method that says what else is accepted. A default that is not static is passed
over. -/
def modified
    (s : Schema)
    (method : String)
    (args : List Node) :
    Schema :=
  match method with
  | "optional" => { s with optional := true }
  | "nullable" => { s with nullable := true }
  | "nullish" => { s with optional := true, nullable := true }
  | _ =>
    match args.head?.bind Node.staticValue? with
    | some v => { s with default := some v }
    | none => s

/-- The methods that say what else is accepted. -/
def modifiers : List String :=
  ["optional", "nullable", "nullish", "default"]

/-- Whether a static value may be an option of an enumeration. -/
def isOption : Value → Bool
  | .str _ | .int _ | .float _ | .bool _ => true
  | _ => false

/-- The options that an argument lists. -/
def listedOptions (arg : Option Node) : List Value :=
  match arg.bind Node.staticValue? with
  | some (.list items) => items.filter isOption
  | _ => []

/-- The values of the members of an enumeration. A member without a value has the next number. -/
def memberValues : Int → List Node → List Value
  | _, [] => []
  | next, m :: rest =>
    match m.kind with
    | .enumAssignment =>
      match (m.child? .value).bind Node.literalValue? with
      | none => memberValues next rest
      | some v =>
        let next :=
          match v with
          | .int i => i + 1
          | .bool b => if b then 2 else 1
          | _ => next
        v :: memberValues next rest
    | .propertyIdentifier | .string => .int next :: memberValues (next + 1) rest
    | _ => memberValues next rest

/-- The values of the enumeration that an argument names. -/
def enumerationValues
    (scope : Scope)
    (file : SourceFile)
    (arg : Option Node) :
    Except Fault (List Value) :=
  match arg.map Node.unwrap with
  | none => .ok []
  | some e =>
    if e.kind == .identifier then do
      match ← scope.type e.text file with
      | .error _ => return []
      | .ok found =>
        if found.node.kind == .enumDeclaration then
          return memberValues 0 (((found.node.child? .body).map Node.namedChildren).getD [])
        else return []
    else .ok []

end Modifiers

section Chains

/-- How an expression in a file is read as a schema, while some names are being resolved. -/
abbrev Reading : Type :=
  Option Node → SourceFile → List (Files.Path × String) → Except Fault Schema

/-- The entries of an object expression as schemas. -/
def shape
    (read : Reading)
    (file : SourceFile)
    (open_ : List (Files.Path × String))
    (arg : Option Node) :
    Except Fault (List (String × Schema)) := do
  let entries ← ((arg.map Node.properties).getD []).mapM fun p => do
    let s ← read (some p.value) file open_
    return (p.name, s)
  return ofPairs entries

/-- A schema that a constructor of the library makes. -/
def constructed
    (read : Reading)
    (scope : Scope)
    (file : SourceFile)
    (open_ : List (Files.Path × String))
    (name : String)
    (args : List Node) :
    Except Fault Schema :=
  match entryOf? name primitives with
  | some kind => .ok (ofKind kind)
  | none =>
    match name with
    | "array" =>
      match args with
      | [] => .ok (arrayOf none)
      | a :: _ => do return arrayOf (some (← read (some a) file open_))
    | "object" | "strictObject" | "looseObject" => do
      return objectOf (← shape read file open_ args.head?)
    | "enum" => .ok (enumOf (listedOptions args.head?))
    | "nativeEnum" => do return enumOf (← enumerationValues scope file args.head?)
    | "literal" => .ok (literalOf ((args.head?.bind Node.literalValue?).getD .null))
    | "union" | "discriminatedUnion" =>
      match args.getLast?.map Node.unwrap with
      | some e =>
        match e.kind, e.namedChildren with
        | .array, first :: _ => read (some first) file open_
        | _, _ => .ok (unknown "union without static options")
      | none => .ok (unknown "union without static options")
    | "record" => .ok (objectOf [])
    | "lazy" => .ok (unknown "lazy schemas are not expanded")
    | _ =>
      match name, args with
      | "optional", a :: _ => do return { ← read (some a) file open_ with optional := true }
      | "nullable", a :: _ => do return { ← read (some a) file open_ with nullable := true }
      | _, _ => .ok (unknown ("unsupported base type " ++ name))

/-- An object schema after one of its methods; a method that is none of them changes nothing. -/
def reshaped
    (read : Reading)
    (file : SourceFile)
    (open_ : List (Files.Path × String))
    (s : Schema)
    (method : String)
    (args : List Node) :
    Except Fault Schema :=
  let children := s.children.getD []
  let withChildren (cs : List (String × Schema)) : Schema := { s with children := some cs }
  match method, args with
  | "partial", _ =>
    .ok (withChildren (children.map fun c => (c.1, { c.2 with optional := true })))
  | "required", _ =>
    .ok (withChildren (children.map fun c => (c.1, { c.2 with optional := false })))
  | "extend", a :: _ => do
    let more ← shape read file open_ (some a)
    return withChildren (more.foldl (fun acc c => putEntry c.1 c.2 acc) children)
  | "merge", a :: _ => do
    let other ← read (some a) file open_
    return withChildren ((other.children.getD []).foldl (fun acc c => putEntry c.1 c.2 acc) children)
  | "pick", a :: _ =>
    let keys := a.properties.map Node.Property.name
    .ok (withChildren (children.filter fun c => keys.contains c.1))
  | "omit", a :: _ =>
    let keys := a.properties.map Node.Property.name
    .ok (withChildren (children.filter fun c => !keys.contains c.1))
  | _, _ => .ok s

/-- A schema after a method of its chain. Refinements of other schemas than objects change nothing. -/
def applied
    (read : Reading)
    (file : SourceFile)
    (open_ : List (Files.Path × String))
    (s : Schema)
    (method : String)
    (args : List Node) :
    Except Fault Schema :=
  if modifiers.contains method then .ok (modified s method args)
  else if method == "array" then .ok (arrayOf (some s))
  else if s.kind == .object then reshaped read file open_ s method args
  else .ok s

/-- A schema that a name stands for. -/
def named
    (read : Reading)
    (scope : Scope)
    (file : SourceFile)
    (open_ : List (Files.Path × String))
    (name : String) :
    Except Fault Schema :=
  let key := (file.path, name)
  if open_.contains key then .ok (unknown ("recursive schema reference " ++ name))
  else do
    match ← scope.value name file with
    | .error _ => return unknown ("unresolved identifier " ++ name)
    | .ok found => read (some found.node) found.file (key :: open_)

/-- A schema that a call makes. -/
def called
    (read : Reading)
    (scope : Scope)
    (file : SourceFile)
    (open_ : List (Files.Path × String))
    (call : Node) :
    Except Fault Schema :=
  let function := (call.child? .function).map Node.unwrap
  let args := call.callArguments
  match function with
  | none => .ok (unknown "unsupported call ")
  | some f =>
    if f.kind == .memberExpression then
      let method := f.propertyText
      let base := (f.child? .object).map Node.unwrap
      if (base.map (isLibrary file)).getD false then
        constructed read scope file open_ method args
      else do
        let s ← read base file open_
        applied read file open_ s method args
    else .ok (unknown ("unsupported call " ++ f.text))

/-- The schema that an expression stands for, nested no deeper than the first argument says. -/
def readUpTo
    (scope : Scope) :
    Nat → Reading
  | 0 => fun e _ _ =>
    match e with
    | none => .ok (unknown "empty expression")
    | some _ => .ok (unknown "schema nesting too deep")
  | depth + 1 => fun e file open_ =>
    match e.map Node.unwrap with
    | none => .ok (unknown "empty expression")
    | some e =>
      match e.kind with
      | .identifier | .shorthandPropertyIdentifier =>
        named (readUpTo scope depth) scope file open_ e.text
      | .callExpression => called (readUpTo scope depth) scope file open_ e
      | .memberExpression => .ok (unknown ("unsupported schema reference " ++ e.text))
      | kind => .ok (unknown ("unsupported schema expression " ++ kind.name))

/-- The number of levels that expressions may be nested in one another. -/
def maxNesting : Nat :=
  17

/-- The schema that an expression of a file stands for. -/
def ofExpression
    (scope : Scope)
    (file : SourceFile)
    (e : Option Node) :
    Except Fault Schema :=
  readUpTo scope maxNesting e file []

/-- The example body that an expression gives. -/
def bodyOfExpression
    (scope : Scope)
    (file : SourceFile)
    (e : Option Node) :
    Except Fault String := do
  let s ← ofExpression scope file e
  bodyOf s.example?

/-- The query parameters that an expression gives. -/
def queryOfExpression
    (scope : Scope)
    (file : SourceFile)
    (e : Option Node) :
    Except Fault (List (String × String)) := do
  let s ← ofExpression scope file e
  queryOf s.example?

end Chains

end Schema

end RouteAtlas
