import RouteAtlas.Json.Printer
import RouteAtlas.Route.Query

/-!
# Schemas

What is known about the values that a validation schema accepts: their kind, whether they may be
missing or null, a default, and the schemas of their parts. Every schema has an example: its default
if there is one, else null if that is accepted, else nothing at all if the value may be missing, and
otherwise the placeholder of its kind.
-/

namespace RouteAtlas

/-- The kind of values that a schema accepts. Dates and all kinds that are not understood have a name
only. -/
inductive SchemaKind where
  | string
  | number
  | boolean
  | array
  | object
  | enum
  | literal
  | other (name : String)
  deriving DecidableEq, Repr, Inhabited

namespace SchemaKind

/-- The written name of a kind. -/
def name : SchemaKind → String
  | string => "string"
  | number => "number"
  | boolean => "boolean"
  | array => "array"
  | object => "object"
  | enum => "enum"
  | literal => "literal"
  | other n => n

/-- The kind with a written name. -/
def ofName (n : String) : SchemaKind :=
  ([string, number, boolean, array, object, enum, literal].find? fun k => k.name == n).getD (other n)

/-- The kind of dates. -/
def date : SchemaKind :=
  other "date"

end SchemaKind

/-- What is known about the values that a schema accepts. -/
structure Schema where
  kind : SchemaKind
  optional : Bool
  nullable : Bool
  default : Option Value
  literal : Value
  options : List Value
  children : Option (List (String × Schema))
  items : Option Schema
  reason : Option String
  deriving Inhabited

namespace Schema

section Making

/-- A schema of a kind about which nothing more is known. -/
def ofKind (kind : SchemaKind) : Schema :=
  ⟨kind, false, false, none, .null, [], none, none, none⟩

/-- A schema that is not understood, for a reason. -/
def unknown (reason : String) : Schema :=
  { ofKind (.other "unknown") with reason := some reason }

/-- A list of values of a schema. -/
def arrayOf (items : Option Schema) : Schema :=
  { ofKind .array with items := items }

/-- A mapping with given entries. -/
def objectOf (children : List (String × Schema)) : Schema :=
  { ofKind .object with children := some children }

/-- One of several values. -/
def enumOf (options : List Value) : Schema :=
  { ofKind .enum with options := options }

/-- One value. -/
def literalOf (v : Value) : Schema :=
  { ofKind .literal with literal := v }

end Making

section Examples

/-- The example of a schema, given the example of its items and those of its entries. -/
def exampleWith
    (s : Schema)
    (item : Option Value)
    (entries : List (String × Value)) :
    Option Value :=
  match s.default with
  | some v => some v
  | none =>
    if s.nullable then some .null
    else if s.optional then none
    else
      match s.kind with
      | .string => some (.str "")
      | .number => some (.int 0)
      | .boolean => some (.bool false)
      | .array => some (.list item.toList)
      | .object => some (.map entries)
      | .enum => some (s.options.headD .null)
      | .literal => some s.literal
      | .other _ => some .null

mutual

/-- The example of a schema; there is none for a value that is left out. -/
def example? : Schema → Option Value
  | ⟨kind, optional, nullable, default, literal, options, children, items, reason⟩ =>
    exampleWith ⟨kind, optional, nullable, default, literal, options, children, items, reason⟩
      (exampleOfItems items) (exampleOfChildren children)

/-- The example of the items of a list. -/
def exampleOfItems : Option Schema → Option Value
  | none => none
  | some s => example? s

/-- The examples of the entries of a mapping. -/
def exampleOfChildren : Option (List (String × Schema)) → List (String × Value)
  | none => []
  | some children => exampleEntries children

/-- The examples of entries; an entry that is left out has none. -/
def exampleEntries : List (String × Schema) → List (String × Value)
  | [] => []
  | (k, s) :: rest =>
    match example? s with
    | some v => (k, v) :: exampleEntries rest
    | none => exampleEntries rest

end

end Examples

section Requests

/-- The example as the body of a request; a body without content is an empty mapping. -/
def bodyOf (v : Option Value) : Except Fault String :=
  match v with
  | some (.list (x :: xs)) => Json.body (.list (x :: xs))
  | some (.map (e :: es)) => Json.body (.map (e :: es))
  | _ => .ok "\x7b\x7d"

/-- The query parameters for the fields of an example. Lists and mappings are passed over, and null is an
empty text. -/
def queryOfFields : List (String × Value) → List (String × String)
  | [] => []
  | (_, .list _) :: rest | (_, .map _) :: rest => queryOfFields rest
  | (k, .null) :: rest => (k, "") :: queryOfFields rest
  | (k, .bool b) :: rest => (k, if b then "true" else "false") :: queryOfFields rest
  | (k, .int i) :: rest => (k, toString i) :: queryOfFields rest
  | (k, .float x) :: rest => (k, x.text) :: queryOfFields rest
  | (k, .str s) :: rest => (k, s) :: queryOfFields rest

/-- The query parameters that an example gives. -/
def queryOf (v : Option Value) : Except Fault (List (String × String)) :=
  match v with
  | some (.map entries) =>
    if Route.canQuery entries then .ok (queryOfFields entries) else .error .invalidValue
  | _ => .ok []

end Requests

end Schema

end RouteAtlas
