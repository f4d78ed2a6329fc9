import RouteAtlas.FileRoutes.Evidence
import RouteAtlas.FileRoutes.PageMethods
import RouteAtlas.Schema.Interpret

/-!
# Facts about handlers

What is known and guessed about a handler: its length, the hints in its text, and an example body
from a validation schema that it uses. Schemas are looked for among the variables of the handler
first, and then among the objects of calls that validate.
-/

namespace RouteAtlas.FileRoutes

open Syntax
open Project (Scope)

/-- What is known and guessed about a handler. -/
structure Analysis where
  lines : Nat
  usesDatabase : Bool
  handlesErrors : Bool
  validates : Bool
  headers : List (String × String)
  query : List (String × String)
  body : Option String
  deriving Repr, Inhabited

namespace Analysis

section Bodies

/-- Whether a text speaks of a schema. -/
def namesSchema (s : String) : Bool :=
  (Text.Pattern.word "schema").occursInAnyCase s

/-- The schema that a variable of a handler may hold. -/
def schemaOfVariable? (n : Node) : Option Node :=
  if n.kind == .variableDeclarator then
    match n.child? .name, n.child? .value with
    | some name, some value =>
      if namesSchema name.text || Text.startsWith value.text "z." ||
          Text.contains value.text "z.object" then some value
      else none
    | _, _ => none
  else none

/-- The names of the functions of a schema that validate. -/
def validatingNames : List String :=
  ["parse", "safeParse", "parseAsync", "safeParseAsync"]

/-- The schema by which a call may validate. -/
def schemaOfCall? (n : Node) : Option Node :=
  if n.kind == .callExpression then
    match n.child? .function with
    | some f =>
      if f.kind == .memberExpression && validatingNames.contains f.propertyText then
        (f.child? .object).filter fun o => Text.contains o.text "z." || namesSchema o.text
      else none
    | none => none
  else none

/-- The first example body that is not empty, among those of some schemas. -/
def firstBody
    (scope : Scope)
    (file : SourceFile) :
    List Node → Except Fault (Option String)
  | [] => .ok none
  | e :: rest => do
    let body ← Schema.bodyOfExpression scope file (some e)
    if body.isEmpty || body == "\x7b\x7d" then firstBody scope file rest else return some body

/-- The example body of a handler. -/
def bodyOf
    (scope : Scope)
    (file : SourceFile)
    (handler : Node) :
    Except Fault (Option String) :=
  let below := handler.descendants fun d =>
    d.kind == .variableDeclarator || d.kind == .callExpression
  firstBody scope file (below.filterMap schemaOfVariable? ++ below.filterMap schemaOfCall?)

end Bodies

/-- What is known and guessed about a handler of a file. -/
def ofHandler
    (scope : Scope)
    (file : SourceFile)
    (handler : Node) :
    Except Fault Analysis := do
  let text := handler.text
  let body ← bodyOf scope file handler
  return {
    lines := handlerLines handler
    usesDatabase := Evidence.database.occursIn text
    handlesErrors := Evidence.errorHandling.occursIn text
    validates := Evidence.validation.occursInAnyCase text
    headers := Evidence.headers text
    query := Evidence.query text
    body := body }

end Analysis

end RouteAtlas.FileRoutes
