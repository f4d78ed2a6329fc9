import RouteAtlas.Controllers.Argument
import RouteAtlas.Json.Printer
import RouteAtlas.Route.Basic
import RouteAtlas.Shape.Example

/-!
# Requests to methods of controllers

The decorators of a method say which headers its answers carry, and those of its parameters say what
they take from a request. Examples of their types make up an example request: a parameter with a key
fills one entry, and one without a key the whole body or query.
-/

namespace RouteAtlas.Controllers

open Syntax
open Project (Scope)

section Decorators

/-- The first of some decorators with a name. -/
def decoratorNamed?
    (name : String)
    (decorators : List Node) :
    Option Node :=
  decorators.find? fun d => d.decoratorName? = some name

/-- What an argument of a decorator stands for. -/
def textArgument
    (scope : Scope)
    (file : SourceFile)
    (decorator : Node)
    (index : Nat) :
    Except Fault (Option String) :=
  match decorator.decoratorArguments[index]? with
  | some a => textOf scope file a
  | none => .ok none

/-- The headers that decorators set; both name and value have to be given. -/
def headersOf
    (scope : Scope)
    (file : SourceFile)
    (decorators : List Node) :
    Except Fault (List (String × String)) := do
  let set := decorators.filter fun d =>
    d.decoratorName? = some "Header" && 1 < d.decoratorArguments.length
  let given ← set.mapM fun d => do
    let name ← textArgument scope file d 0
    let value ← textArgument scope file d 1
    return (Route.filled? name).bind fun n => (Route.filled? value).map fun v => (n, v)
  return ofPairs (given.filterMap id)

end Decorators

section Parameters

/-- The example that a decorated parameter of a method gives. -/
structure Given where
  key : Option String
  example? : Option Value
  dataClass : DataClass

/-- How examples of parameters are made. -/
structure Examples where
  scope : Scope
  file : SourceFile
  maxDepth : Int

namespace Examples

/-- The example of a parameter and its class of data. -/
def ofParameter
    (e : Examples)
    (parameter : Node) :
    Except Fault (Option Value × DataClass) := do
  let shape ←
    match parameter.child? .type with
    | some t => Shape.ofNode e.scope [] e.file [] t
    | none => pure .anything
  return (← shape.example? e.scope e.maxDepth, shape.dataClass)

/-- What the parameters of a method that have a decorator of a name give. -/
def given
    (e : Examples)
    (decorator : String)
    (method : Node) :
    Except Fault (List Given) := do
  let found := method.parameters.filterMap fun p =>
    (decoratorNamed? decorator p.ownDecorators).map fun d => (p, d)
  found.mapM fun (p, d) => do
    let (v, c) ← e.ofParameter p
    return ⟨Route.filled? (← textArgument e.scope e.file d 0), v, c⟩

end Examples

end Parameters

section Bodies

/-- A body that is being made up: the entries of an object, if it is one, and a value that is the
body otherwise. -/
structure BodyDraft where
  entries : Option (List (String × Value))
  whole : Option Value

namespace BodyDraft

/-- The body with what a parameter gives. -/
def add
    (b : BodyDraft)
    (g : Given) :
    BodyDraft :=
  let entries := b.entries.getD []
  match g.key, g.example? with
  | _, none => b
  | some key, some v => { b with entries := some (putEntry key v entries) }
  | none, some v =>
    match v, g.dataClass with
    | .map (first :: rest), .object | .map (first :: rest), .unknown =>
      { b with entries := some ((first :: rest).foldl (fun acc e => putEntry e.1 e.2 acc) entries) }
    | v, .primitive | v, .array => { b with whole := some v }
    | _, _ => b

/-- The body as a text, if there is one. -/
def text? (b : BodyDraft) : Except Fault (Option String) :=
  match (b.entries.map Value.map).or b.whole with
  | some v => (Json.body v).map some
  | none => .ok none

end BodyDraft

/-- The body that parameters make up. -/
def bodyOf (given : List Given) : Except Fault (Option String) :=
  (given.foldl BodyDraft.add ⟨none, none⟩).text?

end Bodies

section Queries

/-- The entry of a query that a value gives under a name, if it gives one. -/
def queryEntry
    (name : String)
    (v : Value) :
    Except Fault (List (String × String)) :=
  if Route.canList v then .ok ((Route.listedText? v).map fun t => (name, t)).toList
  else .error .invalidValue

/-- The entries of a query that a parameter gives. -/
def queryEntries (g : Given) : Except Fault (List (String × String)) :=
  match g.key, g.example? with
  | some key, some v => queryEntry key v
  | none, some (.map entries) => do
    return (← entries.mapM fun e => queryEntry e.1 e.2).flatten
  | _, _ => .ok []

/-- The query that parameters make up. -/
def queryOf (given : List Given) : Except Fault (List (String × String)) := do
  return ofPairs (← given.mapM queryEntries).flatten

end Queries

end RouteAtlas.Controllers
