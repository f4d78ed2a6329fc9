import RouteAtlas.Route.Verb
import RouteAtlas.Syntax.SourceFile

/-!
# Listed methods

A file may list the request methods that it handles in an array of strings. The array may stand
behind casts, parentheses and names of variables of the same file.
-/

namespace RouteAtlas.FileRoutes

open Syntax

section Arrays

/-- The method that a string literal names. -/
def verbLiteral? (n : Node) : Option String :=
  n.stringValue?.bind Route.verb?

/-- Adds a text to a list that does not have it. -/
def addOnce
    (texts : List String)
    (t : String) :
    List String :=
  if texts.contains t then texts else texts ++ [t]

/-- The methods that the strings of an array name, each once, in order of first appearance. -/
def verbsOfArray (n : Node) : List String :=
  (n.namedChildren.filterMap verbLiteral?).foldl addOnce []

end Arrays

section Names

/-- What an expression stands for, names of variables of the file being replaced by their
initializers. No name is followed twice. The first argument bounds the number of names. -/
def followNames
    (file : SourceFile) :
    Nat → List String → Node → Option Node
  | 0, _, _ => none
  | n + 1, seen, expression =>
    let e := expression.unwrap
    if e.kind == .identifier then
      if seen.contains e.text then none
      else
        match (file.findVariable? e.text).bind Variable.value with
        | some value => followNames file n (e.text :: seen) value
        | none => none
    else some e

/-- The methods that an expression lists. -/
def verbsOf
    (file : SourceFile)
    (expression : Option Node) :
    List String :=
  match expression.bind (followNames file (file.boundVariables.length + 2) []) with
  | some e => if e.kind == .array then verbsOfArray e else []
  | none => []

/-- The methods that the exported variables named for them list. -/
def exportedVerbs (file : SourceFile) : List String :=
  (file.boundVariables.filter fun v => v.name == "methods" && v.exported && !v.destructured).foldl
    (fun acc v => (verbsOf file v.value).foldl addOnce acc) []

end Names

end RouteAtlas.FileRoutes
