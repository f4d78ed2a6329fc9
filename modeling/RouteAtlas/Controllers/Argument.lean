import RouteAtlas.Project.Symbols
import RouteAtlas.Shape.Basic

/-!
# Arguments of decorators

The texts, paths and versions that arguments of decorators stand for. A text may be written out, or
be named by a constant, by a member of an enumeration or by a property of an object; what is named
may be one import away. Paths and versions may be listed.
-/

namespace RouteAtlas.Controllers

open Syntax
open Project (Scope Found Missing)

section Texts

/-- The text that a property of an object holds which a name stands for, or the value of a member of
an enumeration of that name. -/
def textOfMember
    (scope : Scope)
    (file : SourceFile)
    (name member : String) :
    Except Fault (Option String) := do
  let ofObject : Except Fault (Option String) := do
    match ← scope.value name file with
    | .ok found => return (found.node.propertyValue? member).bind fun v => v.unwrap.stringValue?
    | .error _ => return none
  match ← scope.type name file with
  | .ok found =>
    if found.node.kind == .enumDeclaration then
      return (entryOf? member (ofPairs (enumMembers found.node))).bind Value.str?
    else ofObject
  | .error _ => ofObject

/-- The text that an expression stands for. -/
def textOf
    (scope : Scope)
    (file : SourceFile)
    (expression : Node) :
    Except Fault (Option String) := do
  let e := expression.unwrap
  match e.stringValue? with
  | some s => return some s
  | none =>
    match e.kind with
    | .identifier =>
      match ← scope.value e.text file with
      | .ok found => return found.node.unwrap.stringValue?
      | .error _ => return none
    | .memberExpression =>
      match (e.child? .object).map Node.unwrap with
      | some o =>
        if o.kind == .identifier then textOfMember scope file o.text e.propertyText else return none
      | none => return none
    | _ => return none

end Texts

section Lists

/-- The elements of an array. -/
def elementsOf (n : Node) : List Node :=
  if n.kind == .array then n.namedChildren else []

/-- The versions that an expression lists. The first argument bounds its nesting. -/
def versionsUpTo
    (scope : Scope)
    (file : SourceFile) :
    Nat → Node → Except Fault (List String)
  | 0, _ => .ok []
  | depth + 1, n => do
    let e := n.unwrap
    match ← textOf scope file e with
    | some s => return [s]
    | none => return (← (elementsOf e).mapM (versionsUpTo scope file depth)).flatten

/-- The versions that an expression lists. -/
def versionsOf
    (scope : Scope)
    (file : SourceFile)
    (n : Node) :
    Except Fault (List String) :=
  versionsUpTo scope file (n.count + 1) n

/-- The paths that an expression lists, or the empty path for what is no path. The first argument
bounds its nesting. -/
def pathsUpTo
    (scope : Scope)
    (file : SourceFile) :
    Nat → Node → Except Fault (List String)
  | 0, _ => .ok []
  | depth + 1, n => do
    let e := n.unwrap
    match ← textOf scope file e with
    | some s => return [s]
    | none =>
      match e.kind with
      | .array => return (← e.namedChildren.mapM (pathsUpTo scope file depth)).flatten
      | .object =>
        match e.propertyValue? "path" with
        | some p => pathsUpTo scope file depth p
        | none => return [""]
      | _ => return [""]

/-- The paths that an expression lists, or the empty path for what is no path. -/
def pathsOf
    (scope : Scope)
    (file : SourceFile)
    (n : Node) :
    Except Fault (List String) :=
  pathsUpTo scope file (n.count + 1) n

end Lists

end RouteAtlas.Controllers
