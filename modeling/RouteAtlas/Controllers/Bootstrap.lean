import RouteAtlas.Controllers.Argument
import RouteAtlas.Extraction

/-!
# Starting an application

The file that starts an application may set a prefix for all routes and the versions of controllers
that say nothing about versions. Of several such files the first one that sets something counts.
-/

namespace RouteAtlas.Controllers

open Syntax
open Project (Scope)
open Extraction (say)

/-- The framework of controllers. -/
def framework : Framework :=
  .nest

/-- What is set for all controllers. -/
structure Overall where
  pathPrefix : Option String
  versions : List String

namespace Overall

section Calls

/-- Nothing is set. -/
def unset : Overall :=
  ⟨none, []⟩

/-- Whether something is set for paths. -/
def isSet (o : Overall) : Bool :=
  (Route.filled? o.pathPrefix).isSome || !o.versions.isEmpty

/-- What is set after a call of a method. Only the first prefix and the first versions count. -/
def afterCall
    (scope : Scope)
    (file : SourceFile)
    (o : Overall)
    (call : Node) :
    Except Fault Overall := do
  let isMethod := ((call.child? .function).map fun f => f.unwrap.kind == .memberExpression).getD false
  match isMethod, call.calleeName?, call.callArguments with
  | true, some "setGlobalPrefix", first :: _ =>
    if o.pathPrefix.isNone then return { o with pathPrefix := ← textOf scope file first } else return o
  | true, some "enableVersioning", first :: _ =>
    match first.propertyValue? "defaultVersion" with
    | some v =>
      if o.versions.isEmpty then return { o with versions := ← versionsOf scope file v } else return o
    | none => return o
  | _, _, _ => return o

end Calls

section Files

/-- What is set after a file, which is the first one that sets anything. -/
def ofFile
    (scope : Scope)
    (file : SourceFile)
    (before : Overall) :
    Extraction Overall := do
  let o ← Extraction.ofExcept
    ((file.root.descendantsOf .callExpression).foldlM (afterCall scope file) before)
  match Route.filled? o.pathPrefix with
  | some p => say framework .debug ("Detected NestJS global prefix: " ++ p)
  | none => pure ()
  if !o.versions.isEmpty then
    say framework .debug
      ("Detected NestJS default version(s): " ++ Text.joinWith ", " o.versions)
  return o

/-- The file of a name in a project, if there is one. -/
def fileOf?
    (s : Site)
    (project : Project)
    (name : Value) :
    Except Fault (Option SourceFile) :=
  match name with
  | .str t =>
    let path := s.root.join (Files.Path.ofText t)
    .ok (if s.tree.isFile path then project.sourceFile? path else none)
  | _ => .error .unexpectedType

/-- What the files of given names set. -/
def ofFiles
    (s : Site)
    (project : Project) :
    Overall → List Value → Extraction Overall
  | before, [] => return before
  | before, name :: rest => do
    match ← Extraction.ofExcept (fileOf? s project name) with
    | none => ofFiles s project before rest
    | some file =>
      let o ← ofFile ⟨some project⟩ file before
      if o.isSet then return o else ofFiles s project o rest

end Files

end Overall

end RouteAtlas.Controllers
