import RouteAtlas.Extraction
import RouteAtlas.FileRoutes.Analysis
import RouteAtlas.FileRoutes.Location

/-!
# Routes of the app directory

A route file exports a function for each method that it supports, under the name of the method, and
may list further methods. A function may be exported again from another file. Without a project
configuration the exports are looked for in the text alone.
-/

namespace RouteAtlas.FileRoutes.App

open Syntax
open Extraction (say relativePath)

/-- The framework of these routes. -/
def framework : Framework :=
  .appRouter

section Files

/-- Whether a file is a route of its own. -/
def accepts (path : String) : Extraction Bool := do
  if !isRouteFile path then
    return false
  else if isContentSystemPath path then
    say framework .debug ("Skipping Payload route " ++ path)
    return false
  else
    return true

/-- The path for which a file answers requests, as it is written and as a route pattern. -/
def pathsOf
    (s : Site)
    (file : Files.Path) :
    Extraction (String × String) := do
  let raw ← Extraction.derivedPath s file routePath
  return (raw, Route.normalizePath (Route.withParams raw))

end Files

section Exports

/-- Whether a node can be the function for a method. -/
def isHandlerNode (n : Node) : Bool :=
  match n.kind with
  | .functionDeclaration | .generatorFunctionDeclaration | .variableDeclarator => true
  | _ => false

/-- A function for a method, with the file that it stands in. -/
structure VerbHandler where
  verb : String
  node : Node
  file : SourceFile

/-- What an export stands for, with the file where that is. -/
def exported
    (project : Project)
    (file : SourceFile)
    (e : Export) :
    Extraction (Option (Node × SourceFile)) := do
  match e.moduleName.filter fun m => !m.isEmpty with
  | none => return e.node.map fun n => (n, file)
  | some m =>
    match ← Extraction.ofExcept (project.resolveModule m file.path) with
    | none =>
      say framework .debug ("Cannot follow re-export of " ++ e.name ++ " from " ++ m)
      return none
    | some target =>
      let name := (e.localName.filter fun n => !n.isEmpty).getD e.name
      return (target.localDeclaration? name).map fun n => (n, target)

/-- The functions that exports give to methods, the first one for each method. -/
def verbHandlers
    (project : Project)
    (file : SourceFile) :
    List VerbHandler → List Export → Extraction (List VerbHandler)
  | found, [] => return found
  | found, e :: rest => do
    if !Route.verbs.contains e.name || found.any fun h => h.verb == e.name then
      verbHandlers project file found rest
    else
      match ← exported project file e with
      | some (n, owner) =>
        let more := if isHandlerNode n then [⟨e.name, n, owner⟩] else []
        verbHandlers project file (found ++ more) rest
      | none => verbHandlers project file found rest

end Exports

section Structured

/-- The handler for one method of a file. -/
def handlerFor
    (project : Project)
    (file : SourceFile)
    (raw path : String)
    (functions : List VerbHandler)
    (verb : String) :
    Extraction Handler := do
  let (node, owner) :=
    match functions.find? fun h => h.verb == verb with
    | some h => (h.node, h.file)
    | none => (file.root, file)
  let facts ← Extraction.ofExcept (Analysis.ofHandler ⟨some project⟩ owner node)
  say framework .debug ("Found App Router " ++ verb ++ " handler at " ++ path ++ " (line " ++
    toString node.line ++ ")")
  return { Handler.at_ framework path verb file.path.toText with
    name := some (verb ++ " " ++ path)
    handlerName := some verb
    line := node.line
    lines := facts.lines
    segments := Route.dynamicSegments raw
    hasMiddleware := Evidence.hasMiddleware file.text
    isServerAction := Evidence.isServerAction file.text
    usesDatabase := facts.usesDatabase
    handlesErrors := facts.handlesErrors
    validates := facts.validates
    headers := facts.headers
    query := facts.query
    body := facts.body }

/-- The handlers of a file. -/
def ofFile
    (s : Site)
    (project : Project)
    (file : SourceFile) :
    Extraction (List Handler) := do
  let relative := relativePath s file.path
  if Evidence.servesProcedures file.text then
    say framework .debug ("Skipping tRPC handler " ++ relative)
    return []
  let (raw, path) ← pathsOf s file.path
  let functions ← verbHandlers project file [] file.exports
  let verbs := (exportedVerbs file).foldl addOnce (functions.map VerbHandler.verb)
  if verbs.isEmpty then
    say framework .debug ("No HTTP method exports in " ++ relative)
    return []
  verbs.mapM (handlerFor project file raw path functions)

/-- The handlers of the route files of a project. -/
def structured (s : Site) : Extraction (List Handler) := do
  let l ← Extraction.loader s
  Extraction.requireConfig s framework l
  let project ← Extraction.load l patterns
  let files ← Extraction.filterM accepts (fun f => relativePath s f.path) project.sourceFiles
  say framework .debug ("Found " ++ toString files.length ++ " App Router route files")
  Extraction.perFile s framework (ofFile s project) files

end Structured

section Textual

/-- The name of a method, as the first group. -/
def verbName : Text.Pattern :=
  .group 1 (.words Route.verbs)

/-- The export of a function for a method. -/
def functionExport : Text.Pattern :=
  .inOrder [.word "export", .some_ .blank, .optional (.seq (.word "async") (.some_ .blank)),
    .word "function", .some_ .blank, verbName, .boundary true]

/-- The export of a constant for a method. -/
def constantExport : Text.Pattern :=
  .inOrder [.word "export", .some_ .blank, .word "const", .some_ .blank, verbName, .many .blank,
    .ofClass (.ofText "=:")]

/-- The methods for which a text exports a function or a constant, in listing order. -/
def verbsOfText (text : String) : List String :=
  let found := (functionExport.allIn text ++ constantExport.allIn text).map fun m => m.group 1
  Route.verbs.filter found.contains

/-- The handlers of a file by its text alone. -/
def ofText
    (s : Site)
    (file : Files.Path) :
    Extraction (List Handler) := do
  let relative := relativePath s file
  match (← accepts relative), s.tree.content? file with
  | true, some content =>
    let text := Text.plainNewlines content.lenientText
    if Evidence.servesProcedures text then
      say framework .debug ("Skipping tRPC handler " ++ relative)
      return []
    let (raw, path) ← pathsOf s file
    return (verbsOfText text).map fun verb =>
      { Handler.at_ framework path verb file.toText with
        name := some (verb ++ " " ++ path)
        handlerName := some verb
        segments := Route.dynamicSegments raw
        headers := Evidence.headers text
        query := Evidence.query text }
  | _, _ => return []

/-- The handlers of the route files by their text alone. -/
def textual (s : Site) : Extraction (List Handler) := do
  let l ← Extraction.loader s
  let found ← (l.findFiles patterns).mapM (ofText s)
  let all := found.flatten
  say framework .debug ("Basic mode found " ++ toString all.length ++ " App Router handlers")
  return all

end Textual

/-- The handlers of the route files of a project. -/
def handlers (s : Site) : Extraction (List Handler) :=
  Extraction.handlers framework (structured s) (some (textual s))

end RouteAtlas.FileRoutes.App
