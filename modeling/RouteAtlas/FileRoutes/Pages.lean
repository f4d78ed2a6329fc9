import RouteAtlas.Extraction
import RouteAtlas.FileRoutes.Analysis
import RouteAtlas.FileRoutes.Location

/-!
# Routes of the pages directory

A page answers requests through its handler, for the methods that the handler compares with, for
those that the file lists, or else for the one method by which pages are asked for. Without a project
configuration the comparisons are looked for in the text alone.
-/

namespace RouteAtlas.FileRoutes.Pages

open Syntax
open Extraction (say relativePath)

/-- The framework of these routes. -/
def framework : Framework :=
  .pagesRouter

/-- The method of a page that says nothing about methods. -/
def usualVerb : String :=
  "GET"

section Files

/-- Whether a file is a route of its own. -/
def accepts (path : String) : Extraction Bool := do
  if !isRouteFile path then
    return false
  else if isContentSystemPath path then
    say framework .debug ("Skipping Payload route " ++ path)
    return false
  else
    return true

/-- The path for which a file answers requests, as it is written and as a route pattern. -/
def pathsOf
    (s : Site)
    (file : Files.Path) :
    Extraction (String × String) := do
  let raw ← Extraction.derivedPath s file routePath
  return (raw, Route.normalizePath (Route.withParams raw))

/-- The given methods, or the usual one when there is none. -/
def orUsual (verbs : List String) : List String :=
  if verbs.isEmpty then [usualVerb] else verbs

end Files

section Structured

/-- The methods for which a handler of a file answers requests. -/
def verbsOfHandler
    (file : SourceFile)
    (h : PageHandler) :
    List String :=
  let compared :=
    match h with
    | .function n => comparedMethods n
    | .wholeFile => []
  orUsual ((exportedVerbs file).foldl addOnce compared)

/-- The handlers of a file. -/
def ofFile
    (s : Site)
    (project : Project)
    (file : SourceFile) :
    Extraction (List Handler) := do
  let relative := relativePath s file.path
  if Evidence.servesProcedures file.text then
    say framework .debug ("Skipping tRPC handler " ++ relative)
    return []
  match pageHandler? file with
  | none =>
    say framework .debug ("No default export handler in " ++ relative)
    return []
  | some h =>
    let node := h.node file
    let (raw, path) ← pathsOf s file.path
    let verbs := verbsOfHandler file h
    let facts ← Extraction.ofExcept (Analysis.ofHandler ⟨some project⟩ file node)
    say framework .debug
      ("Found Pages API route " ++ path ++ " [" ++ Text.joinWith ", " verbs ++ "]")
    return verbs.map fun verb =>
      { Handler.at_ framework path verb file.path.toText with
        name := some (verb ++ " " ++ path)
        handlerName := some "default"
        line := node.line
        lines := facts.lines
        segments := Route.dynamicSegments raw
        hasMiddleware := Evidence.hasMiddleware file.text
        usesDatabase := facts.usesDatabase
        handlesErrors := facts.handlesErrors
        validates := facts.validates
        headers := facts.headers
        query := facts.query
        body := facts.body }

/-- The handlers of the pages of a project. -/
def structured (s : Site) : Extraction (List Handler) := do
  let l ← Extraction.loader s
  Extraction.requireConfig s framework l
  let project ← Extraction.load l patterns
  let files ← Extraction.filterM accepts (fun f => relativePath s f.path) project.sourceFiles
  say framework .debug ("Found " ++ toString files.length ++ " Pages API files")
  Extraction.perFile s framework (ofFile s project) files

end Structured

section Textual

/-- A quoted method, as the first group. -/
def quotedVerb : Text.Pattern :=
  .inOrder [Evidence.quoteMark, .group 1 (.words Route.verbs), Evidence.quoteMark]

/-- The method of a request. -/
def requestMethod : Text.Pattern :=
  .inOrder [.word "req", .optional (.word "uest"), .word ".method"]

/-- A sign of equality. -/
def equality : Text.Pattern :=
  .inOrder [.many .blank, .word "==", .optional (.word "="), .many .blank]

/-- The ways in which a text compares with a method. -/
def comparisons : List Text.Pattern :=
  [.inOrder [requestMethod, equality, quotedVerb],
    .inOrder [quotedVerb, equality, requestMethod],
    .inOrder [.word "case", .some_ .blank, quotedVerb, .many .blank, .word ":"]]

/-- The methods with which a text compares, in listing order, or the usual one. -/
def verbsOfText (text : String) : List String :=
  let found := comparisons.flatMap fun p => (p.allIn text).map fun m => m.group 1
  orUsual (Route.verbs.filter found.contains)

/-- The handlers of a file by its text alone. -/
def ofText
    (s : Site)
    (file : Files.Path) :
    Extraction (List Handler) := do
  match (← accepts (relativePath s file)), s.tree.content? file with
  | true, some content =>
    let text := Text.plainNewlines content.lenientText
    if Evidence.servesProcedures text || !Text.contains text "export default" then
      return []
    let (raw, path) ← pathsOf s file
    return (verbsOfText text).map fun verb =>
      { Handler.at_ framework path verb file.toText with
        name := some (verb ++ " " ++ path)
        handlerName := some "default"
        segments := Route.dynamicSegments raw
        headers := Evidence.headers text
        query := Evidence.query text }
  | _, _ => return []

/-- The handlers of the pages by their text alone. -/
def textual (s : Site) : Extraction (List Handler) := do
  let l ← Extraction.loader s
  let found ← (l.findFiles patterns).mapM (ofText s)
  let all := found.flatten
  say framework .debug ("Basic mode found " ++ toString all.length ++ " Pages API handlers")
  return all

end Textual

/-- The handlers of the pages of a project. -/
def handlers (s : Site) : Extraction (List Handler) :=
  Extraction.handlers framework (structured s) (some (textual s))

end RouteAtlas.FileRoutes.Pages
