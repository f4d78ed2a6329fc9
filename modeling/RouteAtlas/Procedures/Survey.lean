import RouteAtlas.Extraction
import RouteAtlas.Procedures.Entry
import RouteAtlas.Router.Cycle

/-!
# The procedures of a project

All routers of a project with their procedures and mounts. When every file has been read, each
procedure is renamed to the path of its router.
-/

namespace RouteAtlas.Procedures

open Syntax
open Extraction (say relativePath)

/-- The framework of procedures. -/
def framework : Framework :=
  .trpc

/-- The procedures and routers that have been found. -/
structure Survey where
  procedures : List Procedure
  graph : Router.Graph
  deriving Inhabited

namespace Survey

section Adding

/-- Nothing has been found. -/
def empty : Survey :=
  ⟨[], .empty⟩

/-- The survey with an entry of a router. -/
def addEntry
    (s : Survey) :
    Entry → Survey
  | .reference m | .mount m => { s with graph := { s.graph with mounts := s.graph.mounts ++ [m] } }
  | .procedure p => { s with procedures := s.procedures ++ [p] }
  | .unresolved _ _ | .other _ => s

/-- The survey with a router. One whose reading ended by a fault is not declared. -/
def addRouter
    (s : Survey)
    (r : RouterReading) :
    Survey :=
  let s := r.entries.foldl addEntry s
  if r.fault.isSome then s
  else { s with graph := { s.graph with routers := s.graph.routers ++ [r.declaration] } }

/-- The survey with every router renamed to its path. -/
def withPaths (s : Survey) : Survey :=
  let paths := s.graph.resolvePaths
  ⟨s.procedures.map (Procedure.withPath paths), s.graph.withPaths paths⟩

end Adding

end Survey

section Messages

/-- What is said about an entry of a router that a variable holds. -/
def entryMessages
    (r : RouterReading) :
    Entry → List String
  | .reference m =>
    ["Property '" ++ m.property ++ "' in router '" ++ r.variableName ++ "' mounts " ++ m.target]
  | .mount _ => []
  | .procedure p =>
    ["Captured procedure '" ++ p.name ++ "' (" ++ p.kind.tag ++ ") in router '" ++ r.variableName ++
      "' at line " ++ toString p.line]
  | .unresolved property why =>
    ["Cannot resolve '" ++ property ++ "' in router '" ++ r.variableName ++ "': " ++ why.reason]
  | .other property =>
    ["Expression for '" ++ property ++ "' in router '" ++ r.declaration.name ++
      "' is not a query/mutation",
    "Skipping property '" ++ property ++ "' in router '" ++ r.variableName ++ "' (not a procedure)"]

/-- Whether an entry is a procedure. -/
def isProcedure : Entry → Bool
  | .procedure _ => true
  | _ => false

/-- What is said about a router. -/
def routerMessages (r : RouterReading) : List String :=
  r.entries.flatMap (entryMessages r) ++
    if r.fault.isSome then []
    else ["Found router '" ++ r.declaration.name ++ "' in " ++ r.declaration.filePath ++ " with " ++
      toString (r.entries.countP isProcedure) ++ " procedure(s)"]

end Messages

section Files

/-- The survey with what the routers of a file hold. What was found in a file before a fault stays. -/
def surveyFile
    (s : Site)
    (r : EntryReader)
    (before : Survey)
    (file : SourceFile) :
    Extraction Survey := do
  let calls := routerCalls r.recognition file
  if calls.isEmpty then
    say framework .debug ("No tRPC router found in " ++ relativePath s file.path)
  let routers := r.routersAmong file calls
  for m in routers.flatMap routerMessages do
    say framework .debug m
  match routers.findSome? RouterReading.fault with
  | some e => say framework .warning ("Skipping " ++ relativePath s file.path ++ ": " ++ e.text)
  | none => pure ()
  return routers.foldl Survey.addRouter before

/-- The project whose files some globs select. Globs may be of any type; those that are no texts are
a fault, which arises after those of the configuration. -/
def loadListed
    (l : Project.Loader)
    (globs : List Value) :
    Extraction Project := do
  match globs.mapM Value.str? with
  | some texts => Extraction.load l texts
  | none => do
    let _ ← Extraction.load l []
    throw .unexpectedType

/-- The procedures and routers of a project. -/
def survey
    (s : Site)
    (recognition : Recognition) :
    Extraction Survey := do
  let l ← Extraction.loader s
  Extraction.requireConfig s framework l
  let project ← loadListed l s.options.procedureFiles
  say framework .debug ("Found " ++ toString project.files.length ++ " source files under " ++
    s.root.toText)
  let r : EntryReader := ⟨recognition, ⟨some project⟩, relativePath s⟩
  let found ← project.sourceFiles.foldlM (surveyFile s r) .empty
  say framework .debug ("Found " ++ toString found.graph.routers.length ++ " routers, " ++
    toString found.graph.mounts.length ++ " mounts, " ++ toString found.procedures.length ++
    " procedures")
  for c in found.graph.cycles do
    say framework .warning ("Router mount cycle: " ++ Text.joinWith " -> " c)
  return found.withPaths

end Files

section Handlers

/-- The path under which a procedure is requested. -/
def requestPath
    (basePath : String)
    (p : Procedure) :
    String :=
  String.ofList (Text.dropLastWhile (· = '/') basePath.toList) ++ "/" ++ p.qualifiedName

/-- The handler that a procedure is. -/
def handlerOf
    (s : Site)
    (basePath : String)
    (p : Procedure) :
    Handler :=
  let path := requestPath basePath p
  let file := s.root.join (Files.Path.ofText p.filePath)
  { Handler.at_ framework path p.method file.toText with
    name := some (p.method ++ " " ++ path)
    handlerName := some p.qualifiedName
    line := p.line
    lines := p.resolverLines
    usesDatabase := p.usesDatabase
    handlesErrors := p.handlesErrors
    validates := p.hasInput
    hasSideEffects := p.hasSideEffects
    headers := p.headers
    body := p.body
    bodyToQuery := p.kind == .query
    origin := some ⟨p.router, p.name, p.kind.tag, p.visibility, p.hasOutput⟩ }

/-- The handlers of the procedures of a project. The base path may be of any type; one that is no
text is a fault as soon as there is a procedure. -/
def structured
    (s : Site)
    (recognition : Recognition) :
    Extraction (List Handler) := do
  let found ← survey s recognition
  match s.options.basePath, found.procedures with
  | _, [] => return []
  | .str basePath, ps => return ps.map (handlerOf s basePath)
  | _, _ => throw .unsupportedOperation

/-- The handlers of the procedures of a project. -/
def handlers
    (s : Site)
    (recognition : Recognition) :
    Extraction (List Handler) :=
  Extraction.handlers framework (structured s recognition) none

end Handlers

end RouteAtlas.Procedures
