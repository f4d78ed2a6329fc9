import RouteAtlas.Controllers.Bootstrap
import RouteAtlas.Controllers.Path
import RouteAtlas.Controllers.Request
import RouteAtlas.FileRoutes.Evidence
import RouteAtlas.Text.Quoted

/-!
# Routes of controllers

A controller is a class with a decorator that gives its paths. Each of its methods answers requests
under the paths that decorators of the method give, for each version, with the method of HTTP that
the decorator is named for.
-/

namespace RouteAtlas.Controllers

open Syntax
open Project (Scope)
open Extraction (say)

section Controllers

/-- The globs of files that hold controllers. -/
def patterns : List String :=
  ["**/*.controller.\x7bts,js\x7d"]

/-- The methods of HTTP that a decorator routes, by its name. -/
def routedVerbs (decorator : String) : List String :=
  if decorator == "All" then Route.verbs
  else if ["Get", "Post", "Put", "Patch", "Delete", "Head", "Options"].contains decorator then
    [Text.upper decorator]
  else []

/-- The paths of a controller, at least one, and its versions. -/
def settingsOf
    (scope : Scope)
    (file : SourceFile)
    (decorator : Node) :
    Except Fault (List String × List String) := do
  let orRoot (paths : List String) := if paths.isEmpty then [""] else paths
  match decorator.decoratorArguments with
  | [] => return ([""], [])
  | first :: _ =>
    let first := first.unwrap
    if first.kind == .object then
      let paths ←
        match first.propertyValue? "path" with
        | some p => pathsOf scope file p
        | none => pure [""]
      let versions ←
        match first.propertyValue? "version" with
        | some v => versionsOf scope file v
        | none => pure []
      return (orRoot paths, versions)
    else return (orRoot (← pathsOf scope file first), [])

/-- A controller: its name and file, its paths, and what its methods share with all others. -/
structure Controller where
  name : String
  file : SourceFile
  paths : List String
  versions : List String
  overallPrefix : Option String

end Controllers

section Methods

/-- What the requests to a method have in common. -/
structure RequestFacts where
  headers : List (String × String)
  query : List (String × String)
  body : Option String

/-- The name of a method as it is written. -/
def methodName (method : Node) : String :=
  ((method.child? .name).map Node.text).getD ""

/-- The versions of a method: its own, or those of its controller. -/
def versionsOfMethod
    (scope : Scope)
    (c : Controller)
    (decorators : List Node) :
    Except Fault (List String) := do
  let own ←
    match (decoratorNamed? "Version" decorators).bind fun d => d.decoratorArguments.head? with
    | some v => versionsOf scope c.file v
    | none => pure []
  return if own.isEmpty then c.versions else own

/-- What requests to a method have in common. -/
def factsOf
    (examples : Examples)
    (m : Method) :
    Extraction RequestFacts := do
  let headers ← Extraction.ofExcept (headersOf examples.scope examples.file m.decorators)
  let bodies ← Extraction.ofExcept (examples.given "Body" m.node)
  let body ← Extraction.ofExcept (bodyOf bodies)
  if body.isNone && !bodies.isEmpty then
    say framework .debug ("No body example for " ++ methodName m.node)
  let queries ← Extraction.ofExcept (examples.given "Query" m.node)
  let query ← Extraction.ofExcept (queryOf queries)
  return ⟨headers, query, body⟩

/-- The headers of an answer to a request with a body; unless some are given for content, they say
that it is JSON. -/
def withContentType
    (headers : List (String × String))
    (body : Option String) :
    List (String × String) :=
  if (Route.filled? body).isSome && !headers.any fun h => Text.lower h.1 == "content-type" then
    headers ++ [("Content-Type", "application/json")]
  else headers

/-- The handler of a method for one path and one method of HTTP. -/
def handlerAt
    (c : Controller)
    (m : Node)
    (facts : RequestFacts)
    (verb path : String) :
    Handler :=
  let body := if Route.carriesBody verb then facts.body else none
  { Handler.at_ framework path verb c.file.path.toText with
    name := some (verb ++ " " ++ path)
    handlerName := some (c.name ++ "." ++ methodName m)
    line := m.line
    lines := m.lineCount
    usesDatabase := FileRoutes.Evidence.database.occursIn m.text
    handlesErrors := FileRoutes.Evidence.errorHandling.occursIn m.text
    validates := FileRoutes.Evidence.validation.occursInAnyCase m.text ||
      Text.contains m.text "Pipe"
    headers := withContentType facts.headers body
    query := facts.query
    body := body }

/-- The handlers of a method for one decorator: for every path of the controller, every path of the
method, every method of HTTP and every version. -/
def handlersAt
    (c : Controller)
    (m : Node)
    (facts : RequestFacts)
    (versions methodPaths verbs : List String) :
    List Handler :=
  c.paths.flatMap fun controllerPath =>
    methodPaths.flatMap fun methodPath =>
      verbs.flatMap fun verb =>
        (routePaths c.overallPrefix versions controllerPath methodPath).map
          (handlerAt c m facts verb)

/-- The handlers that decorators of a method ask for. -/
def handlersOfDecorators
    (scope : Scope)
    (c : Controller)
    (m : Node)
    (facts : RequestFacts)
    (versions : List String) :
    List (Node × List String) → Extraction (List Handler)
  | [] => return []
  | (d, verbs) :: rest => do
    let paths ←
      match d.decoratorArguments.head? with
      | some a => Extraction.ofExcept (pathsOf scope c.file a)
      | none => pure [""]
    let hs := handlersAt c m facts versions (if paths.isEmpty then [""] else paths) verbs
    for h in hs do
      say framework .debug ("Found NestJS " ++ h.method ++ " handler at " ++ h.path ++ " (line " ++
        toString h.line ++ ")")
    return hs ++ (← handlersOfDecorators scope c m facts versions rest)

/-- The handlers of a method. -/
def ofMethod
    (s : Site)
    (scope : Scope)
    (c : Controller)
    (m : Method) :
    Extraction (List Handler) := do
  let routing := m.decorators.filterMap fun d =>
    let verbs := (d.decoratorName?.map routedVerbs).getD []
    if verbs.isEmpty then none else some (d, verbs)
  if routing.isEmpty then
    return []
  let versions ← Extraction.ofExcept (versionsOfMethod scope c m.decorators)
  let facts ← factsOf ⟨scope, c.file, s.options.maxTypeDepth⟩ m
  handlersOfDecorators scope c m.node facts versions routing

end Methods

section Files

/-- The handlers of a class, if it is a controller. -/
def ofClass
    (s : Site)
    (scope : Scope)
    (o : Overall)
    (file : SourceFile)
    (c : Syntax.Class) :
    Extraction (List Handler) := do
  match decoratorNamed? "Controller" c.decorators with
  | none => return []
  | some d =>
    let (paths, versions) ← Extraction.ofExcept (settingsOf scope file d)
    say framework .debug ("Controller " ++ c.name ++ " at " ++
      Text.joinWith ", " (paths.map Text.quoted))
    let controller : Controller :=
      ⟨c.name, file, paths, if versions.isEmpty then o.versions else versions, o.pathPrefix⟩
    return (← c.methods.mapM (ofMethod s scope controller)).flatten

/-- The handlers of a file. -/
def ofFile
    (s : Site)
    (scope : Scope)
    (o : Overall)
    (file : SourceFile) :
    Extraction (List Handler) := do
  return (← file.classes.mapM (ofClass s scope o file)).flatten

/-- The handlers of the controllers of a project. -/
def structured (s : Site) : Extraction (List Handler) := do
  let l ← Extraction.loader s
  if l.findConfig?.isNone then
    say framework .debug "No tsconfig.json found, scanning controller files only"
  let project ← Extraction.load l patterns
  let o ← Overall.ofFiles s project .unset s.options.bootstrapFiles
  let files := project.sourceFiles.filter fun f => Text.contains f.text "Controller"
  say framework .debug ("Found " ++ toString files.length ++ " candidate controller files")
  Extraction.perFile s framework (ofFile s ⟨some project⟩ o) files

end Files

/-- The handlers of the controllers of a project. -/
def handlers (s : Site) : Extraction (List Handler) :=
  Extraction.handlers framework (structured s) none

end RouteAtlas.Controllers
