import RouteAtlas.Fault
import RouteAtlas.Route.Path
import RouteAtlas.Route.Query
import RouteAtlas.Route.Segment
import RouteAtlas.Route.Verb

/-!
# Routes

A handler is what is found in the source: a function that answers requests of one method under one
path, with what is known and what is guessed about it. A route is what is reported of it: a
canonical path, a supported method, and an example request. A route has no empty headers, no empty
query and no empty body.
-/

namespace RouteAtlas

section Frameworks

/-- The frameworks in which routes are found. -/
inductive Framework where
  | appRouter
  | pagesRouter
  | trpc
  | nest
  deriving Repr, DecidableEq, Inhabited

namespace Framework

/-- All frameworks. -/
def all : List Framework :=
  [appRouter, pagesRouter, trpc, nest]

/-- The tag by which a framework is written. -/
def tag : Framework → String
  | appRouter => "nextjs-app"
  | pagesRouter => "nextjs-page"
  | trpc => "trpc"
  | nest => "nestjs"

/-- The framework that a tag denotes. -/
def ofTag? (t : String) : Option Framework :=
  all.find? fun f => f.tag == t

end Framework

end Frameworks

section Records

/-- A procedure as the origin of a handler. -/
structure ProcedureOrigin where
  router : String
  procedure : String
  kind : String
  visibility : String
  hasOutput : Bool
  deriving Repr, DecidableEq, Inhabited

/-- A function that answers requests, as it is found in the source. -/
structure Handler where
  framework : Framework
  path : String
  method : String
  filePath : String
  name : Option String
  handlerName : Option String
  line : Nat
  lines : Nat
  segments : List Route.DynamicSegment
  hasMiddleware : Bool
  isServerAction : Bool
  usesDatabase : Bool
  handlesErrors : Bool
  validates : Bool
  hasSideEffects : Bool
  headers : List (String × String)
  query : List (String × String)
  body : Option String
  bodyToQuery : Bool
  origin : Option ProcedureOrigin
  deriving Repr, DecidableEq, Inhabited

/-- A handler about which only its place is known. -/
def Handler.at_
    (framework : Framework)
    (path method filePath : String) :
    Handler :=
  ⟨framework, path, method, filePath, none, none, 0, 0, [], false, false, false, false, false, false,
    [], [], none, false, none⟩

/-- A route as it is reported. -/
structure Route where
  name : String
  path : String
  method : String
  filePath : Option String
  type : String
  handlerName : Option String
  headers : Option (List (String × String))
  query : Option (List (String × String))
  body : Option String
  deriving Repr, DecidableEq, Inhabited

end Records

namespace Route

section Identity

/-- The text if it is not empty. -/
def filled? (s : Option String) : Option String :=
  s.filter fun t => !t.isEmpty

/-- The identity of a route among all reports: its framework, its file, its handler or else its path,
and its method. -/
def externalId (r : Route) : String :=
  r.type ++ ":" ++ r.filePath.getD "None" ++ "#" ++ (filled? r.handlerName).getD r.path ++ ":" ++
    r.method

end Identity

section Assembly

/-- Whether a body says nothing: it is blank or an empty mapping. -/
def isBareBody (body : String) : Bool :=
  let kept := Text.trim body
  kept == "" || kept == "\x7b\x7d"

/-- The entries, if there are any. -/
def nonEmpty?
    (entries : List (String × String)) :
    Option (List (String × String)) :=
  if entries.isEmpty then none else some entries

/-- The query of a handler. A body that travels in the query adds the parameters that are not there
yet. -/
def queryOfHandler (h : Handler) : List (String × String) :=
  if h.bodyToQuery then
    (queryOfBody h.body).foldl (fun acc e => putMissing e.1 e.2 acc) h.query
  else
    h.query

/-- The body that a handler is reported with under a method. -/
def bodyOfHandler
    (h : Handler)
    (method : String) :
    Option String :=
  if h.bodyToQuery || !carriesBody method then none
  else h.body.filter fun b => !isBareBody b

/-- The route of a handler, when its method is supported. -/
def ofHandler? (h : Handler) : Option Route :=
  (verb? h.method).map fun method =>
    let path := normalizePath h.path
    { name := (filled? h.name).getD (method ++ " " ++ path)
      path := path
      method := method
      filePath := some h.filePath
      type := h.framework.tag
      handlerName := h.handlerName
      headers := nonEmpty? h.headers
      query := nonEmpty? (queryOfHandler h)
      body := bodyOfHandler h method }

/-- The routes of handlers, in their order. -/
def ofHandlers (handlers : List Handler) : List Route :=
  handlers.filterMap ofHandler?

end Assembly

section Order

/-- Whether a route is listed no later than another: by path, then by method, then by file. -/
def listedBefore
    (a b : Route) :
    Bool :=
  let place (r : Route) := (verbRank? r.method).getD verbs.length
  if a.path != b.path then a.path < b.path
  else if place a != place b then place a < place b
  else !(b.filePath.getD "" < a.filePath.getD "")

/-- The routes in listing order. Every method has to be a supported one. -/
def sort (routes : List Route) : Except Fault (List Route) :=
  if routes.all fun r => (verbRank? r.method).isSome then
    .ok (routes.mergeSort listedBefore)
  else
    .error .invalidValue

end Order

section Data

/-- The entries of a mapping of texts. -/
def textEntries (entries : List (String × String)) : Value :=
  .map (entries.map fun e => (e.1, .str e.2))

/-- A route as data, without what is absent. -/
def toValue (r : Route) : Value :=
  let optional (key : String) (v : Option Value) : List (String × Value) :=
    (v.map fun w => (key, w)).toList
  .map ([("name", .str r.name), ("path", .str r.path), ("method", .str r.method)] ++
    optional "filePath" (r.filePath.map .str) ++
    [("type", .str r.type)] ++
    optional "handlerName" (r.handlerName.map .str) ++
    optional "headers" (r.headers.map textEntries) ++
    optional "query" (r.query.map textEntries) ++
    optional "body" (r.body.map .str))

/-- The text of a key that has to be there. -/
def requiredText
    (v : Value)
    (key : String) :
    Except Fault String :=
  match v.get? key with
  | some (.str s) => .ok s
  | some _ => .error .unexpectedType
  | none => .error (.missingKey key)

/-- The texts of a mapping. -/
def textEntriesOf? (v : Value) : Option (List (String × String)) :=
  v.entries?.map fun entries => entries.map fun e => (e.1, e.2.str?.getD "")

/-- Reads a route from data. The file may be given under either of two keys, or be missing. -/
def ofValue? (v : Value) : Except Fault Route := do
  let name ← requiredText v "name"
  let path ← requiredText v "path"
  let method ← requiredText v "method"
  let type ← requiredText v "type"
  let file :=
    match v.get? "filePath" with
    | some f => f.str?
    | none =>
      match v.get? "file_path" with
      | some f => f.str?
      | none => some ""
  return {
    name := name
    path := path
    method := method
    filePath := file
    type := type
    handlerName := (v.get? "handlerName").bind Value.str?
    headers := (v.get? "headers").bind textEntriesOf?
    query := (v.get? "query").bind textEntriesOf?
    body := (v.get? "body").bind Value.str? }

end Data

end Route

end RouteAtlas
