import RouteAtlas.Controllers.Handlers
import RouteAtlas.Detection
import RouteAtlas.FileRoutes.App
import RouteAtlas.FileRoutes.Pages
import RouteAtlas.Lint
import RouteAtlas.Procedures.Survey

/-!
# Scans

A scan finds out which frameworks a project uses, and extracts the routes of each of them. The same
handlers and procedures can be looked at for findings instead.
-/

namespace RouteAtlas

open Files

/-- What a scan of a project found: which frameworks it uses, by their keys, and its routes. -/
structure Scan where
  root : Path
  detection : List (String × Bool)
  routes : List Route
  deriving Inhabited

namespace Framework

/-- How the handlers of a framework are found. Settings by which routers cannot be recognised are a
fault. -/
def handlers
    (f : Framework)
    (s : Site) :
    Except Fault (Extraction (List Handler)) :=
  match f with
  | appRouter => .ok (FileRoutes.App.handlers s)
  | pagesRouter => .ok (FileRoutes.Pages.handlers s)
  | trpc => do
    let r ← Procedures.Recognition.ofSettings s.options.routerFactories s.options.routerPattern
    return Procedures.handlers s r
  | nest => .ok (Controllers.handlers s)

end Framework

namespace Scan

section Scanning

/-- Logs a message of the scan itself. -/
def say
    (level : Log.Level)
    (message : String) :
    Extraction Unit :=
  modify fun p => { p with log := p.log ++ [⟨level, "engine", message⟩] }

/-- The routes of some frameworks, one after the other. Settings are looked at for all of them before
any routes are extracted. -/
def routesOf
    (s : Site)
    (frameworks : List Framework) :
    Extraction (List Route) := do
  let work ← frameworks.mapM fun f => do
    let found ← Extraction.ofExcept (f.handlers s)
    return (f, found)
  let routes ← work.mapM fun w => (Extraction.routes w.1 w.2 : StateM Progress (List Route))
  return routes.flatten

/-- The frameworks to extract: those that the project uses, and that are wanted if any are named. -/
def selected
    (detected : List (Framework × Bool))
    (wanted : List Framework) :
    List Framework :=
  (detected.filter fun d => d.2 && (wanted.isEmpty || wanted.contains d.1)).map Prod.fst

/-- Scans a project for some frameworks, or for all if none are named. -/
def run
    (s : Site)
    (wanted : List Framework) :
    Extraction Scan := do
  let root := s.root.toText
  if !s.tree.isDirectory s.root then
    say .warning ("Not a directory: " ++ root)
    return ⟨s.root, [], []⟩
  let detected := RouteAtlas.detection s.tree s.root
  let detection := detected.map fun d => (d.1.key, d.2)
  let used := (detection.filter Prod.snd).map Prod.fst
  say .debug ("Detected frameworks in " ++ root ++ ": " ++
    if used.isEmpty then "none" else Text.joinWith ", " used)
  match selected detected wanted with
  | [] =>
    say .info ("No supported frameworks detected in " ++ root)
    return ⟨s.root, detection, []⟩
  | frameworks =>
    let routes ← routesOf s frameworks
    say .info ("Found " ++ toString routes.length ++ " routes in " ++ root)
    return ⟨s.root, detection, routes⟩

end Scanning

section Summaries

/-- How often each text occurs, in the order in which they first come. -/
def tally (texts : List String) : List (String × Nat) :=
  texts.foldl (fun acc t => putEntry t ((entryOf? t acc).getD 0 + 1) acc) []

/-- Counts as data. -/
def countsValue (counts : List (String × Nat)) : Value :=
  .map (counts.map fun c => (c.1, .int c.2))

/-- The keys of the frameworks that the project uses. -/
def frameworkKeys (s : Scan) : List String :=
  (s.detection.filter Prod.snd).map Prod.fst

/-- What was found, in numbers. -/
def summary (s : Scan) : Value :=
  .map [("root", .str s.root.toText),
    ("frameworks", .list (s.frameworkKeys.map .str)),
    ("total_routes", .int s.routes.length),
    ("by_type", countsValue (tally (s.routes.map Route.type))),
    ("by_method", countsValue (tally (s.routes.map Route.method)))]

end Summaries

end Scan

namespace Lint

section Projects

/-- What is left of some work: nothing when it ends by a fault. -/
def orEmpty
    {α : Type}
    (work : Extraction (List α)) :
    StateM Progress (List α) := do
  match ← work.run with
  | .ok xs => return xs
  | .error _ => return []

/-- The procedures and routers of a project, or nothing after a fault. -/
def procedureSubjects (s : Site) : StateM Progress Subjects := do
  let work : Extraction Procedures.Survey := do
    let r ← Extraction.ofExcept
      (Procedures.Recognition.ofSettings s.options.routerFactories s.options.routerPattern)
    Procedures.survey s r
  match ← work.run with
  | .ok found => return { Subjects.empty with
      procedures := found.procedures, routers := found.graph.routers }
  | .error _ => return .empty

/-- The findings about a project, as far as frameworks are looked at. What ends by a fault is passed
over. -/
def ofProject
    (s : Site)
    (looked : Framework → Bool) :
    StateM Progress (List Finding) := do
  let subjects ← if looked .trpc then procedureSubjects s else pure .empty
  let app ← if looked .appRouter then orEmpty (FileRoutes.App.handlers s) else pure []
  let pages ← if looked .pagesRouter then orEmpty (FileRoutes.Pages.handlers s) else pure []
  return ((subjects.addHandlers app).addHandlers pages).findings

end Projects

end Lint

end RouteAtlas
