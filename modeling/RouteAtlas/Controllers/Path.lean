import RouteAtlas.Text.Blank

/-!
# Paths of controllers

The path of a route joins a prefix for all routes, a version, the path of its controller and its own
path, each without slashes at its ends, and leaves out what is empty. A route that has several
versions has a path for each.
-/

namespace RouteAtlas.Controllers

/-- The versions as path components: each begins with the letter v, and empty ones are left out. -/
def versionComponents (versions : List String) : List String :=
  (versions.filter fun v => !v.isEmpty).map fun v =>
    if Text.startsWith v "v" then v else "v" ++ v

/-- Joins the pieces of a path. -/
def joinPieces (pieces : List String) : String :=
  "/" ++ Text.joinWith "/" ((pieces.map (Text.trimWith (· = '/'))).filter fun p => !p.isEmpty)

/-- The paths of a route, one for each version. -/
def routePaths
    (overall : Option String)
    (versions : List String)
    (controllerPath methodPath : String) :
    List String :=
  let build (version : String) := joinPieces [overall.getD "", version, controllerPath, methodPath]
  match versionComponents versions with
  | [] => [build ""]
  | components => components.map build

end RouteAtlas.Controllers
