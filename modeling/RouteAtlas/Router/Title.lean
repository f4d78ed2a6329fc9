import RouteAtlas.Router.Name

/-!
# Titles of routers

The name under which a router is reported: the canonical name of its variable, else that of its file
without its ending, else that of its directory, else its variable as it is written.
-/

namespace RouteAtlas.Router

/-- A file name without its last ending, which has at least one character. -/
def withoutLastEnding (name : List Char) : List Char :=
  match name.reverse.dropWhile (· != '.') with
  | [] => name
  | _ :: kept => if name.getLast? = some '.' then name else kept.reverse

/-- The name under which a router is reported that is held by a variable in a file. -/
def title (variableName filePath : String) : String :=
  let parts := Text.split '/' filePath
  let fromFile := String.ofList (withoutLastEnding (parts.getLastD "").toList)
  let fromDirectory := (parts.dropLast.getLast?).toList
  let candidates := (variableName :: fromFile :: fromDirectory).map canonicalName
  (candidates.find? fun c => !c.isEmpty).getD variableName

end RouteAtlas.Router
