import RouteAtlas.Glob
import RouteAtlas.Route.Segment
import RouteAtlas.Text.Pattern

/-!
# Files that are routes

Two layouts of a project make routes of files. Below a directory `app`, every file named `route` with
a source ending answers requests for its directory. Below `pages/api`, every source file answers
requests for its own path without the ending. Components in brackets stay as they are written.
-/

namespace RouteAtlas.FileRoutes

section Components

/-- The components of a relative path with slashes of either kind. -/
def components (path : String) : List String :=
  (Text.splitOn '/' (Glob.forwardSlashes path.toList)).map String.ofList

/-- What follows the first directory of a given name, the name of the file included. -/
def below? (directory : String) : List String → Option (List String)
  | [] => none
  | [_] => none
  | c :: rest => if c == directory then some rest else below? directory rest

/-- A path of given components. -/
def pathOf (components : List String) : String :=
  "/" ++ Text.joinWith "/" components

end Components

section Names

/-- The endings of source files that are routes. -/
def sourceEndings : List String :=
  ["ts", "tsx", "js", "jsx", "mjs"]

/-- A name without a final line break, and the line break. -/
def withoutLineBreak (name : List Char) : List Char × List Char :=
  match name.reverse with
  | '\n' :: rest => (rest.reverse, ['\n'])
  | _ => (name, [])

/-- A list without a given end. -/
def withoutEnd?
    (stop cs : List Char) :
    Option (List Char) :=
  (Text.afterStart? stop.reverse cs.reverse).map List.reverse

/-- The name of a source file without its ending. -/
def stem? (name : List Char) : Option (List Char) :=
  sourceEndings.findSome? fun e => withoutEnd? ('.' :: e.toList) name

/-- The name of a source file without its ending; a line break after the ending stays. -/
def sourceStem? (name : String) : Option String :=
  let (body, lineBreak) := withoutLineBreak name.toList
  (stem? body).map fun s => String.ofList (s ++ lineBreak)

/-- Whether the name of a source file says that it holds tests. -/
def isTestName (name : String) : Bool :=
  match stem? (withoutLineBreak name.toList).1 with
  | some s => [".test", ".spec"].any fun e => (withoutEnd? e.toList s).isSome
  | none => false

end Names

section Mounted

/-- Paths under which a content management system mounts its own interface. -/
def contentSystemPaths : List Text.Pattern :=
  let front := Text.Pattern.anyOf [.start, .word "/"]
  let back := Text.Pattern.anyOf [.word "/", .stop]
  [.inOrder [front, .word "(payload)", back],
    .inOrder [front, .word "admin/[[...", .some_ (.noneOf "]"), .word "]]", back]]

/-- Whether a file belongs to the interface of a content management system. -/
def isContentSystemPath (path : String) : Bool :=
  contentSystemPaths.any fun p => p.occursIn path

end Mounted

namespace App

/-- The globs of the files that are looked at. -/
def patterns : List String :=
  ["**/app/**/route.\x7bts,tsx,js,jsx,mjs\x7d"]

/-- The directories below the first directory `app`. -/
def directories? (path : String) : Option (List String) :=
  (below? "app" (components path)).map List.dropLast

/-- Whether a file is a route. Directories whose name begins with an underscore are private. -/
def isRouteFile (path : String) : Bool :=
  let name := (components path).getLastD ""
  match stem? (withoutLineBreak name.toList).1, directories? path with
  | some s, some ds => s == "route".toList && ds.all fun d => !Text.startsWith d "_"
  | _, _ => false

/-- The path for which a file answers requests. Groups and slots have no part in it. -/
def routePath (path : String) : String :=
  pathOf (((directories? path).getD []).filter fun d =>
    !Route.isRouteGroup d && !Route.isParallelSlot d)

end App

namespace Pages

/-- The globs of the files that are looked at. -/
def patterns : List String :=
  ["**/pages/api/**/*.\x7bts,tsx,js,jsx,mjs\x7d"]

/-- The names of pages that are no routes. -/
def reservedNames : List String :=
  ["_app", "_document", "_error", "404", "500"]

/-- The components below the first directory `pages`. -/
def components? (path : String) : Option (List String) :=
  below? "pages" (components path)

/-- Whether a file is a route. Declaration files, tests and names that begin with an underscore are
none. -/
def isRouteFile (path : String) : Bool :=
  match components? path with
  | some ("api" :: c :: rest) =>
    let name := (c :: rest).getLastD ""
    match sourceStem? name with
    | some s =>
      !Text.endsWith name ".d.ts" && !isTestName name && !(c :: rest).contains "__tests__" &&
        !reservedNames.contains s && !Text.startsWith s "_"
    | none => false
  | _ => false

/-- The path for which a file answers requests. An index file answers for its directory. -/
def routePath (path : String) : String :=
  match components? path with
  | none => "/"
  | some cs =>
    let last := cs.getLastD ""
    let stem := (sourceStem? last).getD last
    pathOf (cs.dropLast ++ (if stem == "index" then [] else [stem]))

end Pages

end RouteAtlas.FileRoutes
