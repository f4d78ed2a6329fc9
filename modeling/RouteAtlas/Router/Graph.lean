import RouteAtlas.Router.Name
import RouteAtlas.Value

/-!
# The composition of routers

Routers are declared, and mounted under the properties of other routers. A mount names its target
in the words of the source, so it is matched to a declared router by canonical name. The path of a
router joins the properties of its first mounts from a root down to it. Along a cycle of mounts the
path ends at the first name that comes again.
-/

namespace RouteAtlas.Router

/-- A declared router: where the call that builds it stands. -/
structure Declaration where
  name : String
  filePath : String
  line : Nat
  endLine : Nat
  deriving Repr, DecidableEq, Inhabited

/-- The number of lines of the call that builds a router. -/
def Declaration.lineCount (d : Declaration) : Int :=
  (d.endLine : Int) - d.line + 1

/-- A router mounted under a property of another. -/
structure Mount where
  parent : String
  property : String
  target : String
  deriving Repr, DecidableEq, Inhabited

/-- Declared routers and mounts, in order of declaration. -/
structure Graph where
  routers : List Declaration
  mounts : List Mount
  deriving Repr, Inhabited

namespace Graph

section Edges

/-- The graph without routers. -/
def empty : Graph :=
  ⟨[], []⟩

/-- The declared routers by canonical name; of two with one name the later counts. -/
def index (g : Graph) : List (String × String) :=
  ofPairs (g.routers.map fun r => (indexName r.name, r.name))

/-- The name of the router that a mount is matched to: by target, else by property, else the
canonical name itself. A mount whose names are nothing but decoration is matched to none. -/
def mountedName?
    (index : List (String × String))
    (m : Mount) :
    Option String :=
  let candidates := [canonicalName m.target, canonicalName m.property].filter fun c => !c.isEmpty
  match candidates with
  | [] => none
  | first :: _ => some ((candidates.findSome? fun c => entryOf? c index).getD first)

/-- The mounts with the name of the router that each is matched to. -/
def edges (g : Graph) : List (Mount × String) :=
  let index := g.index
  g.mounts.filterMap fun m => (mountedName? index m).map fun name => (m, name)

/-- The mounts of a router, by its name as it is or else by its canonical name, among given edges. -/
def incomingAmong
    (edges : List (Mount × String))
    (name : String) :
    List Mount :=
  let at_ (key : String) := edges.filterMap fun e => if e.2 = key then some e.1 else none
  match at_ name with
  | [] => at_ (indexName name)
  | found => found

/-- The mounts of a router in order of declaration. -/
def incoming
    (g : Graph)
    (name : String) :
    List Mount :=
  incomingAmong g.edges name

/-- The routers that nothing mounts, each under its name and its canonical name. -/
def roots (g : Graph) : List String :=
  let edges := g.edges
  g.routers.flatMap fun r =>
    if (incomingAmong edges r.name).isEmpty then [r.name, indexName r.name] else []

end Edges

section Paths

/-- A property below a path. -/
def below
    (path property : String) :
    String :=
  if path.isEmpty then property else path ++ "." ++ property

/-- The path of a name that nothing mounts: empty for a root, the name itself otherwise. -/
def basePath
    (roots : List String)
    (name : String) :
    String :=
  if roots.contains name || roots.contains (indexName name) then "" else name

/-- Finds the path of a name and keeps every path found on the way. A name that is being resolved
already stands for itself. The first argument bounds the length of the chain of mounts. -/
def resolveName
    (edges : List (Mount × String))
    (roots : List String) :
    Nat → List String → List (String × String) → String → String × List (String × String)
  | 0, _, known, name => (name, known)
  | n + 1, open_, known, name =>
    match entryOf? name known with
    | some path => (path, known)
    | none =>
      if open_.contains name then (name, known)
      else
        match incomingAmong edges name with
        | [] =>
          let path := basePath roots name
          (path, putEntry name path known)
        | mount :: _ =>
          let (parentPath, known) := resolveName edges roots n (name :: open_) known mount.parent
          let path := below parentPath mount.property
          (path, putEntry name path known)

/-- The paths of all routers, with the names on the way to them, in the order in which they were
found. A chain of mounts without a repeated name is no longer than there are names. -/
def resolvePaths (g : Graph) : List (String × String) :=
  let edges := g.edges
  let roots := g.roots
  let bound := g.routers.length + g.mounts.length + 2
  g.routers.foldl (fun known r => (resolveName edges roots bound [] known r.name).2) []

/-- The path of a name if it has one that is not empty, the name itself otherwise. -/
def renamed
    (paths : List (String × String))
    (name : String) :
    String :=
  match entryOf? name paths with
  | some path => if path.isEmpty then name else path
  | none => name

/-- The graph with every router renamed to its path. -/
def withPaths
    (g : Graph)
    (paths : List (String × String)) :
    Graph :=
  { g with routers := g.routers.map fun r => { r with name := renamed paths r.name } }

end Paths

end Graph

end RouteAtlas.Router
