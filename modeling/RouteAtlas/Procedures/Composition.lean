import RouteAtlas.Procedures.Basic
import RouteAtlas.Router.Cycle

/-!
# Compositions of routers

A composition is put together step by step. Routers and mounts are added, routers are renamed to
their paths, and questions may come at any time. For an answer the mounts are matched to the routers
that are there; the matching is kept and serves for further questions until something changes.
-/

namespace RouteAtlas.Procedures

open Router

/-- A graph of routers that is put together, its mounts as they were last matched to routers, and
whether the graph is the same since then. -/
structure Composition where
  graph : Graph
  edges : List (Mount × String)
  isCurrent : Bool
  deriving Inhabited

namespace Composition

/-- The composition to which nothing has been added. -/
def empty : Composition :=
  ⟨.empty, [], false⟩

section Adding

/-- What may be added. -/
inductive Addition where
  | router (d : Declaration)
  | mount (m : Mount)
  deriving Repr, DecidableEq, Inhabited

/-- The graph with something added at the end. -/
def Addition.addTo
    (g : Graph) :
    Addition → Graph
  | .router d => { g with routers := g.routers ++ [d] }
  | .mount m => { g with mounts := g.mounts ++ [m] }

/-- Adds a router or a mount. -/
def add (a : Addition) : StateM Composition Unit :=
  modify fun c => { c with graph := a.addTo c.graph, isCurrent := false }

end Adding

section Asking

/-- The mounts with the router that each is matched to. They are matched anew if the graph has
changed. -/
def matched : StateM Composition (List (Mount × String)) :=
  modifyGet fun c =>
    if c.isCurrent then (c.edges, c)
    else
      let edges := c.graph.edges
      (edges, { c with edges := edges, isCurrent := true })

/-- The mounts of a router, by its name as it is or else by its canonical name. -/
def incoming (name : String) : StateM Composition (List Mount) := do
  return Graph.incomingAmong (← matched) name

/-- The names of a router that nothing mounts. -/
def rootNames (d : Declaration) : StateM Composition (List String) := do
  return if (← incoming d.name).isEmpty then [d.name, indexName d.name] else []

/-- The routers that nothing mounts, each under its name and its canonical name. -/
def roots : StateM Composition (List String) := do
  return (← (← get).graph.routers.mapM rootNames).flatten

/-- The elementary cycles of matched mounts. -/
def cyclesAmong (edges : List (Mount × String)) : List (List String) :=
  let links := edges.map fun e => (e.1.parent, e.2)
  let names := (links.flatMap fun l => [l.1, l.2]).eraseDups
  (names.flatMap fun start => cyclesFrom links start (names.length + 1) [] start).mergeSort
    namesBefore

/-- All elementary cycles of the mounts. -/
def cycles : StateM Composition (List (List String)) := do
  return cyclesAmong (← matched)

/-- Finds the path of a name and keeps every path found on the way. A name that is being resolved
already stands for itself. The first argument bounds the length of the chain of mounts. -/
def resolveName
    (roots : List String) :
    Nat → List String → List (String × String) → String →
      StateM Composition (String × List (String × String))
  | 0, _, known, name => return (name, known)
  | n + 1, open_, known, name =>
    match entryOf? name known with
    | some path => return (path, known)
    | none =>
      if open_.contains name then return (name, known)
      else do
        match ← incoming name with
        | [] =>
          let path := Graph.basePath roots name
          return (path, putEntry name path known)
        | mount :: _ =>
          let (parentPath, known) ← resolveName roots n (name :: open_) known mount.parent
          let path := Graph.below parentPath mount.property
          return (path, putEntry name path known)

/-- The paths of all routers, with the names on the way to them, in the order in which they were
found. -/
def resolvePaths : StateM Composition (List (String × String)) := do
  let roots ← roots
  let g := (← get).graph
  let bound := g.routers.length + g.mounts.length + 2
  g.routers.foldlM (fun known d => do return (← resolveName roots bound [] known d.name).2) []

end Asking

section Renaming

/-- Renames the routers of the composition and those of some procedures to their paths. -/
def apply (procedures : List Procedure) :
    StateM Composition (List (String × String) × List Procedure) := do
  let paths ← resolvePaths
  modify fun c => { c with graph := c.graph.withPaths paths, isCurrent := false }
  return (paths, procedures.map (Procedure.withPath paths))

end Renaming

section Operations

/-- What may be done with a composition. -/
inductive Operation where
  | add (a : Addition)
  | apply (procedures : List Procedure)
  | incoming (name : String)
  | roots
  | cycles
  | resolvePaths
  deriving Inhabited

/-- What is given back by an operation. -/
inductive Reply where
  | added
  | applied (paths : List (String × String)) (procedures : List Procedure)
  | mounts (ms : List Mount)
  | names (names : List String)
  | cycles (cs : List (List String))
  | paths (ps : List (String × String))
  deriving Inhabited

/-- Carries out an operation. -/
def Operation.perform : Operation → StateM Composition Reply
  | .add a => do
    Composition.add a
    return .added
  | .apply procedures => do
    let (paths, renamed) ← Composition.apply procedures
    return .applied paths renamed
  | .incoming name => return .mounts (← Composition.incoming name)
  | .roots => return .names (← Composition.roots)
  | .cycles => return .cycles (← Composition.cycles)
  | .resolvePaths => return .paths (← Composition.resolvePaths)

/-- The composition after some operations, in their order. -/
def after (operations : List Operation) : Composition :=
  operations.foldl (fun c o => (o.perform.run c).2) empty

end Operations

end Composition

end RouteAtlas.Procedures
