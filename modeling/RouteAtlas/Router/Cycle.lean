import RouteAtlas.Router.Graph

/-!
# Cycles of mounts

The elementary cycles of a graph of routers: closed walks that visit no router twice. Each is listed
once, from its least name on, and the cycles are in lexicographic order.
-/

namespace RouteAtlas.Router

section Walks

/-- The lexicographic order of lists of names. -/
def namesBefore : List String → List String → Bool
  | [], _ => true
  | _ :: _, [] => false
  | a :: as, b :: bs => if a = b then namesBefore as bs else decide (a < b)

/-- The cycles that start with a given walk, read backwards, and go on through names above the
first one. The first argument bounds the length of the walk. -/
def cyclesFrom
    (links : List (String × String))
    (start : String) :
    Nat → List String → String → List (List String)
  | 0, _, _ => []
  | n + 1, walk, here =>
    let nexts := (links.filterMap fun l => if l.1 = here then some l.2 else none).eraseDups
    nexts.flatMap fun next =>
      if next = start then [(here :: walk).reverse]
      else if start < next && !(here :: walk).contains next then
        cyclesFrom links start n (here :: walk) next
      else []

end Walks

/-- All elementary cycles of the mounts, a router that mounts itself included. -/
def Graph.cycles (g : Graph) : List (List String) :=
  let links := g.edges.map fun e => (e.1.parent, e.2)
  let names := (links.flatMap fun l => [l.1, l.2]).eraseDups
  (names.flatMap fun start => cyclesFrom links start (names.length + 1) [] start).mergeSort
    namesBefore

end RouteAtlas.Router
