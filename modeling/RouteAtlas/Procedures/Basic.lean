import RouteAtlas.Route.Basic
import RouteAtlas.Router.Graph

/-!
# Procedures

A procedure is an entry of a router. A query reads and is requested with the method `GET`, its input
travelling in the query; anything else is posted. Its full name puts the path of its router in
front.
-/

namespace RouteAtlas

/-- What a procedure does. -/
inductive ProcedureKind where
  | query
  | mutation
  | named (tag : String)
  deriving Repr, DecidableEq, Inhabited

namespace ProcedureKind

/-- The tag by which a kind is written. -/
def tag : ProcedureKind → String
  | query => "query"
  | mutation => "mutation"
  | named t => t

/-- The kind that a tag denotes. -/
def ofTag (t : String) : ProcedureKind :=
  if t == "query" then query else if t == "mutation" then mutation else named t

end ProcedureKind

/-- A procedure with what is known and what is guessed about it. -/
structure Procedure where
  router : String
  name : String
  kind : ProcedureKind
  filePath : String
  line : Nat
  visibility : String
  hasInput : Bool
  hasOutput : Bool
  body : Option String
  resolverLines : Nat
  usesDatabase : Bool
  handlesErrors : Bool
  hasSideEffects : Bool
  headers : List (String × String)
  deriving Repr, DecidableEq, Inhabited

namespace Procedure

/-- The visibility of procedures whose builder says nothing about it. -/
def unknownVisibility : String :=
  "unknown"

/-- The method with which a procedure is requested. -/
def method (p : Procedure) : String :=
  if p.kind = .query then "GET" else "POST"

/-- The full name of a procedure. -/
def qualifiedName (p : Procedure) : String :=
  if p.router.isEmpty then p.name else p.router ++ "." ++ p.name

/-- A procedure with its router renamed to its path. -/
def withPath
    (paths : List (String × String))
    (p : Procedure) :
    Procedure :=
  { p with router := Router.Graph.renamed paths p.router }

end Procedure

end RouteAtlas
