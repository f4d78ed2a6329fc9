import RouteAtlas.Text.Blank

/-!
# Dynamic segments

A path component in square brackets is bound to a value of the request: `[id]` to one component,
`[...rest]` to all that follow, `[[...rest]]` to none or more. In a route pattern they are written
`:id`, `:rest*` and `:rest*?`.
-/

namespace RouteAtlas.Route

/-- A path component that is bound to a value of the request. -/
structure DynamicSegment where
  name : String
  isCatchAll : Bool
  isOptional : Bool
  deriving Repr, DecidableEq

namespace DynamicSegment

section Reading

/-- The characters between a given start and a given end, when there is at least one and no line
break among them. A line break after the end is allowed. -/
def between?
    (left right cs : List Char) :
    Option (List Char) :=
  match Text.afterStart? left cs with
  | none => none
  | some rest =>
    let body :=
      match rest.reverse with
      | '\n' :: more => more
      | more => more
    match Text.afterStart? right.reverse body with
    | none => none
    | some inside =>
      if inside.isEmpty || inside.contains '\n' then none else some inside.reverse

/-- The dynamic segment that a path component denotes, if it is one. -/
def ofComponent? (component : List Char) : Option DynamicSegment :=
  match between? "[[...".toList "]]".toList component with
  | some name => some ⟨String.ofList name, true, true⟩
  | none =>
    match between? "[...".toList "]".toList component with
    | some name => some ⟨String.ofList name, true, false⟩
    | none =>
      (between? "[".toList "]".toList component).map fun name =>
        ⟨String.ofList name, false, false⟩

end Reading

section Writing

/-- The segment as a component of a route pattern. -/
def toParam (s : DynamicSegment) : String :=
  ":" ++ s.name ++ (if s.isOptional then "*?" else if s.isCatchAll then "*" else "")

end Writing

end DynamicSegment

section Paths

/-- The dynamic segments of a path, in order. -/
def dynamicSegments (path : String) : List DynamicSegment :=
  (Text.splitOn '/' path.toList).filterMap DynamicSegment.ofComponent?

/-- A path with every dynamic segment written as in a route pattern. -/
def withParams (path : String) : String :=
  Text.joinWith "/" ((Text.splitOn '/' path.toList).map fun component =>
    match DynamicSegment.ofComponent? component with
    | some segment => segment.toParam
    | none => String.ofList component)

/-- A component in parentheses groups routes and is no part of their path. -/
def isRouteGroup (component : String) : Bool :=
  Text.startsWith component "(" && Text.endsWith component ")"

/-- A component with an at sign names a parallel slot and is no part of the path. -/
def isParallelSlot (component : String) : Bool :=
  Text.startsWith component "@"

end Paths

end RouteAtlas.Route
