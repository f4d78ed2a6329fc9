import RouteAtlas.Text.Blank

/-!
# Request paths

The canonical form of a request path: one slash at the start, single slashes between components and
none at the end, the root path aside.
-/

namespace RouteAtlas.Route

section Slashes

/-- Replaces every run of slashes by one slash. -/
def singleSlashes : List Char → List Char
  | [] => []
  | [c] => [c]
  | c :: d :: rest =>
    if c = '/' && d = '/' then singleSlashes (d :: rest) else c :: singleSlashes (d :: rest)

/-- Puts a slash in front of a path that has none. -/
def withLeadingSlash : List Char → List Char
  | '/' :: rest => '/' :: rest
  | cs => '/' :: cs

/-- Drops the slashes at the end of a path, but leaves the root path alone. -/
def withoutFinalSlash (cs : List Char) : List Char :=
  match Text.dropLastWhile (· = '/') cs with
  | [] => ['/']
  | kept => kept

/-- The canonical form of a path given as a list of characters. -/
def normalizeChars (cs : List Char) : List Char :=
  withoutFinalSlash (withLeadingSlash (singleSlashes (Text.dropEnds Text.isBlank cs)))

/-- The canonical form of a request path. -/
def normalizePath (path : String) : String :=
  String.ofList (normalizeChars path.toList)

end Slashes

end RouteAtlas.Route
