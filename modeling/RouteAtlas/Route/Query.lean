import RouteAtlas.Json.Printer
import RouteAtlas.Json.Reader

/-!
# Query parameters

How example values become the values of query parameters. A value of a primitive type is written
out, null is an empty text, and lists and mappings have no place in a query, unless a list is written
as its items separated by commas. A whole number with too many digits cannot be written.
-/

namespace RouteAtlas.Route

section Values

/-- A primitive value as the value of a query parameter: nothing for null, no parameter at all for
a list or mapping. -/
def queryText? : Value → Option String
  | .null => some ""
  | .bool b => some (if b then "true" else "false")
  | .int i => some (toString i)
  | .float x => some x.text
  | .str s => some s
  | .list _ | .map _ => none

/-- The primitive entries of a mapping as query parameters. -/
def queryOfEntries (entries : List (String × Value)) : List (String × String) :=
  entries.filterMap fun e => (queryText? e.2).map fun t => (e.1, t)

/-- Whether the primitive entries of a mapping may all be written. -/
def canQuery (entries : List (String × Value)) : Bool :=
  entries.all fun e => (queryText? e.2).isNone || Json.isWritable e.2

mutual

/-- A value as the value of a query parameter, lists being written as their items. -/
def listedText? : Value → Option String
  | .list items => some (Text.joinWith "," (listedItems items))
  | v => queryText? v

/-- The items of a list that have a text which is not empty. -/
def listedItems : List Value → List String
  | [] => []
  | v :: rest =>
    match listedText? v with
    | some t => if t.isEmpty then listedItems rest else t :: listedItems rest
    | none => listedItems rest

end

mutual

/-- Whether a value may be written as the value of a query parameter, lists by their items. -/
def canList : Value → Bool
  | .list items => canListAll items
  | v => (queryText? v).isNone || Json.isWritable v

/-- Whether the items of a list may all be written. -/
def canListAll : List Value → Bool
  | [] => true
  | v :: rest => canList v && canListAll rest

end

end Values

section Bodies

/-- The query parameters that stand for a body: its primitive entries if it is a mapping. -/
def queryOfBody (body : Option String) : List (String × String) :=
  match body with
  | none => []
  | some text =>
    match Json.parse text with
    | .ok (.map entries) => queryOfEntries entries
    | _ => []

end Bodies

end RouteAtlas.Route
