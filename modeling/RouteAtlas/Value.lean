import RouteAtlas.Number.Binary64

/-!
# Values

The values that examples, defaults and settings are made of: the data of JSON, with whole numbers
and floating-point numbers kept apart. A mapping keeps its keys in the order in which they first
came; giving a key a new value does not move it.
-/

namespace RouteAtlas

/-- A value of JSON data. -/
inductive Value where
  | null
  | bool (b : Bool)
  | int (i : Int)
  | float (x : Binary64)
  | str (s : String)
  | list (items : List Value)
  | map (entries : List (String × Value))
  deriving Inhabited

section Entries

/-- Gives a key a value: in place when the key is there, at the end otherwise. -/
def putEntry
    {α : Type}
    (key : String)
    (value : α) :
    List (String × α) → List (String × α)
  | [] => [(key, value)]
  | (k, v) :: rest => if k = key then (k, value) :: rest else (k, v) :: putEntry key value rest

/-- Gives a key a value unless it has one. -/
def putMissing
    {α : Type}
    (key : String)
    (value : α)
    (entries : List (String × α)) :
    List (String × α) :=
  if entries.any fun e => e.1 = key then entries else entries ++ [(key, value)]

/-- The entries with each key once, in the order in which keys first came, with their last value. -/
def ofPairs
    {α : Type}
    (pairs : List (String × α)) :
    List (String × α) :=
  pairs.foldl (fun acc p => putEntry p.1 p.2 acc) []

/-- The value of a key. -/
def entryOf?
    {α : Type}
    (key : String) :
    List (String × α) → Option α
  | [] => none
  | (k, v) :: rest => if k = key then some v else entryOf? key rest

end Entries

namespace Value

section Access

/-- The value of a key, when this is a mapping that has the key. -/
def get?
    (v : Value)
    (key : String) :
    Option Value :=
  match v with
  | .map entries => entryOf? key entries
  | _ => none

/-- The text, when this is one. -/
def str? : Value → Option String
  | .str s => some s
  | _ => none

/-- The entries, when this is a mapping. -/
def entries? : Value → Option (List (String × Value))
  | .map entries => some entries
  | _ => none

/-- The items, when this is a list. -/
def items? : Value → Option (List Value)
  | .list items => some items
  | _ => none

/-- Whether a value has no parts. -/
def isScalar : Value → Bool
  | .list _ | .map _ => false
  | _ => true

/-- Whether a value counts as filled: neither null, false, zero nor empty. -/
def isFilled : Value → Bool
  | .null => false
  | .bool b => b
  | .int i => i != 0
  | .float x => !x.isZero
  | .str s => !s.isEmpty
  | .list items => !items.isEmpty
  | .map entries => !entries.isEmpty

end Access

end Value

/-- A value without parts. -/
abbrev Scalar : Type :=
  { v : Value // v.isScalar }

end RouteAtlas
