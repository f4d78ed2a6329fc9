import RouteAtlas.Fault
import RouteAtlas.Number.Numeral
import RouteAtlas.Value

/-!
# Printing JSON

Values as JSON texts, either on one line or with every item on a line of its own. Characters beyond
ASCII stand for themselves; only quotes, backslashes and control characters are escaped. Numbers
that are not finite are written by name. A body with a whole number of too many digits cannot be
written.
-/

namespace RouteAtlas

namespace Json

section Strings

/-- A hexadecimal number of four digits, in lower case. -/
def fourHex (n : Nat) : List Char :=
  let ds := Nat.toDigits 16 n
  List.replicate (4 - ds.length) '0' ++ ds

/-- A character as it stands in a string. -/
def escapeChar (c : Char) : List Char :=
  match c with
  | '"' => ['\\', '"']
  | '\\' => ['\\', '\\']
  | '\n' => ['\\', 'n']
  | '\r' => ['\\', 'r']
  | '\t' => ['\\', 't']
  | _ =>
    if c.toNat = 8 then ['\\', 'b']
    else if c.toNat = 12 then ['\\', 'f']
    else if c.toNat < 32 then '\\' :: 'u' :: fourHex c.toNat
    else [c]

/-- A text as a string of JSON. -/
def quote (s : String) : String :=
  String.ofList ('"' :: (s.toList.flatMap escapeChar ++ ['"']))

end Strings

section Values

/-- The name or the digits of a floating-point number. -/
def floatText : Binary64 → String
  | .notANumber => "NaN"
  | .infinite s => if s then "-Infinity" else "Infinity"
  | x => x.text

/-- What stands between the brackets and around the commas of a printed list or mapping. -/
structure Layout where
  opening : String
  between : String
  closing : String

/-- The layout at a depth of nesting: lines with so many spaces for each level, or one line. -/
def Layout.at
    (indent : Option Nat)
    (depth : Nat) :
    Layout :=
  match indent with
  | none => ⟨"", ", ", ""⟩
  | some width =>
    let newline (d : Nat) := "\n" ++ String.ofList (List.replicate (width * d) ' ')
    ⟨newline (depth + 1), "," ++ newline (depth + 1), newline depth⟩

/-- Items between brackets, nothing at all between the brackets of an empty list. -/
def bracketed
    (left right : String)
    (layout : Layout) :
    List String → String
  | [] => left ++ right
  | item :: items =>
    left ++ layout.opening ++ items.foldl (fun acc i => acc ++ layout.between ++ i) item ++
      layout.closing ++ right

mutual

/-- A value as JSON at a depth of nesting. -/
def printAt
    (indent : Option Nat) :
    Nat → Value → String
  | _, .null => "null"
  | _, .bool b => if b then "true" else "false"
  | _, .int i => toString i
  | _, .float x => floatText x
  | _, .str s => quote s
  | depth, .list items =>
    bracketed "[" "]" (Layout.at indent depth) (printItems indent (depth + 1) items)
  | depth, .map entries =>
    bracketed "\x7b" "\x7d" (Layout.at indent depth) (printEntries indent (depth + 1) entries)

/-- The items of a list as JSON. -/
def printItems
    (indent : Option Nat) :
    Nat → List Value → List String
  | _, [] => []
  | depth, v :: rest => printAt indent depth v :: printItems indent depth rest

/-- The entries of a mapping as JSON. -/
def printEntries
    (indent : Option Nat) :
    Nat → List (String × Value) → List String
  | _, [] => []
  | depth, (k, v) :: rest =>
    (quote k ++ ": " ++ printAt indent depth v) :: printEntries indent depth rest

end

/-- A value as JSON. -/
def print
    (indent : Option Nat)
    (v : Value) :
    String :=
  printAt indent 0 v

mutual

/-- Whether all whole numbers of a value may be written. -/
def isWritable : Value → Bool
  | .int i => Numeral.isWritable i
  | .list items => areWritable items
  | .map entries => entriesAreWritable entries
  | _ => true

/-- Whether all whole numbers of some values may be written. -/
def areWritable : List Value → Bool
  | [] => true
  | v :: rest => isWritable v && areWritable rest

/-- Whether all whole numbers of some entries may be written. -/
def entriesAreWritable : List (String × Value) → Bool
  | [] => true
  | (_, v) :: rest => isWritable v && entriesAreWritable rest

end

/-- A value as the body of a request: one item a line, two spaces for each level. -/
def body (v : Value) : Except Fault String :=
  if isWritable v then .ok (print (some 2) v) else .error .invalidValue

end Values

end Json

end RouteAtlas
