import RouteAtlas.Json.Reader

/-!
# JSON with comments

Configuration files may hold comments and a comma before a closing bracket. A text that is JSON as
it stands is read as such. From any other text the comments outside strings are dropped, and then
every comma that only white space separates from a closing bracket.
-/

namespace RouteAtlas

namespace Json

section Comments

/-- The rest of a string after its opening quote, up to and with its closing quote, and what follows
it. -/
def stringRest? : List Char → Option (List Char × List Char)
  | [] => none
  | '"' :: rest => some (['"'], rest)
  | ['\\'] => none
  | '\\' :: c :: rest => (stringRest? rest).map fun r => ('\\' :: c :: r.1, r.2)
  | c :: rest => (stringRest? rest).map fun r => (c :: r.1, r.2)

/-- What follows a block comment after its opening. -/
def blockRest? : List Char → Option (List Char)
  | [] => none
  | '*' :: '/' :: rest => some rest
  | _ :: rest => blockRest? rest

/-- A text without the comments outside its strings. The first argument bounds the number of
strings, comments and other characters. -/
def dropCommentsUpTo : Nat → List Char → List Char
  | 0, _ => []
  | _ + 1, [] => []
  | n + 1, '"' :: rest =>
    match stringRest? rest with
    | some (body, more) => '"' :: body ++ dropCommentsUpTo n more
    | none => '"' :: dropCommentsUpTo n rest
  | n + 1, '/' :: '/' :: rest => dropCommentsUpTo n (rest.dropWhile (· != '\n'))
  | n + 1, '/' :: '*' :: rest =>
    match blockRest? rest with
    | some more => dropCommentsUpTo n more
    | none => '/' :: dropCommentsUpTo n ('*' :: rest)
  | n + 1, c :: rest => c :: dropCommentsUpTo n rest

/-- A text without the comments outside its strings. -/
def dropComments (cs : List Char) : List Char :=
  dropCommentsUpTo cs.length cs

end Comments

section Commas

/-- Whether only white space separates a text from a closing bracket. -/
def closesNext (cs : List Char) : Bool :=
  match cs.dropWhile Text.isBlank with
  | c :: _ => c == '\x7d' || c == ']'
  | [] => false

/-- A text without the commas that stand before a closing bracket. -/
def dropFinalCommas : List Char → List Char
  | [] => []
  | c :: rest =>
    if c == ',' && closesNext rest then dropFinalCommas rest else c :: dropFinalCommas rest

end Commas

section Reading

/-- The value of a text that may hold comments and final commas. -/
def parseWithComments (s : String) : Except Fault Value :=
  let cs := s.toList
  match parseChars cs with
  | .ok v => .ok v
  | .error _ => parseChars (dropFinalCommas (dropComments cs))

end Reading

end Json

end RouteAtlas
