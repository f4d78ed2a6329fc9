import RouteAtlas.Number.Numeral
import RouteAtlas.Value

/-!
# Reading JSON

A reader of JSON texts. Beyond the standard it knows the names `NaN`, `Infinity` and `-Infinity`.
When a mapping repeats a key, the last value counts. A whole number with too many digits is a fault
of its own, because its form is right.
-/

namespace RouteAtlas

namespace Json

/-- Why a text is no JSON value. -/
inductive Fault where
  | malformed
  | tooManyDigits
  deriving Repr, DecidableEq

section Lexical

/-- White space between the tokens of JSON. -/
def isSpace (c : Char) : Bool :=
  c == ' ' || c == '\t' || c == '\n' || c == '\r'

/-- A text from its first token on. -/
def skipSpace (cs : List Char) : List Char :=
  cs.dropWhile isSpace

/-- The character that a one-letter escape stands for. -/
def simpleEscape? : Char → Option Char
  | '"' => some '"'
  | '\\' => some '\\'
  | '/' => some '/'
  | 'b' => some (Char.ofNat 8)
  | 'f' => some (Char.ofNat 12)
  | 'n' => some '\n'
  | 'r' => some '\r'
  | 't' => some '\t'
  | _ => none

/-- Four hexadecimal digits at the start of a text. -/
def unit? : List Char → Option (Nat × List Char)
  | a :: b :: c :: d :: rest =>
    (Numeral.readBase? 16 [a, b, c, d]).map fun n => (n, rest)
  | _ => none

/-- The character of a code point; half of a surrogate pair becomes the replacement character. -/
def charOf (n : Nat) : Char :=
  if n.isValidChar then Char.ofNat n else Char.ofNat 0xFFFD

/-- Whether a code unit is the first half of a surrogate pair. -/
def isHighHalf (n : Nat) : Bool :=
  0xD800 ≤ n && n < 0xDC00

/-- Whether a code unit is the second half of a surrogate pair. -/
def isLowHalf (n : Nat) : Bool :=
  0xDC00 ≤ n && n < 0xE000

/-- The character after a backslash and the letter u, with its second half if it has one. -/
def unicodeEscape? (cs : List Char) : Option (Char × List Char) :=
  match unit? cs with
  | none => none
  | some (n, rest) =>
    if isHighHalf n then
      match rest with
      | '\\' :: 'u' :: more =>
        match unit? more with
        | some (m, rest') =>
          if isLowHalf m then
            some (charOf (0x10000 + (n - 0xD800) * 0x400 + (m - 0xDC00)), rest')
          else some (charOf n, rest)
        | none => some (charOf n, rest)
      | _ => some (charOf n, rest)
    else some (charOf n, rest)

/-- Reads the inside of a string up to its closing quote. The first argument bounds the number of
characters. -/
def readChars : Nat → List Char → Option (List Char × List Char)
  | 0, _ => none
  | _ + 1, [] => none
  | n + 1, c :: rest =>
    if c = '"' then some ([], rest)
    else if c = '\\' then
      match rest with
      | [] => none
      | e :: rest' =>
        if e = 'u' then
          match unicodeEscape? rest' with
          | none => none
          | some (d, rest'') => (readChars n rest'').map fun r => (d :: r.1, r.2)
        else
          match simpleEscape? e with
          | none => none
          | some d => (readChars n rest').map fun r => (d :: r.1, r.2)
    else if c.toNat < 32 then none
    else (readChars n rest).map fun r => (c :: r.1, r.2)

/-- Reads a string after its opening quote. -/
def readString (cs : List Char) : Except Fault (String × List Char) :=
  match readChars (cs.length + 1) cs with
  | some (inside, rest) => .ok (String.ofList inside, rest)
  | none => .error .malformed

end Lexical

section Numbers

/-- The digits after a point, when there is at least one; the text is left alone otherwise. -/
def fraction : List Char → List Char × List Char
  | '.' :: rest =>
    let ds := rest.takeWhile Char.isDigit
    if ds.isEmpty then ([], '.' :: rest) else (ds, rest.dropWhile Char.isDigit)
  | cs => ([], cs)

/-- The exponent after its letter, when it has at least one digit. -/
def exponent? : List Char → Option (Int × List Char)
  | e :: rest =>
    if e = 'e' || e = 'E' then
      let (negative, more) := Numeral.takeSign rest
      let ds := more.takeWhile Char.isDigit
      match Numeral.readBase? 10 ds with
      | some n => some (if negative then -(n : Int) else n, more.dropWhile Char.isDigit)
      | none => none
    else none
  | [] => none

/-- The digits of a whole part: a zero alone, or digits that do not start with zero. -/
def wholePart : List Char → List Char × List Char
  | '0' :: rest => (['0'], rest)
  | cs => (cs.takeWhile Char.isDigit, cs.dropWhile Char.isDigit)

/-- Reads a number at the start of a text. -/
def readNumber (cs : List Char) : Except Fault (Value × List Char) :=
  let (negative, unsigned) :=
    match cs with
    | '-' :: rest => (true, rest)
    | _ => (false, cs)
  let (whole, afterWhole) := wholePart unsigned
  if whole.isEmpty then .error .malformed
  else
    let (part, afterPart) := fraction afterWhole
    match exponent? afterPart, part.isEmpty with
    | none, true =>
      if Numeral.maxDigits < whole.length then .error .tooManyDigits
      else
        let n : Int := Numeral.ofDigits 10 (whole.map fun c => c.toNat - 48)
        .ok (.int (if negative then -n else n), afterWhole)
    | some (e, rest), _ =>
      .ok (.float (Numeral.Decimal.toBinary64 ⟨whole ++ part, part.length, e⟩ negative), rest)
    | none, false =>
      .ok (.float (Numeral.Decimal.toBinary64 ⟨whole ++ part, part.length, 0⟩ negative), afterPart)

end Numbers

section Values

/-- The words of JSON, each with its value. -/
def words : List (String × Value) :=
  [("null", .null), ("true", .bool true), ("false", .bool false), ("NaN", .float .notANumber),
   ("Infinity", .float (.infinite false)), ("-Infinity", .float (.infinite true))]

/-- A word at the start of a text. -/
def readWord? (cs : List Char) : Option (Value × List Char) :=
  words.findSome? fun w => (Text.afterStart? w.1.toList cs).map fun rest => (w.2, rest)

mutual

/-- Reads a value at the start of a text that begins with a token. The first argument bounds the
nesting and the number of items. -/
def readValue : Nat → List Char → Except Fault (Value × List Char)
  | 0, _ => .error .malformed
  | n + 1, cs =>
    match cs with
    | '"' :: rest => (readString rest).map fun r => (.str r.1, r.2)
    | '[' :: rest =>
      match skipSpace rest with
      | ']' :: rest' => .ok (.list [], rest')
      | rest' => (readItems n rest').map fun r => (.list r.1, r.2)
    | '\x7b' :: rest =>
      match skipSpace rest with
      | '\x7d' :: rest' => .ok (.map [], rest')
      | rest' => (readMembers n rest').map fun r => (.map (ofPairs r.1), r.2)
    | _ =>
      match readWord? cs with
      | some r => .ok r
      | none => readNumber cs

/-- Reads the items of a list up to its closing bracket. -/
def readItems : Nat → List Char → Except Fault (List Value × List Char)
  | 0, _ => .error .malformed
  | n + 1, cs =>
    match readValue n cs with
    | .error e => .error e
    | .ok (v, rest) =>
      match skipSpace rest with
      | ']' :: rest' => .ok ([v], rest')
      | ',' :: rest' => (readItems n (skipSpace rest')).map fun r => (v :: r.1, r.2)
      | _ => .error .malformed

/-- Reads the members of a mapping up to its closing brace. -/
def readMembers : Nat → List Char → Except Fault (List (String × Value) × List Char)
  | 0, _ => .error .malformed
  | n + 1, cs =>
    match cs with
    | '"' :: rest =>
      match readString rest with
      | .error e => .error e
      | .ok (key, afterKey) =>
        match skipSpace afterKey with
        | ':' :: rest' =>
          match readValue n (skipSpace rest') with
          | .error e => .error e
          | .ok (v, afterValue) =>
            match skipSpace afterValue with
            | '\x7d' :: rest'' => .ok ([(key, v)], rest'')
            | ',' :: rest'' =>
              (readMembers n (skipSpace rest'')).map fun r => ((key, v) :: r.1, r.2)
            | _ => .error .malformed
        | _ => .error .malformed
    | _ => .error .malformed

end

/-- The value that a list of characters denotes. -/
def parseChars (cs : List Char) : Except Fault Value :=
  match readValue (cs.length + 1) (skipSpace cs) with
  | .error e => .error e
  | .ok (v, rest) => if (skipSpace rest).isEmpty then .ok v else .error .malformed

/-- The value that a text denotes. A byte order mark is no part of JSON. -/
def parse (s : String) : Except Fault Value :=
  parseChars s.toList

end Values

end Json

end RouteAtlas
