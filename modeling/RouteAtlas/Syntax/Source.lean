import RouteAtlas.Syntax.Node
import RouteAtlas.Text.Blank
import RouteAtlas.Text.Word

/-!
# Source texts

A source text is read at offsets. This module finds where the next token starts, past white space
and comments, and how far the lexical elements of the language reach: names, numbers, strings,
regular expressions. It also decides where a line break ends a statement.
-/

namespace RouteAtlas.Syntax

/-- The two dialects: plain, where angle brackets may assert a type, and with markup. -/
inductive Dialect where
  | plain
  | markup
  deriving DecidableEq, Repr

/-- A source text, with the number of line breaks before each offset. -/
structure Source where
  dialect : Dialect
  chars : Array Char
  breaks : Array Nat

namespace Source

section Access

/-- The number of line breaks before each offset, the end included. -/
def countBreaks (cs : List Char) : Array Nat :=
  (cs.foldl (fun acc c =>
    let n := acc.2 + if c = '\n' then 1 else 0
    (acc.1.push n, n)) (#[0], 0)).1

/-- A text in a dialect. -/
def ofText
    (dialect : Dialect)
    (text : String) :
    Source :=
  let cs := text.toList
  ⟨dialect, cs.toArray, countBreaks cs⟩

/-- The length of the text. -/
def size (s : Source) : Nat :=
  s.chars.size

/-- The character at an offset; the null character stands for the end. -/
def at_
    (s : Source)
    (i : Nat) :
    Char :=
  s.chars.getD i (Char.ofNat 0)

/-- The line of an offset, counted from one. -/
def lineAt
    (s : Source)
    (i : Nat) :
    Nat :=
  s.breaks.getD i 0 + 1

/-- The text between two offsets. -/
def slice
    (s : Source)
    (start stop : Nat) :
    String :=
  String.ofList (s.chars.extract start stop).toList

/-- Whether a word stands at an offset. -/
def holds
    (s : Source) :
    List Char → Nat → Bool
  | [], _ => true
  | c :: rest, i => i < s.size && s.at_ i == c && s.holds rest (i + 1)

/-- The first offset from a given one on whose character is not of a class. The third argument
bounds the distance. -/
def scanWhile
    (s : Source)
    (p : Char → Bool) :
    Nat → Nat → Nat
  | 0, i => i
  | n + 1, i => if i < s.size && p (s.at_ i) then s.scanWhile p n (i + 1) else i

/-- The first offset from a given one on whose character is not of a class. -/
def skipWhile
    (s : Source)
    (p : Char → Bool)
    (i : Nat) :
    Nat :=
  s.scanWhile p (s.size - i) i

/-- The first offset from a given one on where a word stands, or the end. -/
def scanUntil
    (s : Source)
    (word : List Char) :
    Nat → Nat → Nat
  | 0, _ => s.size
  | n + 1, i => if s.holds word i then i else s.scanUntil word n (i + 1)

end Access

section Gaps

/-- White space between tokens, byte order marks and joiners included. -/
def isGap (c : Char) : Bool :=
  Text.isBlank c || c.toNat == 0xFEFF || c.toNat == 0x200B || c.toNat == 0x2060

/-- The end of a comment that starts at an offset, if one does. -/
def commentEnd?
    (s : Source)
    (i : Nat) :
    Option Nat :=
  if s.holds ['/', '/'] i then some (s.skipWhile (· != '\n') i)
  else if s.holds ['/', '*'] i then
    some (min s.size (s.scanUntil ['*', '/'] (s.size - i) (i + 2) + 2))
  else none

/-- The start of the next token. The first argument bounds the number of comments. -/
def skipGaps
    (s : Source) :
    Nat → Nat → Nat
  | 0, i => i
  | n + 1, i =>
    let j := s.skipWhile isGap i
    match s.commentEnd? j with
    | some k => s.skipGaps n k
    | none => j

/-- The start of the next token at or after an offset. -/
def next
    (s : Source)
    (i : Nat) :
    Nat :=
  s.skipGaps (s.size + 1) i

/-- The comments between two offsets, each with its start and end. -/
def commentsFrom
    (s : Source) :
    Nat → Nat → Nat → List (Nat × Nat)
  | 0, _, _ => []
  | n + 1, i, stop =>
    let j := s.skipWhile isGap i
    if j < stop then
      match s.commentEnd? j with
      | some k => (j, k) :: s.commentsFrom n k stop
      | none => []
    else []

/-- Whether a line break stands between two offsets. -/
def breaksBetween
    (s : Source)
    (i j : Nat) :
    Bool :=
  s.lineAt i < s.lineAt j

end Gaps

section Names

/-- A character that may start a name. -/
def isNameStart (c : Char) : Bool :=
  c.isAlpha || c == '_' || c == '$' || c == '\\' || (127 < c.toNat && !isGap c)

/-- A character that may continue a name. -/
def isNamePart (c : Char) : Bool :=
  isNameStart c || c.isDigit

/-- The end of an escaped character of a name: a backslash, the letter u and hexadecimal digits,
which may stand in braces. -/
def nameEnd
    (s : Source) :
    Nat → Nat → Nat
  | 0, i => i
  | n + 1, i =>
    if i < s.size && isNamePart (s.at_ i) then
      if s.at_ i == '\\' && s.at_ (i + 2) == '\x7b' then
        s.nameEnd n (s.skipWhile (· != '\x7d') i + 1)
      else s.nameEnd n (i + 1)
    else i

/-- The end of a name that starts at an offset, if one does. -/
def nameEnd?
    (s : Source)
    (i : Nat) :
    Option Nat :=
  if i < s.size && isNameStart (s.at_ i) then some (s.nameEnd (s.size - i) i) else none

/-- The name at an offset, or the empty text. -/
def nameAt
    (s : Source)
    (i : Nat) :
    String :=
  match s.nameEnd? i with
  | some j => s.slice i j
  | none => ""

end Names

section Literals

/-- The end of the digits, letters, points and underscores of a number, with the sign of its
exponent. -/
def numberEnd
    (s : Source)
    (hex : Bool) :
    Nat → Nat → Nat
  | 0, i => i
  | n + 1, i =>
    let c := s.at_ i
    if i < s.size && (c.isAlphanum || c == '_' || c == '.') then
      let signed := !hex && (c == 'e' || c == 'E') && (s.at_ (i + 1) == '+' || s.at_ (i + 1) == '-')
      s.numberEnd hex n (if signed then i + 2 else i + 1)
    else i

/-- The end of a number that starts at an offset, if one does. -/
def numberEnd?
    (s : Source)
    (i : Nat) :
    Option Nat :=
  let c := s.at_ i
  if c.isDigit || (c == '.' && (s.at_ (i + 1)).isDigit) then
    let marker := s.at_ (i + 1)
    let based := c == '0' && (marker.toLower == 'x' || marker.toLower == 'o' || marker.toLower == 'b')
    some (s.numberEnd based (s.size - i) i)
  else none

/-- The end of an escape sequence after its backslash: octal digits, two or four hexadecimal digits,
a code point in braces, a line break, or one character. -/
def escapeEnd
    (s : Source)
    (i : Nat) :
    Nat :=
  let c := s.at_ (i + 1)
  if c == 'x' then i + 4
  else if c == 'u' then
    if s.at_ (i + 2) == '\x7b' then s.skipWhile (· != '\x7d') i + 1 else i + 6
  else if '0' ≤ c && c ≤ '7' then
    min (i + 4) (s.skipWhile (fun d => '0' ≤ d && d ≤ '7') (i + 1))
  else if c == '\r' && s.at_ (i + 2) == '\n' then i + 3
  else i + 2

/-- The end of a regular expression after its opening slash: at a slash outside brackets. -/
def regexEnd
    (s : Source)
    (inBrackets : Bool) :
    Nat → Nat → Option Nat
  | 0, _ => none
  | n + 1, i =>
    let c := s.at_ i
    if s.size ≤ i || c == '\n' then none
    else if c == '\\' then s.regexEnd inBrackets n (i + 2)
    else if c == '[' then s.regexEnd true n (i + 1)
    else if c == ']' then s.regexEnd false n (i + 1)
    else if c == '/' && !inBrackets then some i
    else s.regexEnd inBrackets n (i + 1)

/-- The end of a string or template that starts at an offset, for skipping over it. -/
def quotedEnd
    (s : Source)
    (quote : Char) :
    Nat → Nat → Nat
  | 0, i => i
  | n + 1, i =>
    if s.size ≤ i then i
    else if s.at_ i == '\\' then s.quotedEnd quote n (i + 2)
    else if s.at_ i == quote then i + 1
    else s.quotedEnd quote n (i + 1)

end Literals

section StatementEnds

/-- Whether a character is one of the three quotes. -/
def isQuote (c : Char) : Bool :=
  c == '"' || c.toNat == 39 || c.toNat == 96

/-- Whether the word that starts at an offset continues what stands on the line before. A bracket or
parenthesis continues an expression but not a type. -/
def continuesLine
    (s : Source)
    (inType : Bool)
    (i : Nat) :
    Bool :=
  let c := s.at_ i
  if c == '+' then s.at_ (i + 1) != '+'
  else if c == '-' then s.at_ (i + 1) != '-'
  else if c == '!' then s.at_ (i + 1) == '='
  else if c == 'i' then s.nameAt i == "in" || s.nameAt i == "instanceof"
  else if c == '(' || c == '[' then !inType
  else c.toNat == 96 || ",.;*%><=?^|&/:".toList.contains c

/-- Whether a statement may end at an offset without a semicolon: at the end of the text, before a
closing brace, or before a line break that the next line does not continue. -/
def endsHere
    (s : Source)
    (inType : Bool)
    (i : Nat) :
    Bool :=
  let j := s.skipWhile (fun c => isGap c && c != '\n') i
  if s.size ≤ j then true
  else if s.at_ j == '\n' then
    let k := s.next j
    s.size ≤ k || !s.continuesLine inType k
  else
    s.at_ (s.next j) == '\x7d'

/-- Where a statement ends that has no semicolon: here, or after comments that start on this line.
The first argument bounds the number of comments. -/
def statementEnd?
    (s : Source)
    (inType : Bool) :
    Nat → Nat → Option Nat
  | 0, _ => none
  | n + 1, i =>
    if s.endsHere inType i then some i
    else
      match s.commentEnd? (s.skipWhile isGap i) with
      | some j => s.statementEnd? inType n j
      | none => none

end StatementEnds

end Source

end RouteAtlas.Syntax
