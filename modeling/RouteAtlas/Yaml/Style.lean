import RouteAtlas.Text.Pattern
import RouteAtlas.Yaml.Reader

/-!
# Styles of scalars

How a text is written as a YAML scalar: as it is, where it cannot be taken for anything else; between
single quotation marks, where only they need care; and between double quotation marks with escapes
otherwise. Texts are folded at blanks when a line has become too long.
-/

namespace RouteAtlas.Yaml

open Text (Pattern CharClass)

section Readings

/-- A digit of ASCII. -/
def asciiDigit : Pattern :=
  .ofClass (.range '0' '9')

/-- Digits that may be grouped by underscores. -/
def groupedDigits : Pattern :=
  .many (.ofClass (.either (.range '0' '9') (.one '_')))

/-- A sign, or nothing. -/
def optionalSign : Pattern :=
  .optional (.ofClass (.ofText "+-"))

/-- An exponent with a sign, or nothing. -/
def optionalExponent : Pattern :=
  .optional (.inOrder [.ofClass (.ofText "eE"), .ofClass (.ofText "+-"), .some_ asciiDigit])

/-- The further parts of a numeral in base sixty. -/
def sixtieths : Pattern :=
  .some_ (.inOrder [.word ":", .optional (.ofClass (.range '0' '5')), asciiDigit])

/-- A floating-point number. -/
def floatSpelling : Pattern :=
  .anyOf [
    .inOrder [optionalSign, asciiDigit, groupedDigits, .word ".", groupedDigits, optionalExponent],
    .inOrder [.word ".", asciiDigit, groupedDigits, optionalExponent],
    .inOrder [optionalSign, asciiDigit, groupedDigits, sixtieths, .word ".", groupedDigits],
    .inOrder [optionalSign, .words [".inf", ".Inf", ".INF"]],
    .words [".nan", ".NaN", ".NAN"]]

/-- A whole number. -/
def intSpelling : Pattern :=
  let digitsOf (k : CharClass) : Pattern := .some_ (.ofClass (.either k (.one '_')))
  let leading : Pattern := .ofClass (.range '1' '9')
  .seq optionalSign (.anyOf [
    .seq (.word "0b") (digitsOf (.range '0' '1')),
    .seq (.word "0") (digitsOf (.range '0' '7')),
    .word "0",
    .seq leading groupedDigits,
    .seq (.word "0x")
      (digitsOf (.either (.range '0' '9') (.either (.range 'a' 'f') (.range 'A' 'F')))),
    .inOrder [leading, groupedDigits, sixtieths]])

/-- So many digits. -/
def digits
    (least most : Nat) :
    Pattern :=
  .times asciiDigit least (some most) true

/-- A date, or a date with a time. -/
def timeSpelling : Pattern :=
  let gap : Pattern := .ofClass (.ofText " \t")
  let zone : Pattern := .anyOf [.word "Z",
    .inOrder [.ofClass (.ofText "+-"), digits 1 2, .optional (.seq (.word ":") (digits 2 2))]]
  .anyOf [
    .inOrder [digits 4 4, .word "-", digits 2 2, .word "-", digits 2 2],
    .inOrder [digits 4 4, .word "-", digits 1 2, .word "-", digits 1 2,
      .anyOf [.ofClass (.ofText "Tt"), .some_ gap], digits 1 2, .word ":", digits 2 2, .word ":",
      digits 2 2, .optional (.seq (.word ".") (.many asciiDigit)),
      .optional (.seq (.many gap) zone)]]

/-- Whether a plain scalar with this spelling is a text: no word for something else, no number and
no time. -/
def readsAsText (s : String) : Bool :=
  !(nullWords ++ trueWords ++ falseWords ++ ["=", "<<"]).contains s &&
    !([intSpelling, floatSpelling, timeSpelling].any fun p => p.fits s)

end Readings

section Characters

/-- Whether a character ends a line in a scalar that is written. -/
def breaksLine (c : Char) : Bool :=
  c = '\n' || c.toNat == 133 || c.toNat == 8232 || c.toNat == 8233

/-- Whether a character separates what stands around it. -/
def separates (c : Char) : Bool :=
  c = ' ' || c = '\t' || c = '\r' || c.toNat == 0 || breaksLine c

/-- Whether what comes next separates, or the text is at its end. -/
def separatedNext : List Char → Bool
  | [] => true
  | c :: _ => separates c

/-- Whether a character can only be written by an escape. -/
def isUnprintable (c : Char) : Bool :=
  let n := c.toNat
  !(c = '\n' || (32 ≤ n && n ≤ 126) || n == 133 || (160 ≤ n && n ≤ 65533) ||
    (65536 ≤ n && n < 1114111)) || n == 65279

end Characters

section Styles

/-- How a scalar is written. -/
inductive Style where
  | plain
  | single
  | double
  deriving Repr, DecidableEq, Inhabited

/-- Whether a colon or a number sign after the first character has a meaning. The first argument is
the character before. -/
def hasLaterSign : Char → List Char → Bool
  | _, [] => false
  | before, c :: rest =>
    (c = ':' && separatedNext rest) || (c = '#' && separates before) || hasLaterSign c rest

/-- Whether a text that is written as it is would be taken for something else than a scalar. -/
def hasSign (cs : List Char) : Bool :=
  ['-', '-', '-'].isPrefixOf cs || ['.', '.', '.'].isPrefixOf cs ||
    match cs with
    | [] => false
    | c :: rest =>
      "#,[]\x7b\x7d&*!|>'\"%@`".toList.contains c ||
        ((c = '?' || c = ':' || c = '-') && separatedNext rest) || hasLaterSign c rest

/-- Whether two neighbouring characters are related. -/
def hasNeighbours
    (related : Char → Char → Bool) :
    List Char → Bool
  | c :: d :: rest => related c d || hasNeighbours related (d :: rest)
  | _ => false

/-- Whether blanks and line breaks stand next to each other, or a character needs an escape. -/
def needsEscapes (cs : List Char) : Bool :=
  cs.any isUnprintable ||
    hasNeighbours (fun c d => (c = ' ' && breaksLine d) || (breaksLine c && d = ' ')) cs

/-- Whether a text may be written as it is. -/
def isPlain (s : String) : Bool :=
  let cs := s.toList
  readsAsText s && !needsEscapes cs && !hasSign cs && !cs.any breaksLine &&
    cs.head? != some ' ' && cs.getLast? != some ' '

/-- The style of a text. -/
def styleOf (s : String) : Style :=
  if isPlain s then .plain
  else if needsEscapes s.toList then .double
  else .single

end Styles

section Folding

/-- The column beyond which a line is too long. -/
def maxColumn : Nat :=
  80

/-- Where and how a scalar is written: the column of its continuation lines, and whether it may be
folded. -/
structure Margin where
  indent : Nat
  folds : Bool

/-- A new line up to the indentation. -/
def Margin.newLine (m : Margin) : List Char :=
  '\n' :: List.replicate m.indent ' '

/-- Splits a text into runs of blanks, of line breaks and of other characters. -/
def runs (cs : List Char) : List (List Char) :=
  cs.splitBy fun c d => (c = ' ') == (d = ' ') && breaksLine c == breaksLine d

/-- A line break in a scalar. A newline in front of others is written twice, because one would be
read as a blank. -/
def writtenBreaks
    (m : Margin)
    (breaks : List Char) :
    List Char :=
  let first := if breaks.head? = some '\n' then ['\n'] else []
  first ++ breaks ++ List.replicate m.indent ' '

/-- Writes runs from a column on. A single blank between others becomes a new line when the line is
too long. The second argument says whether something stands before. -/
def writeRuns (m : Margin) : Bool → Nat → List (List Char) → List Char
  | _, _, [] => []
  | inside, column, run :: rest =>
    if run.any breaksLine then
      writtenBreaks m run ++ writeRuns m true m.indent rest
    else if run = [' '] && m.folds && inside && !rest.isEmpty && maxColumn < column then
      m.newLine ++ writeRuns m true m.indent rest
    else
      run ++ writeRuns m true (column + run.length) rest

/-- A text between single quotation marks, from a column on. A quotation mark is written twice. -/
def singleQuoted
    (m : Margin)
    (column : Nat)
    (cs : List Char) :
    List Char :=
  let doubled (run : List Char) := run.flatMap fun c => if c = '\'' then [c, c] else [c]
  '\'' :: (writeRuns m false (column + 1) ((runs cs).map doubled) ++ ['\''])

/-- The letters by which characters are escaped. -/
def escapeLetters : List (Nat × Char) :=
  [(0, '0'), (7, 'a'), (8, 'b'), (9, 't'), (10, 'n'), (11, 'v'), (12, 'f'), (13, 'r'), (27, 'e'),
    (34, '"'), (92, '\\'), (133, 'N'), (160, '_'), (8232, 'L'), (8233, 'P')]

/-- Whether a character stands for itself between double quotation marks. -/
def isLiteral (c : Char) : Bool :=
  let n := c.toNat
  ((32 ≤ n && n ≤ 126) || (160 ≤ n && n ≤ 65533)) &&
    !([34, 92, 8232, 8233, 65279].contains n)

/-- The escape of a character. -/
def escapeOf (c : Char) : List Char :=
  let digits := (Nat.toDigits 16 c.toNat).map Char.toUpper
  let padded (width : Nat) := List.replicate (width - digits.length) '0' ++ digits
  match escapeLetters.find? fun e => e.1 == c.toNat with
  | some (_, letter) => ['\\', letter]
  | none =>
    if c.toNat < 0x100 then '\\' :: 'x' :: padded 2
    else if c.toNat < 0x10000 then '\\' :: 'u' :: padded 4
    else '\\' :: 'U' :: padded 8

/-- The end of a line in double quotes, and the start of the next one before a character. A blank is
escaped there. -/
def escapedBreak
    (m : Margin)
    (next : Option Char) :
    List Char :=
  '\\' :: m.newLine ++ if next = some ' ' then ['\\'] else []

/-- Writes characters between double quotation marks. Pending are those, read backwards, that have
not been counted in the column yet; the first argument tells whether something stands before. -/
def writeEscaped (m : Margin) : Bool → Nat → List Char → List Char → List Char
  | _, _, pending, [] => pending.reverse
  | inside, column, pending, c :: rest =>
    let mayFold := m.folds && inside && !rest.isEmpty
    let start (next : Option Char) := if next = some ' ' then m.indent + 1 else m.indent
    if isLiteral c then
      if mayFold && (c = ' ' || pending.isEmpty) && maxColumn < column + pending.length then
        pending.reverse ++ escapedBreak m (some c) ++ writeEscaped m true (start (some c)) [c] rest
      else writeEscaped m true column (c :: pending) rest
    else
      let column := column + pending.length + (escapeOf c).length
      let written := pending.reverse ++ escapeOf c
      if mayFold && maxColumn + 1 < column then
        written ++ escapedBreak m rest.head? ++ writeEscaped m true (start rest.head?) [] rest
      else written ++ writeEscaped m true column [] rest

/-- A text between double quotation marks, from a column on. -/
def doubleQuoted
    (m : Margin)
    (column : Nat)
    (cs : List Char) :
    List Char :=
  '"' :: (writeEscaped m false (column + 1) [] cs ++ ['"'])

/-- A text as a scalar, from a column on. -/
def writeText
    (m : Margin)
    (column : Nat)
    (s : String) :
    String :=
  String.ofList (match styleOf s with
    | .plain => writeRuns m false column (runs s.toList)
    | .single => singleQuoted m column s.toList
    | .double => doubleQuoted m column s.toList)

end Folding

end RouteAtlas.Yaml
