import RouteAtlas.Number.Binary64
import RouteAtlas.Text.Blank
import RouteAtlas.Text.Word

/-!
# Numerals

The texts that denote numbers. A whole number may be written with any script's decimal digits and
with single underscores between digits, and is refused beyond a fixed number of digits. A
floating-point number has the usual decimal form, or names an infinity or not-a-number in any case.
-/

namespace RouteAtlas

namespace Numeral

section Digits

/-- The greatest number of decimal digits that a whole number may be written with. -/
def maxDigits : Nat :=
  4300

/-- Whether a whole number has no more decimal digits than one may be written with. -/
def isWritable (i : Int) : Bool :=
  i.natAbs < Nat.pow 10 maxDigits

/-- The value of a digit in bases up to sixteen. -/
def hexValue? (c : Char) : Option Nat :=
  let n := c.toNat
  if 48 ≤ n && n ≤ 57 then some (n - 48)
  else if 65 ≤ n && n ≤ 70 then some (n - 55)
  else if 97 ≤ n && n ≤ 102 then some (n - 87)
  else none

/-- The number that a list of digits denotes in a base. -/
def ofDigits
    (base : Nat)
    (digits : List Nat) :
    Nat :=
  digits.foldl (fun acc d => acc * base + d) 0

/-- The number that a list of characters denotes in a base, when each is a digit of it. -/
def readBase?
    (base : Nat)
    (cs : List Char) :
    Option Nat :=
  if cs.isEmpty then none
  else (cs.mapM fun c => (hexValue? c).filter (· < base)).map (ofDigits base)

/-- A text with every decimal digit written in ASCII and every white space as a plain space. -/
def plain (cs : List Char) : List Char :=
  cs.map fun c =>
    match Text.digitValue? c with
    | some d => Char.ofNat (48 + d)
    | none => if Text.isBlank c then ' ' else c

/-- Drops single underscores between two digits; any other underscore spoils the numeral. -/
def withoutUnderscores? : List Char → Option (List Char)
  | [] => some []
  | ['_'] => none
  | c :: '_' :: d :: rest =>
    if c.isDigit && d.isDigit then (withoutUnderscores? (d :: rest)).map (c :: ·)
    else none
  | c :: rest => if c = '_' then none else (withoutUnderscores? rest).map (c :: ·)
  termination_by cs => cs.length

/-- Reads a sign, if there is one; the result says whether it is a minus. -/
def takeSign : List Char → Bool × List Char
  | '-' :: rest => (true, rest)
  | '+' :: rest => (false, rest)
  | cs => (false, cs)

end Digits

section Whole

/-- The whole number that a text denotes, white space at both ends allowed. -/
def readInt? (s : String) : Option Int :=
  let cs := Text.dropEnds Text.isBlank (plain s.toList)
  let (negative, digits) := takeSign cs
  match digits.head?.filter Char.isDigit, withoutUnderscores? digits with
  | some _, some ds =>
    if maxDigits < ds.length then none
    else
      (readBase? 10 ds).map fun n => if negative then -(n : Int) else n
  | _, _ => none

end Whole

section Floating

/-- The parts of a decimal: digits, the count of them after the point, and the exponent. -/
structure Decimal where
  digits : List Char
  places : Nat
  exponent : Int

/-- The floating-point number nearest to a decimal. -/
def Decimal.toBinary64
    (d : Decimal)
    (negative : Bool) :
    Binary64 :=
  Binary64.ofDecimal negative (ofDigits 10 (d.digits.map fun c => c.toNat - 48))
    (d.exponent - d.places)

/-- Reads the exponent part of a decimal, which takes all that is left. -/
def readExponent? : List Char → Option Int
  | [] => some 0
  | e :: rest =>
    if e = 'e' || e = 'E' then
      let (negative, ds) := takeSign rest
      if ds.all Char.isDigit then
        (readBase? 10 ds).map fun n => if negative then -(n : Int) else n
      else none
    else none

/-- Reads a decimal without a sign: digits with an optional point and an optional exponent. -/
def readDecimal? (cs : List Char) : Option Decimal :=
  let whole := cs.takeWhile Char.isDigit
  let afterWhole := cs.dropWhile Char.isDigit
  let (part, rest) :=
    match afterWhole with
    | '.' :: more => (more.takeWhile Char.isDigit, more.dropWhile Char.isDigit)
    | _ => ([], afterWhole)
  if whole.isEmpty && part.isEmpty then none
  else (readExponent? rest).map fun e => ⟨whole ++ part, part.length, e⟩

/-- The names of the numbers that are not finite, in lower case. -/
def readNamed?
    (negative : Bool)
    (cs : List Char) :
    Option Binary64 :=
  let name := String.ofList (cs.map Char.toLower)
  if name == "inf" || name == "infinity" then some (.infinite negative)
  else if name == "nan" then some .notANumber
  else none

/-- The floating-point number that a text denotes, white space at both ends allowed. -/
def readFloat? (s : String) : Option Binary64 :=
  match withoutUnderscores? (Text.dropEnds Text.isBlank (plain s.toList)) with
  | none => none
  | some cs =>
    let (negative, rest) := takeSign cs
    match readNamed? negative rest with
    | some x => some x
    | none => (readDecimal? rest).map fun d => d.toBinary64 negative

end Floating

end Numeral

end RouteAtlas
