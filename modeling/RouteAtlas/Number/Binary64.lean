/-!
# Binary floating-point numbers of 64 bits

A number is an exact value `mantissa · 2 ^ exponent` with a sign, one of two infinities, or not a
number. Reading a decimal rounds its exact value to the nearest number, with ties to the even
mantissa. Writing gives the fewest decimal digits that read back to the same number, and among
these the ones nearest to its exact value.
-/

namespace RouteAtlas

/-- A floating-point number. A finite number has a mantissa below `2 ^ 53` and an exponent of at
least `-1074`. -/
inductive Binary64 where
  | finite (negative : Bool) (mantissa : Nat) (exponent : Int)
  | infinite (negative : Bool)
  | notANumber
  deriving Repr, DecidableEq, Inhabited

namespace Binary64

section Rounding

/-- The quotient of two numbers rounded to the nearest whole number, a tie going to the even one. -/
def divideToEven
    (num den : Nat) :
    Nat :=
  let q := num / den
  let twice := 2 * (num % den)
  if twice < den then q
  else if den < twice then q + 1
  else if q % 2 == 0 then q else q + 1

/-- The exponent at which a positive quotient has a mantissa of 53 bits, but never below `-1074`. -/
def exponentOf
    (num den : Nat) :
    Int :=
  let guess : Int := (num.log2 : Int) - (den.log2 : Int) - 52
  -- the quotient lies in one of two neighbouring binades
  let scaled :=
    if 0 ≤ guess then decide (num < den * Nat.pow 2 (52 + guess.toNat))
    else decide (num * Nat.pow 2 (-guess).toNat < den * Nat.pow 2 52)
  max (-1074) (if scaled then guess - 1 else guess)

/-- The number nearest to a quotient. -/
def ofQuotient
    (negative : Bool)
    (num den : Nat) :
    Binary64 :=
  if num == 0 then .finite negative 0 (-1074)
  else
    let e := exponentOf num den
    let m :=
      if 0 ≤ e then divideToEven num (den * Nat.pow 2 e.toNat)
      else divideToEven (num * Nat.pow 2 (-e).toNat) den
    let (m, e) := if m == Nat.pow 2 53 then (Nat.pow 2 52, e + 1) else (m, e)
    if 971 < e then .infinite negative else .finite negative m e

/-- The number nearest to `digits · 10 ^ scale`. -/
def ofDecimal
    (negative : Bool)
    (digits : Nat)
    (scale : Int) :
    Binary64 :=
  let places : Int := (Nat.toDigits 10 digits).length + scale
  if digits == 0 then .finite negative 0 (-1074)
  else if 400 < places then .infinite negative
  else if places < -400 then .finite negative 0 (-1074)
  else if 0 ≤ scale then ofQuotient negative (digits * Nat.pow 10 scale.toNat) 1
  else ofQuotient negative digits (Nat.pow 10 (-scale).toNat)

end Rounding

section Arithmetic

/-- The number with the other sign. -/
def negate : Binary64 → Binary64
  | .finite s m e => .finite (!s) m e
  | .infinite s => .infinite (!s)
  | .notANumber => .notANumber

/-- Whether the number is one of the two zeros. -/
def isZero : Binary64 → Bool
  | .finite _ m _ => m == 0
  | _ => false

/-- Whether this is not-a-number. -/
def isNaN : Binary64 → Bool
  | .notANumber => true
  | _ => false

/-- The whole part of a finite number, towards zero. -/
def truncate? : Binary64 → Option Int
  | .finite s m e =>
    let n := if 0 ≤ e then m * Nat.pow 2 e.toNat else m / Nat.pow 2 (-e).toNat
    some (if s then -(n : Int) else n)
  | _ => none

end Arithmetic

section Writing

/-- A positive number as an exact quotient. -/
def quotientOf
    (mantissa : Nat)
    (exponent : Int) :
    Nat × Nat :=
  if 0 ≤ exponent then (mantissa * Nat.pow 2 exponent.toNat, 1)
  else (mantissa, Nat.pow 2 (-exponent).toNat)

/-- The place `k` of the first decimal digit of a positive quotient `x`: `10 ^ (k - 1) ≤ x < 10 ^ k`.
The search walks down from a bound above every finite number. -/
def leadingPlace
    (num den : Nat) :
    Nat → Int → Int
  | 0, k => k
  | steps + 1, k =>
    let below :=
      if 0 ≤ k - 1 then decide (num < den * Nat.pow 10 (k - 1).toNat)
      else decide (num * Nat.pow 10 (1 - k).toNat < den)
    if below then leadingPlace num den steps (k - 1) else k

/-- A first guess at `leadingPlace` from the number of binary digits, never below the place. -/
def placeBound
    (num den : Nat) :
    Int :=
  ((num.log2 : Int) + 1 - den.log2) * 30103 / 100000 + 2

/-- The decimals `c · 10 ^ scale` next to a quotient, the nearer one first and a tie going to the
even one. -/
def neighbours
    (num den : Nat)
    (scale : Int) :
    List Nat :=
  let (num, den) :=
    if 0 ≤ scale then (num, den * Nat.pow 10 scale.toNat) else (num * Nat.pow 10 (-scale).toNat, den)
  let low := num / den
  let near := divideToEven num den
  if near == low then [low, low + 1] else [low + 1, low]

/-- The fewest decimal digits that read back to a positive number, with their scale. -/
def shortestFrom
    (mantissa : Nat)
    (exponent : Int)
    (num den : Nat)
    (place : Int) :
    Nat → Nat → Nat × Int
  | 0, count => ((neighbours num den (place - count)).headD 0, place - count)
  | steps + 1, count =>
    let scale := place - count
    let hit := (neighbours num den scale).find? fun c =>
      ofDecimal false c scale == .finite false mantissa exponent
    match hit with
    | some c => (c, scale)
    | none => shortestFrom mantissa exponent num den place steps (count + 1)

/-- The fewest decimal digits that read back to a positive number and the power of ten of the last
one. -/
def shortest
    (mantissa : Nat)
    (exponent : Int) :
    Nat × Int :=
  let (num, den) := quotientOf mantissa exponent
  let bound := placeBound num den
  let place := leadingPlace num den 5 bound
  shortestFrom mantissa exponent num den place 16 1

/-- Drops the zeros at the end of a list of digits, but never its first digit. -/
def withoutFinalZeros
    (digits : List Char) :
    List Char :=
  match digits with
  | [] => []
  | d :: ds => d :: (ds.reverse.dropWhile (· == '0')).reverse

/-- Decimal digits with the point after the given place: positional from `10 ^ -4` up to below
`10 ^ 16`, with an exponent of at least two digits otherwise. -/
def layout
    (digits : List Char)
    (place : Int) :
    String :=
  let shown := withoutFinalZeros digits
  if -4 < place && place ≤ 16 then
    if place ≤ 0 then
      "0." ++ String.ofList (List.replicate (-place).toNat '0' ++ shown)
    else
      let p := place.toNat
      let whole := shown.take p ++ List.replicate (p - shown.length) '0'
      let part := shown.drop p
      String.ofList whole ++ "." ++ (if part.isEmpty then "0" else String.ofList part)
  else
    let e := place - 1
    let magnitude := Nat.toDigits 10 e.natAbs
    let padded := if magnitude.length < 2 then '0' :: magnitude else magnitude
    let head := String.ofList (shown.take 1)
    let tail := String.ofList (shown.drop 1)
    head ++ (if tail.isEmpty then "" else "." ++ tail) ++
      (if e < 0 then "e-" else "e+") ++ String.ofList padded

/-- The text of a number: the fewest digits that read back, always with a point or an exponent. -/
def text : Binary64 → String
  | .notANumber => "nan"
  | .infinite s => if s then "-inf" else "inf"
  | .finite s m e =>
    let sign := if s then "-" else ""
    if m == 0 then sign ++ "0.0"
    else
      let (digits, scale) := shortest m e
      let digits := Nat.toDigits 10 digits
      sign ++ layout digits (digits.length + scale)

end Writing

end Binary64

end RouteAtlas
