/-!
# UTF-8

Decoding bytes as UTF-8. A sequence that is cut short or not allowed is a fault; a lenient reader
puts one replacement character for the longest start of a character that it could read.
-/

namespace RouteAtlas.Text

namespace Utf8

section Sequences

/-- What may follow the first byte of a character of several bytes: the bits that the first byte
gives, the range of the second byte and how many bytes come after that one. -/
structure Lead where
  bits : Nat
  low : Nat
  high : Nat
  more : Nat

/-- What the first byte of a character of several bytes announces. -/
def lead? (b : Nat) : Option Lead :=
  if 0xC2 ≤ b && b ≤ 0xDF then some ⟨b - 0xC0, 0x80, 0xBF, 0⟩
  else if b == 0xE0 then some ⟨0, 0xA0, 0xBF, 1⟩
  else if b == 0xED then some ⟨0xD, 0x80, 0x9F, 1⟩
  else if 0xE1 ≤ b && b ≤ 0xEF then some ⟨b - 0xE0, 0x80, 0xBF, 1⟩
  else if b == 0xF0 then some ⟨0, 0x90, 0xBF, 2⟩
  else if 0xF1 ≤ b && b ≤ 0xF3 then some ⟨b - 0xF0, 0x80, 0xBF, 2⟩
  else if b == 0xF4 then some ⟨4, 0x80, 0x8F, 2⟩
  else none

/-- Reads so many further bytes of a character; the code point is missing when one of them is not
allowed, and what is left starts with that one. -/
def readMore : Nat → Nat → List Nat → Option Nat × List Nat
  | 0, acc, bytes => (some acc, bytes)
  | _ + 1, _, [] => (none, [])
  | n + 1, acc, b :: rest =>
    if 0x80 ≤ b && b ≤ 0xBF then readMore n (acc * 64 + (b - 0x80)) rest else (none, b :: rest)

/-- Reads one character from its first byte on. -/
def readChar
    (b : Nat)
    (rest : List Nat) :
    Option Nat × List Nat :=
  if b < 0x80 then (some b, rest)
  else
    match lead? b, rest with
    | none, _ => (none, rest)
    | some _, [] => (none, [])
    | some l, c :: more =>
      if l.low ≤ c && c ≤ l.high then readMore l.more (l.bits * 64 + (c - 0x80)) more
      else (none, c :: more)

end Sequences

section Decoding

/-- The characters of a list of bytes, with `none` for each start of a character that could not be
read. The first argument bounds the number of characters. -/
def decodeUpTo : Nat → List Nat → List (Option Char)
  | 0, _ => []
  | _ + 1, [] => []
  | n + 1, b :: rest =>
    let (code, left) := readChar b rest
    code.map Char.ofNat :: decodeUpTo n left

/-- The characters of a list of bytes, with `none` where they are not UTF-8. -/
def decode (bytes : List Nat) : List (Option Char) :=
  decodeUpTo bytes.length bytes

/-- The text of bytes that are UTF-8. -/
def text? (bytes : List Nat) : Option String :=
  ((decode bytes).mapM id).map String.ofList

/-- The text of bytes, with replacement characters where they are not UTF-8. -/
def lenientText (bytes : List Nat) : String :=
  String.ofList ((decode bytes).map fun c => c.getD (Char.ofNat 0xFFFD))

end Decoding

end Utf8

section Newlines

/-- The characters of a text with every line break as one line feed. -/
def plainNewlinesOf : List Char → List Char
  | [] => []
  | '\r' :: '\n' :: rest => '\n' :: plainNewlinesOf rest
  | '\r' :: rest => '\n' :: plainNewlinesOf rest
  | c :: rest => c :: plainNewlinesOf rest

/-- A text with every line break as one line feed. -/
def plainNewlines (s : String) : String :=
  String.ofList (plainNewlinesOf s.toList)

end Newlines

end RouteAtlas.Text
