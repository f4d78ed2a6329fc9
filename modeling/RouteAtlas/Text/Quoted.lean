import RouteAtlas.Text.Blank

/-!
# Quoted texts

A text in quotation marks, on one line and with nothing invisible in it. Single quotation marks are
taken, unless the text has some of them and no double ones. The quotation mark itself, the backslash
and characters that show nothing are escaped.
-/

namespace RouteAtlas.Text

section Invisible

/-- The ranges of characters that show nothing: controls, formats, separators other than the blank,
and characters for private use. -/
def invisibleRanges : List (Nat × Nat) :=
  [(0x0, 0x1f), (0x7f, 0xa0), (0xad, 0xad), (0x600, 0x605), (0x61c, 0x61c), (0x6dd, 0x6dd),
    (0x70f, 0x70f), (0x890, 0x891), (0x8e2, 0x8e2), (0x1680, 0x1680), (0x180e, 0x180e),
    (0x2000, 0x200f), (0x2028, 0x202f), (0x205f, 0x206f), (0x3000, 0x3000), (0xe000, 0xf8ff),
    (0xfdd0, 0xfdef), (0xfeff, 0xfeff), (0xfff9, 0xfffb), (0xfffe, 0xffff), (0x110bd, 0x110bd),
    (0x110cd, 0x110cd), (0x13430, 0x13438), (0x1bca0, 0x1bca3), (0x1d173, 0x1d17a),
    (0xe0000, 0xe00ff), (0xe01f0, 0x10ffff)]

/-- Whether a character shows nothing. -/
def isInvisible (c : Char) : Bool :=
  invisibleRanges.any fun r => r.1 ≤ c.toNat && c.toNat ≤ r.2

end Invisible

section Quoting

/-- The code of a character in hexadecimal digits, as few as two, four or eight. -/
def codeEscape (c : Char) : List Char :=
  let digits := Nat.toDigits 16 c.toNat
  let padded (width : Nat) := List.replicate (width - digits.length) '0' ++ digits
  if c.toNat < 0x100 then '\\' :: 'x' :: padded 2
  else if c.toNat < 0x10000 then '\\' :: 'u' :: padded 4
  else '\\' :: 'U' :: padded 8

/-- A character as it stands between quotation marks. -/
def quotedChar
    (mark c : Char) :
    List Char :=
  if c = mark || c = '\\' then ['\\', c]
  else if c = '\n' then ['\\', 'n']
  else if c = '\r' then ['\\', 'r']
  else if c = '\t' then ['\\', 't']
  else if isInvisible c then codeEscape c
  else [c]

/-- The quotation mark for a text. -/
def quotationMark (cs : List Char) : Char :=
  if cs.contains '\'' && !cs.contains '"' then '"' else '\''

/-- A text in quotation marks. -/
def quoted (s : String) : String :=
  let cs := s.toList
  let mark := quotationMark cs
  String.ofList (mark :: (cs.flatMap (quotedChar mark) ++ [mark]))

end Quoting

end RouteAtlas.Text
