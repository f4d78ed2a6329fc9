/-!
# White space

White space in the sense of the Unicode character database, with the four separator controls of
ASCII. Trimming a text and reading a number skip it at both ends.
-/

namespace RouteAtlas.Text

section Class

/-- White space of any script, separator controls included. -/
def isBlank (c : Char) : Bool :=
  let n := c.toNat
  (9 ≤ n && n ≤ 13) || (28 ≤ n && n ≤ 32) || n == 133 || n == 160 || n == 5760 ||
    (8192 ≤ n && n ≤ 8202) || n == 8232 || n == 8233 || n == 8239 || n == 8287 || n == 12288

end Class

section Trimming

/-- Drops the characters of a class at the end of a list. -/
def dropLastWhile
    (p : Char → Bool)
    (cs : List Char) :
    List Char :=
  (cs.reverse.dropWhile p).reverse

/-- Drops the characters of a class at both ends of a list. -/
def dropEnds
    (p : Char → Bool)
    (cs : List Char) :
    List Char :=
  dropLastWhile p (cs.dropWhile p)

/-- Drops the characters of a class at both ends of a text. -/
def trimWith
    (p : Char → Bool)
    (s : String) :
    String :=
  String.ofList (dropEnds p s.toList)

/-- A text without the white space at its ends. -/
def trim (s : String) : String :=
  trimWith isBlank s

end Trimming

section Pieces

/-- Splits a list at every separator; there is always at least one piece. -/
def splitOn
    (sep : Char) :
    List Char → List (List Char)
  | [] => [[]]
  | c :: rest =>
    if c = sep then
      [] :: splitOn sep rest
    else
      match splitOn sep rest with
      | [] => [[c]]
      | piece :: pieces => (c :: piece) :: pieces

/-- Splits a text at every separator; there is always at least one piece. -/
def split
    (sep : Char)
    (s : String) :
    List String :=
  (splitOn sep s.toList).map String.ofList

/-- Joins pieces with a separator between each two. -/
def joinWith
    (sep : String) :
    List String → String
  | [] => ""
  | [piece] => piece
  | piece :: pieces => piece ++ sep ++ joinWith sep pieces

/-- What is left of a list after a given start. -/
def afterStart? :
    List Char → List Char → Option (List Char)
  | [], rest => some rest
  | _ :: _, [] => none
  | c :: cs, d :: rest => if c = d then afterStart? cs rest else none

/-- Whether a text starts with another. -/
def startsWith
    (s start : String) :
    Bool :=
  (afterStart? start.toList s.toList).isSome

/-- Whether a text ends with another. -/
def endsWith
    (s stop : String) :
    Bool :=
  (afterStart? stop.toList.reverse s.toList.reverse).isSome

/-- Whether a text holds another. -/
def hasInfixList
    (piece : List Char) :
    List Char → Bool
  | [] => piece.isEmpty
  | c :: rest => (afterStart? piece (c :: rest)).isSome || hasInfixList piece rest

/-- Whether a text holds another. -/
def contains
    (s piece : String) :
    Bool :=
  hasInfixList piece.toList s.toList

/-- Replaces every occurrence of one character by a text. -/
def replaceChar
    (c : Char)
    (by_ : String)
    (s : String) :
    String :=
  String.ofList (s.toList.flatMap fun d => if d = c then by_.toList else [d])

end Pieces

end RouteAtlas.Text
