import RouteAtlas.Text.Case
import RouteAtlas.Text.Word
import RouteAtlas.Text.Blank

/-!
# Text patterns

A pattern describes pieces of text. Where several pieces fit, the choice is by preference: an
earlier alternative before a later one, and a longer repetition before a shorter one unless the
pattern asks for the shorter. The matcher tries the choices in that order and takes the first with
which the rest of the pattern fits too. Every repetition ends, because a round that takes nothing is
the last one.
-/

namespace RouteAtlas.Text

section Classes

/-- A class of characters. -/
inductive CharClass where
  | nothing
  | one (c : Char)
  | range (first last : Char)
  | word
  | digit
  | blank
  | not (k : CharClass)
  | either (a b : CharClass)
  deriving Repr, DecidableEq, Inhabited

namespace CharClass

/-- Whether a character belongs to the class. -/
def holds : CharClass → Char → Bool
  | nothing, _ => false
  | one d, c => c == d
  | range first last, c => first ≤ c && c ≤ last
  | word, c => isWord c
  | digit, c => (digitValue? c).isSome
  | blank, c => isBlank c
  | not k, c => !k.holds c
  | either a b, c => a.holds c || b.holds c

/-- The class of the characters of a text. -/
def ofText (s : String) : CharClass :=
  s.toList.foldr (fun c k => either (one c) k) nothing

/-- A character in the letter cases in which it is one character. -/
def letterCases (c : Char) : List Char :=
  c :: foldCase c :: [lowerChar c, upperChar c].filterMap fun
    | [d] => some d
    | _ => none

/-- Whether a character belongs to the class in some letter case. A complement on the outside
excludes every letter case of what it excludes. -/
def holdsInSomeCase : CharClass → Char → Bool
  | not k, c => !k.holdsInSomeCase c
  | k, c => (letterCases c).any k.holds

end CharClass

end Classes

/-- A pattern of text. -/
inductive Pattern where
  | text (cs : List Char)
  | ofClass (k : CharClass)
  | seq (first second : Pattern)
  | alt (first second : Pattern)
  | times (body : Pattern) (least : Nat) (most : Option Nat) (longest : Bool)
  | group (index : Nat) (body : Pattern)
  | same (index : Nat)
  | start
  | stop
  | finish
  | lineStart
  | lineStop
  | boundary (expected : Bool)
  | ahead (body : Pattern) (expected : Bool)
  | behind (width : Nat) (body : Pattern) (expected : Bool)
  deriving Repr, DecidableEq, Inhabited

namespace Pattern

section Building

/-- The pattern of one given text. -/
def word (s : String) : Pattern :=
  text s.toList

/-- The pattern that only the empty text fits. -/
def empty : Pattern :=
  text []

/-- One pattern after the other. -/
def inOrder : List Pattern → Pattern
  | [] => empty
  | [p] => p
  | p :: ps => seq p (inOrder ps)

/-- Any one of the patterns, the earlier ones preferred. -/
def anyOf : List Pattern → Pattern
  | [] => ofClass .nothing
  | [p] => p
  | p :: ps => alt p (anyOf ps)

/-- Any one of the texts. -/
def words (texts : List String) : Pattern :=
  anyOf (texts.map word)

/-- Any number of rounds. -/
def many (p : Pattern) : Pattern :=
  times p 0 none true

/-- One round or more. -/
def some_ (p : Pattern) : Pattern :=
  times p 1 none true

/-- One round or none. -/
def optional (p : Pattern) : Pattern :=
  times p 0 (some 1) true

/-- A character of white space. -/
def blank : Pattern :=
  ofClass .blank

/-- A character that is none of those in the text. -/
def noneOf (s : String) : Pattern :=
  ofClass (.not (CharClass.ofText s))

end Building

section Matching

/-- A place in a text, with the pieces that groups have taken on the way to it. The characters
before the place stand in reverse order. -/
structure Place where
  before : List Char
  rest : List Char
  taken : List (Nat × List Char)
  deriving Repr, DecidableEq, Inhabited

namespace Place

/-- The place before the first character of a text. -/
def ofText (s : String) : Place :=
  ⟨[], s.toList, []⟩

/-- The place after the next character, when there is one. -/
def next? (p : Place) : Option Place :=
  match p.rest with
  | [] => none
  | c :: rest => some { p with before := c :: p.before, rest := rest }

/-- The place so many characters earlier. -/
def back? (p : Place) : Nat → Option Place
  | 0 => some p
  | n + 1 =>
    match p.before with
    | [] => none
    | c :: before => ({ p with before := before, rest := c :: p.rest } : Place).back? n

/-- The characters from an earlier place on. -/
def since
    (p earlier : Place) :
    List Char :=
  earlier.rest.take (earlier.rest.length - p.rest.length)

/-- What a group has taken last. -/
def takenBy?
    (p : Place)
    (index : Nat) :
    Option (List Char) :=
  (p.taken.find? fun t => t.1 == index).map Prod.snd

/-- The text that a group has taken; empty when it took none. -/
def groupText
    (p : Place)
    (index : Nat) :
    String :=
  String.ofList ((p.takenBy? index).getD [])

/-- Whether a word begins or ends at the place. -/
def isBoundary (p : Place) : Bool :=
  let wordAt (cs : List Char) := (cs.head?.map isWord).getD false
  wordAt p.before != wordAt p.rest

end Place

/-- What is done with a place that has been reached. -/
abbrev Next := Place → Option Place

/-- So many rounds of a step, and then what follows. -/
def exactly
    (step : Next → Next)
    (next : Next) :
    Nat → Next
  | 0 => next
  | n + 1 => step (exactly step next n)

/-- At most so many rounds of a step, and then what follows. A round that takes nothing is the last
one. -/
def atMost
    (step : Next → Next)
    (longest : Bool)
    (next : Next) :
    Nat → Next
  | 0 => next
  | n + 1 => fun p =>
    let again (q : Place) : Option Place :=
      if q.rest.length < p.rest.length then atMost step longest next n q else next q
    if longest then
      match step again p with
      | some q => some q
      | none => next p
    else
      match next p with
      | some q => some q
      | none => step again p

/-- Takes the given characters, each in the same or, when letter case is ignored, in some case. -/
def takeText
    (ignoreCase : Bool) :
    List Char → Place → Option Place
  | [], p => some p
  | c :: cs, p =>
    match p.rest with
    | [] => none
    | d :: rest =>
      if c = d || (ignoreCase && foldCase c == foldCase d) then
        takeText ignoreCase cs { p with before := d :: p.before, rest := rest }
      else none

/-- Goes on from a place when a condition holds there. -/
def require
    (b : Bool)
    (next : Next)
    (p : Place) :
    Option Place :=
  if b then next p else none

/-- Matches a pattern at a place and goes on from where it ends. -/
def run
    (ignoreCase : Bool) :
    Pattern → Next → Next
  | text cs, next => fun p => (takeText ignoreCase cs p).bind next
  | ofClass k, next => fun p =>
    match p.rest with
    | [] => none
    | c :: rest =>
      if (if ignoreCase then k.holdsInSomeCase c else k.holds c) then
        next { p with before := c :: p.before, rest := rest }
      else none
  | seq a b, next => run ignoreCase a (run ignoreCase b next)
  | alt a b, next => fun p =>
    match run ignoreCase a next p with
    | some q => some q
    | none => run ignoreCase b next p
  | times body least most longest, next =>
    exactly (run ignoreCase body)
      (fun p =>
        let bound := p.rest.length + 1
        let rounds := match most with
          | some n => min (n - least) bound
          | none => bound
        atMost (run ignoreCase body) longest next rounds p)
      least
  | group i body, next => fun p =>
    run ignoreCase body (fun q => next { q with taken := (i, q.since p) :: q.taken }) p
  | same i, next => fun p =>
    match p.takenBy? i with
    | some cs => (takeText ignoreCase cs p).bind next
    | none => none
  | start, next => fun p => require p.before.isEmpty next p
  | stop, next => fun p => require (p.rest = [] || p.rest = ['\n']) next p
  | finish, next => fun p => require p.rest.isEmpty next p
  | lineStart, next => fun p => require (p.before.isEmpty || p.before.head? = some '\n') next p
  | lineStop, next => fun p => require (p.rest.isEmpty || p.rest.head? = some '\n') next p
  | boundary expected, next => fun p => require (p.isBoundary == expected) next p
  | ahead body expected, next => fun p =>
    match run ignoreCase body some p with
    | some q => if expected then next { p with taken := q.taken } else none
    | none => if expected then none else next p
  | behind width body expected, next => fun p =>
    match (p.back? width).bind (run ignoreCase body some) with
    | some q => if expected then next { p with taken := q.taken } else none
    | none => if expected then none else next p

end Matching

section Searching

/-- A piece of text that fits a pattern: the places where it begins and ends. -/
structure Match where
  first : Place
  last : Place
  deriving Repr, DecidableEq, Inhabited

namespace Match

/-- The text that a group has taken; empty when it took none. -/
def group
    (m : Match)
    (index : Nat) :
    String :=
  m.last.groupText index

/-- The whole piece. -/
def text (m : Match) : String :=
  String.ofList (m.last.since m.first)

end Match

/-- The first piece at or after a place that fits the pattern. -/
def searchFrom
    (ignoreCase : Bool)
    (p : Pattern)
    (before : List Char) :
    List Char → Option Match
  | [] => (p.run ignoreCase some ⟨before, [], []⟩).map fun q => ⟨⟨before, [], []⟩, q⟩
  | c :: rest =>
    match p.run ignoreCase some ⟨before, c :: rest, []⟩ with
    | some q => some ⟨⟨before, c :: rest, []⟩, q⟩
    | none => searchFrom ignoreCase p (c :: before) rest

/-- The first piece of a text that fits the pattern. -/
def search?
    (p : Pattern)
    (s : String)
    (ignoreCase : Bool) :
    Option Match :=
  searchFrom ignoreCase p [] s.toList

/-- Whether some piece of the text fits the pattern. -/
def occursIn
    (p : Pattern)
    (s : String) :
    Bool :=
  (p.search? s false).isSome

/-- Whether some piece of the text fits the pattern, whatever the letter case. -/
def occursInAnyCase
    (p : Pattern)
    (s : String) :
    Bool :=
  (p.search? s true).isSome

/-- The pieces that fit the pattern, from left to right and apart from each other. The number bounds
them. -/
def matchesFrom
    (p : Pattern) :
    Nat → List Char → List Char → List Match
  | 0, _, _ => []
  | n + 1, before, rest =>
    match searchFrom false p before rest with
    | none => []
    | some m =>
      let q := m.last
      if q.rest.length < m.first.rest.length then m :: matchesFrom p n q.before q.rest
      else
        match q.next? with
        | some r => m :: matchesFrom p n r.before r.rest
        | none => [m]

/-- The pieces of a text that fit the pattern, from left to right and apart from each other. -/
def allIn
    (p : Pattern)
    (s : String) :
    List Match :=
  let cs := s.toList
  matchesFrom p (cs.length + 1) [] cs

/-- Whether the pattern fits the whole of a text. -/
def fits
    (p : Pattern)
    (s : String) :
    Bool :=
  (p.run false (fun q => require q.rest.isEmpty some q) (Place.ofText s)).isSome

end Searching

end Pattern

end RouteAtlas.Text
