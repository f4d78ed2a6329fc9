import RouteAtlas.Syntax.Grammar.Basic

/-!
# Literals

Rules for strings, templates and regular expressions. Their inside is made of fragments, escape
sequences and substitutions without gaps between them, so these rules read at exact offsets.
-/

namespace RouteAtlas.Syntax.Rule

section Inside

/-- A part that reaches from the present offset, without skipping gaps, to an offset found from
there. -/
def exactly
    (kind : Kind)
    (stop? : Source → Nat → Option Nat) :
    Rule Node :=
  fun s i =>
    match stop? s i with
    | some j => some (nodeAt s kind i j [], j)
    | none => none

/-- The given punctuation at the present offset. -/
def exactToken (t : String) : Rule Node :=
  exactly .token fun s i => if s.holds t.toList i then some (i + t.length) else none

/-- The longest run of characters of a class, when it is not empty. -/
def run
    (kind : Kind)
    (p : Char → Bool) :
    Rule Node :=
  exactly kind fun s i =>
    let j := s.skipWhile p i
    if i < j then some j else none

/-- An escape sequence. -/
def escape : Rule Node :=
  exactly .escapeSequence fun s i => if s.at_ i == '\\' then some (s.escapeEnd i) else none

end Inside

section Strings

/-- A string between quotes of the given sort. -/
def stringIn (quote : Char) : Rule Node := do
  let q := String.singleton quote
  let l ← token q
  let inside ← many (oneOf [escape,
    run .stringFragment fun c => c != quote && c != '\\' && c != '\n'])
  let r ← exactToken q
  build .string (l :: inside ++ [r])

/-- A string. -/
def string : Rule Node := do
  let c ← peek
  guard (c == '"' || c.toNat == 39)
  stringIn c

/-- The text of a template up to a substitution, an escape sequence or its end. -/
def templateText : Rule Node :=
  exactly .stringFragment fun s i =>
    let rec go : Nat → Nat → Nat
      | 0, j => j
      | n + 1, j =>
        let c := s.at_ j
        if s.size ≤ j || c.toNat == 96 || c == '\\' || (c == '$' && s.at_ (j + 1) == '\x7b') then j
        else go n (j + 1)
    let j := go (s.size - i) i
    if i < j then some j else none

/-- A template whose substitutions have the given kind and content. -/
def templateOf
    (kind substitution : Kind)
    (content : Rule Node) :
    Rule Node := do
  let tick := String.singleton (Char.ofNat 96)
  let l ← token tick
  let inside ← many (oneOf [templateText, escape, do
    let l ← exactToken "$\x7b"
    let e ← content
    let r ← token "\x7d"
    build substitution [l, e, r]])
  let r ← exactToken tick
  build kind (l :: inside ++ [r])

/-- A template of text and expressions. -/
def template (self : Reader) : Rule Node :=
  templateOf .templateString .templateSubstitution (self (.expressions true))

end Strings

section RegularExpressions

/-- A regular expression with its flags. -/
def regex : Rule Node := do
  let l ← token "/"
  let p ← exactly .regexPattern fun s i =>
    match s.regexEnd false (s.size - i) i with
    | some j => if i < j && s.at_ i != '*' then some j else none
    | none => none
  let r ← exactToken "/"
  let flags ← opt (as_ .flags (run .regexFlags Char.isAlpha))
  build .regex ([l, p.withRole .pattern, r] ++ flags)

end RegularExpressions

end RouteAtlas.Syntax.Rule
