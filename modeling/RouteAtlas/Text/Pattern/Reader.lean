import RouteAtlas.Fault
import RouteAtlas.Number.Numeral
import RouteAtlas.Text.Pattern

/-!
# Written patterns

How users write patterns: alternatives are separated by bars, `*`, `+`, `?` and bounds in braces
repeat what stands before them, parentheses group, square brackets hold a class of characters and a
backslash introduces classes, boundaries, references to groups and characters that would mean
something else. A text that is written otherwise denotes no pattern; a bound that is too large or has
too many digits is a fault.
-/

namespace RouteAtlas.Text.Pattern

section Reading

/-- How far a pattern has been read: what is left, the groups opened so far, those among them that
are still open, their names, and what a dot and the line anchors stand for. -/
structure Reading where
  rest : List Char
  groups : Nat
  openGroups : List Nat
  names : List (String × Nat)
  dotTakesLines : Bool
  anchorsAtLines : Bool

/-- Why a text is not read: it denotes no pattern, or a number in it is a fault. -/
inductive Refusal where
  | noPattern
  | fault (f : Fault)
  deriving Repr, DecidableEq, Inhabited

/-- A step of reading, which may refuse. -/
abbrev ReadStep :=
  StateT Reading (Except Refusal)

/-- Ends the reading of a text that denotes no pattern. -/
def refuse {α : Type} : ReadStep α :=
  throw .noPattern

/-- The next character, which stays. -/
def peek : ReadStep (Option Char) := do
  return (← get).rest.head?

/-- Takes the next character. -/
def next : ReadStep Char := do
  let s ← get
  match s.rest with
  | [] => refuse
  | c :: rest =>
    set { s with rest := rest }
    return c

/-- Takes a given text if it comes next. -/
def takes (s : String) : ReadStep Bool := do
  let r ← get
  match afterStart? s.toList r.rest with
  | some rest =>
    set { r with rest := rest }
    return true
  | none => return false

/-- Takes the longest run of characters of a class, but no more than so many. -/
def takeRun
    (most : Nat)
    (p : Char → Bool) :
    ReadStep (List Char) := do
  let s ← get
  let run := (s.rest.take most).takeWhile p
  set { s with rest := s.rest.drop run.length }
  return run

/-- Takes all up to a given character, and that character. -/
def takeUntil (stop : Char) : ReadStep String := do
  let s ← get
  let piece := s.rest.takeWhile (· != stop)
  match s.rest.drop piece.length with
  | [] => refuse
  | _ :: rest =>
    set { s with rest := rest }
    return String.ofList piece

end Reading

section Escapes

/-- The value of digits in a base. -/
def digitsValue
    (base : Nat)
    (ds : List Char) :
    Nat :=
  ds.foldl (fun n d =>
    n * base + (if d.isDigit then d.toNat - 48 else d.toLower.toNat - 87)) 0

/-- Whether a character is a digit in base sixteen. -/
def isHexDigit (c : Char) : Bool :=
  c.isDigit || ('a' ≤ c && c ≤ 'f') || ('A' ≤ c && c ≤ 'F')

/-- Whether a character is a digit in base eight. -/
def isOctalDigit (c : Char) : Bool :=
  '0' ≤ c && c ≤ '7'

/-- Whether a character is a digit in base ten. -/
def isAsciiDigit (c : Char) : Bool :=
  c.isDigit

/-- Whether a character is a letter of ASCII. -/
def isAsciiLetter (c : Char) : Bool :=
  c.isAlpha

/-- A character given by exactly so many digits in base sixteen. -/
def hexChar (digits : Nat) : ReadStep Char := do
  let ds ← takeRun digits isHexDigit
  let n := digitsValue 16 ds
  if ds.length = digits && n.isValidChar then
    return Char.ofNat n
  else
    refuse

/-- The class that a letter after a backslash denotes. -/
def classEscape? : Char → Option CharClass
  | 'd' => some .digit
  | 'D' => some (.not .digit)
  | 's' => some .blank
  | 'S' => some (.not .blank)
  | 'w' => some .word
  | 'W' => some (.not .word)
  | _ => none

/-- The control character that a letter after a backslash denotes. -/
def controlEscape? : Char → Option Char
  | 'a' => some '\x07'
  | 'f' => some '\x0c'
  | 'n' => some '\n'
  | 'r' => some '\r'
  | 't' => some '\t'
  | 'v' => some '\x0b'
  | _ => none

/-- The character that stands after a backslash, when the backslash only gives it by name or by
number or takes away its meaning. -/
def charEscape (c : Char) : ReadStep Char :=
  match controlEscape? c, c with
  | some d, _ => return d
  | none, 'x' => hexChar 2
  | none, 'u' => hexChar 4
  | none, 'U' => hexChar 8
  | none, _ => if isAsciiLetter c then refuse else return c

/-- What a backslash and a digit denote: a group that has been closed, or a character by its number
in base eight. -/
def numberEscape (c : Char) : ReadStep Pattern := do
  let ofNumber (n : Nat) : ReadStep Pattern :=
    if n < 256 then return text [Char.ofNat n] else refuse
  if c = '0' then
    ofNumber (digitsValue 8 (← takeRun 2 isOctalDigit))
  else
    let following := (← get).rest.take 2
    if isOctalDigit c && following.length = 2 && following.all isOctalDigit then
      let ds ← takeRun 2 isOctalDigit
      ofNumber (digitsValue 8 (c :: ds))
    else
      let ds ← takeRun 1 isAsciiDigit
      let n := digitsValue 10 (c :: ds)
      let s ← get
      if n ≤ s.groups && !s.openGroups.contains n then
        return same n
      else
        refuse

/-- What a backslash denotes outside a class. -/
def escape : ReadStep Pattern := do
  let c ← next
  match c with
  | 'b' => return boundary true
  | 'B' => return boundary false
  | 'A' => return start
  | 'Z' => return finish
  | _ =>
    match classEscape? c with
    | some k => return ofClass k
    | none =>
      if c.isDigit then numberEscape c
      else return text [← charEscape c]

/-- What a backslash denotes in a class. -/
def escapeInClass : ReadStep CharClass := do
  let c ← next
  match classEscape? c with
  | some k => return k
  | none =>
    if c = 'b' then
      return .one '\x08'
    else if isOctalDigit c then
      let ds ← takeRun 2 isOctalDigit
      let n := digitsValue 8 (c :: ds)
      if n < 256 then return .one (Char.ofNat n) else refuse
    else if c.isDigit then
      refuse
    else
      return .one (← charEscape c)

end Escapes

section Classes

/-- One member of a class, a single character or what a backslash denotes. -/
def classMember : ReadStep CharClass := do
  let c ← next
  if c = '\\' then escapeInClass else return .one c

/-- A member of a class or a range of characters. -/
def classItem : ReadStep CharClass := do
  let low ← classMember
  let s ← get
  match s.rest with
  | '-' :: ']' :: _ => return low
  | '-' :: rest => do
    set { s with rest := rest }
    match low, ← classMember with
    | .one a, .one b => if a ≤ b then return .range a b else refuse
    | _, _ => refuse
  | _ => return low

/-- The members up to the bracket that closes a class. A bracket in front is a member. The number
bounds them. -/
def classItems : Nat → CharClass → ReadStep CharClass
  | 0, _ => refuse
  | n + 1, k => do
    let k := CharClass.either k (← classItem)
    if ← takes "]" then
      return k
    classItems n k

/-- A class in square brackets, after its opening bracket. -/
def charClass : ReadStep CharClass := do
  let complement ← takes "^"
  let k ← classItems (← get).rest.length .nothing
  return if complement then .not k else k

end Classes

section Structure

/-- A part of a pattern while it is read. Only what is neither a place nor repeated already can be
repeated. -/
structure Part where
  pattern : Pattern
  repeatable : Bool

/-- The least number that is too large for a bound. -/
def boundLimit : Nat :=
  4294967295

/-- The bound that digits give; none when there are no digits. -/
def bound? (digits : List Char) : ReadStep (Option Nat) :=
  if digits.isEmpty then return none
  else if Numeral.maxDigits < digits.length then throw (.fault .invalidValue)
  else if boundLimit ≤ digitsValue 10 digits then throw (.fault .tooLarge)
  else return some (digitsValue 10 digits)

/-- How often a part is to be repeated: bounds in braces or one of the signs for them. `none` says
that what comes next is no such thing. -/
def repetition? : ReadStep (Option (Nat × Option Nat)) := do
  if ← takes "*" then
    return some (0, none)
  if ← takes "+" then
    return some (1, none)
  if ← takes "?" then
    return some (0, some 1)
  let s ← get
  let undone : ReadStep (Option (Nat × Option Nat)) := do
    set s
    return none
  if !(← takes "\x7b") then
    undone
  else if (← peek) = some '\x7d' then
    undone
  else
    let low ← takeRun s.rest.length isAsciiDigit
    let high ← if ← takes "," then takeRun s.rest.length isAsciiDigit else pure low
    if !(← takes "\x7d") then
      undone
    else
      let least := (← bound? low).getD 0
      match ← bound? high with
      | none => return some (least, none)
      | some most => if most < least then refuse else return some (least, some most)

/-- How many characters fit a pattern, when the number is fixed. -/
def width? : Pattern → Option Nat
  | text cs => some cs.length
  | ofClass _ => some 1
  | seq a b =>
    match width? a, width? b with
    | some m, some n => some (m + n)
    | _, _ => none
  | alt a b =>
    match width? a, width? b with
    | some m, some n => if m = n then some m else none
    | _, _ => none
  | times body least most _ =>
    match width? body, most with
    | some m, some n => if n = least then some (m * n) else none
    | _, _ => none
  | group _ body => width? body
  | same _ => none
  | _ => some 0

/-- The letters that set how a pattern is read. -/
def applyFlags (flags : List Char) : ReadStep Unit :=
  if flags.isEmpty || !flags.all (fun c => ['i', 'm', 's', 'u'].contains c) then
    refuse
  else
    modify fun s =>
      { s with
        dotTakesLines := s.dotTakesLines || flags.contains 's'
        anchorsAtLines := s.anchorsAtLines || flags.contains 'm' }

/-- The pattern of a single character that stands for itself, for any character or for a place. -/
def plainPart (c : Char) : ReadStep Part := do
  let s ← get
  match c with
  | '.' =>
    return ⟨ofClass (.not (if s.dotTakesLines then .nothing else .one '\n')), true⟩
  | '^' => return ⟨if s.anchorsAtLines then lineStart else start, false⟩
  | '$' => return ⟨if s.anchorsAtLines then lineStop else stop, false⟩
  | _ => return ⟨text [c], true⟩

/-- Opens a group and gives its index. -/
def openGroup (name : Option String) : ReadStep Nat := do
  let s ← get
  let i := s.groups + 1
  let names ← match name with
    | none => pure s.names
    | some n =>
      let cs := n.toList
      if cs.isEmpty || (cs.head?.map isAsciiDigit).getD true || !cs.all isWord ||
          s.names.any (fun e => e.1 == n) then
        refuse
      else
        pure (s.names ++ [(n, i)])
  set { s with groups := i, openGroups := i :: s.openGroups, names := names }
  return i

mutual

/-- Alternatives separated by bars. -/
def alternatives : Nat → ReadStep Pattern
  | 0 => refuse
  | n + 1 => do
    let first ← sequence n []
    if ← takes "|" then
      return alt first (← alternatives n)
    return first

/-- Parts one after the other, up to a bar, a closing parenthesis or the end; those read so far in
reverse order. -/
def sequence : Nat → List Part → ReadStep Pattern
  | 0, _ => refuse
  | n + 1, parts => do
    match ← peek with
    | none | some '|' | some ')' => return inOrder (parts.reverse.map Part.pattern)
    | some _ =>
      match ← repetition? with
      | some (least, most) =>
        match parts with
        | ⟨p, true⟩ :: earlier =>
          let shortest ← takes "?"
          sequence n (⟨times p least most !shortest, false⟩ :: earlier)
        | _ => refuse
      | none =>
        match ← part n with
        | some p => sequence n (p :: parts)
        | none => sequence n parts

/-- One part of a sequence; a comment is none. -/
def part : Nat → ReadStep (Option Part)
  | 0 => refuse
  | n + 1 => do
    match ← next with
    | '\\' =>
      match ← escape with
      | start => return some ⟨start, false⟩
      | finish => return some ⟨finish, false⟩
      | boundary b => return some ⟨boundary b, false⟩
      | p => return some ⟨p, true⟩
    | '[' => return some ⟨ofClass (← charClass), true⟩
    | '(' => parenthesized n
    | c => return some (← plainPart c)

/-- What stands in parentheses, after the opening one. -/
def parenthesized : Nat → ReadStep (Option Part)
  | 0 => refuse
  | n + 1 => do
    let closed (p : Pattern) : ReadStep (Option Part) := do
      if ← takes ")" then return some ⟨p, true⟩ else refuse
    let numbered (name : Option String) : ReadStep (Option Part) := do
      let i ← openGroup name
      let body ← alternatives n
      modify fun s => { s with openGroups := s.openGroups.erase i }
      closed (group i body)
    let seenBehind (expected : Bool) : ReadStep (Option Part) := do
      let body ← alternatives n
      match width? body with
      | some w => closed (behind w body expected)
      | none => refuse
    if !(← takes "?") then
      numbered none
    else if ← takes ":" then
      closed (← alternatives n)
    else if ← takes "P<" then
      numbered (some (← takeUntil '>'))
    else if ← takes "P=" then
      let name ← takeUntil ')'
      let s ← get
      match s.names.find? fun e => e.1 == name with
      | some (_, i) => if s.openGroups.contains i then refuse else return some ⟨same i, true⟩
      | none => refuse
    else if ← takes "=" then
      closed (ahead (← alternatives n) true)
    else if ← takes "!" then
      closed (ahead (← alternatives n) false)
    else if ← takes "<=" then
      seenBehind true
    else if ← takes "<!" then
      seenBehind false
    else if ← takes "#" then
      let _ ← takeUntil ')'
      return none
    else
      let s ← get
      applyFlags (← takeRun s.rest.length isAsciiLetter)
      if ← takes ":" then
        let p ← alternatives n
        modify fun t =>
          { t with dotTakesLines := s.dotTakesLines, anchorsAtLines := s.anchorsAtLines }
        closed p
      else
        refuse

end

/-- The letters in parentheses at the front of a pattern that set how it is read. -/
def leadingFlags : ReadStep Unit := do
  let s ← get
  if ← takes "(?" then
    let flags ← takeRun s.rest.length isAsciiLetter
    if ← takes ")" then
      applyFlags flags
    else
      set s

end Structure

/-- The pattern that a text denotes, or why it is not read. -/
def ofText (s : String) : Except Refusal Pattern :=
  let cs := s.toList
  let whole : ReadStep Pattern := do
    leadingFlags
    let p ← alternatives (4 * cs.length + 4)
    if (← peek).isSome then refuse else return p
  (whole.run ⟨cs, 0, [], [], false, false⟩).map Prod.fst

/-- The pattern that a text denotes, if it denotes one. -/
def ofText? (s : String) : Option Pattern :=
  (ofText s).toOption

/-- The fault by which the reading of a text ends, if it does. -/
def fault? (s : String) : Option Fault :=
  match ofText s with
  | .error (.fault f) => some f
  | _ => none

end RouteAtlas.Text.Pattern
