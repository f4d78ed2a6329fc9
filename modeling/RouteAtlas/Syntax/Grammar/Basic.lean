import RouteAtlas.Syntax.Source

/-!
# Grammar rules

A rule reads a construct at an offset of a source and gives the offset behind it, or fails. Rules
are put together from tokens, words, options and repetitions. The rules of the language refer to one
another, so each takes as argument how the constructs named by `Goal` are read; the knot is tied
once, with a bound on the nesting.
-/

namespace RouteAtlas.Syntax

/-- A rule of the grammar. -/
def Rule (α : Type) : Type :=
  Source → Nat → Option (α × Nat)

/-- The constructs that rules refer to each other by. -/
inductive Goal where
  | expression (allowIn : Bool)
  | expressions (allowIn : Bool)
  | unary
  | postfix_
  | statement
  | block
  | pattern
  | parameters
  | type
  | typeOperand
  | typeArguments
  | classBody
  | element
  deriving DecidableEq, Repr

/-- How the constructs named by goals are read. -/
abbrev Reader : Type :=
  Goal → Rule Node

namespace Rule

section Basics

instance : Monad Rule where
  pure a := fun _ i => some (a, i)
  bind r f := fun s i =>
    match r s i with
    | none => none
    | some (a, j) => f a s j

/-- The rule that reads nothing and fails. -/
def fail {α : Type} : Rule α :=
  fun _ _ => none

/-- The first rule that succeeds. -/
def orElse
    {α : Type}
    (first second : Rule α) :
    Rule α :=
  fun s i =>
    match first s i with
    | some r => some r
    | none => second s i

instance {α : Type} : OrElse (Rule α) where
  orElse first second := orElse first (second ())

/-- The first of several rules that succeeds. -/
def oneOf
    {α : Type} :
    List (Rule α) → Rule α
  | [] => fail
  | r :: rest => orElse r (oneOf rest)

/-- Goes on only if a condition holds. -/
def guard (condition : Bool) : Rule Unit :=
  fun _ i => if condition then some ((), i) else none

/-- The source and the offset. -/
def here : Rule (Source × Nat) :=
  fun s i => some ((s, i), i)

/-- Whether a rule would succeed; nothing is read. -/
def sees
    {α : Type}
    (r : Rule α) :
    Rule Bool :=
  fun s i => some ((r s i).isSome, i)

/-- Succeeds, reading nothing, exactly if a rule would fail. -/
def refuses
    {α : Type}
    (r : Rule α) :
    Rule Unit :=
  fun s i => if (r s i).isSome then none else some ((), i)

/-- The character that starts the next token. -/
def peek : Rule Char :=
  fun s i => some (s.at_ (s.next i), i)

/-- The name that stands next, or the empty text. -/
def peekName : Rule String :=
  fun s i => some (s.nameAt (s.next i), i)

/-- Whether the next token stands on a later line. -/
def lineBreakAhead : Rule Bool :=
  fun s i => some (s.breaksBetween i (s.next i), i)

end Basics

section Nodes

/-- The node of a kind between two offsets. -/
def nodeAt
    (s : Source)
    (kind : Kind)
    (start stop : Nat)
    (children : List Node) :
    Node :=
  .mk kind none ⟨start, stop, s.lineAt start, s.lineAt stop⟩ (s.slice start stop) children

/-- The node that consists of given parts, from the first to the last one. -/
def build
    (kind : Kind)
    (children : List Node) :
    Rule Node :=
  fun s i =>
    match children.head?, children.getLast? with
    | some first, some last =>
      some (nodeAt s kind first.span.start last.span.stop children, i)
    | _, _ => none

/-- The node that consists of given parts and reaches up to the present offset. -/
def buildToHere
    (kind : Kind)
    (children : List Node) :
    Rule Node :=
  fun s i =>
    match children.head? with
    | some first => some (nodeAt s kind first.span.start i children, i)
    | none => none

/-- A node without parts that reaches from the next token to an offset found from there. -/
def leaf
    (kind : Kind)
    (stop? : Source → Nat → Option Nat) :
    Rule Node :=
  fun s i =>
    let start := s.next i
    match stop? s start with
    | some stop => some (nodeAt s kind start stop [], stop)
    | none => none

end Nodes

section Tokens

/-- The given punctuation. -/
def token (t : String) : Rule Node :=
  leaf .token fun s i => if s.holds t.toList i then some (i + t.length) else none

/-- A name that is the given word and no longer one. -/
def wordAs
    (kind : Kind)
    (w : String) :
    Rule Node :=
  leaf kind fun s i =>
    match s.nameEnd? i with
    | some j => if s.slice i j == w then some j else none
    | none => none

/-- The given keyword. -/
def word (w : String) : Rule Node :=
  wordAs .token w

/-- One of several keywords. -/
def wordOf (ws : List String) : Rule Node :=
  oneOf (ws.map word)

/-- Any name, as a kind. -/
def name (kind : Kind) : Rule Node :=
  leaf kind fun s i => s.nameEnd? i

/-- Words that are no identifiers. -/
def reserved : List String :=
  ["break", "case", "catch", "class", "const", "continue", "debugger", "default", "delete", "do",
   "else", "enum", "export", "extends", "false", "finally", "for", "function", "if", "import", "in",
   "instanceof", "new", "null", "return", "super", "switch", "this", "throw", "true", "try",
   "typeof", "var", "void", "while", "with"]

/-- A name that is not reserved, as a kind. -/
def identifierAs (kind : Kind) : Rule Node :=
  leaf kind fun s i =>
    match s.nameEnd? i with
    | some j => if reserved.contains (s.slice i j) then none else some j
    | none => none

/-- An identifier; the word for the missing value has a kind of its own. -/
def identifier : Rule Node := do
  let n ← identifierAs .identifier
  return if n.text == "undefined" then n.withKind .undefinedWord else n

/-- A private name. -/
def privateName : Rule Node :=
  leaf .privatePropertyIdentifier fun s i => if s.at_ i == '#' then s.nameEnd? (i + 1) else none

/-- A number. -/
def number : Rule Node :=
  leaf .number fun s i => s.numberEnd? i

end Tokens

section Repetition

/-- At most one occurrence. -/
def opt
    {α : Type}
    (r : Rule α) :
    Rule (List α) :=
  fun s i =>
    match r s i with
    | some (a, j) => some ([a], j)
    | none => some ([], i)

/-- As many occurrences as there are, each of which reads something. The first argument bounds
their number. -/
def repeatRule
    {α : Type}
    (r : Rule α) :
    Nat → Rule (List α)
  | 0 => fun _ i => some ([], i)
  | n + 1 => fun s i =>
    match r s i with
    | none => some ([], i)
    | some (a, j) =>
      if j ≤ i then some ([], i)
      else
        match repeatRule r n s j with
        | some (as, k) => some (a :: as, k)
        | none => some ([a], j)

/-- As many occurrences as there are; each reads at least one character. -/
def many
    {α : Type}
    (r : Rule α) :
    Rule (List α) :=
  fun s i => repeatRule r (s.size + 1 - i) s i

/-- Occurrences with separators between them, at least one. -/
def sepBy1
    (item separator : Rule Node) :
    Rule (List Node) := do
  let first ← item
  let more ← many do
    let sep ← separator
    let next ← item
    return [sep, next]
  return first :: more.flatten

/-- Items and commas in any succession, as between brackets where items may be left out. -/
def commaList (item : Rule Node) : Rule (List Node) := do
  let first ← opt item
  let more ← many do
    let comma ← token ","
    let next ← opt item
    return comma :: next
  return first ++ more.flatten

/-- Items between brackets. -/
def bracketed
    (left : String)
    (item : Rule Node)
    (right : String) :
    Rule (List Node) := do
  let l ← token left
  let inside ← commaList item
  let r ← token right
  return l :: inside ++ [r]

/-- A node in a part of its parent. -/
def as_
    (role : Role)
    (r : Rule Node) :
    Rule Node := do
  let n ← r
  return n.withRole role

end Repetition

section StatementEnds

/-- The end of a statement: a semicolon, or a place where none is needed. -/
def statementEnd
    (inType : Bool) :
    Rule (List Node) :=
  orElse (do return [← token ";"]) fun s i =>
    (s.statementEnd? inType (s.size + 1) i).map fun j => ([], j)

/-- A statement that consists of given parts and its end. -/
def endStatement
    (kind : Kind)
    (children : List Node)
    (inType : Bool) :
    Rule Node := do
  let stop ← statementEnd inType
  buildToHere kind (children ++ stop)

/-- A declaration with a body, after which the end of a statement may be marked. -/
def endDeclaration
    (kind : Kind)
    (children : List Node) :
    Rule Node :=
  orElse
    (fun s i =>
      match s.statementEnd? false (s.size + 1) i with
      | some j => buildToHere kind children s j
      | none => none)
    (build kind children)

end StatementEnds

section Lookahead

/-- Where the bracket closes that stands at an offset, over strings, comments and nested brackets.
The first argument bounds the number of steps, the second is the depth of nesting. -/
def closingOffset
    (s : Source) :
    Nat → Nat → Nat → Option Nat
  | 0, _, _ => none
  | n + 1, depth, i =>
    if s.size ≤ i then none
    else
      let c := s.at_ i
      match s.commentEnd? i with
      | some j => closingOffset s n depth j
      | none =>
        if Source.isQuote c then closingOffset s n depth (s.quotedEnd c (s.size - i) (i + 1))
        else if c == '(' || c == '[' || c == '\x7b' then closingOffset s n (depth + 1) (i + 1)
        else if c == ')' || c == ']' || c == '\x7d' then
          if depth ≤ 1 then some (i + 1) else closingOffset s n (depth - 1) (i + 1)
        else closingOffset s n depth (i + 1)

/-- Whether an arrow, or the colon of a result type, follows the parentheses that open next. -/
def arrowAhead : Rule Bool :=
  fun s i =>
    let start := s.next i
    if s.at_ start != '(' then some (false, i)
    else
      match closingOffset s (s.size + 1 - start) 0 start with
      | none => some (true, i)
      | some stop =>
        let j := s.next stop
        some (s.holds ['=', '>'] j || s.at_ j == ':', i)

/-- Whether an equals sign that assigns follows the brackets that open next. -/
def assignmentAhead : Rule Bool :=
  fun s i =>
    let start := s.next i
    match closingOffset s (s.size + 1 - start) 0 start with
    | none => some (false, i)
    | some stop =>
      let j := s.next stop
      let c := s.at_ (j + 1)
      some (s.at_ j == '=' && c != '=' && c != '>', i)

end Lookahead

end Rule

end RouteAtlas.Syntax
