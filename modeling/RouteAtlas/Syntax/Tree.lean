import RouteAtlas.Syntax.Grammar.Statements

/-!
# The syntax tree of a source

Here the rules of the grammar are tied together, with a bound on the nesting that no construct can
reach, because each level of nesting but a fixed number reads a character. Comments are put into
the finished tree: each becomes a child of the lowest node that has parts before and after it.

Recovery from errors is a rule of this module, and not that of parsing libraries, which go on with the
partial tree of a construct they have lost. Here a construct that cannot be read is given up: the rest of
its line becomes an error node without parts, and the next statement starts after it. Sources without
errors have the tree of the grammar.
-/

namespace RouteAtlas.Syntax

section Nesting

/-- How each construct is read, given how the constructs inside it are. -/
def Rule.step (self : Reader) : Reader
  | .expression allowIn => Rule.expression self allowIn
  | .expressions allowIn => Rule.expressions self allowIn
  | .unary => Rule.unary self
  | .postfix_ => Rule.postfix_ self
  | .statement => Rule.statement self
  | .block => Rule.block self
  | .pattern => Rule.pattern self
  | .parameters => Rule.parameters self
  | .type => Rule.type self
  | .typeOperand => Rule.typeOperand self
  | .typeArguments => Rule.typeArguments self
  | .classBody => Rule.classBody self
  | .element => Rule.element self

/-- How each construct is read up to a depth of nesting. -/
def Rule.upTo : Nat → Reader
  | 0 => fun _ => Rule.fail
  | n + 1 => fun goal s i => Rule.step (Rule.upTo n) goal s i

end Nesting

section Comments

/-- The nodes of the comments between two offsets. -/
def commentNodes
    (s : Source)
    (start stop : Nat) :
    List Node :=
  (s.commentsFrom (s.size + 1) start stop).map fun c => Rule.nodeAt s .comment c.1 c.2 []

mutual

/-- The node with the comments among its parts. -/
def withComments (s : Source) : Node → Node
  | .mk kind role span text children =>
    .mk kind role span text (withCommentsAfter s none span.stop children)

/-- The parts of a node with the comments between them, and those between the last part and the end
of the node. The second argument is the end of the part before. -/
def withCommentsAfter
    (s : Source) :
    Option Nat → Nat → List Node → List Node
  | none, _, [] => []
  | some i, stop, [] => if i < stop then commentNodes s i stop else []
  | before, stop, c :: rest =>
    let between :=
      match before with
      | some i => if i < c.span.start then commentNodes s i c.span.start else []
      | none => []
    between ++ withComments s c :: withCommentsAfter s (some c.span.stop) stop rest

end

end Comments

section Files

/-- A line that names an interpreter, at the very start of a source. -/
def interpreterLine : Rule Node :=
  fun s i =>
    if i == 0 && s.holds ['#', '!'] 0 then
      let j := s.skipWhile (· != '\n') 0
      some (Rule.nodeAt s .hashBangLine 0 j [], j)
    else none

/-- A line that belongs to no statement, as an error without parts. -/
def strayLine : Rule Node :=
  fun s i =>
    let start := s.next i
    if s.size ≤ start then none
    else
      let stop := max (start + 1) (s.skipWhile (· != '\n') start)
      some (Rule.nodeAt s .error start stop [], stop)

/-- The statements of a source. -/
def statements : Rule (List Node) := do
  let (s, _) ← Rule.here
  let self := Rule.upTo (40 * (s.size + 2))
  let first ← Rule.opt interpreterLine
  let more ← Rule.many (Rule.orElse (self .statement) strayLine)
  return first ++ more

/-- The syntax tree of a source. The root starts at the first token or comment and reaches up to the
end of the text. -/
def parse
    (dialect : Dialect)
    (text : String) :
    Node :=
  let s := Source.ofText dialect text
  let body := match statements s 0 with
    | some (nodes, _) => nodes
    | none => []
  let firstToken := match body with
    | n :: _ => n.span.start
    | [] => s.size
  let lead := commentNodes s 0 firstToken
  let start := s.skipWhile Source.isGap 0
  let rest := match body with
    | [] => []
    | first :: more =>
      withComments s first :: withCommentsAfter s (some first.span.stop) s.size more
  Rule.nodeAt s .program start s.size (lead ++ rest)

end Files

end RouteAtlas.Syntax
