import RouteAtlas.Syntax.Kind

/-!
# Syntax trees

A node covers a stretch of the source: it knows its text, its offsets and its first and last line,
and has its parts as children in source order, comments and single tokens included. Named children
are those that are more than a token.
-/

namespace RouteAtlas.Syntax

/-- A stretch of the source, by character offsets and by lines counted from one. -/
structure Span where
  start : Nat
  stop : Nat
  line : Nat
  endLine : Nat
  deriving Repr, DecidableEq, Inhabited

/-- A node of a syntax tree. -/
inductive Node where
  | mk (kind : Kind) (role : Option Role) (span : Span) (text : String) (children : List Node)
  deriving Repr, Inhabited

namespace Node

section Parts

/-- The kind of construct. -/
def kind : Node → Kind
  | mk k _ _ _ _ => k

/-- The part that the node plays in its parent. -/
def role : Node → Option Role
  | mk _ r _ _ _ => r

/-- Where the node stands. -/
def span : Node → Span
  | mk _ _ s _ _ => s

/-- The source that the node covers. -/
def text : Node → String
  | mk _ _ _ t _ => t

/-- The parts of the node in source order. -/
def children : Node → List Node
  | mk _ _ _ _ cs => cs

/-- The first line of the node, counted from one. -/
def line (n : Node) : Nat :=
  n.span.line

/-- The last line of the node. -/
def endLine (n : Node) : Nat :=
  n.span.endLine

/-- The number of lines that the node covers. -/
def lineCount (n : Node) : Nat :=
  n.endLine - n.line + 1

/-- The same node in another part of its parent. -/
def withRole
    (r : Role)
    (n : Node) :
    Node :=
  mk n.kind (some r) n.span n.text n.children

/-- The same node as another kind. -/
def withKind
    (k : Kind)
    (n : Node) :
    Node :=
  mk k n.role n.span n.text n.children

/-- Whether the node is more than a token. -/
def isNamed (n : Node) : Bool :=
  n.kind != .token

/-- Whether the node is a comment. -/
def isComment (n : Node) : Bool :=
  n.kind == .comment

end Parts

section Children

/-- The children that are more than a token, comments included. -/
def namedChildren (n : Node) : List Node :=
  n.children.filter isNamed

/-- The children that are neither tokens nor comments. -/
def parts (n : Node) : List Node :=
  n.namedChildren.filter fun c => !c.isComment

/-- The first child in a given part. -/
def child?
    (n : Node)
    (r : Role) :
    Option Node :=
  n.children.find? fun c => c.role = some r

/-- Whether some child is the given token. -/
def hasToken
    (n : Node)
    (t : String) :
    Bool :=
  n.children.any fun c => c.kind == .token && c.text == t

end Children

section Descendants

mutual

/-- The node and all nodes below it, each before its children. -/
def subtree : Node → List Node
  | mk k r s t cs => mk k r s t cs :: forest cs

/-- The nodes of a list of trees, each before its children. -/
def forest : List Node → List Node
  | [] => []
  | c :: rest => subtree c ++ forest rest

end

mutual

/-- The number of nodes of a tree. -/
def count : Node → Nat
  | mk _ _ _ _ cs => 1 + countForest cs

/-- The number of nodes of a list of trees. -/
def countForest : List Node → Nat
  | [] => 0
  | c :: rest => count c + countForest rest

end

/-- Walks through nodes with an explicit stack: the top node is visited, and its children take its
place. The first argument bounds the number of visits. -/
def walk
    (wanted : Node → Bool) :
    Nat → List Node → List Node
  | 0, _ => []
  | _ + 1, [] => []
  | n + 1, top :: stack =>
    let later := walk wanted n (top.children ++ stack)
    if wanted top then top :: later else later

/-- The wanted nodes below a node, in source order and outer before inner. -/
def descendants
    (n : Node)
    (wanted : Node → Bool) :
    List Node :=
  walk wanted (countForest n.children) n.children

/-- The nodes of a kind below a node, in source order and outer before inner. -/
def descendantsOf
    (n : Node)
    (k : Kind) :
    List Node :=
  n.descendants fun d => d.kind == k

end Descendants

end Node

end RouteAtlas.Syntax
