import RouteAtlas.Syntax.Literal

/-!
# Static values

The value of an expression that is made of literals, arrays and objects only. A property given twice
keeps its first place and its last value; a spread object adds nothing.
-/

namespace RouteAtlas.Syntax.Node

section Evaluation

/-- The static value of an expression. The first argument bounds its nesting. -/
def staticUpTo : Nat → Node → Option Value
  | 0, _ => none
  | depth + 1, n =>
    let n := n.unwrap
    match n.kind with
    | .array => (n.namedChildren.mapM (staticUpTo depth)).map .list
    | .object =>
      (n.properties.mapM fun p => (staticUpTo depth p.value).map fun v => (p.name, v)).map
        fun entries => .map (ofPairs entries)
    | _ => n.literalValue?

/-- The static value of an expression, if it has one. No expression is nested deeper than it has
nodes. -/
def staticValue? (n : Node) : Option Value :=
  staticUpTo (n.count + 1) n

end Evaluation

end RouteAtlas.Syntax.Node
