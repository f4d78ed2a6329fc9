import Mathlib
import RouteAtlas.Proofs.TypePieces
import RouteAtlas.Syntax.Grammar.Expressions
import RouteAtlas.Syntax.Grammar.Markup

/-!
# Pieces that expressions are

The rules for expressions and for elements of markup make pieces of a source, if the constructs inside them
are read by rules that do.
-/

namespace RouteAtlas.Syntax.Rule

variable {s : Source} {self : Reader} (h : ∀ g, Cuts s (self g))

include h

section Functions

@[grind ←] theorem cuts_arrowFunction (allowIn : Bool) : Cuts s (arrowFunction self allowIn) := by
  refine .bind (by grind) fun async_ _ => .bind (cuts_orElse (by grind) ?parameters) fun head _ =>
    .bind cuts_peek fun c _ => ?body
  case parameters =>
    refine .bind ?_ fun tps _ => .bind ?_ fun ahead _ => .bind ?_ fun _ _ => .bind ?_ fun ps _ =>
      .bind ?_ fun result _ => .bind ?_ fun arrow _ => .pure ?_
    all_goals grind
  case body =>
    dsimp only
    split <;> grind

@[grind ←] theorem cuts_functionExpression : Cuts s (functionExpression self) := by
  unfold functionExpression
  grind

end Functions

section Objects

@[grind ←] theorem cuts_objectMethod : Cuts s (objectMethod self) := by
  unfold objectMethod
  grind

@[grind ←] theorem cuts_objectEntry : Cuts s (objectEntry self) := by
  unfold objectEntry
  grind

@[grind ←] theorem cuts_object : Cuts s (object self) := by
  unfold object
  grind

@[grind ←] theorem cuts_array : Cuts s (array self) := by
  unfold array
  grind

end Objects

section Classes

@[grind ←] theorem cuts_classHeritage : Cuts s (classHeritage self) := by
  unfold classHeritage
  grind

@[grind ←] theorem cuts_classRest : Cuts s (classRest self) := by
  refine .bind ?_ fun c _ => .bind ?_ fun n _ => .bind ?_ fun tps _ => .bind ?_ fun heritage _ =>
    .bind ?_ fun body _ => .pure ?_
  all_goals grind

@[grind ←] theorem cuts_classExpression : Cuts s (classExpression self) := by
  unfold classExpression
  grind

end Classes

section Primary

@[grind ←] theorem cuts_parenthesized : Cuts s (parenthesized self) := by
  unfold parenthesized
  grind

@[grind ←] theorem cuts_primary : Cuts s (primary self) := by
  refine .bind cuts_peek fun c _ => ?_
  simp only [cuts_ite]
  iterate 10 refine ⟨fun _ => by grind, fun _ => ?_⟩
  exact .bind cuts_peekName fun n _ => by split <;> grind

omit h in
@[grind ←] theorem cuts_memberSuffix
    {acc : Node}
    (hacc : Pieces s acc) :
    Cuts s (memberSuffix acc) := by
  unfold memberSuffix
  grind

@[grind ←] theorem cuts_subscriptSuffix
    {acc : Node}
    (hacc : Pieces s acc) :
    Cuts s (subscriptSuffix self acc) := by
  unfold subscriptSuffix
  grind

@[grind ←] theorem cuts_newExpression_go
    {acc : Node}
    (hacc : Pieces s acc)
    (n : Nat) :
    Cuts s (newExpression.go self n acc) := by
  induction n generalizing acc with
  | zero => exact .pure hacc
  | succ n ih =>
    unfold newExpression.go
    grind

@[grind ←] theorem cuts_newExpression : Cuts s (newExpression self) := by
  refine .bind (cuts_word _) fun n _ => cuts_orElse (by grind) (.bind ?_ fun _ _ => .bind ?_ fun first _ =>
    .bind ?_ fun c _ => .bind ?_ fun tas _ => .bind ?_ fun args _ => cuts_build ?_ _)
  all_goals grind

omit h in
@[grind norm] theorem cuts_afterInstantiation : Cuts s afterInstantiation :=
  fun _ _ _ _ => trivial

@[grind ←] theorem cuts_suffix
    {acc : Node}
    (hacc : Pieces s acc) :
    Cuts s (suffix self acc) := by
  refine cuts_oneOf ?_
  simp only [allCut_cons, allCut_nil]
  refine ⟨?_, ?_, ?_, ?_, ?_, ?_, trivial⟩
  all_goals grind

@[grind ←] theorem cuts_suffixes
    {acc : Node}
    (hacc : Pieces s acc)
    (n : Nat) :
    Cuts s (suffixes self n acc) := by
  induction n generalizing acc with
  | zero => exact .pure hacc
  | succ n ih =>
    unfold suffixes
    grind

@[grind ←] theorem cuts_postfix : Cuts s (postfix_ self) := by
  refine .bind cuts_peekName fun n _ => ?_
  dsimp only
  split <;> grind

end Primary

section Operators

omit h in
@[grind norm] theorem cuts_stepOperator : Cuts s stepOperator := by
  unfold stepOperator
  grind

@[grind ←] theorem cuts_prefixed : Cuts s (prefixed self) := by
  unfold prefixed
  grind

@[grind ←] theorem cuts_typeAssertion : Cuts s (typeAssertion self) := by
  unfold typeAssertion
  grind

@[grind ←] theorem cuts_constAssertion : Cuts s (constAssertion self) := by
  unfold constAssertion
  grind

@[grind ←] theorem cuts_unary : Cuts s (unary self) := by
  unfold unary
  grind

omit h in
@[grind norm] theorem cuts_binaryOperator (op : String) : Cuts s (binaryOperator op) := by
  unfold binaryOperator
  grind

@[grind ←] theorem cuts_cast
    {acc : Node}
    (hacc : Pieces s acc) :
    Cuts s (cast self acc) := by
  unfold cast
  grind

@[grind ←] theorem cuts_branches
    {first : Rule Node}
    (hfirst : Cuts s first)
    (allowIn : Bool) :
    Cuts s (branches self allowIn first) := by
  unfold branches
  grind

@[grind ←] theorem cuts_binary_go
    {allowed ops : List String}
    {operand : Rule Node}
    (hoperand : Cuts s operand)
    {acc : Node}
    (hacc : Pieces s acc)
    (n : Nat) :
    Cuts s (binary.go self ops allowed operand n acc) := by
  induction n generalizing acc with
  | zero => exact .pure hacc
  | succ n ih =>
    have hoperator : Cuts s (oneOf (allowed.map binaryOperator)) :=
      cuts_oneOf ((allCut_map _ _).2 fun op _ => cuts_binaryOperator op)
    unfold binary.go
    grind

@[grind ←] theorem cuts_binary
    (allowIn : Bool)
    (levels : List (List String)) :
    Cuts s (binary self allowIn levels) := by
  induction levels with
  | nil => exact h .unary
  | cons ops stronger ih =>
    unfold binary
    grind

@[grind ←] theorem cuts_conditional (allowIn : Bool) : Cuts s (conditional self allowIn) := by
  refine .bind (cuts_binary h _ _) fun c _ => .bind (by grind) fun more _ => ?_
  split <;> grind

@[grind ←] theorem cuts_patternAssignment (allowIn : Bool) : Cuts s (patternAssignment self allowIn) := by
  unfold patternAssignment
  grind

@[grind ←] theorem cuts_assignment (allowIn : Bool) : Cuts s (assignment self allowIn) := by
  have hoperator : Cuts s (oneOf (augmentedOperators.map token)) :=
    cuts_oneOf ((allCut_map _ _).2 fun op _ => cuts_token op)
  refine .bind (cuts_conditional h _) fun left _ => ?_
  split
  · grind
  · refine .bind (by grind) fun more _ => ?_
    split <;> grind

@[grind ←] theorem cuts_yield_ (allowIn : Bool) : Cuts s (yield_ self allowIn) := by
  unfold yield_
  grind

omit h in
@[grind norm] theorem cuts_mayBeArrow : Cuts s mayBeArrow :=
  fun _ _ _ _ => trivial

@[grind ←] theorem cuts_expression (allowIn : Bool) : Cuts s (expression self allowIn) := by
  unfold expression
  grind

@[grind ←] theorem cuts_expressions (allowIn : Bool) : Cuts s (expressions self allowIn) := by
  unfold expressions
  grind

end Operators

section Names

omit h in
@[grind norm] theorem cuts_markupWord : Cuts s markupWord := by
  unfold markupWord
  grind

omit h in
@[grind ←] theorem cuts_markupName_nest
    {acc : Node}
    {more : List (Node × Node)}
    (hacc : Pieces s acc)
    (hmore : Pieces s more) :
    Cuts s (markupName.nest acc more) := by
  induction more generalizing acc with
  | nil => exact .pure hacc
  | cons p rest ih =>
    rw [pieces_cons] at hmore
    exact .bind (by grind) fun next hnext => ih hnext hmore.2

omit h in
@[grind norm] theorem cuts_markupName (isAttribute : Bool) : Cuts s (markupName isAttribute) := by
  refine .bind cuts_markupWord fun first hfirst => cuts_orElse (by grind) ?_
  cases isAttribute <;> grind

end Names

section Inside

@[grind ←] theorem cuts_markupExpression : Cuts s (markupExpression self) := by
  unfold markupExpression
  grind

omit h in
@[grind norm] theorem cuts_markupString : Cuts s markupString := by
  unfold markupString
  grind

@[grind ←] theorem cuts_markupAttribute : Cuts s (markupAttribute self) := by
  unfold markupAttribute
  grind

omit h in
@[grind norm] theorem cuts_markupText : Cuts s markupText := by
  unfold markupText
  grind

end Inside

section Elements

@[grind ←] theorem cuts_tagInside : Cuts s (tagInside self) := by
  unfold tagInside
  grind

@[grind ←] theorem cuts_pairedElement : Cuts s (pairedElement self) := by
  refine .bind ?_ fun l _ => .bind ?_ fun inside _ => .bind ?_ fun r _ => .bind ?_ fun opened _ =>
    .bind ?_ fun children _ => .bind ?_ fun l' _ => .bind ?_ fun slash _ => .bind ?_ fun n _ =>
    .bind ?_ fun r' _ => .bind ?_ fun closed _ => cuts_build ?_ _
  all_goals grind

@[grind ←] theorem cuts_element : Cuts s (element self) := by
  unfold element
  grind

end Elements

end RouteAtlas.Syntax.Rule
