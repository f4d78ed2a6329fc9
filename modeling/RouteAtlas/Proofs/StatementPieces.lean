import Mathlib
import RouteAtlas.Proofs.ExpressionPieces
import RouteAtlas.Syntax.Grammar.Statements

/-!
# Pieces that statements are

The rules for statements and declarations make pieces of a source, if the constructs inside them are read by
rules that do.
-/

namespace RouteAtlas.Syntax.Rule

variable {s : Source} {self : Reader} (h : ∀ g, Cuts s (self g))

include h

section Variables

@[grind ←] theorem cuts_declarator (allowIn : Bool) : Cuts s (declarator self allowIn) := by
  unfold declarator
  grind

@[grind ←] theorem cuts_declaredVariables (allowIn : Bool) :
    Cuts s (declaredVariables self allowIn) := by
  refine .bind (by grind) fun k _ => .bind (by grind) fun ds _ => ?_
  split <;> grind

@[grind ←] theorem cuts_variableStatement : Cuts s (variableStatement self) := by
  unfold variableStatement
  grind

end Variables

section Functions

@[grind ←] theorem cuts_functionStatement : Cuts s (functionStatement self) := by
  unfold functionStatement
  grind

end Functions

section Classes

@[grind ←] theorem cuts_classMethod : Cuts s (classMethod self) := by
  refine .bind ?_ fun ms _ => .bind ?_ fun async_ _ => .bind ?_ fun accessor _ => .bind ?_ fun n _ =>
    .bind ?_ fun q _ => .bind ?_ fun sig _ => ?_
  all_goals grind

@[grind ←] theorem cuts_classField
    {ds : List Node}
    (hds : Pieces s ds) :
    Cuts s (classField self ds) := by
  refine .bind ?_ fun ms _ => .bind ?_ fun n _ => .bind ?_ fun mark _ => .bind ?_ fun t _ =>
    .bind ?_ fun v _ => .bind ?_ fun f _ => .bind ?_ fun stop _ => .pure ?_
  all_goals grind

@[grind ←] theorem cuts_classMember : Cuts s (classMember self) := by
  refine cuts_oneOf ?_
  simp only [allCut_cons, allCut_nil]
  refine ⟨?_, ?_, ?_, ?_, trivial⟩
  all_goals grind

@[grind ←] theorem cuts_classBody : Cuts s (classBody self) := by
  unfold classBody
  grind

@[grind ←] theorem cuts_classStatementWith
    {ds : List Node}
    (hds : Pieces s ds) :
    Cuts s (classStatementWith self ds) := by
  unfold classStatementWith
  grind

@[grind ←] theorem cuts_classStatement : Cuts s (classStatement self) := by
  unfold classStatement
  grind

end Classes

section Types

@[grind ←] theorem cuts_interfaceStatement : Cuts s (interfaceStatement self) := by
  refine .bind ?_ fun i _ => .bind ?_ fun n _ => .bind ?_ fun tps _ => .bind ?_ fun heritage _ =>
    .bind ?_ fun body _ => cuts_build ?_ _
  all_goals grind

@[grind ←] theorem cuts_aliasStatement : Cuts s (aliasStatement self) := by
  unfold aliasStatement
  grind

@[grind ←] theorem cuts_enumMember : Cuts s (enumMember self) := by
  unfold enumMember
  grind

@[grind ←] theorem cuts_enumStatement : Cuts s (enumStatement self) := by
  unfold enumStatement
  grind

omit h in
@[grind norm] theorem cuts_dottedName : Cuts s dottedName := by
  refine .bind cuts_nestedName fun ⟨chain, last⟩ ⟨hchain, hlast⟩ => ?_
  have hnames : Pieces s (chain.map Prod.fst ++ [last]) :=
    (pieces_append _ _).2 ⟨List.forall_mem_map.2 fun p hp => (hchain p hp).1, by grind⟩
  have hdots : Pieces s (chain.map Prod.snd) := List.forall_mem_map.2 fun p hp => (hchain p hp).2
  dsimp only
  split
  · exact cuts_fail
  · next first rest hrest =>
    rw [hrest, pieces_cons] at hnames
    exact cuts_qualifier hnames.1 hdots hnames.2

@[grind ←] theorem cuts_namespaceStatement : Cuts s (namespaceStatement self) := by
  unfold namespaceStatement
  grind

omit h in
@[grind norm] theorem cuts_importAlias : Cuts s importAlias := by
  unfold importAlias
  grind

end Types

section Modules

omit h in
@[grind norm] theorem cuts_fromClause : Cuts s fromClause := by
  unfold fromClause
  grind

@[grind ←] theorem cuts_importAttribute : Cuts s (importAttribute self) := by
  unfold importAttribute
  grind

omit h in
@[grind norm] theorem cuts_exportedName : Cuts s exportedName := by
  unfold exportedName
  grind

omit h in
@[grind norm] theorem cuts_typeMark : Cuts s typeMark := by
  unfold typeMark
  grind

omit h in
@[grind norm] theorem cuts_importSpecifier : Cuts s importSpecifier := by
  unfold importSpecifier
  grind

omit h in
@[grind norm] theorem cuts_namespaceImport : Cuts s namespaceImport := by
  unfold namespaceImport
  grind

omit h in
@[grind norm] theorem cuts_namedImports : Cuts s namedImports := by
  unfold namedImports
  grind

omit h in
@[grind norm] theorem cuts_importClause : Cuts s importClause := by
  refine .bind (cuts_oneOf ?_) fun parts _ => by grind
  simp only [allCut_cons, allCut_nil]
  refine ⟨?_, ?_, ?_, trivial⟩
  all_goals grind

@[grind ←] theorem cuts_importStatement : Cuts s (importStatement self) := by
  refine .bind (by grind) fun i _ => .bind (by grind) fun t _ => .bind (cuts_oneOf ?_) fun body _ =>
    .bind (by grind) fun attrs _ => by grind
  simp only [allCut_cons, allCut_nil]
  refine ⟨?_, ?_, ?required, trivial⟩
  case required =>
    refine .bind ?_ fun n _ => .bind ?_ fun e _ => .bind ?_ fun r _ => .bind ?_ fun l _ =>
      .bind ?_ fun source _ => .bind ?_ fun p _ => ?_
    all_goals grind
  all_goals grind

omit h in
@[grind norm] theorem cuts_exportSpecifier : Cuts s exportSpecifier := by
  unfold exportSpecifier
  grind

omit h in
@[grind norm] theorem cuts_exportClause : Cuts s exportClause := by
  unfold exportClause
  grind

@[grind ←] theorem cuts_declaration : Cuts s (declaration self) := by
  refine .bind cuts_peek fun c _ => ?_
  split
  · exact cuts_classStatement h
  · refine .bind cuts_peekName fun n _ => ?_
    split <;> grind

@[grind ←] theorem cuts_ambientStatement
    {inner : Rule Node}
    (hinner : Cuts s inner) :
    Cuts s (ambientStatement self inner) := by
  unfold ambientStatement
  grind

@[grind ←] theorem cuts_exportedDeclaration : Cuts s (exportedDeclaration self) := by
  unfold exportedDeclaration
  grind

@[grind ←] theorem cuts_defaultExport : Cuts s (defaultExport self) := by
  unfold defaultExport
  grind

@[grind ←] theorem cuts_exportStatement : Cuts s (exportStatement self) := by
  refine .bind (by grind) fun ds _ => .bind (by grind) fun e _ => .bind (cuts_oneOf ?_) fun rest _ => by grind
  simp only [allCut_cons, allCut_nil]
  refine ⟨?_, ?renamed, ?listed, ?_, ?_, ?_, ?_, trivial⟩
  case renamed =>
    refine .bind ?_ fun star _ => .bind ?_ fun a _ => .bind ?_ fun n _ => .bind ?_ fun ns _ =>
      .bind ?_ fun f _ => .bind ?_ fun stop _ => .pure ?_
    all_goals grind
  case listed =>
    refine .bind ?_ fun t _ => .bind ?_ fun c _ => .bind ?_ fun f _ => .bind ?_ fun stop _ => .pure ?_
    all_goals grind
  all_goals grind

end Modules

section Control

@[grind ←] theorem cuts_condition : Cuts s (condition self) := by
  unfold condition
  grind

@[grind ←] theorem cuts_block : Cuts s (block self) := by
  unfold block
  grind

@[grind ←] theorem cuts_ifStatement : Cuts s (ifStatement self) := by
  unfold ifStatement
  grind

@[grind ←] theorem cuts_switchCase : Cuts s (switchCase self) := by
  unfold switchCase
  grind

@[grind ←] theorem cuts_switchStatement : Cuts s (switchStatement self) := by
  unfold switchStatement
  grind

@[grind ←] theorem cuts_forInStatement : Cuts s (forInStatement self) := by
  refine .bind ?_ fun f _ => .bind ?_ fun a _ => .bind ?_ fun l _ => .bind ?_ fun left _ =>
    .bind ?_ fun op _ => .bind ?_ fun right _ => .bind ?_ fun r _ => .bind ?_ fun body _ => cuts_build ?_ _
  all_goals grind

omit h in
@[grind norm] theorem cuts_emptyStatement : Cuts s emptyStatement := by
  unfold emptyStatement
  grind

@[grind ←] theorem cuts_forStatement : Cuts s (forStatement self) := by
  refine .bind ?_ fun f _ => .bind ?_ fun l _ => .bind ?_ fun init hinit => .bind ?_ fun cond hcond =>
    .bind ?_ fun step _ => .bind ?_ fun r _ => .bind ?_ fun body _ => cuts_build ?_ _
  -- the first part of the initializer and of the condition bears a role, if there is one
  case refine_8 => cases init <;> cases cond <;> grind
  all_goals grind

@[grind ←] theorem cuts_whileStatement : Cuts s (whileStatement self) := by
  unfold whileStatement
  grind

@[grind ←] theorem cuts_doStatement : Cuts s (doStatement self) := by
  unfold doStatement
  grind

@[grind ←] theorem cuts_tryStatement : Cuts s (tryStatement self) := by
  refine .bind (by grind) fun t _ => .bind (by grind) fun body _ => .bind ?handler fun handler _ =>
    .bind (by grind) fun last _ => cuts_build (by grind) _
  case handler =>
    refine (cuts_opt _).2 ((cuts_as_ _ _).2 (.bind (by grind) fun c _ => .bind ((cuts_opt _).2 ?_) fun p _ =>
      .bind (by grind) fun b _ => by grind))
    refine .bind ?_ fun l _ => .bind ?_ fun p _ => .bind ?_ fun t _ => .bind ?_ fun r _ => .pure ?_
    all_goals grind

omit h in
@[grind norm] theorem cuts_jumpStatement
    (kind : Kind)
    (w : String) :
    Cuts s (jumpStatement kind w) := by
  unfold jumpStatement
  grind

@[grind ←] theorem cuts_leaveStatement
    (kind : Kind)
    (w : String) :
    Cuts s (leaveStatement self kind w) := by
  unfold leaveStatement
  grind

@[grind ←] theorem cuts_withStatement : Cuts s (withStatement self) := by
  unfold withStatement
  grind

@[grind ←] theorem cuts_labeledStatement : Cuts s (labeledStatement self) := by
  unfold labeledStatement
  grind

@[grind ←] theorem cuts_expressionStatement : Cuts s (expressionStatement self) := by
  unfold expressionStatement
  grind

@[grind ←] theorem cuts_namespaceExpression : Cuts s (namespaceExpression self) := by
  unfold namespaceExpression
  grind

@[grind ←] theorem cuts_statement : Cuts s (statement self) := by
  refine .bind cuts_peek fun c _ => .bind cuts_peekName fun n _ => ?_
  simp only [cuts_ite]
  iterate 3 refine ⟨fun _ => by grind, fun _ => ?_⟩
  split <;> grind

end Control

end RouteAtlas.Syntax.Rule
