import Mathlib
import RouteAtlas.Proofs.SourcePieces
import RouteAtlas.Syntax.Grammar.Patterns

/-!
# Pieces that types and patterns are

The rules for types, patterns and parameters make pieces of a source, if the constructs inside them are
read by rules that do. Each lemma is tagged, so that the rules which use a rule need not be told about it.
-/

namespace RouteAtlas.Syntax.Rule

variable {s : Source} {self : Reader} (h : ∀ g, Cuts s (self g))

include h

section Annotations

@[grind ←] theorem cuts_typePredicate : Cuts s (typePredicate self) := by
  unfold typePredicate
  grind

@[grind ←] theorem cuts_assertion : Cuts s (assertion self) := by
  unfold assertion
  grind

@[grind ←] theorem cuts_typeAscription : Cuts s (typeAscription self) := by
  unfold typeAscription
  grind

@[grind ←] theorem cuts_optAscription : Cuts s (optAscription self) := by
  unfold optAscription
  grind

@[grind ←] theorem cuts_resultAscription : Cuts s (resultAscription self) := by
  unfold resultAscription
  grind

@[grind ←] theorem cuts_typeParameter : Cuts s (typeParameter self) := by
  unfold typeParameter
  grind

@[grind ←] theorem cuts_typeParameters : Cuts s (typeParameters self) := by
  unfold typeParameters
  grind

@[grind ←] theorem cuts_typeArguments : Cuts s (typeArguments self) := by
  unfold typeArguments
  grind

@[grind ←] theorem cuts_callSignature : Cuts s (callSignature self) := by
  unfold callSignature
  grind

end Annotations

section Keys

@[grind ←] theorem cuts_computedName : Cuts s (computedName self) := by
  unfold computedName
  grind

@[grind ←] theorem cuts_propertyName : Cuts s (propertyName self) := by
  unfold propertyName
  grind

omit h in
@[grind norm] theorem cuts_modifier (w : String) : Cuts s (modifier w) := by
  unfold modifier
  grind

omit h in
@[grind norm] theorem cuts_accessibility : Cuts s accessibility := by
  unfold accessibility
  grind

omit h in
@[grind norm] theorem cuts_override_ : Cuts s override_ := by
  unfold override_
  grind

end Keys

section Members

omit h in
@[grind norm] theorem cuts_accessorMark : Cuts s accessorMark := by
  unfold accessorMark
  grind

@[grind ←] theorem cuts_mappedClause : Cuts s (mappedClause self) := by
  unfold mappedClause
  grind

@[grind ←] theorem cuts_indexAscription : Cuts s (indexAscription self) := by
  unfold indexAscription
  grind

@[grind ←] theorem cuts_indexSignature : Cuts s (indexSignature self) := by
  refine .bind ?_ fun marks _ => .bind ?_ fun l _ => .bind ?_ fun inside _ => .bind ?_ fun r _ =>
    .bind ?_ fun t _ => cuts_build ?_ _
  all_goals grind

omit h in
@[grind norm] theorem cuts_memberModifiers : Cuts s memberModifiers := by
  unfold memberModifiers
  grind

@[grind ←] theorem cuts_methodSignature : Cuts s (methodSignature self) := by
  refine .bind ?_ fun ms _ => .bind ?_ fun async_ _ => .bind ?_ fun accessor _ => .bind ?_ fun n _ =>
    .bind ?_ fun q _ => .bind ?_ fun sig _ => cuts_build ?_ _
  all_goals grind

@[grind ←] theorem cuts_propertySignature : Cuts s (propertySignature self) := by
  unfold propertySignature
  grind

@[grind ←] theorem cuts_callMember : Cuts s (callMember self) := by
  unfold callMember
  grind

@[grind ←] theorem cuts_constructMember : Cuts s (constructMember self) := by
  unfold constructMember
  grind

@[grind ←] theorem cuts_typeMember : Cuts s (typeMember self) := by
  unfold typeMember
  grind

@[grind ←] theorem cuts_objectTypeAs (kind : Kind) : Cuts s (objectTypeAs kind self) := by
  refine .bind ?_ fun l _ => .bind ?_ fun first _ => .bind ?_ fun members _ => .bind ?_ fun r _ =>
    cuts_build ?_ _
  all_goals grind

@[grind ←] theorem cuts_objectType : Cuts s (objectType self) := by
  unfold objectType
  grind

end Members

section Primary

omit h in
@[grind norm] theorem cuts_predefinedType : Cuts s predefinedType := by
  unfold predefinedType
  grind

omit h in
@[grind norm] theorem cuts_literalType : Cuts s literalType := by
  unfold literalType
  grind

omit h in
/-- The names of a chain, each with the point behind it. -/
@[grind norm] theorem cuts_nestedName : Cuts s nestedName := by
  refine .bind (by grind) fun first hfirst => .bind (by grind) fun more hmore => ?_
  have hreverse : ∀ p ∈ more.reverse, Pieces s p := fun p hp => hmore p (List.mem_reverse.1 hp)
  split
  · exact .pure (by grind)
  · next lastDot last rest hrest =>
    rw [hrest, List.forall_mem_cons] at hreverse
    have hback : ∀ p ∈ rest.reverse, Pieces s p := fun p hp => hreverse.2 p (List.mem_reverse.1 hp)
    refine .pure ⟨fun p hp => ?_, hreverse.1.2⟩
    obtain ⟨hname, hdot⟩ := List.of_mem_zip (a := p.1) (b := p.2) hp
    constructor
    · rcases List.mem_cons.1 hname with hname | hname
      · exact hname ▸ hfirst
      · obtain ⟨q, hq, hname⟩ := List.mem_map.1 hname
        exact hname ▸ (hback q hq).2
    · rcases List.mem_append.1 hdot with hdot | hdot
      · obtain ⟨q, hq, hdot⟩ := List.mem_map.1 hdot
        exact hdot ▸ (hback q hq).1
      · exact List.mem_singleton.1 hdot ▸ hreverse.1.1

omit h in
@[grind ←] theorem cuts_qualifier
    {acc : Node}
    {dots names : List Node}
    (hacc : Pieces s acc)
    (hdots : Pieces s dots)
    (hnames : Pieces s names) :
    Cuts s (qualifier acc dots names) := by
  induction dots generalizing acc names with
  | nil => exact .pure hacc
  | cons dot dots ih =>
    cases names with
    | nil => exact .pure hacc
    | cons n names =>
      rw [pieces_cons] at hdots hnames
      exact .bind (by grind) fun next hnext => ih hnext hdots.2 hnames.2

omit h in
@[grind norm] theorem cuts_typeName : Cuts s typeName := by
  refine .bind cuts_nestedName fun ⟨chain, last⟩ ⟨hchain, hlast⟩ => ?_
  cases chain with
  | nil => exact .pure ((pieces_withKind _ _).2 hlast)
  | cons p rest =>
    obtain ⟨first, dot⟩ := p
    obtain ⟨⟨hfirst, hdot⟩, hrest⟩ := List.forall_mem_cons.1 hchain
    have hnames : Pieces s (rest.map Prod.fst) :=
      List.forall_mem_map.2 fun p hp => (hrest p hp).1
    have hdots : Pieces s (dot :: rest.map Prod.snd) :=
      (pieces_cons _ _).2 ⟨hdot, List.forall_mem_map.2 fun p hp => (hrest p hp).2⟩
    have hlastDot := hdots _ List.getLastD_mem_cons
    refine .bind (cuts_qualifier hfirst (fun d hd => hdots d (List.mem_of_mem_dropLast hd)) hnames)
      fun container hcontainer => cuts_build ?_ _
    grind

@[grind ←] theorem cuts_namedType : Cuts s (namedType self) := by
  unfold namedType
  grind

@[grind ←] theorem cuts_tupleElement : Cuts s (tupleElement self) := by
  refine cuts_oneOf ?_
  simp only [allCut_cons, allCut_nil]
  refine ⟨?_, ?_, ?_, ?_, ?_, trivial⟩
  all_goals grind

omit h in
@[grind ←] theorem cuts_queriedValue_go
    {acc : Node}
    (hacc : Pieces s acc)
    (n : Nat) :
    Cuts s (queriedValue.go n acc) := by
  induction n generalizing acc with
  | zero => exact .pure hacc
  | succ n ih =>
    unfold queriedValue.go
    grind

@[grind ←] theorem cuts_queriedValue : Cuts s (queriedValue self) := by
  unfold queriedValue
  grind

@[grind ←] theorem cuts_primaryType : Cuts s (primaryType self) := by
  refine cuts_oneOf ?_
  simp only [allCut_cons, allCut_nil]
  refine ⟨?_, ?_, ?_, ?_, ?_, ?_, ?_, ?_, ?imported, ?_, ?_, ?_, ?_, ?_, ?_, ?_, trivial⟩
  case imported =>
    refine .bind ?_ fun i _ => .bind ?_ fun args _ => .bind ?_ fun a _ => .bind ?_ fun call _ =>
      .bind ?_ fun more hmore => ?_
    case refine_6 =>
      split
      · grind
      · next dot n hlast =>
        have hname := hmore _ (List.mem_of_getLast? hlast)
        grind
    all_goals grind
  all_goals grind

@[grind ←] theorem cuts_typeSuffixes
    {acc : Node}
    (hacc : Pieces s acc)
    (n : Nat) :
    Cuts s (typeSuffixes self n acc) := by
  induction n generalizing acc with
  | zero => exact .pure hacc
  | succ n ih =>
    refine cuts_orElse (.bind ?_ fun b _ => .bind ?_ fun _ _ => .bind ?_ fun l _ => .bind ?_ fun inside _ =>
      .bind ?_ fun r _ => ?_) (.pure hacc)
    case refine_6 =>
      dsimp only
      split
      all_goals grind
    all_goals grind

@[grind ←] theorem cuts_typeOperand : Cuts s (typeOperand self) := by
  unfold typeOperand
  grind

end Primary

section Combined

omit h in
@[grind ←] theorem cuts_typeChain_nest
    {acc : Node}
    {more : List (Node × Node)}
    (hacc : Pieces s acc)
    (hmore : Pieces s more)
    (kind : Kind) :
    Cuts s (typeChain.nest kind acc more) := by
  induction more generalizing acc with
  | nil => exact .pure hacc
  | cons p rest ih =>
    rw [pieces_cons] at hmore
    exact .bind (by grind) fun next hnext => ih hnext hmore.2

omit h in
@[grind ←] theorem cuts_typeChain
    {operand : Rule Node}
    (h : Cuts s operand)
    (kind : Kind)
    (operator : String) :
    Cuts s (typeChain kind operator operand) := by
  refine .bind (by grind) fun lead _ => .bind h fun first _ => ?_
  dsimp only
  split
  all_goals grind

@[grind ←] theorem cuts_functionType : Cuts s (functionType self) := by
  refine .bind ?_ fun tps _ => .bind ?_ fun ahead _ => .bind ?_ fun _ _ => .bind ?_ fun ps _ =>
    .bind ?_ fun arrow _ => .bind ?_ fun result _ => cuts_build ?_ _
  all_goals grind

@[grind ←] theorem cuts_constructorType : Cuts s (constructorType self) := by
  unfold constructorType
  grind

@[grind ←] theorem cuts_unionType : Cuts s (unionType self) := by
  unfold unionType
  grind

@[grind ←] theorem cuts_type : Cuts s (type self) := by
  refine cuts_oneOf ((allCut_cons _ _).2 ⟨cuts_functionType h, (allCut_cons _ _).2 ⟨cuts_constructorType h,
    (allCut_cons _ _).2 ⟨?_, allCut_nil.2 trivial⟩⟩⟩)
  refine .bind (cuts_unionType h) fun left _ => .bind ((cuts_opt _).2 ?_) fun more _ => ?_
  · refine .bind ?_ fun b _ => .bind ?_ fun _ _ => .bind ?_ fun e _ => .bind ?_ fun right _ =>
      .bind ?_ fun q _ => .bind ?_ fun yes _ => .bind ?_ fun c _ => .bind ?_ fun no _ => .pure ?_
    all_goals grind
  · split <;> grind

end Combined

section Patterns

@[grind ←] theorem cuts_initializer : Cuts s (initializer self) := by
  unfold initializer
  grind

@[grind ←] theorem cuts_patternWithDefault : Cuts s (patternWithDefault self) := by
  unfold patternWithDefault
  grind

@[grind ←] theorem cuts_restPattern : Cuts s (restPattern self) := by
  unfold restPattern
  grind

@[grind ←] theorem cuts_objectPatternEntry : Cuts s (objectPatternEntry self) := by
  unfold objectPatternEntry
  grind

@[grind ←] theorem cuts_objectPattern : Cuts s (objectPattern self) := by
  unfold objectPattern
  grind

@[grind ←] theorem cuts_arrayPattern : Cuts s (arrayPattern self) := by
  unfold arrayPattern
  grind

@[grind ←] theorem cuts_destructuring : Cuts s (destructuring self) := by
  unfold destructuring
  grind

@[grind ←] theorem cuts_pattern : Cuts s (pattern self) := by
  unfold pattern
  grind

end Patterns

section Decorators

omit h in
@[grind ←] theorem cuts_decoratorNames_nest
    {acc : Node}
    {more : List (Node × Node)}
    (hacc : Pieces s acc)
    (hmore : Pieces s more) :
    Cuts s (decoratorNames.nest acc more) := by
  induction more generalizing acc with
  | nil => exact .pure hacc
  | cons p rest ih =>
    rw [pieces_cons] at hmore
    exact .bind (by grind) fun next hnext => ih hnext hmore.2

omit h in
@[grind norm] theorem cuts_decoratorNames : Cuts s decoratorNames := by
  unfold decoratorNames
  grind

@[grind ←] theorem cuts_argument : Cuts s (argument self) := by
  unfold argument
  grind

@[grind ←] theorem cuts_callArguments : Cuts s (callArguments self) := by
  unfold callArguments
  grind

@[grind ←] theorem cuts_decorator : Cuts s (decorator self) := by
  refine .bind (cuts_token _) fun at_ _ => .bind (cuts_orElse ?_ ?_) fun what _ => by grind
  · grind
  · refine .bind cuts_decoratorNames fun f _ => .bind (by grind) fun args _ => ?_
    split <;> grind

@[grind ←] theorem cuts_decorators : Cuts s (decorators self) := by
  unfold decorators
  grind

end Decorators

section Parameters

omit h in
@[grind norm] theorem cuts_parameterMark (w : String) : Cuts s (parameterMark w) := by
  unfold parameterMark
  grind

@[grind ←] theorem cuts_parameter : Cuts s (parameter self) := by
  refine .bind ?_ fun ds _ => .bind ?_ fun access _ => .bind ?_ fun overriding _ => .bind ?_ fun fixed _ =>
    .bind ?_ fun p _ => .bind ?_ fun q _ => .bind ?_ fun t _ => .bind ?_ fun v _ => cuts_build ?_ _
  all_goals grind

@[grind ←] theorem cuts_parameters : Cuts s (parameters self) := by
  unfold parameters
  grind

end Parameters

end RouteAtlas.Syntax.Rule
