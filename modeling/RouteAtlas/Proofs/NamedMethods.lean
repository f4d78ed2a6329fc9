import Mathlib
import RouteAtlas.Proofs.MethodReferences
import RouteAtlas.Proofs.NamedTrees

/-!
# Methods compared under a name

A handler may give a name to the method of the request and compare the name. An expression that stands for the
method is recognised where it is compared, calls of its methods included; a name for it is recognised only when
it is given to the plain access.
-/

namespace RouteAtlas

open Syntax

namespace FileRoutes

section Comparisons

variable {v : String} {e : Node} {named : Node → Prop} {free : Bool} {n n' : Node}
variable {requests aliases aliases' : List String} {verb : String}

theorem isEquality_iff (h : Keeps v e named free n n') : IsEquality n ↔ IsEquality n' := by
  rw [IsEquality, IsEquality, h.map_text_child? rfl]

theorem verbLiteral?_eq_of_rewrites
    (he : e.IsReferring)
    (h : Rewrites v e named free n n') :
    verbLiteral? n = verbLiteral? n' := by
  rw [verbLiteral?, verbLiteral?, h.stringValue?_eq he]

/-- A construct that compares afterwards did so before. -/
theorem compares_before
    (he : Refers requests aliases e)
    (haliases : ∀ x ∈ aliases', x ≠ v → x ∈ aliases)
    (hv : v ∉ requests)
    (hfresh : ∀ m ∈ n.subtree, m.text ≠ v)
    (h : Keeps v e named free n n')
    (hcompares : Compares requests aliases' verb n') :
    Compares requests aliases verb n := by
  have hreferring := he.isReferring
  have hrefers {f : Bool} {c c' : Node} (hc : c ∈ n.subtree) (hchild : Rewrites v e named f c c')
      (href : Refers requests aliases' c') : Refers requests aliases c :=
    refers_before he haliases hv (fun m hm => hfresh m (Node.mem_subtree_trans hm hc)) hchild href
  cases hcompares with
  | @equality l' r' hkind hoperator hleft hright hverb =>
    obtain ⟨l, hl, hlefts⟩ := h.exists_child_before (.inl (by decide)) hleft
    obtain ⟨r, hr, hrights⟩ := h.exists_child_before (.inl (by decide)) hright
    refine .equality (h.kind.trans hkind) ((isEquality_iff h).2 hoperator) hl hr ?_
    rw [verbLiteral?_eq_of_rewrites hreferring hlefts.2, verbLiteral?_eq_of_rewrites hreferring hrights.2]
    exact hverb.imp (And.imp_left (hrefers (Node.mem_subtree_of_child? hl) hlefts.2))
      (And.imp_left (hrefers (Node.mem_subtree_of_child? hr) hrights.2))
  | @selection value' body' c' w' hkind hvalue href hbody hc hcase hw hverb =>
    have hkind : n.kind = .switchStatement := h.kind.trans hkind
    obtain ⟨value, hvalue, hvalues⟩ := h.exists_child_before (.inl (by decide)) hvalue
    obtain ⟨body, hbody, hbodies⟩ := h.exists_child_before (.inr (by rw [hkind]; decide)) hbody
    obtain ⟨hc, hnamed⟩ := List.mem_filter.1 hc
    obtain ⟨-, hrenames⟩ | hbodyKeeps := hbodies.2.renames_or_keeps
    · rw [hrenames.children] at hc
      cases hc
    · obtain ⟨c, hc, hcs⟩ := hbodyKeeps.children.exists_before hc (by rw [hcase]; rfl)
      have hcaseKeeps := hcs.2.keeps_of_kind hreferring (.inr (by rw [hcase]; rfl))
      obtain ⟨w, hw, hws⟩ := hcaseKeeps.exists_child_before (.inl (by decide)) hw
      have hnamed : c.isNamed = true := (hcs.2.isNamed_eq hreferring).trans hnamed
      exact .selection hkind hvalue (hrefers (Node.mem_subtree_of_child? hvalue) hvalues.2 href) hbody
        (List.mem_filter.2 ⟨hc, hnamed⟩) (hcaseKeeps.kind.trans hcase) hw
        ((verbLiteral?_eq_of_rewrites hreferring hws.2).trans hverb)
  | @membership f' a' o' m' as' hkind hfunction harguments hmember hname href hobject harray hm hverb =>
    obtain ⟨f, hf, hfs⟩ := h.exists_child_before (.inl (by decide)) hfunction
    obtain ⟨b, -, hall⟩ := h.callArguments hreferring
    rw [harguments] at hall
    generalize ha : n.callArguments = as at hall
    obtain ⟨-, hrenames⟩ | hfunctionKeeps := hfs.2.renames_or_keeps
    · cases hrenames.kind.symm.trans hmember
    · obtain ⟨o, ho, hos⟩ := hfunctionKeeps.exists_child_before (.inl (by decide)) hobject
      obtain ⟨-, -, u, -, hrenames⟩ | ⟨b', -, harrayKeeps⟩ := hos.2.unwrap_cases hreferring
      · cases hrenames.kind.symm.trans harray
      · have hkind' : o.unwrap.kind = .array := harrayKeeps.kind.trans harray
        have helements := harrayKeeps.namedChildren hreferring fun _ => by rw [hkind']; rfl
        obtain ⟨m, hm, hms⟩ := exists_of_forall₂_of_mem_right helements hm
        cases hall with
        | cons hfirst hrest =>
          have hinside := Node.mem_subtree_of_mem_callArguments (ha ▸ List.mem_cons_self ..)
          exact .membership (h.kind.trans hkind) hf ha (hfunctionKeeps.kind.trans hmember)
            (hfunctionKeeps.propertyText_eq.trans hname) (hrefers hinside hfirst.2 href) ho hkind' hm
            ((verbLiteral?_eq_of_rewrites hreferring hms.2).trans hverb)

/-- Whether the uses among the parts of a construct stand as values. None is called, is what a switch selects
from, or is the value that a variable is declared with. -/
structure StandAsValues
    (named : Node → Prop)
    (n : Node) :
    Prop where
  uncalled : ∀ f, n.child? .function = some f → ¬ named f
  body : n.kind = .switchStatement → ∀ b, n.child? .body = some b → b.kind = .switchBody
  undeclared : n.kind = .variableDeclarator → ∀ name value, n.child? .name = some name →
    n.child? .value = some value → name.kind = .identifier → ¬ HoldsUse named value

/-- A construct that compares goes on doing so, if the name that is given to an access counts and uses stand as
values. -/
theorem compares_after
    (he : e.IsReferring)
    (haliases : aliases ⊆ aliases')
    (hnamed : free = true → v ∈ aliases' ∧ isMethodAccess requests e = true)
    (hvalues : free = true → ∀ d ∈ n.subtree, StandAsValues named d)
    (h : Keeps v e named free n n')
    (hcompares : Compares requests aliases verb n) :
    Compares requests aliases' verb n' := by
  have hrefers {f : Bool} {c c' : Node} (hf : f = true → free = true) (hc : c ∈ n.subtree)
      (hchild : Rewrites v e named f c c') (href : Refers requests aliases c) : Refers requests aliases' c' :=
    refers_after he haliases (fun hb => hnamed (hf hb))
      (fun hb d hd => (hvalues (hf hb) d (Node.mem_subtree_trans hd hc)).uncalled) hchild href
  have hand {b : Bool} (hb : (free && b) = true) : free = true := (Bool.and_eq_true_iff.1 hb).1
  cases hcompares with
  | @equality l r hkind hoperator hleft hright hverb =>
    obtain ⟨l', hl, hlefts⟩ := h.exists_child_after (.inl (by decide)) hleft
    obtain ⟨r', hr, hrights⟩ := h.exists_child_after (.inl (by decide)) hright
    refine .equality (h.kind ▸ hkind) ((isEquality_iff h).1 hoperator) hl hr ?_
    rw [← verbLiteral?_eq_of_rewrites he hlefts.2, ← verbLiteral?_eq_of_rewrites he hrights.2]
    exact hverb.imp (And.imp_left (hrefers hand (Node.mem_subtree_of_child? hleft) hlefts.2))
      (And.imp_left (hrefers hand (Node.mem_subtree_of_child? hright) hrights.2))
  | @selection value body c w hkind hvalue href hbody hc hcase hw hverb =>
    obtain ⟨value', hvalue', hvalueTo⟩ := h.exists_child_after (.inl (by decide)) hvalue
    obtain ⟨body', hbody', hbodyTo⟩ := h.exists_child_after (.inr (by rw [hkind]; decide)) hbody
    have hswitch (hb : free = true) : body.kind = .switchBody :=
      (hvalues hb n (Node.mem_subtree_self n)).body hkind body hbody
    obtain ⟨hfree, hrenames⟩ | hbodyKeeps := hbodyTo.2.renames_or_keeps
    · have hrefersTo := (hrenames.mayRefer he).1
      rw [hswitch (hand hfree)] at hrefersTo
      cases hrefersTo
    · have hcases := hbodyKeeps.namedChildren he fun hb => by rw [hswitch (hand hb)]; rfl
      obtain ⟨c', hc', hcs⟩ := exists_of_forall₂_of_mem_left hcases hc
      have hcaseKeeps := hcs.2.keeps_of_kind he (.inl (by rw [hcase]; rfl))
      obtain ⟨w', hw', hws⟩ := hcaseKeeps.exists_child_after (.inl (by decide)) hw
      exact .selection (h.kind ▸ hkind) hvalue' (hrefers hand (Node.mem_subtree_of_child? hvalue) hvalueTo.2 href)
        hbody' hc' (hcaseKeeps.kind ▸ hcase) hw' ((verbLiteral?_eq_of_rewrites he hws.2).symm.trans hverb)
  | @membership f a o m as hkind hfunction harguments hmember hname href hobject harray hm hverb =>
    obtain ⟨f', hf', hfs⟩ := h.exists_child_after (.inl (by decide)) hfunction
    obtain ⟨b, hb, hall⟩ := h.callArguments he
    rw [harguments] at hall
    generalize ha : n'.callArguments = as' at hall
    obtain ⟨hfree, hrenames⟩ | hfunctionKeeps := hfs.2.renames_or_keeps
    · exact absurd hrenames.isUse ((hvalues (hand hfree) n (Node.mem_subtree_self n)).uncalled f hfunction)
    · obtain ⟨o', ho', hos⟩ := hfunctionKeeps.exists_child_after (.inl (by decide)) hobject
      obtain ⟨-, -, u, hu, hrenames⟩ | ⟨b', -, harrayKeeps⟩ := hos.2.unwrap_cases he
      · have hreferring := hrenames.isReferring he
        rw [Node.IsReferring, ← hu, harray] at hreferring
        rcases hreferring with hkind | hkind | hkind <;> cases hkind
      · have helements := harrayKeeps.namedChildren he fun _ => by rw [harray]; rfl
        obtain ⟨m', hm', hms⟩ := exists_of_forall₂_of_mem_left helements hm
        cases hall with
        | cons hfirst hrest =>
          have hinside := Node.mem_subtree_of_mem_callArguments (harguments ▸ List.mem_cons_self ..)
          exact .membership (h.kind ▸ hkind) hf' ha (hfunctionKeeps.kind ▸ hmember)
            (hfunctionKeeps.propertyText_eq ▸ hname)
            (hrefers (fun hfree => hb (Bool.and_eq_true_iff.1 hfree).1) hinside hfirst.2 href) ho'
            (harrayKeeps.kind ▸ harray) hm' ((verbLiteral?_eq_of_rewrites he hms.2).symm.trans hverb)

end Comparisons

section Names

variable {v : String} {e : Node} {named : Node → Prop} {free : Bool} {n n' : Node}
variable {requests : List String} {x : String}

theorem mem_foldl_addOnce_iff {xs acc : List String} : x ∈ xs.foldl addOnce acc ↔ x ∈ acc ∨ x ∈ xs := by
  induction xs generalizing acc with
  | nil => simp
  | cons y rest ih =>
    have hadd : x ∈ addOnce acc y ↔ x ∈ acc ∨ x = y := by
      unfold addOnce
      split
      · next hmem =>
        refine ⟨.inl, fun h => h.elim id fun heq => ?_⟩
        exact heq ▸ List.contains_iff_mem.1 hmem
      · simp
    rw [List.foldl_cons, ih, hadd, List.mem_cons, or_assoc]

theorem parameterName?_eq (h : Rewrites v e named false n n') : n.parameterName? = n'.parameterName? := by
  have hpattern := h.copied_child? (r := .pattern) (by decide)
  rw [Node.parameterName?, Node.parameterName?, ← h.keeps.kind, ← h.keeps.text (.inl rfl)]
  generalize n.child? .pattern = p at hpattern
  generalize n'.child? .pattern = p' at hpattern
  cases hpattern with
  | none => rfl
  | some hcopy => simp only [hcopy.keeps.kind, hcopy.keeps.text (.inl rfl)]

/-- The parameters of a function are copies. -/
theorem forall₂_parameters
    (he : e.IsReferring)
    (h : Keeps v e named free n n') :
    List.Forall₂ (Rewrites v e named false) n.parameters n'.parameters := by
  have hone := h.copied_child? (r := .parameter) rfl
  have hmany := h.copied_child? (r := .parameters) rfl
  rw [Node.parameters, Node.parameters]
  generalize n.child? .parameter = p at hone
  generalize n'.child? .parameter = p' at hone
  cases hone with
  | some hp => exact .cons hp .nil
  | none =>
    generalize n.child? .parameters = ps at hmany
    generalize n'.child? .parameters = ps' at hmany
    cases hmany with
    | none => exact .nil
    | some hps =>
      refine (hps.keeps.parts he ?_).imp fun c c' hc => hc.2
      rintro ⟨⟩

theorem isFunction_eq (h : Keeps v e named free n n') : n.isFunction = n'.isFunction := by
  rw [Node.isFunction, Node.isFunction, h.kind]

/-- The request keeps its names. -/
theorem requestNames_eq
    (he : e.IsReferring)
    (h : Keeps v e named free n n') :
    requestNames n = requestNames n' := by
  have hfirst : n.parameters.head?.bind Node.parameterName? = n'.parameters.head?.bind Node.parameterName? := by
    have hhead := rel_head? (forall₂_parameters he h)
    generalize n.parameters.head? = p at hhead
    generalize n'.parameters.head? = p' at hhead
    cases hhead with
    | none => rfl
    | some hp => exact parameterName?_eq hp
  rw [requestNames, requestNames, isFunction_eq h, hfirst]

/-- A request is known by one of two names, or by one that stands in the handler. -/
theorem exists_text_eq_of_mem_requestNames (h : x ∈ requestNames n) :
    x ∈ ["req", "request"] ∨ ∃ m ∈ n.subtree, m.text = x := by
  unfold requestNames at h
  dsimp only at h
  refine (mem_foldl_addOnce_iff.1 h).imp id fun hx => ?_
  have hx := Option.mem_toList.1 (List.mem_of_mem_filter hx)
  split at hx
  · obtain ⟨p, hp, hx⟩ := Option.bind_eq_some_iff.1 hx
    have hinside : p ∈ n.subtree := by
      have hp := List.mem_of_head? hp
      unfold Node.parameters at hp
      split at hp
      · next c hc =>
        rw [List.mem_singleton.1 hp]
        exact Node.mem_subtree_of_child? hc
      · cases hps : n.child? .parameters with
        | none => simp [hps] at hp
        | some ps =>
          rw [hps] at hp
          exact Node.mem_subtree_trans (Node.mem_subtree_of_mem_parts hp) (Node.mem_subtree_of_child? hps)
    unfold Node.parameterName? at hx
    split at hx
    · exact ⟨p, hinside, Option.some.inj hx⟩
    · split at hx
      · next c hc =>
        split at hx
        · exact ⟨c, Node.mem_subtree_trans (Node.mem_subtree_of_child? hc) hinside, Option.some.inj hx⟩
        · cases hx
      · cases hx
  · cases hx

end Names

section Aliases

variable {v : String} {e : Node} {named : Node → Prop} {free : Bool} {n n' : Node}
variable {requests : List String} {x : String}

/-- The names that a pattern binds to the method are the same in a copy. -/
theorem methodBindings_eq
    (he : e.IsReferring)
    (h : Rewrites v e named false n n') :
    methodBindings n = methodBindings n' := by
  have hchildren := h.keeps.namedChildren he fun hb => by cases hb
  refine filterMap_eq_filterMap_of_forall₂ (hchildren.imp fun c c' hc => ?_)
  have hcopy : Rewrites v e named false c c' := hc.2
  have hleft := hcopy.copied_child? (r := .left) (by decide)
  have hkey := hcopy.copied_child? (r := .key) (by decide)
  have hvalue := hcopy.copied_child? (r := .value) (by decide)
  rw [← hcopy.keeps.kind, ← hcopy.keeps.text (.inl rfl)]
  split
  · rfl
  · generalize c.child? .left = l at hleft
    generalize c'.child? .left = l' at hleft
    cases hleft with
    | none => rfl
    | some hl => simp only [hl.keeps.text (.inl rfl)]
  · have hname : (c.child? .key).bind Node.keyName? = (c'.child? .key).bind Node.keyName? := by
      generalize c.child? .key = k at hkey
      generalize c'.child? .key = k' at hkey
      cases hkey with
      | none => rfl
      | some hk => exact hk.keyName?_eq he
    rw [hname]
    generalize c.child? .value = w at hvalue
    generalize c'.child? .value = w' at hvalue
    cases hvalue with
    | none => rfl
    | @some w w' hw =>
      have htext : (w.child? .left).map Node.text = (w'.child? .left).map Node.text := by
        have hinner := hw.copied_child? (r := .left) (by decide)
        generalize w.child? .left = l at hinner
        generalize w'.child? .left = l' at hinner
        cases hinner with
        | none => rfl
        | some hl => exact congrArg some (hl.keeps.text (.inl rfl))
      simp only [hw.keeps.kind, hw.keeps.text (.inl rfl), htext]
  · rfl

/-- A name that is bound stands in the pattern. -/
theorem exists_text_eq_of_mem_methodBindings (h : x ∈ methodBindings n) : ∃ m ∈ n.subtree, m.text = x := by
  obtain ⟨c, hc, hx⟩ := List.mem_filterMap.1 h
  have hinside : c.subtree ⊆ n.subtree := fun m hm =>
    Node.mem_subtree_trans hm (Node.mem_subtree_of_mem_namedChildren hc)
  have hchild {r : Role} {m : Node} (hm : c.child? r = some m) : m ∈ n.subtree :=
    hinside (Node.mem_subtree_of_child? hm)
  split at hx
  · split at hx
    · next htext => exact ⟨c, hinside (Node.mem_subtree_self c), (beq_iff_eq.1 htext).trans (Option.some.inj hx)⟩
    · cases hx
  · split at hx
    · next l hl =>
      split at hx
      · next htext => exact ⟨l, hchild hl, (beq_iff_eq.1 htext).trans (Option.some.inj hx)⟩
      · cases hx
    · cases hx
  · split at hx
    · split at hx
      · next w hw =>
        split at hx
        · exact ⟨w, hchild hw, Option.some.inj hx⟩
        · split at hx
          · obtain ⟨l, hl, htext⟩ := Option.map_eq_some_iff.1 hx
            exact ⟨l, Node.mem_subtree_trans (Node.mem_subtree_of_child? hl) (hchild hw), htext⟩
          · cases hx
      · cases hx
    · cases hx
  · cases hx

theorem mem_aliasesOf_iff :
    x ∈ aliasesOf requests n ↔ ∃ name value, n.child? .name = some name ∧ n.child? .value = some value ∧
      (name.kind = .identifier ∧ isMethodAccess requests value = true ∧ name.text = x ∨
        name.kind = .objectPattern ∧ value.unwrap.kind = .identifier ∧ value.unwrap.text ∈ requests ∧
          x ∈ methodBindings name) := by
  unfold aliasesOf
  cases hname : n.child? .name with
  | none => simp
  | some name =>
    cases hvalue : n.child? .value with
    | none => simp
    | some value =>
      simp only [Option.map_some, isMethodAccess_unwrap, Option.some.injEq, exists_and_left, exists_eq_left']
      split
      · next hplain =>
        simp only [Bool.and_eq_true, beq_iff_eq] at hplain
        simp [hplain.1, hplain.2, eq_comm]
      · next hplain =>
        simp only [Bool.and_eq_true, beq_iff_eq] at hplain
        split
        · next hpattern =>
          simp only [Bool.and_eq_true, beq_iff_eq, List.contains_iff_mem] at hpattern
          simp [hpattern.1.1, hpattern.1.2, hpattern.2]
        · next hpattern =>
          simp only [Bool.and_eq_true, beq_iff_eq, List.contains_iff_mem] at hpattern
          simp only [List.not_mem_nil, false_iff]
          rintro (⟨hkind, haccess, -⟩ | ⟨hkind, hidentifier, hrequest, -⟩)
          · exact hplain ⟨hkind, haccess⟩
          · exact hpattern ⟨⟨hkind, hidentifier⟩, hrequest⟩

/-- A name for the method stands in the declarator. -/
theorem exists_text_eq_of_mem_aliasesOf (h : x ∈ aliasesOf requests n) : ∃ m ∈ n.subtree, m.text = x := by
  obtain ⟨name, value, hname, -, hx⟩ := mem_aliasesOf_iff.1 h
  have hinside := Node.mem_subtree_of_child? hname
  rcases hx with ⟨-, -, htext⟩ | ⟨-, -, -, hx⟩
  · exact ⟨name, hinside, htext⟩
  · obtain ⟨m, hm, htext⟩ := exists_text_eq_of_mem_methodBindings hx
    exact ⟨m, Node.mem_subtree_trans hm hinside, htext⟩

/-- A declarator that names the method afterwards did so before. -/
theorem mem_aliasesOf_before
    (he : e.IsReferring)
    (hv : v ∉ requests)
    (h : Keeps v e named free n n')
    (hx : x ∈ aliasesOf requests n') :
    x ∈ aliasesOf requests n := by
  rw [mem_aliasesOf_iff] at hx ⊢
  obtain ⟨name', value', hname', hvalue', hx⟩ := hx
  obtain ⟨name, hname, hcopy⟩ := h.exists_copied_before rfl hname'
  obtain ⟨value, hvalue, hvalues⟩ := h.exists_child_before (.inl (by decide)) hvalue'
  refine ⟨name, value, hname, hvalue, ?_⟩
  rw [hcopy.keeps.kind, hcopy.keeps.text (.inl rfl), methodBindings_eq he hcopy]
  rcases hx with ⟨hkind, haccess, htext⟩ | ⟨hkind, hidentifier, hrequest, hx⟩
  · exact .inl ⟨hkind, isMethodAccess_before he hv hvalues.2 haccess, htext⟩
  · obtain ⟨hidentifier', htext⟩ := hvalues.2.identifier_before he hidentifier fun heq => hv (heq ▸ hrequest)
    exact .inr ⟨hkind, hidentifier', htext ▸ hrequest, hx⟩

/-- A declarator that names the method goes on doing so, if it is not what the new name is put into. -/
theorem mem_aliasesOf_after
    (he : e.IsReferring)
    (hne : free = true → e.unwrap.kind ≠ .identifier)
    (hvalues : free = true → StandAsValues named n)
    (hkind : n.kind = .variableDeclarator)
    (h : Keeps v e named free n n')
    (hx : x ∈ aliasesOf requests n) :
    x ∈ aliasesOf requests n' := by
  rw [mem_aliasesOf_iff] at hx ⊢
  obtain ⟨name, value, hname, hvalue, hx⟩ := hx
  obtain ⟨name', hname', hcopy⟩ := h.exists_copied_after rfl hname
  obtain ⟨value', hvalue', hvalueTo⟩ := h.exists_child_after (.inl (by decide)) hvalue
  have hand {b : Bool} (hb : (free && b) = true) : free = true := (Bool.and_eq_true_iff.1 hb).1
  refine ⟨name', value', hname', hvalue', ?_⟩
  rw [← hcopy.keeps.kind, ← hcopy.keeps.text (.inl rfl), ← methodBindings_eq he hcopy]
  rcases hx with ⟨hidentifier, haccess, htext⟩ | ⟨hpattern, hidentifier, hrequest, hx⟩
  · obtain ⟨hfree, huse, -⟩ | ⟨f, hf, hkeeps⟩ := hvalueTo.2.unwrap_cases he
    · exact absurd huse ((hvalues (hand hfree)).undeclared hkind name value hname hvalue hidentifier)
    · exact .inl ⟨hidentifier, isMethodAccess_after he (fun hb => hne (hand (hf hb))) hkeeps haccess, htext⟩
  · obtain ⟨hidentifier', htext⟩ := hvalueTo.2.identifier_after he (fun hb => hne (hand hb)) hidentifier
    exact .inr ⟨hpattern, hidentifier', htext ▸ hrequest, hx⟩

theorem mem_methodAliases_iff :
    x ∈ methodAliases requests n ↔
      ∃ d ∈ Node.forest n.children, d.kind = .variableDeclarator ∧ x ∈ aliasesOf requests d := by
  rw [methodAliases, mem_foldl_addOnce_iff, List.mem_flatMap]
  simp only [List.not_mem_nil, false_or, Node.descendantsOf, Node.mem_descendants_iff, beq_iff_eq, and_assoc]

theorem mem_comparedMethods_iff :
    x ∈ comparedMethods n ↔
      ∃ d ∈ Node.forest n.children, Compares (requestNames n) (methodAliases (requestNames n) n) x d := by
  have hkind {requests aliases : List String} {d : Node} (h : Compares requests aliases x d) :
      (d.kind == .binaryExpression || d.kind == .switchStatement || d.kind == .callExpression) = true := by
    cases h with
    | equality hkind => simp [hkind]
    | selection hkind => simp [hkind]
    | membership hkind => simp [hkind]
  rw [comparedMethods, mem_foldl_addOnce_iff, List.mem_flatMap]
  simp only [List.not_mem_nil, false_or, Node.mem_descendants_iff, mem_comparedVerbs_iff, and_assoc]
  exact exists_congr fun d => and_congr_right fun _ => and_iff_right_of_imp hkind

end Aliases

section Handlers

variable {v : String} {e : Node} {named : Node → Prop} {h h' : Node}
variable {requests : List String} {x : String}

/-- Whether a tree holds a declaration that binds a name to a copy of an expression. -/
def HoldsDeclaration
    (v : String)
    (e : Node)
    (named : Node → Prop)
    (n : Node) :
    Prop :=
  ∃ s ∈ Node.forest n.children, Declares (Rewrites v e named) v e s

/-- Names for the method afterwards are the new one, when it is given to an access, or were there before. -/
theorem mem_methodAliases_before
    (href : e.IsReferring)
    (he : e ∈ Node.forest h.children)
    (hv : v ∉ requests)
    (hkeeps : Keeps v e named true h h')
    (hx : x ∈ methodAliases requests h') :
    x ∈ methodAliases requests h ∨ x = v ∧ isMethodAccess requests e = true := by
  obtain ⟨d', hd', hkind, hx⟩ := mem_methodAliases_iff.1 hx
  have hbefore {f : Bool} {d : Node} (hd : d ∈ Node.forest h.children) (hd' : Keeps v e named f d d') :
      x ∈ methodAliases requests h :=
    mem_methodAliases_iff.2 ⟨d, hd, hd'.kind.trans hkind, mem_aliasesOf_before href hv hd' hx⟩
  cases hkeeps.comesFrom hd' with
  | kept hd hf hkeeps => exact .inl (hbefore hd hkeeps)
  | copied hfree hd hkeeps => exact .inl (hbefore (Node.mem_forest_trans hd he) hkeeps)
  | @binds _ name value hfree hbinds =>
    obtain ⟨name', value', hname', hvalue', hx⟩ := mem_aliasesOf_iff.1 hx
    cases hname'.symm.trans hbinds.name?
    cases hvalue'.symm.trans hbinds.value?
    rcases hx with ⟨-, haccess, htext⟩ | ⟨hpattern, -⟩
    · exact .inr ⟨htext.symm.trans hbinds.text, isMethodAccess_before href hv hbinds.copy haccess⟩
    · cases hbinds.identifier.symm.trans hpattern
  | scaffold hfree hscaffold =>
    rw [hkind] at hscaffold
    cases hscaffold

theorem HoldsDeclaration.exists_binds (hdeclared : HoldsDeclaration v e named h') :
    ∃ d ∈ Node.forest h'.children, ∃ name value, Binds v e named d name value ∧ value ∈ d.subtree := by
  obtain ⟨s, hs, hdeclares⟩ := hdeclared
  obtain ⟨d, name, value, hbinds, hd, hvalue, -, -⟩ := hdeclares.exists_binds
  exact ⟨d, Node.mem_forest_trans hd hs, name, value, hbinds, hvalue⟩

/-- The parts of the expression stand in the declaration. -/
theorem HoldsDeclaration.exists_keeps
    (hdeclared : HoldsDeclaration v e named h')
    {d : Node}
    (hd : d ∈ e.subtree) :
    ∃ d' ∈ Node.forest h'.children, Keeps v e named false d d' := by
  obtain ⟨s, hs, name, value, hbinds, hvalue⟩ := hdeclared.exists_binds
  obtain ⟨d', hd', hkeeps⟩ := (hbinds.copy.goesTo d hd).exists_keeps
  exact ⟨d', Node.mem_forest_trans hd' (Node.mem_forest_trans hvalue hs), hkeeps⟩

/-- The new name is one for the method when it is given to an access. -/
theorem HoldsDeclaration.mem_methodAliases
    (href : e.IsReferring)
    (hdeclared : HoldsDeclaration v e named h')
    (haccess : isMethodAccess requests e = true) :
    v ∈ methodAliases requests h' := by
  obtain ⟨d, hd, name, value, hbinds, -⟩ := hdeclared.exists_binds
  have haccess : isMethodAccess requests value = true := by
    refine isMethodAccess_after href ?_ (hbinds.copy.keeps_unwrap href) haccess
    rintro ⟨⟩
  exact mem_methodAliases_iff.2 ⟨d, hd, hbinds.kind,
    mem_aliasesOf_iff.2 ⟨name, value, hbinds.name?, hbinds.value?, .inl ⟨hbinds.identifier, haccess, hbinds.text⟩⟩⟩

/-- Names for the method are kept, unless one is what the new name is put into. -/
theorem mem_methodAliases_after
    (hv : v ∉ requests)
    (hkeeps : Keeps v e named true h h')
    (hdeclared : HoldsDeclaration v e named h')
    (haccess : isMethodAccess requests e = true)
    (hvalues : ∀ d ∈ h.subtree, StandAsValues named d)
    (hx : x ∈ methodAliases requests h) :
    x ∈ methodAliases requests h' := by
  have hmember := (isMethodAccess_iff.1 haccess).1
  have href : e.IsReferring := .inr (.inr hmember)
  have hne : e.unwrap.kind ≠ .identifier := by rw [hmember]; decide
  obtain ⟨d, hd, hkind, hx⟩ := mem_methodAliases_iff.1 hx
  cases hkeeps.goesTo hd with
  | @kept _ d' f hd' hf hkeeps =>
    have hd := Node.mem_subtree_of_mem_forest hd
    exact mem_methodAliases_iff.2 ⟨d', hd', hkeeps.kind ▸ hkind,
      mem_aliasesOf_after href (fun _ => hne) (fun _ => hvalues d hd) hkind hkeeps hx⟩
  | @inUse d₀ _ hfree hd₀ hcopied =>
    obtain ⟨d', hd', hkeeps⟩ := hdeclared.exists_keeps hd₀
    have hx : x ∈ aliasesOf requests d₀ := mem_aliasesOf_before href hv hcopied hx
    have hkind : d₀.kind = .variableDeclarator := hcopied.kind.trans hkind
    refine mem_methodAliases_iff.2 ⟨d', hd', hkeeps.kind ▸ hkind, mem_aliasesOf_after href ?_ ?_ hkind hkeeps hx⟩
    · rintro ⟨⟩
    · rintro ⟨⟩

theorem exists_kind_of_compares
    {aliases : List String}
    {d : Node}
    (hcompares : Compares requests aliases x d) :
    d.kind ≠ .variableDeclarator ∧ d.kind.isScaffold = false := by
  cases hcompares with
  | equality hkind => simp [hkind, Kind.isScaffold]
  | selection hkind => simp [hkind, Kind.isScaffold]
  | membership hkind => simp [hkind, Kind.isScaffold]

/-- No verb is compared that was not compared before. -/
theorem exists_compares_before
    {aliases aliases' : List String}
    (href : Refers requests aliases e)
    (haliases : ∀ y ∈ aliases', y ≠ v → y ∈ aliases)
    (he : e ∈ Node.forest h.children)
    (hfresh : ∀ m ∈ h.subtree, m.text ≠ v)
    (hv : v ∉ requests)
    (hkeeps : Keeps v e named true h h')
    {d' : Node}
    (hd' : d' ∈ Node.forest h'.children)
    (hcompares : Compares requests aliases' x d') :
    ∃ d ∈ Node.forest h.children, Compares requests aliases x d := by
  have hbefore {f : Bool} {d : Node} (hd : d ∈ Node.forest h.children) (hkept : Keeps v e named f d d') :
      Compares requests aliases x d :=
    compares_before href haliases hv
      (fun m hm => hfresh m (Node.mem_subtree_trans hm (Node.mem_subtree_of_mem_forest hd))) hkept hcompares
  cases hkeeps.comesFrom hd' with
  | @kept d _ f hd hf hkept => exact ⟨d, hd, hbefore hd hkept⟩
  | @copied d _ hfree hd hkept => exact ⟨d, Node.mem_forest_trans hd he, hbefore (Node.mem_forest_trans hd he) hkept⟩
  | binds hfree hbinds => cases (exists_kind_of_compares hcompares).1 hbinds.kind
  | scaffold hfree hscaffold => cases hscaffold.symm.trans (exists_kind_of_compares hcompares).2

/-- All verbs are still compared, if the name that is given to an access counts and uses stand as values. -/
theorem exists_compares_after
    {aliases aliases' : List String}
    (haliases : aliases ⊆ aliases')
    (hnamed : v ∈ aliases')
    (he : e ∈ Node.forest h.children)
    (hfresh : ∀ m ∈ h.subtree, m.text ≠ v)
    (hv : v ∉ requests)
    (hkeeps : Keeps v e named true h h')
    (hdeclared : HoldsDeclaration v e named h')
    (haccess : isMethodAccess requests e = true)
    (hvalues : ∀ d ∈ h.subtree, StandAsValues named d)
    {d : Node}
    (hd : d ∈ Node.forest h.children)
    (hcompares : Compares requests aliases x d) :
    ∃ d' ∈ Node.forest h'.children, Compares requests aliases' x d' := by
  have href : Refers requests aliases e := .access haccess
  cases hkeeps.goesTo hd with
  | @kept _ d' f hd' hf hkept =>
    have hinside := Node.mem_subtree_of_mem_forest hd
    exact ⟨d', hd', compares_after href.isReferring haliases (fun _ => ⟨hnamed, haccess⟩)
      (fun _ m hm => hvalues m (Node.mem_subtree_trans hm hinside)) hkept hcompares⟩
  | @inUse d₀ _ hfree hd₀ hcopied =>
    obtain ⟨d', hd', hkept⟩ := hdeclared.exists_keeps hd₀
    have hinside : d₀ ∈ h.subtree := Node.mem_subtree_of_mem_forest (Node.mem_forest_trans hd₀ he)
    have hcompares : Compares requests aliases x d₀ := compares_before href (fun _ hy _ => hy) hv
      (fun m hm => hfresh m (Node.mem_subtree_trans hm hinside)) hcopied hcompares
    refine ⟨d', hd', compares_after href.isReferring haliases ?_ ?_ hkept hcompares⟩
    · rintro ⟨⟩
    · rintro ⟨⟩

/-- An expression of a handler that stands for the method is given a fresh name, and some of its uses are written
by the name. -/
structure GivesName
    (v : String)
    (e : Node)
    (named : Node → Prop)
    (h h' : Node) :
    Prop where
  function : h.isFunction = true
  rewrites : Rewrites v e named true h h'
  declared : HoldsDeclaration v e named h'
  inside : e ∈ Node.forest h.children
  refers : isMethodReference (requestNames h) (methodAliases (requestNames h) h) e = true
  fresh : ∀ m ∈ h.subtree, m.text ≠ v
  noRequest : v ∉ ["req", "request"]

theorem GivesName.keeps (hnaming : GivesName v e named h h') : Keeps v e named true h h' := by
  refine hnaming.rewrites.keeps_of_kind (isMethodReference_iff_refers.1 hnaming.refers).isReferring (.inl ?_)
  have hfunction := hnaming.function
  unfold Node.isFunction at hfunction
  split at hfunction <;> simp_all [Kind.mayRefer]

theorem GivesName.not_mem_requestNames (hnaming : GivesName v e named h h') : v ∉ requestNames h := by
  intro hmem
  rcases exists_text_eq_of_mem_requestNames hmem with hv | ⟨m, hm, htext⟩
  · exact hnaming.noRequest hv
  · exact hnaming.fresh m hm htext

/-- Giving a name to an expression that stands for the method makes no verb appear. The name is one for the method
exactly when it is given to a plain access, and not when it is given to a call of one. In the first case all verbs
are found, provided that no use is called or is what another variable is declared with. -/
theorem comparedMethods_of_givesName (hnaming : GivesName v e named h h') :
    comparedMethods h' ⊆ comparedMethods h ∧
      (v ∈ methodAliases (requestNames h') h' ↔ isMethodAccess (requestNames h) e = true) ∧
      (isMethodAccess (requestNames h) e = true → (∀ d ∈ h.subtree, StandAsValues named d) →
        comparedMethods h ⊆ comparedMethods h') := by
  have href := isMethodReference_iff_refers.1 hnaming.refers
  have hreferring := href.isReferring
  have hkeeps := hnaming.keeps
  have hv := hnaming.not_mem_requestNames
  have hrequests : requestNames h' = requestNames h := (requestNames_eq hreferring hkeeps).symm
  have hbefore {y : String} (hy : y ∈ methodAliases (requestNames h) h') :=
    mem_methodAliases_before hreferring hnaming.inside hv hkeeps hy
  refine ⟨fun x hx => ?_, ?_, fun haccess hvalues x hx => ?_⟩
  · rw [mem_comparedMethods_iff, hrequests] at hx
    obtain ⟨d', hd', hcompares⟩ := hx
    have haliases : ∀ y ∈ methodAliases (requestNames h) h', y ≠ v → y ∈ methodAliases (requestNames h) h :=
      fun y hy hne => (hbefore hy).resolve_right fun hnew => hne hnew.1
    exact mem_comparedMethods_iff.2
      (exists_compares_before href haliases hnaming.inside hnaming.fresh hv hkeeps hd' hcompares)
  · rw [hrequests]
    refine ⟨fun hmem => ?_, hnaming.declared.mem_methodAliases hreferring⟩
    obtain hmem | ⟨-, haccess⟩ := hbefore hmem
    · obtain ⟨d, hd, -, hmem⟩ := mem_methodAliases_iff.1 hmem
      obtain ⟨m, hm, htext⟩ := exists_text_eq_of_mem_aliasesOf hmem
      cases hnaming.fresh m (Node.mem_subtree_trans hm (Node.mem_subtree_of_mem_forest hd)) htext
    · exact haccess
  · obtain ⟨d, hd, hcompares⟩ := mem_comparedMethods_iff.1 hx
    rw [mem_comparedMethods_iff, hrequests]
    have haliases : methodAliases (requestNames h) h ⊆ methodAliases (requestNames h) h' := fun y hy =>
      mem_methodAliases_after hv hkeeps hnaming.declared haccess hvalues hy
    exact exists_compares_after haliases (hnaming.declared.mem_methodAliases hreferring haccess) hnaming.inside
      hnaming.fresh hv hkeeps hnaming.declared haccess hvalues hd hcompares

end Handlers

section Samples

variable {isUse : Node → Bool} {n : Node}

theorem exists_mem_subtree_of_holdsUse
    {named : Node → Prop}
    (h : HoldsUse named n) :
    ∃ m ∈ n.subtree, named m := by
  induction h with
  | here h => exact ⟨_, Node.mem_subtree_self _, h⟩
  | inside hwrapper hheld h ih =>
    obtain ⟨m, hm, hnamed⟩ := ih
    exact ⟨m, Node.mem_subtree_trans hm (Node.mem_subtree_of_mem_parts (Node.mem_parts_of_held? hheld)), hnamed⟩

/-- Whether the uses among the parts of a construct are found to stand as values. -/
def standAsValues
    (isUse : Node → Bool)
    (n : Node) :
    Bool :=
  (n.child? .function).all (fun f => !isUse f) &&
    (n.kind != .switchStatement || (n.child? .body).all fun b => b.kind == .switchBody) &&
    (n.kind != .variableDeclarator || n.subtree.all fun m => !isUse m)

theorem standAsValues_of_check (h : standAsValues isUse n = true) : StandAsValues (isUse · = true) n := by
  simp only [standAsValues, Bool.and_eq_true, Bool.or_eq_true, bne_iff_ne, Option.all_eq_true, List.all_eq_true,
    Bool.not_eq_true', beq_iff_eq] at h
  obtain ⟨⟨huncalled, hbody⟩, hundeclared⟩ := h
  refine ⟨fun f hf huse => ?_, fun hkind b hb => (hbody.resolve_left (not_not.2 hkind)) b hb,
    fun hkind name value hname hvalue hidentifier huse => ?_⟩
  · cases (huncalled f hf).symm.trans huse
  · obtain ⟨m, hm, huse⟩ := exists_mem_subtree_of_holdsUse huse
    have hinside := Node.mem_subtree_trans hm (Node.mem_subtree_of_child? hvalue)
    cases ((hundeclared.resolve_left (not_not.2 hkind)) m hinside).symm.trans huse

/-- The function behind the default export of a page. -/
def handlerOf (text : String) : Node :=
  match pageHandler? (.ofText ⟨true, ["pages", "api", "page.ts"]⟩ text) with
  | some (.function n) => n
  | _ => default

/-- A handler that compares an expression with a verb. -/
def comparing (expression : String) : Node :=
  handlerOf ("export default (req, res) => \x7b if (" ++ expression ++ " === \"POST\") res.end(); \x7d")

/-- The handler with a name for the expression. -/
def comparingName (expression : String) : Node :=
  handlerOf ("export default (req, res) => \x7b const m = " ++ expression ++ "; if (m === \"POST\") res.end(); \x7d")

/-- The first operand in a handler. -/
def firstOperand? (n : Node) : Option Node :=
  (n.descendantsOf .binaryExpression).head?.bind fun d => d.child? .left

/-- The expression that a handler compares. -/
def compared (expression : String) : Node :=
  (firstOperand? (comparing expression)).getD default

/-- Whether the handler with the name is found to be what comes of naming the expression, and what the two handlers
compare. -/
def isNaming
    (expression : String)
    (verbs : List String) :
    Bool :=
  let e := compared expression
  let h := comparing expression
  let h' := comparingName expression
  h.isFunction && Node.isRewriting "m" e e.isCopy true h h' && (Node.forest h'.children).any (Node.declares "m" e) &&
    (firstOperand? h).isSome && isMethodReference (requestNames h) (methodAliases (requestNames h) h) e &&
    (h.subtree.all fun d => d.text != "m" && standAsValues e.isCopy d) && comparedMethods h == ["POST"] &&
    comparedMethods h' == verbs

theorem givesName_of_check
    {expression : String}
    {verbs : List String}
    (hcheck : isNaming expression verbs = true) :
    GivesName "m" (compared expression) ((compared expression).isCopy · = true) (comparing expression)
        (comparingName expression) ∧
      (∀ d ∈ (comparing expression).subtree, StandAsValues ((compared expression).isCopy · = true) d) ∧
      comparedMethods (comparing expression) = ["POST"] ∧ comparedMethods (comparingName expression) = verbs := by
  simp only [isNaming, Bool.and_eq_true, beq_iff_eq, List.any_eq_true, List.all_eq_true, bne_iff_ne] at hcheck
  obtain ⟨⟨⟨⟨⟨⟨⟨hfunction, hrewriting⟩, s, hs, hdeclares⟩, hoperand⟩, href⟩, hall⟩, hverbs⟩, hverbs'⟩ := hcheck
  obtain ⟨e, he⟩ := Option.isSome_iff_exists.1 hoperand
  obtain ⟨d, hd, hleft⟩ := Option.bind_eq_some_iff.1 he
  have hcompared : compared expression = e := by rw [compared, he, Option.getD_some]
  have hinside : e ∈ Node.forest (comparing expression).children :=
    Node.mem_forest_trans (Node.mem_subtree_of_child? hleft)
      (Node.mem_descendants_iff.1 (List.mem_of_head? hd)).1
  exact ⟨⟨hfunction, rewrites_of_isRewriting hrewriting, ⟨s, hs, declares_of_check hdeclares⟩, hcompared ▸ hinside,
    href, fun d hd => (hall d hd).1, by decide⟩, fun d hd => standAsValues_of_check (hall d hd).2, hverbs, hverbs'⟩

theorem comparedMethods_of_access_named :
    GivesName "m" (compared "req.method") ((compared "req.method").isCopy · = true) (comparing "req.method")
        (comparingName "req.method") ∧
      comparedMethods (comparing "req.method") = ["POST"] ∧
      comparedMethods (comparing "req.method") ⊆ comparedMethods (comparingName "req.method") := by
  have hcheck : (isNaming "req.method" ["POST"] &&
      isMethodAccess (requestNames (comparing "req.method")) (compared "req.method")) = true := by decide +kernel
  obtain ⟨hcheck, haccess⟩ := Bool.and_eq_true_iff.1 hcheck
  obtain ⟨hnaming, hvalues, hverbs, -⟩ := givesName_of_check hcheck
  exact ⟨hnaming, hverbs, (comparedMethods_of_givesName hnaming).2.2 haccess hvalues⟩

/-- A call of a method of the access is recognised where it is compared, but its name is not. -/
theorem comparedMethods_of_call_named :
    GivesName "m" (compared "req.method?.toUpperCase()") ((compared "req.method?.toUpperCase()").isCopy · = true)
        (comparing "req.method?.toUpperCase()") (comparingName "req.method?.toUpperCase()") ∧
      (∀ d ∈ (comparing "req.method?.toUpperCase()").subtree,
        StandAsValues ((compared "req.method?.toUpperCase()").isCopy · = true) d) ∧
      comparedMethods (comparing "req.method?.toUpperCase()") = ["POST"] ∧
      comparedMethods (comparingName "req.method?.toUpperCase()") = [] :=
  givesName_of_check (by decide +kernel)

end Samples

end FileRoutes

end RouteAtlas
