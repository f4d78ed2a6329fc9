import Mathlib
import RouteAtlas.FileRoutes.PageMethods
import RouteAtlas.Proofs.FileParts
import RouteAtlas.Proofs.NamedExpressions

/-!
# Expressions that stand for the method of a request

An expression stands for the method if it is an access to it, a name for it, or a call of a method of such an
expression. Where the expression is given a name of its own, what stands for the method afterwards did so
before; it goes on doing so if the new name counts as one for the method. A construct compares the method with a
verb by an equality, by a case of a switch, or by membership in a list.
-/

namespace RouteAtlas

open Syntax

namespace Syntax.Node

section Walking

theorem forest_append (ns ms : List Node) : forest (ns ++ ms) = forest ns ++ forest ms := by
  induction ns with
  | nil => rfl
  | cons n rest ih => rw [List.cons_append, forest, ih, forest, List.append_assoc]

theorem walk_eq_filter
    (wanted : Node → Bool)
    {bound : Nat}
    {ns : List Node}
    (h : countForest ns ≤ bound) :
    walk wanted bound ns = (forest ns).filter wanted := by
  induction bound generalizing ns with
  | zero =>
    cases ns with
    | nil => rfl
    | cons n rest =>
      have := count_pos n
      rw [countForest] at h
      omega
  | succ bound ih =>
    cases ns with
    | nil => rfl
    | cons n rest =>
      have hchildren := countForest_children n
      rw [countForest] at h
      rw [walk, ih (by rw [countForest_append]; omega), forest, subtree_eq, forest_append, List.cons_append,
        List.filter_cons]

/-- The wanted nodes below a node. -/
theorem mem_descendants_iff
    {n d : Node}
    {wanted : Node → Bool} :
    d ∈ n.descendants wanted ↔ d ∈ forest n.children ∧ wanted d = true := by
  rw [descendants, walk_eq_filter wanted (Nat.le_refl _), List.mem_filter]

theorem mem_subtree_of_mem_forest
    {n d : Node}
    (h : d ∈ forest n.children) :
    d ∈ n.subtree := by
  rw [subtree_eq]
  exact List.mem_cons_of_mem _ h

theorem mem_forest_trans
    {l m : Node}
    {ns : List Node}
    (hl : l ∈ m.subtree)
    (hm : m ∈ forest ns) :
    l ∈ forest ns := by
  obtain ⟨n, hn, hm⟩ := mem_forest_iff.1 hm
  exact mem_forest_iff.2 ⟨n, hn, mem_subtree_trans hl hm⟩

end Walking

end Syntax.Node

namespace FileRoutes

section References

variable {requests aliases : List String} {n : Node}

theorem isMethodAccess_iff :
    isMethodAccess requests n = true ↔ n.unwrap.kind = .memberExpression ∧ n.unwrap.propertyText = "method" ∧
      ∃ o, n.unwrap.child? .object = some o ∧ o.unwrap.kind = .identifier ∧ o.unwrap.text ∈ requests := by
  unfold isMethodAccess
  dsimp only
  split
  · next hkind =>
    cases hobject : n.unwrap.child? .object with
    | none => simp
    | some o => simp [beq_iff_eq.1 hkind, and_comm]
  · next hkind => simp [show n.unwrap.kind ≠ .memberExpression by simpa using hkind]

theorem isMethodAccess_unwrap (n : Node) : isMethodAccess requests n.unwrap = isMethodAccess requests n := by
  unfold isMethodAccess
  rw [Node.unwrap_unwrap]

/-- Whether an expression stands for the method of the request: it is a name for it, an access to it, or a call
of a method of such an expression. -/
inductive Refers (requests aliases : List String) : Node → Prop
  | name
      {n : Node}
      (hkind : n.unwrap.kind = .identifier)
      (hname : n.unwrap.text ∈ aliases) :
      Refers requests aliases n
  | access
      {n : Node}
      (haccess : isMethodAccess requests n = true) :
      Refers requests aliases n
  | call
      {n f o : Node}
      (hkind : n.unwrap.kind = .callExpression)
      (hfunction : n.unwrap.child? .function = some f)
      (hmember : f.kind = .memberExpression)
      (hobject : f.child? .object = some o)
      (h : Refers requests aliases o) :
      Refers requests aliases n

theorem isMethodReference_iff_refers :
    isMethodReference requests aliases n = true ↔ Refers requests aliases n := by
  constructor
  · intro h
    fun_induction isMethodReference requests aliases n with
    | case1 n e hkind => exact .name hkind (List.contains_iff_mem.1 h)
    | case2 n e hkind f hf hmember o ho ih => exact .call hkind hf (beq_iff_eq.1 hmember) ho (ih h)
    | case3 => cases h
    | case4 => cases h
    | case5 => cases h
    | case6 n e => exact .access (by rwa [isMethodAccess_unwrap] at h)
  · intro h
    induction h with
    | @name n hkind hname =>
      unfold isMethodReference
      simp [hkind, hname]
    | @access n haccess =>
      unfold isMethodReference
      simp [(isMethodAccess_iff.1 haccess).1, isMethodAccess_unwrap, haccess]
    | @call n f o hkind hfunction hmember hobject h ih =>
      unfold isMethodReference
      dsimp only
      rw [hkind]
      dsimp only
      split
      · next f' hf' =>
        cases hfunction.symm.trans hf'
        rw [if_pos (beq_iff_eq.2 hmember)]
        split
        · next o' ho' =>
          cases hobject.symm.trans ho'
          exact ih
        · next ho' => cases hobject.symm.trans ho'
      · next hf' => cases hfunction.symm.trans hf'

/-- Casts and parentheses do not matter. -/
theorem Refers.of_unwrap_eq
    {m : Node}
    (h : Refers requests aliases n)
    (hunwrap : n.unwrap = m.unwrap) :
    Refers requests aliases m := by
  cases h with
  | name hkind hname => exact .name (hunwrap ▸ hkind) (hunwrap ▸ hname)
  | access haccess =>
    rw [← isMethodAccess_unwrap, hunwrap, isMethodAccess_unwrap] at haccess
    exact .access haccess
  | call hkind hfunction hmember hobject h =>
    exact .call (hunwrap ▸ hkind) (hunwrap ▸ hfunction) hmember hobject h

/-- What stands for the method is a name, a call or a member. -/
theorem Refers.isReferring (h : Refers requests aliases n) : n.IsReferring := by
  cases h with
  | name hkind => exact .inl hkind
  | access haccess => exact .inr (.inr (isMethodAccess_iff.1 haccess).1)
  | call hkind => exact .inr (.inl hkind)

/-- What stands for the method is no literal. -/
theorem Refers.verbLiteral?_eq_none (h : Refers requests aliases n) : verbLiteral? n = none := by
  have hnone : n.stringValue? = none := by
    unfold Node.stringValue?
    rcases h.isReferring with hkind | hkind | hkind <;> simp [hkind]
  rw [verbLiteral?, hnone, Option.bind_none]

end References

section Naming

variable {v : String} {e : Node} {named : Node → Prop} {free : Bool} {n n' : Node}
variable {requests aliases aliases' : List String}

theorem isMethodAccess_before
    (he : e.IsReferring)
    (hv : v ∉ requests)
    (h : Rewrites v e named free n n')
    (haccess : isMethodAccess requests n' = true) :
    isMethodAccess requests n = true := by
  rw [isMethodAccess_iff] at haccess ⊢
  obtain ⟨hkind, hproperty, o', ho', hidentifier, hrequest⟩ := haccess
  obtain ⟨-, -, u, -, hrenames⟩ | ⟨f, -, hkeeps⟩ := h.unwrap_cases he
  · cases hrenames.kind.symm.trans hkind
  · obtain ⟨o, ho, hcorresponds⟩ := hkeeps.exists_child_before (.inl (by decide)) ho'
    obtain ⟨hname, htext⟩ := hcorresponds.2.identifier_before he hidentifier fun heq => hv (heq ▸ hrequest)
    exact ⟨hkeeps.kind ▸ hkind, hkeeps.propertyText_eq ▸ hproperty, o, ho, hname, htext ▸ hrequest⟩

theorem isMethodAccess_after
    (he : e.IsReferring)
    (hne : free = true → e.unwrap.kind ≠ .identifier)
    (h : Keeps v e named free n.unwrap n'.unwrap)
    (haccess : isMethodAccess requests n = true) :
    isMethodAccess requests n' = true := by
  rw [isMethodAccess_iff] at haccess ⊢
  obtain ⟨hkind, hproperty, o, ho, hidentifier, hrequest⟩ := haccess
  obtain ⟨o', ho', hcorresponds⟩ := h.exists_child_after (.inl (by decide)) ho
  obtain ⟨hname, htext⟩ := hcorresponds.2.identifier_after he
    (fun hfree => hne (Bool.and_eq_true_iff.1 hfree).1) hidentifier
  exact ⟨h.kind ▸ hkind, h.propertyText_eq ▸ hproperty, o', ho', hname, htext ▸ hrequest⟩

/-- What stands for the method does so afterwards, if the name that is given to an access counts and is not
called. -/
theorem refers_after
    (he : e.IsReferring)
    (haliases : aliases ⊆ aliases')
    (hnamed : free = true → v ∈ aliases' ∧ isMethodAccess requests e = true)
    (huncalled : free = true → ∀ d ∈ n.subtree, ∀ f, d.child? .function = some f → ¬ named f)
    (h : Rewrites v e named free n n')
    (href : Refers requests aliases n) :
    Refers requests aliases' n' := by
  induction href generalizing n' free with
  | @name n hkind hname =>
    obtain ⟨hfree, -, u, -, hrenames⟩ | ⟨f, hf, hkeeps⟩ := h.unwrap_cases he
    · exact .name hrenames.kind (hrenames.text ▸ (hnamed hfree).1)
    · exact .name (hkeeps.kind ▸ hkind) (hkeeps.text (.inr (by rw [hkind]; rfl)) ▸ haliases hname)
  | @access n haccess =>
    obtain ⟨hfree, -, u, -, hrenames⟩ | ⟨f, hf, hkeeps⟩ := h.unwrap_cases he
    · exact .name hrenames.kind (hrenames.text ▸ (hnamed hfree).1)
    · refine .access (isMethodAccess_after he (fun hb hkind => ?_) hkeeps haccess)
      cases hkind.symm.trans (isMethodAccess_iff.1 (hnamed (hf hb)).2).1
  | @call n f o hkind hfunction hmember hobject href ih =>
    obtain ⟨hfree, -, u, -, hrenames⟩ | ⟨b, hb, hkeeps⟩ := h.unwrap_cases he
    · exact .name hrenames.kind (hrenames.text ▸ (hnamed hfree).1)
    · have hor {b₁ b₂ b₃ : Bool} (h₁ : b₁ = true → free = true) (h₃ : (b₁ && b₂ && b₃) = true) : free = true := by
        simp only [Bool.and_eq_true] at h₃
        exact h₁ h₃.1.1
      obtain ⟨f', hf', hcorresponds⟩ := hkeeps.exists_child_after (.inl (by decide)) hfunction
      have hinside : f ∈ n.subtree :=
        Node.mem_subtree_trans (Node.mem_subtree_of_child? hfunction) (Node.unwrap_mem_subtree n)
      obtain ⟨hfree, hrenames⟩ | hmemberKeeps := hcorresponds.2.renames_or_keeps
      · exact absurd hrenames.isUse
          (huncalled (hb (Bool.and_eq_true_iff.1 hfree).1) _ (Node.unwrap_mem_subtree n) f hfunction)
      · obtain ⟨o', ho', hobjects⟩ := hmemberKeeps.exists_child_after (.inl (by decide)) hobject
        refine .call (hkeeps.kind ▸ hkind) hf' (hmemberKeeps.kind ▸ hmember) ho'
          (ih (fun hfree => hnamed (hor hb hfree)) (fun hfree d hd => ?_) hobjects.2)
        exact huncalled (hor hb hfree) d
          (Node.mem_subtree_trans hd (Node.mem_subtree_trans (Node.mem_subtree_of_child? hobject) hinside))

/-- A copy stands for the method if the expression does. -/
theorem Refers.of_copy
    (href : Refers requests aliases n)
    (he : e.IsReferring)
    (h : Rewrites v e named false n n') :
    Refers requests aliases n' := by
  refine refers_after he (List.Subset.refl _) ?_ ?_ h href
  · rintro ⟨⟩
  · rintro ⟨⟩

/-- What stands for the method afterwards did so before. -/
theorem refers_before
    (he : Refers requests aliases e)
    (haliases : ∀ x ∈ aliases', x ≠ v → x ∈ aliases)
    (hv : v ∉ requests)
    (hfresh : ∀ m ∈ n.subtree, m.text ≠ v)
    (h : Rewrites v e named free n n')
    (href : Refers requests aliases' n') :
    Refers requests aliases n := by
  induction href generalizing n free with
  | @name n' hkind hname =>
    obtain ⟨-, -, u, hu, hrenames⟩ | ⟨f, -, hkeeps⟩ := h.unwrap_cases he.isReferring
    · exact (he.of_copy he.isReferring hrenames.copy).of_unwrap_eq hu.symm
    · have hkind' : n.unwrap.kind = .identifier := hkeeps.kind.trans hkind
      have htext : n.unwrap.text = n'.unwrap.text := hkeeps.text (.inr (by rw [hkind']; rfl))
      have hne : n'.unwrap.text ≠ v := htext ▸ hfresh _ (Node.unwrap_mem_subtree n)
      exact .name hkind' (htext ▸ haliases _ hname hne)
  | @access n' haccess => exact .access (isMethodAccess_before he.isReferring hv h haccess)
  | @call n' f' o' hkind hfunction hmember hobject href ih =>
    obtain ⟨-, -, u, hu, hrenames⟩ | ⟨b, -, hkeeps⟩ := h.unwrap_cases he.isReferring
    · exact (he.of_copy he.isReferring hrenames.copy).of_unwrap_eq hu.symm
    · obtain ⟨f, hf, hcorresponds⟩ := hkeeps.exists_child_before (.inl (by decide)) hfunction
      obtain ⟨-, hrenames⟩ | hmemberKeeps := hcorresponds.2.renames_or_keeps
      · cases hrenames.kind.symm.trans hmember
      · obtain ⟨o, ho, hobjects⟩ := hmemberKeeps.exists_child_before (.inl (by decide)) hobject
        have hinside : o ∈ n.subtree := Node.mem_subtree_trans (Node.mem_subtree_of_child? ho)
          (Node.mem_subtree_trans (Node.mem_subtree_of_child? hf) (Node.unwrap_mem_subtree n))
        exact .call (hkeeps.kind.trans hkind) hf (hmemberKeeps.kind.trans hmember) ho
          (ih (fun m hm => hfresh m (Node.mem_subtree_trans hm hinside)) hobjects.2)

end Naming

section Comparing

/-- Whether an operation is an equality. -/
def IsEquality (n : Node) : Prop :=
  ((n.child? .operator).map Node.text).getD "" = "===" ∨ ((n.child? .operator).map Node.text).getD "" = "=="

/-- Whether a construct compares the method of the request with a verb: by an equality, by a case of a switch,
or by membership in a list. -/
inductive Compares
    (requests aliases : List String)
    (verb : String) :
    Node → Prop
  | equality
      {n l r : Node}
      (hkind : n.kind = .binaryExpression)
      (hoperator : IsEquality n)
      (hleft : n.child? .left = some l)
      (hright : n.child? .right = some r)
      (hverb : Refers requests aliases l ∧ verbLiteral? r = some verb ∨
        Refers requests aliases r ∧ verbLiteral? l = some verb) :
      Compares requests aliases verb n
  | selection
      {n value body c w : Node}
      (hkind : n.kind = .switchStatement)
      (hvalue : n.child? .value = some value)
      (href : Refers requests aliases value)
      (hbody : n.child? .body = some body)
      (hc : c ∈ body.namedChildren)
      (hcase : c.kind = .switchCase)
      (hw : c.child? .value = some w)
      (hverb : verbLiteral? w = some verb) :
      Compares requests aliases verb n
  | membership
      {n f a o m : Node}
      {as : List Node}
      (hkind : n.kind = .callExpression)
      (hfunction : n.child? .function = some f)
      (harguments : n.callArguments = a :: as)
      (hmember : f.kind = .memberExpression)
      (hname : f.propertyText = "includes")
      (href : Refers requests aliases a)
      (hobject : f.child? .object = some o)
      (harray : o.unwrap.kind = .array)
      (hm : m ∈ o.unwrap.namedChildren)
      (hverb : verbLiteral? m = some verb) :
      Compares requests aliases verb n

variable {requests aliases : List String} {verb : String} {n : Node}

theorem compares_of_mem_comparedVerbs (h : verb ∈ comparedVerbs (isMethodReference requests aliases) n) :
    Compares requests aliases verb n := by
  have hrefers {r : Role} (hr : ((n.child? r).map (isMethodReference requests aliases)).getD false = true) :
      ∃ c, n.child? r = some c ∧ Refers requests aliases c := by
    cases hc : n.child? r with
    | none => simp [hc] at hr
    | some c => exact ⟨c, rfl, isMethodReference_iff_refers.1 (by simpa [hc] using hr)⟩
  have hliteral {r : Role} (hr : verb ∈ ((n.child? r).bind verbLiteral?).toList) :
      ∃ c, n.child? r = some c ∧ verbLiteral? c = some verb :=
    Option.bind_eq_some_iff.1 (Option.mem_toList.1 hr)
  unfold comparedVerbs at h
  dsimp only at h
  split at h
  · next hkind =>
    split at h
    · next hoperator =>
      have hoperator : IsEquality n := by simpa [IsEquality] using hoperator
      split at h
      · next href =>
        obtain ⟨l, hl, href⟩ := hrefers href
        obtain ⟨r, hr, hverb⟩ := hliteral h
        exact .equality hkind hoperator hl hr (.inl ⟨href, hverb⟩)
      · split at h
        · next href =>
          obtain ⟨r, hr, href⟩ := hrefers href
          obtain ⟨l, hl, hverb⟩ := hliteral h
          exact .equality hkind hoperator hl hr (.inr ⟨href, hverb⟩)
        · cases h
    · cases h
  · next hkind =>
    split at h
    · next href =>
      obtain ⟨value, hvalue, href⟩ := hrefers href
      split at h
      · next body hbody =>
        obtain ⟨c, hc, hverb⟩ := List.mem_filterMap.1 h
        obtain ⟨hc, hcase⟩ := List.mem_filter.1 hc
        obtain ⟨w, hw, hverb⟩ := Option.bind_eq_some_iff.1 hverb
        exact .selection hkind hvalue href hbody hc (beq_iff_eq.1 hcase) hw hverb
      · cases h
    · cases h
  · next hkind =>
    split at h
    · next f a as hfunction harguments =>
      split at h
      · next hall =>
        simp only [Bool.and_eq_true, beq_iff_eq] at hall
        obtain ⟨⟨hmember, hname⟩, href⟩ := hall
        cases hobject : f.child? .object with
        | none => simp [hobject] at h
        | some o =>
          simp only [hobject, Option.map_some] at h
          split at h
          · next harray =>
            obtain ⟨m, hm, hverb⟩ := List.mem_filterMap.1 h
            exact .membership hkind hfunction harguments hmember hname (isMethodReference_iff_refers.1 href) hobject
              (beq_iff_eq.1 harray) hm hverb
          · cases h
      · cases h
    · cases h
  · cases h

theorem Compares.mem_comparedVerbs (h : Compares requests aliases verb n) :
    verb ∈ comparedVerbs (isMethodReference requests aliases) n := by
  have hfalse {m : Node} (hverb : verbLiteral? m = some verb) : isMethodReference requests aliases m = false := by
    refine Bool.eq_false_iff.2 fun href => ?_
    cases (isMethodReference_iff_refers.1 href).verbLiteral?_eq_none.symm.trans hverb
  cases h with
  | @equality l r hkind hoperator hleft hright hverb =>
    have hoperator' : (((n.child? .operator).map Node.text).getD "" == "===" ||
        ((n.child? .operator).map Node.text).getD "" == "==") = true := by simpa [IsEquality] using hoperator
    unfold comparedVerbs
    dsimp only
    rw [hkind]
    dsimp only
    rw [if_pos hoperator']
    rcases hverb with ⟨href, hverb⟩ | ⟨href, hverb⟩
    · simp [hleft, hright, isMethodReference_iff_refers.2 href, hverb]
    · simp [hleft, hright, isMethodReference_iff_refers.2 href, hverb, hfalse hverb]
  | @selection value body c w hkind hvalue href hbody hc hcase hw hverb =>
    unfold comparedVerbs
    dsimp only
    rw [hkind]
    dsimp only
    rw [if_pos (by simpa [hvalue] using isMethodReference_iff_refers.2 href), hbody]
    exact List.mem_filterMap.2 ⟨c, List.mem_filter.2 ⟨hc, beq_iff_eq.2 hcase⟩, by rw [hw]; exact hverb⟩
  | @membership f a o m as hkind hfunction harguments hmember hname href hobject harray hm hverb =>
    unfold comparedVerbs
    dsimp only
    rw [hkind]
    dsimp only
    rw [hfunction, harguments]
    dsimp only
    rw [if_pos (by simp [hmember, hname, isMethodReference_iff_refers.2 href]), hobject]
    dsimp only [Option.map_some]
    rw [if_pos (beq_iff_eq.2 harray)]
    exact List.mem_filterMap.2 ⟨m, hm, hverb⟩

theorem mem_comparedVerbs_iff :
    verb ∈ comparedVerbs (isMethodReference requests aliases) n ↔ Compares requests aliases verb n :=
  ⟨compares_of_mem_comparedVerbs, Compares.mem_comparedVerbs⟩

end Comparing

end FileRoutes

end RouteAtlas
