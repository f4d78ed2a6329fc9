import Mathlib
import RouteAtlas.Proofs.FileParts
import RouteAtlas.Proofs.NamedExpressions

/-!
# Nodes of trees in which an expression is given a name

Each node of a tree in which an expression is given a name comes from the tree before, from the expression, or
is brought in with the name; each node of the tree before is kept or is a part of a use. Whether a tree is
another one with the uses written by a name can be computed.
-/

namespace RouteAtlas.Syntax

variable {v : String} {e : Node} {named : Node → Prop} {free : Bool} {n n' : Node}

section Descent

/-- A declarator that binds the name to a copy of the expression. -/
structure Binds
    (v : String)
    (e : Node)
    (named : Node → Prop)
    (d name value : Node) :
    Prop where
  kind : d.kind = .variableDeclarator
  name? : d.child? .name = some name
  value? : d.child? .value = some value
  identifier : name.kind = .identifier
  text : name.text = v
  copy : Rewrites v e named false e value

/-- Where a node of a rewritten tree comes from: from a node of the tree before, from one of the expression
that is named, or from the declaration of the name and its uses. -/
inductive ComesFrom
    (v : String)
    (e : Node)
    (named : Node → Prop)
    (free : Bool)
    (ns : List Node) :
    Node → Prop
  | kept
      {d d' : Node}
      {f : Bool}
      (hd : d ∈ ns)
      (hf : f = true → free = true)
      (hkeeps : Keeps v e named f d d') :
      ComesFrom v e named free ns d'
  | copied
      {d d' : Node}
      (hfree : free = true)
      (hd : d ∈ e.subtree)
      (hkeeps : Keeps v e named false d d') :
      ComesFrom v e named free ns d'
  | binds
      {d' name value : Node}
      (hfree : free = true)
      (hbinds : Binds v e named d' name value) :
      ComesFrom v e named free ns d'
  | scaffold
      {d' : Node}
      (hfree : free = true)
      (hkind : d'.kind.isScaffold = true) :
      ComesFrom v e named free ns d'

/-- What becomes of a node in a rewritten tree: it is kept, or it is a part of a use. -/
inductive GoesTo
    (v : String)
    (e : Node)
    (named : Node → Prop)
    (free : Bool)
    (ns : List Node) :
    Node → Prop
  | kept
      {d d' : Node}
      {f : Bool}
      (hd' : d' ∈ ns)
      (hf : f = true → free = true)
      (hkeeps : Keeps v e named f d d') :
      GoesTo v e named free ns d
  | inUse
      {d₀ d : Node}
      (hfree : free = true)
      (hd₀ : d₀ ∈ e.subtree)
      (hkeeps : Keeps v e named false d₀ d) :
      GoesTo v e named free ns d

variable {ns ms : List Node} {parent : Kind} {cs cs' : List Node}

theorem ComesFrom.mono
    {f : Bool}
    (hns : ns ⊆ ms)
    (hf : f = true → free = true)
    (h : ComesFrom v e named f ns n) :
    ComesFrom v e named free ms n := by
  cases h with
  | kept hd hf' hkeeps => exact .kept (hns hd) (fun hb => hf (hf' hb)) hkeeps
  | copied hfree hd hkeeps => exact .copied (hf hfree) hd hkeeps
  | binds hfree hbinds => exact .binds (hf hfree) hbinds
  | scaffold hfree hkind => exact .scaffold (hf hfree) hkind

theorem GoesTo.mono
    {f : Bool}
    (hns : ns ⊆ ms)
    (hf : f = true → free = true)
    (h : GoesTo v e named f ns n) :
    GoesTo v e named free ms n := by
  cases h with
  | kept hd' hf' hkeeps => exact .kept (hns hd') (fun hb => hf (hf' hb)) hkeeps
  | inUse hfree hd₀ hkeeps => exact .inUse (hf hfree) hd₀ hkeeps

theorem ComesFrom.exists_keeps (h : ComesFrom v e named false ns n) : ∃ d ∈ ns, Keeps v e named false d n := by
  cases h with
  | @kept d _ f hd hf hkeeps =>
    cases f with
    | false => exact ⟨d, hd, hkeeps⟩
    | true => cases hf rfl
  | copied hfree => cases hfree
  | binds hfree => cases hfree
  | scaffold hfree => cases hfree

theorem GoesTo.exists_keeps (h : GoesTo v e named false ns n) : ∃ d' ∈ ns, Keeps v e named false n d' := by
  cases h with
  | @kept _ d' f hd' hf hkeeps =>
    cases f with
    | false => exact ⟨d', hd', hkeeps⟩
    | true => cases hf rfl
  | inUse hfree => cases hfree

theorem Node.forest_cons_subset_left (c : Node) (cs : List Node) : c.subtree ⊆ Node.forest (c :: cs) :=
  List.subset_append_left _ _

theorem Node.forest_cons_subset_right (c : Node) (cs : List Node) : Node.forest cs ⊆ Node.forest (c :: cs) :=
  List.subset_append_right _ _

theorem Node.IsToken.subtree_eq (h : n.IsToken) : n.subtree = [n] := by
  rw [Node.subtree_eq, h.2, Node.forest]

theorem kind_eq_of_mem_forest_tokens
    (h : ∀ c ∈ cs, c.IsToken)
    (hn : n ∈ Node.forest cs) :
    n.kind = .token := by
  obtain ⟨c, hc, hn⟩ := Node.mem_forest_iff.1 hn
  rw [(h c hc).subtree_eq, List.mem_singleton] at hn
  rw [hn]
  exact (h c hc).1

/-- A declaration holds a declarator that binds the name, and nothing else but the copy of the expression and
scaffolding. -/
theorem Declares.exists_binds
    {s : Node}
    (h : Declares (Rewrites v e named) v e s) :
    ∃ d name value, Binds v e named d name value ∧ d ∈ s.subtree ∧ value ∈ d.subtree ∧ value.count < s.count ∧
      ∀ m ∈ s.subtree, m.kind.isScaffold = true ∨ m = d ∨ m ∈ value.subtree := by
  cases h with
  | @mk keyword name sign value finals role span span' text text' hkeyword hsign hfinals hkind htext hleaf hname
      hnone hvalue hcopy =>
    let d := Node.mk .variableDeclarator role span' text' [name, sign, value]
    let s := Node.mk .lexicalDeclaration none span text (keyword :: d :: finals)
    have hd : d ∈ s.children := List.mem_cons_of_mem _ (List.mem_cons_self ..)
    have hinside : value ∈ d.children := by simp [d, Node.children]
    have hname? : d.child? .name = some name := by simp [d, Node.child?, Node.children, hname]
    have hvalue? : d.child? .value = some value := by
      simp [d, Node.child?, Node.children, hname, hnone, hvalue]
    refine ⟨d, name, value, ⟨rfl, hname?, hvalue?, hkind, htext, hcopy⟩, Node.mem_subtree_of_mem_children hd,
      Node.mem_subtree_of_mem_children hinside,
      (Node.count_lt_of_mem hinside).trans (Node.count_lt_of_mem hd), fun m hm => ?_⟩
    have htokens : ∀ c ∈ keyword :: finals, c.IsToken := List.forall_mem_cons.2 ⟨hkeyword, hfinals⟩
    have hscaffold {m : Node} (hm : m.kind = .token) : m.kind.isScaffold = true := by rw [hm]; rfl
    rw [Node.subtree_eq, List.mem_cons, Node.mem_forest_iff] at hm
    rcases hm with rfl | ⟨c, hc, hm⟩
    · exact .inl rfl
    · simp only [Node.children, List.mem_cons] at hc
      rcases hc with rfl | rfl | hc
      · exact .inl (hscaffold (kind_eq_of_mem_forest_tokens htokens
          (Node.mem_forest_iff.2 ⟨_, List.mem_cons_self .., hm⟩)))
      · rw [Node.subtree_eq, List.mem_cons, Node.mem_forest_iff] at hm
        rcases hm with rfl | ⟨c, hc, hm⟩
        · exact .inr (.inl rfl)
        · simp only [Node.children, List.mem_cons, List.not_mem_nil, or_false] at hc
          rcases hc with rfl | rfl | rfl
          · rw [Node.subtree_eq, hleaf, Node.forest, List.mem_singleton] at hm
            rw [hm, hkind]
            exact .inl rfl
          · rw [hsign.subtree_eq, List.mem_singleton] at hm
            rw [hm]
            exact .inl (hscaffold hsign.1)
          · exact .inr (.inr hm)
      · exact .inl (hscaffold (kind_eq_of_mem_forest_tokens htokens
          (Node.mem_forest_iff.2 ⟨c, List.mem_cons_of_mem _ hc, hm⟩)))

/-- Nodes of rewritten children come from the children, given that those of smaller trees do. -/
theorem Listed.comesFrom
    (bound : Nat)
    (ih : ∀ {f c c'}, c'.count < bound → Rewrites v e named f c c' →
      ∀ d' ∈ c'.subtree, ComesFrom v e named f c.subtree d')
    (h : Listed (Rewrites v e named) v e free parent cs cs')
    (hbound : Node.countForest cs' < bound) :
    ∀ d' ∈ Node.forest cs', ComesFrom v e named free (Node.forest cs) d' := by
  have hdeclares {s : Node} {ns : List Node} (hs : Declares (Rewrites v e named) v e s) (hless : s.count < bound) :
      ∀ d' ∈ s.subtree, ComesFrom v e named true ns d' := by
    intro d' hd'
    obtain ⟨d, name, value, hbinds, -, -, hcount, hall⟩ := hs.exists_binds
    rcases hall d' hd' with hkind | rfl | hd'
    · exact .scaffold rfl hkind
    · exact .binds rfl hbinds
    · obtain ⟨d₀, hd₀, hkeeps⟩ := (ih (hcount.trans hless) hbinds.copy d' hd').exists_keeps
      exact .copied rfl hd₀ hkeeps
  induction h with
  | nil => rintro d' ⟨⟩
  | @keep free parent c c' cs cs' hrole hchild hrest ihrest =>
    rw [Node.countForest] at hbound
    intro d' hd'
    rcases List.mem_append.1 hd' with hd' | hd'
    · exact (ih (by omega) hchild d' hd').mono (Node.forest_cons_subset_left c cs) fun hb =>
        (Bool.and_eq_true_iff.1 hb).1
    · exact (ihrest (by omega) d' hd').mono (Node.forest_cons_subset_right c cs) id
  | @declare parent s cs cs' hparent hs hrest ihrest =>
    rw [Node.countForest] at hbound
    intro d' hd'
    rcases List.mem_append.1 hd' with hd' | hd'
    · exact hdeclares hs (by omega) d' hd'
    · exact ihrest (by omega) d' hd'
  | @block c c' s opening keyword closing finals cs cs' span span' text text' hbody hs hopening hkeyword hfinals
      hclosing hchild hrest ihrest =>
    simp only [Node.countForest, Node.count] at hbound
    have htoken {t d' : Node} {ns : List Node} (ht : t.IsToken) (hd' : d' ∈ t.subtree) :
        ComesFrom v e named true ns d' := by
      rw [ht.subtree_eq, List.mem_singleton] at hd'
      exact .scaffold rfl (by rw [hd', ht.1]; rfl)
    intro d' hd'
    simp only [Node.forest, Node.subtree, List.cons_append, List.mem_cons, List.mem_append, List.append_nil] at hd'
    rcases hd' with rfl | (hd' | hd' | rfl | (hd' | hd' | hd') | hd') | hd'
    · exact .scaffold rfl rfl
    · exact htoken hopening hd'
    · exact hdeclares hs (by omega) d' hd'
    · exact .scaffold rfl rfl
    · exact htoken hkeyword hd'
    · exact (ih (by omega) hchild d' hd').mono (Node.forest_cons_subset_left c cs) id
    · exact .scaffold rfl (by rw [kind_eq_of_mem_forest_tokens hfinals hd']; rfl)
    · exact htoken hclosing hd'
    · exact (ihrest (by omega) d' hd').mono (Node.forest_cons_subset_right c cs) id

/-- Every node of a rewritten tree comes from the tree before, from the expression, or from what is brought in
with the name. -/
theorem Rewrites.comesFrom
    {free : Bool}
    {n n' : Node}
    (h : Rewrites v e named free n n')
    (d' : Node)
    (hd' : d' ∈ n'.subtree) :
    ComesFrom v e named free n.subtree d' := by
  rw [Node.subtree_eq, List.mem_cons] at hd'
  obtain ⟨hfree, hrenames⟩ | hkeeps := h.renames_or_keeps
  · rw [hrenames.children, Node.forest] at hd'
    rcases hd' with rfl | hd'
    · exact .scaffold hfree (by rw [hrenames.kind]; rfl)
    · cases hd'
  · rcases hd' with rfl | hd'
    · exact .kept (Node.mem_subtree_self n) id hkeeps
    · have hbound := Node.countForest_children n'
      have hcomes := Listed.comesFrom n'.count (fun _ hc d' hd' => hc.comesFrom d' hd') hkeeps.children (by omega) d' hd'
      exact hcomes.mono (by rw [Node.subtree_eq n]; exact List.subset_cons_self ..) id
  termination_by n'.count

/-- What becomes of the children of a construct, given what becomes of smaller trees. -/
theorem Listed.goesTo
    (bound : Nat)
    (ih : ∀ {f c c'}, c.count < bound → Rewrites v e named f c c' →
      ∀ d ∈ c.subtree, GoesTo v e named f c'.subtree d)
    (h : Listed (Rewrites v e named) v e free parent cs cs')
    (hbound : Node.countForest cs < bound) :
    ∀ d ∈ Node.forest cs, GoesTo v e named free (Node.forest cs') d := by
  induction h with
  | nil => rintro d ⟨⟩
  | @keep free parent c c' cs cs' hrole hchild hrest ihrest =>
    rw [Node.countForest] at hbound
    intro d hd
    rcases List.mem_append.1 hd with hd | hd
    · exact (ih (by omega) hchild d hd).mono (Node.forest_cons_subset_left c' cs') fun hb =>
        (Bool.and_eq_true_iff.1 hb).1
    · exact (ihrest (by omega) d hd).mono (Node.forest_cons_subset_right c' cs') id
  | @declare parent s cs cs' hparent hs hrest ihrest =>
    exact fun d hd => (ihrest hbound d hd).mono (Node.forest_cons_subset_right s cs') id
  | @block c c' s opening keyword closing finals cs cs' span span' text text' hbody hs hopening hkeyword hfinals
      hclosing hchild hrest ihrest =>
    rw [Node.countForest] at hbound
    intro d hd
    rcases List.mem_append.1 hd with hd | hd
    · refine (ih (by omega) hchild d hd).mono (fun m hm => ?_) id
      simp [Node.forest, Node.subtree, hm]
    · exact (ihrest (by omega) d hd).mono (Node.forest_cons_subset_right _ cs') id

/-- Every node of a tree is kept when it is rewritten, or is a part of a use. -/
theorem Rewrites.goesTo
    {free : Bool}
    {n n' : Node}
    (h : Rewrites v e named free n n')
    (d : Node)
    (hd : d ∈ n.subtree) :
    GoesTo v e named free n'.subtree d := by
  obtain ⟨hfree, hrenames⟩ | hkeeps := h.renames_or_keeps
  · obtain ⟨d₀, hd₀, hkeeps⟩ := (hrenames.copy.comesFrom d hd).exists_keeps
    exact .inUse hfree hd₀ hkeeps
  · rw [Node.subtree_eq, List.mem_cons] at hd
    rcases hd with rfl | hd
    · exact .kept (Node.mem_subtree_self n') id hkeeps
    · have hbound := Node.countForest_children n
      have hgoes := Listed.goesTo n.count (fun _ hc d hd => hc.goesTo d hd) hkeeps.children (by omega) d hd
      exact hgoes.mono (by rw [Node.subtree_eq n']; exact List.subset_cons_self ..) id
  termination_by n.count

/-- Nodes below a node that is kept come from below it. -/
theorem Keeps.comesFrom
    (h : Keeps v e named free n n')
    {d' : Node}
    (hd' : d' ∈ Node.forest n'.children) :
    ComesFrom v e named free (Node.forest n.children) d' :=
  Listed.comesFrom _ (fun _ hc d' hd' => hc.comesFrom d' hd') h.children (Nat.lt_succ_self _) d' hd'

/-- What becomes of the nodes below a node that is kept. -/
theorem Keeps.goesTo
    (h : Keeps v e named free n n')
    {d : Node}
    (hd : d ∈ Node.forest n.children) :
    GoesTo v e named free (Node.forest n'.children) d :=
  Listed.goesTo _ (fun _ hc d hd => hc.goesTo d hd) h.children (Nat.lt_succ_self _) d hd

end Descent

section Checks

mutual

/-- Whether a tree is a copy of another one, which may stand elsewhere. -/
def Node.isCopy : Node → Node → Bool
  | .mk kind _ _ text children, n' =>
    kind == n'.kind && text == n'.text && Node.areCopies children n'.children

/-- Whether some trees are copies of other ones, and play the same parts. -/
def Node.areCopies : List Node → List Node → Bool
  | [], cs' => cs'.isEmpty
  | c :: cs, c' :: cs' => c.role == c'.role && Node.isCopy c c' && Node.areCopies cs cs'
  | _ :: _, [] => false

end

/-- Whether a node is a token without parts. -/
def Node.isToken (c : Node) : Bool :=
  c.kind == .token && c.children.isEmpty

/-- Whether a node declares a name with a copy of an expression as its value. -/
def Node.declares
    (v : String)
    (e s : Node) :
    Bool :=
  match s.children with
  | keyword :: d :: finals =>
    match d.children with
    | [name, sign, value] =>
      s.kind == .lexicalDeclaration && s.role == none && d.kind == .variableDeclarator &&
        (keyword :: sign :: finals).all Node.isToken &&
        (name.kind == .identifier && name.text == v && name.children.isEmpty) &&
        (name.role == some .name && sign.role == none && value.role == some .value) && e.isCopy value
    | _ => false
  | _ => false

mutual

/-- Whether a tree is another one with its uses of an expression written by a name. A declaration is found behind
any part of a block. -/
def Node.isRewriting
    (v : String)
    (e : Node)
    (isUse : Node → Bool) :
    Bool → Node → Node → Bool
  | free, .mk kind role span text children, n' =>
    if free && isUse (.mk kind role span text children) then
      e.isCopy (.mk kind role span text children) && n'.kind == .identifier && n'.text == v && n'.children.isEmpty
    else
      kind == n'.kind && (free && !kind.isWord || text == n'.text) &&
        Node.areRewritings v e isUse free kind children n'.children

/-- Whether the parts of a construct are those of another one with the uses written by the name. -/
def Node.areRewritings
    (v : String)
    (e : Node)
    (isUse : Node → Bool) :
    Bool → Kind → List Node → List Node → Bool
  | _, _, [], cs' => cs'.isEmpty
  | free, parent, c :: cs, c' :: cs' =>
    c.role == c'.role && Node.isRewriting v e isUse (free && !c.isSetApart) c c' &&
      (Node.areRewritings v e isUse free parent cs cs' ||
        free && (parent == .statementBlock || parent == .program) && cs'.head?.any (Node.declares v e) &&
          Node.areRewritings v e isUse free parent cs cs'.tail)
  | _, _, _ :: _, [] => false

end

variable {isUse : Node → Bool}

theorem listed_of_areCopies
    {parent : Kind}
    {cs cs' : List Node}
    (ih : ∀ c ∈ cs, ∀ c', c.isCopy c' = true → Rewrites v e named false c c')
    (h : Node.areCopies cs cs' = true) :
    Listed (Rewrites v e named) v e false parent cs cs' := by
  induction cs generalizing cs' with
  | nil =>
    rw [Node.areCopies, List.isEmpty_iff] at h
    rw [h]
    exact .nil
  | cons c cs ihrest =>
    cases cs' with
    | nil => cases h
    | cons c' cs' =>
      simp only [Node.areCopies, Bool.and_eq_true, beq_iff_eq] at h
      obtain ⟨⟨hrole, hfirst⟩, hrest⟩ := h
      rw [List.forall_mem_cons] at ih
      exact .keep hrole (ih.1 c' hfirst) (ihrest ih.2 hrest)

theorem rewrites_of_isCopy
    {n n' : Node}
    (h : n.isCopy n' = true) :
    Rewrites v e named false n n' := by
  cases n with
  | mk kind role span text children =>
    cases n' with
    | mk kind' role' span' text' children' =>
      simp only [Node.isCopy, Node.kind, Node.text, Node.children, Bool.and_eq_true, beq_iff_eq] at h
      obtain ⟨⟨rfl, rfl⟩, hchildren⟩ := h
      refine .node ?_ (fun _ => rfl) (listed_of_areCopies (fun c hc c' h => rewrites_of_isCopy h) hchildren)
      rintro ⟨⟩
  termination_by n.count
  decreasing_by exact Node.count_lt_of_mem (by simp [*, Node.children])

theorem isToken_iff : n.isToken = true ↔ n.IsToken := by
  rw [Node.isToken, Bool.and_eq_true, beq_iff_eq, List.isEmpty_iff, Node.IsToken]

/-- A node that is found to be a declaration of the name is one. -/
theorem declares_of_check
    {s : Node}
    (h : Node.declares v e s = true) :
    Declares (Rewrites v e named) v e s := by
  unfold Node.declares at h
  split at h
  · next keyword d finals hchildren =>
    split at h
    · next name sign value hparts =>
      simp only [List.all_cons, Bool.and_eq_true, beq_iff_eq, isToken_iff, List.isEmpty_iff] at h
      obtain ⟨⟨⟨⟨⟨⟨hkind, hrole⟩, hdeclarator⟩, hkeyword, hsign, hfinals⟩, ⟨hidentifier, htext⟩, hleaf⟩,
        ⟨hname, hnone⟩, hvalue⟩, hcopy⟩ := h
      cases s
      cases d
      dsimp only [Node.kind, Node.role, Node.children] at hkind hrole hdeclarator hchildren hparts
      subst hkind hrole hdeclarator hchildren hparts
      exact .mk hkeyword hsign (fun c hc => isToken_iff.1 (List.all_eq_true.1 hfinals c hc)) hidentifier htext hleaf
        hname hnone hvalue (rewrites_of_isCopy hcopy)
    · cases h
  · cases h

theorem listed_of_areRewritings
    {free : Bool}
    {parent : Kind}
    {cs cs' : List Node}
    (ih : ∀ c ∈ cs, ∀ f c', Node.isRewriting v e isUse f c c' = true → Rewrites v e (isUse · = true) f c c')
    (h : Node.areRewritings v e isUse free parent cs cs' = true) :
    Listed (Rewrites v e (isUse · = true)) v e free parent cs cs' := by
  induction cs generalizing cs' with
  | nil =>
    rw [Node.areRewritings, List.isEmpty_iff] at h
    rw [h]
    exact .nil
  | cons c cs ihrest =>
    cases cs' with
    | nil => cases h
    | cons c' cs' =>
      rw [List.forall_mem_cons] at ih
      simp only [Node.areRewritings, Bool.and_eq_true, Bool.or_eq_true, beq_iff_eq] at h
      obtain ⟨⟨hrole, hfirst⟩, hrest | ⟨⟨⟨hfree, hparent⟩, hdeclares⟩, hrest⟩⟩ := h
      · exact .keep hrole (ih.1 _ c' hfirst) (ihrest ih.2 hrest)
      · subst hfree
        obtain ⟨s, hs, hdeclares⟩ := (Option.any_eq_true _ _).1 hdeclares
        obtain ⟨rest, rfl⟩ := List.head?_eq_some_iff.1 hs
        exact .keep hrole (ih.1 _ c' hfirst) (.declare hparent (declares_of_check hdeclares) (ihrest ih.2 hrest))

/-- A tree that is found to be another one with the uses written by the name is one. -/
theorem rewrites_of_isRewriting
    {free : Bool}
    {n n' : Node}
    (h : Node.isRewriting v e isUse free n n' = true) :
    Rewrites v e (isUse · = true) free n n' := by
  cases n with
  | mk kind role span text children =>
    cases n' with
    | mk kind' role' span' text' children' =>
      simp only [Node.isRewriting, Node.kind, Node.text, Node.children] at h
      split at h
      · next huse =>
        simp only [Bool.and_eq_true, beq_iff_eq, List.isEmpty_iff] at h huse
        obtain ⟨rfl, huse⟩ := huse
        obtain ⟨⟨⟨hcopy, hkind⟩, htext⟩, hleaf⟩ := h
        exact .use huse (rewrites_of_isCopy hcopy) hkind htext hleaf
      · next hnone =>
        simp only [Bool.and_eq_true, Bool.or_eq_true, Bool.not_eq_true', beq_iff_eq] at h
        obtain ⟨⟨rfl, htext⟩, hchildren⟩ := h
        refine .node (fun hfree huse => hnone (Bool.and_eq_true_iff.2 ⟨hfree, huse⟩)) (fun hkept => ?_)
          (listed_of_areRewritings (fun c hc f c' h => rewrites_of_isRewriting h) hchildren)
        refine htext.resolve_left fun hchanged => ?_
        rcases hkept with hfree | hword
        · cases hfree.symm.trans hchanged.1
        · cases hword.symm.trans hchanged.2
  termination_by n.count
  decreasing_by exact Node.count_lt_of_mem (by simp [*, Node.children])

end Checks

end RouteAtlas.Syntax
