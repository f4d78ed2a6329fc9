import Mathlib
import RouteAtlas.Proofs.LostComments

/-!
# Trees in which an expression is given a name

An expression is given a name by a declaration at the head of a block, and some of its uses are then written
by the name. This module says which trees come of that: texts and offsets around the places of change are
different, everything else is a copy. What is read off such a tree without looking at the name is the same as
before. A use stands in the place of an expression: no name, key, operator or parameter is one.
-/

namespace RouteAtlas.Syntax

section Naming

/-- Parts in which no use stands. -/
def Role.isSetApart : Role → Bool
  | .name | .property | .key | .operator | .parameter | .parameters => true
  | _ => false

/-- Whether a child plays a part in which no use stands. -/
def Node.isSetApart (c : Node) : Bool :=
  c.role.any Role.isSetApart

/-- Kinds of nodes that are read by their text, wherever they stand. -/
def Kind.isWord : Kind → Bool
  | .identifier | .stringFragment | .escapeSequence => true
  | _ => false

/-- Kinds of expressions that may stand for what a name, a call or a member stands for. -/
def Kind.mayRefer : Kind → Bool
  | .parenthesizedExpression | .asExpression | .satisfiesExpression | .nonNullExpression
  | .typeAssertion | .identifier | .callExpression | .memberExpression => true
  | _ => false

/-- Kinds of constructs that a declaration may be put into. -/
def Kind.isOpen : Kind → Bool
  | .statementBlock | .program | .arrowFunction => true
  | _ => false

/-- Kinds of nodes that a declaration of the name and the uses of the name bring in. -/
def Kind.isScaffold : Kind → Bool
  | .identifier | .token | .lexicalDeclaration | .statementBlock | .returnStatement => true
  | _ => false

/-- A token, which has no parts. -/
def Node.IsToken (c : Node) : Prop :=
  c.kind = .token ∧ c.children = []

/-- A declaration of a constant whose value is a copy of an expression. -/
inductive Declares
    (related : Bool → Node → Node → Prop)
    (v : String)
    (e : Node) :
    Node → Prop
  | mk
      {keyword name sign value : Node}
      {finals : List Node}
      {role : Option Role}
      {span span' : Span}
      {text text' : String}
      (hkeyword : keyword.IsToken)
      (hsign : sign.IsToken)
      (hfinals : ∀ c ∈ finals, c.IsToken)
      (hkind : name.kind = .identifier)
      (htext : name.text = v)
      (hleaf : name.children = [])
      (hname : name.role = some .name)
      (hnone : sign.role = none)
      (hvalue : value.role = some .value)
      (hcopy : related false e value) :
      Declares related v e (.mk .lexicalDeclaration none span text
        (keyword :: .mk .variableDeclarator role span' text' [name, sign, value] :: finals))

/-- The children of a construct are rewritten one by one. Where changes are allowed, a declaration may be put
among the statements of a block, and the expression that an arrow function consists of may become a block
with a declaration. -/
inductive Listed
    (related : Bool → Node → Node → Prop)
    (v : String)
    (e : Node) :
    Bool → Kind → List Node → List Node → Prop
  | nil
      {free : Bool}
      {parent : Kind} :
      Listed related v e free parent [] []
  | keep
      {free : Bool}
      {parent : Kind}
      {c c' : Node}
      {cs cs' : List Node}
      (hrole : c.role = c'.role)
      (hchild : related (free && !c.isSetApart) c c')
      (hrest : Listed related v e free parent cs cs') :
      Listed related v e free parent (c :: cs) (c' :: cs')
  | declare
      {parent : Kind}
      {s : Node}
      {cs cs' : List Node}
      (hparent : parent = .statementBlock ∨ parent = .program)
      (hs : Declares related v e s)
      (hrest : Listed related v e true parent cs cs') :
      Listed related v e true parent cs (s :: cs')
  | block
      {c c' s opening keyword closing : Node}
      {finals cs cs' : List Node}
      {span span' : Span}
      {text text' : String}
      (hbody : c.role = some .body)
      (hs : Declares related v e s)
      (hopening : opening.IsToken)
      (hkeyword : keyword.IsToken)
      (hfinals : ∀ t ∈ finals, t.IsToken)
      (hclosing : closing.IsToken)
      (hchild : related true c c')
      (hrest : Listed related v e true .arrowFunction cs cs') :
      Listed related v e true .arrowFunction (c :: cs)
        (.mk .statementBlock (some .body) span text
          [opening, s, .mk .returnStatement none span' text' (keyword :: c' :: finals), closing] :: cs')

/-- The second tree is the first with some uses of an expression written by a name, which is declared in it.
Where changes are not allowed, it is a copy, which may stand elsewhere. -/
inductive Rewrites
    (v : String)
    (e : Node)
    (named : Node → Prop) :
    Bool → Node → Node → Prop
  | use
      {n n' : Node}
      (hnamed : named n)
      (hcopy : Rewrites v e named false e n)
      (hkind : n'.kind = .identifier)
      (htext : n'.text = v)
      (hleaf : n'.children = []) :
      Rewrites v e named true n n'
  | node
      {free : Bool}
      {kind : Kind}
      {role role' : Option Role}
      {span span' : Span}
      {text text' : String}
      {children children' : List Node}
      (hnamed : free = true → ¬ named (.mk kind role span text children))
      (htext : free = false ∨ kind.isWord = true → text = text')
      (hchildren : Listed (Rewrites v e named) v e free kind children children') :
      Rewrites v e named free (.mk kind role span text children) (.mk kind role' span' text' children')

/-- A node that is no use is kept: it is of the same kind, and its children are rewritten. -/
structure Keeps
    (v : String)
    (e : Node)
    (named : Node → Prop)
    (free : Bool)
    (n n' : Node) :
    Prop where
  notUse : free = true → ¬ named n
  kind : n.kind = n'.kind
  text : free = false ∨ n.kind.isWord = true → n.text = n'.text
  children : Listed (Rewrites v e named) v e free n.kind n.children n'.children

/-- A node that is written by the name: it is a copy of the expression. -/
structure Renames
    (v : String)
    (e : Node)
    (named : Node → Prop)
    (n n' : Node) :
    Prop where
  isUse : named n
  copy : Rewrites v e named false e n
  kind : n'.kind = .identifier
  text : n'.text = v
  children : n'.children = []

/-- Children that correspond play the same part. -/
def Corresponds
    (v : String)
    (e : Node)
    (named : Node → Prop)
    (free : Bool)
    (c c' : Node) :
    Prop :=
  c.role = c'.role ∧ Rewrites v e named (free && !c.isSetApart) c c'

/-- An expression that is a use, or has one inside of its casts and parentheses. -/
inductive HoldsUse (named : Node → Prop) : Node → Prop
  | here
      {n : Node}
      (h : named n) :
      HoldsUse named n
  | inside
      {n c : Node}
      (hwrapper : n.isWrapper = true)
      (hheld : n.held? = some c)
      (h : HoldsUse named c) :
      HoldsUse named n

/-- An expression that is a name, a call or a member of another one, casts and parentheses aside. -/
def Node.IsReferring (n : Node) : Prop :=
  n.unwrap.kind = .identifier ∨ n.unwrap.kind = .callExpression ∨ n.unwrap.kind = .memberExpression

end Naming

variable {v : String} {e : Node} {named : Node → Prop} {free : Bool} {n n' : Node}

section Children

theorem Rewrites.renames_or_keeps (h : Rewrites v e named free n n') :
    (free = true ∧ Renames v e named n n') ∨ Keeps v e named free n n' := by
  cases h with
  | use hnamed hcopy hkind htext hleaf => exact .inl ⟨rfl, hnamed, hcopy, hkind, htext, hleaf⟩
  | node hnamed htext hchildren => exact .inr ⟨hnamed, rfl, htext, hchildren⟩

/-- A copy keeps everything. -/
theorem Rewrites.keeps (h : Rewrites v e named false n n') : Keeps v e named false n n' := by
  obtain ⟨hfree, -⟩ | hkeeps := h.renames_or_keeps
  · cases hfree
  · exact hkeeps

/-- An expression that refers to something is of a kind that may do so. -/
theorem mayRefer_of_isReferring (h : n.IsReferring) : n.kind.mayRefer = true := by
  cases hwrapper : n.isWrapper with
  | true =>
    unfold Node.isWrapper at hwrapper
    unfold Kind.mayRefer
    split at hwrapper <;> simp_all
  | false =>
    rw [Node.IsReferring, Node.unwrap_of_not_isWrapper hwrapper] at h
    rcases h with hkind | hkind | hkind <;> rw [hkind] <;> rfl

/-- A use is of a kind that may refer to something, before and after. -/
theorem Renames.mayRefer
    (he : e.IsReferring)
    (h : Renames v e named n n') :
    n.kind.mayRefer = true ∧ n'.kind.mayRefer = true := by
  rw [← h.copy.keeps.kind, h.kind]
  exact ⟨mayRefer_of_isReferring he, rfl⟩

/-- Nodes of all other kinds are kept. -/
theorem Rewrites.keeps_of_kind
    (he : e.IsReferring)
    (h : Rewrites v e named free n n')
    (hkind : n.kind.mayRefer = false ∨ n'.kind.mayRefer = false) :
    Keeps v e named free n n' := by
  obtain ⟨-, hrenames⟩ | hkeeps := h.renames_or_keeps
  · obtain ⟨hn, hn'⟩ := hrenames.mayRefer he
    rcases hkind with hkind | hkind
    · cases hn.symm.trans hkind
    · cases hn'.symm.trans hkind
  · exact hkeeps

/-- Whether a node is of some kind that does not refer to anything stays the same. -/
theorem Rewrites.kind_eq_iff
    (he : e.IsReferring)
    (h : Rewrites v e named free n n')
    {k : Kind}
    (hk : k.mayRefer = false) :
    n.kind = k ↔ n'.kind = k := by
  constructor
  · rintro rfl
    exact (h.keeps_of_kind he (.inl hk)).kind.symm
  · rintro rfl
    exact (h.keeps_of_kind he (.inr hk)).kind

theorem Rewrites.isNamed_eq
    (he : e.IsReferring)
    (h : Rewrites v e named free n n') :
    n.isNamed = n'.isNamed := by
  have htoken := h.kind_eq_iff he (k := .token) rfl
  rw [Node.isNamed, Node.isNamed, bne, bne, Bool.beq_eq_decide_eq, Bool.beq_eq_decide_eq]
  simp [htoken]

theorem Rewrites.isComment_eq
    (he : e.IsReferring)
    (h : Rewrites v e named free n n') :
    n.isComment = n'.isComment := by
  have hcomment := h.kind_eq_iff he (k := .comment) rfl
  simp [Node.isComment, hcomment]

/-- Where nothing is put in, the children correspond one by one. -/
theorem Listed.forall₂
    {parent : Kind}
    {cs cs' : List Node}
    (h : Listed (Rewrites v e named) v e free parent cs cs')
    (hplain : free = true → parent.isOpen = false) :
    List.Forall₂ (Corresponds v e named free) cs cs' := by
  induction h with
  | nil => exact .nil
  | keep hrole hchild hrest ih => exact .cons ⟨hrole, hchild⟩ (ih hplain)
  | declare hparent hs hrest ih => rcases hparent with rfl | rfl <;> cases hplain rfl
  | block => cases hplain rfl

/-- What plays a part in a construct corresponds to what plays it afterwards. -/
theorem Listed.find?_role
    {parent : Kind}
    {cs cs' : List Node}
    (h : Listed (Rewrites v e named) v e free parent cs cs')
    {r : Role}
    (hr : r ≠ .body ∨ parent ≠ .arrowFunction) :
    Option.Rel (Corresponds v e named free) (cs.find? fun c => c.role = some r)
      (cs'.find? fun c => c.role = some r) := by
  induction h with
  | nil => exact .none
  | keep hrole hchild hrest ih =>
    rw [List.find?_cons, List.find?_cons, ← hrole]
    split
    · exact .some ⟨hrole, hchild⟩
    · exact ih hr
  | declare hparent hs hrest ih =>
    cases hs
    rw [List.find?_cons_of_neg (by simp [Node.role])]
    exact ih hr
  | block hbody hs hopening hkeyword hfinals hclosing hchild hrest ih =>
    have hbody' : r ≠ .body := hr.resolve_right (not_not.2 rfl)
    rw [List.find?_cons_of_neg (by simp [hbody, Ne.symm hbody']),
      List.find?_cons_of_neg (by simp [Node.role, Ne.symm hbody'])]
    exact ih hr

theorem Keeps.child?
    (h : Keeps v e named free n n')
    {r : Role}
    (hr : r ≠ .body ∨ n.kind ≠ .arrowFunction) :
    Option.Rel (Corresponds v e named free) (n.child? r) (n'.child? r) :=
  h.children.find?_role hr

/-- What plays a part afterwards corresponds to what played it before. -/
theorem Keeps.exists_child_before
    (h : Keeps v e named free n n')
    {r : Role}
    {c' : Node}
    (hr : r ≠ .body ∨ n.kind ≠ .arrowFunction)
    (hc' : n'.child? r = some c') :
    ∃ c, n.child? r = some c ∧ Corresponds v e named free c c' := by
  have hrel := h.child? hr
  rw [hc'] at hrel
  generalize n.child? r = o at hrel
  cases hrel with
  | some hcorresponds => exact ⟨_, rfl, hcorresponds⟩

/-- What plays a part before corresponds to what plays it afterwards. -/
theorem Keeps.exists_child_after
    (h : Keeps v e named free n n')
    {r : Role}
    {c : Node}
    (hr : r ≠ .body ∨ n.kind ≠ .arrowFunction)
    (hc : n.child? r = some c) :
    ∃ c', n'.child? r = some c' ∧ Corresponds v e named free c c' := by
  have hrel := h.child? hr
  rw [hc] at hrel
  generalize n'.child? r = o at hrel
  cases hrel with
  | some hcorresponds => exact ⟨_, rfl, hcorresponds⟩

/-- Children afterwards were there before, unless they are declarations or blocks. -/
theorem Listed.exists_before
    {parent : Kind}
    {cs cs' : List Node}
    (h : Listed (Rewrites v e named) v e free parent cs cs')
    {c' : Node}
    (hc' : c' ∈ cs')
    (hkind : c'.kind.isScaffold = false) :
    ∃ c ∈ cs, Corresponds v e named free c c' := by
  induction h with
  | nil => cases hc'
  | keep hrole hchild hrest ih =>
    rcases List.mem_cons.1 hc' with rfl | hc'
    · exact ⟨_, List.mem_cons_self .., hrole, hchild⟩
    · obtain ⟨c, hc, hcorresponds⟩ := ih hc'
      exact ⟨c, List.mem_cons_of_mem _ hc, hcorresponds⟩
  | declare hparent hs hrest ih =>
    rcases List.mem_cons.1 hc' with rfl | hc'
    · cases hs
      cases hkind
    · exact ih hc'
  | block hbody hs hopening hkeyword hfinals hclosing hchild hrest ih =>
    rcases List.mem_cons.1 hc' with rfl | hc'
    · cases hkind
    · obtain ⟨c, hc, hcorresponds⟩ := ih hc'
      exact ⟨c, List.mem_cons_of_mem _ hc, hcorresponds⟩

/-- The named children correspond where nothing is put in. -/
theorem Keeps.namedChildren
    (he : e.IsReferring)
    (h : Keeps v e named free n n')
    (hplain : free = true → n.kind.isOpen = false) :
    List.Forall₂ (Corresponds v e named free) n.namedChildren n'.namedChildren := by
  refine List.rel_filter (fun c c' hc => ?_) (h.children.forall₂ hplain)
  exact iff_of_eq (congrArg (· = true) (hc.2.isNamed_eq he))

theorem Keeps.parts
    (he : e.IsReferring)
    (h : Keeps v e named free n n')
    (hplain : free = true → n.kind.isOpen = false) :
    List.Forall₂ (Corresponds v e named free) n.parts n'.parts := by
  refine List.rel_filter (fun c c' hc => ?_) (h.namedChildren he hplain)
  exact iff_of_eq (congrArg (fun b => (!b) = true) (hc.2.isComment_eq he))

end Children

section Unwrapping

theorem isOpen_of_isWrapper (h : n.isWrapper = true) : n.kind.isOpen = false := by
  unfold Node.isWrapper at h
  cases hkind : n.kind <;> simp_all [Kind.isOpen]

theorem Keeps.isWrapper_eq (h : Keeps v e named free n n') : n.isWrapper = n'.isWrapper := by
  rw [Node.isWrapper, Node.isWrapper, h.kind]

/-- What a wrapper holds corresponds. -/
theorem Keeps.held?
    (he : e.IsReferring)
    (h : Keeps v e named free n n')
    (hwrapper : n.isWrapper = true) :
    Option.Rel (Corresponds v e named free) n.held? n'.held? := by
  have hparts := h.parts he fun _ => isOpen_of_isWrapper hwrapper
  rw [Node.held?, Node.held?, ← h.kind]
  split
  · exact rel_getLast? hparts
  · exact rel_head? hparts

/-- What is inside of casts and parentheses is kept, or is inside of a use. -/
theorem Rewrites.unwrap_cases
    (he : e.IsReferring)
    (h : Rewrites v e named free n n') :
    (free = true ∧ HoldsUse named n ∧ (∃ u, n.unwrap = u.unwrap ∧ Renames v e named u n'.unwrap)) ∨
      ∃ f, (f = true → free = true) ∧ Keeps v e named f n.unwrap n'.unwrap := by
  induction n using Node.unwrap_induction generalizing n' free with
  | held n c hwrapper hheld ih =>
    rw [Node.unwrap_of_held? hwrapper hheld]
    obtain ⟨hfree, hrenames⟩ | hkeeps := h.renames_or_keeps
    · have hleaf : n'.isWrapper = false := by rw [Node.isWrapper, hrenames.kind]
      refine .inl ⟨hfree, .here hrenames.isUse, n, (Node.unwrap_of_held? hwrapper hheld).symm, ?_⟩
      rwa [Node.unwrap_of_not_isWrapper hleaf]
    · have hheld' := hkeeps.held? he hwrapper
      rw [hheld] at hheld'
      generalize hc : n'.held? = o at hheld'
      cases hheld' with
      | some hchild =>
        rw [Node.unwrap_of_held? (hkeeps.isWrapper_eq ▸ hwrapper) hc]
        have hor {b : Bool} (hb : (free && b) = true) : free = true := (Bool.and_eq_true_iff.1 hb).1
        obtain ⟨hfree, huse, hrenames⟩ | ⟨f, hf, hkeeps⟩ := ih hchild.2
        · exact .inl ⟨hor hfree, .inside hwrapper hheld huse, hrenames⟩
        · exact .inr ⟨f, fun hb => hor (hf hb), hkeeps⟩
  | empty n hwrapper hheld =>
    rw [Node.unwrap_of_held?_eq_none hheld]
    obtain ⟨hfree, hrenames⟩ | hkeeps := h.renames_or_keeps
    · have hleaf : n'.isWrapper = false := by rw [Node.isWrapper, hrenames.kind]
      refine .inl ⟨hfree, .here hrenames.isUse, n, (Node.unwrap_of_held?_eq_none hheld).symm, ?_⟩
      rwa [Node.unwrap_of_not_isWrapper hleaf]
    · have hheld' := hkeeps.held? he hwrapper
      rw [hheld] at hheld'
      generalize hc : n'.held? = o at hheld'
      cases hheld' with
      | none =>
        rw [Node.unwrap_of_held?_eq_none hc]
        exact .inr ⟨free, id, hkeeps⟩
  | bare n hwrapper =>
    rw [Node.unwrap_of_not_isWrapper hwrapper]
    obtain ⟨hfree, hrenames⟩ | hkeeps := h.renames_or_keeps
    · have hleaf : n'.isWrapper = false := by rw [Node.isWrapper, hrenames.kind]
      refine .inl ⟨hfree, .here hrenames.isUse, n, (Node.unwrap_of_not_isWrapper hwrapper).symm, ?_⟩
      rwa [Node.unwrap_of_not_isWrapper hleaf]
    · rw [Node.unwrap_of_not_isWrapper (hkeeps.isWrapper_eq ▸ hwrapper)]
      exact .inr ⟨free, id, hkeeps⟩

/-- What is inside of the casts and parentheses of a copy is a copy. -/
theorem Rewrites.keeps_unwrap
    (he : e.IsReferring)
    (h : Rewrites v e named false n n') :
    Keeps v e named false n.unwrap n'.unwrap := by
  obtain ⟨hfree, -⟩ | ⟨f, hf, hkeeps⟩ := h.unwrap_cases he
  · cases hfree
  · cases f with
    | false => exact hkeeps
    | true => cases hf rfl

/-- A copy of the expression is one that is a name, a call or a member of another one. -/
theorem Renames.isReferring
    (he : e.IsReferring)
    (h : Renames v e named n n') :
    n.IsReferring := by
  rw [Node.IsReferring, ← (h.copy.keeps_unwrap he).kind]
  exact he

/-- A name other than the new one was the same name before. -/
theorem Rewrites.identifier_before
    (he : e.IsReferring)
    (h : Rewrites v e named free n n')
    (hkind : n'.unwrap.kind = .identifier)
    (hv : n'.unwrap.text ≠ v) :
    n.unwrap.kind = .identifier ∧ n.unwrap.text = n'.unwrap.text := by
  obtain ⟨-, -, u, -, hrenames⟩ | ⟨f, -, hkeeps⟩ := h.unwrap_cases he
  · cases hv hrenames.text
  · rw [← hkeeps.kind] at hkind
    exact ⟨hkind, hkeeps.text (.inr (by rw [hkind]; rfl))⟩

/-- A name stays the same name, when no name is given a name. -/
theorem Rewrites.identifier_after
    (he : e.IsReferring)
    (hne : free = true → e.unwrap.kind ≠ .identifier)
    (h : Rewrites v e named free n n')
    (hkind : n.unwrap.kind = .identifier) :
    n'.unwrap.kind = .identifier ∧ n'.unwrap.text = n.unwrap.text := by
  obtain ⟨hfree, -, u, hu, hrenames⟩ | ⟨f, -, hkeeps⟩ := h.unwrap_cases he
  · cases hne hfree ((hrenames.copy.keeps_unwrap he).kind.trans (hu ▸ hkind))
  · exact ⟨hkeeps.kind ▸ hkind, (hkeeps.text (.inr (by rw [hkind]; rfl))).symm⟩

end Unwrapping

section Values

theorem Rewrites.fragmentText_eq
    (he : e.IsReferring)
    (h : Rewrites v e named free n n') :
    n.fragmentText = n'.fragmentText := by
  have hother {m : Node} (hs : m.kind ≠ .stringFragment) (hq : m.kind ≠ .escapeSequence) :
      m.fragmentText = "" := by
    unfold Node.fragmentText
    split <;> simp_all
  by_cases hword : n.kind = .stringFragment ∨ n.kind = .escapeSequence
  · have hkeeps := h.keeps_of_kind he (.inl (by rcases hword with hk | hk <;> rw [hk] <;> rfl))
    have htext := hkeeps.text (.inr (by rcases hword with hk | hk <;> rw [hk] <;> rfl))
    rw [Node.fragmentText, Node.fragmentText, hkeeps.kind, htext]
  · rw [not_or] at hword
    rw [hother hword.1 hword.2, hother]
    · exact fun hk => hword.1 ((h.kind_eq_iff he rfl).2 hk)
    · exact fun hk => hword.2 ((h.kind_eq_iff he rfl).2 hk)

/-- The text of a string literal stays, casts and parentheses aside. -/
theorem Rewrites.stringValue?_eq
    (he : e.IsReferring)
    (h : Rewrites v e named free n n') :
    n.stringValue? = n'.stringValue? := by
  obtain ⟨-, -, u, hu, hrenames⟩ | ⟨f, -, hkeeps⟩ := h.unwrap_cases he
  · have hreferring := hrenames.isReferring he
    rw [Node.IsReferring, ← hu] at hreferring
    have hnone : n.stringValue? = none := by
      unfold Node.stringValue?
      rcases hreferring with hk | hk | hk <;> simp [hk]
    rw [hnone, Node.stringValue?]
    simp [hrenames.kind]
  · by_cases hopen : n.unwrap.kind.isOpen = true
    · simp only [Node.stringValue?, ← hkeeps.kind]
      cases hkind : n.unwrap.kind <;> simp_all [Kind.isOpen]
    · have hnamed := hkeeps.namedChildren he fun _ => by simpa using hopen
      have hfragments : n.unwrap.joinFragments = n'.unwrap.joinFragments := by
        rw [Node.joinFragments, Node.joinFragments,
          map_eq_map_of_forall₂ (hnamed.imp fun _ _ hc => hc.2.fragmentText_eq he)]
      have hsubstitution : (n.unwrap.namedChildren.any fun c => c.kind == .templateSubstitution) =
          n'.unwrap.namedChildren.any fun c => c.kind == .templateSubstitution := by
        rw [Bool.eq_iff_iff]
        have hkinds : n.unwrap.namedChildren.map (fun c => c.kind == .templateSubstitution) =
            n'.unwrap.namedChildren.map fun c => c.kind == .templateSubstitution :=
          map_eq_map_of_forall₂ (hnamed.imp fun _ _ hc => by
            rw [Bool.eq_iff_iff, beq_iff_eq, beq_iff_eq]
            exact hc.2.kind_eq_iff he rfl)
        rw [← Bool.eq_iff_iff]
        simpa [List.any_map, Function.comp_def] using congrArg (fun bs => bs.any id) hkinds
      unfold Node.stringValue?
      simp only [hkeeps.kind, hfragments, hsubstitution]

theorem Corresponds.copy
    (h : Corresponds v e named free n n')
    (hapart : n.isSetApart = true) :
    Rewrites v e named false n n' := by
  have hchild := h.2
  rwa [hapart, Bool.not_true, Bool.and_false] at hchild

/-- What is in a part in which no use stands is copied. -/
theorem Keeps.copied_child?
    (h : Keeps v e named free n n')
    {r : Role}
    (hr : r.isSetApart = true) :
    Option.Rel (Rewrites v e named false) (n.child? r) (n'.child? r) := by
  have hrel := h.child? (r := r) (.inl (by rintro rfl; cases hr))
  generalize hc : n.child? r = o at hrel
  generalize n'.child? r = o' at hrel
  cases hrel with
  | none => exact .none
  | some hcorresponds =>
    have hrole := List.find?_some hc
    exact .some (hcorresponds.copy (by rwa [Node.isSetApart, of_decide_eq_true hrole]))

/-- The parts of a copy are copies. -/
theorem Rewrites.copied_child?
    (h : Rewrites v e named false n n')
    {r : Role}
    (hr : r ≠ .body) :
    Option.Rel (Rewrites v e named false) (n.child? r) (n'.child? r) := by
  have hrel := h.keeps.child? (r := r) (.inl hr)
  generalize n.child? r = o at hrel
  generalize n'.child? r = o' at hrel
  cases hrel with
  | none => exact .none
  | some hcorresponds => exact .some hcorresponds.2

theorem Keeps.exists_copied_before
    (h : Keeps v e named free n n')
    {r : Role}
    {c' : Node}
    (hr : r.isSetApart = true)
    (hc' : n'.child? r = some c') :
    ∃ c, n.child? r = some c ∧ Rewrites v e named false c c' := by
  have hrel := h.copied_child? hr
  rw [hc'] at hrel
  generalize n.child? r = o at hrel
  cases hrel with
  | some hcopy => exact ⟨_, rfl, hcopy⟩

theorem Keeps.exists_copied_after
    (h : Keeps v e named free n n')
    {r : Role}
    {c : Node}
    (hr : r.isSetApart = true)
    (hc : n.child? r = some c) :
    ∃ c', n'.child? r = some c' ∧ Rewrites v e named false c c' := by
  have hrel := h.copied_child? hr
  rw [hc] at hrel
  generalize n'.child? r = o at hrel
  cases hrel with
  | some hcopy => exact ⟨_, rfl, hcopy⟩

/-- The text of a part in which no use stands stays. -/
theorem Keeps.map_text_child?
    (h : Keeps v e named free n n')
    {r : Role}
    (hr : r.isSetApart = true) :
    (n.child? r).map Node.text = (n'.child? r).map Node.text := by
  have hrel := h.copied_child? hr
  generalize n.child? r = o at hrel
  generalize n'.child? r = o' at hrel
  cases hrel with
  | none => rfl
  | some hcopy => exact congrArg some (hcopy.keeps.text (.inl rfl))

theorem Keeps.propertyText_eq (h : Keeps v e named free n n') : n.propertyText = n'.propertyText := by
  rw [Node.propertyText, Node.propertyText, h.map_text_child? rfl]

/-- The name of a key stays in a copy. -/
theorem Rewrites.keyName?_eq
    (he : e.IsReferring)
    (h : Rewrites v e named false n n') :
    n.keyName? = n'.keyName? := by
  have hnamed := h.keeps.namedChildren he nofun
  unfold Node.keyName?
  rw [← h.keeps.kind, ← h.stringValue?_eq he, ← h.keeps.text (.inl rfl)]
  generalize n.namedChildren = cs at hnamed
  generalize n'.namedChildren = cs' at hnamed
  cases hnamed with
  | nil => rfl
  | cons hfirst _ => simp only [hfirst.2.stringValue?_eq he, (hfirst.2.keeps).text (.inl rfl)]

/-- The arguments of a call correspond. -/
theorem Keeps.callArguments
    (he : e.IsReferring)
    (h : Keeps v e named free n n') :
    ∃ f, (f = true → free = true) ∧
      List.Forall₂ (Corresponds v e named f) n.callArguments n'.callArguments := by
  have harguments := h.child? (r := .arguments) (.inl (by decide))
  rw [Node.callArguments, Node.callArguments]
  generalize n.child? .arguments = c at harguments
  generalize n'.child? .arguments = c' at harguments
  cases harguments with
  | none => exact ⟨free, id, .nil⟩
  | @some c c' hc =>
    have hkind : c.kind = .arguments ↔ c'.kind = .arguments := hc.2.kind_eq_iff he rfl
    dsimp only
    by_cases hk : c.kind = .arguments
    · rw [if_pos (beq_iff_eq.2 hk), if_pos (beq_iff_eq.2 (hkind.1 hk))]
      have hkeeps := hc.2.keeps_of_kind he (.inl (by rw [hk]; rfl))
      exact ⟨_, fun hb => (Bool.and_eq_true_iff.1 hb).1, hkeeps.parts he fun _ => by rw [hk]; rfl⟩
    · rw [if_neg (by simpa using hk), if_neg (by simpa [hkind] using hk)]
      exact ⟨free, id, .nil⟩

end Values

end RouteAtlas.Syntax
