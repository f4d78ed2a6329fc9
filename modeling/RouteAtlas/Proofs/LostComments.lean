import Mathlib
import RouteAtlas.Syntax.Static

/-!
# Trees that lose comments

A tree loses comments when some of its comments are taken out and everything else stays, the texts of
the nodes included. Which comments may go is said by the place where they stand: the construct that a
comment is a part of, and whether another part of that construct comes before it.

All that skips comments by itself reads the same in both trees. This module goes through what is read
off an expression without running it, and finds two readers that do not skip them: a comment among the
elements of an array is an element without a value, and a comment that comes first between the brackets
of a computed key is taken for the key.
-/

namespace RouteAtlas.Syntax

section Losing

/-- Where a comment stands: the construct that it is a part of, and whether another part of the
construct, itself no comment, comes before it. -/
structure Place where
  parent : Kind
  afterPart : Bool
  deriving DecidableEq

/-- The place behind a child. -/
def Place.behind
    (p : Place)
    (c : Node) :
    Place :=
  { p with afterPart := p.afterPart || (c.isNamed && !c.isComment) }

/-- The children of a node, the first of them at a place, lose comments that stand at the given places;
those that stay are related. A comment plays no part in the construct around it. -/
inductive Thinned
    (related : Node → Node → Prop)
    (places : Place → Prop) :
    Place → List Node → List Node → Prop
  | nil {p : Place} :
      Thinned related places p [] []
  | keep
      {p : Place}
      {c c' : Node}
      {cs cs' : List Node}
      (hchild : related c c')
      (hrest : Thinned related places (p.behind c) cs cs') :
      Thinned related places p (c :: cs) (c' :: cs')
  | drop
      {p : Place}
      {c : Node}
      {cs cs' : List Node}
      (hcomment : c.kind = .comment)
      (hrole : c.role = none)
      (hplace : places p)
      (hrest : Thinned related places p cs cs') :
      Thinned related places p (c :: cs) cs'

/-- The second tree is the first without some of the comments that stand at the given places. -/
inductive LosesComments (places : Place → Prop) : Node → Node → Prop
  | mk
      {kind : Kind}
      {role : Option Role}
      {span : Span}
      {text : String}
      {children children' : List Node}
      (hchildren : Thinned (LosesComments places) places ⟨kind, false⟩ children children') :
      LosesComments places (.mk kind role span text children) (.mk kind role span text children')

/-- A reader of trees pays no attention to comments at the given places. -/
def Unaffected
    {α : Type}
    (places : Place → Prop)
    (read : Node → α) :
    Prop :=
  ∀ e e', LosesComments places e e' → read e = read e'

/-- The places of comments that are taken for something else. -/
def Place.Noticed (p : Place) : Prop :=
  p.parent = .array ∨ p = ⟨.computedPropertyName, false⟩

end Losing

namespace Node

section Unwrapping

theorem unwrap_unwrap (n : Node) : n.unwrap.unwrap = n.unwrap := by
  induction n using unwrap_induction with
  | held n c hwrapper hheld ih => rwa [unwrap_of_held? hwrapper hheld]
  | empty n _ hheld => rw [unwrap_of_held?_eq_none hheld, unwrap_of_held?_eq_none hheld]
  | bare n hbare => rw [unwrap_of_not_isWrapper hbare, unwrap_of_not_isWrapper hbare]

end Unwrapping

section SkippedComments

/-- Where comments give nothing, the named children give what the parts give. -/
theorem filterMap_namedChildren
    {α : Type}
    {f : Node → Option α}
    (hcomment : ∀ c, c.kind = .comment → f c = none)
    (n : Node) :
    n.namedChildren.filterMap f = n.parts.filterMap f := by
  rw [parts, List.filterMap_filter]
  refine List.filterMap_congr fun c _ => ?_
  by_cases hc : c.kind = .comment
  · simp [hcomment c hc]
  · simp [isComment, hc]

theorem joinFragments_eq_parts (n : Node) :
    n.joinFragments = String.join (n.parts.map fragmentText) := by
  simp only [joinFragments, parts]
  induction n.namedChildren with
  | nil => rfl
  | cons c rest ih =>
    by_cases hc : c.kind = .comment
    · rw [List.filter_cons_of_neg (by simp [isComment, hc]), List.map_cons, String.join_cons, ih]
      simp [fragmentText, hc]
    · rw [List.filter_cons_of_pos (by simp [isComment, hc]), List.map_cons, List.map_cons,
        String.join_cons, String.join_cons, ih]

/-- No comment is of another kind. -/
theorem any_kind_namedChildren
    {k : Kind}
    (hk : k ≠ .comment)
    (n : Node) :
    (n.namedChildren.any fun c => c.kind == k) = n.parts.any fun c => c.kind == k := by
  rw [parts, List.any_filter]
  congr 1
  funext c
  by_cases hc : c.kind = k
  · simp [isComment, hc, hk]
  · simp [hc]

end SkippedComments

section Bounds

theorem count_lt_of_mem_namedChildren
    {n c : Node}
    (h : c ∈ n.namedChildren) :
    c.count < n.count :=
  count_lt_of_mem (List.mem_of_mem_filter h)

theorem count_lt_of_mem_parts
    {n c : Node}
    (h : c ∈ n.parts) :
    c.count < n.count :=
  count_lt_of_mem (mem_children_of_mem_parts h)

/-- The value of a property has fewer nodes than the object. -/
theorem count_lt_of_mem_properties
    {n : Node}
    {p : Property}
    (h : p ∈ n.properties) :
    p.value.count < n.count := by
  simp only [properties] at h
  split at h
  · obtain ⟨c, hc, hp⟩ := List.mem_filterMap.1 h
    have hchild := Nat.lt_of_lt_of_le (count_lt_of_mem_namedChildren hc) (count_unwrap_le n)
    refine Nat.lt_of_le_of_lt ?_ hchild
    unfold property? at hp
    split at hp
    · split at hp
      · next hvalue => cases hp; exact Nat.le_of_lt (count_lt_of_child? hvalue)
      · cases hp
    · cases hp; exact Nat.le_refl _
    · cases hp
  · simp at h

end Bounds

end Node

section Lists

variable {α β γ : Type}

theorem map_eq_map_of_forall₂
    {f : α → γ}
    {g : β → γ}
    {as : List α}
    {bs : List β}
    (h : List.Forall₂ (fun a b => f a = g b) as bs) :
    as.map f = bs.map g := by
  induction h with
  | nil => rfl
  | cons hfirst hrest ih => rw [List.map_cons, List.map_cons, hfirst, ih]

theorem filterMap_eq_filterMap_of_forall₂
    {f : α → Option γ}
    {g : β → Option γ}
    {as : List α}
    {bs : List β}
    (h : List.Forall₂ (fun a b => f a = g b) as bs) :
    as.filterMap f = bs.filterMap g := by
  induction h with
  | nil => rfl
  | cons hfirst hrest ih => rw [List.filterMap_cons, List.filterMap_cons, hfirst, ih]

theorem mapM_eq_mapM_of_forall₂
    {m : Type → Type}
    [Monad m]
    [LawfulMonad m]
    {f : α → m γ}
    {g : β → m γ}
    {as : List α}
    {bs : List β}
    (h : List.Forall₂ (fun a b => f a = g b) as bs) :
    as.mapM f = bs.mapM g := by
  induction h with
  | nil => rfl
  | cons hfirst hrest ih => rw [List.mapM_cons, List.mapM_cons, hfirst, ih]

theorem forall₂_and
    {P : α → Prop}
    {Q : β → Prop}
    {R : α → β → Prop}
    {as : List α}
    {bs : List β}
    (hleft : ∀ a ∈ as, P a)
    (hright : ∀ b ∈ bs, Q b)
    (h : List.Forall₂ R as bs) :
    List.Forall₂ (fun a b => P a ∧ Q b ∧ R a b) as bs := by
  induction h with
  | nil => exact .nil
  | cons hfirst hrest ih =>
    rw [List.forall_mem_cons] at hleft hright
    exact .cons ⟨hleft.1, hright.1, hfirst⟩ (ih hleft.2 hright.2)

theorem rel_head?
    {R : α → β → Prop}
    {as : List α}
    {bs : List β}
    (h : List.Forall₂ R as bs) :
    Option.Rel R as.head? bs.head? := by
  cases h with
  | nil => exact .none
  | cons hfirst hrest => exact .some hfirst

theorem rel_getLast?
    {R : α → β → Prop}
    {as : List α}
    {bs : List β}
    (h : List.Forall₂ R as bs) :
    Option.Rel R as.getLast? bs.getLast? := by
  rw [← List.head?_reverse, ← List.head?_reverse]
  exact rel_head? (List.rel_reverse h)

theorem exists_of_forall₂_of_mem_right
    {R : α → β → Prop}
    {as : List α}
    {bs : List β}
    (h : List.Forall₂ R as bs)
    {b : β}
    (hb : b ∈ bs) :
    ∃ a ∈ as, R a b := by
  induction h with
  | nil => cases hb
  | @cons a b' rest rest' hfirst _ ih =>
    rcases List.mem_cons.1 hb with rfl | hb
    · exact ⟨a, List.mem_cons_self .., hfirst⟩
    · obtain ⟨c, hc, hR⟩ := ih hb
      exact ⟨c, List.mem_cons_of_mem _ hc, hR⟩

theorem exists_of_forall₂_of_mem_left
    {R : α → β → Prop}
    {as : List α}
    {bs : List β}
    (h : List.Forall₂ R as bs)
    {a : α}
    (ha : a ∈ as) :
    ∃ b ∈ bs, R a b :=
  exists_of_forall₂_of_mem_right h.flip ha

end Lists

namespace LosesComments

variable {places : Place → Prop} {e e' : Node}

section Parts

theorem kind_eq (h : LosesComments places e e') : e.kind = e'.kind := by
  cases h
  rfl

theorem role_eq (h : LosesComments places e e') : e.role = e'.role := by
  cases h
  rfl

theorem text_eq (h : LosesComments places e e') : e.text = e'.text := by
  cases h
  rfl

theorem thinned (h : LosesComments places e e') :
    Thinned (LosesComments places) places ⟨e.kind, false⟩ e.children e'.children := by
  cases h with
  | mk hchildren => exact hchildren

theorem isNamed_eq (h : LosesComments places e e') : e.isNamed = e'.isNamed := by
  rw [Node.isNamed, Node.isNamed, h.kind_eq]

theorem isComment_eq (h : LosesComments places e e') : e.isComment = e'.isComment := by
  rw [Node.isComment, Node.isComment, h.kind_eq]

theorem isWrapper_eq (h : LosesComments places e e') : e.isWrapper = e'.isWrapper := by
  rw [Node.isWrapper, Node.isWrapper, h.kind_eq]

end Parts

end LosesComments

namespace Thinned

variable {places : Place → Prop} {p : Place} {cs cs' : List Node}

/-- What is neither token nor comment stays. -/
theorem parts (h : Thinned (LosesComments places) places p cs cs') :
    List.Forall₂ (LosesComments places)
      ((cs.filter Node.isNamed).filter fun c => !c.isComment)
      ((cs'.filter Node.isNamed).filter fun c => !c.isComment) := by
  simp only [List.filter_filter]
  induction h with
  | nil => exact .nil
  | keep hchild hrest ih =>
    rw [List.filter_cons, List.filter_cons, ← hchild.isComment_eq, ← hchild.isNamed_eq]
    split
    · exact .cons hchild ih
    · exact ih
  | drop hcomment hrole hplace hrest ih =>
    rwa [List.filter_cons_of_neg (by simp [Node.isComment, hcomment])]

/-- What plays a part in the construct stays. -/
theorem find?_role
    (h : Thinned (LosesComments places) places p cs cs')
    (r : Role) :
    Option.Rel (LosesComments places)
      (cs.find? fun c => c.role = some r) (cs'.find? fun c => c.role = some r) := by
  induction h with
  | nil => exact .none
  | keep hchild hrest ih =>
    rw [List.find?_cons, List.find?_cons, ← hchild.role_eq]
    split
    · exact .some hchild
    · exact ih
  | drop hcomment hrole hplace hrest ih =>
    rwa [List.find?_cons_of_neg (by simp [hrole])]

/-- All that is more than a token stays where no comment may go. -/
theorem named
    (h : Thinned (LosesComments places) places p cs cs')
    (hstay : ∀ late, ¬ places ⟨p.parent, late⟩) :
    List.Forall₂ (LosesComments places) (cs.filter Node.isNamed) (cs'.filter Node.isNamed) := by
  induction h with
  | nil => exact .nil
  | keep hchild hrest ih =>
    rw [List.filter_cons, List.filter_cons, ← hchild.isNamed_eq]
    split
    · exact .cons hchild (ih hstay)
    · exact ih hstay
  | drop hcomment hrole hplace hrest ih => exact absurd hplace (hstay _)

/-- What comes first stays where no comment before the first part may go. -/
theorem head?_named
    (h : Thinned (LosesComments places) places p cs cs')
    (hearly : p.afterPart = false)
    (hstay : ¬ places ⟨p.parent, false⟩) :
    Option.Rel (LosesComments places)
      (cs.filter Node.isNamed).head? (cs'.filter Node.isNamed).head? := by
  induction h with
  | nil => exact .none
  | @keep p c c' cs cs' hchild hrest ih =>
    rw [List.filter_cons, List.filter_cons, ← hchild.isNamed_eq]
    split
    · exact .some hchild
    · next hnamed => exact ih (by simp [Place.behind, hearly, hnamed]) hstay
  | drop hcomment hrole hplace hrest ih =>
    rw [← hearly] at hstay
    exact absurd hplace hstay

/-- A list of children that are all related to themselves loses nothing. -/
theorem of_forall_mem
    {related : Node → Node → Prop}
    {cs : List Node}
    (h : ∀ c ∈ cs, related c c)
    (p : Place) :
    Thinned related places p cs cs := by
  induction cs generalizing p with
  | nil => exact .nil
  | cons c rest ih =>
    rw [List.forall_mem_cons] at h
    exact .keep h.1 (ih h.2 _)

end Thinned

namespace LosesComments

variable {places : Place → Prop} {e e' : Node}

/-- A tree may lose no comment at all. -/
protected theorem refl (e : Node) : LosesComments places e e := by
  cases e with
  | mk => exact .mk (Thinned.of_forall_mem (fun c _ => LosesComments.refl c) _)
  termination_by e.count
  decreasing_by exact Node.count_lt_of_mem ‹_›

section Views

/-- The parts of a node are those of the other, one after the other. -/
theorem parts (h : LosesComments places e e') :
    List.Forall₂ (LosesComments places) e.parts e'.parts :=
  h.thinned.parts

theorem namedChildren
    (h : LosesComments places e e')
    (hstay : ∀ late, ¬ places ⟨e.kind, late⟩) :
    List.Forall₂ (LosesComments places) e.namedChildren e'.namedChildren :=
  h.thinned.named hstay

theorem head?_namedChildren
    (h : LosesComments places e e')
    (hstay : ¬ places ⟨e.kind, false⟩) :
    Option.Rel (LosesComments places) e.namedChildren.head? e'.namedChildren.head? :=
  h.thinned.head?_named rfl hstay

theorem child?
    (h : LosesComments places e e')
    (r : Role) :
    Option.Rel (LosesComments places) (e.child? r) (e'.child? r) :=
  h.thinned.find?_role r

/-- What a wrapper holds stays. -/
theorem held? (h : LosesComments places e e') :
    Option.Rel (LosesComments places) e.held? e'.held? := by
  rw [Node.held?, Node.held?, ← h.kind_eq]
  split
  · exact rel_getLast? h.parts
  · exact rel_head? h.parts

/-- Casts and parentheses are taken off together. -/
theorem unwrap (h : LosesComments places e e') : LosesComments places e.unwrap e'.unwrap := by
  induction e using Node.unwrap_induction generalizing e' with
  | held e c hwrapper hheld ih =>
    have hheld' := h.held?
    rw [hheld] at hheld'
    generalize hc : e'.held? = o at hheld'
    cases hheld' with
    | some hchild =>
      rw [Node.unwrap_of_held? hwrapper hheld, Node.unwrap_of_held? (h.isWrapper_eq ▸ hwrapper) hc]
      exact ih hchild
  | empty e _ hheld =>
    have hheld' := h.held?
    rw [hheld] at hheld'
    generalize hc : e'.held? = o at hheld'
    cases hheld' with
    | none => rwa [Node.unwrap_of_held?_eq_none hheld, Node.unwrap_of_held?_eq_none hc]
  | bare e hbare =>
    rwa [Node.unwrap_of_not_isWrapper hbare, Node.unwrap_of_not_isWrapper (h.isWrapper_eq ▸ hbare)]

end Views

section Values

theorem fragmentText_eq (h : LosesComments places e e') : e.fragmentText = e'.fragmentText := by
  rw [Node.fragmentText, Node.fragmentText, h.kind_eq, h.text_eq]

theorem joinFragments_eq (h : LosesComments places e e') :
    e.joinFragments = e'.joinFragments := by
  rw [Node.joinFragments_eq_parts, Node.joinFragments_eq_parts,
    map_eq_map_of_forall₂ (h.parts.imp fun _ _ hc => hc.fragmentText_eq)]

theorem any_kind_namedChildren_eq
    (h : LosesComments places e e')
    {k : Kind}
    (hk : k ≠ .comment) :
    (e.namedChildren.any fun c => c.kind == k) = e'.namedChildren.any fun c => c.kind == k := by
  have hkinds : e.parts.map Node.kind = e'.parts.map Node.kind :=
    map_eq_map_of_forall₂ (h.parts.imp fun _ _ hc => hc.kind_eq)
  have hany := congrArg (fun kinds => kinds.any (· == k)) hkinds
  simp only [List.any_map] at hany
  rw [Node.any_kind_namedChildren hk, Node.any_kind_namedChildren hk]
  exact hany

theorem stringValue?_eq (h : LosesComments places e e') :
    e.stringValue? = e'.stringValue? := by
  have hunwrap := h.unwrap
  simp only [Node.stringValue?, hunwrap.kind_eq, hunwrap.joinFragments_eq,
    hunwrap.any_kind_namedChildren_eq (show Kind.templateSubstitution ≠ .comment by decide)]

theorem literalValue?_eq (h : LosesComments places e e') :
    e.literalValue? = e'.literalValue? := by
  have hunwrap := h.unwrap
  have hoperator := hunwrap.child? .operator
  have hargument := hunwrap.child? .argument
  simp only [Node.literalValue?, hunwrap.kind_eq, hunwrap.text_eq, hunwrap.stringValue?_eq]
  generalize e.unwrap.child? .operator = o at hoperator
  generalize e'.unwrap.child? .operator = o' at hoperator
  generalize e.unwrap.child? .argument = a at hargument
  generalize e'.unwrap.child? .argument = a' at hargument
  cases hoperator with
  | none => rfl
  | some hoperator =>
    cases hargument with
    | none => rfl
    | some hargument => simp only [hoperator.text_eq, hargument.kind_eq, hargument.text_eq]

/-- Keys read the same unless a comment that is lost comes first in the brackets of a computed key. -/
theorem keyName?_eq
    (h : LosesComments places e e')
    (hkeys : ¬ places ⟨.computedPropertyName, false⟩) :
    e.keyName? = e'.keyName? := by
  by_cases hcomputed : e.kind = .computedPropertyName
  · have hfirst := h.head?_namedChildren (by rwa [hcomputed])
    simp only [Node.keyName?, ← h.kind_eq, hcomputed]
    generalize e.namedChildren = cs at hfirst
    generalize e'.namedChildren = cs' at hfirst
    cases cs <;> cases cs' <;> cases hfirst
    · rfl
    · next hfirst => simp only [hfirst.stringValue?_eq, hfirst.text_eq]
  · simp only [Node.keyName?, ← h.kind_eq, h.stringValue?_eq, h.text_eq]
    split <;> first | rfl | contradiction

end Values

section Entries

/-- Two properties have one name, and values of which the second loses comments. -/
structure OfProperty
    (places : Place → Prop)
    (p p' : Node.Property) :
    Prop where
  name_eq : p.name = p'.name
  value : LosesComments places p.value p'.value

theorem property?
    (h : LosesComments places e e')
    (hkeys : ¬ places ⟨.computedPropertyName, false⟩) :
    Option.Rel (OfProperty places) e.property? e'.property? := by
  have hkey := h.child? .key
  have hvalue := h.child? .value
  simp only [Node.property?, ← h.kind_eq, ← h.text_eq]
  split
  · generalize e.child? .key = k at hkey
    generalize e'.child? .key = k' at hkey
    generalize e.child? .value = v at hvalue
    generalize e'.child? .value = v' at hvalue
    cases hkey with
    | none => exact .none
    | @some key key' hkey =>
      simp only [Option.bind_some, ← hkey.keyName?_eq hkeys]
      cases hname : key.keyName? with
      | none => exact .none
      | some name =>
        cases hvalue with
        | none => exact .none
        | some hvalue => exact .some ⟨rfl, hvalue⟩
  · exact .some ⟨rfl, h⟩
  · exact .none

/-- An object has the same properties, one after the other. -/
theorem properties
    (h : LosesComments places e e')
    (hkeys : ¬ places ⟨.computedPropertyName, false⟩) :
    List.Forall₂ (OfProperty places) e.properties e'.properties := by
  have hunwrap := h.unwrap
  simp only [Node.properties, ← hunwrap.kind_eq]
  split
  · have hcomment : ∀ c : Node, c.kind = .comment → c.property? = none := by
      intro c hc
      simp [Node.property?, hc]
    rw [Node.filterMap_namedChildren hcomment, Node.filterMap_namedChildren hcomment]
    exact List.rel_filterMap (fun _ _ hc => hc.property? hkeys) hunwrap.parts
  · exact .nil

theorem propertyValue?
    (h : LosesComments places e e')
    (hkeys : ¬ places ⟨.computedPropertyName, false⟩)
    (name : String) :
    Option.Rel (LosesComments places) (e.propertyValue? name) (e'.propertyValue? name) := by
  have hproperties := h.properties hkeys
  simp only [Node.propertyValue?]
  generalize e.properties = ps at hproperties
  generalize e'.properties = ps' at hproperties
  induction hproperties with
  | nil => exact .none
  | cons hfirst hrest ih =>
    rw [List.find?_cons, List.find?_cons, ← hfirst.name_eq]
    split
    · exact .some hfirst.value
    · exact ih

theorem map_name_properties
    (h : LosesComments places e e')
    (hkeys : ¬ places ⟨.computedPropertyName, false⟩) :
    e.properties.map Node.Property.name = e'.properties.map Node.Property.name :=
  map_eq_map_of_forall₂ ((h.properties hkeys).imp fun _ _ hp => hp.name_eq)

end Entries

section Calls

theorem propertyText_eq (h : LosesComments places e e') : e.propertyText = e'.propertyText := by
  have hproperty := h.child? .property
  simp only [Node.propertyText]
  generalize e.child? .property = o at hproperty
  generalize e'.child? .property = o' at hproperty
  cases hproperty with
  | none => rfl
  | some hproperty => simp only [Option.map_some, hproperty.text_eq]

/-- A call has the same arguments, one after the other. -/
theorem callArguments (h : LosesComments places e e') :
    List.Forall₂ (LosesComments places) e.callArguments e'.callArguments := by
  have harguments := h.child? .arguments
  simp only [Node.callArguments]
  generalize e.child? .arguments = o at harguments
  generalize e'.child? .arguments = o' at harguments
  cases harguments with
  | none => exact .nil
  | some harguments =>
    simp only [← harguments.kind_eq]
    split
    · exact harguments.parts
    · exact .nil

end Calls

section StaticValues

/-- Static values are the same where neither elements of arrays nor keys in brackets lose comments, for
any two bounds that the nesting stays below. -/
theorem staticUpTo_eq
    (hplaces : ∀ p, places p → ¬ p.Noticed) :
    ∀ {depth depth' : Nat} {e e' : Node}, LosesComments places e e' →
      e.count < depth → e'.count < depth' →
      Node.staticUpTo depth e = Node.staticUpTo depth' e' := by
  intro depth
  induction depth with
  | zero => intro depth' e e' h hdepth; omega
  | succ depth ih =>
    intro depth' e e' h hdepth hdepth'
    obtain _ | depth' := depth'
    · omega
    have hunwrap := h.unwrap
    have hcount := Nat.le_trans e.count_unwrap_le (Nat.le_of_lt_succ hdepth)
    have hcount' := Nat.le_trans e'.count_unwrap_le (Nat.le_of_lt_succ hdepth')
    simp only [Node.staticUpTo, ← hunwrap.kind_eq]
    split
    · next harray =>
      have hchildren := hunwrap.namedChildren fun late hlate => hplaces _ hlate (.inl harray)
      have hvalues := (forall₂_and (fun c => Node.count_lt_of_mem_namedChildren)
        (fun c => Node.count_lt_of_mem_namedChildren) hchildren).imp fun c c' hc =>
          ih hc.2.2 (Nat.lt_of_lt_of_le hc.1 hcount) (Nat.lt_of_lt_of_le hc.2.1 hcount')
      rw [mapM_eq_mapM_of_forall₂ hvalues]
    · next hobject =>
      have hproperties := hunwrap.properties fun hkey => hplaces _ hkey (.inr rfl)
      have hentries := (forall₂_and (fun p => Node.count_lt_of_mem_properties)
        (fun p => Node.count_lt_of_mem_properties) hproperties).imp fun p p' hp =>
          congrArg₂ (fun (v : Option Value) name => v.map fun v => (name, v))
            (ih hp.2.2.value (Nat.lt_of_lt_of_le hp.1 hcount) (Nat.lt_of_lt_of_le hp.2.1 hcount'))
            hp.2.2.name_eq
      rw [mapM_eq_mapM_of_forall₂ hentries]
    · exact hunwrap.literalValue?_eq

theorem staticValue?_eq
    (hplaces : ∀ p, places p → ¬ p.Noticed)
    (h : LosesComments places e e') :
    e.staticValue? = e'.staticValue? :=
  staticUpTo_eq hplaces h (Nat.lt_succ_self _) (Nat.lt_succ_self _)

end StaticValues

end LosesComments

end RouteAtlas.Syntax
