import Mathlib
import RouteAtlas.Proofs.InheritedFields
import RouteAtlas.Proofs.TypeArguments

/-!
# Uses of generic types

A use of a generic alias or interface is read as the body of the declaration in which every parameter stands
for the argument that is given for it, as it is read where the use stands: no declaration of either file gets
in between. The members of the body are read later, and their types denote what they denote with the
arguments in the place of the parameters; so the example of the use is that of any declaration in which they
are written out.

Classes are different. Their members are read where no type parameter is in force.
-/

namespace RouteAtlas

open Syntax
open Project (Scope Found)

namespace Shape

section Occurrences

variable {scope : Scope}

/-- The name of a type parameter. -/
def parameterName? (q : Node) : Option String :=
  (q.child? .name).map Node.text

/-- The parameter at a place in the list is the last one of its name. -/
def IsParameterAt
    (qs : List Node)
    (i : Nat)
    (x : String) :
    Prop :=
  qs[i]?.bind parameterName? = some x ∧ ∀ j, i < j → qs[j]?.bind parameterName? ≠ some x

theorem parameterName?_of_mem_argumentsFor
    {p : Place}
    {qs args : List Node}
    {e : String × Argument}
    (h : e ∈ p.argumentsFor qs args) :
    ∃ i : Nat, qs[i]?.bind parameterName? = some e.1 := by
  induction qs generalizing args with
  | nil => cases h
  | cons q rest ih =>
    unfold Place.argumentsFor at h
    cases hname : q.child? .name with
    | none =>
      simp only [hname] at h
      obtain ⟨i, hi⟩ := ih h
      exact ⟨i + 1, hi⟩
    | some name =>
      simp only [hname, List.mem_cons] at h
      rcases h with rfl | h
      · exact ⟨0, by simp [parameterName?, hname]⟩
      · obtain ⟨i, hi⟩ := ih h
        exact ⟨i + 1, hi⟩

/-- A parameter stands for the argument at the same place in the list. -/
theorem find?_argumentsFor
    {p : Place}
    {qs args : List Node}
    {i : Nat}
    {x : String}
    {a : Node}
    (hx : IsParameterAt qs i x)
    (ha : args[i]? = some a) :
    ((p.argumentsFor qs args).reverse.find? fun e => e.1 == x).map Prod.snd =
      some (.given p.open_ p.file p.params a) := by
  induction qs generalizing args i with
  | nil => simp [IsParameterAt] at hx
  | cons q rest ih =>
    obtain ⟨hx, hlast⟩ := hx
    cases i with
    | zero =>
      obtain ⟨name, hname, rfl⟩ := Option.map_eq_some_iff.1 (show parameterName? q = some x from hx)
      obtain ⟨b, more, rfl⟩ : ∃ b more, args = b :: more := by
        cases args with
        | nil => cases ha
        | cons b more => exact ⟨b, more, rfl⟩
      obtain rfl : b = a := Option.some.inj ha
      have hnone : (p.argumentsFor rest more).reverse.find? (fun e => e.1 == name.text) = none := by
        rw [List.find?_eq_none]
        intro e he heq
        obtain ⟨j, hj⟩ := parameterName?_of_mem_argumentsFor (List.mem_reverse.1 he)
        exact hlast (j + 1) (Nat.succ_pos j) (by simpa [beq_iff_eq.1 heq] using hj)
      rw [Place.argumentsFor]
      simp only [hname, List.tail_cons, List.reverse_cons, List.find?_append, hnone, Option.none_or]
      simp
    | succ i =>
      have ha' : args.tail[i]? = some a := by rwa [List.getElem?_tail]
      have hrest := ih ⟨hx, fun j hj => hlast (j + 1) (Nat.succ_lt_succ hj)⟩ ha'
      obtain ⟨e, he, hargument⟩ := Option.map_eq_some_iff.1 hrest
      unfold Place.argumentsFor
      cases q.child? .name with
      | none => exact hrest
      | some name => simp only [List.reverse_cons, List.find?_append, he, Option.some_or, Option.map_some,
          hargument]

/-- A type parameter denotes what the argument denotes that it stands for, and nothing else. -/
theorem formDenotes_parameter_iff
    {q p : Place}
    {x t : String}
    {a : Node}
    {args : List Node}
    {word : Option Shape}
    (hentry : entryOf? x q.params = some (.given p.open_ p.file p.params a))
    (s : Shape) :
    FormDenotes scope q (.name x t args word) s ↔ Denotes scope p a s := by
  constructor
  · intro h
    cases h with
    | parameter hname h =>
      obtain ⟨rfl, rfl, rfl, rfl⟩ := Argument.given.inj (Option.some.inj (hentry.symm.trans hname))
      exact h
    | default hname | word hname | predefined hname | declared hname => cases hentry.symm.trans hname
  · exact fun h => .parameter hentry h

/-- An occurrence of a name in a file: an identifier. -/
def IsOccurrence
    (o : Node)
    (x : String) :
    Prop :=
  (o.kind = .typeIdentifier ∨ o.kind = .identifier) ∧ o.text = x

theorem formOf_of_isOccurrence
    {file : SourceFile}
    {o : Node}
    {x : String}
    (h : IsOccurrence o x) :
    formOf scope file o = .name x x [] (ofWord? x) := by
  obtain ⟨hkind, rfl⟩ := h
  rw [formOf]
  rcases hkind with hkind | hkind <;> rw [hkind]

/-- Wherever a parameter occurs in a declaration, it denotes what the argument of a use denotes where the
use stands. -/
theorem denotes_occurrence_iff
    {p : Place}
    {name x : String}
    {args : List Node}
    {found : Found}
    {i : Nat}
    {o a : Node}
    (hx : IsParameterAt (typeParametersOf found.node) i x)
    (ha : args[i]? = some a)
    (ho : IsOccurrence o x)
    (open_ : OpenNames)
    (s : Shape) :
    Denotes scope { p.enter name args found with open_ := open_ } o s ↔ Denotes scope p a s := by
  rw [Denotes, formOf_of_isOccurrence ho]
  refine formDenotes_parameter_iff (q := { p.enter name args found with open_ := open_ }) ?_ s
  rw [Place.enter, entryOf?_ofPairs, find?_argumentsFor hx ha]

end Occurrences

section Members

variable {scope : Scope} {p q : Place}

/-- Whatever the one condition allows corresponds to something that the other one allows. -/
def Correspond
    {α : Type}
    (R : α → α → Prop)
    (P Q : α → Prop) :
    Prop :=
  (∀ a, P a → ∃ b, Q b ∧ R a b) ∧ ∀ b, Q b → ∃ a, P a ∧ R a b

theorem Correspond.symm
    {α : Type}
    {R : α → α → Prop}
    (hR : ∀ a b, R a b → R b a)
    {P Q : α → Prop}
    (h : Correspond R P Q) :
    Correspond R Q P :=
  ⟨fun b hb => (h.2 b hb).imp fun _ ha => ⟨ha.1, hR _ _ ha.2⟩,
    fun a ha => (h.1 a ha).imp fun _ hb => ⟨hb.1, hR _ _ hb.2⟩⟩

theorem Correspond.congr
    {α : Type}
    {R : α → α → Prop}
    {P P' Q Q' : α → Prop}
    (hP : ∀ a, P a ↔ P' a)
    (hQ : ∀ a, Q a ↔ Q' a)
    (h : Correspond R P Q) :
    Correspond R P' Q' := by
  rwa [funext fun a => propext (hP a), funext fun a => propext (hQ a)] at h

/-- Two shapes have the same example, however deep it is written out and whatever is around. -/
def SameExample
    (scope : Scope)
    (s s' : Shape) :
    Prop :=
  ∀ depth around v, exampleWithin scope depth around s = .ok v ↔ exampleWithin scope depth around s' = .ok v

/-- Two fields have the same name, and types with the same example. -/
structure SameField
    (scope : Scope)
    (f g : Field) :
    Prop where
  name : f.name = g.name
  isMethod : f.isMethod = g.isMethod
  type : Correspond (SameExample scope) (fun s => f.shape scope = .ok s) (fun s => g.shape scope = .ok s)

/-- Two shapes have the same fields. -/
def SameFields
    (scope : Scope)
    (s s' : Shape) :
    Prop :=
  ∀ n, Correspond (List.Forall₂ (SameField scope)) (fun fs => fieldsUpTo scope n s = .ok fs)
    fun fs => fieldsUpTo scope n s' = .ok fs

/-- What the type of a member denotes; a member without a type may hold anything. -/
def TypeDenotes
    (scope : Scope)
    (p : Place) :
    Option Node → Shape → Prop
  | none, s => s = anything
  | some a, s => Denotes scope p a s

/-- A member at one place is written like a member at another one, but for its type, which denotes a shape
with the same example. -/
structure SameMember
    (scope : Scope)
    (p q : Place)
    (m m' : Node) :
    Prop where
  kind : m.kind = m'.kind
  name : Field.declaredName? m = Field.declaredName? m'
  type : Correspond (SameExample scope) (TypeDenotes scope p (m.child? .type))
    (TypeDenotes scope q (m'.child? .type))

/-- The members of an object at one place are those of an object at another one: their types denote shapes
with the same examples, and the bases denote shapes with the same fields. -/
inductive SameContent
    (scope : Scope)
    (p q : Place) :
    Fields → Fields → Prop
  | ofBody
      {body body' : Node}
      {bound bound' : List (String × Shape)}
      (h : Stands scope p.params bound)
      (h' : Stands scope q.params bound')
      (hmembers : List.Forall₂ (SameMember scope p.members q.members)
        (Field.membersOf (some body)) (Field.membersOf (some body'))) :
      SameContent scope p q (.ofBody body p.file bound) (.ofBody body' q.file bound')
  | ofInterface
      {d d' : Node}
      {bound bound' : List (String × Shape)}
      (h : Stands scope p.params bound)
      (h' : Stands scope q.params bound')
      (hbases : List.Forall₂
        (fun b b' => Correspond (SameFields scope) (Denotes scope p.members b) (Denotes scope q.members b'))
        (basesOf d) (basesOf d'))
      (hmembers : List.Forall₂ (SameMember scope p.members q.members)
        (Field.membersOf (d.child? .body)) (Field.membersOf (d'.child? .body))) :
      SameContent scope p q (.ofInterface d p.file bound) (.ofInterface d' q.file bound')

theorem SameExample.symm
    {s s' : Shape}
    (h : SameExample scope s s') :
    SameExample scope s' s :=
  fun depth around v => (h depth around v).symm

theorem SameField.symm
    {f g : Field}
    (h : SameField scope f g) :
    SameField scope g f :=
  ⟨h.name.symm, h.isMethod.symm, h.type.symm fun _ _ => SameExample.symm⟩

theorem SameFields.symm
    {s s' : Shape}
    (h : SameFields scope s s') :
    SameFields scope s' s :=
  fun n => (h n).symm fun _ _ hfs => hfs.flip.imp fun _ _ => SameField.symm

theorem SameMember.symm
    {m m' : Node}
    (h : SameMember scope p q m m') :
    SameMember scope q p m' m :=
  ⟨h.kind.symm, h.name.symm, h.type.symm fun _ _ => SameExample.symm⟩

theorem SameContent.symm
    {fields fields' : Fields}
    (h : SameContent scope p q fields fields') :
    SameContent scope q p fields' fields := by
  cases h with
  | ofBody h h' hmembers => exact .ofBody h' h (hmembers.flip.imp fun _ _ => SameMember.symm)
  | ofInterface h h' hbases hmembers =>
    exact .ofInterface h' h (hbases.flip.imp fun _ _ => Correspond.symm fun _ _ => SameFields.symm)
      (hmembers.flip.imp fun _ _ => SameMember.symm)

/-- The type of a field is read as what it denotes where the members of its declaration stand. -/
theorem shape_eq_ok_iff_typeDenotes
    {bound : List (String × Shape)}
    (hbound : Stands scope p.params bound)
    (x : String)
    (optional isMethod : Bool)
    (a : Option Node)
    (s : Shape) :
    Field.shape scope ⟨x, optional, isMethod, some ⟨a, p.file, bound⟩⟩ = .ok s ↔
      TypeDenotes scope p.members a s := by
  cases a with
  | none =>
    rw [Field.shape, TypeDenotes, Except.ok.injEq, eq_comm]
  | some a => exact ofNode_eq_ok_iff_denotes (p := p.members) hbound

/-- Corresponding members declare corresponding fields, or none. -/
theorem ofSignature?_of_sameMember
    {bound bound' : List (String × Shape)}
    (hbound : Stands scope p.params bound)
    (hbound' : Stands scope q.params bound')
    {m m' : Node}
    (h : SameMember scope p.members q.members m m') :
    (Field.ofSignature? p.file bound m = none ∧ Field.ofSignature? q.file bound' m' = none) ∨
      ∃ f g, Field.ofSignature? p.file bound m = some f ∧ Field.ofSignature? q.file bound' m' = some g ∧
        SameField scope f g := by
  obtain ⟨hkind, hname, htype⟩ := h
  unfold Field.declaredName? at hname
  unfold Field.ofSignature?
  rw [← hkind] at hname ⊢
  cases hk : m.kind
  case propertySignature =>
    simp only [hk] at hname ⊢
    rw [← hname]
    cases (m.child? .name).bind Node.keyName? with
    | none => exact .inl ⟨rfl, rfl⟩
    | some x =>
      exact .inr ⟨_, _, rfl, rfl, rfl, rfl, htype.congr
        (fun s => (shape_eq_ok_iff_typeDenotes hbound _ _ _ _ s).symm)
        (fun s => (shape_eq_ok_iff_typeDenotes hbound' _ _ _ _ s).symm)⟩
  case methodSignature =>
    simp only [hk] at hname ⊢
    rw [← hname]
    cases (m.child? .name).bind Node.keyName? with
    | none => exact .inl ⟨rfl, rfl⟩
    | some x =>
      exact .inr ⟨_, _, rfl, rfl, rfl, rfl,
        ⟨fun s hs => ⟨s, hs, fun _ _ _ => Iff.rfl⟩, fun s hs => ⟨s, hs, fun _ _ _ => Iff.rfl⟩⟩⟩
  all_goals exact .inl ⟨rfl, rfl⟩

theorem forall₂_ofBody
    {bound bound' : List (String × Shape)}
    (hbound : Stands scope p.params bound)
    (hbound' : Stands scope q.params bound')
    {body body' : Option Node}
    (h : List.Forall₂ (SameMember scope p.members q.members)
      (Field.membersOf body) (Field.membersOf body')) :
    List.Forall₂ (SameField scope) (Field.ofBody p.file bound body) (Field.ofBody q.file bound' body') := by
  rw [Field.ofBody_eq, Field.ofBody_eq]
  generalize Field.membersOf body = ms at h ⊢
  generalize Field.membersOf body' = ms' at h ⊢
  induction h with
  | nil => exact .nil
  | cons hm _ ih =>
    obtain ⟨hnone, hnone'⟩ | ⟨f, g, hf, hg, hfg⟩ := ofSignature?_of_sameMember hbound hbound' hm
    · rwa [List.filterMap_cons_none hnone, List.filterMap_cons_none hnone']
    · rw [List.filterMap_cons_some hf, List.filterMap_cons_some hg]
      exact .cons hfg ih

theorem forall₂_merge
    {fs gs : List Field}
    (h : List.Forall₂ (SameField scope) fs gs) :
    List.Forall₂ (SameField scope) (Field.merge fs) (Field.merge gs) := by
  have hpairs : List.Forall₂ (EntriesAlike (SameField scope))
      (fs.map fun f => (f.name, f)) (gs.map fun g => (g.name, g)) :=
    List.rel_map (fun f g hfg => ⟨hfg.name, hfg⟩) h
  exact List.rel_map (fun e e' he => he.2) (forall₂_ofPairs hpairs)

/-- What the members of one list have corresponds to what those of another list have. -/
theorem exists_forall₂_of_forall₂
    {α β γ δ : Type}
    {R : α → β → Prop}
    {P : α → γ → Prop}
    {Q : β → δ → Prop}
    {S : γ → δ → Prop}
    {as : List α}
    {bs : List β}
    {cs : List γ}
    (hR : List.Forall₂ R as bs)
    (hP : List.Forall₂ P as cs)
    (h : ∀ a b c, R a b → P a c → ∃ d, Q b d ∧ S c d) :
    ∃ ds, List.Forall₂ Q bs ds ∧ List.Forall₂ S cs ds := by
  induction hR generalizing cs with
  | nil =>
    cases hP
    exact ⟨[], .nil, .nil⟩
  | cons hab _ ih =>
    cases hP with
    | cons hac hrest =>
      obtain ⟨d, hbd, hcd⟩ := h _ _ _ hab hac
      obtain ⟨ds, hbs, hcs⟩ := ih hrest
      exact ⟨d :: ds, .cons hbd hbs, .cons hcd hcs⟩

/-- Objects with corresponding members have corresponding fields. -/
theorem exists_fieldList_of_sameContent
    {fields fields' : Fields}
    (h : SameContent scope p q fields fields')
    (t : String)
    (name : Option String)
    {fs : List Field}
    (hfs : fieldList scope (object t name fields) = .ok fs) :
    ∃ gs, fieldList scope (object t name fields') = .ok gs ∧ List.Forall₂ (SameField scope) fs gs := by
  cases h with
  | ofBody h h' hmembers =>
    obtain rfl := Except.ok.inj hfs
    exact ⟨_, rfl, forall₂_ofBody h h' hmembers⟩
  | @ofInterface d d' bound bound' h h' hbases hmembers =>
    obtain ⟨lists, hlists, rfl⟩ := exists_lists_of_fieldsUpTo hfs
    obtain ⟨lists', hlists', hsame⟩ : ∃ lists', List.Forall₂ (fun b l =>
        (do fieldsUpTo scope (maxInheritance - 1) (← ofNode scope [] q.file bound' b)) = .ok l)
          (basesOf d') lists' ∧ List.Forall₂ (List.Forall₂ (SameField scope)) lists lists' := by
      refine exists_forall₂_of_forall₂ hbases hlists ?_
      rintro b b' l hb ⟨s, hs, hl⟩
      obtain ⟨s', hs', hfields⟩ := hb.1 s ((ofNode_eq_ok_iff_denotes (p := p.members) h).1 hs)
      obtain ⟨l', hl', hsame⟩ := (hfields _).1 l hl
      have hread : ofNode scope [] q.file bound' b' = .ok s' :=
        (ofNode_eq_ok_iff_denotes (p := q.members) h').2 hs'
      refine ⟨l', ?_, hsame⟩
      rw [hread]
      exact hl'
    have hstep := @fieldsUpTo_ofInterface scope (maxInheritance - 1) t name d' q.file bound'
    rw [mapM_eq_ok_iff_forall₂.2 hlists'] at hstep
    exact ⟨_, hstep, forall₂_merge (List.rel_append (List.rel_flatten hsame) (forall₂_ofBody h h' hmembers))⟩

/-- The entries of an example depend on the names of the fields and on the examples of their types. -/
theorem entriesOf_of_forall₂
    {depth : Nat}
    {around : List String}
    {fs gs : List Field}
    (h : List.Forall₂ (SameField scope) fs gs)
    {entries es : List (String × Value)}
    (hes : entriesOf (fun f => do exampleWithin scope depth around (← f.shape scope)) entries fs = .ok es) :
    entriesOf (fun f => do exampleWithin scope depth around (← f.shape scope)) entries gs = .ok es := by
  induction h generalizing entries with
  | nil => exact hes
  | @cons f g fs gs hfg _ ih =>
    rw [entriesOf] at hes ⊢
    rw [← hfg.name, ← hfg.isMethod]
    split at hes
    · next hskip =>
      rw [if_pos hskip]
      exact ih hes
    · next hskip =>
      rw [if_neg hskip]
      obtain ⟨v, hv, hes⟩ := exists_of_bind_eq_ok hes
      obtain ⟨s, hs, hv⟩ := exists_of_bind_eq_ok hv
      obtain ⟨s', hs', hsame⟩ := hfg.type.1 s hs
      have hstep : (do exampleWithin scope depth around (← g.shape scope)) = .ok v := by
        rw [hs']
        exact (hsame depth around v).1 hv
      rw [hstep]
      cases v with
      | none => exact ih hes
      | some v => exact ih hes

theorem exampleWithin_of_sameContent
    {fields fields' : Fields}
    (h : SameContent scope p q fields fields')
    {t : String}
    {name : Option String}
    {depth : Nat}
    {around : List String}
    {v : Option Value}
    (hv : exampleWithin scope depth around (object t name fields) = .ok v) :
    exampleWithin scope depth around (object t name fields') = .ok v := by
  cases depth with
  | zero => exact hv
  | succ n =>
    rw [exampleWithin_succ] at hv ⊢
    have hlayer : (object t name fields).layer = (object t name fields').layer := rfl
    rw [← hlayer]
    cases hl : (object t name fields).layer with
    | object t' =>
      rw [hl] at hv
      simp only at hv ⊢
      by_cases ht : around.contains t' = true
      · rwa [if_pos ht] at hv ⊢
      · rw [if_neg ht] at hv ⊢
        obtain ⟨fs, hfs, hv⟩ := exists_of_bind_eq_ok hv
        obtain ⟨es, hes, hv⟩ := exists_of_bind_eq_ok hv
        obtain ⟨gs, hgs, hsame⟩ := exists_fieldList_of_sameContent h t name hfs
        have hentries := entriesOf_of_forall₂ hsame hes
        simp only [bind, Except.bind] at hentries ⊢
        rw [hgs]
        dsimp only
        rw [hentries]
        exact hv
    | _ =>
      rw [hl] at hv
      exact hv

/-- Objects with corresponding members have the same example, if they are written by the same text. -/
theorem sameExample_of_sameContent
    {fields fields' : Fields}
    (h : SameContent scope p q fields fields')
    (t : String)
    (name : Option String) :
    SameExample scope (object t name fields) (object t name fields') :=
  fun _ _ _ => ⟨exampleWithin_of_sameContent h, exampleWithin_of_sameContent h.symm⟩

end Members

section Uses

variable {scope : Scope} {p : Place} {bound : List (String × Shape)} {n : Node} {name : String}
  {args : List Node} {ss : List Shape} {found : Found}

/-- A name with arguments is used for a declaration: the name is no type parameter and not taken for a
utility type, it is not being looked up already, and the declaration is found under it, in the file or over
an import. -/
structure UsesDeclaration
    (scope : Scope)
    (p : Place)
    (bound : List (String × Shape))
    (n : Node)
    (name : String)
    (args : List Node)
    (ss : List Shape)
    (found : Found) :
    Prop where
  written : typeName? n = some (name, args)
  stands : Stands scope p.params bound
  free : entryOf? name p.params = none
  arguments : ofNodes scope p.open_ p.file bound args = .ok ss
  declared : resolveName scope p.open_ p.file name (writtenAs n) ss = .ok (.inr found)

/-- What a use of a declaration comes to. The place of the declaration is that of the use, entered with its
arguments. -/
structure Instantiates
    (scope : Scope)
    (p : Place)
    (n : Node)
    (args : List Node)
    (found : Found)
    (inside : Place)
    (bound : List (String × Shape)) :
    Prop where
  /-- A parameter denotes what its argument denotes where the use stands. -/
  parameter : ∀ i x a o open_, IsParameterAt (typeParametersOf found.node) i x → args[i]? = some a →
    IsOccurrence o x → ∀ s, Denotes scope { inside with open_ := open_ } o s ↔ Denotes scope p a s
  /-- Types of members, and bases, are read as what they denote with the arguments for the parameters. -/
  members : ∀ m s, ofNode scope [] found.file bound m = .ok s ↔ Denotes scope inside.members m s
  /-- An alias is what its value denotes, by the text of the use. -/
  ofAlias : found.node.kind = .typeAliasDeclaration → ∀ v, found.node.child? .value = some v →
    ∀ s, Denotes scope p n s ↔ ∃ m, Denotes scope inside v m ∧ s = m.renamed (writtenAs n)
  /-- An interface is an object with its bases and members, in which the parameters are bound. -/
  ofInterface : found.node.kind = .interfaceDeclaration →
    ∀ s, Denotes scope p n s ↔ s = object (writtenAs n) none (.ofInterface found.node found.file bound)
  /-- A class is an object with its members, in which no parameter is bound. -/
  ofClass : found.node.kind = .classDeclaration ∨ found.node.kind = .abstractClassDeclaration →
    ∀ s, Denotes scope p n s ↔ s = object (writtenAs n) none (.ofClass found.node found.file)

/-- A use denotes what the declaration denotes at the place that is entered with the arguments. -/
theorem denotes_use_iff
    (h : UsesDeclaration scope p bound n name args ss found)
    (s : Shape) :
    Denotes scope p n s ↔
      FormDenotes scope (p.enter name args found) (formOfDeclaration found.file found.node (writtenAs n)) s := by
  have hinside := stands_enter h.stands h.arguments name found
  rw [← ofNode_eq_ok_iff_denotes h.stands, ← readForm_eq_ok_iff_formDenotes hinside,
    ofNode_of_typeName? h.written, ofName_eq_ok_iff (h.stands.entryOf?_eq_none h.free)]
  constructor
  · rintro ⟨ss', hss, hr | ⟨found', hr, hbody⟩⟩
    · obtain rfl := Except.ok.inj (h.arguments.symm.trans hss)
      cases h.declared.symm.trans hr
    · obtain rfl := Except.ok.inj (h.arguments.symm.trans hss)
      obtain rfl := Sum.inr.inj (Except.ok.inj (h.declared.symm.trans hr))
      exact hbody
  · exact fun hbody => ⟨ss, h.arguments, .inr ⟨found, h.declared, hbody⟩⟩

theorem formDenotes_object_iff
    {make : List (String × Shape) → Shape}
    (hbound : Stands scope p.params bound)
    (s : Shape) :
    FormDenotes scope p (.object make) s ↔ s = make bound := by
  rw [← readForm_eq_ok_iff_formDenotes hbound, readForm, Except.ok.injEq, eq_comm]

theorem formDenotes_closed_iff
    {u s : Shape} :
    FormDenotes scope p (.closed (.ok u)) s ↔ s = u := by
  constructor
  · rintro ⟨⟩
    rfl
  · rintro rfl
    exact .closed

theorem formDenotes_single_iff
    {v : Node}
    {make : List Shape → Shape}
    {s : Shape} :
    FormDenotes scope p (.composed [v] make) s ↔ ∃ m, Denotes scope p v m ∧ s = make [m] := by
  constructor
  · rintro (_ | _ | ⟨_ | ⟨hm, ⟨⟩⟩⟩)
    exact ⟨_, hm, rfl⟩
  · rintro ⟨m, hm, rfl⟩
    exact .composed (.cons hm .nil)

theorem instantiates_of_usesDeclaration
    (h : UsesDeclaration scope p bound n name args ss found) :
    Instantiates scope p n args found (p.enter name args found) (boundBy found.node ss) where
  parameter i x a o open_ hx ha ho s := denotes_occurrence_iff hx ha ho open_ s
  members m s :=
    ofNode_eq_ok_iff_denotes (p := (p.enter name args found).members)
      (stands_enter h.stands h.arguments name found)
  ofAlias hkind v hv s := by
    rw [denotes_use_iff h, formOfDeclaration, hkind]
    simp only [hv]
    exact formDenotes_single_iff
  ofInterface hkind s := by
    rw [denotes_use_iff h, formOfDeclaration, hkind]
    exact formDenotes_object_iff (stands_enter h.stands h.arguments name found) s
  ofClass hkind s := by
    rw [denotes_use_iff h, formOfDeclaration]
    rcases hkind with hkind | hkind <;> rw [hkind] <;> exact formDenotes_closed_iff

/-- A use of a generic declaration is read as what it denotes, and what it denotes is the declaration with
the arguments in the place of the parameters, unless that is a class. The example of the use is that of any
object of its text whose members are those of the declaration with the arguments in the place of the
parameters. -/
theorem use_instantiates
    (h : UsesDeclaration scope p bound n name args ss found) :
    (∀ s, ofNode scope p.open_ p.file bound n = .ok s ↔ Denotes scope p n s) ∧
      Instantiates scope p n args found (p.enter name args found) (boundBy found.node ss) ∧
      ∀ q fields fields', SameContent scope (p.enter name args found) q fields fields' →
        SameExample scope (object (writtenAs n) none fields) (object (writtenAs n) none fields') :=
  ⟨fun _ => ofNode_eq_ok_iff_denotes h.stands, instantiates_of_usesDeclaration h,
    fun _ _ _ hsame => sameExample_of_sameContent hsame (writtenAs n) none⟩

end Uses

section Boxes

/-- A file with a generic interface, a type of the name of its parameter, an interface in which the argument
is written out, and a variable. -/
def boxed : SourceFile :=
  SourceFile.ofText ⟨true, ["s", "file.ts"]⟩
    ("interface Box<T> \x7b value: T \x7d\ntype T = number;\ninterface Text \x7b value: string \x7d\n" ++
      "const x: Box<string> = null;\n")

/-- Whether the only member of a declaration without bases is a property, the type of which is one word. -/
def isBoxOf
    (kind : Kind)
    (word : String)
    (d : Node) :
    Bool :=
  d.kind == .interfaceDeclaration && (basesOf d).isEmpty &&
    match Field.membersOf (d.child? .body) with
    | [m] => m.kind == .propertySignature && Field.declaredName? m == some "value" &&
      (m.child? .type).any fun a => a.kind == .typeAscription &&
        a.parts.head?.any fun o => o.kind == kind && o.text == word
    | _ => false

/-- Whether a type is a name with the one argument `string`. -/
def isUseWithString
    (name : String)
    (n : Node) :
    Bool :=
  (typeName? n).any fun u => u.1 == name && writtenAs n == name ++ "<string>" &&
    match u.2 with
    | [a] => a.kind == .predefinedType && a.text == "string"
    | _ => false

/-- An ascription denotes what the type in it denotes. -/
theorem denotes_typeAscription_iff
    {scope : Scope}
    {p : Place}
    {n type : Node}
    (hkind : n.kind = .typeAscription)
    (htype : n.parts.head? = some type)
    (s : Shape) :
    Denotes scope p n s ↔ Denotes scope p type s := by
  obtain ⟨rest, hparts⟩ : ∃ rest, n.parts = type :: rest := List.head?_eq_some_iff.1 htype
  rw [Denotes, formOf, hkind]
  simp only [hparts, List.take_succ_cons, List.take_zero]
  rw [formDenotes_single_iff]
  constructor
  · rintro ⟨m, hm, rfl⟩
    exact hm
  · exact fun hs => ⟨s, hs, rfl⟩

/-- Types that denote the same shape, and nothing else, have the same examples. -/
theorem correspond_of_forall_iff_eq
    {scope : Scope}
    {P Q : Shape → Prop}
    {u : Shape}
    (hP : ∀ s, P s ↔ s = u)
    (hQ : ∀ s, Q s ↔ s = u) :
    Correspond (SameExample scope) P Q := by
  constructor <;> intro s hs
  · exact ⟨s, (hQ s).2 ((hP s).1 hs), fun _ _ _ => Iff.rfl⟩
  · exact ⟨s, (hP s).2 ((hQ s).1 hs), fun _ _ _ => Iff.rfl⟩

theorem ofNode_of_string
    {scope : Scope}
    {open_ : OpenNames}
    {file : SourceFile}
    {bound : List (String × Shape)}
    {a : Node}
    (hkind : a.kind = .predefinedType)
    (htext : a.text = "string") :
    ofNode scope open_ file bound a = .ok (plain .string "string") := by
  rw [ofNode, hkind, htext]
  rfl

theorem exists_of_isUseWithString
    {name : String}
    {n : Node}
    (h : isUseWithString name n = true) :
    ∃ a, typeName? n = some (name, [a]) ∧ writtenAs n = name ++ "<string>" ∧ a.kind = .predefinedType ∧
      a.text = "string" := by
  obtain ⟨⟨x, args⟩, hname, hargs⟩ := (Option.any_eq_true _ _).1 h
  simp only [Bool.and_eq_true, beq_iff_eq] at hargs
  obtain ⟨⟨rfl, htext⟩, hargs⟩ := hargs
  split at hargs
  · next a =>
    simp only [Bool.and_eq_true, beq_iff_eq] at hargs
    exact ⟨a, hname, htext, hargs.1, hargs.2⟩
  · cases hargs

/-- A name with the argument `string` is used for the declaration of that name in the file. -/
theorem usesDeclaration_of_string
    {file : SourceFile}
    {n a d : Node}
    {name : String}
    (hname : typeName? n = some (name, [a]))
    (hkind : a.kind = .predefinedType)
    (htext : a.text = "string")
    (hutility : ofUtility? name (writtenAs n) [plain .string "string"] = none)
    (hd : file.findType? name = some d) :
    UsesDeclaration ⟨none⟩ ⟨[], file, []⟩ [] n name [a] [plain .string "string"] ⟨d, file, false⟩ where
  written := hname
  stands := .nil
  free := rfl
  arguments := by
    rw [ofNodes, ofNodes, ofNode_of_string hkind htext]
    rfl
  declared := by
    have hfound : Scope.type ⟨none⟩ name file = .ok (.ok ⟨d, file, false⟩) := by
      simp [Scope.type, Scope.lookup, hd]
    rw [resolveName, hutility]
    simp only [hfound]
    rfl

theorem exists_of_isBoxOf
    {kind : Kind}
    {word : String}
    {d : Node}
    (h : isBoxOf kind word d = true) :
    d.kind = .interfaceDeclaration ∧ basesOf d = [] ∧ ∃ m a o,
      Field.membersOf (d.child? .body) = [m] ∧ m.kind = .propertySignature ∧
      Field.declaredName? m = some "value" ∧ m.child? .type = some a ∧ a.kind = .typeAscription ∧
      a.parts.head? = some o ∧ o.kind = kind ∧ o.text = word := by
  unfold isBoxOf at h
  simp only [Bool.and_eq_true, beq_iff_eq, List.isEmpty_iff] at h
  obtain ⟨⟨hkind, hbases⟩, h⟩ := h
  split at h
  · next m hmembers =>
    simp only [Bool.and_eq_true, beq_iff_eq, Option.any_eq_true] at h
    obtain ⟨⟨hm, hname⟩, a, ha, hascription, o, ho, hword⟩ := h
    exact ⟨hkind, hbases, m, a, o, hmembers, hm, hname, ha, hascription, ho, hword⟩
  · cases h

/-- A box of strings has the example of an interface in which its property is declared to be a string,
although a type of the name of the parameter is declared to be something else. -/
theorem use_instantiates_boxed :
    ∃ n d e ss, boxed.findType? "Box" = some d ∧ boxed.findType? "Text" = some e ∧
      (boxed.findType? "T").isSome = true ∧
      (∃ args, UsesDeclaration ⟨none⟩ ⟨[], boxed, []⟩ [] n "Box" args ss ⟨d, boxed, false⟩) ∧
      ofNode ⟨none⟩ [] boxed [] n =
        .ok (object "Box<string>" none (.ofInterface d boxed (boundBy d ss))) ∧
      SameExample ⟨none⟩ (object "Box<string>" none (.ofInterface d boxed (boundBy d ss)))
        (object "Box<string>" none (.ofInterface e boxed [])) := by
  have hfile : ((((boxed.findVariable? "x").bind Variable.annotation).bind fun a => a.parts.head?).any
        (isUseWithString "Box") &&
      (boxed.findType? "Box").any (fun d => isBoxOf .typeIdentifier "T" d &&
        ((typeParametersOf d).map parameterName? == [some "T"])) &&
      (boxed.findType? "Text").any (isBoxOf .predefinedType "string") &&
      (boxed.findType? "T").isSome) = true := by decide +kernel
  rw [Bool.and_eq_true, Bool.and_eq_true, Bool.and_eq_true] at hfile
  obtain ⟨⟨⟨huse, hbox⟩, htext⟩, hnamesake⟩ := hfile
  obtain ⟨n, -, hn⟩ := (Option.any_eq_true _ _).1 huse
  obtain ⟨a, hname, hwritten, hkind, hstring⟩ := exists_of_isUseWithString hn
  obtain ⟨d, hd, h⟩ := (Option.any_eq_true _ _).1 hbox
  rw [Bool.and_eq_true, beq_iff_eq] at h
  obtain ⟨hdkind, hdbases, m, b, o, hdm, hm, hmname, hb, hbkind, ho, hokind, hotext⟩ := exists_of_isBoxOf h.1
  obtain ⟨e, he, he'⟩ := (Option.any_eq_true _ _).1 htext
  obtain ⟨hekind, hebases, m', b', o', hem, hm', hmname', hb', hbkind', ho', hokind', hotext'⟩ :=
    exists_of_isBoxOf he'
  have huses := usesDeclaration_of_string hname hkind hstring rfl hd
  obtain ⟨hread, hinstance, hexample⟩ := use_instantiates huses
  have hparameter : IsParameterAt (typeParametersOf d) 0 "T" := by
    obtain ⟨q, hq, hT⟩ := List.map_eq_singleton_iff.1 h.2
    rw [hq]
    exact ⟨hT, fun j hj => by simp [Nat.ne_of_gt hj]⟩
  have hplain {n : Node} (hkind : n.kind = .predefinedType) (htext : n.text = "string") (s : Shape) :
      Denotes ⟨none⟩ ⟨[], boxed, []⟩ n s ↔ s = plain .string "string" := by
    rw [← ofNode_eq_ok_iff_denotes .nil, ofNode_of_string hkind htext, Except.ok.injEq, eq_comm]
  have hmember : SameMember ⟨none⟩ (Place.enter ⟨[], boxed, []⟩ "Box" [a] ⟨d, boxed, false⟩).members
      ⟨[], boxed, []⟩ m m' := by
    refine ⟨hm.trans hm'.symm, hmname.trans hmname'.symm, ?_⟩
    rw [hb, hb']
    refine correspond_of_forall_iff_eq (u := plain .string "string") (fun s => ?_) fun s => ?_
    · exact (denotes_typeAscription_iff hbkind ho s).trans
        ((hinstance.parameter 0 "T" a o [] hparameter rfl ⟨.inl hokind, hotext⟩ s).trans
          (hplain hkind hstring s))
    · exact (denotes_typeAscription_iff hbkind' ho' s).trans (hplain hokind' hotext' s)
  have hsame : SameContent ⟨none⟩ (Place.enter ⟨[], boxed, []⟩ "Box" [a] ⟨d, boxed, false⟩) ⟨[], boxed, []⟩
      (.ofInterface d boxed (boundBy d [plain .string "string"])) (.ofInterface e boxed []) := by
    refine .ofInterface (stands_enter .nil huses.arguments "Box" _) .nil ?_ ?_
    · rw [hdbases, hebases]
      exact .nil
    · rw [hdm, hem]
      exact .cons hmember .nil
  have hdenotes := (hinstance.ofInterface hdkind _).2 rfl
  have hshape := (hread _).2 hdenotes
  rw [hwritten] at hshape hexample
  exact ⟨n, d, e, _, hd, he, hnamesake, ⟨_, huses⟩, hshape, hexample _ _ _ hsame⟩

/-- A file with a generic class and a variable. -/
def crated : SourceFile :=
  SourceFile.ofText ⟨true, ["s", "file.ts"]⟩
    "class Crate<T> \x7b value: T \x7d\nconst x: Crate<string> = null;\n"

/-- Whether a field has the type `T`, with no type parameter in force. -/
def isUnboundField (f : Field) : Bool :=
  f.name == "value" && !f.isMethod && f.type.any fun u => u.bound.isEmpty &&
    (u.file.findType? "T").isNone && (u.file.findImport? "T").isNone &&
    u.annotation.any fun a => a.kind == .typeAscription &&
      a.parts.head?.any fun o => o.kind == .typeIdentifier && o.text == "T"

/-- Whether a declaration is a class with one type parameter and one field. -/
def isCrate
    (file : SourceFile)
    (d : Node) :
    Bool :=
  d.kind == .classDeclaration && ((typeParametersOf d).map parameterName? == [some "T"]) &&
    match Field.ofClass file d with
    | [f] => isUnboundField f
    | _ => false

theorem shape_of_isUnboundField
    {f : Field}
    (h : isUnboundField f = true) :
    f.name = "value" ∧ f.isMethod = false ∧ f.shape ⟨none⟩ = .ok (unresolved "T") := by
  simp only [isUnboundField, Bool.and_eq_true, beq_iff_eq, Bool.not_eq_true', Option.any_eq_true,
    List.isEmpty_iff, Option.isNone_iff_eq_none] at h
  obtain ⟨⟨hname, hmethod⟩, ⟨a, file, bound⟩, hf, ⟨⟨hbound, hT⟩, himport⟩, b, hb, hbkind, o, ho, hokind, hotext⟩ := h
  obtain rfl : bound = [] := hbound
  obtain rfl : a = some b := hb
  have hmissing : Scope.type ⟨none⟩ "T" file = .ok (.error .notImported) := by
    simp only [Scope.type, Scope.lookup, hT, Scope.importedFile, himport]
    rfl
  have hargs : ofNodes ⟨none⟩ [] file [] [] = .ok [] := by rw [ofNodes]
  refine ⟨hname, hmethod, ?_⟩
  rw [Field.shape, hf]
  simp only
  rw [ofNode_typeAscription hbkind ho, ofNode, hokind, hotext]
  simp only [ofWord?, ofName, entryOf?, hargs]
  simp only [bind, Except.bind, ofUtility?, hmissing]
  rfl

/-- A crate of strings has no string in its example: in a class the parameter stays unresolved. -/
theorem class_not_instantiated :
    ∃ n a d s, ((crated.findVariable? "x").bind Variable.annotation).bind (fun b => b.parts.head?) = some n ∧
      typeName? n = some ("Crate", [a]) ∧ crated.findType? "Crate" = some d ∧
      (typeParametersOf d).map parameterName? = [some "T"] ∧
      ofNode ⟨none⟩ [] crated [] a = .ok (plain .string "string") ∧
      (plain .string "string").example? ⟨none⟩ 3 = .ok (some (.str "")) ∧
      ofNode ⟨none⟩ [] crated [] n = .ok s ∧
      s.example? ⟨none⟩ 3 = .ok (some (.map [("value", .map [])])) := by
  have hfile : ((((crated.findVariable? "x").bind Variable.annotation).bind fun a => a.parts.head?).any
        (isUseWithString "Crate") &&
      (crated.findType? "Crate").any (isCrate crated)) = true := by decide +kernel
  obtain ⟨huse, hcrate⟩ := (Bool.and_eq_true_iff).1 hfile
  obtain ⟨n, hn, huse⟩ := (Option.any_eq_true _ _).1 huse
  obtain ⟨a, hname, hwritten, hkind, hstring⟩ := exists_of_isUseWithString huse
  obtain ⟨d, hd, h⟩ := (Option.any_eq_true _ _).1 hcrate
  simp only [isCrate, Bool.and_eq_true, beq_iff_eq] at h
  obtain ⟨⟨hclass, hparameters⟩, hfields⟩ := h
  have huses := usesDeclaration_of_string hname hkind hstring rfl hd
  have hdenotes := ((instantiates_of_usesDeclaration huses).ofClass (.inl hclass) _).2 rfl
  have hshape : ofNode ⟨none⟩ [] crated [] n = .ok (object "Crate<string>" none (.ofClass d crated)) := by
    rw [hwritten] at hdenotes
    exact (ofNode_eq_ok_iff_denotes huses.stands).2 hdenotes
  refine ⟨n, a, d, _, hn, hname, hd, hparameters, ofNode_of_string hkind hstring, rfl, hshape, ?_⟩
  split at hfields
  · next f hf =>
    obtain ⟨hvalue, hmethod, htype⟩ := shape_of_isUnboundField hfields
    have hlist : fieldList ⟨none⟩ (object "Crate<string>" none (.ofClass d crated)) = .ok [f] :=
      congrArg Except.ok hf
    have hlayer : (object "Crate<string>" none (.ofClass d crated)).layer = .object "Crate<string>" := rfl
    have hentries : entriesOf (fun f => do exampleWithin ⟨none⟩ 3 ["Crate<string>"] (← f.shape ⟨none⟩)) [] [f] =
        .ok [("value", .map [])] := by
      have hstart : Text.startsWith "value" "__" = false := by decide
      simp only [entriesOf, hvalue, hmethod, hstart, htype]
      rfl
    rw [example?, show (3 + 1 : Int).toNat = 3 + 1 from rfl, exampleWithin_succ, hlayer]
    simp only [List.contains_nil, Bool.false_eq_true, if_false, hlist]
    simp only [bind, Except.bind] at hentries ⊢
    rw [hentries]
    rfl
  · cases hfields

end Boxes

end Shape

end RouteAtlas
