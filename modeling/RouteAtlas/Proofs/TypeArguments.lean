import Mathlib
import RouteAtlas.Proofs.Entries
import RouteAtlas.Proofs.Inheritance
import RouteAtlas.Proofs.TypeForms

/-!
# Arguments of generic types

The arguments of a generic type are read where the type is used, and what they are read to is carried into
the declaration as what its parameters stand for. A type can also be given its meaning without reading any
argument beforehand: a place carries, for each type parameter in force, the argument as it is written
together with the place that it is written at, and a parameter denotes what the argument denotes there. The
two agree on every annotation: `ofNode_eq_ok_iff_denotes`.
-/

namespace RouteAtlas

open Syntax
open Project (Scope Found)

namespace Shape

section Places

/-- What a type parameter stands for: an argument as it is written, with the names that are being looked up
at its place, the file, and the type parameters in force there; or, if there is no argument, what the
declaration says. -/
inductive Argument where
  | given (open_ : OpenNames) (file : SourceFile) (params : List (String × Argument)) (written : Node)
  | missing (default : Option Node)

/-- Where an annotation stands: which names are being looked up, the file, and what the type parameters in
force stand for. -/
structure Place where
  open_ : OpenNames
  file : SourceFile
  params : List (String × Argument)

/-- What a type parameter without an argument is read to. -/
def missingShape : Option Node → Shape
  | some d => unresolved d.text
  | none => anything

/-- The type parameters of a declaration. -/
def typeParametersOf (declaration : Node) : List Node :=
  match declaration.child? .typeParameters with
  | some ps => ps.namedChildren.filter fun c => c.kind == .typeParameter
  | none => []

namespace Place

/-- What type parameters stand for when they are given arguments that are written at a place. -/
def argumentsFor
    (p : Place) :
    List Node → List Node → List (String × Argument)
  | [], _ => []
  | q :: rest, args =>
    let later := p.argumentsFor rest args.tail
    match q.child? .name with
    | none => later
    | some name =>
      let argument :=
        match args with
        | a :: _ => .given p.open_ p.file p.params a
        | [] => .missing (q.child? .value)
      (name.text, argument) :: later

/-- The place of a declaration that a name with arguments leads to. -/
def enter
    (p : Place)
    (name : String)
    (args : List Node)
    (found : Found) :
    Place :=
  ⟨(p.file.path, name) :: p.open_, found.file,
    ofPairs (p.argumentsFor (typeParametersOf found.node) args)⟩

/-- The place of the members of a declaration: their types are read later, when no name is being looked
up. -/
def members (p : Place) : Place :=
  { p with open_ := [] }

end Place

variable (scope : Scope)

/-- Shapes that arguments are read to, each at the place where it is written. -/
inductive Stands : List (String × Argument) → List (String × Shape) → Prop
  | nil : Stands [] []
  | given
      {x : String}
      {open_ : OpenNames}
      {file : SourceFile}
      {params ps : List (String × Argument)}
      {bound bs : List (String × Shape)}
      {a : Node}
      {s : Shape}
      (hscope : Stands params bound)
      (hread : ofNode scope open_ file bound a = .ok s)
      (hrest : Stands ps bs) :
      Stands ((x, .given open_ file params a) :: ps) ((x, s) :: bs)
  | missing
      {x : String}
      {default : Option Node}
      {ps : List (String × Argument)}
      {bs : List (String × Shape)}
      (hrest : Stands ps bs) :
      Stands ((x, .missing default) :: ps) ((x, missingShape default) :: bs)

/-- The shape that one argument is read to. -/
inductive StandsFor : Argument → Shape → Prop
  | given
      {open_ : OpenNames}
      {file : SourceFile}
      {params : List (String × Argument)}
      {bound : List (String × Shape)}
      {a : Node}
      {s : Shape}
      (hscope : Stands scope params bound)
      (hread : ofNode scope open_ file bound a = .ok s) :
      StandsFor (.given open_ file params a) s
  | missing
      {default : Option Node} :
      StandsFor (.missing default) (missingShape default)

mutual

/-- What a form denotes at a place. No argument is read before it is needed: a type parameter denotes what
its argument denotes at the place where the argument is written. -/
inductive FormDenotes : Place → Form → Shape → Prop
  | closed
      {p : Place}
      {s : Shape} :
      FormDenotes p (.closed (.ok s)) s
  | object
      {p : Place}
      {make : List (String × Shape) → Shape}
      {bound : List (String × Shape)}
      (hbound : Stands scope p.params bound) :
      FormDenotes p (.object make) (make bound)
  | composed
      {p : Place}
      {parts : List Node}
      {make : List Shape → Shape}
      {ss : List Shape}
      (hparts : AllDenote p parts ss) :
      FormDenotes p (.composed parts make) (make ss)
  | parameter
      {p : Place}
      {name t : String}
      {args : List Node}
      {word : Option Shape}
      {open_ : OpenNames}
      {file : SourceFile}
      {params : List (String × Argument)}
      {a : Node}
      {s : Shape}
      (hname : entryOf? name p.params = some (.given open_ file params a))
      (h : FormDenotes ⟨open_, file, params⟩ (formOf scope file a) s) :
      FormDenotes p (.name name t args word) s
  | default
      {p : Place}
      {name t : String}
      {args : List Node}
      {word : Option Shape}
      {default : Option Node}
      (hname : entryOf? name p.params = some (.missing default)) :
      FormDenotes p (.name name t args word) (missingShape default)
  | word
      {p : Place}
      {name t : String}
      {args : List Node}
      {s : Shape}
      (hname : entryOf? name p.params = none) :
      FormDenotes p (.name name t args (some s)) s
  | predefined
      {p : Place}
      {name t : String}
      {args : List Node}
      {ss : List Shape}
      {s : Shape}
      (hname : entryOf? name p.params = none)
      (hargs : AllDenote p args ss)
      (hresolve : resolveName scope p.open_ p.file name t ss = .ok (.inl s)) :
      FormDenotes p (.name name t args none) s
  | declared
      {p : Place}
      {name t : String}
      {args : List Node}
      {ss : List Shape}
      {found : Found}
      {s : Shape}
      (hname : entryOf? name p.params = none)
      (hargs : AllDenote p args ss)
      (hresolve : resolveName scope p.open_ p.file name t ss = .ok (.inr found))
      (h : FormDenotes (p.enter name args found) (formOfDeclaration found.file found.node t) s) :
      FormDenotes p (.name name t args none) s

/-- What annotations denote at a place, one by one. -/
inductive AllDenote : Place → List Node → List Shape → Prop
  | nil
      {p : Place} :
      AllDenote p [] []
  | cons
      {p : Place}
      {n : Node}
      {rest : List Node}
      {s : Shape}
      {ss : List Shape}
      (h : FormDenotes p (formOf scope p.file n) s)
      (hrest : AllDenote p rest ss) :
      AllDenote p (n :: rest) (s :: ss)

end

/-- What an annotation denotes at a place. -/
def Denotes
    (p : Place)
    (n : Node)
    (s : Shape) :
    Prop :=
  FormDenotes scope p (formOf scope p.file n) s

end Places

section Arguments

variable {scope : Scope}

theorem boundBy_eq
    (declaration : Node)
    (args : List Shape) :
    boundBy declaration args = ofPairs (bindParameters (typeParametersOf declaration) args) := by
  unfold boundBy typeParametersOf
  cases declaration.child? .typeParameters <;> rfl

/-- What arguments stand for is settled by the places where they are written. -/
theorem Stands.unique
    {ps : List (String × Argument)}
    {bound bound' : List (String × Shape)}
    (h : Stands scope ps bound)
    (h' : Stands scope ps bound') :
    bound = bound' := by
  induction h generalizing bound' with
  | nil =>
    cases h'
    rfl
  | given hscope hread hrest ihscope ihrest =>
    obtain _ | ⟨hscope', hread', hrest'⟩ := h'
    obtain rfl := ihscope hscope'
    obtain rfl := Except.ok.inj (hread.symm.trans hread')
    rw [ihrest hrest']
  | missing hrest ih =>
    obtain _ | _ | ⟨hrest'⟩ := h'
    rw [ih hrest']

/-- Parameters stand for shapes one by one. -/
theorem stands_iff_forall₂
    {ps : List (String × Argument)}
    {bound : List (String × Shape)} :
    Stands scope ps bound ↔ List.Forall₂ (EntriesAlike (StandsFor scope)) ps bound := by
  constructor
  · intro h
    induction h with
    | nil => exact .nil
    | given hscope hread _ _ ih => exact .cons ⟨rfl, .given hscope hread⟩ ih
    | missing _ ih => exact .cons ⟨rfl, .missing⟩ ih
  · intro h
    induction h with
    | nil => exact .nil
    | @cons a b ps bound hab _ ih =>
      obtain ⟨x, a⟩ := a
      obtain ⟨y, s⟩ := b
      obtain ⟨hx, hentry⟩ := hab
      obtain rfl : x = y := hx
      cases hentry with
      | given hscope hread => exact .given hscope hread ih
      | missing => exact .missing ih

/-- A parameter that stands for something stands for an argument, and for nothing else. -/
theorem Stands.entryOf?_cases
    {ps : List (String × Argument)}
    {bound : List (String × Shape)}
    (h : Stands scope ps bound)
    (x : String) :
    (entryOf? x ps = none ∧ entryOf? x bound = none) ∨
      ∃ a s, entryOf? x ps = some a ∧ entryOf? x bound = some s ∧ StandsFor scope a s :=
  entryOf?_of_forall₂ (stands_iff_forall₂.1 h) x

theorem Stands.entryOf?_eq_none
    {ps : List (String × Argument)}
    {bound : List (String × Shape)}
    (h : Stands scope ps bound)
    {x : String}
    (hx : entryOf? x ps = none) :
    entryOf? x bound = none := by
  obtain ⟨-, hnone⟩ | ⟨a, s, hsome, -, -⟩ := h.entryOf?_cases x
  · exact hnone
  · cases hx.symm.trans hsome

/-- Annotations are read one by one. -/
theorem ofNodes_eq_ok_iff_forall₂
    {open_ : OpenNames}
    {file : SourceFile}
    {bound : List (String × Shape)}
    {ns : List Node}
    {ss : List Shape} :
    ofNodes scope open_ file bound ns = .ok ss ↔
      List.Forall₂ (fun n s => ofNode scope open_ file bound n = .ok s) ns ss := by
  induction ns generalizing ss with
  | nil =>
    rw [ofNodes, List.forall₂_nil_left_iff, Except.ok.injEq, eq_comm]
  | cons n rest ih =>
    rw [ofNodes, List.forall₂_cons_left_iff]
    constructor
    · intro h
      obtain ⟨s, hs, h⟩ := exists_of_bind_eq_ok h
      obtain ⟨ss', hss, h⟩ := exists_of_bind_eq_ok h
      exact ⟨s, ss', hs, ih.1 hss, (Except.ok.inj h).symm⟩
    · rintro ⟨s, ss', hs, hss, rfl⟩
      rw [hs, ih.2 hss]
      rfl

/-- Type parameters stand for the shapes of the arguments that they are given. -/
theorem stands_argumentsFor
    {p : Place}
    {bound : List (String × Shape)}
    (hbound : Stands scope p.params bound)
    (qs : List Node)
    {args : List Node}
    {ss : List Shape}
    (hargs : List.Forall₂ (fun a s => ofNode scope p.open_ p.file bound a = .ok s) args ss) :
    Stands scope (p.argumentsFor qs args) (bindParameters qs ss) := by
  induction qs generalizing args ss with
  | nil => exact .nil
  | cons q rest ih =>
    cases hargs with
    | nil =>
      rw [Place.argumentsFor, bindParameters]
      cases q.child? .name with
      | none => exact ih .nil
      | some name => cases q.child? .value <;> exact .missing (ih .nil)
    | cons hs hss =>
      rw [Place.argumentsFor, bindParameters]
      cases q.child? .name with
      | none => exact ih hss
      | some name => exact .given hbound hs (ih hss)

/-- What is in force in a declaration that is entered is what its parameters are bound to. -/
theorem stands_enter
    {p : Place}
    {bound : List (String × Shape)}
    (hbound : Stands scope p.params bound)
    {args : List Node}
    {ss : List Shape}
    (hargs : ofNodes scope p.open_ p.file bound args = .ok ss)
    (name : String)
    (found : Found) :
    Stands scope (p.enter name args found).params (boundBy found.node ss) := by
  rw [boundBy_eq]
  have hgiven := stands_argumentsFor hbound (typeParametersOf found.node) (ofNodes_eq_ok_iff_forall₂.1 hargs)
  exact stands_iff_forall₂.2 (forall₂_ofPairs (stands_iff_forall₂.1 hgiven))

end Arguments

section Names

variable {scope : Scope} {open_ : OpenNames} {file : SourceFile} {bound : List (String × Shape)}

theorem ofName_eq_ok_iff
    {name t : String}
    {args : List Node}
    {s : Shape}
    (hname : entryOf? name bound = none) :
    ofName scope open_ file bound name t args = .ok s ↔
      ∃ ss, ofNodes scope open_ file bound args = .ok ss ∧
        (resolveName scope open_ file name t ss = .ok (.inl s) ∨
          ∃ found, resolveName scope open_ file name t ss = .ok (.inr found) ∧
            readForm scope ((file.path, name) :: open_) found.file (boundBy found.node ss)
              (formOfDeclaration found.file found.node t) = .ok s) := by
  rw [ofName_eq_of_free hname]
  constructor
  · intro h
    obtain ⟨ss, hss, h⟩ := exists_of_bind_eq_ok h
    obtain ⟨r, hr, h⟩ := exists_of_bind_eq_ok h
    refine ⟨ss, hss, ?_⟩
    cases r with
    | inl u =>
      cases h
      exact .inl hr
    | inr found =>
      dsimp only at h
      rw [ofDeclaration_eq_readForm] at h
      exact .inr ⟨found, hr, h⟩
  · rintro ⟨ss, hss, hr | ⟨found, hr, h⟩⟩
    · rw [hss]
      simp only [bind, Except.bind, hr]
    · rw [hss]
      simp only [bind, Except.bind, hr]
      rw [ofDeclaration_eq_readForm, h]

end Names

section Agreement

variable {scope : Scope}

/-- What is denoted is read, whatever the parameters in force stand for. -/
theorem readForm_of_formDenotes
    {p : Place}
    {form : Form}
    {s : Shape}
    (h : FormDenotes scope p form s)
    {bound : List (String × Shape)}
    (hbound : Stands scope p.params bound) :
    readForm scope p.open_ p.file bound form = .ok s := by
  refine @FormDenotes.rec scope
    (fun p form s _ => ∀ bound, Stands scope p.params bound →
      readForm scope p.open_ p.file bound form = .ok s)
    (fun p ns ss _ => ∀ bound, Stands scope p.params bound →
      ofNodes scope p.open_ p.file bound ns = .ok ss)
    ?closed ?object ?composed ?parameter ?default ?word ?predefined ?declared ?nil ?cons
    p form s h bound hbound
  case closed => exact fun _ _ => rfl
  case object =>
    intro p make bound hbound bound' hbound'
    rw [hbound'.unique hbound, readForm]
  case composed =>
    intro p parts make ss _ ih bound hbound
    rw [readForm, ih bound hbound]
    rfl
  case parameter =>
    intro p name t args word open_ file params a s hname _ ih bound hbound
    obtain ⟨hnone, -⟩ | ⟨b, u, hsome, hu, hentry⟩ := hbound.entryOf?_cases name
    · cases hname.symm.trans hnone
    · obtain rfl := Option.some.inj (hname.symm.trans hsome)
      obtain ⟨hscope, hread⟩ := hentry
      -- The argument has been read before, at the place where it denotes the same.
      have hdenoted := ih _ hscope
      rw [← ofNode_eq_readForm] at hdenoted
      obtain rfl := Except.ok.inj (hread.symm.trans hdenoted)
      exact readForm_name_of_bound hu t args word
  case default =>
    intro p name t args word default hname bound hbound
    obtain ⟨hnone, -⟩ | ⟨b, u, hsome, hu, hentry⟩ := hbound.entryOf?_cases name
    · cases hname.symm.trans hnone
    · obtain rfl := Option.some.inj (hname.symm.trans hsome)
      cases hentry
      exact readForm_name_of_bound hu t args word
  case word =>
    intro p name t args s hname bound hbound
    exact readForm_word (hbound.entryOf?_eq_none hname) t args s
  case predefined =>
    intro p name t args ss s hname _ hresolve ih bound hbound
    have hfree := hbound.entryOf?_eq_none hname
    exact (ofName_eq_ok_iff hfree).2 ⟨ss, ih bound hbound, .inl hresolve⟩
  case declared =>
    intro p name t args ss found s hname _ hresolve _ ihargs ihbody bound hbound
    have hfree := hbound.entryOf?_eq_none hname
    have hargs := ihargs bound hbound
    exact (ofName_eq_ok_iff hfree).2 ⟨ss, hargs, .inr ⟨found, hresolve,
      ihbody _ (stands_enter hbound hargs name found)⟩⟩
  case nil =>
    intro p bound _
    rw [ofNodes]
  case cons =>
    intro p n rest s ss _ _ ih ihrest bound hbound
    rw [ofNodes, ofNode_eq_readForm, ih bound hbound, ihrest bound hbound]
    rfl

/-- An argument denotes a shape at the place where it is written. -/
def ArgumentDenotes
    (scope : Scope)
    (argument : Argument)
    (s : Shape) :
    Prop :=
  ∀ open_ file params a, argument = .given open_ file params a → Denotes scope ⟨open_, file, params⟩ a s

/-- Every argument in force denotes what its parameter stands for. -/
def ArgumentsDenote
    (scope : Scope)
    (params : List (String × Argument))
    (bound : List (String × Shape)) :
    Prop :=
  List.Forall₂ (EntriesAlike (ArgumentDenotes scope)) params bound

theorem allDenote_of_forall₂
    {p : Place}
    {ns : List Node}
    {ss : List Shape}
    (h : List.Forall₂ (Denotes scope p) ns ss) :
    AllDenote scope p ns ss := by
  induction h with
  | nil => exact .nil
  | cons h _ ih => exact .cons h ih

/-- What is missing has nothing to denote. -/
theorem argumentDenotes_missing
    (default : Option Node)
    (s : Shape) :
    ArgumentDenotes scope (.missing default) s := by
  rintro _ _ _ _ ⟨⟩

theorem argumentsDenote_argumentsFor
    {p : Place}
    (qs : List Node)
    {args : List Node}
    {ss : List Shape}
    (hargs : AllDenote scope p args ss) :
    ArgumentsDenote scope (p.argumentsFor qs args) (bindParameters qs ss) := by
  induction qs generalizing args ss with
  | nil => exact .nil
  | cons q rest ih =>
    cases hargs with
    | nil =>
      rw [Place.argumentsFor, bindParameters]
      cases q.child? .name with
      | none => exact ih .nil
      | some name => exact .cons ⟨rfl, argumentDenotes_missing _ _⟩ (ih .nil)
    | cons ha hmore =>
      rw [Place.argumentsFor, bindParameters]
      cases q.child? .name with
      | none => exact ih hmore
      | some name =>
        refine .cons ⟨rfl, ?_⟩ (ih hmore)
        rintro _ _ _ _ ⟨⟩
        exact ha

/-- The arguments of a use denote what the parameters of the declaration stand for. -/
theorem argumentsDenote_enter
    {p : Place}
    {args : List Node}
    {ss : List Shape}
    (hargs : AllDenote scope p args ss)
    (name : String)
    (found : Found) :
    ArgumentsDenote scope (p.enter name args found).params (boundBy found.node ss) := by
  rw [boundBy_eq]
  exact forall₂_ofPairs (argumentsDenote_argumentsFor _ hargs)

/-- What is read is denoted, if this holds of the arguments in force. -/
theorem formDenotes_of_readForm
    {p : Place}
    {bound : List (String × Shape)}
    (hbound : Stands scope p.params bound)
    (hdenote : ArgumentsDenote scope p.params bound)
    {form : Form}
    {s : Shape}
    (h : readForm scope p.open_ p.file bound form = .ok s) :
    FormDenotes scope p form s := by
  have hall {ns : List Node} (hsize : Node.countForest ns ≤ form.size) {ss : List Shape}
      (hss : ofNodes scope p.open_ p.file bound ns = .ok ss) : AllDenote scope p ns ss := by
    refine allDenote_of_forall₂ (List.forall₂_iff_get.2 ?_)
    obtain ⟨hlength, hss⟩ := List.forall₂_iff_get.1 (ofNodes_eq_ok_iff_forall₂.1 hss)
    refine ⟨hlength, fun i hn hs => ?_⟩
    have hlt : (formOf scope p.file (ns.get ⟨i, hn⟩)).size < form.size :=
      lt_of_lt_of_le (size_formOf_lt _) (le_trans (Node.count_le_countForest (List.get_mem ..)) hsize)
    have hread := hss i hn hs
    rw [ofNode_eq_readForm] at hread
    exact formDenotes_of_readForm hbound hdenote hread
  cases form with
  | closed reading =>
    rw [readForm] at h
    exact h ▸ .closed
  | object make =>
    obtain rfl := Except.ok.inj h
    exact .object hbound
  | composed parts make =>
    obtain ⟨ss, hss, h⟩ := exists_of_bind_eq_ok h
    obtain rfl := Except.ok.inj h
    exact .composed (hall le_rfl hss)
  | name name t args word =>
    obtain ⟨hfree, hfree'⟩ | ⟨a, u, hsome, hu, hentry⟩ := hbound.entryOf?_cases name
    · cases word with
      | some u =>
        obtain rfl := Except.ok.inj ((readForm_word hfree' t args u).symm.trans h)
        exact .word hfree
      | none =>
        obtain ⟨ss, hss, hr | ⟨found, hr, hbody⟩⟩ := (ofName_eq_ok_iff hfree').1 h
        · exact .predefined hfree (hall le_rfl hss) hr
        · have hargs := hall le_rfl hss
          have hroom := length_le_of_resolveName hr
          exact .declared hfree hargs hr (formDenotes_of_readForm (stands_enter hbound hss name found)
            (argumentsDenote_enter hargs name found) hbody)
    · obtain rfl := Except.ok.inj ((readForm_name_of_bound hu t args word).symm.trans h)
      cases a with
      | given open_ file params a =>
        obtain ⟨hnone, -⟩ | ⟨b, v, hb, hv, hargument⟩ := entryOf?_of_forall₂ hdenote name
        · cases hsome.symm.trans hnone
        · obtain rfl := Option.some.inj (hsome.symm.trans hb)
          obtain rfl := Option.some.inj (hu.symm.trans hv)
          exact .parameter hsome (hargument _ _ _ _ rfl)
      | missing default =>
        cases hentry
        exact .default hsome
  termination_by (maxOpenNames + 2 - p.open_.length, form.size)
  decreasing_by
    · exact Prod.Lex.right _ hlt
    · apply Prod.Lex.left
      simp only [Place.enter, List.length_cons]
      omega

/-- What parameters stand for is what their arguments denote. -/
theorem argumentsDenote_of_stands
    {params : List (String × Argument)}
    {bound : List (String × Shape)}
    (h : Stands scope params bound) :
    ArgumentsDenote scope params bound := by
  induction h with
  | nil => exact .nil
  | @given x open_ file params ps bound bs a s hscope hread _ ihscope ihrest =>
    refine .cons ⟨rfl, ?_⟩ ihrest
    rintro _ _ _ _ ⟨⟩
    rw [ofNode_eq_readForm] at hread
    exact formDenotes_of_readForm (p := ⟨open_, file, params⟩) hscope ihscope hread
  | missing _ ih => exact .cons ⟨rfl, argumentDenotes_missing _ _⟩ ih

theorem readForm_eq_ok_iff_formDenotes
    {p : Place}
    {bound : List (String × Shape)}
    (hbound : Stands scope p.params bound)
    {form : Form}
    {s : Shape} :
    readForm scope p.open_ p.file bound form = .ok s ↔ FormDenotes scope p form s :=
  ⟨formDenotes_of_readForm hbound (argumentsDenote_of_stands hbound),
    fun h => readForm_of_formDenotes h hbound⟩

/-- Reading an annotation with its arguments read beforehand gives what it denotes with its arguments left
unread. -/
theorem ofNode_eq_ok_iff_denotes
    {p : Place}
    {bound : List (String × Shape)}
    (hbound : Stands scope p.params bound)
    {n : Node}
    {s : Shape} :
    ofNode scope p.open_ p.file bound n = .ok s ↔ Denotes scope p n s := by
  rw [ofNode_eq_readForm]
  exact readForm_eq_ok_iff_formDenotes hbound

end Agreement

end Shape

end RouteAtlas
