import Mathlib
import RouteAtlas.Proofs.Entries
import RouteAtlas.Proofs.RouterSettings
import RouteAtlas.Proofs.TypeForms
import RouteAtlas.Shape.Members

/-!
# The files that types are read from

A shape keeps the files that parts of it are still to be read from. Reading an annotation leads to no files
but those that looking up names of types leads to, from the file of the annotation on. As long as these
look-ups have answers, even if nothing is found, so has all reading.
-/

namespace RouteAtlas

open Syntax
open Project (Scope)

section Results

variable {α β : Type}

/-- A computation that has a result with a property. -/
def Returns
    (P : α → Prop)
    (x : Except Fault α) :
    Prop :=
  ∃ a, x = .ok a ∧ P a

theorem returns_ok
    {P : α → Prop}
    {a : α}
    (h : P a) :
    Returns P (.ok a) :=
  ⟨a, rfl, h⟩

theorem Returns.bind
    {P : α → Prop}
    {Q : β → Prop}
    {x : Except Fault α}
    {f : α → Except Fault β}
    (h : Returns P x)
    (hf : ∀ a, P a → Returns Q (f a)) :
    Returns Q (x >>= f) := by
  obtain ⟨a, rfl, ha⟩ := h
  exact hf a ha

theorem exists_mem_of_entryOf?
    {key : String}
    {entries : List (String × α)}
    {a : α}
    (h : entryOf? key entries = some a) :
    ∃ e ∈ entries, e.2 = a := by
  induction entries with
  | nil => cases h
  | cons e rest ih =>
    obtain ⟨k, v⟩ := e
    rw [entryOf?] at h
    split at h
    · exact ⟨(k, v), List.mem_cons_self .., Option.some.inj h⟩
    · obtain ⟨e, he, ha⟩ := ih h
      exact ⟨e, List.mem_cons_of_mem _ he, ha⟩

end Results

namespace Project

section Imports

variable {scope : Scope} {file : SourceFile}

/-- The files that looking up names of types leads to from a file. -/
inductive Scope.Reaches
    (scope : Scope)
    (file : SourceFile) :
    SourceFile → Prop
  | here :
      Reaches scope file file
  | found {f : SourceFile} {name : String} {x : Found}
      (h : Reaches scope file f)
      (hx : scope.type name f = .ok (.ok x)) :
      Reaches scope file x.file

/-- Names of types can be looked up in all files that are reached, be it that nothing is found. -/
def Scope.Answers
    (scope : Scope)
    (file : SourceFile) :
    Prop :=
  ∀ f, scope.Reaches file f → ∀ name, ∃ r, scope.type name f = .ok r

/-- The targets of the aliases of a project are texts. -/
def Scope.HasTextTargets (scope : Scope) : Prop :=
  ∀ p ∈ scope.project, ∀ c ∈ p.config, ∀ entry ∈ c.aliases, ∀ v ∈ entry.2, ∃ t, v = .str t

theorem exists_aliasCandidates
    {entry : String × List Value}
    (h : ∀ v ∈ entry.2, ∃ t, v = .str t)
    (base : Files.Path)
    (specifier : String) :
    ∃ ps, Project.aliasCandidates base specifier entry = .ok ps := by
  unfold Project.aliasCandidates
  dsimp only
  split
  · split
    · refine exists_mapM_eq_ok_iff.2 fun v hv => ?_
      obtain ⟨t, rfl⟩ := h v hv
      exact ⟨_, rfl⟩
    · exact ⟨_, rfl⟩
  · split
    · refine exists_mapM_eq_ok_iff.2 fun v hv => ?_
      obtain ⟨t, rfl⟩ := h v hv
      exact ⟨_, rfl⟩
    · exact ⟨_, rfl⟩

theorem exists_moduleCandidates
    (h : scope.HasTextTargets)
    {p : Project}
    (hp : scope.project = some p)
    (specifier : String)
    (fromFile : Files.Path) :
    ∃ ps, p.moduleCandidates specifier fromFile = .ok ps := by
  unfold Project.moduleCandidates
  split
  · exact ⟨_, rfl⟩
  · split
    · exact ⟨_, rfl⟩
    · next c hc =>
      have haliases := exists_mapM_eq_ok_iff.2 fun entry hentry =>
        exists_aliasCandidates (h p hp c hc entry hentry) (c.baseUrl.getD c.directory) specifier
      exact exists_bind_eq_ok haliases fun ps => ⟨_, rfl⟩

theorem exists_resolveFirst?
    {p : Project}
    {ps : List Files.Path}
    (h : ∀ base ∈ ps, base.name ≠ "") :
    ∃ found, p.resolveFirst? ps = .ok found := by
  induction ps with
  | nil => exact ⟨_, rfl⟩
  | cons base rest ih =>
    rw [List.forall_mem_cons] at h
    rw [Project.resolveFirst?, if_neg (by simpa using h.1)]
    split
    · exact ⟨_, rfl⟩
    · exact ih h.2

/-- Names can be looked up in a file when no import of it may stand for a path without a name. -/
theorem exists_type
    (h : scope.HasTextTargets)
    (hnames : ∀ p ∈ scope.project, ∀ i ∈ file.imports, ∀ ps,
      p.moduleCandidates i.moduleName file.path = .ok ps → ∀ base ∈ ps, base.name ≠ "")
    (name : String) :
    ∃ r, scope.type name file = .ok r := by
  have himported : ∃ r, scope.importedFile name file = .ok r := by
    unfold Scope.importedFile
    split
    · exact ⟨_, rfl⟩
    · next i imported hi =>
      split
      · exact ⟨_, rfl⟩
      · next p hp =>
        obtain ⟨j, hj, hbinds⟩ := List.exists_of_findSome?_eq_some hi
        obtain rfl : j = i := by
          split at hbinds
          · exact congrArg Prod.fst (Option.some.inj hbinds)
          · split at hbinds
            · exact congrArg Prod.fst (Option.some.inj hbinds)
            · cases hbinds
        obtain ⟨ps, hps⟩ := exists_moduleCandidates h hp j.moduleName file.path
        obtain ⟨found, hfound⟩ := exists_resolveFirst? (p := p) (hnames p hp j hj ps hps)
        have htarget : p.resolveModule j.moduleName file.path = .ok (found.bind p.sourceFile?) := by
          rw [Project.resolveModule, hps]
          exact congrArg (· >>= fun found => pure (found.bind p.sourceFile?)) hfound
        rw [htarget]
        cases found.bind p.sourceFile? with
        | none => exact ⟨_, rfl⟩
        | some target => exact ⟨_, rfl⟩
  unfold Scope.type Scope.lookup
  split
  · exact ⟨_, rfl⟩
  · refine exists_bind_eq_ok himported fun r => ?_
    split
    · exact ⟨_, rfl⟩
    · split
      · exact ⟨_, rfl⟩
      · exact ⟨_, rfl⟩

/-- What may go wrong with look-ups: a target of an alias that is no text, and an import that may stand for a
path without a name. -/
theorem answers_of_named
    (h : scope.HasTextTargets)
    (hnames : ∀ f, scope.Reaches file f → ∀ p ∈ scope.project, ∀ i ∈ f.imports, ∀ ps,
      p.moduleCandidates i.moduleName f.path = .ok ps → ∀ base ∈ ps, base.name ≠ "") :
    scope.Answers file :=
  fun f hf => exists_type h (hnames f hf)

theorem answers_none (file : SourceFile) : Scope.Answers ⟨none⟩ file :=
  answers_of_named nofun nofun

end Imports

end Project

section Within

mutual

/-- Whether all files that parts of a shape are still to be read from have a property. -/
def Shape.Within (P : SourceFile → Prop) : Shape → Prop
  | .array _ element => element.Within P
  | .tuple _ members | .union _ members => Shape.AllWithin P members
  | .object _ _ fields => fields.Within P
  | _ => True

/-- Whether this is so for all of some shapes. -/
def Shape.AllWithin (P : SourceFile → Prop) : List Shape → Prop
  | [] => True
  | s :: rest => s.Within P ∧ Shape.AllWithin P rest

/-- Whether this is so for what type parameters stand for. -/
def Shape.BoundWithin (P : SourceFile → Prop) : List (String × Shape) → Prop
  | [] => True
  | (_, s) :: rest => s.Within P ∧ Shape.BoundWithin P rest

/-- Whether this is so for the fields of an object. -/
def Fields.Within (P : SourceFile → Prop) : Fields → Prop
  | .absent => True
  | .ofBody _ file bound | .ofInterface _ file bound => P file ∧ Shape.BoundWithin P bound
  | .ofClass _ file => P file
  | .merged members => Shape.AllWithin P members
  | .adjusted _ target | .selected _ _ target => target.Within P

end

/-- Whether this is so for the type of a field. -/
def Field.Within
    (P : SourceFile → Prop)
    (f : Field) :
    Prop :=
  ∀ u ∈ f.type, P u.file ∧ Shape.BoundWithin P u.bound

end Within

namespace Shape

section Parts

variable {P : SourceFile → Prop}

theorem allWithin_iff {ss : List Shape} : AllWithin P ss ↔ ∀ s ∈ ss, s.Within P := by
  induction ss with
  | nil => simp [AllWithin]
  | cons s rest ih => rw [AllWithin, ih, List.forall_mem_cons]

theorem boundWithin_iff
    {bound : List (String × Shape)} :
    BoundWithin P bound ↔ ∀ b ∈ bound, b.2.Within P := by
  induction bound with
  | nil => simp [BoundWithin]
  | cons b rest ih => rw [BoundWithin, ih, List.forall_mem_cons]

theorem within_of_ofWord?
    {word : String}
    {s : Shape}
    (h : ofWord? word = some s) :
    s.Within P := by
  unfold ofWord? at h
  split at h <;> cases h <;> trivial

theorem within_ofLiteral (n : Node) : (ofLiteral n).Within P := by
  unfold ofLiteral
  repeat' split
  all_goals trivial

theorem within_choice
    {members : List Shape}
    (h : AllWithin P members)
    (t : String) :
    (choice t members).Within P := by
  unfold choice
  split
  · exact h.1
  · exact h

theorem within_renamed
    {s : Shape}
    (h : s.Within P)
    (t : String) :
    (s.renamed t).Within P := by
  cases s <;> exact h

theorem within_withOptional
    {s : Shape}
    (h : s.Within P)
    (t : String)
    (optional : Option Bool) :
    (s.withOptional t optional).Within P := by
  cases s <;> exact h

theorem within_nonNullable
    {s : Shape}
    (h : s.Within P)
    (t : String) :
    (s.nonNullable t).Within P := by
  cases s with
  | union u members =>
    refine within_choice (allWithin_iff.2 fun m hm => ?_) t
    exact allWithin_iff.1 h m (List.mem_of_mem_filter hm)
  | _ => exact h

theorem within_of_ofUtility?
    {name t : String}
    {args : List Shape}
    {s : Shape}
    (hargs : AllWithin P args)
    (h : ofUtility? name t args = some s) :
    s.Within P := by
  unfold ofUtility? at h
  split at h
  all_goals cases h
  all_goals first
    | trivial
    | exact hargs.1
    | exact within_withOptional hargs.1 _ _
    | exact within_nonNullable hargs.1 _

theorem boundWithin_bindParameters
    {ps : List Node}
    {args : List Shape}
    (hargs : AllWithin P args) :
    BoundWithin P (bindParameters ps args) := by
  induction ps generalizing args with
  | nil => trivial
  | cons p rest ih =>
    have hlater : BoundWithin P (bindParameters rest args.tail) := by
      cases args with
      | nil => exact ih hargs
      | cons a args => exact ih hargs.2
    unfold bindParameters
    dsimp only
    split
    · exact hlater
    · refine ⟨?_, hlater⟩
      cases args with
      | nil =>
        dsimp only
        split <;> trivial
      | cons a args => exact hargs.1

theorem boundWithin_boundBy
    {args : List Shape}
    (hargs : AllWithin P args)
    (declaration : Node) :
    BoundWithin P (boundBy declaration args) := by
  unfold boundBy
  split
  · exact boundWithin_iff.2 (forall_mem_ofPairs (boundWithin_iff.1 (boundWithin_bindParameters hargs)))
  · trivial

end Parts

section Reading

variable {P : SourceFile → Prop} {scope : Scope} {start file : SourceFile}

theorem returns_type
    (h : scope.Answers start)
    (hfile : scope.Reaches start file)
    (name : String) :
    Returns (fun r => ∀ found, r = .ok found → scope.Reaches start found.file)
      (scope.type name file) := by
  obtain ⟨r, hr⟩ := h file hfile name
  refine ⟨r, hr, ?_⟩
  rintro found rfl
  exact .found hfile hr

theorem returns_ofQualifiedName
    (h : scope.Answers start)
    (hfile : scope.Reaches start file)
    (n : Node) :
    Returns (Within P) (ofQualifiedName scope n file) := by
  unfold ofQualifiedName
  dsimp only
  generalize platformNames.contains (lastPart (singleSpaced n.text)) = known
  have hother (t : String) (u : String) : (if known then builtin t u else unresolved t).Within P := by
    cases known <;> trivial
  split
  · split
    · refine (returns_type h hfile _).bind fun r _ => ?_
      split
      · split
        · exact returns_ok trivial
        · exact returns_ok (hother _ _)
      · exact returns_ok (hother _ _)
    · exact returns_ok (hother _ _)
  · exact returns_ok (hother _ _)

/-- Whether what is read from a form keeps to files with a property, if this is so for all that it is read
from. -/
def Form.KeepsTo (P : SourceFile → Prop) : Form → Prop
  | .closed reading => Returns (Within P) reading
  | .object make => ∀ bound, BoundWithin P bound → (make bound).Within P
  | .composed _ make => ∀ ss, AllWithin P ss → (make ss).Within P
  | .name _ _ _ word => ∀ s ∈ word, s.Within P

theorem within_headD
    {ss : List Shape}
    (h : AllWithin P ss) :
    (ss.headD anything).Within P := by
  cases ss with
  | nil => trivial
  | cons s rest => exact h.1

theorem keepsTo_formOf
    (h : scope.Answers start)
    (hfile : scope.Reaches start file)
    (n : Node) :
    (formOf scope file n).KeepsTo (scope.Reaches start) := by
  unfold formOf
  cases n.kind
  case typeAscription | optingTypeAscription | readonlyType | parenthesizedType | arrayType =>
    exact fun ss hss => within_headD hss
  case predefinedType =>
    refine returns_ok ?_
    cases hword : ofWord? n.text with
    | none => trivial
    | some s => exact within_of_ofWord? hword
  case literalType => exact returns_ok (within_ofLiteral n)
  case typeIdentifier | identifier => exact fun s hs => within_of_ofWord? hs
  case nestedTypeIdentifier => exact returns_ofQualifiedName h hfile n
  case genericType =>
    dsimp only
    split
    · exact returns_ok trivial
    · split
      · exact returns_ofQualifiedName h hfile _
      · simp [Form.KeepsTo]
  case tupleType | intersectionType => exact fun ss hss => hss
  case unionType => exact fun ss hss => within_choice hss _
  case objectType => exact fun bound hbound => ⟨hfile, hbound⟩
  all_goals exact returns_ok trivial

theorem keepsTo_formOfDeclaration
    (hfile : P file)
    (declaration : Node)
    (t : String) :
    (formOfDeclaration file declaration t).KeepsTo P := by
  unfold formOfDeclaration
  cases declaration.kind
  case typeAliasDeclaration =>
    dsimp only
    split
    · exact returns_ok trivial
    · exact fun ss hss => within_renamed (within_headD hss) t
  case interfaceDeclaration => exact fun bound hbound => ⟨hfile, hbound⟩
  case classDeclaration | abstractClassDeclaration => exact returns_ok hfile
  all_goals exact returns_ok trivial

theorem returns_resolveName
    (h : scope.Answers start)
    (hfile : scope.Reaches start file)
    {args : List Shape}
    (hargs : AllWithin (scope.Reaches start) args)
    (open_ : OpenNames)
    (name t : String) :
    Returns (Sum.elim (Within (scope.Reaches start)) fun found => scope.Reaches start found.file)
      (resolveName scope open_ file name t args) := by
  unfold resolveName
  split
  · next s hs => exact returns_ok (within_of_ofUtility? hargs hs)
  · split
    · exact returns_ok trivial
    · refine (returns_type h hfile name).bind fun r hr => ?_
      cases r with
      | error m => exact returns_ok (by cases platformNames.contains name <;> trivial)
      | ok found => exact returns_ok (hr found rfl)

theorem returns_ofNodes
    {open_ : OpenNames}
    {bound : List (String × Shape)}
    {ns : List Node}
    (h : ∀ n ∈ ns, Returns (Within P) (ofNode scope open_ file bound n)) :
    Returns (AllWithin P) (ofNodes scope open_ file bound ns) := by
  induction ns with
  | nil =>
    rw [ofNodes]
    exact returns_ok trivial
  | cons n rest ih =>
    rw [List.forall_mem_cons] at h
    rw [ofNodes]
    exact h.1.bind fun s hs => (ih h.2).bind fun ss hss => returns_ok ⟨hs, hss⟩

/-- Whatever is read of types and their declarations, there is a result, and no files but those that are
reached are left to be read from. -/
theorem returns_readForm
    (h : scope.Answers start)
    {open_ : OpenNames}
    {file : SourceFile}
    {bound : List (String × Shape)}
    (hfile : scope.Reaches start file)
    (hbound : BoundWithin (scope.Reaches start) bound)
    {form : Form}
    (hform : form.KeepsTo (scope.Reaches start)) :
    Returns (Within (scope.Reaches start)) (readForm scope open_ file bound form) := by
  have hall {ns : List Node} (hsize : Node.countForest ns ≤ form.size) :
      Returns (AllWithin (scope.Reaches start)) (ofNodes scope open_ file bound ns) := by
    refine returns_ofNodes fun n hn => ?_
    have hlt : (formOf scope file n).size < form.size :=
      lt_of_lt_of_le (size_formOf_lt n) (le_trans (Node.count_le_countForest hn) hsize)
    rw [ofNode_eq_readForm]
    exact returns_readForm h hfile hbound (keepsTo_formOf h hfile n)
  cases form with
  | closed reading => exact hform
  | object make => exact returns_ok (hform bound hbound)
  | composed parts make => exact (hall le_rfl).bind fun ss hss => returns_ok (hform ss hss)
  | name name t args word =>
    cases hname : entryOf? name bound with
    | some s =>
      obtain ⟨b, hb, rfl⟩ := exists_mem_of_entryOf? hname
      rw [readForm_name_of_bound hname]
      exact returns_ok (boundWithin_iff.1 hbound b hb)
    | none =>
      cases word with
      | some s =>
        rw [readForm_word hname]
        exact returns_ok (hform s rfl)
      | none =>
        rw [readForm_free hname]
        refine (hall le_rfl).bind fun ss hss => ?_
        obtain ⟨r, hr, hwithin⟩ := returns_resolveName h hfile hss open_ name t
        rw [hr]
        cases r with
        | inl s => exact returns_ok hwithin
        | inr found =>
          have hroom := length_le_of_resolveName hr
          exact returns_readForm h hwithin (boundWithin_boundBy hss found.node)
            (keepsTo_formOfDeclaration hwithin found.node t)
  termination_by (maxOpenNames + 2 - open_.length, form.size)
  decreasing_by
    · exact Prod.Lex.right _ hlt
    · apply Prod.Lex.left
      rw [List.length_cons]
      omega

theorem returns_ofNode
    (h : scope.Answers start)
    (hfile : scope.Reaches start file)
    {bound : List (String × Shape)}
    (hbound : BoundWithin (scope.Reaches start) bound)
    (n : Node) :
    Returns (Within (scope.Reaches start)) (ofNode scope [] file bound n) := by
  rw [ofNode_eq_readForm]
  exact returns_readForm h hfile hbound (keepsTo_formOf h hfile n)

/-- What an annotation of the file itself is read to. -/
theorem within_of_ofNode
    (h : scope.Answers start)
    {n : Node}
    {s : Shape}
    (hs : ofNode scope [] start [] n = .ok s) :
    s.Within (scope.Reaches start) := by
  obtain ⟨s', hs', hwithin⟩ := returns_ofNode h .here (show BoundWithin _ [] from trivial) n
  obtain rfl : s' = s := Except.ok.inj (hs'.symm.trans hs)
  exact hwithin

end Reading

section Members

variable {P : SourceFile → Prop} {scope : Scope} {start file : SourceFile}

theorem within_of_type_eq_none
    {f : Field}
    (h : f.type = none) :
    f.Within P := by
  rw [Field.Within, h]
  simp

theorem within_of_mem_ofBody
    {bound : List (String × Shape)}
    {body : Option Node}
    (hfile : P file)
    (hbound : BoundWithin P bound) :
    ∀ f ∈ Field.ofBody file bound body, f.Within P := by
  intro f hf
  unfold Field.ofBody at hf
  split at hf
  · obtain ⟨m, -, hm⟩ := List.mem_filterMap.1 hf
    unfold Field.ofSignature? at hm
    split at hm
    · obtain ⟨name, -, rfl⟩ := Option.map_eq_some_iff.1 hm
      rintro u ⟨⟩
      exact ⟨hfile, hbound⟩
    · obtain ⟨name, -, rfl⟩ := Option.map_eq_some_iff.1 hm
      exact within_of_type_eq_none rfl
    · cases hm
  · cases hf

theorem within_of_mem_ofClass
    {declaration : Node}
    (hfile : P file) :
    ∀ f ∈ Field.ofClass file declaration, f.Within P := by
  intro f hf
  unfold Field.ofClass at hf
  split at hf
  · obtain ⟨m, -, hm⟩ := List.mem_filterMap.1 hf
    unfold Field.ofMember? at hm
    split at hm
    · split at hm
      · split at hm
        · cases hm
        · obtain ⟨name, -, rfl⟩ := Option.map_eq_some_iff.1 hm
          rintro u ⟨⟩
          exact ⟨hfile, trivial⟩
      · cases hm
    · split at hm
      · split at hm
        · cases hm
        · cases hm
          exact within_of_type_eq_none rfl
      · cases hm
    · cases hm
  · cases hf

theorem within_of_mem_merge
    {fields : List Field}
    (h : ∀ f ∈ fields, f.Within P) :
    ∀ f ∈ Field.merge fields, f.Within P := by
  intro f hf
  obtain ⟨e, he, rfl⟩ := List.mem_map.1 hf
  refine forall_mem_ofPairs (P := fun e => e.2.Within P) (fun p hp => ?_) e he
  obtain ⟨f, hf, rfl⟩ := List.mem_map.1 hp
  exact h f hf

theorem fieldsUpTo_ofInterface
    (n : Nat)
    (t : String)
    (name : Option String)
    (declaration : Node)
    (file : SourceFile)
    (bound : List (String × Shape)) :
    fieldsUpTo scope (n + 1) (object t name (.ofInterface declaration file bound)) =
      ((basesOf declaration).mapM fun base => do
        fieldsUpTo scope n (← ofNode scope [] file bound base)) >>= fun inherited =>
      return Field.merge
        (inherited.flatten ++ Field.ofBody file bound (declaration.child? .body)) :=
  rfl

/-- The fields of an object are read from files that are reached. -/
theorem within_of_mem_fieldsUpTo
    (h : scope.Answers start)
    {n : Nat}
    {s : Shape}
    {fs : List Field}
    (hs : s.Within (scope.Reaches start))
    (hfs : fieldsUpTo scope n s = .ok fs) :
    ∀ f ∈ fs, f.Within (scope.Reaches start) := by
  induction n generalizing s fs with
  | zero =>
    cases s with
    | object => cases hfs
    | _ =>
      cases hfs
      exact List.forall_mem_nil _
  | succ n ih =>
    cases s with
    | object t name fields =>
      cases fields with
      | absent =>
        cases hfs
        exact List.forall_mem_nil _
      | ofBody body file bound =>
        cases hfs
        exact within_of_mem_ofBody hs.1 hs.2
      | ofClass declaration file =>
        cases hfs
        exact within_of_mem_ofClass hs
      | ofInterface declaration file bound =>
        rw [fieldsUpTo_ofInterface] at hfs
        obtain ⟨inherited, hinherited, hfs⟩ := exists_of_bind_eq_ok hfs
        cases hfs
        refine within_of_mem_merge fun f hf => ?_
        rcases List.mem_append.1 hf with hf | hf
        · obtain ⟨own, hown, hf⟩ := List.mem_flatten.1 hf
          obtain ⟨base, -, hbase⟩ := exists_of_mem_mapM hinherited hown
          obtain ⟨b, hb, hbase⟩ := exists_of_bind_eq_ok hbase
          obtain ⟨b', hb', hwithin⟩ := returns_ofNode h hs.1 hs.2 base
          obtain rfl : b' = b := Except.ok.inj (hb'.symm.trans hb)
          exact ih hwithin hbase f hf
        · exact within_of_mem_ofBody hs.1 hs.2 f hf
      | merged members =>
        obtain ⟨all, hall, hfs⟩ := exists_of_bind_eq_ok hfs
        cases hfs
        refine within_of_mem_merge fun f hf => ?_
        obtain ⟨own, hown, hf⟩ := List.mem_flatten.1 hf
        obtain ⟨m, hm, hmember⟩ := exists_of_mem_mapM hall hown
        exact ih (allWithin_iff.1 hs m hm) hmember f hf
      | adjusted optional target =>
        obtain ⟨own, hown, hfs⟩ := exists_of_bind_eq_ok hfs
        cases hfs
        intro f hf
        obtain ⟨g, hg, rfl⟩ := List.mem_map.1 hf
        exact ih (s := target) hs hown g hg
      | selected keep names target =>
        obtain ⟨own, hown, hfs⟩ := exists_of_bind_eq_ok hfs
        cases hfs
        exact fun f hf => ih (s := target) hs hown f (List.mem_of_mem_filter hf)
    | _ =>
      cases hfs
      exact List.forall_mem_nil _

/-- The type of a field can be read. -/
theorem returns_fieldShape
    (h : scope.Answers start)
    {f : Field}
    (hf : f.Within (scope.Reaches start)) :
    Returns (Within (scope.Reaches start)) (f.shape scope) := by
  unfold Field.shape
  split
  · next n file bound htype =>
    obtain ⟨hfile, hbound⟩ := hf _ htype
    exact returns_ofNode h hfile hbound n
  · exact returns_ok trivial

end Members

end Shape

end RouteAtlas
