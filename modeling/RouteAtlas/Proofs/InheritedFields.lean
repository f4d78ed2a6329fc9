import Mathlib
import RouteAtlas.Proofs.Entries
import RouteAtlas.Proofs.Inheritance
import RouteAtlas.Proofs.LostComments

/-!
# Inherited fields

An interface has the fields of its bases and its own. Each name is listed once, at the place where it first
comes among the bases in order and the interface itself. The field of a name that the interface declares is
the one that it declares last; that of any other name is taken from the last base that has the name.

A base is written by a name. It is the interface or alias that this name is declared as, in the file or over
an import, unless the name with its arguments is taken for that of a utility type: an interface `Record` of
the project is never a base.
-/

namespace RouteAtlas

open Syntax
open Project (Scope Found)

section Results

variable {α β : Type}

/-- A list of computations has results when each of them has its own. -/
theorem mapM_eq_ok_iff_forall₂
    {f : α → Except Fault β}
    {as : List α}
    {bs : List β} :
    as.mapM f = .ok bs ↔ List.Forall₂ (fun a b => f a = .ok b) as bs := by
  induction as generalizing bs with
  | nil =>
    rw [List.mapM_nil, List.forall₂_nil_left_iff]
    exact ⟨fun h => (Except.ok.inj h).symm, fun h => h ▸ rfl⟩
  | cons a rest ih =>
    rw [List.mapM_cons, List.forall₂_cons_left_iff]
    constructor
    · intro h
      obtain ⟨b, hb, h⟩ := exists_of_bind_eq_ok h
      obtain ⟨bs', hrest, h⟩ := exists_of_bind_eq_ok h
      exact ⟨b, bs', hb, ih.1 hrest, (Except.ok.inj h).symm⟩
    · rintro ⟨b, bs', hb, hrest, rfl⟩
      rw [hb, ih.2 hrest]
      rfl

end Results

namespace Field

section Merging

/-- The last of some fields that has a name. -/
def lastNamed?
    (x : String)
    (fs : List Field) :
    Option Field :=
  fs.reverse.find? fun f => f.name == x

theorem lastNamed?_append
    (x : String)
    (fs gs : List Field) :
    lastNamed? x (fs ++ gs) = (lastNamed? x gs).or (lastNamed? x fs) := by
  rw [lastNamed?, List.reverse_append, List.find?_append]
  rfl

theorem lastNamed?_flatten
    (x : String)
    (lists : List (List Field)) :
    lastNamed? x lists.flatten = lists.reverse.findSome? (lastNamed? x) := by
  induction lists with
  | nil => rfl
  | cons fs rest ih =>
    rw [List.flatten_cons, lastNamed?_append, ih, List.reverse_cons, List.findSome?_append]
    simp

theorem name_of_lastNamed?
    {x : String}
    {f : Field}
    {fs : List Field}
    (h : lastNamed? x fs = some f) :
    f.name = x := by
  simpa using List.find?_some h

theorem name_of_mem_ofPairs
    {e : String × Field}
    {fs : List Field}
    (h : e ∈ ofPairs (fs.map fun f => (f.name, f))) :
    e.2.name = e.1 := by
  refine forall_mem_ofPairs (P := fun e => e.2.name = e.1) (fun p hp => ?_) e h
  obtain ⟨f, -, rfl⟩ := List.mem_map.1 hp
  rfl

theorem map_name_merge_eq_keys (fs : List Field) :
    (merge fs).map Field.name = (ofPairs (fs.map fun f => (f.name, f))).map Prod.fst := by
  rw [merge, List.map_map]
  exact List.map_congr_left fun e he => name_of_mem_ofPairs he

/-- The names of merged fields stand where they first came. -/
theorem map_name_merge (fs : List Field) :
    (merge fs).map Field.name = (fs.map Field.name).eraseDups := by
  rw [map_name_merge_eq_keys, map_fst_ofPairs, List.map_map]
  rfl

theorem nodup_name_merge (fs : List Field) : ((merge fs).map Field.name).Nodup := by
  rw [map_name_merge_eq_keys]
  exact nodup_keys_ofPairs _

/-- A merged field is the last one of its name. -/
theorem mem_merge_iff
    {f : Field}
    {fs : List Field} :
    f ∈ merge fs ↔ lastNamed? f.name fs = some f := by
  have hlast : entryOf? f.name (ofPairs (fs.map fun g => (g.name, g))) = lastNamed? f.name fs := by
    rw [entryOf?_ofPairs, ← List.map_reverse, List.find?_map, Option.map_map]
    exact congrFun Option.map_id _
  rw [← hlast, entryOf?_eq_some_iff (nodup_keys_ofPairs _), merge, List.mem_map]
  constructor
  · rintro ⟨⟨key, g⟩, hmem, rfl⟩
    rwa [name_of_mem_ofPairs hmem]
  · exact fun hmem => ⟨_, hmem, rfl⟩

theorem mem_name_merge_iff
    {x : String}
    {fs : List Field} :
    x ∈ (merge fs).map Field.name ↔ x ∈ fs.map Field.name := by
  rw [map_name_merge, List.mem_eraseDups]

end Merging

section Declaring

/-- The name that a member of an interface or of an object type declares. -/
def declaredName? (m : Node) : Option String :=
  match m.kind with
  | .propertySignature | .methodSignature => (m.child? .name).bind Node.keyName?
  | _ => none

/-- The members of the body of an interface or an object type. -/
def membersOf (body : Option Node) : List Node :=
  (body.map Node.namedChildren).getD []

/-- The member that declares a name last. -/
def lastDeclaring?
    (body : Option Node)
    (x : String) :
    Option Node :=
  (membersOf body).reverse.find? fun m => declaredName? m == some x

/-- The field has the optionality and the type of a member: those that a property is written with. A method
is never optional, and has no type. -/
structure IsDeclaredBy
    (f : Field)
    (file : SourceFile)
    (bound : List (String × Shape))
    (m : Node) :
    Prop where
  isMethod : f.isMethod = (m.kind == .methodSignature)
  optional : f.optional = (m.kind == .propertySignature && m.hasToken "?")
  type : f.type = if m.kind = .propertySignature then some ⟨m.child? .type, file, bound⟩ else none

variable {file : SourceFile} {bound : List (String × Shape)}

theorem map_name_ofSignature?
    (file : SourceFile)
    (bound : List (String × Shape))
    (m : Node) :
    (ofSignature? file bound m).map Field.name = declaredName? m := by
  unfold ofSignature? declaredName?
  cases hkind : m.kind <;> simp [Option.map_map, Function.comp_def]

theorem isDeclaredBy_of_ofSignature?
    {m : Node}
    {f : Field}
    (h : ofSignature? file bound m = some f) :
    f.IsDeclaredBy file bound m := by
  unfold ofSignature? at h
  split at h
  · next hkind =>
    obtain ⟨x, -, rfl⟩ := Option.map_eq_some_iff.1 h
    exact ⟨by rw [hkind]; rfl, by rw [hkind]; rfl, by rw [if_pos hkind]⟩
  · next hkind =>
    obtain ⟨x, -, rfl⟩ := Option.map_eq_some_iff.1 h
    exact ⟨by rw [hkind]; rfl, by rw [hkind]; rfl, by rw [hkind]; rfl⟩
  · cases h

theorem ofBody_eq (body : Option Node) :
    ofBody file bound body = (membersOf body).filterMap (ofSignature? file bound) := by
  cases body <;> rfl

theorem map_name_ofBody (body : Option Node) :
    (ofBody file bound body).map Field.name = (membersOf body).filterMap declaredName? := by
  rw [ofBody_eq, List.map_filterMap]
  exact List.filterMap_congr fun m _ => map_name_ofSignature? file bound m

/-- The last field of a name is the one that the last member of this name declares. -/
theorem lastNamed?_ofBody
    (x : String)
    (body : Option Node) :
    lastNamed? x (ofBody file bound body) =
      (lastDeclaring? body x).bind (ofSignature? file bound) := by
  rw [lastNamed?, ofBody_eq, ← List.filterMap_reverse, List.find?_filterMap, lastDeclaring?]
  congr 2
  funext m
  rw [← map_name_ofSignature? file bound m]
  cases ofSignature? file bound m <;> simp

end Declaring

end Field

namespace Shape

section Readings

variable {scope : Scope} {file : SourceFile} {bound : List (String × Shape)} {open_ : OpenNames}

/-- The name by which a type is written, with its arguments. -/
def typeName? (n : Node) : Option (String × List Node) :=
  match n.kind with
  | .typeIdentifier | .identifier => if (ofWord? n.text).isSome then none else some (n.text, [])
  | .genericType =>
    match n.child? .name with
    | none => none
    | some name =>
      if name.kind == .nestedTypeIdentifier then none
      else some (name.text, ((n.child? .typeArguments).map Node.parts).getD [])
  | _ => none

/-- The text of a type that is written by a name. -/
def writtenAs (n : Node) : String :=
  match n.kind with
  | .genericType => singleSpaced n.text
  | _ => n.text

theorem ofNode_of_typeName?
    {n : Node}
    {name : String}
    {args : List Node}
    (h : typeName? n = some (name, args)) :
    ofNode scope open_ file bound n = ofName scope open_ file bound name (writtenAs n) args := by
  unfold typeName? at h
  split at h
  · next hkind =>
    split at h
    · cases h
    · next hword =>
      cases h
      rw [Option.not_isSome_iff_eq_none] at hword
      rw [ofNode, hkind, writtenAs, hkind, hword]
  · next hkind =>
    split at h
    · cases h
    · next hword =>
      cases h
      rw [Option.not_isSome_iff_eq_none] at hword
      rw [ofNode, hkind, writtenAs, hkind, hword]
  · next hkind =>
    rw [ofNode, hkind, writtenAs, hkind]
    cases hname : n.child? .name with
    | none => simp [hname] at h
    | some name' =>
      simp only [hname] at h ⊢
      split at h
      · cases h
      · next hnested =>
        cases h
        rw [if_neg hnested]
        split
        · next args' hargs => rw [hargs]; rfl
        · next hargs => rw [hargs]; rfl
  · cases h

/-- A name that is no type parameter and not taken for a utility type stands for what it is declared as. -/
theorem ofName_of_found
    {name t : String}
    {args : List Node}
    {ss : List Shape}
    {found : Found}
    (hbound : entryOf? name bound = none)
    (hargs : ofNodes scope open_ file bound args = .ok ss)
    (hutility : ofUtility? name t ss = none)
    (hnew : (file.path, name) ∉ open_)
    (hroom : open_.length ≤ maxOpenNames)
    (hfound : scope.type name file = .ok (.ok found)) :
    ofName scope open_ file bound name t args =
      ofDeclaration scope ((file.path, name) :: open_) found.file found.node ss t := by
  rw [ofName, hbound, hargs]
  simp only [bind, Except.bind, hutility, hfound]
  rw [dif_neg (by simpa using ⟨hnew, hroom⟩)]

/-- What a declaration that is found is read as, when it is used with some arguments as a base. -/
inductive DeclaredAs
    (scope : Scope)
    (open_ : OpenNames)
    (found : Found)
    (ss : List Shape)
    (t : String) :
    Shape → Prop
  | ofInterface
      (hkind : found.node.kind = .interfaceDeclaration) :
      DeclaredAs scope open_ found ss t
        (object t none (.ofInterface found.node found.file (boundBy found.node ss)))
  | ofAlias
      {v : Node}
      {s : Shape}
      (hkind : found.node.kind = .typeAliasDeclaration)
      (hvalue : found.node.child? .value = some v)
      (hread : ofNode scope open_ found.file (boundBy found.node ss) v = .ok s) :
      DeclaredAs scope open_ found ss t (s.renamed t)

theorem ofDeclaration_of_declaredAs
    {found : Found}
    {ss : List Shape}
    {t : String}
    {s : Shape}
    (h : DeclaredAs scope open_ found ss t s) :
    ofDeclaration scope open_ found.file found.node ss t = .ok s := by
  cases h with
  | ofInterface hkind => rw [ofDeclaration, hkind]
  | @ofAlias v s hkind hvalue hread =>
    rw [ofDeclaration, hkind]
    dsimp only
    split
    · next hnone => cases hvalue.symm.trans hnone
    · next v' hvalue' =>
      obtain rfl : v = v' := Option.some.inj (hvalue.symm.trans hvalue')
      rw [hread]
      rfl

/-- A base is read as what its name is declared as, in the same file or in the one that the name is imported
from, unless the name with its arguments is taken for a utility type. -/
def ReadAsDeclared
    (scope : Scope)
    (file : SourceFile)
    (bound : List (String × Shape))
    (base : Node) :
    Prop :=
  ∀ name args ss found s,
    typeName? base = some (name, args) → entryOf? name bound = none →
      ofNodes scope [] file bound args = .ok ss → ofUtility? name (writtenAs base) ss = none →
        scope.type name file = .ok (.ok found) →
          DeclaredAs scope [(file.path, name)] found ss (writtenAs base) s →
            ofNode scope [] file bound base = .ok s

theorem readAsDeclared (base : Node) : ReadAsDeclared scope file bound base := by
  intro name args ss found s hname hbound hargs hutility hfound hdeclared
  rw [ofNode_of_typeName? hname, ofName_of_found hbound hargs hutility (by simp) (by simp [maxOpenNames])
    hfound]
  exact ofDeclaration_of_declaredAs hdeclared

end Readings

section Ancestors

variable {scope : Scope}

/-- The names of the fields that a type declares itself. -/
def declaredNames : Shape → List String
  | object _ _ (.ofBody body _ _) => (Field.membersOf (some body)).filterMap Field.declaredName?
  | object _ _ (.ofInterface declaration _ _) =>
    (Field.membersOf (declaration.child? .body)).filterMap Field.declaredName?
  | object _ _ (.ofClass declaration file) => (Field.ofClass file declaration).map Field.name
  | _ => []

/-- Whether a type takes over the fields of a name from what it draws on: only a selection does not take
over all of them. -/
def takesOver
    (x : String) :
    Shape → Bool
  | object _ _ (.selected keep names _) => names.contains x == keep
  | _ => true

/-- A type draws the field of a name from another one. -/
def PassesOn
    (scope : Scope)
    (x : String)
    (s b : Shape) :
    Prop :=
  DrawsOn scope s b ∧ s.takesOver x = true

/-- A name is declared in a type or in one of its ancestors. -/
def IsDeclaredAbove
    (scope : Scope)
    (x : String)
    (s : Shape) :
    Prop :=
  ∃ a, Relation.ReflTransGen (PassesOn scope x) s a ∧ x ∈ a.declaredNames

theorem isDeclaredAbove_iff
    {x : String}
    {s : Shape} :
    IsDeclaredAbove scope x s ↔
      x ∈ s.declaredNames ∨ ∃ b, PassesOn scope x s b ∧ IsDeclaredAbove scope x b := by
  constructor
  · rintro ⟨a, hpath, ha⟩
    rcases hpath.cases_head with rfl | ⟨b, hb, hrest⟩
    · exact .inl ha
    · exact .inr ⟨b, hb, a, hrest, ha⟩
  · rintro (hs | ⟨b, hb, a, hrest, ha⟩)
    · exact ⟨s, .refl, hs⟩
    · exact ⟨a, .head hb hrest, ha⟩

/-- The fields of an interface are those of its bases, as far as they can be read, merged with its own. -/
theorem exists_lists_of_fieldsUpTo
    {n : Nat}
    {t : String}
    {name : Option String}
    {declaration : Node}
    {file : SourceFile}
    {bound : List (String × Shape)}
    {fs : List Field}
    (h : fieldsUpTo scope (n + 1) (object t name (.ofInterface declaration file bound)) = .ok fs) :
    ∃ lists, List.Forall₂ (fun base l => ∃ b, ofNode scope [] file bound base = .ok b ∧
        fieldsUpTo scope n b = .ok l) (basesOf declaration) lists ∧
      fs = Field.merge (lists.flatten ++ Field.ofBody file bound (declaration.child? .body)) := by
  rw [fieldsUpTo_ofInterface] at h
  obtain ⟨lists, hlists, h⟩ := exists_of_bind_eq_ok h
  refine ⟨lists, ?_, (Except.ok.inj h).symm⟩
  exact (mapM_eq_ok_iff_forall₂.1 hlists).imp fun base l hl => exists_of_bind_eq_ok hl

/-- What declares nothing itself has the names of what it draws on. -/
theorem isDeclaredAbove_iff_of_declaredNames_eq_nil
    {x : String}
    {s : Shape}
    (hown : s.declaredNames = []) :
    IsDeclaredAbove scope x s ↔ ∃ b, PassesOn scope x s b ∧ IsDeclaredAbove scope x b := by
  rw [isDeclaredAbove_iff, hown]
  exact or_iff_right List.not_mem_nil

/-- What draws on nothing has the names that it declares itself. -/
theorem isDeclaredAbove_iff_of_not_drawsOn
    {x : String}
    {s : Shape}
    (hdraws : ∀ b, ¬ DrawsOn scope s b) :
    IsDeclaredAbove scope x s ↔ x ∈ s.declaredNames := by
  rw [isDeclaredAbove_iff]
  exact or_iff_left fun ⟨b, hb, _⟩ => hdraws b hb.1

theorem not_isDeclaredAbove
    {x : String}
    {s : Shape}
    (hown : s.declaredNames = [])
    (hdraws : ∀ b, ¬ DrawsOn scope s b) :
    ¬ IsDeclaredAbove scope x s := by
  rw [isDeclaredAbove_iff_of_not_drawsOn hdraws, hown]
  exact List.not_mem_nil

theorem mem_map_name_flatten_iff
    {x : String}
    {lists : List (List Field)} :
    x ∈ lists.flatten.map Field.name ↔ ∃ l ∈ lists, x ∈ l.map Field.name := by
  simp only [List.mem_map, List.mem_flatten]
  constructor
  · rintro ⟨f, ⟨l, hl, hf⟩, hx⟩
    exact ⟨l, hl, f, hf, hx⟩
  · rintro ⟨l, hl, f, hf, hx⟩
    exact ⟨f, ⟨l, hl, hf⟩, hx⟩

/-- The fields of a type have the names that are declared in it or in an ancestor. -/
theorem mem_name_fieldsUpTo_iff
    {n : Nat}
    {s : Shape}
    {fs : List Field}
    (h : fieldsUpTo scope n s = .ok fs)
    (x : String) :
    x ∈ fs.map Field.name ↔ IsDeclaredAbove scope x s := by
  induction n generalizing s fs with
  | zero =>
    cases s with
    | object => cases h
    | _ =>
      cases h
      exact iff_of_false (List.not_mem_nil) (not_isDeclaredAbove rfl nofun)
  | succ n ih =>
    cases s with
    | object t name fields =>
      cases fields with
      | absent =>
        cases h
        exact iff_of_false (List.not_mem_nil) (not_isDeclaredAbove rfl nofun)
      | ofBody body file bound =>
        cases h
        have hdraws : ∀ b, ¬ DrawsOn scope (object t name (.ofBody body file bound)) b := nofun
        rw [isDeclaredAbove_iff_of_not_drawsOn hdraws, Field.map_name_ofBody]
        rfl
      | ofClass declaration file =>
        cases h
        have hdraws : ∀ b, ¬ DrawsOn scope (object t name (.ofClass declaration file)) b := nofun
        rw [isDeclaredAbove_iff_of_not_drawsOn hdraws]
        rfl
      | ofInterface declaration file bound =>
        obtain ⟨lists, hlists, rfl⟩ := exists_lists_of_fieldsUpTo h
        rw [Field.mem_name_merge_iff, List.map_append, List.mem_append, Field.map_name_ofBody, or_comm,
          mem_map_name_flatten_iff, isDeclaredAbove_iff]
        refine or_congr Iff.rfl ⟨?_, ?_⟩
        · rintro ⟨l, hl, hx⟩
          obtain ⟨base, hbase, b, hb, hfields⟩ := exists_of_forall₂_of_mem_right hlists hl
          exact ⟨b, ⟨.base hbase hb, rfl⟩, (ih hfields).1 hx⟩
        · rintro ⟨b, ⟨hdraws, -⟩, habove⟩
          obtain ⟨hbase, hb⟩ := hdraws
          obtain ⟨l, hl, b', hb', hfields⟩ := exists_of_forall₂_of_mem_left hlists hbase
          obtain rfl : b = b' := Except.ok.inj (hb.symm.trans hb')
          exact ⟨l, hl, (ih hfields).2 habove⟩
      | merged members =>
        obtain ⟨lists, hlists, h⟩ := exists_of_bind_eq_ok h
        cases h
        have hall := mapM_eq_ok_iff_forall₂.1 hlists
        rw [Field.mem_name_merge_iff, mem_map_name_flatten_iff,
          isDeclaredAbove_iff_of_declaredNames_eq_nil rfl]
        constructor
        · rintro ⟨l, hl, hx⟩
          obtain ⟨m, hm, hfields⟩ := exists_of_forall₂_of_mem_right hall hl
          exact ⟨m, ⟨.member hm, rfl⟩, (ih hfields).1 hx⟩
        · rintro ⟨m, ⟨hdraws, -⟩, habove⟩
          obtain (_ | hm) := hdraws
          obtain ⟨l, hl, hfields⟩ := exists_of_forall₂_of_mem_left hall hm
          exact ⟨l, hl, (ih hfields).2 habove⟩
      | adjusted optional target =>
        obtain ⟨gs, hgs, h⟩ := exists_of_bind_eq_ok h
        cases h
        have hnames : (gs.map fun f => { f with optional := optional.getD f.optional }).map Field.name =
            gs.map Field.name := by rw [List.map_map]; rfl
        rw [hnames, ih hgs, isDeclaredAbove_iff_of_declaredNames_eq_nil (s := object _ _ _) rfl]
        constructor
        · exact fun habove => ⟨target, ⟨.adjusted, rfl⟩, habove⟩
        · rintro ⟨b, ⟨hdraws, -⟩, habove⟩
          cases hdraws
          exact habove
      | selected keep names target =>
        obtain ⟨gs, hgs, h⟩ := exists_of_bind_eq_ok h
        cases h
        have hnames : x ∈ (gs.filter fun f => names.contains f.name == keep).map Field.name ↔
            (names.contains x == keep) = true ∧ x ∈ gs.map Field.name := by
          simp only [List.mem_map, List.mem_filter]
          constructor
          · rintro ⟨f, ⟨hf, hkeep⟩, rfl⟩
            exact ⟨hkeep, f, hf, rfl⟩
          · rintro ⟨hkeep, f, hf, rfl⟩
            exact ⟨f, ⟨hf, hkeep⟩, rfl⟩
        rw [hnames, ih hgs, isDeclaredAbove_iff_of_declaredNames_eq_nil (s := object _ _ _) rfl]
        constructor
        · rintro ⟨hkeep, habove⟩
          exact ⟨target, ⟨.selected, hkeep⟩, habove⟩
        · rintro ⟨b, ⟨hdraws, hkeep⟩, habove⟩
          cases hdraws
          exact ⟨hkeep, habove⟩
    | _ =>
      cases h
      exact iff_of_false (List.not_mem_nil) (not_isDeclaredAbove rfl nofun)

end Ancestors

section Inheriting

variable {scope : Scope}

/-- Fields that can be read over some steps are the same over more of them. -/
theorem fieldsUpTo_mono
    {n m : Nat}
    {s : Shape}
    {fs : List Field}
    (h : fieldsUpTo scope n s = .ok fs)
    (hle : n ≤ m) :
    fieldsUpTo scope m s = .ok fs := by
  induction n generalizing m s fs with
  | zero =>
    cases s with
    | object => cases h
    | _ =>
      cases h
      cases m <;> rfl
  | succ n ih =>
    obtain ⟨m, rfl⟩ : ∃ k, m = k + 1 := ⟨m - 1, by omega⟩
    have hle : n ≤ m := by omega
    cases s with
    | object t name fields =>
      cases fields with
      | absent | ofBody body file bound | ofClass declaration file => exact h
      | ofInterface declaration file bound =>
        rw [fieldsUpTo_ofInterface] at h ⊢
        obtain ⟨lists, hlists, h⟩ := exists_of_bind_eq_ok h
        have hmore := (mapM_eq_ok_iff_forall₂.1 hlists).imp fun base l hl => by
          obtain ⟨b, hb, hl⟩ := exists_of_bind_eq_ok hl
          exact show (do fieldsUpTo scope m (← ofNode scope [] file bound base)) = .ok l by
            rw [hb]
            exact ih hl hle
        rw [mapM_eq_ok_iff_forall₂.2 hmore]
        exact h
      | merged members =>
        obtain ⟨lists, hlists, h⟩ := exists_of_bind_eq_ok h
        have hmore := (mapM_eq_ok_iff_forall₂.1 hlists).imp fun b l hl => ih hl hle
        have hstep : fieldsUpTo scope (m + 1) (object t name (.merged members)) =
            members.mapM (fieldsUpTo scope m) >>= fun all => return Field.merge all.flatten := rfl
        rw [hstep, mapM_eq_ok_iff_forall₂.2 hmore]
        exact h
      | adjusted optional target =>
        obtain ⟨gs, hgs, h⟩ := exists_of_bind_eq_ok h
        have hstep : fieldsUpTo scope (m + 1) (object t name (.adjusted optional target)) =
            fieldsUpTo scope m target >>= fun fs =>
              return fs.map fun f => { f with optional := optional.getD f.optional } := rfl
        rw [hstep, ih hgs hle]
        exact h
      | selected keep names target =>
        obtain ⟨gs, hgs, h⟩ := exists_of_bind_eq_ok h
        have hstep : fieldsUpTo scope (m + 1) (object t name (.selected keep names target)) =
            fieldsUpTo scope m target >>= fun fs =>
              return fs.filter fun f => names.contains f.name == keep := rfl
        rw [hstep, ih hgs hle]
        exact h
    | _ => exact h

/-- The fields of an interface come from the lists of the fields of its bases, in order, and its own
members. -/
structure Inherits
    (scope : Scope)
    (declaration : Node)
    (file : SourceFile)
    (bound : List (String × Shape))
    (lists : List (List Field))
    (fs : List Field) :
    Prop where
  /-- There is one list for each base. -/
  bases : List.Forall₂
    (fun base l => ∃ b, ofNode scope [] file bound base = .ok b ∧ b.fieldList scope = .ok l)
    (basesOf declaration) lists
  /-- Every name is listed once. -/
  nodup : (fs.map Field.name).Nodup
  /-- A name stands where it first comes. -/
  names : fs.map Field.name = (lists.flatten.map Field.name ++
    (Field.membersOf (declaration.child? .body)).filterMap Field.declaredName?).eraseDups
  /-- A name that is declared in the interface has the optionality and type of its last declaration. -/
  own : ∀ x m, Field.lastDeclaring? (declaration.child? .body) x = some m →
    ∃ f ∈ fs, f.name = x ∧ f.IsDeclaredBy file bound m
  /-- Any other name has those of the last base with the name. -/
  inherited : ∀ f ∈ fs, Field.lastDeclaring? (declaration.child? .body) f.name = none →
    lists.reverse.findSome? (Field.lastNamed? f.name) = some f

theorem inherits_merge
    {declaration : Node}
    {file : SourceFile}
    {bound : List (String × Shape)}
    {lists : List (List Field)}
    (hbases : List.Forall₂
      (fun base l => ∃ b, ofNode scope [] file bound base = .ok b ∧ b.fieldList scope = .ok l)
      (basesOf declaration) lists) :
    Inherits scope declaration file bound lists
      (Field.merge (lists.flatten ++ Field.ofBody file bound (declaration.child? .body))) where
  bases := hbases
  nodup := Field.nodup_name_merge _
  names := by
    rw [Field.map_name_merge, List.map_append, Field.map_name_ofBody]
  own x m hm := by
    obtain ⟨f, hf⟩ : ∃ f, Field.ofSignature? file bound m = some f := by
      have hname : Field.declaredName? m = some x := by simpa using List.find?_some hm
      rw [← Field.map_name_ofSignature? file bound m] at hname
      obtain ⟨f, hf, -⟩ := Option.map_eq_some_iff.1 hname
      exact ⟨f, hf⟩
    have hlast : Field.lastNamed? x (Field.ofBody file bound (declaration.child? .body)) = some f := by
      rw [Field.lastNamed?_ofBody, hm]
      exact hf
    obtain rfl := Field.name_of_lastNamed? hlast
    refine ⟨f, Field.mem_merge_iff.2 ?_, rfl, Field.isDeclaredBy_of_ofSignature? hf⟩
    rw [Field.lastNamed?_append, hlast]
    rfl
  inherited f hf hnone := by
    have hlast := Field.mem_merge_iff.1 hf
    rwa [Field.lastNamed?_append, Field.lastNamed?_ofBody, hnone, Option.bind_none, Option.none_or,
      Field.lastNamed?_flatten] at hlast

/-- The fields of an interface are there unless its ancestors lead on for more steps than are followed. They
have the names that the interface or an ancestor declares, each once and where it first comes, with the
optionality and type that the interface declares itself, or else those of the last base with the name. All
bases are read as their names are declared, unless they are taken for utility types. -/
theorem fieldList_inherits
    {scope : Scope}
    {start file : SourceFile}
    {declaration : Node}
    {bound : List (String × Shape)}
    (h : scope.Answers start)
    (hwithin : (Fields.ofInterface declaration file bound).Within (scope.Reaches start))
    (t : String)
    (name : Option String) :
    ((∃ fs, fieldList scope (object t name (.ofInterface declaration file bound)) = .ok fs) ↔
        ¬ DrawsThrough scope maxInheritance (object t name (.ofInterface declaration file bound))) ∧
      (∀ fs, fieldList scope (object t name (.ofInterface declaration file bound)) = .ok fs →
        (∃ lists, Inherits scope declaration file bound lists fs) ∧
          ∀ x, x ∈ fs.map Field.name ↔
            IsDeclaredAbove scope x (object t name (.ofInterface declaration file bound))) ∧
      ∀ file bound base, ReadAsDeclared scope file bound base := by
  refine ⟨exists_fieldsUpTo_iff h hwithin, fun fs hfs => ⟨?_, mem_name_fieldsUpTo_iff hfs⟩,
    fun _ _ => readAsDeclared⟩
  obtain ⟨lists, hlists, rfl⟩ := exists_lists_of_fieldsUpTo hfs
  refine ⟨lists, inherits_merge (hlists.imp fun base l hl => ?_)⟩
  obtain ⟨b, hb, hl⟩ := hl
  exact ⟨b, hb, fieldsUpTo_mono hl (Nat.le_succ _)⟩

/-- Whether an interface of a file has fields of some names, all its bases being interfaces of the file. -/
def hasFields
    (file : SourceFile)
    (name : String)
    (names : List String)
    (d : Node) :
    Bool :=
  (declaredFields? 2 (object name none (.ofInterface d file []))).any fun fs =>
    fs.map Field.name == names

theorem fieldList_inherits_heir :
    ∃ d lists fs, heir.findType? "User" = some d ∧
      fieldList ⟨none⟩ (object "User" none (.ofInterface d heir [])) = .ok fs ∧
      fs.map Field.name = ["id", "name"] ∧ Inherits ⟨none⟩ d heir [] lists fs := by
  have huser : (heir.findType? "User").any (hasFields heir "User" ["id", "name"]) = true := by
    decide +kernel
  obtain ⟨d, hd, h⟩ := (Option.any_eq_true _ _).1 huser
  obtain ⟨fs, hfs, hnames⟩ := (Option.any_eq_true _ _).1 h
  have hfields : fieldList ⟨none⟩ (object "User" none (.ofInterface d heir [])) = .ok fs :=
    fieldsUpTo_of_declaredFields? hfs (by decide)
  have hwithin : (Fields.ofInterface d heir []).Within (Scope.Reaches ⟨none⟩ heir) := ⟨.here, trivial⟩
  obtain ⟨-, hinherits, -⟩ := fieldList_inherits (Project.answers_none heir) hwithin "User" none
  obtain ⟨⟨lists, hlists⟩, -⟩ := hinherits fs hfields
  exact ⟨d, lists, fs, hd, hfields, by simpa using hnames, hlists⟩

/-- A file with an interface that extends one of the name `Record`. -/
def album : SourceFile :=
  SourceFile.ofText ⟨true, ["s", "file.ts"]⟩
    ("interface Record \x7b id: string \x7d\ninterface Album extends Record \x7b title: string \x7d\n" ++
      "const x: Album = null;\n")

/-- Whether an interface of a file has one base, of the name of another interface of the file that declares
some names. -/
def hasBase
    (file : SourceFile)
    (name : String)
    (names : List String)
    (d : Node) :
    Bool :=
  (basesOf d).any fun base => (basesOf d).length == 1 && base.kind == .typeIdentifier && base.text == name &&
    (file.findType? name).any fun r => r.kind == .interfaceDeclaration &&
      (object name none (.ofInterface r file [])).declaredNames == names

/-- An interface `Record` of a file is not what `Record` stands for as a base: the field that it declares is
not inherited. -/
theorem record_not_inherited :
    ∃ d base r fs, album.findType? "Album" = some d ∧ basesOf d = [base] ∧ base.text = "Record" ∧
      album.findType? "Record" = some r ∧ r.kind = .interfaceDeclaration ∧
      (object "Record" none (.ofInterface r album [])).declaredNames = ["id"] ∧
      fieldList ⟨none⟩ (object "Album" none (.ofInterface d album [])) = .ok fs ∧
      fs.map Field.name = ["title"] := by
  have halbum : (album.findType? "Album").any (fun d => hasBase album "Record" ["id"] d &&
      (Field.merge (Field.ofBody album [] (d.child? .body))).map Field.name == ["title"]) = true := by
    decide +kernel
  obtain ⟨d, hd, h⟩ := (Option.any_eq_true _ _).1 halbum
  rw [Bool.and_eq_true, beq_iff_eq, hasBase, List.any_eq_true] at h
  obtain ⟨⟨base, hbase, h⟩, hnames⟩ := h
  simp only [Bool.and_eq_true, beq_iff_eq, Option.any_eq_true] at h
  obtain ⟨⟨⟨hone, hkind⟩, htext⟩, r, hr, hinterface, hdeclared⟩ := h
  obtain ⟨only, honly⟩ := List.length_eq_one_iff.1 hone
  obtain rfl : base = only := by simpa [honly] using hbase
  have hread : ofNode ⟨none⟩ [] album [] base = .ok (object "Record" (some "Record") .absent) := by
    have hargs : ofNodes ⟨none⟩ [] album [] [] = .ok [] := by rw [ofNodes]
    rw [ofNode, hkind, htext]
    simp only [ofWord?, ofName, entryOf?, hargs]
    rfl
  have hfields : fieldList ⟨none⟩ (object "Album" none (.ofInterface d album [])) =
      .ok (Field.merge (Field.ofBody album [] (d.child? .body))) := by
    have hstep := @fieldsUpTo_ofInterface ⟨none⟩ 329 "Album" none d album []
    rw [honly, List.mapM_cons, hread] at hstep
    exact hstep
  exact ⟨d, base, r, _, hd, honly, htext, hr, hinterface, hdeclared, hfields, hnames⟩

end Inheriting

end Shape

end RouteAtlas
