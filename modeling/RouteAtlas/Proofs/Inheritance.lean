import Mathlib
import RouteAtlas.Proofs.ExampleDepth
import RouteAtlas.Proofs.ShapeFiles

/-!
# Inheritance

As long as names can be looked up in the files a type leads to, the type can be read, and its example
visits no text twice; but the fields of an object are drawn from other types before any text is visited:
from the bases of an interface, the members of an intersection, what a utility type is applied to.
Nothing but the longest chain of such steps that is followed bounds this, and a declaration that leads
back to itself in this way has chains of any length. So there is an example exactly when no object that
is written out begins a chain that is too long.
-/

namespace RouteAtlas

open Syntax
open Project (Scope)

section Results

variable {α β : Type}

/-- A list of computations fails with one of them. -/
theorem exists_of_mapM_eq_error
    {f : α → Except Fault β}
    {as : List α}
    {e : Fault}
    (h : as.mapM f = .error e) :
    ∃ a ∈ as, f a = .error e := by
  induction as with
  | nil => cases h
  | cons a rest ih =>
    rw [List.mapM_cons] at h
    cases ha : f a with
    | error e' =>
      rw [ha] at h
      obtain rfl := Except.error.inj h
      exact ⟨a, List.mem_cons_self .., ha⟩
    | ok b =>
      cases hrest : rest.mapM f with
      | error e' =>
        rw [ha, hrest] at h
        obtain rfl := Except.error.inj h
        obtain ⟨a', ha', hf⟩ := ih hrest
        exact ⟨a', List.mem_cons_of_mem _ ha', hf⟩
      | ok bs =>
        rw [ha, hrest] at h
        cases h

theorem mapM_eq_ok_of_mapM_eq_some
    {f : α → Option β}
    {g : α → Except Fault β}
    (h : ∀ a b, f a = some b → g a = .ok b)
    {as : List α}
    {bs : List β}
    (has : as.mapM f = some bs) :
    as.mapM g = .ok bs := by
  induction as generalizing bs with
  | nil =>
    obtain rfl : [] = bs := by simpa using has
    rfl
  | cons a rest ih =>
    rw [List.mapM_cons] at has
    obtain ⟨b, hb, has⟩ := Option.bind_eq_some_iff.1 has
    obtain ⟨bs', hrest, has⟩ := Option.bind_eq_some_iff.1 has
    obtain rfl := Option.some.inj has
    rw [List.mapM_cons, h a b hb, ih hrest]
    rfl

end Results

namespace Shape

section Chains

variable (scope : Scope)

/-- What an object draws fields from: the bases of an interface, the members of an intersection, and what
a utility type is applied to. -/
inductive DrawsOn : Shape → Shape → Prop
  | base {t : String} {name : Option String} {declaration base : Node} {file : SourceFile}
      {bound : List (String × Shape)} {b : Shape}
      (hbase : base ∈ basesOf declaration) (h : ofNode scope [] file bound base = .ok b) :
      DrawsOn (object t name (.ofInterface declaration file bound)) b
  | member {t : String} {name : Option String} {members : List Shape} {m : Shape}
      (h : m ∈ members) :
      DrawsOn (object t name (.merged members)) m
  | adjusted {t : String} {name : Option String} {optional : Option Bool} {target : Shape} :
      DrawsOn (object t name (.adjusted optional target)) target
  | selected {t : String} {name : Option String} {keep : Bool} {names : List String}
      {target : Shape} :
      DrawsOn (object t name (.selected keep names target)) target

/-- Whether fields are drawn over so many steps, each from an object to one that it draws on. -/
inductive DrawsThrough : Nat → Shape → Prop
  | last {t : String} {name : Option String} {fields : Fields} :
      DrawsThrough 0 (object t name fields)
  | step {n : Nat} {s b : Shape} (h : DrawsOn scope s b) (hrest : DrawsThrough n b) :
      DrawsThrough (n + 1) s

variable {scope} {start : SourceFile}

theorem exists_object_of_drawsOn
    {s b : Shape}
    (h : DrawsOn scope s b) :
    ∃ t name fields, s = object t name fields := by
  cases h with
  | base | member | adjusted | selected => exact ⟨_, _, _, rfl⟩

/-- An object that leads back to itself draws fields over any number of steps. -/
theorem drawsThrough_of_cycle
    {s : Shape}
    (h : Relation.TransGen (DrawsOn scope) s s)
    (n : Nat) :
    DrawsThrough scope n s := by
  have hnext {b : Shape} (hb : Relation.ReflTransGen (DrawsOn scope) b s) :
      ∃ c, DrawsOn scope b c ∧ Relation.ReflTransGen (DrawsOn scope) c s := by
    rcases hb.cases_head with rfl | hb
    · exact (Relation.TransGen.head'_iff).1 h
    · exact hb
  have hall {b : Shape} (hb : Relation.ReflTransGen (DrawsOn scope) b s) : DrawsThrough scope n b := by
    induction n generalizing b with
    | zero =>
      obtain ⟨c, hc, -⟩ := hnext hb
      obtain ⟨t, name, fields, rfl⟩ := exists_object_of_drawsOn hc
      exact .last
    | succ n ih =>
      obtain ⟨c, hc, hrest⟩ := hnext hb
      exact .step hc (ih hrest)
  exact hall .refl

/-- What an object draws on is read from files that are reached too. -/
theorem within_of_drawsOn
    (h : scope.Answers start)
    {s b : Shape}
    (hs : s.Within (scope.Reaches start))
    (hb : DrawsOn scope s b) :
    b.Within (scope.Reaches start) := by
  cases hb with
  | base hbase hread =>
    obtain ⟨b', hb', hwithin⟩ := returns_ofNode h hs.1 hs.2 _
    obtain rfl := Except.ok.inj (hb'.symm.trans hread)
    exact hwithin
  | member hm => exact allWithin_iff.1 hs _ hm
  | adjusted | selected => exact hs

/-- An object has its fields when everything that it draws on has, and fails with a part of that. -/
theorem fieldsUpTo_succ_cases
    (h : scope.Answers start)
    (n : Nat)
    {s : Shape}
    (hwithin : s.Within (scope.Reaches start)) :
    ((∃ fs, fieldsUpTo scope (n + 1) s = .ok fs) ∧
        ∀ b, DrawsOn scope s b → ∃ fs, fieldsUpTo scope n b = .ok fs) ∨
      ∃ b e, DrawsOn scope s b ∧ fieldsUpTo scope n b = .error e ∧
        fieldsUpTo scope (n + 1) s = .error e := by
  cases s with
  | object t name fields =>
    cases fields with
    | absent | ofBody body file bound | ofClass declaration file => exact .inl ⟨⟨_, rfl⟩, nofun⟩
    | ofInterface declaration file bound =>
      rw [fieldsUpTo_ofInterface]
      cases hbases : (basesOf declaration).mapM fun base => do
          fieldsUpTo scope n (← ofNode scope [] file bound base) with
      | ok inherited =>
        refine .inl ⟨⟨_, rfl⟩, ?_⟩
        rintro b (⟨hbase, hb⟩)
        have hone := exists_mapM_eq_ok_iff.1 ⟨_, hbases⟩ _ hbase
        rw [hb] at hone
        exact hone
      | error e =>
        obtain ⟨base, hbase, he⟩ := exists_of_mapM_eq_error hbases
        obtain ⟨b, hb, -⟩ := returns_ofNode h hwithin.1 hwithin.2 base
        rw [hb] at he
        exact .inr ⟨b, e, .base hbase hb, he, rfl⟩
    | merged members =>
      have hstep : fieldsUpTo scope (n + 1) (object t name (.merged members)) =
          members.mapM (fieldsUpTo scope n) >>= fun all => return Field.merge all.flatten := rfl
      rw [hstep]
      cases hmembers : members.mapM (fieldsUpTo scope n) with
      | ok all =>
        refine .inl ⟨⟨_, rfl⟩, ?_⟩
        rintro b (_ | hb)
        exact exists_mapM_eq_ok_iff.1 ⟨_, hmembers⟩ b hb
      | error e =>
        obtain ⟨m, hm, he⟩ := exists_of_mapM_eq_error hmembers
        exact .inr ⟨m, e, .member hm, he, rfl⟩
    | adjusted optional target =>
      cases htarget : fieldsUpTo scope n target with
      | ok fs =>
        refine .inl ⟨⟨_, by simp only [fieldsUpTo, htarget]; rfl⟩, ?_⟩
        rintro _ ⟨⟩
        exact ⟨fs, htarget⟩
      | error e => exact .inr ⟨target, e, .adjusted, htarget, by simp only [fieldsUpTo, htarget]; rfl⟩
    | selected keep names target =>
      cases htarget : fieldsUpTo scope n target with
      | ok fs =>
        refine .inl ⟨⟨_, by simp only [fieldsUpTo, htarget]; rfl⟩, ?_⟩
        rintro _ ⟨⟩
        exact ⟨fs, htarget⟩
      | error e => exact .inr ⟨target, e, .selected, htarget, by simp only [fieldsUpTo, htarget]; rfl⟩
  | _ => exact .inl ⟨⟨_, rfl⟩, nofun⟩

/-- The fields of a shape are there if it does not draw them over more steps than are followed. -/
theorem exists_fieldsUpTo_iff
    (h : scope.Answers start)
    {n : Nat}
    {s : Shape}
    (hwithin : s.Within (scope.Reaches start)) :
    (∃ fs, fieldsUpTo scope n s = .ok fs) ↔ ¬ DrawsThrough scope n s := by
  induction n generalizing s with
  | zero =>
    cases s with
    | object t name fields => exact iff_of_false nofun (not_not_intro .last)
    | _ => exact iff_of_true ⟨_, rfl⟩ nofun
  | succ n ih =>
    rcases fieldsUpTo_succ_cases h n hwithin with ⟨hs, hall⟩ | ⟨b, e, hb, he, hs⟩
    · refine iff_of_true hs ?_
      rintro (_ | ⟨hb, hrest⟩)
      exact (ih (within_of_drawsOn h hwithin hb)).1 (hall _ hb) hrest
    · refine iff_of_false (by simp [hs]) (not_not_intro (.step hb ?_))
      exact not_not.1 (mt (ih (within_of_drawsOn h hwithin hb)).2 (by simp [he]))

theorem eq_endlessInheritance_of_fieldsUpTo
    (h : scope.Answers start)
    {n : Nat}
    {s : Shape}
    {e : Fault}
    (hwithin : s.Within (scope.Reaches start))
    (he : fieldsUpTo scope n s = .error e) :
    e = .endlessInheritance := by
  induction n generalizing s with
  | zero =>
    cases s with
    | object t name fields => exact (Except.error.inj he).symm
    | _ => cases he
  | succ n ih =>
    rcases fieldsUpTo_succ_cases h n hwithin with ⟨⟨fs, hs⟩, -⟩ | ⟨b, e', hdraws, hb, hs⟩
    · cases hs.symm.trans he
    · exact ih (within_of_drawsOn h hwithin hdraws) (hb.trans (hs.symm.trans he))

/-- No bound on the steps that are followed is enough for an object that leads back to itself. -/
theorem fieldsUpTo_of_cycle
    (h : scope.Answers start)
    {s : Shape}
    (hwithin : s.Within (scope.Reaches start))
    (hs : Relation.TransGen (DrawsOn scope) s s)
    (n : Nat) :
    fieldsUpTo scope n s = .error .endlessInheritance := by
  have hnone := mt (exists_fieldsUpTo_iff h hwithin).1 (not_not_intro (drawsThrough_of_cycle hs n))
  cases he : fieldsUpTo scope n s with
  | ok fs => exact absurd ⟨fs, he⟩ hnone
  | error e => rw [eq_endlessInheritance_of_fieldsUpTo h hwithin he]

theorem within_of_layer_list
    {P : SourceFile → Prop}
    {s : Shape}
    {items : List Shape}
    (hs : s.Within P)
    (hlayer : s.layer = .list items) :
    ∀ m ∈ items, m.Within P := by
  unfold layer at hlayer
  repeat' split at hlayer
  all_goals cases hlayer
  · exact List.forall_mem_singleton.2 hs
  · exact allWithin_iff.1 hs

theorem within_of_layer_choice
    {P : SourceFile → Prop}
    {s m : Shape}
    (hs : s.Within P)
    (hlayer : s.layer = .choice m) :
    m.Within P := by
  unfold layer at hlayer
  repeat' split at hlayer
  all_goals cases hlayer
  next hm => exact allWithin_iff.1 hs m (List.mem_of_find?_eq_some hm)

/-- What is written out for a type is read from files that are reached. -/
theorem within_of_writesOut
    (h : scope.Answers start)
    {n : Nat}
    {around : List String}
    {s o : Shape}
    (hs : s.Within (scope.Reaches start))
    (ho : WritesOut (fieldList scope) (Field.shape scope) n around s o) :
    o.Within (scope.Reaches start) := by
  induction n generalizing around s with
  | zero => cases ho
  | succ n ih =>
    unfold WritesOut at ho
    cases hlayer : s.layer with
    | leaf v => simp [hlayer] at ho
    | list items =>
      simp only [hlayer] at ho
      obtain ⟨m, hm, ho⟩ := ho
      exact ih (within_of_layer_list hs hlayer m hm) ho
    | choice m =>
      simp only [hlayer] at ho
      exact ih (within_of_layer_choice hs hlayer) ho
    | object t =>
      simp only [hlayer] at ho
      obtain ⟨-, rfl | ⟨fs, hfs, f, hf, -, m, hm, ho⟩⟩ := ho
      · exact hs
      · obtain ⟨m', hm', hwithin⟩ := returns_fieldShape h (within_of_mem_fieldsUpTo h hs hfs f hf)
        obtain rfl : m' = m := Except.ok.inj (hm'.symm.trans hm)
        exact ih hwithin ho

end Chains

section Declared

variable {scope : Scope}

/-- Whether the example of a shape is a value as it stands. -/
def isLeaf (s : Shape) : Bool :=
  match s.layer with
  | .leaf _ => true
  | _ => false

theorem not_writesOut_of_isLeaf
    {fieldsOf : Shape → Except Fault (List Field)}
    {typeOf : Field → Except Fault Shape}
    {s : Shape}
    (h : s.isLeaf)
    (n : Nat)
    (around : List String)
    (o : Shape) :
    ¬ WritesOut fieldsOf typeOf n around s o := by
  unfold isLeaf at h
  split at h
  · next v hs =>
    cases n with
    | zero => exact id
    | succ n => simp [WritesOut, hs]
  · cases h

/-- What is written out for an object is the object itself, or it is written out for one of its fields. -/
theorem cases_of_writesOut_object
    {fieldsOf : Shape → Except Fault (List Field)}
    {typeOf : Field → Except Fault Shape}
    {n : Nat}
    {around : List String}
    {t : String}
    {name : Option String}
    {fields : Fields}
    {o : Shape}
    (h : WritesOut fieldsOf typeOf (n + 1) around (object t name fields) o) :
    o = object t name fields ∨
      ∃ fs f m, fieldsOf (object t name fields) = .ok fs ∧ f ∈ fs ∧ typeOf f = .ok m ∧
        WritesOut fieldsOf typeOf n (t :: around) m o := by
  have hlayer : (object t name fields).isLeaf ∨ (object t name fields).layer = .object t := by
    cases hword : (t == "true" || t == "false") with
    | true => exact .inl (by simp [isLeaf, layer, text, hword])
    | false => exact .inr (by simp [layer, text, hword])
  rcases hlayer with hleaf | hobject
  · exact absurd h (not_writesOut_of_isLeaf hleaf _ _ o)
  · simp only [WritesOut, hobject] at h
    obtain ⟨-, ho | ⟨fs, hfs, f, hf, -, m, hm, ho⟩⟩ := h
    · exact .inl ho
    · exact .inr ⟨fs, f, m, hfs, hf, hm, ho⟩

/-- The shape of an annotation that is the name of an interface of the same file. -/
def declared?
    (file : SourceFile)
    (bound : List (String × Shape))
    (n : Node) :
    Option Shape :=
  match n.kind, ofWord? n.text, entryOf? n.text bound, ofUtility? n.text n.text [] with
  | .typeIdentifier, none, none, none =>
    (file.findType? n.text).bind fun d =>
      if d.kind = .interfaceDeclaration then
        some (object n.text none (.ofInterface d file (boundBy d [])))
      else none
  | _, _, _, _ => none

theorem exists_of_declared?
    {file : SourceFile}
    {bound : List (String × Shape)}
    {n : Node}
    {s : Shape}
    (h : declared? file bound n = some s) :
    ∃ d, file.findType? n.text = some d ∧
      s = object n.text none (.ofInterface d file (boundBy d [])) := by
  unfold declared? at h
  split at h
  · obtain ⟨d, hd, h⟩ := Option.bind_eq_some_iff.1 h
    split at h
    · exact ⟨d, hd, (Option.some.inj h).symm⟩
    · cases h
  · cases h

theorem ofNode_of_declared?
    {file : SourceFile}
    {bound : List (String × Shape)}
    {n : Node}
    {s : Shape}
    (h : declared? file bound n = some s) :
    ofNode scope [] file bound n = .ok s := by
  unfold declared? at h
  split at h
  · next hkind hword hbound hutility =>
    obtain ⟨d, hd, h⟩ := Option.bind_eq_some_iff.1 h
    rw [ofNode, hkind, hword]
    refine ofName_of_interface? ?_
    simpa [interface?, hbound, hutility, Scope.type, Scope.lookup, hd] using h
  · cases h

/-- The fields of an interface all of whose bases are interfaces of the same file, to so many levels. -/
def declaredFields? : Nat → Shape → Option (List Field)
  | n + 1, object _ _ (.ofInterface d file bound) => do
    let inherited ← (basesOf d).mapM fun base => do declaredFields? n (← declared? file bound base)
    return Field.merge (inherited.flatten ++ Field.ofBody file bound (d.child? .body))
  | _, _ => none

theorem fieldsUpTo_of_declaredFields?
    {n m : Nat}
    {s : Shape}
    {fs : List Field}
    (h : declaredFields? n s = some fs)
    (hn : n ≤ m) :
    fieldsUpTo scope m s = .ok fs := by
  induction n generalizing m s fs with
  | zero => simp [declaredFields?] at h
  | succ n ih =>
    unfold declaredFields? at h
    split at h
    · next k t name d file bound hk =>
      obtain rfl := Nat.succ.inj hk
      obtain ⟨m, rfl⟩ : ∃ k, m = k + 1 := ⟨m - 1, by omega⟩
      obtain ⟨inherited, hinherited, h⟩ := Option.bind_eq_some_iff.1 h
      have hbases : (basesOf d).mapM (fun base => do
          fieldsUpTo scope m (← ofNode scope [] file bound base)) = .ok inherited := by
        refine mapM_eq_ok_of_mapM_eq_some (fun base fs hbase => ?_) hinherited
        obtain ⟨b, hb, hfs⟩ := Option.bind_eq_some_iff.1 hbase
        rw [ofNode_of_declared? hb]
        exact ih hfs (by omega)
      rw [fieldsUpTo_ofInterface, hbases]
      exact congrArg Except.ok (Option.some.inj h)
    · cases h

/-- An interface that extends itself by its name leads back to itself. -/
theorem drawsOn_self
    {file : SourceFile}
    {bound : List (String × Shape)}
    {n base d : Node}
    {s b : Shape}
    (hn : declared? file bound n = some s)
    (hd : file.findType? n.text = some d)
    (hbase : base ∈ basesOf d)
    (hb : declared? file (boundBy d []) base = some b)
    (htext : base.text = n.text) :
    DrawsOn scope s s := by
  obtain ⟨d₁, hd₁, rfl⟩ := exists_of_declared? hn
  obtain ⟨d₂, hd₂, rfl⟩ := exists_of_declared? hb
  obtain rfl : d₁ = d := Option.some.inj (hd₁.symm.trans hd)
  rw [htext] at hd₂
  obtain rfl : d₂ = d₁ := Option.some.inj (hd₂.symm.trans hd)
  have hread : ofNode scope [] file (boundBy d₂ []) base = .ok _ := ofNode_of_declared? hb
  rw [htext] at hread
  exact .base hbase hread

end Declared

section Results

variable {scope : Scope}

/-- A type can be read, and so has a class of data, as long as names can be looked up in the files that are
reached. It has an example exactly when none of the objects that are written out draws its fields over more
steps than are followed. -/
theorem exists_ofNode_example?_iff
    {scope : Scope}
    {file : SourceFile}
    (h : scope.Answers file)
    (a : Node)
    (maxDepth : Int) :
    ∃ s, ofNode scope [] file [] a = .ok s ∧
      ((∃ e, s.example? scope maxDepth = .ok e) ↔
        ∀ o, WritesOut (fieldList scope) (Field.shape scope) (maxDepth + 1).toNat [] s o →
          ¬ DrawsThrough scope maxInheritance o) := by
  obtain ⟨s, hs, hwithin⟩ := returns_ofNode h .here (show BoundWithin _ [] from trivial) a
  have hforces (o : Shape)
      (ho : WritesOut (fieldList scope) (Field.shape scope) (maxDepth + 1).toNat [] s o) :
      Forces (fieldList scope) (Field.shape scope) o ↔ ¬ DrawsThrough scope maxInheritance o := by
    have hreached := within_of_writesOut h hwithin ho
    rw [← exists_fieldsUpTo_iff h hreached]
    refine ⟨fun ⟨fs, hfs, _⟩ => ⟨fs, hfs⟩, fun ⟨fs, hfs⟩ => ⟨fs, hfs, fun f hf _ => ?_⟩⟩
    obtain ⟨m, hm, -⟩ := returns_fieldShape h (within_of_mem_fieldsUpTo h hreached hfs f hf)
    exact ⟨m, hm⟩
  refine ⟨s, hs, exists_exampleUsing_iff.trans ?_⟩
  exact forall_congr' fun o => forall_congr' fun ho => hforces o ho

/-- A file with an interface that extends another one, and a variable of its type. -/
def heir : SourceFile :=
  SourceFile.ofText ⟨true, ["s", "file.ts"]⟩
    ("interface Base \x7b id: number \x7d\ninterface User extends Base \x7b name: string \x7d\n" ++
      "const x: User = null;\n")

/-- Whether an annotation is the name of an interface that has fields of plain types, its own or those
of its base. -/
def isHeir
    (file : SourceFile)
    (a : Node) :
    Bool :=
  a.kind == .typeAscription && a.parts.head?.any fun n =>
    (declared? file [] n).any fun s => (declaredFields? 2 s).any fun fs =>
      fs.length == 2 && fs.all fun f => (plainShape? ⟨none⟩ f).any isLeaf

theorem isHeir_heir :
    ((heir.findVariable? "x").bind Variable.annotation).any (isHeir heir) := by
  decide +kernel

theorem exists_ofNode_example?_iff_heir :
    Scope.Answers ⟨none⟩ heir ∧
      ∃ a, (heir.findVariable? "x").bind Variable.annotation = some a ∧
        ∃ s e, ofNode ⟨none⟩ [] heir [] a = .ok s ∧ s.example? ⟨none⟩ 3 = .ok e := by
  have hanswers := Project.answers_none heir
  obtain ⟨a, ha, h⟩ := (Option.any_eq_true _ _).1 isHeir_heir
  rw [isHeir, Bool.and_eq_true, beq_iff_eq, Option.any_eq_true] at h
  obtain ⟨hkind, n, hn, h⟩ := h
  obtain ⟨s, hs, hdeclared⟩ := (Option.any_eq_true _ _).1 h
  obtain ⟨fs, hfs, hplain⟩ := (Option.any_eq_true _ _).1 hdeclared
  rw [Bool.and_eq_true, List.all_eq_true] at hplain
  have hread : ofNode ⟨none⟩ [] heir [] a = .ok s := by
    rw [ofNode_typeAscription hkind hn]
    exact ofNode_of_declared? hs
  have hfields : s.fieldList ⟨none⟩ = .ok fs := fieldsUpTo_of_declaredFields? hfs (by decide)
  obtain ⟨s', hread', hiff⟩ := exists_ofNode_example?_iff hanswers a 3
  obtain rfl : s = s' := Except.ok.inj (hread.symm.trans hread')
  have hexample : ∃ e, s.example? ⟨none⟩ 3 = .ok e := by
    refine hiff.2 fun o ho => ?_
    have hwithin := within_of_ofNode hanswers hread
    obtain ⟨d, -, rfl⟩ := exists_of_declared? hs
    rcases cases_of_writesOut_object ho with rfl | ⟨fs', f, m, hfs', hf, hm, ho⟩
    · exact (exists_fieldsUpTo_iff hanswers hwithin).1 ⟨fs, hfields⟩
    · obtain rfl : fs = fs' := Except.ok.inj (hfields.symm.trans hfs')
      obtain ⟨m', hm', hleaf⟩ := (Option.any_eq_true _ _).1 (hplain.2 f hf)
      obtain rfl : m' = m := Except.ok.inj ((shape_of_plainShape? hm').symm.trans hm)
      exact absurd ho (not_writesOut_of_isLeaf hleaf _ _ o)
  obtain ⟨e, he⟩ := hexample
  exact ⟨hanswers, a, ha, s, e, hread, he⟩

/-- A file with an interface that extends itself, and a variable of its type. -/
def ownHeir : SourceFile :=
  SourceFile.ofText ⟨true, ["s", "file.ts"]⟩
    "interface A extends A \x7b\x7d\nconst x: A = null;\n"

/-- Whether the type of a variable is an interface of its file that extends itself. -/
def isOwnHeir
    (file : SourceFile)
    (a : Node) :
    Bool :=
  a.kind == .typeAscription && a.parts.head?.any fun n =>
    (declared? file [] n).isSome && (n.text != "true" && n.text != "false") &&
      (file.findType? n.text).any fun d => (basesOf d).any fun base =>
        base.text == n.text && (declared? file (boundBy d []) base).isSome

theorem isOwnHeir_ownHeir :
    ((ownHeir.findVariable? "x").bind Variable.annotation).any (isOwnHeir ownHeir) := by
  decide +kernel

/-- An interface that extends itself has a shape, but however many steps are followed neither fields nor an
example. -/
theorem not_exists_example?_ownHeir :
    ∃ a s, (ownHeir.findVariable? "x").bind Variable.annotation = some a ∧
      ofNode ⟨none⟩ [] ownHeir [] a = .ok s ∧
      (∀ n, fieldsUpTo ⟨none⟩ n s = .error .endlessInheritance) ∧
      s.example? ⟨none⟩ 3 = .error .endlessInheritance := by
  obtain ⟨a, ha, h⟩ := (Option.any_eq_true _ _).1 isOwnHeir_ownHeir
  rw [isOwnHeir, Bool.and_eq_true, beq_iff_eq, Option.any_eq_true] at h
  obtain ⟨hkind, n, hn, h⟩ := h
  rw [Bool.and_eq_true, Bool.and_eq_true, Option.any_eq_true] at h
  obtain ⟨⟨hdeclared, hword⟩, d, hd, h⟩ := h
  obtain ⟨s, hs⟩ := Option.isSome_iff_exists.1 hdeclared
  obtain ⟨base, hbase, h⟩ := List.any_eq_true.1 h
  rw [Bool.and_eq_true, beq_iff_eq] at h
  obtain ⟨b, hb⟩ := Option.isSome_iff_exists.1 h.2
  have hself : DrawsOn ⟨none⟩ s s := drawsOn_self hs hd hbase hb h.1
  have hread : ofNode ⟨none⟩ [] ownHeir [] a = .ok s := by
    rw [ofNode_typeAscription hkind hn]
    exact ofNode_of_declared? hs
  have hanswers := Project.answers_none ownHeir
  have hfields := fieldsUpTo_of_cycle hanswers (within_of_ofNode hanswers hread) (.single hself)
  refine ⟨a, s, ha, hread, hfields, ?_⟩
  have hlayer : s.layer = .object n.text := by
    obtain ⟨d, -, rfl⟩ := exists_of_declared? hs
    simpa [layer, text] using hword
  have hlist : s.fieldList ⟨none⟩ = .error .endlessInheritance := hfields maxInheritance
  rw [example?, show (3 + 1 : Int).toNat = 3 + 1 from rfl, exampleWithin_succ, hlayer]
  simp [hlist, bind, Except.bind]

end Results

end Shape

end RouteAtlas
