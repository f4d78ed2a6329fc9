import Mathlib
import RouteAtlas.Proofs.NestingLimit

/-!
# References between schemas

A schema may be given a name and referred to by it, in its own file or, over an import, in another one. A name
is read as its initializer in the file that declares it, and while this is done the name is open. A name that
is open is not read once more.

The open names are told by the place that reading has come to: just those are open whose own definition leads
there. So a name counts as recursive only where it stands in its own definition, and it may be used in any
number of other places, as may the same name in other files. Where no definition leads back to its name, the
open names do not show at all: the schema is the one in which names are replaced by what they stand for.
-/

namespace RouteAtlas.Schema

open Syntax Project

section OpenNames

namespace Subject

/-- The name that an expression is, with the place of its file. -/
def key? (x : Subject) : Option (Files.Path × String) :=
  x.name?.map fun name => (x.file.path, name)

variable {scope : Scope} {read : Reading} {x y : Subject} {name : String}

theorem exists_of_name?_eq_some
    (h : x.name? = some name) :
    ∃ e, x.node.map Node.unwrap = some e ∧
      (e.kind = .identifier ∨ e.kind = .shorthandPropertyIdentifier) ∧ e.text = name := by
  obtain ⟨e, he, htext⟩ := Option.bind_eq_some_iff.1 h
  refine ⟨e, he, ?_⟩
  split at htext
  · next hkind => exact ⟨.inl hkind, Option.some.inj htext⟩
  · next hkind => exact ⟨.inr hkind, Option.some.inj htext⟩
  · cases htext

/-- The only part of a name is what it stands for. -/
theorem partsWhen_of_name
    (h : x.name? = some name)
    (object : Bool) :
    x.partsWhen scope object = x.hop scope name := by
  obtain ⟨e, he, hkind | hkind, rfl⟩ := exists_of_name?_eq_some h <;> simp [partsWhen, he, hkind]

/-- Which parts there are of anything else does not depend on the open names. -/
theorem exists_partsWhen_eq_map
    (scope : Scope)
    (h : x.name? = none)
    (object : Bool) :
    ∃ nodes : List (Option Node), ∀ open_,
      partsWhen scope object { x with open_ := open_ } = nodes.map fun n => ⟨n, x.file, open_⟩ := by
  cases hx : x.node.map Node.unwrap with
  | none => exact ⟨[], fun open_ => by simp [partsWhen, hx]⟩
  | some e =>
    simp only [name?, hx, Option.bind_some] at h
    by_cases hcall : e.kind = .callExpression
    · exact ⟨callParts object x.file e, fun open_ => partsWhen_call hx hcall⟩
    · refine ⟨[], fun open_ => ?_⟩
      simp only [partsWhen, hx]
      split
      · next hkind => simp [hkind] at h
      · next hkind => simp [hkind] at h
      · next hkind => exact absurd hkind hcall
      · rfl

/-- A name is open in what it stands for, and no other name is opened. -/
theorem open_of_mem_partsWhen
    {object : Bool}
    (h : y ∈ x.partsWhen scope object) :
    y.open_ = x.key?.toList ++ x.open_ := by
  cases hname : x.name? with
  | some name =>
    rw [partsWhen_of_name hname, hop] at h
    split at h
    · cases h
    · split at h
      · obtain rfl := List.mem_singleton.1 h
        simp [key?, hname]
      · cases h
  | none =>
    obtain ⟨nodes, hnodes⟩ := exists_partsWhen_eq_map scope hname object
    rw [hnodes x.open_] at h
    obtain ⟨n, -, rfl⟩ := List.mem_map.1 h
    simp [key?, hname]

end Subject

variable {scope : Scope} {read : Nat → Reading} {whole x y : Subject} {level : Nat}
  {key : Files.Path × String}

/-- Where an expression is come to, the definition of a name is being expanded: the name was come to before,
and what it stands for leads to the expression. -/
def Expands
    (scope : Scope)
    (read : Nat → Reading)
    (whole : Subject)
    (level : Nat)
    (x : Subject)
    (key : Files.Path × String) :
    Prop :=
  ∃ above below a, level = above + (below + 1) ∧ Reached scope read whole above a ∧ a.key? = some key ∧
    Reached scope (fun k => read (above + k)) a (below + 1) x

theorem Expands.part
    (h : Expands scope read whole level x key)
    (hy : Subject.ComesToIn (read (level + 1)) (x.parts scope (read (level + 1))) y) :
    Expands scope read whole (level + 1) y key := by
  obtain ⟨above, below, a, rfl, ha, hkey, hx⟩ := h
  exact ⟨above, below + 1, a, rfl, ha, hkey, hx.part hy⟩

/-- A name stays open in all that it leads to. -/
theorem mem_open_of_reached
    {a : Subject}
    (ha : a.key? = some key)
    (hx : Reached scope read a level x) :
    0 < level → key ∈ x.open_ := by
  induction hx with
  | whole => simp
  | @part level x y hx hy ih =>
    intro _
    rw [Subject.open_of_mem_partsWhen hy.mem, List.mem_append]
    -- the first part of the name is what it stands for, and there it is opened
    rcases Nat.eq_zero_or_pos level with rfl | hlevel
    · cases hx with
      | whole => exact .inl (by simp [ha])
    · exact .inr (ih hlevel)

/-- The open names are those whose definitions are being expanded. -/
theorem mem_open_iff_expands
    (hwhole : whole.open_ = [])
    (hx : Reached scope read whole level x) :
    key ∈ x.open_ ↔ Expands scope read whole level x key := by
  constructor
  · intro hopen
    induction hx with
    | whole => simp [hwhole] at hopen
    | @part level x y hx hy ih =>
      rw [Subject.open_of_mem_partsWhen hy.mem, List.mem_append] at hopen
      rcases hopen with hnew | hold
      · exact ⟨level, 0, x, rfl, hx, by simpa using hnew, Reached.whole.part hy⟩
      · exact (ih hold).part hy
  · rintro ⟨above, below, a, -, -, hkey, hbelow⟩
    exact mem_open_of_reached hkey hbelow (Nat.succ_pos below)

end OpenNames

section Reasons

variable {scope : Scope} {p : String → Prop} {read : Reading} {x : Subject}

/-- A reading that tells nothing of the parts that are not come to. -/
noncomputable def readComeTo
    (scope : Scope)
    (read : Reading)
    (x : Subject) :
    Reading :=
  open Classical in
  fun e file open_ =>
    if Subject.ComesToIn read (x.parts scope read) ⟨e, file, open_⟩ then read e file open_
    else .ok (unknown "")

theorem agreeOn_readComeTo : AgreeOn read (readComeTo scope read x) (x.parts scope read) :=
  fun _ hy => (if_pos hy).symm

/-- What is read at one level is sound if the parts are that are come to. -/
theorem CoversRules.sound_step_of_comesToIn
    (hp : CoversRules p)
    (hguard : ∀ name, x.name? = some name → (x.file.path, name) ∈ x.open_ → p (recursiveReference name))
    (h : ∀ y, Subject.ComesToIn read (x.parts scope read) y → Sound scope p (y.readBy read)) :
    Sound scope p (x.readBy (step scope read)) := by
  -- other parts may have any schema, so let them have one that mentions nothing of interest
  rw [step_congr agreeOn_readComeTo]
  refine hp.sound_step hguard fun y _ => ?_
  by_cases hy : Subject.ComesToIn read (x.parts scope read) y
  · rw [← agreeOn_readComeTo y hy]
    exact h y hy
  · have hread : y.readBy (readComeTo scope read x) = .ok (unknown "") := if_neg hy
    rw [hread]
    exact sound_unknown (hp "" (by decide))

end Reasons

section Guard

variable {scope : Scope} {file : SourceFile} {e : Option Node} {x : Subject} {level : Nat} {name : String}

/-- The readings of an expression and of its parts, level by level. -/
def levelwise
    (scope : Scope)
    (level : Nat) :
    Reading :=
  readUpTo scope (maxNesting - level)

theorem levelwise_eq_step
    (h : level < maxNesting) :
    levelwise scope level = step scope (levelwise scope (level + 1)) := by
  unfold levelwise
  rw [← readUpTo_succ]
  congr 1
  omega

/-- What a name stands for is read where it is declared. -/
def initializer
    (scope : Scope)
    (read : Option Node → SourceFile → Except Fault Schema)
    (file : SourceFile)
    (name : String) :
    Except Fault Schema := do
  match ← scope.value name file with
  | .error _ => return unknown ("unresolved identifier " ++ name)
  | .ok found => read (some found.node) found.file

theorem readBy_step_of_name
    {read : Reading}
    (h : x.name? = some name) :
    x.readBy (step scope read) = named read scope x.file x.open_ name := by
  obtain ⟨e, he, hkind | hkind, rfl⟩ := Subject.exists_of_name?_eq_some h <;>
    simp [Subject.readBy, step, he, hkind]

theorem named_of_mem
    {read : Reading}
    (h : (x.file.path, name) ∈ x.open_) :
    named read scope x.file x.open_ name = .ok (unknown (recursiveReference name)) :=
  if_pos (by simpa using h)

theorem named_of_not_mem
    {read : Reading}
    (h : (x.file.path, name) ∉ x.open_) :
    named read scope x.file x.open_ name =
      initializer scope (fun e f => read e f ((x.file.path, name) :: x.open_)) x.file name :=
  if_neg (by simpa using h)

/-- A name is given up where its own definition is being expanded, and read as its initializer elsewhere. -/
theorem readBy_levelwise_of_name
    (hlevel : level < maxNesting)
    (hx : Reached scope (levelwise scope) ⟨e, file, []⟩ level x)
    (hname : x.name? = some name) :
    (Expands scope (levelwise scope) ⟨e, file, []⟩ level x (x.file.path, name) →
        x.readBy (levelwise scope level) = .ok (unknown (recursiveReference name))) ∧
      (¬ Expands scope (levelwise scope) ⟨e, file, []⟩ level x (x.file.path, name) →
        x.readBy (levelwise scope level) =
          initializer scope (fun e f => levelwise scope (level + 1) e f ((x.file.path, name) :: x.open_))
            x.file name) := by
  rw [← mem_open_iff_expands rfl hx, levelwise_eq_step hlevel, readBy_step_of_name hname]
  exact ⟨named_of_mem, named_of_not_mem⟩

/-- A name counts as recursive where it stands in its own definition. -/
def GuardsRecursion
    (scope : Scope)
    (whole : Subject)
    (reason : String) :
    Prop :=
  ∀ name, reason = recursiveReference name →
    ∃ level x, level < maxNesting ∧ Reached scope (levelwise scope) whole level x ∧ x.name? = some name ∧
      Expands scope (levelwise scope) whole level x (x.file.path, name)

theorem coversRules_guardsRecursion
    (scope : Scope)
    (whole : Subject) :
    CoversRules (GuardsRecursion scope whole) := by
  rintro _ hreason name rfl
  exact absurd (head?_recursiveReference name) (by simp_all)

theorem recursiveReference_injective : Function.Injective recursiveReference := by
  intro name name' h
  have hchars := congrArg String.toList h
  have happend : ∀ n, (recursiveReference n).toList = "recursive schema reference ".toList ++ n.toList :=
    fun _ => String.toList_append
  rw [happend, happend, List.append_cancel_left_eq] at hchars
  exact String.toList_inj.1 hchars

theorem sound_of_reached
    (hlevel : level ≤ maxNesting)
    (hx : Reached scope (levelwise scope) ⟨e, file, []⟩ level x) :
    Sound scope (GuardsRecursion scope ⟨e, file, []⟩) (x.readBy (levelwise scope level)) := by
  have hp := coversRules_guardsRecursion scope ⟨e, file, []⟩
  -- downwards from the limit, since what is read at a level is made of what is read at the next one
  induction hlevel using Nat.decreasingInduction generalizing x with
  | self =>
    have hlast : levelwise scope maxNesting = readUpTo scope 0 := by rw [levelwise, Nat.sub_self]
    rw [hlast, readBy_zero]
    refine sound_unknown ?_
    split
    · intro name hname
      have hhead := head?_recursiveReference name
      rw [← hname] at hhead
      exact absurd hhead (by decide)
    · exact hp _ (by decide)
  | of_succ level hlt ih =>
    rw [levelwise_eq_step hlt]
    refine hp.sound_step_of_comesToIn (fun name hname hopen => ?_) fun y hy => ih (hx.part hy)
    intro name' hreason
    obtain rfl := recursiveReference_injective hreason
    exact ⟨level, x, hlt, hx, hname, (mem_open_iff_expands rfl hx).1 hopen⟩

end Guard

section Inlining

/-- An expression may be come to next in reading another one, whatever names are open. What is come to can
depend on the schemas of other parts, since `merge` reads its argument only for an object. -/
def Leads
    (scope : Scope)
    (x y : Subject) :
    Prop :=
  ∃ open_ open_', Subject.ComesToIn (readFreely scope)
    (Subject.parts scope (readFreely scope) { x with open_ := open_ }) { y with open_ := open_' }

/-- No name that an expression leads to leads to itself again. -/
def Acyclic
    (scope : Scope)
    (whole : Subject) :
    Prop :=
  ∀ a b key, Relation.ReflTransGen (Leads scope) whole a → Relation.TransGen (Leads scope) a b →
    a.key? = some key → b.key? ≠ some key

/-- One level of reading in which names are replaced by what they stand for. -/
def inlined
    (scope : Scope)
    (read : Option Node → SourceFile → Except Fault Schema)
    (e : Option Node)
    (file : SourceFile) :
    Except Fault Schema :=
  match Subject.name? ⟨e, file, []⟩ with
  | some name => initializer scope read file name
  | none => step scope (fun e file _ => read e file) e file []

variable {scope : Scope} {file : SourceFile} {e : Option Node} {read : Nat → Reading} {whole x : Subject}
  {level : Nat}

theorem Reached.reflTransGen
    (hx : Reached scope (fun _ => readFreely scope) whole level x) :
    Relation.ReflTransGen (Leads scope) whole x := by
  induction hx with
  | whole => exact .refl
  | part hx hy ih => exact ih.tail ⟨_, _, hy⟩

theorem Reached.transGen
    (hx : Reached scope (fun _ => readFreely scope) whole (level + 1) x) :
    Relation.TransGen (Leads scope) whole x := by
  cases hx with
  | part hx hy => exact .tail' hx.reflTransGen ⟨_, _, hy⟩

/-- Without cycles no name is open where it stands. -/
theorem Acyclic.key_not_mem
    {key : Files.Path × String}
    (h : Acyclic scope whole)
    (hwhole : whole.open_ = [])
    (hx : Reached scope (fun _ => readFreely scope) whole level x)
    (hkey : x.key? = some key) :
    key ∉ x.open_ := by
  rw [mem_open_iff_expands hwhole hx]
  rintro ⟨above, below, a, -, ha, hopen, hbelow⟩
  exact h a x key ha.reflTransGen hbelow.transGen hopen hkey

/-- A call passes the open names on to its parts, and does nothing else with them. -/
theorem called_of_ignoring_open
    (read : Option Node → SourceFile → Except Fault Schema)
    (open_ open_' : List (Files.Path × String))
    (call : Node) :
    called (fun e f _ => read e f) scope file open_ call =
      called (fun e f _ => read e f) scope file open_' call :=
  rfl

/-- Where a name is not open, replacing it is what reading does. -/
theorem inlined_eq_readBy_step
    {read : Option Node → SourceFile → Except Fault Schema}
    (h : ∀ key, x.key? = some key → key ∉ x.open_) :
    inlined scope read x.node x.file = x.readBy (step scope fun e file _ => read e file) := by
  have hsame : Subject.name? ⟨x.node, x.file, []⟩ = x.name? := rfl
  unfold inlined
  rw [hsame]
  cases hname : x.name? with
  | some name =>
    dsimp only
    rw [readBy_step_of_name hname, named_of_not_mem (h _ (by simp [Subject.key?, hname]))]
  | none =>
    unfold Subject.name? at hname
    unfold Subject.readBy step
    cases hx : x.node.map Node.unwrap with
    | none => rfl
    | some e =>
      simp only [hx, Option.bind_some] at hname
      dsimp only
      split
      · next hkind => simp [hkind] at hname
      · next hkind => simp [hkind] at hname
      · exact called_of_ignoring_open read [] x.open_ e
      · rfl
      · rfl

/-- Nothing is come to beyond the last level, since what is missing has no parts. -/
theorem NestsBelow.not_reached
    {levels : Nat}
    (h : NestsBelow scope whole levels)
    (hlevel : levels < level) :
    ¬ Reached scope (fun _ => readFreely scope) whole level x := by
  intro hx
  cases hx with
  | whole => exact absurd hlevel (Nat.not_lt_zero levels)
  | @part level above x habove hx =>
    have hnode : above.node = none := by
      by_contra hnode
      have hlt := h level above habove (Option.isSome_iff_ne_none.2 hnode)
      omega
    have hmem := hx.mem
    simp [Subject.parts, Subject.partsWhen, hnode] at hmem

/-- Without cycles a schema is the one in which names are replaced by what they stand for. -/
theorem ofExpression_eq_inlined
    {levels : Nat}
    (hacyclic : Acyclic scope ⟨e, file, []⟩)
    (hnest : NestsBelow scope ⟨e, file, []⟩ maxNesting)
    (hlevels : maxNesting < levels)
    (beyond : Option Node → SourceFile → Except Fault Schema) :
    ofExpression scope file e = (inlined scope)^[levels] beyond e file := by
  let whole : Subject := ⟨e, file, []⟩
  let replacing : Nat → Reading := fun level e file _ => (inlined scope)^[levels - level] beyond e file
  have hreplacing : ∀ level < levels, ∀ x, Reached scope (fun _ => readFreely scope) whole level x →
      x.readBy (replacing level) = x.readBy (step scope (replacing (level + 1))) := by
    intro level hlt x hx
    have hsucc : levels - level = levels - (level + 1) + 1 := by omega
    have hiterate : x.readBy (replacing level) =
        inlined scope ((inlined scope)^[levels - (level + 1)] beyond) x.node x.file := by
      dsimp only [Subject.readBy, replacing]
      rw [hsucc, Function.iterate_succ_apply']
    rw [hiterate]
    exact inlined_eq_readBy_step fun key hkey => hacyclic.key_not_mem rfl hx hkey
  have hsame : whole.readBy (readFreely scope) = whole.readBy (replacing 0) :=
    readBy_eq_of_reached (fun level _ x _ => congrArg x.readBy (readFreely_eq_step scope)) hreplacing
      (fun x hx => absurd hx (hnest.not_reached hlevels)) (Nat.zero_le levels) .whole
  calc ofExpression scope file e
      = whole.readBy (readFreely scope) := readUpTo_eq_readFreely hnest
    _ = whole.readBy (replacing 0) := hsame
    _ = (inlined scope)^[levels] beyond e file := rfl

end Inlining

section Cycles

variable {scope : Scope} {whole x : Subject} {levels : Nat}

/-- Whether no name is come to while it is open, over some number of levels that lead to nothing further, when
every receiver is taken for an object. -/
def staysAcyclic
    (scope : Scope) :
    Nat → Subject → Bool
  | 0, _ => false
  | levels + 1, x =>
    (x.key?.all fun key => !x.open_.contains key) && (x.partsWhen scope true).all (staysAcyclic scope levels)

theorem staysAcyclic_succ_iff
    {levels : Nat} :
    staysAcyclic scope (levels + 1) x = true ↔
      (∀ key, x.key? = some key → key ∉ x.open_) ∧
        ∀ y ∈ x.partsWhen scope true, staysAcyclic scope levels y = true := by
  rw [staysAcyclic, Bool.and_eq_true, List.all_eq_true]
  refine and_congr_left fun _ => ?_
  cases x.key? <;> simp

theorem Leads.mem_partsWhen
    {y : Subject}
    (h : Leads scope x y)
    (hx : ∀ key, x.key? = some key → key ∉ x.open_) :
    { y with open_ := x.key?.toList ++ x.open_ } ∈ x.partsWhen scope true := by
  obtain ⟨open_, open_', hcome⟩ := h
  have hmem := Subject.mem_partsWhen_true hcome.mem
  cases hname : x.name? with
  | some name =>
    have hkey : x.key? = some (x.file.path, name) := by simp [Subject.key?, hname]
    have hclosed : ¬ x.open_.contains (x.file.path, name) = true := by simpa using hx _ hkey
    rw [Subject.partsWhen_of_name (x := { x with open_ := open_ }) hname, Subject.hop] at hmem
    rw [Subject.partsWhen_of_name hname, Subject.hop, if_neg hclosed, hkey]
    split at hmem
    · cases hmem
    · dsimp only at hmem
      cases hvalue : scope.value name x.file with
      | error fault => simp [hvalue] at hmem
      | ok outcome =>
        cases outcome with
        | error missing => simp [hvalue] at hmem
        | ok found =>
          simp only [hvalue, List.mem_singleton, Subject.mk.injEq] at hmem
          simp [hmem]
  | none =>
    obtain ⟨nodes, hnodes⟩ := Subject.exists_partsWhen_eq_map scope hname true
    rw [hnodes open_] at hmem
    obtain ⟨n, hn, heq⟩ := List.mem_map.1 hmem
    simp only [Subject.mk.injEq] at heq
    obtain ⟨hnode, hfile, -⟩ := heq
    rw [hnodes x.open_]
    exact List.mem_map.2 ⟨n, hn, by simp [Subject.key?, hname, hnode, hfile]⟩

theorem key_not_mem_of_staysAcyclic
    {b : Subject}
    {open_ : List (Files.Path × String)}
    {key : Files.Path × String}
    (h : staysAcyclic scope levels x = true)
    (hb : Relation.ReflTransGen (Leads scope) { x with open_ := open_ } b)
    (hkey : b.key? = some key) :
    key ∉ x.open_ := by
  induction levels generalizing x open_ with
  | zero => cases h
  | succ levels ih =>
    obtain ⟨hx, hparts⟩ := staysAcyclic_succ_iff.1 h
    obtain rfl | ⟨c, hstep, hrest⟩ := hb.cases_head
    · exact hx key hkey
    · have hc : Leads scope x c := hstep
      have hopen := ih (hparts _ (hc.mem_partsWhen hx)) hrest
      exact fun hmem => hopen (List.mem_append_right _ hmem)

theorem key?_ne_of_staysAcyclic
    {a b : Subject}
    {open_ : List (Files.Path × String)}
    {key : Files.Path × String}
    (h : staysAcyclic scope levels x = true)
    (ha : Relation.ReflTransGen (Leads scope) { x with open_ := open_ } a)
    (hb : Relation.TransGen (Leads scope) a b)
    (hkey : a.key? = some key) :
    b.key? ≠ some key := by
  induction levels generalizing x open_ with
  | zero => cases h
  | succ levels ih =>
    obtain ⟨hx, hparts⟩ := staysAcyclic_succ_iff.1 h
    obtain rfl | ⟨c, hstep, hrest⟩ := ha.cases_head
    · -- here the name is opened, and what comes after leads to no open name
      obtain ⟨c, hstep, hrest⟩ := Relation.TransGen.head'_iff.1 hb
      have hc : Leads scope x c := hstep
      have hxkey : x.key? = some key := hkey
      intro hsame
      exact key_not_mem_of_staysAcyclic (hparts _ (hc.mem_partsWhen hx)) hrest hsame (by simp [hxkey])
    · have hc : Leads scope x c := hstep
      exact ih (hparts _ (hc.mem_partsWhen hx)) hrest

/-- What comes to no open name over so many levels, and to nothing beyond, has no cycles at all. -/
theorem acyclic_of_staysAcyclic
    (h : staysAcyclic scope levels whole = true) :
    Acyclic scope whole := by
  intro a b key ha hb hkey
  have ha' : Relation.ReflTransGen (Leads scope) { whole with open_ := whole.open_ } a := ha
  exact key?_ne_of_staysAcyclic h ha' hb hkey

end Cycles

section References

/-- Names are guarded just where they refer to themselves. Reading an expression ends, be there a limit on
nesting or not, and only the look-up of a name fails. On the way a name is given up if its own definition is
being expanded there, and read as its initializer otherwise; a schema mentions no other recursive references
than these. An expression without cycles that does not come to the limit has the schema in which every
name is replaced by what it stands for, whatever may come beyond. -/
theorem ofExpression_references
    (scope : Scope)
    (file : SourceFile)
    (e : Option Node) :
    (∃ levels, ∀ more, levels ≤ more → readUpTo scope more e file [] = readUpTo scope levels e file []) ∧
      (∀ fault, ofExpression scope file e = .error fault → IsLookupFault scope fault) ∧
      (∀ level x name, level < maxNesting → Reached scope (levelwise scope) ⟨e, file, []⟩ level x →
        x.name? = some name →
          (Expands scope (levelwise scope) ⟨e, file, []⟩ level x (x.file.path, name) →
            x.readBy (levelwise scope level) = .ok (unknown (recursiveReference name))) ∧
          (¬ Expands scope (levelwise scope) ⟨e, file, []⟩ level x (x.file.path, name) →
            x.readBy (levelwise scope level) =
              initializer scope (fun e f => levelwise scope (level + 1) e f ((x.file.path, name) :: x.open_))
                x.file name)) ∧
      (∀ s name, ofExpression scope file e = .ok s → Mentions (recursiveReference name) s →
        ∃ level x, level < maxNesting ∧ Reached scope (levelwise scope) ⟨e, file, []⟩ level x ∧
          x.name? = some name ∧
          Expands scope (levelwise scope) ⟨e, file, []⟩ level x (x.file.path, name)) ∧
      (Acyclic scope ⟨e, file, []⟩ → NestsBelow scope ⟨e, file, []⟩ maxNesting →
        ∀ beyond levels, maxNesting < levels →
          ofExpression scope file e = (inlined scope)^[levels] beyond e file) := by
  refine ⟨exists_settles scope ⟨e, file, []⟩, fun fault hfault => ?_, fun level x name hlevel hx hname => ?_,
    fun s name hs hmention => ?_, fun hacyclic hnest beyond levels hlevels => ?_⟩
  · exact (sound_readUpTo maxNesting ⟨e, file, []⟩).isLookupFault hfault
  · exact readBy_levelwise_of_name hlevel hx hname
  · have hsound : Sound scope (GuardsRecursion scope ⟨e, file, []⟩) (ofExpression scope file e) :=
      sound_of_reached (Nat.zero_le maxNesting) .whole
    rw [hs] at hsound
    exact hsound _ hmention name rfl
  · exact ofExpression_eq_inlined hacyclic hnest hlevels beyond

/-- A file that declares names by their values. -/
def declaring (values : List (String × Node)) : SourceFile :=
  ⟨⟨true, ["schema.ts"]⟩, "", leading .program none "" (values.map fun v =>
    leading .lexicalDeclaration none "" [
      leading .variableDeclarator none "" [leading .identifier (some .name) v.1 [], v.2]])⟩

/-- A call `z.name(args)` that is the value of a declared name. -/
def declaredCall
    (name : String)
    (args : List Node) :
    Node :=
  methodCall (some .value) (leading .identifier (some .object) "z" []) name args

/-- The entry `key: name` of an object expression. -/
def namedEntry
    (key name : String) :
    Node :=
  leading .pair none "" [
    leading .propertyIdentifier (some .key) key [], leading .identifier (some .value) name []]

/-- The expression that is a name. -/
def nameNode (name : String) : Node :=
  leading .identifier none name []

/-- The file `const id = z.string(); const pair = z.object({ a: id, b: id });`. -/
def namedPair : SourceFile :=
  declaring [
    ("id", declaredCall "string" []),
    ("pair", declaredCall "object" [leading .object none "" [namedEntry "a" "id", namedEntry "b" "id"]])]

/-- The file `const node = z.array(node);`, in which a name stands in its own definition. -/
def selfNamed : SourceFile :=
  declaring [("node", declaredCall "array" [nameNode "node"])]

theorem mentions_arrayOf_unknown (reason : String) : Mentions reason (arrayOf (some (unknown reason))) :=
  .item rfl (.here rfl)

/-- In `pair` each name is replaced by what it stands for, and in `node` the name itself is found to be
recursive. -/
theorem ofExpression_references_namedPair :
    Acyclic ⟨none⟩ ⟨some (nameNode "pair"), namedPair, []⟩ ∧
      NestsBelow ⟨none⟩ ⟨some (nameNode "pair"), namedPair, []⟩ maxNesting ∧
      ofExpression ⟨none⟩ namedPair (some (nameNode "pair")) =
        (inlined ⟨none⟩)^[18] (fun _ _ => .ok (unknown tooDeep)) (some (nameNode "pair")) namedPair ∧
      ∃ level x, level < maxNesting ∧
        Reached ⟨none⟩ (levelwise ⟨none⟩) ⟨some (nameNode "node"), selfNamed, []⟩ level x ∧
        x.name? = some "node" ∧
        Expands ⟨none⟩ (levelwise ⟨none⟩) ⟨some (nameNode "node"), selfNamed, []⟩ level x
          (x.file.path, "node") := by
  have hstays : staysAcyclic ⟨none⟩ 5 ⟨some (nameNode "pair"), namedPair, []⟩ = true := by cbv
  have hnil : reachable ⟨none⟩ ⟨some (nameNode "pair"), namedPair, []⟩ 5 = [] := by cbv
  have hreason : recursiveReference "node" = "recursive schema reference node" := by decide
  have hself : ofExpression ⟨none⟩ selfNamed (some (nameNode "node")) =
      .ok (arrayOf (some (unknown (recursiveReference "node")))) := by
    rw [hreason]
    cbv
  have hacyclic := acyclic_of_staysAcyclic hstays
  have hnest := (nestsBelow_of_reachable_eq_nil hnil).mono (by decide : 5 ≤ maxNesting)
  obtain ⟨-, -, -, -, hinlined⟩ := ofExpression_references ⟨none⟩ namedPair (some (nameNode "pair"))
  obtain ⟨-, -, -, hrecursive, -⟩ := ofExpression_references ⟨none⟩ selfNamed (some (nameNode "node"))
  exact ⟨hacyclic, hnest, hinlined hacyclic hnest _ 18 (by decide),
    hrecursive _ "node" hself (mentions_arrayOf_unknown _)⟩

end References

end RouteAtlas.Schema
