import Mathlib
import RouteAtlas.FileRoutes.Methods
import RouteAtlas.Proofs.LostComments

/-!
# Listed methods behind aliases

A list of methods may stand behind casts, parentheses and names of variables, whose initializers may stand
behind further ones. `StandsFor` is one link of such a chain. There is only one way to go on along a chain, so
it either has one end or runs in a circle.

The list is looked for by a loop that takes off casts and parentheses and follows names. Nothing but the names
that it has followed makes it stop, and it does, since every pass that finds a variable leaves one name fewer to
be followed. All names that it has followed stand on the chain before the expression that it has come to, so
a name that comes again closes a circle.
-/

namespace RouteAtlas.FileRoutes

open Syntax
open Relation

section Ends

variable {α : Type} {r : α → α → Prop} {a b c : α}

/-- Where there is only one way to go on, there is one end. -/
theorem end_unique
    (hr : Relator.RightUnique r)
    (hb : ReflTransGen r a b)
    (hlast : ∀ x, ¬ r b x)
    (hc : ReflTransGen r a c)
    (hlast' : ∀ x, ¬ r c x) :
    b = c := by
  rcases ReflTransGen.total_of_right_unique hr hb hc with hbc | hcb
  · rcases hbc.cases_head with heq | ⟨x, hx, -⟩
    · exact heq
    · exact absurd hx (hlast x)
  · rcases hcb.cases_head with heq | ⟨x, hx, -⟩
    · exact heq.symm
    · exact absurd hx (hlast' x)

/-- Where there is only one way to go on, every way from a place on a circle leads back to it. -/
theorem reflTransGen_back
    (hr : Relator.RightUnique r)
    (hcircle : TransGen r a a)
    (h : ReflTransGen r a b) :
    ReflTransGen r b a := by
  induction h with
  | refl => exact .refl
  | tail _ hnext ih =>
    obtain ⟨x, hx, hback⟩ := TransGen.head'_iff.1 (TransGen.trans_right ih hcircle)
    exact hr hnext hx ▸ hback

/-- Where there is only one way to go on, a way into a circle has no end. -/
theorem exists_next_of_circle
    (hr : Relator.RightUnique r)
    (hb : ReflTransGen r a b)
    (hcircle : TransGen r b b)
    (hc : ReflTransGen r a c) :
    ∃ x, r c x := by
  have hback : ReflTransGen r c b := by
    rcases ReflTransGen.total_of_right_unique hr hb hc with hbc | hcb
    · exact reflTransGen_back hr hcircle hbc
    · exact hcb
  obtain ⟨x, hx, -⟩ := TransGen.head'_iff.1 (TransGen.trans_right hback hcircle)
  exact ⟨x, hx⟩

end Ends

section Chains

/-- What an expression stands for: the expression that a cast or a pair of parentheses holds, or the
initializer of the first variable at the top level that has the name. -/
inductive StandsFor (file : SourceFile) : Node → Node → Prop
  | held
      {e c : Node}
      (hwrapper : e.isWrapper = true)
      (hheld : e.held? = some c) :
      StandsFor file e c
  | initializer
      {e value : Node}
      {v : Variable}
      (hname : e.kind = .identifier)
      (hfirst : file.findVariable? e.text = some v)
      (hvalue : v.value = some value) :
      StandsFor file e value

/-- The chain of an expression, of any length, ends at an expression that stands for no other. -/
def EndsAt
    (file : SourceFile)
    (e last : Node) :
    Prop :=
  ReflTransGen (StandsFor file) e last ∧ ∀ next, ¬ StandsFor file last next

/-- The chain of an expression comes to an expression to which it leads back. -/
def Circles
    (file : SourceFile)
    (e : Node) :
    Prop :=
  ∃ n, ReflTransGen (StandsFor file) e n ∧ TransGen (StandsFor file) n n

/-- The chain of an expression ends at a name that no variable at the top level of the file has. -/
def LeavesFile
    (file : SourceFile)
    (e : Node) :
    Prop :=
  ∃ n, EndsAt file e n ∧ n.kind = .identifier ∧ file.findVariable? n.text = none

variable {file : SourceFile} {e a b n m : Node}

theorem isWrapper_eq_false_of_name (h : n.kind = .identifier) : n.isWrapper = false := by
  simp [Node.isWrapper, h]

theorem standsFor_iff_of_name (h : n.kind = .identifier) :
    StandsFor file n m ↔ (file.findVariable? n.text).bind Variable.value = some m := by
  rw [Option.bind_eq_some_iff]
  constructor
  · intro hstands
    cases hstands with
    | held hwrapper => simp [isWrapper_eq_false_of_name h] at hwrapper
    | initializer _ hfirst hvalue => exact ⟨_, hfirst, hvalue⟩
  · rintro ⟨v, hfirst, hvalue⟩
    exact .initializer h hfirst hvalue

/-- An expression stands for one expression at most. -/
theorem rightUnique_standsFor (file : SourceFile) : Relator.RightUnique (StandsFor file) := by
  intro e a b ha hb
  cases ha with
  | held hwrapper hheld =>
    cases hb with
    | held _ hheld' => exact Option.some.inj (hheld.symm.trans hheld')
    | initializer hname => simp [isWrapper_eq_false_of_name hname] at hwrapper
  | initializer hname hfirst hvalue =>
    rw [standsFor_iff_of_name hname, hfirst, Option.bind_some] at hb
    exact Option.some.inj (hvalue.symm.trans hb)

theorem reflTransGen_unwrap
    (file : SourceFile)
    (n : Node) :
    ReflTransGen (StandsFor file) n n.unwrap := by
  induction n using Node.unwrap_induction with
  | held n c hwrapper hheld ih =>
    rw [Node.unwrap_of_held? hwrapper hheld]
    exact .head (.held hwrapper hheld) ih
  | empty n _ hheld => rw [Node.unwrap_of_held?_eq_none hheld]
  | bare n hbare => rw [Node.unwrap_of_not_isWrapper hbare]

/-- Inside all casts and parentheses, only a name stands for something else. -/
theorem kind_of_standsFor
    (hunwrapped : n.unwrap = n)
    (h : StandsFor file n m) :
    n.kind = .identifier := by
  cases h with
  | held hwrapper hheld =>
    -- what is held would be as large as what holds it
    have hagain : m.unwrap = n := (Node.unwrap_of_held? hwrapper hheld).symm.trans hunwrapped
    have hless := Node.count_lt_of_held? hheld
    have hmore := Node.count_unwrap_le m
    rw [hagain] at hmore
    omega
  | initializer hname => exact hname

theorem EndsAt.unique
    (ha : EndsAt file e a)
    (hb : EndsAt file e b) :
    a = b :=
  end_unique (rightUnique_standsFor file) ha.1 ha.2 hb.1 hb.2

/-- A chain that runs in a circle has no end. -/
theorem Circles.not_endsAt
    (h : Circles file e)
    (a : Node) :
    ¬ EndsAt file e a := by
  rintro ⟨hlast, hend⟩
  obtain ⟨n, hn, hcircle⟩ := h
  obtain ⟨next, hnext⟩ := exists_next_of_circle (rightUnique_standsFor file) hn hcircle hlast
  exact hend next hnext

end Chains

section Loop

/-- Where the loop stands: the expression that it has come to, inside all casts and parentheses, if there is
one, and the names that it has followed. -/
structure Following where
  expression : Option Node
  seen : List String

/-- One pass of the loop: a name that has not been followed is replaced by the initializer of the first
variable that has it. -/
inductive Pass (file : SourceFile) : Following → Following → Prop
  | follow
      (e : Node)
      (seen : List String)
      (hname : e.kind = .identifier)
      (hnew : e.text ∉ seen) :
      Pass file ⟨some e, seen⟩
        ⟨((file.findVariable? e.text).bind Variable.value).map Node.unwrap, e.text :: seen⟩

namespace Following

/-- The loop begins with an expression and has followed no name. -/
def start (e : Node) : Following :=
  ⟨some e.unwrap, []⟩

/-- The loop makes no further pass. -/
def IsOver
    (file : SourceFile)
    (s : Following) :
    Prop :=
  ∀ next, ¬ Pass file s next

/-- The expression that the loop has come to, if it is no name. -/
def found (s : Following) : Option Node :=
  s.expression.filter fun n => n.kind != .identifier

/-- The methods that are listed where the loop has come to. -/
def verbs (s : Following) : List String :=
  match s.expression with
  | some e => if e.kind == .array then verbsOfArray e else []
  | none => []

end Following

open Following

section Ending

variable {file : SourceFile} {s last next : Following} {seen : List String} {name : String}

/-- The number of names of variables that have not been followed. -/
def unfollowed
    (file : SourceFile)
    (seen : List String) :
    Nat :=
  ((file.boundVariables.map Variable.name).toFinset \ seen.toFinset).card

theorem unfollowed_nil_le (file : SourceFile) : unfollowed file [] ≤ file.boundVariables.length := by
  rw [unfollowed, List.toFinset_nil, Finset.sdiff_empty]
  exact (List.toFinset_card_le _).trans_eq (List.length_map _)

theorem unfollowed_cons_le : unfollowed file (name :: seen) ≤ unfollowed file seen := by
  rw [unfollowed, List.toFinset_cons, Finset.sdiff_insert]
  exact Finset.card_erase_le

theorem unfollowed_cons_lt
    {v : Variable}
    (hnew : name ∉ seen)
    (hfirst : file.findVariable? name = some v) :
    unfollowed file (name :: seen) < unfollowed file seen := by
  have hname : v.name = name := by simpa using List.find?_some hfirst
  have hbound : name ∈ file.boundVariables.map Variable.name :=
    List.mem_map.2 ⟨v, List.mem_of_find?_eq_some hfirst, hname⟩
  rw [unfollowed, List.toFinset_cons, Finset.sdiff_insert]
  exact Finset.card_erase_lt_of_mem (by simp [Finset.mem_sdiff, hbound, hnew])

/-- What every pass makes less: the names that are left to follow, and where a name is that of no variable,
the expressions. -/
def passesLeft
    (file : SourceFile)
    (s : Following) :
    Nat :=
  unfollowed file s.seen + s.expression.toList.length

theorem Pass.passesLeft_lt (h : Pass file s next) : passesLeft file next < passesLeft file s := by
  obtain ⟨e, seen, hname, hnew⟩ := h
  have hle : unfollowed file (e.text :: seen) ≤ unfollowed file seen := unfollowed_cons_le
  simp only [passesLeft, Option.toList_some, List.length_singleton]
  cases hfirst : file.findVariable? e.text with
  | none =>
    simp only [Option.bind_none, Option.map_none, Option.toList_none, List.length_nil]
    omega
  | some v =>
    have hlt := unfollowed_cons_lt hnew hfirst
    have hone : ((v.value.map Node.unwrap).toList).length ≤ 1 := Option.length_toList_le
    rw [Option.bind_some]
    omega

/-- The loop does not go on for ever. -/
theorem wellFounded_pass (file : SourceFile) : WellFounded fun next s => Pass file s next :=
  Subrelation.wf Pass.passesLeft_lt (measure (passesLeft file)).wf

theorem rightUnique_pass (file : SourceFile) : Relator.RightUnique (Pass file) := by
  intro s a b ha hb
  cases ha
  cases hb
  rfl

theorem isOver_iff :
    s.IsOver file ↔ ∀ e ∈ s.expression, e.kind = .identifier → e.text ∈ s.seen := by
  obtain ⟨expression, seen⟩ := s
  constructor
  · rintro hover e he hname
    obtain rfl := Option.mem_def.1 he
    by_contra hnew
    exact hover _ (.follow e seen hname hnew)
  · rintro hseen _ ⟨e, seen, hname, hnew⟩
    exact hnew (hseen e rfl hname)

/-- The bound on the number of names is not reached: names are followed as the loop follows them. -/
theorem exists_isOver
    {bound : Nat}
    {e : Node}
    (hbound : unfollowed file seen < bound) :
    ∃ last, ReflTransGen (Pass file) ⟨some e.unwrap, seen⟩ last ∧ last.IsOver file ∧
      followNames file bound seen e = last.found := by
  induction bound generalizing seen e with
  | zero => omega
  | succ bound ih =>
    rw [followNames]
    by_cases hname : e.unwrap.kind = .identifier
    · by_cases hseen : e.unwrap.text ∈ seen
      · exact ⟨_, .refl, isOver_iff.2 (by simp [hseen]), by simp [hname, hseen, found, Option.filter]⟩
      · have hpass := @Pass.follow file e.unwrap seen hname hseen
        cases hvalue : (file.findVariable? e.unwrap.text).bind Variable.value with
        | none =>
          rw [hvalue] at hpass
          exact ⟨_, .single hpass, isOver_iff.2 (by simp), by simp [hname, hseen, found]⟩
        | some value =>
          obtain ⟨v, hfirst, -⟩ := Option.bind_eq_some_iff.1 hvalue
          have hless := unfollowed_cons_lt hseen hfirst
          obtain ⟨last, hrun, hover, hfound⟩ := @ih _ value (hless.trans_le (Nat.le_of_lt_succ hbound))
          rw [hvalue] at hpass
          exact ⟨last, .head hpass hrun, hover, by simp [hname, hseen, hfound]⟩
    · exact ⟨_, .refl, isOver_iff.2 (by simp [hname]), by simp [hname, found, Option.filter]⟩

/-- From the start, names lead to what the loop has found when it is over. -/
theorem exists_isOver_start
    (file : SourceFile)
    (e : Node) :
    ∃ last, ReflTransGen (Pass file) (start e) last ∧ last.IsOver file ∧
      followNames file (file.boundVariables.length + 2) [] e = last.found := by
  have hnames := unfollowed_nil_le file
  exact exists_isOver (by omega)

/-- Whatever passes the loop makes, the methods are those that are listed where it is over. -/
theorem verbsOf_eq_of_isOver
    {e : Node}
    (hrun : ReflTransGen (Pass file) (start e) last)
    (hover : last.IsOver file) :
    verbsOf file (some e) = last.verbs := by
  obtain ⟨last', hrun', hover', hfound⟩ := exists_isOver_start file e
  obtain rfl := end_unique (rightUnique_pass file) hrun hover hrun' hover'
  obtain ⟨_ | n, seen⟩ := last
  · simp [verbsOf, hfound, found, verbs]
  · by_cases hname : n.kind = .identifier <;> simp [verbsOf, hfound, found, verbs, hname, Option.filter]

end Ending

section Tracking

variable {file : SourceFile} {e : Node} {s last next : Following}

/-- What is known of a loop that began with an expression: it has come to an expression on its chain, the
names that it has followed stand on the chain before that, and if it has come to nothing, the chain has ended
at a name. -/
structure Tracks
    (file : SourceFile)
    (e : Node)
    (s : Following) :
    Prop where
  unwrapped : ∀ n ∈ s.expression, n.unwrap = n
  reaches : ∀ n ∈ s.expression, ReflTransGen (StandsFor file) e n
  passed : ∀ name ∈ s.seen, ∃ m : Node, m.kind = .identifier ∧ m.text = name ∧
    ∀ n ∈ s.expression, TransGen (StandsFor file) m n
  ended : s.expression = none → ∃ n, EndsAt file e n ∧ n.kind = .identifier

theorem tracks_start
    (file : SourceFile)
    (e : Node) :
    Tracks file e (start e) where
  unwrapped := by
    rintro n ⟨⟩
    exact Node.unwrap_unwrap e
  reaches := by
    rintro n ⟨⟩
    exact reflTransGen_unwrap file e
  passed := by simp [start]
  ended := by simp [start]

theorem Tracks.pass
    (h : Tracks file e s)
    (hpass : Pass file s next) :
    Tracks file e next := by
  obtain ⟨n, seen, hname, hnew⟩ := hpass
  -- what comes next stands behind the name that is followed
  have hnext : ∀ m ∈ ((file.findVariable? n.text).bind Variable.value).map Node.unwrap,
      TransGen (StandsFor file) n m := by
    intro m hm
    obtain ⟨value, hvalue, rfl⟩ := Option.map_eq_some_iff.1 hm
    exact .head' ((standsFor_iff_of_name hname).2 hvalue) (reflTransGen_unwrap file value)
  refine ⟨fun m hm => ?_, fun m hm => ?_, ?_, fun hnone => ?_⟩
  · obtain ⟨value, -, rfl⟩ := Option.map_eq_some_iff.1 hm
    exact Node.unwrap_unwrap value
  · exact (h.reaches n rfl).trans (hnext m hm).to_reflTransGen
  · refine List.forall_mem_cons.2 ⟨⟨n, hname, rfl, hnext⟩, fun name hseen => ?_⟩
    obtain ⟨m, hm, rfl, hbefore⟩ := h.passed name hseen
    exact ⟨m, hm, rfl, fun k hk => (hbefore n rfl).trans (hnext k hk)⟩
  · refine ⟨n, ⟨h.reaches n rfl, fun m hm => ?_⟩, hname⟩
    rw [standsFor_iff_of_name hname, Option.map_eq_none_iff.1 hnone] at hm
    cases hm

theorem Tracks.of_passes
    (h : Tracks file e s)
    (hrun : ReflTransGen (Pass file) s next) :
    Tracks file e next := by
  induction hrun with
  | refl => exact h
  | tail _ hpass ih => exact ih.pass hpass

/-- A name that comes again closes a circle, since a name stands for the same wherever it is written. -/
theorem transGen_of_same_name
    {n m : Node}
    (hn : n.kind = .identifier)
    (hm : m.kind = .identifier)
    (htext : m.text = n.text)
    (h : TransGen (StandsFor file) m n) :
    TransGen (StandsFor file) n n := by
  obtain ⟨next, hnext, hback⟩ := TransGen.head'_iff.1 h
  rw [standsFor_iff_of_name hm, htext, ← standsFor_iff_of_name hn] at hnext
  exact .head' hnext hback

/-- When the loop is over and has found an expression, the chain ends there. -/
theorem Tracks.endsAt
    {n : Node}
    (h : Tracks file e last)
    (hfound : last.found = some n) :
    EndsAt file e n := by
  obtain ⟨hn, hother⟩ := Option.filter_eq_some_iff.1 hfound
  refine ⟨h.reaches n hn, fun next hnext => ?_⟩
  simp [kind_of_standsFor (h.unwrapped n hn) hnext] at hother

/-- When the loop is over and has found nothing, the chain runs in a circle or ends at a name. -/
theorem Tracks.circles_or_endsAt
    (h : Tracks file e last)
    (hover : last.IsOver file)
    (hfound : last.found = none) :
    Circles file e ∨ ∃ n, EndsAt file e n ∧ n.kind = .identifier := by
  cases hlast : last.expression with
  | none => exact .inr (h.ended hlast)
  | some n =>
    have hn : n ∈ last.expression := hlast
    have hname : n.kind = .identifier := by simpa using Option.filter_eq_none_iff.1 hfound n hn
    obtain ⟨m, hm, htext, hbefore⟩ := h.passed n.text (isOver_iff.1 hover n hn hname)
    exact .inl ⟨n, h.reaches n hn, transGen_of_same_name hname hm htext (hbefore n hn)⟩

theorem endsAt_of_followNames
    {n : Node}
    (h : followNames file (file.boundVariables.length + 2) [] e = some n) :
    EndsAt file e n := by
  obtain ⟨last, hrun, -, hfound⟩ := exists_isOver_start file e
  exact ((tracks_start file e).of_passes hrun).endsAt (hfound.symm.trans h)

theorem circles_or_endsAt_of_followNames
    (h : followNames file (file.boundVariables.length + 2) [] e = none) :
    Circles file e ∨ ∃ n, EndsAt file e n ∧ n.kind = .identifier := by
  obtain ⟨last, hrun, hover, hfound⟩ := exists_isOver_start file e
  exact ((tracks_start file e).of_passes hrun).circles_or_endsAt hover (hfound.symm.trans h)

end Tracking

end Loop

section Lists

/-- Texts that are added once stand where they first came. -/
theorem foldl_addOnce_eq_eraseDups (texts : List String) : texts.foldl addOnce [] = texts.eraseDups := by
  induction texts using List.reverseRecOn with
  | nil => rfl
  | append_singleton texts t ih =>
    rw [List.foldl_append, ih, List.foldl_cons, List.foldl_nil, addOnce, List.eraseDups_append]
    by_cases ht : t ∈ texts
    · simp [List.removeAll, List.filter, ht]
    · simp [List.removeAll, List.filter, List.eraseDups_cons, ht]

/-- The methods of an array are the supported ones among the upper-cased texts of its string elements, each
where it first comes. -/
theorem verbsOfArray_eq_eraseDups (array : Node) :
    verbsOfArray array =
      (((array.namedChildren.filterMap Node.stringValue?).map Text.upper).filter
        fun v => Route.verbs.contains v).eraseDups := by
  rw [verbsOfArray, foldl_addOnce_eq_eraseDups, List.map_filterMap, List.filter_filterMap]
  refine congrArg List.eraseDups (List.filterMap_congr fun c _ => ?_)
  cases hc : c.stringValue? with
  | none => simp [verbLiteral?, hc]
  | some text => simp [verbLiteral?, hc, Route.verb?, Option.filter]

end Lists

/-- The loop that looks for a list of methods ends in every file and for every expression. If the chain of the
expression ends at an array, the methods are the supported ones among the upper-cased texts of its string
elements, each where it first comes. If it runs in a circle, leaves the file or ends elsewhere, there are none.
There is no other way for a chain to go on. -/
theorem verbsOf_spec
    (file : SourceFile)
    (e : Node) :
    (WellFounded fun next s => Pass file s next) ∧
      (∀ last, ReflTransGen (Pass file) (Following.start e) last → last.IsOver file →
        verbsOf file (some e) = last.verbs) ∧
      (∀ array, EndsAt file e array → array.kind = .array →
        verbsOf file (some e) =
          (((array.namedChildren.filterMap Node.stringValue?).map Text.upper).filter
            fun v => Route.verbs.contains v).eraseDups) ∧
      ((Circles file e ∨ LeavesFile file e ∨ ∃ n, EndsAt file e n ∧ n.kind ≠ .array) →
        verbsOf file (some e) = []) ∧
      (Circles file e ∨ ∃ n, EndsAt file e n) := by
  refine ⟨wellFounded_pass file, fun _ => verbsOf_eq_of_isOver, ?_⟩
  cases hfollow : followNames file (file.boundVariables.length + 2) [] e with
  | none =>
    have hverbs : verbsOf file (some e) = [] := by simp [verbsOf, hfollow]
    have hchain := circles_or_endsAt_of_followNames hfollow
    refine ⟨fun array harray hkind => ?_, fun _ => hverbs, hchain.imp_right fun ⟨n, hn, _⟩ => ⟨n, hn⟩⟩
    rcases hchain with hcircle | ⟨n, hn, hname⟩
    · exact absurd harray (hcircle.not_endsAt array)
    · obtain rfl := hn.unique harray
      cases hname.symm.trans hkind
  | some n =>
    have hn := endsAt_of_followNames hfollow
    refine ⟨fun array harray hkind => ?_, fun hnone => ?_, .inr ⟨n, hn⟩⟩
    · obtain rfl := hn.unique harray
      simp [verbsOf, hfollow, hkind, verbsOfArray_eq_eraseDups]
    · have hother : n.kind ≠ .array := by
        rcases hnone with hcircle | ⟨m, hm, hname, -⟩ | ⟨m, hm, hkind⟩
        · exact absurd hn (hcircle.not_endsAt n)
        · simp [hn.unique hm, hname]
        · exact hn.unique hm ▸ hkind
      simp [verbsOf, hfollow, hother]

/-- A list behind a name, casts and parentheses, whose name is declared a second time. -/
def redeclaredList : SourceFile :=
  .ofText ⟨true, ["route.ts"]⟩
    ("export const methods = (listed as Verbs);\n" ++
      "var listed = <Verbs>[`get`, 'Post', other, ('GET'), \"trace\"];\n" ++
      "var listed = ['PUT'];\n")

theorem verbsOf_spec_redeclared :
    ∃ e array, (redeclaredList.findVariable? "methods").bind Variable.value = some e ∧
      EndsAt redeclaredList e array ∧ array.kind = .array ∧
      verbsOf redeclaredList (some e) = ["GET", "POST"] := by
  have hread : (((redeclaredList.findVariable? "methods").bind Variable.value).any fun e =>
      (followNames redeclaredList (redeclaredList.boundVariables.length + 2) [] e).any fun array =>
        array.kind == .array &&
          (((array.namedChildren.filterMap Node.stringValue?).map Text.upper).filter
            fun v => Route.verbs.contains v).eraseDups == ["GET", "POST"]) = true := by
    decide +kernel
  obtain ⟨e, he, hread⟩ := (Option.any_eq_true _ _).1 hread
  obtain ⟨array, harray, hread⟩ := (Option.any_eq_true _ _).1 hread
  rw [Bool.and_eq_true, beq_iff_eq, beq_iff_eq] at hread
  have hend := endsAt_of_followNames harray
  exact ⟨e, array, he, hend, hread.1, ((verbsOf_spec _ e).2.2.1 array hend hread.1).trans hread.2⟩

end RouteAtlas.FileRoutes
