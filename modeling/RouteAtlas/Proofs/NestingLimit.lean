import Mathlib
import RouteAtlas.Proofs.Entries
import RouteAtlas.Proofs.Inheritance
import RouteAtlas.Proofs.SchemaParts

/-!
# The limit on nesting

A schema is read over a limited number of levels: each call of a chain, each argument and entry that is a
schema itself, and each name that is resolved is one level further. What stands one level further than the
last is not read but counts as unknown.

So the limit does not show in an expression that does not come to that level: its schema is the one that is
read without a limit. In any other expression just what stands at that level is unknown, and the rest is
read as ever. Nothing fails for want of levels: only a look-up of a name can fail.
-/

namespace RouteAtlas.Schema

open Syntax Project

section Reasons

/-- A reason why something is not understood stands in a schema or in one of its parts. -/
inductive Mentions (reason : String) : Schema → Prop
  | here
      {s : Schema}
      (h : s.reason = some reason) :
      Mentions reason s
  | item
      {s inner : Schema}
      (hitems : s.items = some inner)
      (h : Mentions reason inner) :
      Mentions reason s
  | child
      {s : Schema}
      {children : List (String × Schema)}
      {c : String × Schema}
      (hchildren : s.children = some children)
      (hmem : c ∈ children)
      (h : Mentions reason c.2) :
      Mentions reason s

/-- A fault that comes from looking a name up. -/
def IsLookupFault
    (scope : Scope)
    (fault : Fault) :
    Prop :=
  ∃ name file, scope.value name file = .error fault ∨ scope.type name file = .error fault

/-- What is read mentions only reasons of some kind, and it fails only with the look-up of a name. -/
def Sound
    (scope : Scope)
    (p : String → Prop)
    (outcome : Except Fault Schema) :
    Prop :=
  match outcome with
  | .ok s => ∀ reason, Mentions reason s → p reason
  | .error fault => IsLookupFault scope fault

variable {scope : Scope} {p : String → Prop} {read : Reading} {file : SourceFile}
  {open_ : List (Files.Path × String)}

/-- All reasons in the entries of an object are of some kind. -/
def SoundEntries
    (p : String → Prop)
    (children : List (String × Schema)) :
    Prop :=
  ∀ c ∈ children, ∀ reason, Mentions reason c.2 → p reason

theorem sound_iff
    {s : Schema} :
    Sound scope p (.ok s) ↔
      (∀ reason, s.reason = some reason → p reason) ∧
        (∀ inner, s.items = some inner → Sound scope p (.ok inner)) ∧
        ∀ children, s.children = some children → SoundEntries p children := by
  constructor
  · intro h
    exact ⟨fun reason hreason => h reason (.here hreason),
      fun inner hinner reason hmention => h reason (.item hinner hmention),
      fun children hchildren c hc reason hmention => h reason (.child hchildren hc hmention)⟩
  · rintro ⟨hhere, hitems, hchildren⟩ reason hmention
    cases hmention with
    | here h => exact hhere reason h
    | item hitem h => exact hitems _ hitem reason h
    | child hchild hmem h => exact hchildren _ hchild _ hmem reason h

/-- Flags, defaults and options mention nothing. -/
theorem Sound.congr
    {s s' : Schema}
    (h : Sound scope p (.ok s))
    (hreason : s'.reason = s.reason)
    (hitems : s'.items = s.items)
    (hchildren : s'.children = s.children) :
    Sound scope p (.ok s') := by
  rw [sound_iff] at h ⊢
  rwa [hreason, hitems, hchildren]

theorem sound_plain
    {s : Schema}
    (hreason : s.reason = none)
    (hitems : s.items = none)
    (hchildren : s.children = none) :
    Sound scope p (.ok s) := by
  rw [sound_iff]
  simp [hreason, hitems, hchildren]

theorem sound_unknown
    {reason : String}
    (h : p reason) :
    Sound scope p (.ok (unknown reason)) := by
  rw [sound_iff]
  simp [unknown, ofKind, h]

theorem Sound.withChildren
    {s : Schema}
    {children : List (String × Schema)}
    (h : Sound scope p (.ok s))
    (hchildren : SoundEntries p children) :
    Sound scope p (.ok { s with children := some children }) := by
  rw [sound_iff] at h ⊢
  refine ⟨h.1, h.2.1, ?_⟩
  rintro _ ⟨⟩
  exact hchildren

theorem Sound.getD_children
    {s : Schema}
    (h : Sound scope p (.ok s)) :
    SoundEntries p (s.children.getD []) := by
  cases hchildren : s.children with
  | none => simp [SoundEntries]
  | some children => exact (sound_iff.1 h).2.2 children hchildren

theorem sound_objectOf
    {children : List (String × Schema)}
    (h : SoundEntries p children) :
    Sound scope p (.ok (objectOf children)) :=
  Sound.withChildren (s := ofKind .object) (sound_plain rfl rfl rfl) h

/-- Entries that take the place of others bring their own reasons. -/
theorem SoundEntries.foldl_putEntry
    {children more : List (String × Schema)}
    (h : SoundEntries p children)
    (hmore : SoundEntries p more) :
    SoundEntries p (more.foldl (fun acc c => putEntry c.1 c.2 acc) children) := by
  induction more generalizing children with
  | nil => exact h
  | cons c rest ih =>
    obtain ⟨hfirst, hrest⟩ := List.forall_mem_cons.1 hmore
    exact ih (forall_mem_putEntry hfirst h) hrest

/-- A step that keeps reasons keeps soundness. -/
theorem Sound.bind
    {α : Type}
    {outcome : Except Fault α}
    {f : α → Except Fault Schema}
    (hok : ∀ a, outcome = .ok a → Sound scope p (f a))
    (herror : ∀ fault, outcome = .error fault → IsLookupFault scope fault) :
    Sound scope p (outcome >>= f) := by
  cases outcome with
  | error fault => exact herror fault rfl
  | ok a => exact hok a rfl

theorem Sound.isLookupFault
    {outcome : Except Fault Schema}
    {fault : Fault}
    (h : Sound scope p outcome)
    (herror : outcome = .error fault) :
    IsLookupFault scope fault := by
  rwa [herror] at h

/-- The entries of an object expression are as sound as its parts. -/
theorem soundEntries_of_shape
    {arg : Option Node}
    {children : List (String × Schema)}
    (h : ∀ e ∈ entryValues arg, Sound scope p (read (some e) file open_))
    (hshape : shape read file open_ arg = .ok children) :
    SoundEntries p children := by
  obtain ⟨pairs, hpairs, hchildren⟩ := exists_of_bind_eq_ok hshape
  cases hchildren
  refine forall_mem_ofPairs fun c hc => ?_
  obtain ⟨property, hproperty, hread⟩ := exists_of_mem_mapM hpairs hc
  obtain ⟨s, hs, hread⟩ := exists_of_bind_eq_ok hread
  cases hread
  have hsound := h property.value (List.mem_map_of_mem hproperty)
  rwa [hs] at hsound

theorem isLookupFault_of_shape
    {arg : Option Node}
    {fault : Fault}
    (h : ∀ e ∈ entryValues arg, Sound scope p (read (some e) file open_))
    (hshape : shape read file open_ arg = .error fault) :
    IsLookupFault scope fault := by
  have hparts : (((arg.map Node.properties).getD []).mapM fun q => do
      let s ← read (some q.value) file open_
      return (q.name, s)) = .error fault := by
    unfold shape at hshape
    cases hmap : (((arg.map Node.properties).getD []).mapM fun q => do
        let s ← read (some q.value) file open_
        return (q.name, s)) with
    | error e => rw [hmap] at hshape; exact hshape
    | ok pairs => rw [hmap] at hshape; cases hshape
  obtain ⟨property, hproperty, hfault⟩ := exists_of_mapM_eq_error hparts
  cases hread : read (some property.value) file open_ with
  | ok s => rw [hread] at hfault; cases hfault
  | error e =>
    rw [hread] at hfault
    cases hfault
    exact (h property.value (List.mem_map_of_mem hproperty)).isLookupFault hread

theorem isLookupFault_of_enumerationValues
    {arg : Option Node}
    {fault : Fault}
    (h : enumerationValues scope file arg = .error fault) :
    IsLookupFault scope fault := by
  unfold enumerationValues at h
  split at h
  · cases h
  · next e _ =>
    split at h
    · cases htype : scope.type e.text file with
      | error e' =>
        rw [htype] at h
        cases h
        exact ⟨e.text, file, .inr htype⟩
      | ok outcome =>
        rw [htype] at h
        cases outcome with
        | error missing => cases h
        | ok found =>
          change (if _ then pure _ else pure _ : Except Fault (List Value)) = _ at h
          split at h <;> cases h
    · cases h

end Reasons

section Soundness

variable {scope : Scope} {p : String → Prop} {read : Reading} {file : SourceFile}
  {open_ : List (Files.Path × String)}

/-- The reason that is given for what is nested too deep. -/
def tooDeep : String :=
  "schema nesting too deep"

/-- The reason that is given for a name whose definition is being expanded. -/
def recursiveReference (name : String) : String :=
  "recursive schema reference " ++ name

theorem head?_recursiveReference (name : String) : (recursiveReference name).toList.head? = some 'r' := by
  have hreason : (recursiveReference name).toList = "recursive schema reference ".toList ++ name.toList :=
    String.toList_append
  rw [hreason, List.head?_append_of_ne_nil _ (by decide)]
  decide

/-- Reasons of some kind comprise all that the rules for one level give, that against recursion apart. -/
def CoversRules (p : String → Prop) : Prop :=
  ∀ reason : String, reason.toList.head? ∉ [some 's', some 'r'] → p reason

theorem CoversRules.sound_unknown_append
    (hp : CoversRules p)
    {start : String}
    (text : String)
    (hstart : start.toList.head? ∉ [some 's', some 'r'])
    (hfilled : start.toList ≠ []) :
    Sound scope p (.ok (unknown (start ++ text))) := by
  refine sound_unknown (hp _ ?_)
  rwa [String.toList_append, List.head?_append_of_ne_nil _ hfilled]

theorem CoversRules.sound_constructed
    (hp : CoversRules p)
    {name : String}
    {args : List Node}
    (h : ∀ e ∈ constructorParts name args, Sound scope p (read (some e) file open_)) :
    Sound scope p (constructed read scope file open_ name args) := by
  by_cases hunion : name = "union" ∨ name = "discriminatedUnion"
  · have hparts : constructorParts name args = (firstOption? args).toList := by
      rcases hunion with rfl | rfl <;> rfl
    rw [constructed_union hunion]
    cases hfirst : firstOption? args with
    | none => exact sound_unknown (hp _ (by decide))
    | some first => exact h first (by simp [hparts, hfirst])
  · have hshape : (∀ e ∈ entryValues args.head?, Sound scope p (read (some e) file open_)) →
        Sound scope p (shape read file open_ args.head? >>= fun children => pure (objectOf children)) :=
      fun hentries => .bind (fun children hchildren =>
        sound_objectOf (soundEntries_of_shape hentries hchildren))
        fun fault hfault => isLookupFault_of_shape hentries hfault
    unfold constructed
    unfold constructorParts at h
    cases hprimitive : entryOf? name primitives with
    | some kind => exact sound_plain rfl rfl rfl
    | none =>
      simp only [hprimitive, Option.isSome_none, Bool.false_eq_true, if_false] at h
      dsimp only
      split
      · cases args with
        | nil => exact sound_plain rfl rfl rfl
        | cons a rest =>
          have hitem := h a (List.mem_singleton_self a)
          refine .bind (fun s hs => sound_iff.2 ⟨by simp [arrayOf, ofKind], ?_, by simp [arrayOf, ofKind]⟩)
            fun fault hfault => hitem.isLookupFault hfault
          rintro _ ⟨⟩
          rwa [hs] at hitem
      · exact hshape h
      · exact hshape h
      · exact hshape h
      · exact sound_plain rfl rfl rfl
      · exact .bind (fun options _ => sound_plain rfl rfl rfl)
          fun fault hfault => isLookupFault_of_enumerationValues hfault
      · exact sound_plain rfl rfl rfl
      · simp at hunion
      · simp at hunion
      · exact sound_objectOf (by simp [SoundEntries])
      · exact sound_unknown (hp _ (by decide))
      · split
        · have hinner := h _ (List.mem_singleton_self _)
          refine .bind (fun s hs => ?_) fun fault hfault => hinner.isLookupFault hfault
          rw [hs] at hinner
          exact hinner.congr rfl rfl rfl
        · have hinner := h _ (List.mem_singleton_self _)
          refine .bind (fun s hs => ?_) fun fault hfault => hinner.isLookupFault hfault
          rw [hs] at hinner
          exact hinner.congr rfl rfl rfl
        · exact hp.sound_unknown_append _ (by decide) (by decide)

theorem Sound.modified
    {s : Schema}
    (h : Sound scope p (.ok s))
    (method : String)
    (args : List Node) :
    Sound scope p (.ok (modified s method args)) := by
  unfold Schema.modified
  split
  · exact h.congr rfl rfl rfl
  · exact h.congr rfl rfl rfl
  · exact h.congr rfl rfl rfl
  · split
    · exact h.congr rfl rfl rfl
    · exact h

theorem Sound.applied
    {s : Schema}
    {name : String}
    {args : List Node}
    (h : Sound scope p (.ok s))
    (hparts : s.kind = .object →
      ∀ e ∈ methodParts name args, Sound scope p (read (some e) file open_)) :
    Sound scope p (applied read file open_ s name args) := by
  unfold Schema.applied
  split
  · exact h.modified name args
  split
  · exact sound_iff.2 ⟨by simp [arrayOf, ofKind], by rintro _ ⟨⟩; exact h, by simp [arrayOf, ofKind]⟩
  split
  · next hobject =>
    have hparts := hparts (by simpa using hobject)
    have hchildren := h.getD_children
    unfold methodParts at hparts
    unfold reshaped
    split
    · refine h.withChildren fun c hc => ?_
      obtain ⟨c', hc', rfl⟩ := List.mem_map.1 hc
      have hold : Sound scope p (.ok c'.2) := hchildren c' hc'
      exact hold.congr rfl rfl rfl
    · refine h.withChildren fun c hc => ?_
      obtain ⟨c', hc', rfl⟩ := List.mem_map.1 hc
      have hold : Sound scope p (.ok c'.2) := hchildren c' hc'
      exact hold.congr rfl rfl rfl
    · exact .bind (fun more hmore =>
        h.withChildren (hchildren.foldl_putEntry (soundEntries_of_shape hparts hmore)))
        fun fault hfault => isLookupFault_of_shape hparts hfault
    · have hother := hparts _ (List.mem_singleton_self _)
      refine .bind (fun other hread => ?_) fun fault hfault => hother.isLookupFault hfault
      rw [hread] at hother
      exact h.withChildren (hchildren.foldl_putEntry hother.getD_children)
    · exact h.withChildren fun c hc => hchildren c (List.mem_of_mem_filter hc)
    · exact h.withChildren fun c hc => hchildren c (List.mem_of_mem_filter hc)
    · exact h
  · exact h

theorem CoversRules.sound_named
    (hp : CoversRules p)
    {x : Subject}
    {name : String}
    (hguard : (x.file.path, name) ∈ x.open_ → p (recursiveReference name))
    (h : ∀ y ∈ x.hop scope name, Sound scope p (y.readBy read)) :
    Sound scope p (named read scope x.file x.open_ name) := by
  unfold named
  unfold Subject.hop at h
  by_cases hopen : x.open_.contains (x.file.path, name) = true
  · rw [if_pos hopen]
    exact sound_unknown (hguard (by simpa using hopen))
  · simp only [hopen, Bool.false_eq_true, if_false] at h ⊢
    cases hvalue : scope.value name x.file with
    | error fault => exact ⟨name, x.file, .inl hvalue⟩
    | ok outcome =>
      cases outcome with
      | error missing => exact hp.sound_unknown_append _ (by decide) (by decide)
      | ok found =>
        rw [hvalue] at h
        exact h _ (List.mem_singleton_self _)

theorem CoversRules.sound_called
    (hp : CoversRules p)
    {x : Subject}
    {e : Node}
    (hx : x.node.map Node.unwrap = some e)
    (hcall : e.kind = .callExpression)
    (h : ∀ y ∈ x.parts scope read, Sound scope p (y.readBy read)) :
    Sound scope p (called read scope x.file x.open_ e) := by
  rw [Subject.parts, partsWhen_call hx hcall, callParts] at h
  rw [called_eq_of_callee]
  cases hcallee : calleeOf x.file e with
  | other text => exact hp.sound_unknown_append _ (by decide) (by decide)
  | constructor name =>
    rw [hcallee, List.map_map] at h
    exact hp.sound_constructed fun e' he' => h _ (List.mem_map_of_mem he')
  | method receiver name =>
    rw [hcallee, List.map_cons, List.forall_mem_cons] at h
    refine .bind (fun s hs => ?_) fun fault hfault => h.1.isLookupFault hfault
    have hreceiver : Sound scope p (read receiver x.file x.open_) := h.1
    rw [hs] at hreceiver
    refine hreceiver.applied fun hobject e' he' => ?_
    have hon : x.isOnObject read = true := by
      simp [Subject.isOnObject, hx, hcallee, hs, hobject]
    have hrest := h.2
    rw [hon, if_pos rfl, List.map_map] at hrest
    exact hrest _ (List.mem_map_of_mem he')

/-- What is read at one level is sound if its parts are, and if it is no name that is being resolved. -/
theorem CoversRules.sound_step
    (hp : CoversRules p)
    {x : Subject}
    (hguard : ∀ name, x.name? = some name → (x.file.path, name) ∈ x.open_ → p (recursiveReference name))
    (h : ∀ y ∈ x.parts scope read, Sound scope p (y.readBy read)) :
    Sound scope p (x.readBy (step scope read)) := by
  unfold Subject.readBy step
  cases hx : x.node.map Node.unwrap with
  | none => exact sound_unknown (hp _ (by decide))
  | some e =>
    dsimp only
    split
    · next hkind =>
      exact hp.sound_named (hguard _ (by simp [Subject.name?, hx, hkind]))
        (by simpa [Subject.parts, Subject.partsWhen, hx, hkind] using h)
    · next hkind =>
      exact hp.sound_named (hguard _ (by simp [Subject.name?, hx, hkind]))
        (by simpa [Subject.parts, Subject.partsWhen, hx, hkind] using h)
    · next hkind => exact hp.sound_called hx hkind h
    · exact hp.sound_unknown_append _ (by decide) (by decide)
    · exact hp.sound_unknown_append _ (by decide) (by decide)

/-- Without a limit nothing is nested too deep. -/
theorem sound_readFreely
    (scope : Scope)
    (x : Subject) :
    Sound scope (· ≠ tooDeep) (x.readBy (readFreely scope)) := by
  have hp : CoversRules (· ≠ tooDeep) := by
    rintro _ hreason rfl
    exact hreason (by decide)
  have hguard : ∀ name, recursiveReference name ≠ tooDeep := by
    intro name h
    have hhead := head?_recursiveReference name
    rw [h] at hhead
    exact absurd hhead (by decide)
  induction x using Subject.induction_parts scope with
  | h x ih =>
    rw [readFreely_eq_step]
    exact hp.sound_step (fun name _ _ => hguard name) fun y hy => ih y (Subject.mem_partsWhen_true hy)

/-- Within a limit only look-ups fail. -/
theorem sound_readUpTo
    (levels : Nat)
    (x : Subject) :
    Sound scope (fun _ => True) (x.readBy (readUpTo scope levels)) := by
  induction levels generalizing x with
  | zero =>
    unfold Subject.readBy readUpTo
    split
    · exact sound_unknown trivial
    · exact sound_unknown trivial
  | succ levels ih =>
    rw [readUpTo_succ]
    exact CoversRules.sound_step (fun _ _ => trivial) (fun _ _ _ => trivial) fun y _ => ih y

end Soundness

section Levels

/-- What is come to in reading an expression, by the number of levels that lead to it; the parts of each
expression are read by the reading of their own level. -/
inductive Reached
    (scope : Scope)
    (read : Nat → Reading)
    (whole : Subject) :
    Nat → Subject → Prop
  | whole : Reached scope read whole 0 whole
  | part
      {level : Nat}
      {x y : Subject}
      (hx : Reached scope read whole level x)
      (hy : Subject.ComesToIn (read (level + 1)) (x.parts scope (read (level + 1))) y) :
      Reached scope read whole (level + 1) y

/-- Every expression that is come to in reading without a limit has less than a number of levels above. -/
def NestsBelow
    (scope : Scope)
    (whole : Subject)
    (levels : Nat) :
    Prop :=
  ∀ level x, Reached scope (fun _ => readFreely scope) whole level x → x.node.isSome → level < levels

/-- Readings by levels, some number of which keep the rules above a given reading. -/
def readOver
    (scope : Scope)
    (beyond : Reading)
    (levels : Nat) :
    Reading :=
  (step scope)^[levels] beyond

/-- What an expression counts as that is one level too deep. -/
def Subject.cut (x : Subject) : Schema :=
  unknown (if x.node.isSome then tooDeep else "empty expression")

variable {scope : Scope} {read read' : Nat → Reading} {whole x : Subject} {depth level : Nat}

/-- What is come to on the way is a start itself. -/
theorem Reached.trans
    {more : Nat}
    {y : Subject}
    (hx : Reached scope read whole level x)
    (hy : Reached scope (fun k => read (level + k)) x more y) :
    Reached scope read whole (level + more) y := by
  induction hy with
  | whole => exact hx
  | part _ hpart ih => exact ih.part hpart

theorem NestsBelow.mono
    {levels more : Nat}
    (h : NestsBelow scope whole levels)
    (hle : levels ≤ more) :
    NestsBelow scope whole more :=
  fun level x hx hnode => (h level x hx hnode).trans_le hle

/-- A part that is come to is nested one level less than the whole. -/
theorem NestsBelow.part
    {levels : Nat}
    (h : NestsBelow scope whole (levels + 1))
    (hx : Subject.ComesToIn (readFreely scope) (whole.parts scope (readFreely scope)) x) :
    NestsBelow scope x levels := by
  intro level y hy hnode
  have hfirst : Reached scope (fun _ => readFreely scope) whole 1 x := .part .whole hx
  have hreached := hfirst.trans hy
  have hlt := h _ y hreached hnode
  omega

theorem readOver_succ
    (beyond : Reading)
    (levels : Nat) :
    readOver scope beyond (levels + 1) = step scope (readOver scope beyond levels) :=
  Function.iterate_succ_apply' ..

theorem readUpTo_eq_readOver (levels : Nat) :
    readUpTo scope levels = readOver scope (readUpTo scope 0) levels := by
  induction levels with
  | zero => rfl
  | succ levels ih => rw [readUpTo_succ, readOver_succ, ih]

theorem readOver_readFreely (levels : Nat) :
    readOver scope (readFreely scope) levels = readFreely scope := by
  induction levels with
  | zero => rfl
  | succ levels ih => rw [readOver_succ, ih, ← readFreely_eq_step]

theorem readBy_zero
    (scope : Scope)
    (x : Subject) :
    x.readBy (readUpTo scope 0) = .ok x.cut := by
  obtain ⟨node, file, open_⟩ := x
  cases node <;> rfl

/-- Readings that keep the rules down to some level, where they come to something, and agree on what is come to
there agree on all that is come to above. -/
theorem readBy_eq_of_reached
    (hread : ∀ level < depth, ∀ x, Reached scope read whole level x →
      x.readBy (read level) = x.readBy (step scope (read (level + 1))))
    (hread' : ∀ level < depth, ∀ x, Reached scope read whole level x →
      x.readBy (read' level) = x.readBy (step scope (read' (level + 1))))
    (hdepth : ∀ x, Reached scope read whole depth x → x.readBy (read depth) = x.readBy (read' depth))
    (hlevel : level ≤ depth)
    (hx : Reached scope read whole level x) :
    x.readBy (read level) = x.readBy (read' level) := by
  induction hlevel using Nat.decreasingInduction generalizing x with
  | self => exact hdepth x hx
  | of_succ level hlt ih =>
    rw [hread level hlt x hx, hread' level hlt x hx]
    exact step_congr fun y hy => ih (hx.part hy)

/-- What is beyond the limit counts as unknown: any reading of it that gives this result leads to the same
schema. -/
theorem readOver_eq_of_cut
    {beyond : Reading}
    (hcut : ∀ x, Reached scope (fun level => readOver scope beyond (depth - level)) whole depth x →
      x.readBy beyond = .ok x.cut) :
    whole.readBy (readOver scope beyond depth) = whole.readBy (readUpTo scope depth) := by
  have hrules : ∀ beyond level, level < depth →
      readOver scope beyond (depth - level) = step scope (readOver scope beyond (depth - (level + 1))) := by
    intro beyond level hlt
    rw [← readOver_succ]
    congr 1
    omega
  have hlast : ∀ x, Reached scope (fun level => readOver scope beyond (depth - level)) whole depth x →
      x.readBy (readOver scope beyond (depth - depth)) =
        x.readBy (readOver scope (readUpTo scope 0) (depth - depth)) := by
    intro x hx
    rw [Nat.sub_self]
    exact (hcut x hx).trans (readBy_zero scope x).symm
  have hsame := readBy_eq_of_reached
    (fun level hlt x _ => congrArg x.readBy (hrules beyond level hlt))
    (fun level hlt x _ => congrArg x.readBy (hrules (readUpTo scope 0) level hlt)) hlast (Nat.zero_le depth)
    .whole
  rw [readUpTo_eq_readOver]
  exact hsame

/-- An expression that does not come to the limit is read as without one. -/
theorem readUpTo_eq_readFreely
    (h : NestsBelow scope whole depth) :
    whole.readBy (readUpTo scope depth) = whole.readBy (readFreely scope) := by
  have hcut : ∀ x, Reached scope (fun level => readOver scope (readFreely scope) (depth - level)) whole
      depth x → x.readBy (readFreely scope) = .ok x.cut := by
    intro x hx
    simp only [readOver_readFreely] at hx
    have hnode : x.node = none := by
      by_contra hnode
      exact lt_irrefl depth (h depth x hx (Option.isSome_iff_ne_none.2 hnode))
    rw [readFreely_eq_step]
    simp [Subject.readBy, step, Subject.cut, hnode]
  rw [← readOver_eq_of_cut hcut, readOver_readFreely]

/-- All that may be come to over a number of levels, when every receiver is taken for an object. -/
def reachable
    (scope : Scope)
    (whole : Subject) :
    Nat → List Subject
  | 0 => [whole]
  | level + 1 => (reachable scope whole level).flatMap fun x => x.partsWhen scope true

theorem mem_reachable_of_reached
    (hx : Reached scope read whole level x) :
    x ∈ reachable scope whole level := by
  induction hx with
  | whole => exact List.mem_singleton_self _
  | part _ hy ih => exact List.mem_flatMap.2 ⟨_, ih, Subject.mem_partsWhen_true hy.mem⟩

/-- Where nothing may be come to any more, the nesting ends. -/
theorem nestsBelow_of_reachable_eq_nil
    (h : reachable scope whole depth = []) :
    NestsBelow scope whole depth := by
  intro level x hx _
  by_contra hlevel
  have hnil : ∀ more, reachable scope whole (depth + more) = [] := by
    intro more
    induction more with
    | zero => exact h
    | succ more ih => rw [← Nat.add_assoc, reachable, ih, List.flatMap_nil]
  have hmem := mem_reachable_of_reached hx
  obtain ⟨more, rfl⟩ := Nat.exists_eq_add_of_le (Nat.not_lt.1 hlevel)
  rw [hnil more] at hmem
  cases hmem

/-- The limit on nesting shows only where it is reached. There is one reading without a limit. Any
expression that is nested below the limit has the schema of this reading, in which nothing is nested too
deep. In every expression just what stands one level too deep counts as unknown, whatever it is, and only the
look-up of a name fails. -/
theorem ofExpression_nesting
    (scope : Scope)
    (file : SourceFile)
    (e : Option Node) :
    (∀ read, read = step scope read ↔ read = readFreely scope) ∧
      (NestsBelow scope ⟨e, file, []⟩ maxNesting →
        ofExpression scope file e = readFreely scope e file [] ∧
          ∀ s, ofExpression scope file e = .ok s → ¬ Mentions tooDeep s) ∧
      (∀ beyond,
        (∀ x, Reached scope (fun level => readOver scope beyond (maxNesting - level)) ⟨e, file, []⟩
          maxNesting x → x.readBy beyond = .ok x.cut) →
        readOver scope beyond maxNesting e file [] = ofExpression scope file e) ∧
      ∀ fault, ofExpression scope file e = .error fault → IsLookupFault scope fault := by
  let whole : Subject := ⟨e, file, []⟩
  refine ⟨fun read => eq_step_iff, fun hnest => ?_, fun beyond hcut => ?_, fun fault hfault => ?_⟩
  · have hsame : ofExpression scope file e = whole.readBy (readFreely scope) := readUpTo_eq_readFreely hnest
    refine ⟨hsame, fun s hs hmention => ?_⟩
    have hsound := sound_readFreely scope whole
    rw [← hsame, hs] at hsound
    exact hsound tooDeep hmention rfl
  · exact readOver_eq_of_cut hcut
  · exact (sound_readUpTo maxNesting whole).isLookupFault hfault

theorem nestsBelow_nullableSeven : NestsBelow ⟨none⟩ ⟨some nullableSeven, bareFile, []⟩ maxNesting := by
  have hnil : reachable ⟨none⟩ ⟨some nullableSeven, bareFile, []⟩ 3 = [] := by cbv
  intro level x hx hnode
  exact (nestsBelow_of_reachable_eq_nil hnil level x hx hnode).trans (by decide)

/-- In `z.number().default(7).nullable()` nothing is nested too deep. -/
theorem ofExpression_nesting_nullableSeven :
    NestsBelow ⟨none⟩ ⟨some nullableSeven, bareFile, []⟩ maxNesting ∧
      readFreely ⟨none⟩ (some nullableSeven) bareFile [] =
        .ok { ofKind .number with nullable := true, default := some (.int 7) } := by
  obtain ⟨-, hsame, -, -⟩ := ofExpression_nesting ⟨none⟩ bareFile (some nullableSeven)
  refine ⟨nestsBelow_nullableSeven, ?_⟩
  rw [← (hsame nestsBelow_nullableSeven).1]
  cbv

end Levels

end RouteAtlas.Schema
