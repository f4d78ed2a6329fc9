import Mathlib
import RouteAtlas.Proofs.TypeArguments

/-!
# One set of names for all annotations

The names that are being looked up need not be handed down to the declarations that they lead to. They
can stand in one set for all annotations, which a name is added to before its declaration is read and
taken from afterwards, also when that reading fails. That reading ends with such a set rests on its never
having fewer names after a part than before: then there is less to be read from step to step, or one name
more. It gives what reading does for which the names are handed down, and leaves the set as it was. So
what is read, and when and in which order, makes no difference to any of the answers.
-/

namespace RouteAtlas

open Syntax
open Project (Scope)

namespace Shape

section Names

variable {scope : Scope} {open_ names : OpenNames} {file : SourceFile} {name t : String}
  {ss : List Shape} {found : Project.Found}

theorem not_mem_of_resolveName
    (h : resolveName scope open_ file name t ss = .ok (.inr found)) :
    (file.path, name) ∉ open_ := by
  unfold resolveName at h
  split at h
  · cases h
  · split at h
    · cases h
    · next hopen =>
      simp only [Bool.or_eq_true, not_or, List.contains_iff_mem] at hopen
      exact hopen.1

/-- How far reading is from its end is told by how many names may still be added, and then by the size of
what is to be read. -/
def remaining
    (open_ : OpenNames)
    (size : Nat) :
    Nat × Nat :=
  (maxOpenNames + 2 - open_.length, size)

variable {k l : Nat}

theorem remaining_lt_of_size
    (hnames : open_.length ≤ names.length)
    (h : k < l) :
    Prod.Lex (· < ·) (· < ·) (remaining names k) (remaining open_ l) := by
  rcases (Nat.sub_le_sub_left hnames (maxOpenNames + 2)).lt_or_eq with hlt | heq
  · exact .left _ _ hlt
  · rw [remaining, remaining, heq]
    exact .right _ h

theorem remaining_lt_of_resolveName
    (hnames : open_.length ≤ names.length)
    (h : resolveName scope names file name t ss = .ok (.inr found)) :
    Prod.Lex (· < ·) (· < ·) (remaining (names.insert (file.path, name)) k) (remaining open_ l) := by
  have hlength : (names.insert (file.path, name)).length = names.length + 1 := by
    rw [List.insert_of_not_mem (not_mem_of_resolveName h), List.length_cons]
  have hshort := length_le_of_resolveName h
  exact .left _ _ (by omega)

end Names

/-- What reading ends with: an answer, and the names that are in the set then. They are no fewer than at
the start. -/
structure Ending (open_ : OpenNames) (α : Type) where
  answer : Except Fault α
  names : OpenNames
  length_le : open_.length ≤ names.length

namespace Ending

variable {open_ : OpenNames} {α β : Type}

/-- An end that is reached at once. -/
def now
    (open_ : OpenNames)
    (answer : Except Fault α) :
    Ending open_ α :=
  ⟨answer, open_, le_rfl⟩

/-- What comes next is read with the names that the first part ends with, unless that fails. -/
def andThen
    (e : Ending open_ α)
    (next : (names : OpenNames) → open_.length ≤ names.length → α → Ending names β) :
    Ending open_ β :=
  match e.answer with
  | .error f => ⟨.error f, e.names, e.length_le⟩
  | .ok a =>
    let more := next e.names e.length_le a
    ⟨more.answer, more.names, e.length_le.trans more.length_le⟩

/-- An answer that something is made of. -/
def map
    (f : α → β)
    (e : Ending open_ α) :
    Ending open_ β :=
  ⟨e.answer.map f, e.names, e.length_le⟩

/-- A name that was added is taken away at the end, whatever the answer is. -/
def takeAway
    {key : Files.Path × String}
    (hnew : key ∉ open_)
    (e : Ending (open_.insert key) α) :
    Ending open_ α :=
  ⟨e.answer, e.names.erase key, by
    have hadded : (open_.insert key).length = open_.length + 1 := by
      rw [List.insert_of_not_mem hnew, List.length_cons]
    have hlength := e.length_le
    have herase : e.names.length - 1 ≤ (e.names.erase key).length := List.le_length_erase
    omega⟩

/-- Whether reading has an answer and leaves the names as they were. -/
def Restores
    (e : Ending open_ α)
    (answer : Except Fault α) :
    Prop :=
  e.answer = answer ∧ e.names = open_

theorem restores_now (answer : Except Fault α) : (now open_ answer).Restores answer :=
  ⟨rfl, rfl⟩

theorem Restores.andThen
    {e : Ending open_ α}
    {answer : Except Fault α}
    {next : (names : OpenNames) → open_.length ≤ names.length → α → Ending names β}
    {g : α → Except Fault β}
    (h : e.Restores answer)
    (hnext : ∀ a, (next open_ le_rfl a).Restores (g a)) :
    (e.andThen next).Restores (answer >>= g) := by
  obtain ⟨answer', names, hle⟩ := e
  obtain ⟨hanswer, hnames⟩ := h
  dsimp only at hanswer hnames
  subst hanswer hnames
  cases answer' with
  | error f => exact ⟨rfl, rfl⟩
  | ok a => exact hnext a

theorem Restores.map
    {e : Ending open_ α}
    {answer : Except Fault α}
    (h : e.Restores answer)
    (f : α → β) :
    (e.map f).Restores (answer.map f) :=
  ⟨congrArg (·.map f) h.1, h.2⟩

theorem Restores.takeAway
    {key : Files.Path × String}
    (hnew : key ∉ open_)
    {e : Ending (open_.insert key) α}
    {answer : Except Fault α}
    (h : e.Restores answer) :
    (e.takeAway hnew).Restores answer := by
  refine ⟨h.1, ?_⟩
  show e.names.erase key = open_
  rw [h.2, List.insert_of_not_mem hnew, List.erase_cons_head]

end Ending

section Reading

variable (scope : Scope)

mutual

/-- What is read from a form of a file with one set of names. -/
def readSharing
    (open_ : OpenNames)
    (file : SourceFile)
    (bound : List (String × Shape)) :
    Form → Ending open_ Shape
  | .closed reading => .now open_ reading
  | .object make => .now open_ (.ok (make bound))
  | .composed parts make => (readAllSharing open_ file bound parts).map make
  | .name name t args word =>
    match entryOf? name bound, word with
    | some s, _ => .now open_ (.ok s)
    | none, some s => .now open_ (.ok s)
    | none, none =>
      (readAllSharing open_ file bound args).andThen fun names _hnames ss =>
        match h : resolveName scope names file name t ss with
        | .error f => .now names (.error f)
        | .ok (.inl s) => .now names (.ok s)
        | .ok (.inr found) =>
          .takeAway (not_mem_of_resolveName h)
            (readSharing (names.insert (file.path, name)) found.file (boundBy found.node ss)
              (formOfDeclaration found.file found.node t))
  termination_by form => remaining open_ (2 * form.size + 1)
  decreasing_by
    · exact remaining_lt_of_size le_rfl (Nat.lt_succ_self _)
    · exact remaining_lt_of_size le_rfl (Nat.lt_succ_self _)
    · exact remaining_lt_of_resolveName _hnames h

/-- What is read from annotations one after the other, up to the first that fails. -/
def readAllSharing
    (open_ : OpenNames)
    (file : SourceFile)
    (bound : List (String × Shape)) :
    List Node → Ending open_ (List Shape)
  | [] => .now open_ (.ok [])
  | n :: rest =>
    (readSharing open_ file bound (formOf scope file n)).andThen fun names _hnames s =>
      (readAllSharing names file bound rest).map (s :: ·)
  termination_by ns => remaining open_ (2 * Node.countForest ns)
  decreasing_by
    · have hsize : (formOf scope file n).size < n.count := size_formOf_lt n
      refine remaining_lt_of_size le_rfl ?_
      simp only [Node.countForest]
      omega
    · have hpos := Node.count_pos n
      refine remaining_lt_of_size _hnames ?_
      simp only [Node.countForest]
      omega

end

end Reading

section Agreement

variable {scope : Scope} {open_ : OpenNames} {file : SourceFile} {bound : List (String × Shape)}

variable (scope)

mutual

/-- Reading with one set of names gives what reading does for which they are handed down, and leaves the
set as it was. -/
theorem restores_readSharing
    (open_ : OpenNames)
    (file : SourceFile)
    (bound : List (String × Shape)) :
    (form : Form) →
      (readSharing scope open_ file bound form).Restores (readForm scope open_ file bound form)
  | .closed reading => by
    rw [readSharing]
    exact Ending.restores_now reading
  | .object make => by
    rw [readSharing]
    exact Ending.restores_now _
  | .composed parts make => by
    rw [readSharing]
    exact (restores_readAllSharing open_ file bound parts).map make
  | .name name t args word => by
    rw [readSharing.eq_def]
    dsimp only
    cases hname : entryOf? name bound with
    | some s =>
      rw [readForm_name_of_bound hname]
      exact Ending.restores_now _
    | none =>
      cases word with
      | some s =>
        rw [readForm_word hname]
        exact Ending.restores_now _
      | none =>
        rw [readForm_free hname]
        refine (restores_readAllSharing open_ file bound args).andThen fun ss => ?_
        split
        · next f h =>
          rw [h]
          exact Ending.restores_now _
        · next s h =>
          rw [h]
          exact Ending.restores_now _
        · next found h =>
          have hinner := restores_readSharing (open_.insert (file.path, name)) found.file
            (boundBy found.node ss) (formOfDeclaration found.file found.node t)
          have hread : readForm scope (open_.insert (file.path, name)) found.file
              (boundBy found.node ss) (formOfDeclaration found.file found.node t) =
              readForm scope ((file.path, name) :: open_) found.file (boundBy found.node ss)
                (formOfDeclaration found.file found.node t) := by
            rw [List.insert_of_not_mem (not_mem_of_resolveName h)]
          have hend := hinner.takeAway (not_mem_of_resolveName h)
          rw [hread] at hend
          exact (congrArg (Ending.Restores _ <| · >>= _) h).mpr hend
  termination_by form => remaining open_ (2 * form.size + 1)
  decreasing_by
    · exact remaining_lt_of_size le_rfl (Nat.lt_succ_self _)
    · exact remaining_lt_of_size le_rfl (Nat.lt_succ_self _)
    · exact remaining_lt_of_resolveName le_rfl ‹_›

theorem restores_readAllSharing
    (open_ : OpenNames)
    (file : SourceFile)
    (bound : List (String × Shape)) :
    (ns : List Node) →
      (readAllSharing scope open_ file bound ns).Restores (ofNodes scope open_ file bound ns)
  | [] => by
    rw [readAllSharing, ofNodes]
    exact Ending.restores_now _
  | n :: rest => by
    rw [readAllSharing, ofNodes, ofNode_eq_readForm]
    exact (restores_readSharing open_ file bound (formOf scope file n)).andThen fun s =>
      (restores_readAllSharing open_ file bound rest).map (s :: ·)
  termination_by ns => remaining open_ (2 * Node.countForest ns)
  decreasing_by
    · have hsize : (formOf scope file n).size < n.count := size_formOf_lt n
      refine remaining_lt_of_size le_rfl ?_
      simp only [Node.countForest]
      omega
    · have hpos := Node.count_pos n
      refine remaining_lt_of_size le_rfl ?_
      simp only [Node.countForest]
      omega

end

end Agreement

/-- A step that has the set of names at hand. -/
abbrev Looking (α : Type) : Type :=
  StateM OpenNames α

section Steps

variable {open_ : OpenNames} {α β : Type}

/-- Whether a step has an answer and leaves the names as they were. -/
def Settles
    (open_ : OpenNames)
    (x : Looking α)
    (answer : α) :
    Prop :=
  x.run open_ = (answer, open_)

theorem settles_pure (a : α) : Settles open_ (pure a) a :=
  rfl

theorem Settles.bind
    {x : Looking α}
    {a : α}
    {f : α → Looking β}
    {b : β}
    (h : Settles open_ x a)
    (hnext : Settles open_ (f a) b) :
    Settles open_ (x >>= f) b := by
  rw [Settles, StateT.run_bind, h]
  exact hnext

theorem Settles.bind_run
    {x : ExceptT Fault Looking α}
    {answer : Except Fault α}
    {f : α → ExceptT Fault Looking β}
    {g : α → Except Fault β}
    (h : Settles open_ x.run answer)
    (hnext : ∀ a, Settles open_ (f a).run (g a)) :
    Settles open_ (x >>= f).run (answer >>= g) := by
  rw [ExceptT.run_bind]
  refine Settles.bind h ?_
  cases answer with
  | error e => exact settles_pure _
  | ok a => exact hnext a

theorem Settles.mapM_run
    {f : α → ExceptT Fault Looking β}
    {g : α → Except Fault β}
    (h : ∀ a, Settles open_ (f a).run (g a))
    (l : List α) :
    Settles open_ (l.mapM f).run (l.mapM g) := by
  induction l with
  | nil => exact settles_pure _
  | cons a rest ih =>
    rw [List.mapM_cons, List.mapM_cons]
    exact (h a).bind_run fun b => ih.bind_run fun bs => settles_pure _

end Steps

section Fields

variable (scope : Scope)

/-- The shape of an annotation, read with one set of names. -/
def annotationSharing
    (file : SourceFile)
    (bound : List (String × Shape))
    (n : Node) :
    ExceptT Fault Looking Shape :=
  ExceptT.mk fun open_ =>
    let e := readSharing scope open_ file bound (formOf scope file n)
    (e.answer, e.names)

/-- The fields of an object, with the bases of interfaces read with one set of names. -/
def fieldsSharing : Nat → Shape → ExceptT Fault Looking (List Field)
  | 0, object _ _ _ => throw .endlessInheritance
  | n + 1, object _ _ fields =>
    match fields with
    | .absent => return []
    | .ofBody body file bound => return Field.ofBody file bound (some body)
    | .ofClass declaration file => return Field.ofClass file declaration
    | .ofInterface declaration file bound => do
      let inherited ← (basesOf declaration).mapM fun base => do
        fieldsSharing n (← annotationSharing scope file bound base)
      return Field.merge (inherited.flatten ++ Field.ofBody file bound (declaration.child? .body))
    | .merged members => do
      let all ← members.mapM (fieldsSharing n)
      return Field.merge all.flatten
    | .adjusted optional target => do
      let fs ← fieldsSharing n target
      return fs.map fun f => { f with optional := optional.getD f.optional }
    | .selected keep names target => do
      let fs ← fieldsSharing n target
      return fs.filter fun f => names.contains f.name == keep
  | _, _ => return []

/-- The shape of the type of a field, read with one set of names. -/
def fieldShapeSharing (f : Field) : ExceptT Fault Looking Shape :=
  match f.type with
  | some ⟨some annotation, file, bound⟩ => annotationSharing scope file bound annotation
  | _ => return anything

variable {scope}

/-- An annotation is read to the same shape with one set of names, and the set is left as it was. -/
theorem settles_annotationSharing
    (open_ : OpenNames)
    (file : SourceFile)
    (bound : List (String × Shape))
    (n : Node) :
    Settles open_ (annotationSharing scope file bound n).run (ofNode scope open_ file bound n) := by
  obtain ⟨hanswer, hnames⟩ := restores_readSharing scope open_ file bound (formOf scope file n)
  rw [ofNode_eq_readForm]
  exact Prod.ext hanswer hnames

theorem settles_fieldsSharing
    (n : Nat)
    (s : Shape) :
    Settles [] (fieldsSharing scope n s).run (fieldsUpTo scope n s) := by
  induction n generalizing s with
  | zero => cases s <;> exact settles_pure _
  | succ n ih =>
    cases s
    case object t name fields =>
      cases fields with
      | absent | ofBody | ofClass => exact settles_pure _
      | ofInterface declaration file bound =>
        have hbase : ∀ base, Settles []
            (do fieldsSharing scope n (← annotationSharing scope file bound base) :
              ExceptT Fault Looking (List Field)).run
            (do fieldsUpTo scope n (← ofNode scope [] file bound base)) :=
          fun base => (settles_annotationSharing [] file bound base).bind_run fun s => ih s
        exact (Settles.mapM_run hbase _).bind_run fun inherited => settles_pure _
      | merged members => exact (Settles.mapM_run ih members).bind_run fun all => settles_pure _
      | adjusted optional target => exact (ih target).bind_run fun fs => settles_pure _
      | selected keep names target => exact (ih target).bind_run fun fs => settles_pure _
    all_goals exact settles_pure _

theorem settles_fieldShapeSharing (f : Field) :
    Settles [] (fieldShapeSharing scope f).run (f.shape scope) := by
  obtain ⟨name, optional, isMethod, type⟩ := f
  rcases type with _ | ⟨_ | annotation, file, bound⟩
  · exact settles_pure _
  · exact settles_pure _
  · exact settles_annotationSharing [] file bound annotation

end Fields

section Requests

/-- What may be asked for: the shape of an annotation, the fields of a shape, or the shape of the type of
a field. -/
inductive Request where
  | annotation (file : SourceFile) (bound : List (String × Shape)) (n : Node)
  | fields (s : Shape)
  | fieldType (f : Field)

namespace Request

variable (scope : Scope)

/-- The answer to a request that is made alone. -/
def alone : Request → Except Fault (Shape ⊕ List Field)
  | annotation file bound n => (ofNode scope [] file bound n).map .inl
  | fields s => (fieldList scope s).map .inr
  | fieldType f => (f.shape scope).map .inl

/-- The answer to a request with the set of names that all requests share. -/
def sharing : Request → Looking (Except Fault (Shape ⊕ List Field))
  | annotation file bound n => return (← (annotationSharing scope file bound n).run).map .inl
  | fields s => return (← (fieldsSharing scope maxInheritance s).run).map .inr
  | fieldType f => return (← (fieldShapeSharing scope f).run).map .inl

/-- Requests are answered one after the other; a failure is an answer, too. -/
def sharingAll (requests : List Request) : Looking (List (Except Fault (Shape ⊕ List Field))) :=
  requests.mapM (sharing scope)

variable {scope}

theorem settles_sharing (r : Request) : Settles [] (r.sharing scope) (r.alone scope) := by
  cases r with
  | annotation file bound n => exact (settles_annotationSharing [] file bound n).bind (settles_pure _)
  | fields s => exact (settles_fieldsSharing maxInheritance s).bind (settles_pure _)
  | fieldType f => exact (settles_fieldShapeSharing f).bind (settles_pure _)

theorem settles_sharingAll (requests : List Request) :
    Settles [] (sharingAll scope requests) (requests.map (alone scope)) := by
  unfold sharingAll
  induction requests with
  | nil => exact settles_pure _
  | cons r rest ih =>
    rw [List.mapM_cons, List.map_cons]
    exact (settles_sharing r).bind (ih.bind (settles_pure _))

end Request

/-- However the declarations of all files refer to each other, reading an annotation ends and leaves the
names that are being looked up as it found them, with a shape or with a failure. So every request has the
answer that it has alone, whatever was asked for before it. -/
theorem annotationSharing_leaves_names (scope : Scope) :
    (∀ open_ file bound n,
      (annotationSharing scope file bound n).run.run open_ =
        (ofNode scope open_ file bound n, open_)) ∧
      ∀ requests,
        (Request.sharingAll scope requests).run [] =
          (requests.map (Request.alone scope), []) :=
  ⟨settles_annotationSharing, Request.settles_sharingAll⟩

end Requests

end Shape

end RouteAtlas
