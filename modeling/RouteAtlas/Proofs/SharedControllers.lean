import Mathlib
import RouteAtlas.Controllers.Handlers
import RouteAtlas.Proofs.ExampleMarkers
import RouteAtlas.Proofs.RememberedPaths
import RouteAtlas.Proofs.SharedNames

/-!
# Controllers with one set of names

The names of types that are being looked up can stand in one set for all files with controllers. Each file
then finds what the file before it left there, also if a fault ended the work on that one. But nothing is
ever left: reading a type leaves the set as it was, however it ends, and no other part of the work has
to do with it. So with one set every file yields what it yields when the names are handed down.
-/

namespace RouteAtlas

open Syntax
open Project (Scope)

namespace Shape

section Examples

variable (scope : Scope)

/-- The example of a shape inside of objects with given texts, written out to so many more levels. What is
read for it is read with one set of names. -/
def exampleLooking :
    Nat → List String → Shape → ExceptT Fault Looking (Option Value)
  | 0, _, _ => return some (.map [])
  | n + 1, around, s =>
    match s.layer with
    | .leaf v => return v
    | .list items => do
      return some (.list (← items.mapM (exampleLooking n around)).reduceOption)
    | .choice m => exampleLooking n around m
    | .object t =>
      if around.contains t then return some (.map [])
      else do
        let fs ← fieldsSharing scope maxInheritance s
        let examples ← (fs.filter Field.isWritten).mapM fun f => do
          let v ← exampleLooking n (t :: around) (← fieldShapeSharing scope f)
          return (f.name, v)
        return some (.map ((present examples).foldl (fun acc e => putEntry e.1 e.2 acc) []))

variable {scope}

variable {α β γ : Type}

theorem settles_ofExcept
    {open_ : OpenNames}
    (answer : Except Fault α) :
    Settles open_ (liftM answer : ExceptT Fault Looking α).run answer :=
  settles_pure answer

theorem map_bind_pure
    (answer : Except Fault α)
    (f : α → β)
    (g : β → γ) :
    (answer.map f >>= fun b => pure (g b)) = answer.map fun a => g (f a) := by
  cases answer <;> rfl

theorem Settles.map_run
    {open_ : OpenNames}
    {x : ExceptT Fault Looking α}
    {answer : Except Fault α}
    (h : Settles open_ x.run answer)
    (f : α → β) :
    Settles open_ (x >>= fun a => pure (f a)).run (answer.map f) := by
  have hbind : answer.map f = answer >>= fun a => .ok (f a) := by cases answer <;> rfl
  rw [hbind]
  exact h.bind_run fun a => settles_pure _

/-- An example for which types are read with one set of names is the one for which the names are handed
down, and the set is left empty. -/
theorem settles_exampleLooking
    (n : Nat)
    (around : List String)
    (s : Shape) :
    Settles [] (exampleLooking scope n around s).run (exampleWithin scope n around s) := by
  induction n generalizing around s with
  | zero => exact settles_pure _
  | succ n ih =>
    rw [exampleWithin_succ, exampleLooking]
    cases s.layer with
    | leaf v => exact settles_pure _
    | list items =>
      dsimp only
      rw [examplesOf_eq, map_bind_pure]
      exact (Settles.mapM_run (ih around) items).map_run _
    | choice m => exact ih around m
    | object t =>
      dsimp only
      split
      · exact settles_pure _
      · refine (settles_fieldsSharing maxInheritance s).bind_run fun fs => ?_
        rw [entriesOf_eq, map_bind_pure]
        have hfield : ∀ f, Settles []
            (do let v ← exampleLooking scope n (t :: around) (← fieldShapeSharing scope f)
                return (f.name, v) : ExceptT Fault Looking (String × Option Value)).run
            ((do exampleWithin scope n (t :: around) (← f.shape scope)).map fun v => (f.name, v)) := by
          intro f
          rw [← bind_assoc]
          exact ((settles_fieldShapeSharing f).bind_run fun m => ih (t :: around) m).map_run _
        exact (Settles.mapM_run hfield _).map_run _

end Examples

end Shape

namespace Extraction

/-- Work that has the set of names at hand that are being looked up. What is done to the set stays done
when a fault ends the work, as what is logged and remembered does. -/
abbrev Naming (α : Type) : Type :=
  ExceptT Fault (StateT Shape.OpenNames (StateM Progress)) α

namespace Naming

variable {α β : Type}

section Steps

/-- Work that has nothing to do with the names. -/
def ofWork (work : Extraction α) : Naming α :=
  ExceptT.mk (StateT.lift work.run)

/-- What is read with the set of names. Nothing is logged or remembered for it. -/
def ofReading (x : ExceptT Fault Shape.Looking α) : Naming α :=
  ExceptT.mk fun names => pure (x.run.run names)

instance : MonadLift Extraction Naming :=
  ⟨ofWork⟩

instance : MonadLift (ExceptT Fault Shape.Looking) Naming :=
  ⟨ofReading⟩

/-- The result of some work, or what else to do about its fault. The set is then the one that the fault
left. -/
def orElseWith
    (work : Naming α)
    (other : Fault → Naming α) :
    Naming α :=
  ExceptT.mk do
    match ← work.run with
    | .ok a => return .ok a
    | .error e => (other e).run

/-- What is found in the files, one after the other, with one set of names for all of them. -/
def perFile
    (s : Site)
    (f : Framework)
    (handle : SourceFile → Naming (List α)) :
    List SourceFile → Naming (List α)
  | [] => return []
  | file :: rest => do
    let found ← orElseWith (handle file) fun e => do
      say f .warning ("Skipping " ++ relativePath s file.path ++ ": " ++ e.text)
      return []
    return found ++ (← perFile s f handle rest)

end Steps

section Agreement

/-- Whether work with the set of names does what other work does, and leaves the set as empty as it was. -/
def Follows
    (x : Naming α)
    (work : Extraction α) :
    Prop :=
  ∀ p, (x.run.run []).run p = ((ends work p, []), leaves work p)

theorem follows_ofWork (work : Extraction α) : Follows (ofWork work) work :=
  fun _ => rfl

theorem follows_pure (a : α) : Follows (pure a) (pure a) :=
  fun _ => rfl

theorem follows_ofReading
    {x : ExceptT Fault Shape.Looking α}
    {answer : Except Fault α}
    (h : Shape.Settles [] x.run answer) :
    Follows (ofReading x) (ofExcept answer) := by
  intro p
  show (x.run.run [], p) = ((answer, []), p)
  rw [h]

theorem Follows.bind
    {x : Naming α}
    {work : Extraction α}
    {f : α → Naming β}
    {g : α → Extraction β}
    (h : Follows x work)
    (hnext : ∀ a, Follows (f a) (g a)) :
    Follows (x >>= f) (work >>= g) := by
  intro p
  rw [ends, leaves, run_bind, ExceptT.run_bind, StateT.run_bind, StateT.run_bind, h p]
  cases ends work p with
  | error e => rfl
  | ok a => exact hnext a (leaves work p)

theorem Follows.mapM
    {f : α → Naming β}
    {g : α → Extraction β}
    (h : ∀ a, Follows (f a) (g a))
    (as : List α) :
    Follows (as.mapM f) (as.mapM g) := by
  induction as with
  | nil => exact follows_pure []
  | cons a rest ih =>
    rw [List.mapM_cons, List.mapM_cons]
    exact (h a).bind fun b => ih.bind fun bs => follows_pure _

/-- What is done about a fault finds the set empty, as the work did. -/
theorem Follows.orElseWith
    {x : Naming α}
    {work : Extraction α}
    {other : Fault → Naming α}
    {other' : Fault → Extraction α}
    (h : Follows x work)
    (hother : ∀ e, Follows (other e) (other' e)) :
    Follows (x.orElseWith other) (Extraction.orElseWith work other') := by
  intro p
  rw [ends, leaves, run_orElseWith, Naming.orElseWith, ExceptT.run_mk, StateT.run_bind, StateT.run_bind, h p]
  cases ends work p with
  | error e => exact hother e (leaves work p)
  | ok a => rfl

theorem follows_perFile
    {s : Site}
    {f : Framework}
    {shared : SourceFile → Naming (List α)}
    {handle : SourceFile → Extraction (List α)}
    (h : ∀ file, Follows (shared file) (handle file))
    (files : List SourceFile) :
    Follows (perFile s f shared files) (Extraction.perFile s f handle files) := by
  induction files with
  | nil => exact follows_pure []
  | cons file rest ih =>
    refine ((h file).orElseWith fun e => ?_).bind fun found => ih.bind fun later => follows_pure _
    exact (follows_ofWork _).bind fun _ => follows_pure _

end Agreement

end Naming

end Extraction

namespace Controllers

open Extraction (Naming say)
open Extraction.Naming (Follows follows_ofWork follows_pure follows_ofReading)

namespace Examples

/-- The example of a parameter and its class of data, read with one set of names. -/
def ofParameterSharing
    (e : Examples)
    (parameter : Node) :
    ExceptT Fault Shape.Looking (Option Value × DataClass) := do
  let shape ←
    match parameter.child? .type with
    | some t => Shape.annotationSharing e.scope e.file [] t
    | none => pure .anything
  let v ← shape.exampleLooking e.scope (e.maxDepth + 1).toNat []
  return (v, shape.dataClass)

/-- What the parameters of a method that have a decorator of a name give, read with one set of names. -/
def givenSharing
    (e : Examples)
    (decorator : String)
    (method : Node) :
    ExceptT Fault Shape.Looking (List Given) := do
  let found := method.parameters.filterMap fun p =>
    (decoratorNamed? decorator p.ownDecorators).map fun d => (p, d)
  found.mapM fun (p, d) => do
    let (v, c) ← e.ofParameterSharing p
    return ⟨Route.filled? (← textArgument e.scope e.file d 0), v, c⟩

theorem settles_ofParameterSharing
    (e : Examples)
    (parameter : Node) :
    Shape.Settles [] (e.ofParameterSharing parameter).run (e.ofParameter parameter) := by
  have hexample (s : Shape) : Shape.Settles []
      (do let v ← s.exampleLooking e.scope (e.maxDepth + 1).toNat []
          return (v, s.dataClass) : ExceptT Fault Shape.Looking (Option Value × DataClass)).run
      (do return (← s.example? e.scope e.maxDepth, s.dataClass)) :=
    (Shape.settles_exampleLooking _ [] s).bind_run fun v => Shape.settles_pure _
  unfold ofParameterSharing ofParameter
  cases parameter.child? .type with
  | none => exact hexample .anything
  | some t => exact (Shape.settles_annotationSharing [] e.file [] t).bind_run hexample

theorem settles_givenSharing
    (e : Examples)
    (decorator : String)
    (method : Node) :
    Shape.Settles [] (e.givenSharing decorator method).run (e.given decorator method) := by
  refine Shape.Settles.mapM_run (fun (p, d) => ?_) _
  refine (settles_ofParameterSharing e p).bind_run fun (v, c) => ?_
  exact (Shape.settles_ofExcept (textArgument e.scope e.file d 0)).bind_run fun key =>
    Shape.settles_pure _

end Examples

section Handlers

/-- What requests to a method have in common, with one set of names. -/
def factsOfSharing
    (examples : Examples)
    (m : Method) :
    Naming RequestFacts := do
  let headers ← Extraction.ofExcept (headersOf examples.scope examples.file m.decorators)
  let bodies ← examples.givenSharing "Body" m.node
  let body ← Extraction.ofExcept (bodyOf bodies)
  if body.isNone && !bodies.isEmpty then
    say framework .debug ("No body example for " ++ methodName m.node)
  let queries ← examples.givenSharing "Query" m.node
  let query ← Extraction.ofExcept (queryOf queries)
  return ⟨headers, query, body⟩

/-- The handlers of a method, with one set of names. -/
def ofMethodSharing
    (s : Site)
    (scope : Scope)
    (c : Controller)
    (m : Method) :
    Naming (List Handler) := do
  let routing := m.decorators.filterMap fun d =>
    let verbs := (d.decoratorName?.map routedVerbs).getD []
    if verbs.isEmpty then none else some (d, verbs)
  if routing.isEmpty then
    return []
  let versions ← Extraction.ofExcept (versionsOfMethod scope c m.decorators)
  let facts ← factsOfSharing ⟨scope, c.file, s.options.maxTypeDepth⟩ m
  handlersOfDecorators scope c m.node facts versions routing

/-- The handlers of a class, if it is a controller, with one set of names. -/
def ofClassSharing
    (s : Site)
    (scope : Scope)
    (o : Overall)
    (file : SourceFile)
    (c : Syntax.Class) :
    Naming (List Handler) := do
  match decoratorNamed? "Controller" c.decorators with
  | none => return []
  | some d =>
    let (paths, versions) ← Extraction.ofExcept (settingsOf scope file d)
    say framework .debug ("Controller " ++ c.name ++ " at " ++
      Text.joinWith ", " (paths.map Text.quoted))
    let controller : Controller :=
      ⟨c.name, file, paths, if versions.isEmpty then o.versions else versions, o.pathPrefix⟩
    return (← c.methods.mapM (ofMethodSharing s scope controller)).flatten

/-- The handlers of a file, with one set of names. -/
def ofFileSharing
    (s : Site)
    (scope : Scope)
    (o : Overall)
    (file : SourceFile) :
    Naming (List Handler) := do
  return (← file.classes.mapM (ofClassSharing s scope o file)).flatten

variable {s : Site} {scope : Scope}

theorem follows_factsOfSharing
    (examples : Examples)
    (m : Method) :
    Follows (factsOfSharing examples m) (factsOf examples m) := by
  have hgiven (decorator : String) := follows_ofReading (examples.settles_givenSharing decorator m.node)
  refine (follows_ofWork _).bind fun headers => ?_
  refine (hgiven "Body").bind fun bodies => ?_
  refine (follows_ofWork _).bind fun body => ?_
  have hqueries : Follows
      (do let queries ← examples.givenSharing "Query" m.node
          let query ← Extraction.ofExcept (queryOf queries)
          return ⟨headers, query, body⟩ : Naming RequestFacts)
      (do let queries ← Extraction.ofExcept (examples.given "Query" m.node)
          let query ← Extraction.ofExcept (queryOf queries)
          return ⟨headers, query, body⟩ : Extraction RequestFacts) :=
    (hgiven "Query").bind fun queries => (follows_ofWork _).bind fun query => follows_pure _
  split
  · exact (follows_ofWork _).bind fun _ => hqueries
  · exact hqueries

theorem follows_ofMethodSharing
    (c : Controller)
    (m : Method) :
    Follows (ofMethodSharing s scope c m) (ofMethod s scope c m) := by
  unfold ofMethodSharing ofMethod
  dsimp only
  split
  · exact follows_pure []
  · refine (follows_ofWork _).bind fun versions => ?_
    exact (follows_factsOfSharing _ m).bind fun facts => follows_ofWork _

theorem follows_ofClassSharing
    (o : Overall)
    (file : SourceFile)
    (c : Syntax.Class) :
    Follows (ofClassSharing s scope o file c) (ofClass s scope o file c) := by
  unfold ofClassSharing ofClass
  cases decoratorNamed? "Controller" c.decorators with
  | none => exact follows_pure []
  | some d =>
    refine (follows_ofWork _).bind fun settings => (follows_ofWork _).bind fun _ => ?_
    exact (Follows.mapM (follows_ofMethodSharing _) _).bind fun _ => follows_pure _

/-- Whatever a file with controllers does to the set of names, in the end the set is empty again, and the
work is done as if the names had been handed down. -/
theorem follows_ofFileSharing
    (o : Overall)
    (file : SourceFile) :
    Follows (ofFileSharing s scope o file) (ofFile s scope o file) :=
  (Follows.mapM (follows_ofClassSharing o file) _).bind fun _ => follows_pure _

end Handlers

end Controllers

end RouteAtlas
