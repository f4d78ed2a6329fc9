import Mathlib
import RouteAtlas.Procedures.Survey
import RouteAtlas.Proofs.PlainPaths

/-!
# Readings of routers

Every router has a name, for one that is built without a name around it is named for its line. A
procedure is an entry of the object that a call builds a router from. It bears the name of the router,
which it changes for another one when routers are renamed to their paths, and the line of its entry. Its
file is the one where it is written out: another one when the entry is a name that is imported.
-/

namespace RouteAtlas.Procedures

open Syntax

section Entries

@[simp] theorem withResolver_router
    (p : Procedure)
    (resolver : Option Node) :
    (Chain.withResolver p resolver).router = p.router := by
  cases resolver <;> simp only [Chain.withResolver]

@[simp] theorem withResolver_name
    (p : Procedure)
    (resolver : Option Node) :
    (Chain.withResolver p resolver).name = p.name := by
  cases resolver <;> simp only [Chain.withResolver]

@[simp] theorem withResolver_filePath
    (p : Procedure)
    (resolver : Option Node) :
    (Chain.withResolver p resolver).filePath = p.filePath := by
  cases resolver <;> simp only [Chain.withResolver]

@[simp] theorem withResolver_line
    (p : Procedure)
    (resolver : Option Node) :
    (Chain.withResolver p resolver).line = p.line := by
  cases resolver <;> simp only [Chain.withResolver]

/-- The body that is made from the schema of an input, if there is one. -/
def bodyFrom
    (scope : Project.Scope)
    (file : SourceFile) :
    Option Node → Except Fault (Option String)
  | none => .ok none
  | some input => (Schema.bodyOfExpression scope file (some input)).map some

/-- A procedure without a resolver, as a chain tells it. -/
def plainProcedure
    (r : EntryReader)
    (router name : String)
    (line : Nat)
    (file : SourceFile)
    (c : Chain)
    (kind : ProcedureKind)
    (body : Option String) :
    Procedure :=
  { router := router
    name := name
    kind := kind
    filePath := r.relative file.path
    line := line
    visibility := c.visibility
    hasInput := c.hasInput
    hasOutput := c.hasOutput
    body := body
    resolverLines := 0
    usesDatabase := false
    handlesErrors := false
    hasSideEffects := false
    headers := [("Content-Type", "application/json")] }

/-- An expression is a procedure if its chain has a kind; then only the schema of its input can be at
fault. -/
theorem procedure?_eq
    (r : EntryReader)
    (router name : String)
    (line : Nat)
    (file : SourceFile)
    (e : Node) :
    r.procedure? router name line file e =
      match (Chain.unknown.read e).kind with
      | none => .ok none
      | some kind =>
        (bodyFrom r.scope file (Chain.unknown.read e).input).map fun body =>
          some (Chain.withResolver
            (plainProcedure r router name line file (Chain.unknown.read e) kind body)
            (Chain.unknown.read e).resolver) := by
  unfold EntryReader.procedure?
  cases hkind : (Chain.unknown.read e).kind with
  | none => simp only [hkind]; rfl
  | some kind =>
    simp only [hkind]
    cases hinput : (Chain.unknown.read e).input with
    | none => rfl
    | some input =>
      simp only [bodyFrom]
      cases Schema.bodyOfExpression r.scope file (some input) with
      | error fault => rfl
      | ok body => rfl

theorem procedure?_eq_ok_none_iff
    (r : EntryReader)
    (router name : String)
    (line : Nat)
    (file : SourceFile)
    (e : Node) :
    r.procedure? router name line file e = .ok none ↔ (Chain.unknown.read e).kind = none := by
  rw [procedure?_eq]
  cases hkind : (Chain.unknown.read e).kind with
  | none => simp
  | some kind => cases bodyFrom r.scope file (Chain.unknown.read e).input <;> simp [Except.map]

/-- The file where the value of an entry is written out, with the expression there: in place, or where
the name that stands in its place is looked up. -/
inductive Written
    (r : EntryReader)
    (file : SourceFile)
    (p : Node.Property) :
    SourceFile → Node → Prop
  | here :
      Written r file p file p.value
  | named
      {found : Project.Found}
      (hname : EntryReader.isName p.value = true)
      (hfound : r.scope.value p.value.text file = .ok (.ok found)) :
      Written r file p found.file found.node.unwrap

/-- What a procedure is recorded with, when it is an entry of a router and is written out in a file. -/
structure Recorded
    (r : EntryReader)
    (router : String)
    (p : Node.Property)
    (owner : SourceFile)
    (q : Procedure) :
    Prop where
  router_eq : q.router = router
  name_eq : q.name = p.name
  filePath_eq : q.filePath = r.relative owner.path
  line_eq : q.line = p.entry.line

variable {r : EntryReader} {router : String} {file : SourceFile} {q : Procedure}

theorem recorded_of_procedure?
    {p : Node.Property}
    {e : Node}
    (h : r.procedure? router p.name p.entry.line file e = .ok (some q)) :
    Recorded r router p file q := by
  rw [procedure?_eq] at h
  cases hkind : (Chain.unknown.read e).kind with
  | none =>
    rw [hkind] at h
    cases h
  | some kind =>
    rw [hkind] at h
    obtain ⟨body, -, h⟩ := exists_of_map_eq_ok h
    obtain rfl := Option.some.inj h
    exact ⟨by simp [plainProcedure], by simp [plainProcedure], by simp [plainProcedure],
      by simp [plainProcedure]⟩

theorem recorded_of_ofExpression
    {p : Node.Property}
    {e : Node}
    (h : r.ofExpression router p file e = .ok (.procedure q)) :
    Recorded r router p file q := by
  obtain ⟨found, hfound, h⟩ := exists_of_bind_eq_ok h
  cases found with
  | none => cases h
  | some q' =>
    cases h
    exact recorded_of_procedure? hfound

/-- The file where the value of an entry is written out: another one than that of the entry when a name
stands in its place and is found there. -/
def EntryReader.homeOf
    (r : EntryReader)
    (file : SourceFile)
    (p : Node.Property) :
    SourceFile :=
  if isName p.value then
    match r.scope.value p.value.text file with
    | .ok (.ok found) => found.file
    | _ => file
  else file

theorem exists_written_homeOf
    (r : EntryReader)
    (file : SourceFile)
    (p : Node.Property) :
    ∃ e, Written r file p (r.homeOf file p) e := by
  unfold EntryReader.homeOf
  split
  · next hname =>
    split
    · next hfound => exact ⟨_, .named hname hfound⟩
    · exact ⟨_, .here⟩
  · exact ⟨_, .here⟩

/-- An entry that is a procedure is recorded with the file where it is written out. -/
theorem recorded_homeOf
    {p : Node.Property}
    (h : r.entry router file p = .ok (.procedure q)) :
    Recorded r router p (r.homeOf file p) q := by
  unfold EntryReader.entry at h
  unfold EntryReader.homeOf
  split at h
  · cases h
  · split at h
    · next hname =>
      obtain ⟨answer, hanswer, h⟩ := exists_of_bind_eq_ok h
      rw [if_pos hname, hanswer]
      cases answer with
      | error why => cases h
      | ok found =>
        dsimp only at h ⊢
        split at h
        · cases h
        · exact recorded_of_ofExpression h
    · next hname =>
      rw [if_neg hname]
      exact recorded_of_ofExpression h

theorem recorded_of_entry
    {p : Node.Property}
    (h : r.entry router file p = .ok (.procedure q)) :
    ∃ owner e, Written r file p owner e ∧ Recorded r router p owner q := by
  obtain ⟨e, hwritten⟩ := exists_written_homeOf r file p
  exact ⟨_, e, hwritten, recorded_homeOf h⟩

theorem exists_of_mem_entries
    {ps : List Node.Property}
    {e : Entry}
    (h : e ∈ (r.entries router file ps).1) :
    ∃ p ∈ ps, r.entry router file p = .ok e := by
  induction ps with
  | nil => cases h
  | cons p rest ih =>
    unfold EntryReader.entries at h
    split at h
    · cases h
    · next e' he' =>
      rcases List.mem_cons.1 h with rfl | h
      · exact ⟨p, List.mem_cons_self .., he'⟩
      · obtain ⟨p', hp', he⟩ := ih h
        exact ⟨p', List.mem_cons_of_mem _ hp', he⟩

end Entries

section Names

/-- Every router that a call builds has a name. -/
theorem routerName_ne_empty (p : Placed) : routerName p ≠ "" := by
  have hline : "router@" ++ toString p.node.line ≠ "" := by simp
  unfold routerName
  split
  · split
    · exact hline
    · next n _ hn => simpa using hn
  · exact hline

theorem title_ne_empty
    {variableName : String}
    (h : variableName ≠ "")
    (filePath : String) :
    Router.title variableName filePath ≠ "" := by
  unfold Router.title
  extract_lets parts fromFile fromDirectory candidates
  cases hfound : candidates.find? fun c => !c.isEmpty with
  | none => exact h
  | some c => simpa using List.find?_some hfound

theorem renamed_ne_empty
    (paths : List (String × String))
    {router : String}
    (h : router ≠ "") :
    Router.Graph.renamed paths router ≠ "" := by
  unfold Router.Graph.renamed
  split
  · split
    · exact h
    · next path _ hpath => simpa using hpath
  · exact h

end Names

section Readings

/-- The mount that an entry is. -/
def mountOf? : Entry → Option Router.Mount
  | .reference m | .mount m => some m
  | _ => none

/-- The procedure that an entry is. -/
def procedureOf? : Entry → Option Procedure
  | .procedure q => some q
  | _ => none

theorem foldl_addEntry
    (es : List Entry)
    (found : Survey) :
    es.foldl Survey.addEntry found =
      ⟨found.procedures ++ es.filterMap procedureOf?,
        ⟨found.graph.routers, found.graph.mounts ++ es.filterMap mountOf?⟩⟩ := by
  induction es generalizing found with
  | nil => simp
  | cons e rest ih =>
    rw [List.foldl_cons, ih]
    cases e <;> simp [Survey.addEntry, List.filterMap_cons, procedureOf?, mountOf?]

/-- An entry of the object that a call builds a router from. -/
def RouterCall.Lists
    (c : RouterCall)
    (p : Node.Property) :
    Prop :=
  ∃ o, (c.node.callArguments.head?).map Node.unwrap = some o ∧ (o.kind == .object) = true ∧
    p ∈ o.properties

theorem exists_of_router?
    {r : EntryReader}
    {file : SourceFile}
    {c : RouterCall}
    {x : RouterReading}
    (h : r.router? file c = some x)
    {e : Entry}
    (he : e ∈ x.entries) :
    ∃ p, c.Lists p ∧ r.entry (Router.title c.name (r.relative file.path)) file p = .ok e := by
  unfold EntryReader.router? at h
  split at h
  · cases h
  · next o ho =>
    split at h
    · next hobject =>
      cases h
      obtain ⟨p, hp, hentry⟩ := exists_of_mem_entries he
      exact ⟨p, ⟨o, ho, hobject, hp⟩, hentry⟩
    · cases h

theorem exists_of_mem_routersAmong
    {r : EntryReader}
    {file : SourceFile}
    {calls : List RouterCall}
    {x : RouterReading}
    (h : x ∈ r.routersAmong file calls) :
    ∃ c ∈ calls, r.router? file c = some x := by
  induction calls with
  | nil => simp [EntryReader.routersAmong] at h
  | cons c rest ih =>
    have hlater : x ∈ r.routersAmong file rest → ∃ c' ∈ c :: rest, r.router? file c' = some x := by
      intro h
      obtain ⟨c', hc', hx⟩ := ih h
      exact ⟨c', List.mem_cons_of_mem _ hc', hx⟩
    unfold EntryReader.routersAmong at h
    split at h
    · exact hlater h
    · next y hy =>
      split at h
      · obtain rfl := List.mem_singleton.1 h
        exact ⟨c, List.mem_cons_self .., hy⟩
      · rcases List.mem_cons.1 h with rfl | h
        · exact ⟨c, List.mem_cons_self .., hy⟩
        · exact hlater h

theorem name_ne_empty_of_mem_routerCalls
    {r : Recognition}
    {file : SourceFile} :
    ∀ c ∈ routerCalls r file, c.name ≠ "" := by
  intro c hc
  obtain ⟨p, -, rfl⟩ := List.mem_map.1 hc
  exact routerName_ne_empty p

/-- A procedure that is an entry of a router of a file. -/
def FoundIn
    (r : EntryReader)
    (file : SourceFile)
    (q : Procedure) :
    Prop :=
  ∃ c p, c ∈ routerCalls r.recognition file ∧ c.Lists p ∧
    r.entry (Router.title c.name (r.relative file.path)) file p = .ok (.procedure q)

theorem FoundIn.router_ne_empty
    {r : EntryReader}
    {file : SourceFile}
    {q : Procedure}
    (h : FoundIn r file q) :
    q.router ≠ "" := by
  obtain ⟨c, p, hc, -, hentry⟩ := h
  obtain ⟨owner, e, -, hrecorded⟩ := recorded_of_entry hentry
  rw [hrecorded.router_eq]
  exact title_ne_empty (name_ne_empty_of_mem_routerCalls c hc) _

/-- Routers add the entries that were read of them, and are declared unless their reading ended by a
fault. -/
theorem foldl_addRouter
    (xs : List RouterReading)
    (found : Survey) :
    xs.foldl Survey.addRouter found =
      ⟨found.procedures ++ xs.flatMap fun x => x.entries.filterMap procedureOf?,
        ⟨found.graph.routers ++ (xs.filter fun x => x.fault.isNone).map RouterReading.declaration,
          found.graph.mounts ++ xs.flatMap fun x => x.entries.filterMap mountOf?⟩⟩ := by
  induction xs generalizing found with
  | nil => simp
  | cons x rest ih =>
    rw [List.foldl_cons, ih, Survey.addRouter, foldl_addEntry]
    cases hx : x.fault <;> simp [hx]

theorem mem_procedures_foldl_addRouter
    {found : Survey}
    {xs : List RouterReading}
    {q : Procedure}
    (h : q ∈ (xs.foldl Survey.addRouter found).procedures) :
    q ∈ found.procedures ∨ ∃ x ∈ xs, .procedure q ∈ x.entries := by
  rw [foldl_addRouter] at h
  refine (List.mem_append.1 h).imp_right fun h => ?_
  obtain ⟨x, hx, h⟩ := List.mem_flatMap.1 h
  obtain ⟨e, he, hprocedure⟩ := List.mem_filterMap.1 h
  cases e with
  | procedure q' =>
    cases hprocedure
    exact ⟨x, hx, he⟩
  | _ => cases hprocedure

/-- The survey of the files of a project, one after the other, before anything is renamed. -/
def surveyed
    (r : EntryReader)
    (files : List SourceFile) :
    Survey :=
  files.foldl (fun found file =>
    (r.routersAmong file (routerCalls r.recognition file)).foldl Survey.addRouter found) .empty

/-- The procedures of a survey are entries of routers of the files. -/
theorem foundIn_of_mem_surveyed
    {r : EntryReader}
    {files : List SourceFile}
    {q : Procedure}
    (h : q ∈ (surveyed r files).procedures) :
    ∃ file ∈ files, FoundIn r file q := by
  unfold surveyed at h
  have hall : ∀ found : Survey, q ∈ (files.foldl (fun found file =>
      (r.routersAmong file (routerCalls r.recognition file)).foldl Survey.addRouter found)
        found).procedures → q ∈ found.procedures ∨ ∃ file ∈ files, FoundIn r file q := by
    clear h
    induction files with
    | nil => exact fun found h => .inl h
    | cons file rest ih =>
      intro found h
      rcases ih _ h with h | ⟨file', hfile', hq⟩
      · rcases mem_procedures_foldl_addRouter h with h | ⟨x, hx, hq⟩
        · exact .inl h
        · obtain ⟨c, hc, hrouter⟩ := exists_of_mem_routersAmong hx
          obtain ⟨p, hp, hentry⟩ := exists_of_router? hrouter hq
          exact .inr ⟨file, List.mem_cons_self .., c, p, hc, hp, hentry⟩
      · exact .inr ⟨file', List.mem_cons_of_mem _ hfile', hq⟩
  rcases hall .empty h with h | h
  · cases h
  · exact h

/-- A procedure of a named router goes by a name. -/
theorem qualifiedName_ne_empty
    {p : Procedure}
    (h : p.router ≠ "") :
    p.qualifiedName ≠ "" := by
  have hrouter : p.router.isEmpty = false := by simpa using h
  rw [Procedure.qualifiedName, hrouter]
  simp

end Readings

end RouteAtlas.Procedures
