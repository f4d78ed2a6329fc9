import RouteAtlas.Procedures.Chain
import RouteAtlas.Procedures.Recognition
import RouteAtlas.Router.Title
import RouteAtlas.Schema.Interpret

/-!
# Entries of routers

The object that is given to a call that builds a router has an entry for each procedure and for each
router that is mounted. A procedure may be written in place or be named, and what is named may come
from a file that is imported. Reading a file stops at the first fault, and keeps what was read
before it.
-/

namespace RouteAtlas.Procedures

open Syntax
open Project (Scope Missing)

/-- What an entry of a router is: a mount of what looks like a router or is found to be one, a
procedure, a name that stands for nothing, or something else. -/
inductive Entry where
  | reference (m : Router.Mount)
  | mount (m : Router.Mount)
  | procedure (p : Procedure)
  | unresolved (property : String) (why : Missing)
  | other (property : String)

/-- How entries are read: how routers are recognised, where names are looked up, and how the path of
a file is reported. -/
structure EntryReader where
  recognition : Recognition
  scope : Scope
  relative : Files.Path → String

/-- A router that was read, up to a fault if there was one. -/
structure RouterReading where
  variableName : String
  declaration : Router.Declaration
  entries : List Entry
  fault : Option Fault

namespace EntryReader

section Procedures

/-- The procedure that an expression is, if it is one. -/
def procedure?
    (r : EntryReader)
    (router name : String)
    (line : Nat)
    (file : SourceFile)
    (expression : Node) :
    Except Fault (Option Procedure) := do
  let c := Chain.unknown.read expression
  match c.kind with
  | none => return none
  | some kind =>
    let body ←
      match c.input with
      | some i => do pure (some (← Schema.bodyOfExpression r.scope file (some i)))
      | none => pure none
    let p : Procedure :=
      { router := router
        name := name
        kind := kind
        filePath := r.relative file.path
        line := line
        visibility := c.visibility
        hasInput := c.hasInput
        hasOutput := c.hasOutput
        body := body
        resolverLines := 0
        usesDatabase := false
        handlesErrors := false
        hasSideEffects := false
        headers := [("Content-Type", "application/json")] }
    return some (Chain.withResolver p c.resolver)

end Procedures

section Entries

/-- The entry that an expression is. -/
def ofExpression
    (r : EntryReader)
    (router : String)
    (p : Node.Property)
    (file : SourceFile)
    (expression : Node) :
    Except Fault Entry := do
  match ← r.procedure? router p.name p.entry.line file expression with
  | some q => return .procedure q
  | none => return .other p.name

/-- Whether an expression is a name. -/
def isName (e : Node) : Bool :=
  e.unwrap.kind == .identifier || e.unwrap.kind == .shorthandPropertyIdentifier

/-- The entry that a property of the object of a router is. -/
def entry
    (r : EntryReader)
    (router : String)
    (file : SourceFile)
    (p : Node.Property) :
    Except Fault Entry := do
  if r.recognition.isReference p.value then
    return .reference ⟨router, p.name, (Recognition.referenceName? p.value).getD p.value.text⟩
  else if isName p.value then
    match ← r.scope.value p.value.text file with
    | .error why => return .unresolved p.name why
    | .ok found =>
      let e := found.node.unwrap
      if e.kind == .callExpression && r.recognition.buildsRouter e then
        return .mount ⟨router, p.name, p.value.text⟩
      else r.ofExpression router p found.file e
  else r.ofExpression router p file p.value

/-- The entries that properties are, up to the first fault. -/
def entries
    (r : EntryReader)
    (router : String)
    (file : SourceFile) :
    List Node.Property → List Entry × Option Fault
  | [] => ([], none)
  | p :: rest =>
    match r.entry router file p with
    | .error e => ([], some e)
    | .ok e =>
      let (later, fault) := entries r router file rest
      (e :: later, fault)

end Entries

section Routers

/-- The router that a call builds from an object. -/
def router?
    (r : EntryReader)
    (file : SourceFile)
    (c : RouterCall) :
    Option RouterReading :=
  match (c.node.callArguments.head?).map Node.unwrap with
  | none => none
  | some o =>
    if o.kind == .object then
      let path := r.relative file.path
      let name := Router.title c.name path
      let (entries, fault) := r.entries name file o.properties
      some ⟨c.name, ⟨name, path, c.node.line, c.node.endLine⟩, entries, fault⟩
    else none

/-- The routers that calls of a file build, up to the first fault. -/
def routersAmong
    (r : EntryReader)
    (file : SourceFile) :
    List RouterCall → List RouterReading
  | [] => []
  | c :: rest =>
    match r.router? file c with
    | none => routersAmong r file rest
    | some x => if x.fault.isSome then [x] else x :: routersAmong r file rest

end Routers

end EntryReader

end RouteAtlas.Procedures
