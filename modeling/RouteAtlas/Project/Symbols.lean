import RouteAtlas.Project.Modules

/-!
# Looking up names

A name is looked up among the declarations at the top level of its file, and then, over one import,
among those of the file that it is imported from. A failed look-up says why.
-/

namespace RouteAtlas.Project

open Syntax

/-- A name that was found: what it stands for, and the file where that is. -/
structure Found where
  node : Node
  file : SourceFile
  viaImport : Bool

/-- Why a name was not found. -/
inductive Missing where
  | notImported
  | noProject
  | notProjectFile (moduleName : String)
  | noInitializer (name fileName : String)
  | notDeclared (name fileName : String)
  | typeNotDeclared (name fileName : String)

namespace Missing

/-- The reason in words. -/
def reason : Missing → String
  | notImported => "not declared in this file and not imported"
  | noProject => "no project available for import resolution"
  | notProjectFile m => "module '" ++ m ++ "' is not a project file"
  | noInitializer n f => "'" ++ n ++ "' has no initializer in " ++ f
  | notDeclared n f => "'" ++ n ++ "' not declared in " ++ f
  | typeNotDeclared n f => "type '" ++ n ++ "' not declared in " ++ f

end Missing

/-- The outcome of a look-up; a fault comes from settings of a wrong type, or from a module without a
name. -/
abbrev Lookup : Type :=
  Except Fault (Except Missing Found)

/-- What names are looked up in: a project, or single files only. -/
structure Scope where
  project : Option Project

namespace Scope

section Imports

/-- The file that a name is imported from, with its name there. -/
def importedFile
    (s : Scope)
    (name : String)
    (file : SourceFile) :
    Except Fault (Except Missing (SourceFile × String)) :=
  match file.findImport? name with
  | none => .ok (.error .notImported)
  | some (i, imported) =>
    match s.project with
    | none => .ok (.error .noProject)
    | some p => do
      match ← p.resolveModule i.moduleName file.path with
      | none => return .error (.notProjectFile i.moduleName)
      | some target => return .ok (target, imported)

/-- Looks a name up in its file, and then in the file that it is imported from. -/
def lookup
    (s : Scope)
    (name : String)
    (file : SourceFile)
    (here : Option Node)
    (there : SourceFile → String → Option Node)
    (missing : String → String → Missing) :
    Lookup :=
  match here with
  | some node => .ok (.ok ⟨node, file, false⟩)
  | none => do
    match ← s.importedFile name file with
    | .error m => return .error m
    | .ok (target, imported) =>
      match there target imported with
      | some node => return .ok ⟨node, target, true⟩
      | none => return .error (missing imported target.path.name)

end Imports

section Names

/-- The initializer of a variable that is bound by its name alone. -/
def localValue?
    (file : SourceFile)
    (name : String) :
    Option Node :=
  match file.findVariable? name with
  | some v => if v.destructured then none else v.value
  | none => none

/-- The value that a module exports as its default; an identifier stands for its initializer. -/
def defaultValue? (file : SourceFile) : Option Node :=
  match file.defaultExport? with
  | some node => if node.kind == .identifier then localValue? file node.text else some node
  | none => none

/-- The initializer that a name stands for. -/
def value
    (s : Scope)
    (name : String)
    (file : SourceFile) :
    Lookup :=
  s.lookup name file (localValue? file name)
    (fun target imported =>
      if imported == "default" then defaultValue? target else localValue? target imported)
    .noInitializer

/-- The function, variable or class that a name stands for. -/
def declaration
    (s : Scope)
    (name : String)
    (file : SourceFile) :
    Lookup :=
  s.lookup name file (file.localDeclaration? name)
    (fun target imported =>
      if imported == "default" then target.defaultExport? else target.localDeclaration? imported)
    .notDeclared

/-- The interface, alias, class or enumeration that a name stands for. -/
def type
    (s : Scope)
    (name : String)
    (file : SourceFile) :
    Lookup :=
  s.lookup name file (file.findType? name) (fun target imported => target.findType? imported)
    .typeNotDeclared

end Names

end Scope

end RouteAtlas.Project
