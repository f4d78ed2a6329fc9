import RouteAtlas.Log
import RouteAtlas.Options
import RouteAtlas.PathCache
import RouteAtlas.Project.Symbols
import RouteAtlas.Route.Basic

/-!
# Extraction

The routes of one framework are extracted from the files of a project. What happens on the way is
logged, and paths that were derived once are remembered; both are kept when a fault ends the work. A
fault in one file is logged and the file is skipped; a fault outside of files leaves no routes.
-/

namespace RouteAtlas

open Files
open Syntax (SourceFile)

/-- Where routes are extracted: a file tree, the root of the project in it, and the options. -/
structure Site where
  tree : Tree
  root : Path
  options : Options
  deriving Inhabited

/-- What has been logged and remembered so far. -/
structure Progress where
  log : List Log.Record
  cache : PathCache
  deriving Inhabited

/-- No progress yet. -/
def Progress.start : Progress :=
  ⟨[], .empty⟩

/-- Work that logs and remembers paths, and may end by a fault. -/
abbrev Extraction :=
  ExceptT Fault (StateM Progress)

namespace Extraction

section Steps

/-- Logs a message of the component of a framework. -/
def say
    (f : Framework)
    (level : Log.Level)
    (message : String) :
    Extraction Unit :=
  modify fun p => { p with log := p.log ++ [⟨level, f.tag, message⟩] }

/-- The result of a look-up, or its fault. -/
def ofExcept
    {α : Type}
    (e : Except Fault α) :
    Extraction α :=
  ExceptT.mk (pure e)

/-- The result of some work, or what else to do about its fault. What was logged on the way stays. -/
def orElseWith
    {α : Type}
    (work : Extraction α)
    (other : Fault → Extraction α) :
    Extraction α :=
  ExceptT.mk do
    match ← work.run with
    | .ok a => return .ok a
    | .error e => (other e).run

end Steps

section Files

/-- What an extraction loads its files from. -/
def loader (s : Site) : Extraction Project.Loader :=
  ofExcept (Project.Loader.make s.tree s.root s.options.configPath s.options.exclude)

/-- Logs the configuration of the project; a project without one is a fault. -/
def requireConfig
    (s : Site)
    (f : Framework)
    (l : Project.Loader) :
    Extraction Unit := do
  match l.findConfig? with
  | some p => say f .debug ("Using tsconfig at " ++ p.toText)
  | none => throw (.projectConfigMissing s.root.toText)

/-- A path relative to the root, if its file lies there. -/
def relativePath
    (s : Site)
    (p : Path) :
    String :=
  (((s.tree.resolve p).relativeTo? s.root).getD p).toText

/-- The path that is derived from the relative path of a file. -/
def derivedPath
    (s : Site)
    (file : Path)
    (derive : String → String) :
    Extraction String :=
  modifyGet fun p =>
    let (v, cache) := p.cache.getOrInsert s.root (s.tree.resolve file) none fun _ =>
      derive (relativePath s file)
    (v, { p with cache := cache })

/-- The project whose files some globs select, all of them read. -/
def load
    (l : Project.Loader)
    (patterns : List String) :
    Extraction Project := do
  return (← ofExcept (l.load patterns true)).readAll

/-- The elements for which a test that may log says yes. -/
def filterM
    (test : String → Extraction Bool)
    (relative : SourceFile → String) :
    List SourceFile → Extraction (List SourceFile)
  | [] => return []
  | f :: rest => do
    let b ← test (relative f)
    let later ← filterM test relative rest
    return if b then f :: later else later

/-- What is found in the files, one after the other. A fault in a file is logged, and the file is
skipped. -/
def perFile
    {α : Type}
    (s : Site)
    (f : Framework)
    (handle : SourceFile → Extraction (List α)) :
    List SourceFile → Extraction (List α)
  | [] => return []
  | file :: rest => do
    let found ← orElseWith (handle file) fun e => do
      say f .warning ("Skipping " ++ relativePath s file.path ++ ": " ++ e.text)
      return []
    return found ++ (← perFile s f handle rest)

end Files

section Running

/-- The handlers that one way of extraction finds, or another when the project has no configuration
and there is another way. -/
def handlers
    (f : Framework)
    (structured : Extraction (List Handler))
    (textual : Option (Extraction (List Handler))) :
    Extraction (List Handler) :=
  orElseWith structured fun e =>
    match e, textual with
    | .projectConfigMissing _, some other => do
      say f .warning (e.text ++ "; using basic " ++ f.tag ++ " extraction")
      other
    | .projectConfigMissing _, none => do
      say f .warning (e.text ++ "; cannot parse " ++ f.tag ++ " routes without it")
      return []
    | e, _ => throw e

/-- The routes of the handlers that are found; none after a fault, which is logged. -/
def routes
    (f : Framework)
    (found : Extraction (List Handler)) :
    StateM Progress (List Route) := do
  let said (level : Log.Level) (message : String) : StateM Progress Unit :=
    modify fun p => { p with log := p.log ++ [⟨level, f.tag, message⟩] }
  match ← found.run with
  | .ok hs =>
    let rs := Route.ofHandlers hs
    said .info ("Parsed " ++ toString rs.length ++ " " ++ f.tag ++ " routes")
    return rs
  | .error e =>
    said .error ("Failed to parse " ++ f.tag ++ " routes: " ++ e.text)
    return []

end Running

end Extraction

end RouteAtlas
