import RouteAtlas.Project.Config
import RouteAtlas.Syntax.SourceFile

/-!
# Projects

A project is the set of source files that its configuration and the globs of a framework select.
Only files under the root of the project belong to it, whatever the configuration says. Directories
of dependencies and build results are never entered.
-/

namespace RouteAtlas

open Files

/-- A project: the files that belong to it, in the order in which they were found, and the source
files that have been read so far. A file is read once: later changes of the tree do not show. -/
structure Project where
  tree : Tree
  root : Path
  config : Option Project.Config
  files : List Path
  sources : List (Path × Syntax.SourceFile)

namespace Project

-- Inside its namespace the type goes by its name too.
set_option linter.all false in
export RouteAtlas (Project)

/-- What a project is loaded from: its root, an explicit configuration file, and the globs of files
to leave out. -/
structure Loader where
  tree : Tree
  root : Path
  configPath : Option Path
  exclude : Glob.Matcher

namespace Loader

section Making

/-- Names of directories that are never entered. -/
def ignoredDirectories : List String :=
  ["node_modules", ".git", ".next", "dist", "build", "coverage", "out", ".turbo", ".vercel"]

/-- The matcher for globs that are given as settings. -/
def matcherOf (patterns : List Value) : Except Fault Glob.Matcher := do
  let texts ← patterns.mapM (textOr .unexpectedType)
  return Glob.Matcher.ofPatterns texts

/-- A loader for the project at a path, which must be a directory. -/
def make
    (t : Tree)
    (root : Path)
    (configPath : Option Path)
    (exclude : List Value) :
    Except Fault Loader := do
  let resolved := t.resolve root
  if !t.exists_ resolved then throw (.pathMissing root.toText)
  if !t.isDirectory resolved then throw (.pathNotDirectory root.toText)
  let m ← matcherOf exclude
  return ⟨t, resolved, configPath, m⟩

end Making

section Configuration

/-- The names of configuration files that are looked for at the root. -/
def configNames : List String :=
  ["tsconfig.json", "jsconfig.json"]

/-- The configuration file of the project. An explicit one that does not exist is not replaced. -/
def findConfig? (l : Loader) : Option Path :=
  match l.configPath with
  | some p =>
    let candidate := l.root.join p
    if l.tree.isFile candidate then some (l.tree.resolve candidate) else none
  | none => (configNames.map l.root.child).find? l.tree.isFile

/-- The configuration of the project; one that cannot be read counts as empty. -/
def readConfig? (l : Loader) : Except Fault (Option Config) :=
  match l.findConfig? with
  | none => .ok none
  | some p =>
    match Config.load l.tree p with
    | .ok c => .ok (some c)
    | .error e =>
      if Config.isReadingFault e then .ok (some (Config.empty (l.tree.resolve p))) else .error e

end Configuration

section Walking

/-- A path relative to the root, links being followed. -/
def rootRelative
    (l : Loader)
    (p : Path) :
    String :=
  (((l.tree.resolve p).relativeTo? l.root).getD p).toText

/-- Whether a file is a source that is not left out. -/
def isCandidate
    (l : Loader)
    (p : Path) :
    Bool :=
  Syntax.SourceFile.sourceSuffixes.contains p.suffix && !Text.endsWith p.name ".d.ts" &&
    !l.exclude.accepts (l.rootRelative p)

/-- The sources below a directory: their resolved paths, and their paths relative to another
directory. -/
def walk
    (l : Loader)
    (base relative : Path) :
    List (Path × String) :=
  let paths := l.tree.walk (fun d => !ignoredDirectories.contains d) base
  (paths.filter l.isCandidate).filterMap fun p =>
    (p.relativeTo? relative).map fun r => (l.tree.resolve p, r.toText)

/-- The sources under the root that a list of globs selects. -/
def findFiles
    (l : Loader)
    (patterns : List String) :
    List Path :=
  let m := Glob.Matcher.ofPatterns patterns
  if m.isEmpty then []
  else ((l.walk l.root l.root).filter fun f => m.accepts f.2).map Prod.fst

/-- The files that a configuration lists by name. -/
def listedFiles
    (l : Loader)
    (c : Config) :
    Except Fault (List Path) := do
  let names ← if c.files.isFilled then listed c.files else pure []
  let paths ← names.mapM fun n => do
    let text ← textOr .unexpectedType n
    placeOf l.tree c.directory text
  return paths.filter l.tree.isFile

/-- The files that a configuration selects: those that it lists, then those that its globs do. The
walk starts at the root of the project when the configuration lies above it. -/
def configFiles
    (l : Loader)
    (c : Config) :
    Except Fault (List Path) := do
  let named ← l.listedFiles c
  let globs ← c.includeGlobs
  let include_ := Glob.Matcher.ofPatterns globs
  if include_.isEmpty then return named
  let globs ← c.excludeGlobs
  let exclude := Glob.Matcher.ofPatterns globs
  let base := if l.root.isBelow c.directory then l.root else c.directory
  let found := (l.walk base c.directory).filter fun f =>
    c.suffixes.contains f.1.suffix && include_.accepts f.2 && !exclude.accepts f.2
  return named ++ found.map Prod.fst

end Walking

end Loader

section Files

/-- Whether a path lies under the root, links being followed. -/
def isUnderRoot
    (p : Project)
    (path : Path) :
    Bool :=
  (p.tree.resolve path).isBelow p.root

/-- A path relative to the root of the project. -/
def relativePath
    (p : Project)
    (path : Path) :
    String :=
  (((p.tree.resolve path).relativeTo? p.root).getD path).toText

/-- The project with one more file, and whether the file lies under its root. -/
def addFile
    (p : Project)
    (path : Path) :
    Project × Bool :=
  let path := p.tree.resolve path
  if !path.isBelow p.root then (p, false)
  else if p.files.contains path then (p, true)
  else ({ p with files := p.files ++ [path] }, true)

/-- The project with more files. -/
def addFiles
    (p : Project)
    (paths : List Path) :
    Project :=
  paths.foldl (fun p path => (p.addFile path).1) p

/-- A source file that has been read. -/
def source?
    (path : Path) :
    List (Path × Syntax.SourceFile) → Option Syntax.SourceFile
  | [] => none
  | (p, f) :: rest => if p = path then some f else source? path rest

/-- The source file at a path under the root. -/
def sourceFile?
    (p : Project)
    (path : Path) :
    Option Syntax.SourceFile :=
  let path := p.tree.resolve path
  match source? path p.sources with
  | some f => some f
  | none =>
    if path.isBelow p.root then
      (p.tree.content? path).map fun c => Syntax.SourceFile.ofText path c.lenientText
    else none

/-- The project after a file was read. -/
def afterReading
    (p : Project)
    (file : Option Syntax.SourceFile) :
    Project :=
  match file with
  | some f =>
    if (source? f.path p.sources).isSome then p
    else { p with sources := p.sources ++ [(f.path, f)] }
  | none => p

/-- The source files of the project, in order. -/
def sourceFiles (p : Project) : List Syntax.SourceFile :=
  p.files.filterMap p.sourceFile?

/-- The project after all its files were read. -/
def readAll (p : Project) : Project :=
  p.sourceFiles.foldl (fun p f => p.afterReading (some f)) p

end Files

/-- Loads the project that the configuration, if it is to be used, and a list of globs select. -/
def Loader.load
    (l : Loader)
    (patterns : List String)
    (useConfig : Bool) :
    Except Fault Project := do
  let config ← l.readConfig?
  let start : Project := ⟨l.tree, l.root, config, [], []⟩
  let listed ←
    match config with
    | some c => if useConfig then l.configFiles c else pure []
    | none => pure []
  return (start.addFiles listed).addFiles (l.findFiles patterns)

end Project

end RouteAtlas
