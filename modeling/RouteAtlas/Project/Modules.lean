import RouteAtlas.Project.Loader

/-!
# Resolving imports

The file of the project that an import specifier names. A relative specifier starts at the importing
file; any other is tried against the aliases of the configuration and against its base directory.
A specifier may leave out the suffix of a file, or name a directory with an index file, or name the
script that a typed source becomes.
-/

namespace RouteAtlas.Project

open Files

section Candidates

/-- The suffixes that are tried for a specifier without one, in order. -/
def triedSuffixes : List String :=
  [".ts", ".tsx", ".mts", ".js", ".jsx", ".mjs"]

/-- The target of an alias with the matched part of a specifier in place of each star. -/
def fillTarget
    (rest : String)
    (v : Value) :
    Except Fault String :=
  (textOr .unsupportedOperation v).map (Text.replaceChar '*' rest)

/-- The paths that the targets of one alias give for a specifier. -/
def aliasCandidates
    (base : Path)
    (specifier : String)
    (entry : String × List Value) :
    Except Fault (List Path) :=
  let (name, targets) := entry
  match name.toList.reverse with
  | '*' :: start =>
    match Text.afterStart? start.reverse specifier.toList with
    | some rest =>
      targets.mapM fun v => (fillTarget (String.ofList rest) v).map base.append
    | none => .ok []
  | _ =>
    if name == specifier then
      targets.mapM fun v => (textOr .unexpectedType v).map base.append
    else .ok []

/-- The paths that a specifier may name, without regard to suffixes. -/
def moduleCandidates
    (p : Project)
    (specifier : String)
    (fromFile : Path) :
    Except Fault (List Path) :=
  if Text.startsWith specifier "." then .ok [fromFile.parent.append specifier]
  else
    match p.config with
    | none => .ok []
    | some c => do
      let base := c.baseUrl.getD c.directory
      let aliased ← c.aliases.mapM (aliasCandidates base specifier)
      return aliased.flatten ++ (c.baseUrl.map fun b => b.append specifier).toList

/-- The files that a path may stand for, in the order in which they are tried. -/
def fileCandidates (base : Path) : List Path :=
  let literal := if Syntax.SourceFile.sourceSuffixes.contains base.suffix then [base] else []
  let typed :=
    if Config.untypedSuffixes.contains base.suffix then
      let stem := base.withSuffix ""
      [stem.withSuffix ".ts", stem.withSuffix ".tsx"]
    else []
  literal ++ typed ++ triedSuffixes.map (fun s => base.withName (base.name ++ s)) ++
    triedSuffixes.map (fun s => base.child ("index" ++ s))

/-- The file that a path stands for. -/
def resolveFile?
    (p : Project)
    (base : Path) :
    Option Path :=
  (fileCandidates base).find? p.tree.isFile

/-- The file that the first of some paths stands for. A path without a name, where no suffix can be
tried, is a fault unless a path before it stands for a file. -/
def resolveFirst?
    (p : Project) :
    List Path → Except Fault (Option Path)
  | [] => .ok none
  | base :: rest =>
    if base.name.isEmpty then .error .invalidValue
    else
      match p.resolveFile? base with
      | some file => .ok (some file)
      | none => resolveFirst? p rest

/-- The source file that an import specifier names, if it is a file of the project. -/
def resolveModule
    (p : Project)
    (specifier : String)
    (fromFile : Path) :
    Except Fault (Option Syntax.SourceFile) := do
  let candidates ← p.moduleCandidates specifier fromFile
  return (← p.resolveFirst? candidates).bind p.sourceFile?

end Candidates

end RouteAtlas.Project
