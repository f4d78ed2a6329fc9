import RouteAtlas.Fault
import RouteAtlas.Files.Tree
import RouteAtlas.Glob
import RouteAtlas.Json.WithComments

/-!
# Project configuration

The settings of a project that say which files belong to it and how imports are resolved. A
configuration may extend another one by a relative path; what it does not set itself it takes from
there. Settings are kept as they are written, and a fault arises where one of a wrong type is used.
-/

namespace RouteAtlas.Project

open Files

section Reading

/-- The value of a settings file, which must be a mapping. -/
def readSettings
    (t : Tree)
    (p : Path) :
    Except Fault (List (String × Value)) :=
  match t.find? p with
  | none => .error .fileMissing
  | some (.file content) =>
    match content.text? with
    | none => .error .invalidEncoding
    | some text =>
      match Json.parseWithComments (Text.plainNewlines text) with
      | .ok (.map entries) => .ok entries
      | .ok _ => .error .invalidValue
      | .error .malformed => .error .malformedJson
      | .error .tooManyDigits => .error .invalidValue
  | some _ => .error .fileIsDirectory

/-- The items that a setting lists: the items of a list, the keys of a mapping, the characters of a
text. -/
def listed : Value → Except Fault (List Value)
  | .list items => .ok items
  | .map entries => .ok (entries.map fun e => .str e.1)
  | .str s => .ok (s.toList.map fun c => .str (String.singleton c))
  | _ => .error .unexpectedType

/-- The text of a setting, or the given fault. -/
def textOr
    (fault : Fault)
    (v : Value) :
    Except Fault String :=
  match v with
  | .str s => .ok s
  | _ => .error fault

/-- The place that a setting names from a directory. No path holds a null character. -/
def placeOf
    (t : Tree)
    (directory : Path)
    (text : String) :
    Except Fault Path :=
  if text.toList.contains '\x00' then .error .invalidValue
  else .ok (t.resolve (directory.append text))

end Reading

/-- The settings of a project. -/
structure Config where
  path : Path
  include_ : Value
  exclude : Value
  files : Value
  allowScripts : Bool
  baseUrl : Option Path
  aliases : List (String × List Value)
  deriving Inhabited

namespace Config

section Suffixes

/-- The suffixes of typed sources. -/
def typedSuffixes : List String :=
  [".ts", ".tsx", ".mts", ".cts"]

/-- The suffixes of untyped sources. -/
def untypedSuffixes : List String :=
  [".js", ".jsx", ".mjs", ".cjs"]

/-- The suffixes of the files that the configuration admits. -/
def suffixes (c : Config) : List String :=
  if c.allowScripts then typedSuffixes ++ untypedSuffixes else typedSuffixes

end Suffixes

section Defaults

/-- The configuration of a file in which nothing is set. -/
def empty (path : Path) : Config :=
  ⟨path, .null, .null, .null, false, none, []⟩

/-- The directory of the configuration. -/
def directory (c : Config) : Path :=
  c.path.parent

/-- The globs of a setting, directories being written out. -/
def globs (v : Value) : Except Fault (List String) := do
  let items ← listed v
  items.mapM fun i => (textOr .unsupportedOperation i).map Glob.asDirectory

/-- The globs of the files that belong to the project: all files when neither globs nor files are
set. -/
def includeGlobs (c : Config) : Except Fault (List String) :=
  match c.include_ with
  | .null => .ok (if c.files.isFilled then [] else ["**/*"])
  | v => globs v

/-- The globs of the files that do not belong to the project. -/
def excludeGlobs (c : Config) : Except Fault (List String) :=
  match c.exclude with
  | .null => .ok ["node_modules/**", "bower_components/**", "jspm_packages/**"]
  | v => globs v

end Defaults

section Loading

/-- The file that a relative path of an extended configuration names. No path holds a null character,
and the root of all paths takes no suffix. -/
def extendedPath
    (directory : Path)
    (extends_ : String) :
    Except Fault Path :=
  let p := directory.append extends_
  if p.name.isEmpty || extends_.toList.contains '\x00' then .error .invalidValue
  else .ok (if p.suffix == ".json" then p else p.withName (p.name ++ ".json"))

/-- The file that settings extend by a relative path, if they do. -/
def extended?
    (path : Path)
    (data : List (String × Value)) :
    Except Fault (Option Path) :=
  match entryOf? "extends" data with
  | some (.str text) =>
    if Text.startsWith text "." then (extendedPath path.parent text).map some else .ok none
  | _ => .ok none

/-- A setting of this file, or else of the one that it extends. -/
def inherited
    (data : List (String × Value))
    (key : String)
    (parent : Option Value) :
    Value :=
  (entryOf? key data).getD (parent.getD .null)

/-- The compiler options among settings. A value that counts as empty sets none. -/
def optionsOf (data : List (String × Value)) : Except Fault (List (String × Value)) :=
  match entryOf? "compilerOptions" data with
  | some (.map entries) => .ok entries
  | some v => if v.isFilled then .error .unsupportedOperation else .ok []
  | none => .ok []

/-- The base directory that options name, read in the directory of their file. -/
def namedBase?
    (t : Tree)
    (path : Path)
    (options : List (String × Value)) :
    Except Fault (Option Path) :=
  match entryOf? "baseUrl" options with
  | some v => do return some (← placeOf t path.parent (← textOr .unexpectedType v))
  | none => .ok none

/-- The aliases that options set: the keys of a mapping that list targets. -/
def aliasesOf? (options : List (String × Value)) : Option (List (String × List Value)) :=
  match entryOf? "paths" options with
  | some (.map entries) => some (entries.filterMap fun e => e.2.items?.map fun targets => (e.1, targets))
  | _ => none

/-- The configuration that the settings of a file give, with those of the one that it extends. -/
def ofSettings
    (t : Tree)
    (path : Path)
    (data : List (String × Value))
    (parent : Option Config) :
    Except Fault Config := do
  let options ← optionsOf data
  let named ← namedBase? t path options
  let baseUrl := named.or (parent.bind Config.baseUrl)
  let aliases := aliasesOf? options
  return {
    path := path
    include_ := inherited data "include" (parent.map Config.include_)
    exclude := inherited data "exclude" (parent.map Config.exclude)
    files := inherited data "files" (parent.map Config.files)
    allowScripts :=
      match entryOf? "allowJs" options with
      | some v => v.isFilled
      | none => (parent.map Config.allowScripts).getD false
    baseUrl := if aliases.isSome then some (baseUrl.getD path.parent) else baseUrl
    aliases := aliases.getD ((parent.map Config.aliases).getD []) }

/-- Whether a fault of an extended configuration is passed over: one of reading it. -/
def isReadingFault : Fault → Bool
  | .unexpectedType | .unsupportedOperation => false
  | _ => true

/-- What is taken over from an extended configuration: nothing if it could not be read. -/
def takenOver : Except Fault Config → Except Fault (Option Config)
  | .ok c => .ok (some c)
  | .error e => if isReadingFault e then .ok none else .error e

/-- Loads a configuration with those that it extends. No file is entered twice, so the first
argument, which bounds the length of the chain, is never used up. -/
def loadFrom
    (t : Tree) :
    Nat → List Path → Path → Except Fault Config
  | 0, _, _ => .error .invalidValue
  | n + 1, seen, p => do
    let path := t.resolve p
    let seen := path :: seen
    let data ← readSettings t path
    let target? ← extended? path data
    let new? := target?.filter fun q => !seen.contains (t.resolve q) && t.exists_ q
    let parent ← new?.elim (.ok none) fun q => takenOver (loadFrom t n seen q)
    ofSettings t path data parent

mutual

/-- The number of files in a tree, links included. -/
def fileCount : Entry → Nat
  | .directory entries => fileCounts entries
  | _ => 1

/-- The number of files in the entries of a directory. -/
def fileCounts : List (String × Entry) → Nat
  | [] => 0
  | (_, e) :: rest => fileCount e + fileCounts rest

end

/-- Loads a configuration with those that it extends. -/
def load
    (t : Tree)
    (p : Path) :
    Except Fault Config :=
  loadFrom t (fileCount t.root + 2) [] p

end Loading

end Config

end RouteAtlas.Project
