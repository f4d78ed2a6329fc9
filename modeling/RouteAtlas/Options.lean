import RouteAtlas.Procedures.Recognition
import RouteAtlas.Project.Config
import RouteAtlas.Yaml.Reader

/-!
# Options

What a user may set for a scan, read from a configuration file at the root of the project. A setting
that lists things may be a text or a mapping as well, of which the characters or the keys are listed.
What is listed may be of any type; a fault arises when it is used.
-/

namespace RouteAtlas

open Files

/-- The options of a scan. -/
structure Options where
  configPath : Option Path
  exclude : List Value
  maxTypeDepth : Int
  routerFactories : List Value
  routerPattern : Value
  procedureFiles : List Value
  basePath : Value
  bootstrapFiles : List Value
  deriving Inhabited

namespace Options

section Defaults

/-- The base path of procedures when none is set. -/
def defaultBasePath : String :=
  "/api/trpc"

/-- The options when nothing is set. -/
def default : Options :=
  { configPath := none
    exclude := []
    maxTypeDepth := 3
    routerFactories := Procedures.Recognition.defaultFactories.map .str
    routerPattern := .str Procedures.Recognition.defaultPatternText
    procedureFiles := [.str "src/server/api/**/*.\x7bts,tsx\x7d"]
    basePath := .str defaultBasePath
    bootstrapFiles := [.str "src/main.ts", .str "main.ts"] }

end Defaults

section Reading

/-- A setting as a whole number, rounded towards zero. -/
def wholeNumber : Value → Except Fault Int
  | .bool b => .ok (if b then 1 else 0)
  | .int i => .ok i
  | .float x =>
    match x.truncate? with
    | some i => .ok i
    | none => .error (if x.isNaN then .invalidValue else .tooLarge)
  | .str s =>
    match Numeral.readInt? s with
    | some i => .ok i
    | none => .error .invalidValue
  | _ => .error .unexpectedType

/-- The settings of a group; a group that is empty has none. -/
def group : Value → Except Fault (List (String × Value))
  | .map entries => .ok entries
  | v => if v.isFilled then .error .unsupportedOperation else .ok []

/-- The items that a setting of a group lists, or the usual ones when it is not there. -/
def listedOr
    (usual : List Value)
    (key : String)
    (entries : List (String × Value)) :
    Except Fault (List Value) :=
  match entryOf? key entries with
  | some v => Project.listed v
  | none => .ok usual

/-- The path of a setting that is filled, relative to a directory if there is one. -/
def pathOf
    (base : Option Path) :
    Value → Except Fault (Option Path)
  | .str s =>
    if s.isEmpty then .ok none
    else
      let p := Path.ofText s
      .ok (some ((base.map fun b => b.join p).getD p))
  | v => if v.isFilled then .error .unexpectedType else .ok none

/-- The options that settings give; a relative path is relative to the given directory. -/
def ofSettings
    (base : Option Path)
    (settings : Value) :
    Except Fault Options := do
  let entries ← group settings
  let at_ (key : String) := (entryOf? key entries).getD .null
  let config ← pathOf base (at_ "tsconfig")
  let exclude ← listedOr [] "exclude" entries
  let depth ←
    match entryOf? "max_type_depth" entries with
    | some v => wholeNumber v
    | none => pure default.maxTypeDepth
  let procedures ← group (at_ "trpc")
  let factories ← listedOr default.routerFactories "router_factories" procedures
  let files ← listedOr default.procedureFiles "include" procedures
  let controllers ← group (at_ "nestjs")
  let bootstrap ← listedOr default.bootstrapFiles "bootstrap_files" controllers
  return {
    configPath := config
    exclude := exclude
    maxTypeDepth := depth
    routerFactories := factories
    routerPattern := (entryOf? "router_identifier_pattern" procedures).getD default.routerPattern
    procedureFiles := files
    basePath := (entryOf? "base_path" procedures).getD default.basePath
    bootstrapFiles := bootstrap }

end Reading

section Files

/-- The names of configuration files that are looked for, in order. -/
def fileNames : List String :=
  ["routescope.yaml", "routescope.yml", ".routescope.yaml", ".routescope.yml"]

/-- The configuration file in a directory. -/
def findFile?
    (t : Tree)
    (directory : Path) :
    Option Path :=
  (fileNames.map directory.child).find? t.isFile

/-- The options that a configuration file gives, whose path is relative to a directory. -/
def load
    (t : Tree)
    (current p : Path) :
    Except Fault Options := do
  match t.find? (current.join p) with
  | none => throw (.configMissing p.toText)
  | some (.file content) =>
    match content.text? with
    | none => throw .invalidEncoding
    | some text =>
      match Yaml.parse? (Text.plainNewlines text) with
      | none => throw .malformedYaml
      | some .null => ofSettings (some p.parent) (.map [])
      | some (.map entries) => ofSettings (some p.parent) (.map entries)
      | some _ => throw (.configNotMapping p.toText)
  | some _ => throw .fileIsDirectory

end Files

section Writing

/-- The options as settings. -/
def toValue (o : Options) : Value :=
  .map [("tsconfig", (o.configPath.map fun p => Value.str p.toText).getD .null),
    ("exclude", .list o.exclude),
    ("max_type_depth", .int o.maxTypeDepth),
    ("trpc", .map [("router_factories", .list o.routerFactories),
      ("router_identifier_pattern", o.routerPattern), ("include", .list o.procedureFiles),
      ("base_path", o.basePath)]),
    ("nestjs", .map [("bootstrap_files", .list o.bootstrapFiles)])]

end Writing

end Options

end RouteAtlas
