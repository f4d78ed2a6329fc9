import RouteAtlas.CommandLine.Arguments
import RouteAtlas.CommandLine.Help

/-!
# Commands

What a command line asks for. A command line that asks for nothing that can be done, because a word
is wrong or missing or a path is not what it has to be, is refused as a whole.
-/

namespace RouteAtlas.CommandLine

open Files

/-- How the routes that a scan finds are shown. -/
inductive ScanFormat where
  | table
  | document (f : ReportFormat)
  deriving Repr, DecidableEq, Inhabited

/-- Which settings apply to a project, and whether all messages about it are wanted. -/
structure Settings where
  root : Path
  config : Option Path
  projectConfig : Option Path
  verbose : Bool
  deriving Repr, Inhabited

/-- What a command line asks for. -/
inductive Command where
  | help (topic : Topic)
  | version
  | info
  | detect (root : Path)
  | scan (s : Settings) (format : ScanFormat) (output : Option Path) (wanted : List Framework)
  | analyze (s : Settings) (output : Option Path) (strict : Bool)
  deriving Repr, Inhabited

namespace Command

section Options

/-- The option that asks for help. -/
def helpSwitch : Switch :=
  ⟨"help", ["--help"], false⟩

/-- The option that asks for all messages. -/
def verboseSwitch : Switch :=
  ⟨"verbose", ["-v", "--verbose"], false⟩

/-- The options that settings are read from. -/
def settingSwitches : List Switch :=
  [⟨"tsconfig", ["--tsconfig"], true⟩, ⟨"config", ["-c", "--config"], true⟩,
    ⟨"output", ["-o", "--output"], true⟩]

/-- The options before the name of a command. -/
def mainSwitches : List Switch :=
  [⟨"version", ["--version"], false⟩, helpSwitch]

/-- The options of a command. -/
def switchesOf : Topic → List Switch
  | .commands => mainSwitches
  | .detect => [verboseSwitch, helpSwitch]
  | .scan =>
    settingSwitches ++ [⟨"format", ["-f", "--format"], true⟩, ⟨"framework", ["--framework"], true⟩,
      verboseSwitch, helpSwitch]
  | .analyze => settingSwitches ++ [⟨"strict", ["--strict"], false⟩, verboseSwitch, helpSwitch]
  | .info => [helpSwitch]

end Options

section Paths

/-- The path that a word denotes, relative to the current directory. -/
def pathOf?
    (current : Path)
    (word : String) :
    Option Path :=
  if word.isEmpty then none else some (current.append word)

/-- The directory that has to be the only word. -/
def directory?
    (t : Tree)
    (current : Path)
    (words : List String) :
    Option Path :=
  match words with
  | [word] => (pathOf? current word).filter t.isDirectory
  | _ => none

/-- The file that an option names, if it is given; it has to be there. -/
def file?
    (t : Tree)
    (current : Path)
    (a : Arguments)
    (key : String) :
    Option (Option Path) :=
  match a.valuesOf key with
  | [] => some none
  | words =>
    if words.all fun w => ((pathOf? current w).map t.isFile).getD false then
      some (words.getLast?.map Path.ofText)
    else none

/-- The settings that a command line gives. -/
def settings?
    (t : Tree)
    (current : Path)
    (a : Arguments) :
    Option Settings := do
  let root ← directory? t current a.words
  let config ← file? t current a "config"
  let projectConfig ← file? t current a "tsconfig"
  return ⟨root, config, projectConfig, a.has "verbose"⟩

/-- The file that the output goes to. -/
def output? (a : Arguments) : Option Path :=
  (Route.filled? (a.value? "output")).map Path.ofText

end Paths

section Reading

/-- The format of a name. -/
def formatOf? : String → Option ScanFormat
  | "table" => some .table
  | "json" => some (.document .json)
  | "yaml" => some (.document .yaml)
  | _ => none

/-- What the words after the name of a command ask for. -/
def ofWords?
    (t : Tree)
    (current : Path)
    (topic : Topic)
    (a : Arguments) :
    Option Command := do
  if a.has "help" then
    return .help topic
  match topic with
  | .commands => failure
  | .info => if a.words.isEmpty then return .info else failure
  | .detect => return .detect (← directory? t current a.words)
  | .scan =>
    let formats ← (a.valuesOf "format").mapM formatOf?
    let wanted ← (a.valuesOf "framework").mapM Framework.ofTag?
    let s ← settings? t current a
    return .scan s (formats.getLast?.getD .table) (output? a) wanted
  | .analyze =>
    let s ← settings? t current a
    return .analyze s (output? a) (a.has "strict")

/-- The command of a name. -/
def topicOf? : String → Option Topic
  | "detect" => some .detect
  | "scan" => some .scan
  | "analyze" => some .analyze
  | "info" => some .info
  | _ => none

/-- What a command line asks for, in a directory of a file tree. -/
def ofArguments?
    (t : Tree)
    (current : Path)
    (words : List String) :
    Option Command := do
  let a ← Arguments.read? mainSwitches false words
  match a.options with
  | (key, _) :: _ => return if key == "version" then .version else .help .commands
  | [] =>
    match a.words with
    | [] => failure
    | name :: rest =>
      let topic ← topicOf? name
      ofWords? t current topic (← Arguments.read? (switchesOf topic) true rest)

end Reading

end Command

end RouteAtlas.CommandLine
