import RouteAtlas.CommandLine.Command
import RouteAtlas.Text.Markup

/-!
# Running commands

What a command prints, which files it leaves behind, and with what code it ends: zero when all went
well, one after a fault or when findings are not tolerated, and two when the command line is refused.
-/

namespace RouteAtlas.CommandLine

open Files

/-- A piece of output: a line, a table with a title, or a document. -/
inductive Printed where
  | line (s : String)
  | table (title : String) (header : List String) (rows : List (List String))
  | document (s : String)
  deriving Repr, Inhabited

/-- What comes of a command: its code, what it prints, the files after it and those that it wrote
with their texts, and its messages. -/
structure Outcome where
  exitCode : Nat
  printed : List Printed
  files : Tree
  written : List (Path × String)
  messages : List String
  deriving Inhabited

/-- What a command works with: the files, the current directory and the time. -/
structure Surroundings where
  files : Tree
  current : Path
  time : String

namespace Outcome

section Making

/-- The outcome of a command that leaves the files as they are. -/
def shows
    (around : Surroundings)
    (exitCode : Nat)
    (printed : List Printed) :
    Outcome :=
  ⟨exitCode, printed, around.files, [], []⟩

/-- The line about a fault. -/
def faultLine (f : Fault) : Printed :=
  .line (Text.shown ("Error: " ++ f.text))

/-- The line about a file that was written. -/
def savedLine (p : Path) : Printed :=
  .line (Text.shown ("Output saved to: " ++ p.toText))

/-- A table whose cells are shown without their markup. -/
def shownTable
    (title : String)
    (header : List String)
    (rows : List (List String)) :
    Printed :=
  .table title header (rows.map fun r => r.map Text.shown)

end Making

end Outcome

section Settings

/-- The options for a project: those of the configuration file that is given, or else found at its
root. -/
def optionsFor
    (around : Surroundings)
    (s : Settings) :
    Except Fault Options := do
  let root := around.files.resolve s.root
  let found := match s.config with
    | some p => some p
    | none => Options.findFile? around.files root
  let options ←
    match found with
    | some p => Options.load around.files around.current p
    | none => pure .default
  return match s.projectConfig with
    | some p => { options with configPath := some (around.files.resolve (around.current.join p)) }
    | none => options

/-- Where routes are extracted with some settings. -/
def siteFor
    (around : Surroundings)
    (s : Settings) :
    Except Fault Site := do
  return ⟨around.files, around.files.resolve s.root, ← optionsFor around s⟩

end Settings

section Commands

/-- What comes of detection. -/
def runDetect
    (around : Surroundings)
    (root : Path) :
    Outcome :=
  let found := detection around.files (around.files.resolve root)
  .shows around 0 [Outcome.shownTable "Framework Detection" ["Framework", "Detected"]
    (found.map fun d => [d.1.key, if d.2 then "yes" else "no"])]

/-- The row of a route: its file is given relative to the project. -/
def routeRow
    (root : Path)
    (r : Route) :
    List String :=
  let file := r.filePath.getD ""
  [r.method, r.path, r.type, (((Path.ofText file).relativeTo? root).map Path.toText).getD file]

/-- The table of the routes of a scan. -/
def routeTable
    (s : Scan)
    (sorted : List Route) :
    Printed :=
  Outcome.shownTable ("Routes (" ++ toString s.routes.length ++ ")") ["Method", "Path", "Type", "File"]
    (sorted.map (routeRow s.root))

/-- What a command prints, the files after it, and those that it wrote. -/
structure Product where
  exitCode : Nat
  printed : List Printed
  files : Tree
  written : List (Path × String)

/-- A product that leaves the files as they are. -/
def Product.shows
    (around : Surroundings)
    (exitCode : Nat)
    (printed : List Printed) :
    Product :=
  ⟨exitCode, printed, around.files, []⟩

/-- Writes a report to a file and says so, if that is possible. -/
def saved?
    (around : Surroundings)
    (f : ReportFormat)
    (r : Report)
    (p : Path) :
    Option Product :=
  let target := around.current.join p
  match r.fileText f (some 2) with
  | .ok s =>
    (around.files.write? target s).map fun t => ⟨0, [Outcome.savedLine p], t, [(target, s)]⟩
  | .error _ => none

/-- A product followed by a report that is written to a file, if one is wanted and can be written. -/
def Product.andSaved
    (printed : List Printed)
    (around : Surroundings)
    (r : Report)
    (output : Option Path) :
    Product :=
  match output.bind (saved? around .json r) with
  | some x => { x with printed := printed ++ x.printed }
  | none => .shows around 0 printed

/-- The messages of a log that are shown. -/
def messagesOf
    (verbose : Bool)
    (log : List Log.Record) :
    List String :=
  (log.filter fun r => verbose || r.level.isImportant).map Log.Record.line

/-- What comes of a scan in a format. -/
def scanProduct
    (around : Surroundings)
    (format : ScanFormat)
    (output : Option Path)
    (s : Scan) :
    Except Fault Product := do
  let report := Report.ofScan s around.time
  match format, output with
  | .document f, none =>
    return .shows around 0 [.document ((← report.text f (some 2)) ++ "\n")]
  | .document f, some p =>
    return (saved? around f report p).getD
      (.shows around 1 [.line "Error: the report cannot be written"])
  | .table, output =>
    let sorted ← Route.sort s.routes
    let remark :=
      if s.frameworkKeys.isEmpty then [Printed.line "No supported frameworks detected"] else []
    return .andSaved (routeTable s sorted :: remark) around report output

/-- What comes of a scan. -/
def runScan
    (around : Surroundings)
    (settings : Settings)
    (format : ScanFormat)
    (output : Option Path)
    (wanted : List Framework) :
    Outcome :=
  let work : Extraction Product := do
    let site ← Extraction.ofExcept (siteFor around settings)
    let s ← Scan.run site wanted
    Extraction.ofExcept (scanProduct around format output s)
  let (result, progress) := work.run.run Progress.start
  let x := match result with
    | .ok x => x
    | .error e => .shows around 1 [Outcome.faultLine e]
  ⟨x.exitCode, x.printed, x.files, x.written, messagesOf settings.verbose progress.log⟩

/-- The row of a finding. -/
def findingRow (f : Finding) : List String :=
  [f.severity.tag, f.rule, f.target, f.message, f.filePath ++ ":" ++ toString f.line]

/-- The line that counts findings. -/
def countLine (findings : List Finding) : String :=
  let count (s : Severity) := toString (findings.countP fun f => f.severity = s)
  "Errors: " ++ count .error ++ "  Warnings: " ++ count .warn ++ "  Info: " ++ count .info

/-- What comes of a look at the findings of a project. -/
def runAnalyze
    (around : Surroundings)
    (settings : Settings)
    (output : Option Path)
    (strict : Bool) :
    Outcome :=
  match siteFor around settings with
  | .error e => .shows around 1 [Outcome.faultLine e]
  | .ok site =>
    let (findings, progress) :=
      (Lint.ofProject site fun f => f.isUsedIn site.tree site.root).run Progress.start
    let report : Report := ⟨some (Report.subjectOf site.root around.time), none, some findings⟩
    let table := Outcome.shownTable ("Findings (" ++ toString findings.length ++ ")")
      ["Severity", "Rule", "Target", "Message", "Location"] (findings.map findingRow)
    let x := Product.andSaved [table, .line (countLine findings)] around report output
    let code := if strict && findings.any fun f => f.severity = .error then 1 else 0
    ⟨code, x.printed, x.files, x.written, messagesOf settings.verbose progress.log⟩

/-- What comes of a command. -/
def Command.run
    (around : Surroundings) :
    Command → Outcome
  | .help topic => .shows around 0 (topic.lines.map .line)
  | .version => .shows around 0 [.line versionLine]
  | .info => .shows around 0 (aboutLines.map .line)
  | .detect root => runDetect around root
  | .scan s format output wanted => runScan around s format output wanted
  | .analyze s output strict => runAnalyze around s output strict

/-- What comes of a command line. One that is refused prints nothing. -/
def run
    (around : Surroundings)
    (words : List String) :
    Outcome :=
  match Command.ofArguments? around.files around.current words with
  | some c => c.run around
  | none => .shows around 2 []

end Commands

end RouteAtlas.CommandLine
