import RouteAtlas.Json.Printer
import RouteAtlas.Scan
import RouteAtlas.Yaml.Printer

/-!
# Reports

What is known of a project as one document: what it is, what a scan found in it, and the findings
about it. A document in JSON lists the routes in listing order; one in YAML groups them by their
type.
-/

namespace RouteAtlas

open Files

/-- The version of this program. -/
def programVersion : String :=
  "1.0.0"

/-- What project a report is about, and when it was made. -/
structure ReportSubject where
  name : String
  path : String
  time : String
  deriving Repr, Inhabited

/-- A report, as far as its parts are given. -/
structure Report where
  subject : Option ReportSubject
  scan : Option Scan
  findings : Option (List Finding)
  deriving Inhabited

/-- The formats of reports. -/
inductive ReportFormat where
  | json
  | yaml
  deriving Repr, DecidableEq, Inhabited

namespace Report

section Parts

/-- The subject of a report about what lies at a path. -/
def subjectOf
    (root : Path)
    (time : String) :
    ReportSubject :=
  ⟨root.name, root.toText, time⟩

/-- A report about a scan. -/
def ofScan
    (s : Scan)
    (time : String) :
    Report :=
  ⟨some (subjectOf s.root time), some s, none⟩

/-- The subject of a report as data. -/
def subjectEntries (s : ReportSubject) : List (String × Value) :=
  [("metadata", .map [("name", .str s.name), ("path", .str s.path), ("analyzed_at", .str s.time),
    ("routescope_version", .str programVersion)])]

/-- The summary of a scan and which frameworks it detected, as data. -/
def overviewEntries (s : Scan) : List (String × Value) :=
  [("summary", s.summary), ("detection", .map (s.detection.map fun d => (d.1, .bool d.2)))]

/-- Findings with their numbers, as data. -/
def findingEntries (fs : List Finding) : List (String × Value) :=
  [("findings", .map [("summary", Scan.countsValue (Finding.summary fs)),
    ("items", .list (fs.map Finding.toValue))])]

/-- What an optional part adds to a document. -/
def part
    {α : Type}
    (given : Option α)
    (entries : α → List (String × Value)) :
    List (String × Value) :=
  (given.map entries).getD []

end Parts

section Documents

/-- Adds an item to a group, which is made at the end if it is not there. -/
def addToGroup
    (key : String)
    (v : Value)
    (groups : List (String × List Value)) :
    List (String × List Value) :=
  putEntry key ((entryOf? key groups).getD [] ++ [v]) groups

/-- A route as data without its type. -/
def untyped (r : Route) : Value :=
  match r.toValue with
  | .map entries => .map (entries.filter fun e => e.1 != "type")
  | v => v

/-- The routes by their type, the types in the order in which they first come. -/
def routeGroups (routes : List Route) : List (String × List Value) :=
  routes.foldl (fun groups r => addToGroup r.type (untyped r) groups) []

/-- The routes of a scan in a format. -/
def routesValue
    (f : ReportFormat)
    (routes : List Route) :
    Value :=
  match f with
  | .json => .list (routes.map Route.toValue)
  | .yaml => .map ((routeGroups routes).map fun g => (g.1, .list g.2))

/-- The document of a report in a format. Only supported methods can be put in listing order. -/
def document
    (f : ReportFormat)
    (r : Report) :
    Except Fault (List (String × Value)) := do
  let scanned ←
    match r.scan with
    | none => pure []
    | some s => do
      let routes ← Route.sort s.routes
      pure (overviewEntries s ++ [("routes", routesValue f routes)])
  let subject := match f with
    | .json => part r.subject subjectEntries
    | .yaml => []
  return subject ++ scanned ++ part r.findings findingEntries

/-- A report as a text. Its layout in JSON is given by the number of blanks for each level. -/
def text
    (f : ReportFormat)
    (indent : Option Nat)
    (r : Report) :
    Except Fault String := do
  let entries ← r.document f
  return match f with
    | .json => Json.print indent (.map entries)
    | .yaml => Yaml.print entries

end Documents

section Files

/-- What stands at the top of a file in a format. -/
def fileHeader : ReportFormat → String
  | .json => ""
  | .yaml => "# Routes - Auto-generated by RouteScope\n\n"

/-- The text of a file that holds a report. -/
def fileText
    (f : ReportFormat)
    (indent : Option Nat)
    (r : Report) :
    Except Fault String := do
  return fileHeader f ++ (← r.text f indent)

/-- The files after a report was written; nothing if there is no such report or it cannot be
written. -/
def write?
    (f : ReportFormat)
    (indent : Option Nat)
    (r : Report)
    (t : Tree)
    (p : Path) :
    Option Tree :=
  match r.fileText f indent with
  | .ok s => t.write? p s
  | .error _ => none

/-- How much a report holds, in numbers. -/
def stats
    (f : ReportFormat)
    (r : Report) :
    List (String × Nat) :=
  let routes := (r.scan.map fun s => s.routes.length).getD 0
  match f with
  | .json => [("routes", routes), ("findings", (r.findings.map List.length).getD 0)]
  | .yaml => [("routes", routes)]

end Files

end Report

end RouteAtlas
