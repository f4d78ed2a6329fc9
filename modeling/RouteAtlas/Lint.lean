import RouteAtlas.Procedures.Basic
import RouteAtlas.Text.Pattern

/-!
# Findings

Rules of hygiene for procedures, routers and handlers. Each rule that a record breaks gives a finding
with a severity. Findings are listed with the most severe first, then by file and line.
-/

namespace RouteAtlas

/-- How severe a finding is. -/
inductive Severity where
  | info
  | warn
  | error
  | named (tag : String)
  deriving Repr, DecidableEq, Inhabited

namespace Severity

/-- The tag by which a severity is written. -/
def tag : Severity → String
  | info => "info"
  | warn => "warn"
  | error => "error"
  | named t => t

/-- The severity that a tag denotes. -/
def ofTag (t : String) : Severity :=
  ([info, warn, error].find? fun s => s.tag == t).getD (named t)

/-- The place of a severity in listing order, the most severe first. -/
def rank : Severity → Nat
  | error => 0
  | warn => 1
  | info => 2
  | named _ => 3

end Severity

/-- A rule that a procedure, a router or a handler breaks. -/
structure Finding where
  rule : String
  severity : Severity
  message : String
  filePath : String
  line : Nat
  target : String
  deriving Repr, DecidableEq, Inhabited

namespace Finding

/-- A finding as data. -/
def toValue (f : Finding) : Value :=
  .map [("rule", .str f.rule), ("severity", .str f.severity.tag), ("message", .str f.message),
    ("file_path", .str f.filePath), ("line_number", .int f.line), ("target", .str f.target)]

/-- Whether a finding is listed no later than another. -/
def listedBefore
    (a b : Finding) :
    Bool :=
  if a.severity.rank != b.severity.rank then a.severity.rank < b.severity.rank
  else if a.filePath != b.filePath then a.filePath < b.filePath
  else a.line ≤ b.line

/-- The number of findings of each severity, the usual ones always, and of all findings. -/
def summary (findings : List Finding) : List (String × Nat) :=
  let usual : List (String × Nat) := [("info", 0), ("warn", 0), ("error", 0)]
  let counts := findings.foldl (fun acc f =>
    putEntry f.severity.tag ((entryOf? f.severity.tag acc).getD 0 + 1) acc) usual
  putEntry "total" findings.length counts

end Finding

namespace Lint

open Text (Pattern)

section Names

/-- Whether a name begins with one of the words, in any letter case. -/
def beginsWith
    (words : List String)
    (name : String) :
    Bool :=
  (Pattern.seq .start (.words words)).occursInAnyCase name

/-- Whether a name reads like that of a query. -/
def isQueryLike (name : String) : Bool :=
  beginsWith ["get", "list", "fetch"] name

/-- Whether a name reads like that of a mutation. -/
def isMutationLike (name : String) : Bool :=
  beginsWith ["create", "update", "delete", "set"] name

/-- Whether a name speaks of signing in. -/
def isSensitive (name : String) : Bool :=
  (Pattern.words ["login", "password", "reset", "verify", "email"]).occursInAnyCase name

end Names

section Sizes

/-- Lines above which a function is heavy. -/
def heavyLines : Nat :=
  60

/-- Lines above which a function is much too heavy. -/
def tooHeavyLines : Nat :=
  100

/-- Lines above which a router is too large. -/
def maxRouterLines : Nat :=
  500

/-- How severe it is that a function has so many lines. -/
def heaviness? (lines : Nat) : Option Severity :=
  if tooHeavyLines < lines then some .error
  else if heavyLines < lines then some .warn
  else none

/-- A finding about a long function. -/
def heavy
    (lines : Nat)
    (what filePath : String)
    (line : Nat)
    (target : String) :
    List Finding :=
  (heaviness? lines).toList.map fun severity =>
    ⟨"heavy-logic", severity,
      what ++ " is " ++ toString lines ++ " lines long; move logic into a service", filePath, line,
      target⟩

end Sizes

section Rules

/-- A finding if a condition holds. -/
def findIf
    (condition : Bool)
    (f : Finding) :
    List Finding :=
  if condition then [f] else []

/-- The findings about a procedure. -/
def ofProcedure (p : Procedure) : List Finding :=
  let target := p.qualifiedName
  let at_ (rule : String) (severity : Severity) (message : String) : Finding :=
    ⟨rule, severity, message, p.filePath, p.line, target⟩
  let quoted (s : String) := "'" ++ s ++ "'"
  findIf (!p.hasInput)
      (at_ "missing-input" .warn ("Procedure " ++ quoted target ++ " has no input schema")) ++
    findIf (p.kind = .mutation && isQueryLike p.name)
      (at_ "naming" .warn ("Mutation " ++ quoted p.name ++ " is named like a query")) ++
    findIf (p.kind = .query && isMutationLike p.name)
      (at_ "naming" .warn ("Query " ++ quoted p.name ++ " is named like a mutation")) ++
    findIf (!p.hasOutput)
      (at_ "output-schema" .info ("Procedure " ++ quoted target ++ " has no output schema")) ++
    findIf (p.usesDatabase && !p.handlesErrors)
      (at_ "error-handling" .warn
        ("Procedure " ++ quoted target ++ " accesses the database without error handling")) ++
    heavy p.resolverLines ("Resolver of " ++ quoted target) p.filePath p.line target ++
    findIf (p.kind = .mutation && p.visibility == "public" && isSensitive p.name)
      (at_ "rate-limiting" .error ("Public mutation " ++ quoted target ++ " should be rate limited")) ++
    findIf (p.kind = .query && p.hasSideEffects)
      (at_ "side-effects" .warn
        ("Query " ++ quoted target ++ " has side effects; make it a mutation"))

/-- The last part of a dotted name. -/
def leaf (name : String) : String :=
  String.ofList ((name.toList.reverse.takeWhile (· != '.')).reverse)

/-- The findings about a router. -/
def ofRouter (r : Router.Declaration) : List Finding :=
  let last := leaf r.name
  findIf (!last.isEmpty && !Text.endsWith last "s")
      ⟨"router-naming", .info, "Router '" ++ r.name ++ "' should use a plural name", r.filePath,
        r.line, r.name⟩ ++
    findIf ((maxRouterLines : Int) < r.lineCount)
      ⟨"router-size", .warn,
        "Router '" ++ r.name ++ "' spans " ++ toString r.lineCount ++ " lines; split it",
        r.filePath, r.line, r.name⟩

/-- The findings about a handler. -/
def ofHandler (h : Handler) : List Finding :=
  let target := h.method ++ " " ++ h.path
  let at_ (rule message : String) : Finding := ⟨rule, .warn, message, h.filePath, h.line, target⟩
  findIf (["POST", "PUT", "PATCH"].contains h.method && !h.validates)
      (at_ "missing-validation" (target ++ " accepts a body without validation")) ++
    findIf (h.usesDatabase && !h.handlesErrors)
      (at_ "error-handling" (target ++ " accesses the database without error handling")) ++
    heavy h.lines ("Handler for " ++ target) h.filePath h.line target

end Rules

/-- What is looked at: procedures with their routers, and handlers of other frameworks. -/
structure Subjects where
  procedures : List Procedure
  routers : List Router.Declaration
  handlers : List Handler
  deriving Inhabited

namespace Subjects

/-- Nothing to look at. -/
def empty : Subjects :=
  ⟨[], [], []⟩

/-- Adds handlers; those of procedures are looked at as procedures. -/
def addHandlers
    (s : Subjects)
    (handlers : List Handler) :
    Subjects :=
  { s with handlers := s.handlers ++ handlers.filter fun h => h.framework != .trpc }

/-- All findings, the most severe first. -/
def findings (s : Subjects) : List Finding :=
  (s.procedures.flatMap ofProcedure ++ s.routers.flatMap ofRouter ++
    s.handlers.flatMap ofHandler).mergeSort Finding.listedBefore

end Subjects

end Lint

end RouteAtlas
