import RouteAtlas.Report

/-!
# Help

What the command line says about itself: the commands with their options, the version, and what the
program can do.
-/

namespace RouteAtlas.CommandLine

/-- The name of the program. -/
def programName : String :=
  "routescope"

/-- What help can be about: all commands, or one of them. -/
inductive Topic where
  | commands
  | detect
  | scan
  | analyze
  | info
  deriving Repr, DecidableEq, Inhabited

namespace Topic

section Lines

/-- The line about the option for help. -/
def helpLine (width : Nat) : String :=
  "  --help" ++ String.ofList (List.replicate (width - 8) ' ') ++ "Show this message and exit."

/-- The lines of the help about a topic. -/
def lines : Topic → List String
  | commands =>
    ["Usage: " ++ programName ++ " [OPTIONS] COMMAND [ARGS]...", "",
      "  RouteScope - HTTP route discovery for TypeScript projects", "",
      "  Finds Next.js, tRPC and NestJS endpoints by static analysis.", "", "Options:",
      "  --version  Show the version and exit.", helpLine 13, "", "Commands:",
      "  analyze  Lint the routes and tRPC procedures of a project.",
      "  detect   Detect which supported frameworks a project declares.",
      "  info     Show information about RouteScope.",
      "  scan     Discover the HTTP routes of a project."]
  | detect =>
    ["Usage: " ++ programName ++ " detect [OPTIONS] PROJECT_PATH", "",
      "  Detect which supported frameworks a project declares.", "",
      "  PROJECT_PATH: Path to the project root (containing package.json)", "", "Options:",
      "  -v, --verbose  Verbose output", helpLine 17]
  | scan =>
    ["Usage: " ++ programName ++ " scan [OPTIONS] PROJECT_PATH", "",
      "  Discover the HTTP routes of a project.", "", "  PROJECT_PATH: Path to the project root", "",
      "Options:",
      "  -f, --format [table|json|yaml]  Output format",
      "  -o, --output PATH               Write the export to this file",
      "  --tsconfig FILE                 tsconfig.json to use",
      "  --framework [nextjs-app|nextjs-page|trpc|nestjs]",
      "                                  Only scan these frameworks (repeatable)",
      "  -c, --config FILE               RouteScope config file",
      "  -v, --verbose                   Verbose output", helpLine 34]
  | analyze =>
    ["Usage: " ++ programName ++ " analyze [OPTIONS] PROJECT_PATH", "",
      "  Lint the routes and tRPC procedures of a project.", "",
      "  PROJECT_PATH: Path to the project root", "", "Options:",
      "  --tsconfig FILE    tsconfig.json to use",
      "  -c, --config FILE  RouteScope config file",
      "  -o, --output PATH  Write findings as JSON to this file",
      "  --strict           Exit non-zero when any error-level finding exists",
      "  -v, --verbose      Verbose output", helpLine 21]
  | info =>
    ["Usage: " ++ programName ++ " info [OPTIONS]", "", "  Show information about RouteScope.", "",
      "Options:", helpLine 10]

end Lines

end Topic

section About

/-- The line about the version. -/
def versionLine : String :=
  programName ++ ", version " ++ programVersion

/-- The lines about what the program can do. -/
def aboutLines : List String :=
  let capabilities := ["Detect Next.js, tRPC and NestJS from package.json",
    "Next.js App Router route handlers",
    "Next.js Pages Router API routes (method inference)",
    "tRPC procedures with nested router composition",
    "NestJS controllers, global prefix and versioning",
    "Example bodies from zod schemas and TypeScript types", "Route lint rules",
    "Export JSON and YAML"]
  let examples := ["detect ~/my_app", "scan ~/my_app", "scan ~/my_app -f json -o routes.json",
    "analyze ~/my_app --strict"]
  ["", "RouteScope v" ++ programVersion, "HTTP route discovery for TypeScript projects", "",
    "Capabilities:"] ++ capabilities.map (fun c => "  ✓ " ++ c) ++ ["", "Quick Start:"] ++
    examples.map (fun e => "  " ++ programName ++ " " ++ e) ++ [""]

end About

end RouteAtlas.CommandLine
