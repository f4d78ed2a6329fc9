import RouteAtlas.Files.Tree
import RouteAtlas.Json.Reader
import RouteAtlas.Route.Basic

/-!
# Detection of frameworks

A project uses a framework when its manifest declares one of the packages of the framework, for
running or for development. A manifest that cannot be read declares nothing.
-/

namespace RouteAtlas

open Files

namespace Manifest

/-- The name of the manifest at the root of a project. -/
def fileName : String :=
  "package.json"

/-- The sections of a manifest that declare packages. -/
def sections : List String :=
  ["dependencies", "devDependencies"]

/-- The packages that the data of a manifest declares. -/
def packagesOf (data : Value) : List (String × Value) :=
  ofPairs (sections.flatMap fun key => ((data.get? key).bind Value.entries?).getD [])

/-- The packages that the manifest of a project declares. -/
def packages
    (t : Tree)
    (root : Path) :
    Except Fault (List (String × Value)) :=
  match t.find? (root.child fileName) with
  | none => .error .fileMissing
  | some (.file content) =>
    match content.text? with
    | none => .error .invalidEncoding
    | some text =>
      match Json.parse text with
      | .ok data => .ok (packagesOf data)
      | .error .malformed => .error .malformedJson
      | .error .tooManyDigits => .error .invalidValue
  | some _ => .error .fileIsDirectory

end Manifest

namespace Framework

/-- The packages of a framework. -/
def packageNames : Framework → List String
  | appRouter | pagesRouter => ["next"]
  | trpc => ["@trpc/server"]
  | nest => ["@nestjs/core", "@nestjs/common"]

/-- The key of a framework in the result of detection. -/
def key : Framework → String
  | appRouter => "nextApp"
  | pagesRouter => "nextPages"
  | trpc => "trpc"
  | nest => "nestjs"

/-- Whether a project uses a framework. -/
def isUsedIn
    (f : Framework)
    (t : Tree)
    (root : Path) :
    Bool :=
  match Manifest.packages t root with
  | .ok declared => f.packageNames.any fun n => declared.any fun e => e.1 == n
  | .error _ => false

end Framework

/-- Which frameworks a project uses. -/
def detection
    (t : Tree)
    (root : Path) :
    List (Framework × Bool) :=
  Framework.all.map fun f => (f, f.isUsedIn t root)

end RouteAtlas
