import RouteAtlas.Text.Pattern
import RouteAtlas.Value

/-!
# What the text of a handler suggests

Phrases in the text of a handler suggest what it does: that it reads a database, checks its input,
handles errors, sets response headers or reads query parameters. They are hints for reviewing a
project and for filling in example requests, found without looking at the meaning of the code.
-/

namespace RouteAtlas.FileRoutes

open Text (Pattern)

namespace Evidence

section Phrases

/-- A phrase that begins a word. -/
def wordStart (texts : List String) : Pattern :=
  .seq (.boundary true) (.words texts)

/-- Calls and objects that reach a database or a remote service. -/
def database : Pattern :=
  wordStart ["prisma.", "drizzle.", "db.", "query(", "execute(", "sql`", "fetch("]

/-- Names of validation libraries and steps, in any letter case. -/
def validation : Pattern :=
  wordStart ["zod", "yup", "joi", "validator", "validate", "schema", "parse"]

/-- Statements that raise or catch an error and answers with an error status. -/
def errorHandling : Pattern :=
  .anyOf [
    .inOrder [.word "try", .many .blank, .word "\x7b"],
    .inOrder [.word "catch", .many .blank, .word "("],
    .inOrder [.word "throw", .some_ .blank, .word "new"],
    .words [".catch(", "NextResponse.error", ".status(4", ".status(5"]]

/-- Names that go with a middleware. -/
def middleware : Pattern :=
  .words ["middleware", "NextRequest", "authenticate", "authorize", "auth("]

/-- Names by which a file serves procedures instead of a route. -/
def procedureMarkers : Pattern :=
  .words ["@trpc/server", "fetchRequestHandler", "createNextApiHandler"]

/-- Calls by which a file serves procedures instead of a route. -/
def procedureAdapters : Pattern :=
  .words ["fetchRequestHandler", "createNextApiHandler"]

end Phrases

section Files

/-- Whether a file serves procedures through an adapter, so that it is no route of its own. -/
def servesProcedures (text : String) : Bool :=
  procedureMarkers.occursIn text && procedureAdapters.occursIn text

/-- Whether a file mentions a middleware. -/
def hasMiddleware (text : String) : Bool :=
  middleware.occursIn text

/-- Whether a file declares itself a server action. -/
def isServerAction (text : String) : Bool :=
  Text.contains text "'use server'" || Text.contains text "\"use server\""

end Files

section Headers

/-- Either quotation mark. -/
def quoteMark : Pattern :=
  .ofClass (.ofText "'\"")

/-- A text in quotation marks, the text being the group of the given index. -/
def quoted (index : Nat) : Pattern :=
  .inOrder [quoteMark, .group index (.some_ (.noneOf "'\"")), quoteMark]

/-- A block of headers in an object literal. -/
def headerBlock : Pattern :=
  .inOrder [.word "headers:", .many .blank, .word "\x7b", .group 1 (.some_ (.noneOf "\x7d")),
    .word "\x7d"]

/-- A header in such a block. -/
def headerEntry : Pattern :=
  .inOrder [quoted 1, .many .blank, .word ":", .many .blank, quoted 2]

/-- Two quoted arguments of a call whose text up to the parenthesis is given. -/
def callOfTwo (callee : String) : Pattern :=
  .inOrder [.word callee, quoted 1, .many .blank, .word ",", .many .blank, quoted 2, .word ")"]

/-- An answer in JSON. -/
def jsonAnswer : Pattern :=
  .anyOf [.word "NextResponse.json", .word "Response.json",
    .inOrder [.boundary true, .word "res",
      .many (.inOrder [.word ".status(", .many (.noneOf ")"), .word ")"]), .word ".json("]]

/-- The first two groups of every piece that fits. -/
def pairsOf
    (p : Pattern)
    (text : String) :
    List (String × String) :=
  (p.allIn text).map fun m => (m.group 1, m.group 2)

/-- The headers that a handler sets on its answer. An answer in JSON has a content type. -/
def headers (text : String) : List (String × String) :=
  let written :=
    ((headerBlock.allIn text).flatMap fun m => pairsOf headerEntry (m.group 1)) ++
      pairsOf (callOfTwo "res.setHeader(") text ++ pairsOf (callOfTwo "headers().set(") text
  let kept := ofPairs written
  if (entryOf? "Content-Type" kept).isNone && jsonAnswer.occursIn text then
    kept ++ [("Content-Type", "application/json")]
  else
    kept

end Headers

section Query

/-- A query parameter read by name. -/
def searchParameter : Pattern :=
  .inOrder [.word "searchParams.get(", quoted 1, .word ")"]

/-- The object that holds the query parameters of a request. -/
def requestQuery : Pattern :=
  .inOrder [.words ["req", "context"], .word ".query"]

/-- A query parameter read as a property. -/
def queryProperty : Pattern :=
  .inOrder [requestQuery, .word ".", .group 1 (.some_ (.ofClass .word))]

/-- Query parameters read by taking an object apart. -/
def takenApart (source : Pattern) : Pattern :=
  .inOrder [.word "const", .many .blank, .word "\x7b", .group 1 (.some_ (.noneOf "\x7d")),
    .word "\x7d", .many .blank, .word "=", .many .blank, source]

/-- What stands before a separator. -/
def upTo
    (sep : Char)
    (s : String) :
    String :=
  String.ofList (s.toList.takeWhile (· != sep))

/-- The property names in a pattern that takes an object apart. -/
def takenKeys (block : String) : List String :=
  (Text.split ',' block).filterMap fun entry =>
    let key := Text.trim (upTo '=' (upTo ':' (Text.trim entry)))
    if !key.isEmpty && key.toList.all (fun c => Text.isWord c || c = '$') then some key else none

/-- The query parameters that a handler reads, each with an empty example. -/
def query (text : String) : List (String × String) :=
  let first (p : Pattern) := (p.allIn text).map fun m => m.group 1
  let names := first searchParameter ++ first queryProperty ++
    ([.word "searchParams", requestQuery].flatMap fun source =>
      (first (takenApart source)).flatMap takenKeys)
  ofPairs (names.map fun n => (n, ""))

end Query

end Evidence

end RouteAtlas.FileRoutes
