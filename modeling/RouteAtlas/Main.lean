import RouteAtlas.CommandLine.Display
import Std.Time

/-!
# The program

Reads the files that a command line speaks of into a file tree, runs the command, prints its output
and writes its files. Links are kept as links to what they stand for.
-/

open RouteAtlas

namespace RouteAtlas.Main

open Files

/-- Names of directories that are not read. -/
def skippedNames : List String :=
  ["node_modules", ".git"]

/-- Whether the content of a file of a name may be needed. -/
def isReadable (name : String) : Bool :=
  [".ts", ".tsx", ".mts", ".cts", ".js", ".jsx", ".mjs", ".cjs", ".json", ".yaml", ".yml"].any
    (Text.endsWith name)

/-- The content of bytes. -/
def contentOf (bytes : ByteArray) : Content :=
  match String.fromUTF8? bytes with
  | some s => .text s
  | none => .bytes (bytes.toList.map UInt8.toNat)

/-- Reads the tree below a path. -/
partial def readEntry (path : String) : IO Entry := do
  let here := (← IO.currentDir) / path
  if ← here.isDir then
    let mut entries := #[]
    for e in ← here.readDir do
      if !skippedNames.contains e.fileName then
        let below := path ++ "/" ++ e.fileName
        let isLink := (← e.path.symlinkMetadata).type matches .symlink
        let entry ←
          if isLink then
            try pure (.link (← IO.FS.realPath e.path).toString)
            catch _ => pure (.file (.text ""))
          else readEntry below
        entries := entries.push (e.fileName, entry)
    return .directory entries.toList
  else if isReadable path then
    return .file (contentOf (← IO.FS.readBinFile here))
  else
    return .file (.text "")

/-- The paths that a word of a command line may hold. -/
def pathsIn (word : String) : List String :=
  let cs := word.toList
  let afterEquals := (cs.dropWhile (· != '=')).drop 1
  ([word, String.ofList afterEquals, String.ofList (cs.drop 2)]).filter fun s => !s.isEmpty

/-- The tree with what lies at a path, if anything does. -/
def addPath
    (current : Path)
    (t : Tree)
    (path : String) :
    IO Tree := do
  let absolute := current.append path
  let here := (← IO.currentDir) / absolute.toText
  if ← here.pathExists then
    return t.insert (t.resolve absolute) (← readEntry absolute.toText)
  else
    return t

/-- The tree with the data files in a directory and in those above it, which a configuration may
build on. -/
def addSettingsAbove
    (t : Tree)
    (directory : Path) :
    IO Tree := do
  let mut t := t
  for d in Tree.above directory ++ [directory] do
    let here := (← IO.currentDir) / d.toText
    if ← here.isDir then
      for e in ← here.readDir do
        if Text.endsWith e.fileName ".json" && !t.exists_ (d.child e.fileName) then
          t := t.insert (d.child e.fileName) (← readEntry (d.child e.fileName).toText)
  return t

/-- Writes a text to a file and makes the directories on the way. -/
def writeText
    (p : Path)
    (text : String) :
    IO Unit := do
  let here := (← IO.currentDir) / p.toText
  IO.FS.createDirAll ((← IO.currentDir) / p.parent.toText)
  IO.FS.writeFile here text

/-- The time at which the program runs. -/
def now : IO String := do
  return (← Std.Time.PlainDateTime.now).toLeanDateTimeString

end RouteAtlas.Main

/-- Runs a command line and gives its code. -/
def main (words : List String) : IO UInt32 := do
  let current := Files.Path.ofText (← IO.currentDir).toString
  let start : Files.Tree := (⟨.directory []⟩ : Files.Tree).insert current (.directory [])
  let paths := words.flatMap Main.pathsIn
  let read ← paths.foldlM (Main.addPath current) start
  let files ← paths.foldlM (fun t p => Main.addSettingsAbove t (current.append p).parent) read
  let outcome := CommandLine.run ⟨files, current, ← Main.now⟩ words
  for m in outcome.messages do
    IO.eprintln m
  for (p, text) in outcome.written do
    Main.writeText p text
  for x in outcome.printed do
    IO.print x.text
  return outcome.exitCode.toUInt32
