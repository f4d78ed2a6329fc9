import RouteAtlas.Files.Path
import RouteAtlas.Text.Utf8

/-!
# File trees

A snapshot of a file system: directories, files and symbolic links. Paths are resolved against it
link by link. A walk lists the files of a directory before those of its subdirectories, both in
order of their names, and enters no directory through a link.
-/

namespace RouteAtlas.Files

/-- The content of a file: a text, or bytes that need not be one. -/
inductive Content where
  | text (s : String)
  | bytes (bs : List Nat)
  deriving Inhabited

namespace Content

/-- The text of a content that is one. -/
def text? : Content → Option String
  | .text s => some s
  | .bytes bs => Text.Utf8.text? bs

/-- The text of a content, with replacement characters where it is none. -/
def lenientText : Content → String
  | .text s => s
  | .bytes bs => Text.Utf8.lenientText bs

end Content

/-- What a name in a directory stands for. -/
inductive Entry where
  | file (content : Content)
  | directory (entries : List (String × Entry))
  | link (target : String)
  deriving Inhabited

/-- A file tree, from the root of all absolute paths. -/
structure Tree where
  root : Entry
  deriving Inhabited

namespace Entry

section Access

/-- The entry of a name in a directory. -/
def lookup? (name : String) : List (String × Entry) → Option Entry
  | [] => none
  | (n, e) :: rest => if n = name then some e else lookup? name rest

/-- The entry at a list of names, no link being followed. -/
def get? : Entry → List String → Option Entry
  | e, [] => some e
  | .directory entries, name :: rest =>
    match lookup? name entries with
    | some e => e.get? rest
    | none => none
  | _, _ :: _ => none

/-- Puts an entry under a name of a directory, in place of the one that has it. -/
def put
    (name : String)
    (e : Entry) :
    List (String × Entry) → List (String × Entry)
  | [] => [(name, e)]
  | (n, old) :: rest => if n = name then (n, e) :: rest else (n, old) :: put name e rest

/-- The tree with an entry at a list of names; directories on the way are made as needed. -/
def insert
    (e : Entry) :
    List String → Entry → Entry
  | [], _ => e
  | name :: rest, here =>
    let entries :=
      match here with
      | .directory entries => entries
      | _ => []
    let below := (lookup? name entries).getD (.directory [])
    .directory (put name (insert e rest below) entries)

/-- The tree without the entry at a list of names. -/
def erase :
    List String → Entry → Entry
  | [], here => here
  | [name], .directory entries => .directory (entries.filter fun p => p.1 != name)
  | name :: next :: rest, .directory entries =>
    match lookup? name entries with
    | some below => .directory (put name (erase (next :: rest) below) entries)
    | none => .directory entries
  | _ :: _, here => here

/-- Whether the entry is a directory itself. -/
def isDirectory : Entry → Bool
  | .directory _ => true
  | _ => false

end Access

end Entry

namespace Tree

section Resolving

mutual

/-- The places of the links in a tree. -/
def linkPlaces : Entry → List (List String)
  | .file _ => []
  | .directory entries => linkPlacesIn entries
  | .link _ => [[]]

/-- The places of the links in the entries of a directory. -/
def linkPlacesIn : List (String × Entry) → List (List String)
  | [] => []
  | (name, e) :: rest => (linkPlaces e).map (name :: ·) ++ linkPlacesIn rest

end

/-- Follows a path component by component to its end. Names that do not exist are kept, and so is a
link that is being followed already; the target of any other link is followed by the first argument,
which is given the places of the link and of its directory. -/
def resolveWith
    (t : Tree)
    (follow : List String → List String → List String → List String)
    (active : List (List String)) :
    List String → List String → List String
  | done, [] => done
  | done, c :: rest =>
    if c == ".." then resolveWith t follow active done.dropLast rest
    else
      match t.root.get? (done ++ [c]) with
      | some (.link target) =>
        if active.contains (done ++ [c]) then resolveWith t follow active (done ++ [c]) rest
        else
          let p := Path.ofText target
          let place := follow (done ++ [c]) (if p.isAbsolute then [] else done) p.components
          resolveWith t follow active place rest
      | _ => resolveWith t follow active (done ++ [c]) rest

/-- Follows a path and the targets of links on it. The first argument bounds how deep links may be
nested, the second one holds the places of the links that are being followed. -/
def resolveFrom
    (t : Tree) :
    Nat → List (List String) → List String → List String → List String
  | 0, active => resolveWith t (fun link _ _ => link) active
  | depth + 1, active =>
    resolveWith t (fun link => resolveFrom t depth (link :: active)) active

/-- An absolute path without double points, and without links other than those that lead back to
themselves. -/
def resolve
    (t : Tree)
    (p : Path) :
    Path :=
  ⟨true, resolveFrom t (linkPlaces t.root).length [] [] p.components⟩

/-- The greatest number of links that are followed to something that exists. -/
def maxLinks : Nat :=
  40

/-- Follows a path to something that exists, up to the end or to the first link. The rest of the way
from a link is followed by the first argument, if there is one. -/
def locateWith?
    (t : Tree)
    (follow? : Option (List String → List String → Option (List String))) :
    List String → List String → Option (List String)
  | done, [] => some done
  | done, c :: rest =>
    if c == ".." then locateWith? t follow? done.dropLast rest
    else
      match t.root.get? (done ++ [c]) with
      | none => none
      | some (.link target) =>
        match follow? with
        | none => none
        | some follow =>
          let p := Path.ofText target
          follow (if p.isAbsolute then [] else done) (p.components ++ rest)
      | some (.directory _) => locateWith? t follow? (done ++ [c]) rest
      | some (.file _) => if rest.isEmpty then some (done ++ [c]) else none

/-- Follows the links of a path to something that exists. The first argument is the number of links
that may still be followed. -/
def locateFrom?
    (t : Tree) :
    Nat → List String → List String → Option (List String)
  | 0 => locateWith? t none
  | left + 1 => locateWith? t (some (locateFrom? t left))

/-- What a path stands for after following all links. -/
def find?
    (t : Tree)
    (p : Path) :
    Option Entry :=
  (locateFrom? t maxLinks [] p.components).bind t.root.get?

/-- Whether a path stands for something. -/
def exists_
    (t : Tree)
    (p : Path) :
    Bool :=
  (t.find? p).isSome

/-- Whether a path stands for a file. -/
def isFile
    (t : Tree)
    (p : Path) :
    Bool :=
  match t.find? p with
  | some (.file _) => true
  | _ => false

/-- Whether a path stands for a directory. -/
def isDirectory
    (t : Tree)
    (p : Path) :
    Bool :=
  match t.find? p with
  | some (.directory _) => true
  | _ => false

/-- The content of the file that a path stands for. -/
def content?
    (t : Tree)
    (p : Path) :
    Option Content :=
  match t.find? p with
  | some (.file c) => some c
  | _ => none

end Resolving

section Changing

/-- The tree with an entry at an absolute path. -/
def insert
    (t : Tree)
    (p : Path)
    (e : Entry) :
    Tree :=
  ⟨Entry.insert e p.components t.root⟩

/-- The tree without the entry at an absolute path. -/
def erase
    (t : Tree)
    (p : Path) :
    Tree :=
  ⟨Entry.erase p.components t.root⟩

/-- The directories above an absolute path. -/
def above (p : Path) : List Path :=
  (List.range p.components.length).map fun n => ⟨true, p.components.take n⟩

/-- The tree after a text was written to a file, directories on the way being made; nothing if a
directory is in the place of the file, or a file in the place of a directory. -/
def write?
    (t : Tree)
    (p : Path)
    (text : String) :
    Option Tree :=
  let target := t.resolve p
  if t.isDirectory target || (above target).any fun d => t.exists_ d && !t.isDirectory d then none
  else some (t.insert target (.file (.text text)))

end Changing

section Walking

/-- Entries of a directory in the order of their names. -/
def sortEntries (entries : List (String × Entry)) : List (String × Entry) :=
  entries.mergeSort fun a b => !decide (b.1 < a.1)

mutual

/-- The number of directories in a tree, links not followed. -/
def directoryCount : Entry → Nat
  | .directory entries => 1 + directoryCounts entries
  | _ => 0

/-- The number of directories in the entries of a directory. -/
def directoryCounts : List (String × Entry) → Nat
  | [] => 0
  | (_, e) :: rest => directoryCount e + directoryCounts rest

end

/-- The paths of the files below a directory whose entries are given: names that are no directory,
even through a link. The first argument bounds the depth, the last one says which subdirectories
are entered. -/
def walkEntries
    (t : Tree)
    (enter : String → Bool) :
    Nat → Path → List (String × Entry) → List Path
  | 0, _, _ => []
  | depth + 1, base, entries =>
    let sorted := sortEntries entries
    let files := sorted.filterMap fun e =>
      let p := base.child e.1
      if t.isDirectory p then none else some p
    let below := sorted.flatMap fun e =>
      match e.2 with
      | .directory inner =>
        if enter e.1 then walkEntries t enter depth (base.child e.1) inner else []
      | _ => []
    files ++ below

/-- The paths of the files below a directory. -/
def walk
    (t : Tree)
    (enter : String → Bool)
    (base : Path) :
    List Path :=
  match t.find? base with
  | some (.directory entries) =>
    walkEntries t enter (directoryCount (.directory entries)) base entries
  | _ => []

end Walking

end Tree

end RouteAtlas.Files
