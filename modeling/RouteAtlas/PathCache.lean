import RouteAtlas.Files.Path

/-!
# Remembered paths

The path that was derived for a file of a project is kept, together with the time at which the file
was last changed. It is derived anew when that time is another one.
-/

namespace RouteAtlas

open Files

/-- A path that was derived for a file, which had been changed at a time if it was there. -/
structure RememberedPath where
  root : Path
  file : Path
  changed : Option Int
  value : String
  deriving Repr, DecidableEq, Inhabited

/-- The paths that were derived so far, at most one for each file of a project. -/
structure PathCache where
  entries : List RememberedPath
  deriving Repr, Inhabited

namespace PathCache

/-- No path at all. -/
def empty : PathCache :=
  ⟨[]⟩

/-- The number of remembered paths. -/
def size (c : PathCache) : Nat :=
  c.entries.length

/-- Whether an entry is for a file of a project. -/
def isFor
    (root file : Path)
    (e : RememberedPath) :
    Bool :=
  e.root = root && e.file = file

/-- The path that is remembered for a file of a project as it is now. -/
def find?
    (c : PathCache)
    (root file : Path)
    (changed : Option Int) :
    Option String :=
  match c.entries.find? (isFor root file) with
  | some e => if e.changed = changed then some e.value else none
  | none => none

/-- Remembers a path in place of the one that was remembered before. -/
def insert
    (c : PathCache)
    (e : RememberedPath) :
    PathCache :=
  ⟨c.entries.filter (fun f => !isFor e.root e.file f) ++ [e]⟩

/-- The path of a file of a project: the remembered one, or else the given one, which is remembered
from then on. -/
def getOrInsert
    (c : PathCache)
    (root file : Path)
    (changed : Option Int)
    (value : Unit → String) :
    String × PathCache :=
  match c.find? root file changed with
  | some v => (v, c)
  | none =>
    let v := value ()
    (v, c.insert ⟨root, file, changed, v⟩)

end PathCache

end RouteAtlas
