import RouteAtlas.Text.Blank
import RouteAtlas.Text.Case

/-!
# Paths

A path is absolute or relative and has components, none of which is empty or a single point. Two
points stay as they are until the path is resolved against a file tree. The suffix of a name starts
at its last point, unless that point is at one of its ends.
-/

namespace RouteAtlas.Files

/-- A path of a file or directory. -/
structure Path where
  isAbsolute : Bool
  components : List String
  deriving DecidableEq, Repr, Inhabited

namespace Path

section Text

/-- The components of a written path, without empty ones and single points. -/
def componentsOf (text : String) : List String :=
  (Text.split '/' text).filter fun c => c != "" && c != "."

/-- The path that a text denotes. -/
def ofText (text : String) : Path :=
  ⟨Text.startsWith text "/", componentsOf text⟩

/-- The root of all absolute paths. -/
def root : Path :=
  ⟨true, []⟩

/-- The written path. -/
def toText (p : Path) : String :=
  let body := Text.joinWith "/" p.components
  if p.isAbsolute then "/" ++ body
  else if p.components.isEmpty then "."
  else body

end Text

section Parts

/-- The path with another below it; an absolute one takes its place. -/
def join
    (p q : Path) :
    Path :=
  if q.isAbsolute then q else ⟨p.isAbsolute, p.components ++ q.components⟩

/-- The path with a written path below it. -/
def append
    (p : Path)
    (text : String) :
    Path :=
  p.join (ofText text)

/-- The path with one more component. -/
def child
    (p : Path)
    (name : String) :
    Path :=
  ⟨p.isAbsolute, p.components ++ [name]⟩

/-- The directory that a path stands in. -/
def parent (p : Path) : Path :=
  ⟨p.isAbsolute, p.components.dropLast⟩

/-- The last component, or the empty text. -/
def name (p : Path) : String :=
  p.components.getLastD ""

/-- The path with another last component. -/
def withName
    (p : Path)
    (name : String) :
    Path :=
  ⟨p.isAbsolute, p.components.dropLast ++ [name]⟩

/-- A name cut before its last point, unless that point is its first or its last character. -/
def cutName (name : String) : String × String :=
  let cs := name.toList
  let tail := (cs.reverse.takeWhile (· != '.')).reverse
  let stem := (cs.take (cs.length - tail.length)).dropLast
  if tail.length == cs.length || tail.isEmpty || stem.isEmpty then (name, "")
  else (String.ofList stem, "." ++ String.ofList tail)

/-- The suffix of the last component, with its point. -/
def suffix (p : Path) : String :=
  (cutName p.name).2

/-- The path whose last component has another suffix. -/
def withSuffix
    (p : Path)
    (suffix : String) :
    Path :=
  p.withName ((cutName p.name).1 ++ suffix)

end Parts

section Relations

/-- The path from a directory down to this one, if it lies below it. -/
def relativeTo?
    (p base : Path) :
    Option Path :=
  if p.isAbsolute == base.isAbsolute then
    let rec go : List String → List String → Option (List String)
      | [], rest => some rest
      | _ :: _, [] => none
      | b :: bs, c :: cs => if b = c then go bs cs else none
    (go base.components p.components).map fun rest => ⟨false, rest⟩
  else none

/-- Whether the path lies below a directory or is it. -/
def isBelow
    (p base : Path) :
    Bool :=
  (p.relativeTo? base).isSome

end Relations

end Path

end RouteAtlas.Files
