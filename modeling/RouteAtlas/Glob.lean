import RouteAtlas.Text.Blank

/-!
# Globs

A glob describes a set of relative paths. Alternatives in braces are chosen first, one after the
other from the left. In what remains, `**/` stands for any number of directories, `**` for anything
on one line, `*` for any run of characters inside one path component and `?` for one of them. A
path matches when the whole of it is described, a line break at its very end aside.
-/

namespace RouteAtlas

namespace Glob

section Braces

/-- A text cut at a group in braces: what stands before it, its inside and what follows. -/
structure Cut where
  before : List Char
  inside : List Char
  after : List Char

/-- The inside of a group and what follows it, when the group closes before another brace. -/
def closing? : List Char → Option (List Char × List Char)
  | [] => none
  | c :: rest =>
    if c = '\x7d' then some ([], rest)
    else if c = '\x7b' then none
    else (closing? rest).map fun r => (c :: r.1, r.2)

/-- The first group in braces that holds no brace itself. -/
def firstGroup? : List Char → Option Cut
  | [] => none
  | c :: rest =>
    let later := (firstGroup? rest).map fun cut => ⟨c :: cut.before, cut.inside, cut.after⟩
    if c = '\x7b' then
      match closing? rest with
      | some (inside, after) => some ⟨[], inside, after⟩
      | none => later
    else later

/-- Chooses the alternatives of so many groups, each time those of the first one. -/
def expandGroups : Nat → List Char → List (List Char)
  | 0, cs => [cs]
  | n + 1, cs =>
    match firstGroup? cs with
    | none => [cs]
    | some cut =>
      (Text.splitOn ',' cut.inside).flatMap fun choice =>
        expandGroups n (cut.before ++ choice ++ cut.after)

/-- All choices of one alternative for every group. A choice removes one opening brace, so their
number bounds the steps. -/
def expandChars (cs : List Char) : List (List Char) :=
  expandGroups (cs.count '\x7b') cs

/-- All choices of one alternative for every group in braces. -/
def expandBraces (pattern : String) : List String :=
  (expandChars pattern.toList).map String.ofList

end Braces

section Steps

/-- One step of a glob without braces. -/
inductive Step where
  | directories
  | anything
  | piece
  | one
  | exactly (c : Char)
  deriving Repr, DecidableEq

/-- The steps of a glob with forward slashes. -/
def steps : List Char → List Step
  | [] => []
  | '*' :: '*' :: '/' :: rest => .directories :: steps rest
  | '*' :: '*' :: rest => .anything :: steps rest
  | '*' :: rest => .piece :: steps rest
  | '?' :: rest => .one :: steps rest
  | c :: rest => .exactly c :: steps rest

/-- A path with backslashes read as slashes. -/
def forwardSlashes (cs : List Char) : List Char :=
  cs.map fun c => if c = '\\' then '/' else c

/-- The steps of a glob as it is written: slashes of both kinds, an optional leading `./`. -/
def stepsOf (pattern : List Char) : List Step :=
  match forwardSlashes pattern with
  | '.' :: '/' :: rest => steps rest
  | cs => steps cs

end Steps

section Matching

/-- Whether the continuation accepts what is left after some run of allowed characters. -/
def afterRun
    (allowed : Char → Bool)
    (next : List Char → Bool) :
    List Char → Bool
  | [] => next []
  | c :: rest => next (c :: rest) || (allowed c && afterRun allowed next rest)

/-- Whether the continuation accepts what is left after some number of whole directories. The flag
says that a directory name has been started. -/
def afterDirectories
    (next : List Char → Bool) :
    Bool → List Char → Bool
  | false, [] => next []
  | true, [] => false
  | false, c :: rest => next (c :: rest) || (c != '/' && afterDirectories next true rest)
  | true, c :: rest => afterDirectories next (c != '/') rest

/-- Whether a list of steps describes a whole path. -/
def accepts : List Step → List Char → Bool
  | [], cs => cs = [] || cs = ['\n']
  | .directories :: more, cs => afterDirectories (accepts more) false cs
  | .anything :: more, cs => afterRun (· != '\n') (accepts more) cs
  | .piece :: more, cs => afterRun (· != '/') (accepts more) cs
  | .one :: more, cs =>
    match cs with
    | [] => false
    | c :: rest => c != '/' && accepts more rest
  | .exactly d :: more, cs =>
    match cs with
    | [] => false
    | c :: rest => c = d && accepts more rest

end Matching

/-- A list of globs, ready to be matched: one list of steps for each choice of alternatives. -/
structure Matcher where
  alternatives : List (List Step)

namespace Matcher

/-- The matcher for a list of globs. -/
def ofPatterns (patterns : List String) : Matcher :=
  ⟨patterns.flatMap fun p => (expandChars p.toList).map stepsOf⟩

/-- Whether there is no glob to match. -/
def isEmpty (m : Matcher) : Bool :=
  m.alternatives.isEmpty

/-- Whether some glob describes the path. -/
def accepts
    (m : Matcher)
    (path : String) :
    Bool :=
  let cs := forwardSlashes path.toList
  m.alternatives.any fun steps => Glob.accepts steps cs

end Matcher

section Directories

/-- A glob whose last component has neither a wildcard nor a dot names a directory and stands for
everything below it. -/
def asDirectory (pattern : String) : String :=
  let cs := Text.dropLastWhile (· = '/') pattern.toList
  let last := (Text.splitOn '/' cs).getLastD []
  if last.any fun c => c = '*' || c = '?' || c = '.' then String.ofList cs
  else String.ofList cs ++ "/**/*"

end Directories

end Glob

end RouteAtlas
