import RouteAtlas.Text.Blank
import RouteAtlas.Text.Case
import RouteAtlas.Text.Word

/-!
# Router names

Routers are declared and mounted under varying spellings: `authRouter`, `createPostRouter`,
`user_router` and `api.router` name the routers `auth`, `post`, `user` and `api`. The canonical name
drops such decoration, joins the words in camel case and starts with a small letter.
-/

namespace RouteAtlas.Router

section Decoration

/-- Whether two texts are equal up to letter case. -/
def sameLetters
    (a b : List Char) :
    Bool :=
  a.map Text.foldCase = b.map Text.foldCase

/-- Drops an ending in any letter case; a line break may stand after it and stays. -/
def withoutEnding?
    (ending cs : List Char) :
    Option (List Char) :=
  let keep := cs.length - ending.length
  if ending.length ≤ cs.length && sameLetters (cs.drop keep) ending then some (cs.take keep)
  else
    match cs.reverse with
    | '\n' :: body =>
      let body := body.reverse
      let keep := body.length - ending.length
      if ending.length ≤ body.length && sameLetters (body.drop keep) ending then
        some (body.take keep ++ ['\n'])
      else none
    | _ => none

/-- Drops the word router from the end. -/
def withoutRouter (cs : List Char) : List Char :=
  (withoutEnding? "router".toList cs).getD cs

/-- Drops a property access of a router from the end. -/
def withoutAccess (cs : List Char) : List Char :=
  match withoutEnding? ".router".toList cs with
  | some kept => kept
  | none => (withoutEnding? ".trpc".toList cs).getD cs

/-- Verbs that start the name of a function that makes a router. -/
def makerVerbs : List (List Char) :=
  ["create".toList, "build".toList, "make".toList, "use".toList]

/-- Drops a verb in front of a capital letter. -/
def withoutMaker (cs : List Char) : List Char :=
  let kept := makerVerbs.findSome? fun verb =>
    match Text.afterStart? verb cs with
    | some (c :: rest) => if c.isUpper then some (c :: rest) else none
    | _ => none
  kept.getD cs

end Decoration

section Words

/-- The characters that separate the words of a name. -/
def isSeparator (c : Char) : Bool :=
  c = '.' || c = '_' || c = '-'

/-- What a run of separators becomes when no word follows it: all up to its last underscore, the
first character aside, shrinks to one underscore. -/
def loneSeparators (run : List Char) : List Char :=
  match run with
  | [] => []
  | c :: rest =>
    if rest.contains '_' then '_' :: (rest.reverse.takeWhile (· != '_')).reverse else c :: rest

/-- Joins words in camel case: separators go, and the character after them is put in upper case.
The second argument is the run of separators just read. -/
def camelCase : List Char → List Char → List Char
  | run, [] => loneSeparators run
  | run, c :: rest =>
    if isSeparator c then camelCase (run ++ [c]) rest
    else if run.isEmpty then c :: camelCase [] rest
    else if Text.isWord c then Text.upperChar c ++ camelCase [] rest
    else loneSeparators run ++ c :: camelCase [] rest

/-- Puts the first letter of a name in lower case. -/
def lowerFirst : List Char → List Char
  | [] => []
  | c :: rest => Text.lowerChar c ++ rest

end Words

/-- The canonical name of a router, as a list of characters. -/
def canonicalChars (cs : List Char) : List Char :=
  lowerFirst (camelCase []
    (Text.dropEnds isSeparator (withoutRouter (withoutMaker (withoutAccess cs)))))

/-- The canonical name of a router. It is empty when a name is nothing but decoration. -/
def canonicalName (name : String) : String :=
  String.ofList (canonicalChars name.toList)

/-- The canonical name of a router, or the name itself when nothing is left of it. -/
def indexName (name : String) : String :=
  let short := canonicalName name
  if short.isEmpty then name else short

end RouteAtlas.Router
