import RouteAtlas.Text.Blank

/-!
# Arguments

How the words of a command line are read. A word that begins with a hyphen names options: one by a
long name, whose value may follow an equals sign, or several by letters, the last of which may be
followed by its value. The value of an option is otherwise the next word. Two hyphens end the options.
-/

namespace RouteAtlas.CommandLine

/-- An option: its key, the names by which it is given, and whether it has a value. -/
structure Switch where
  key : String
  names : List String
  takesValue : Bool
  deriving Repr, Inhabited

/-- The words of a command line: its options with their values, in the order in which they are given,
and the other words. -/
structure Arguments where
  options : List (String × String)
  words : List String
  deriving Repr, Inhabited

namespace Arguments

section Access

/-- No words at all. -/
def empty : Arguments :=
  ⟨[], []⟩

/-- Whether an option is given. -/
def has
    (a : Arguments)
    (key : String) :
    Bool :=
  a.options.any fun o => o.1 == key

/-- All values of an option, in order. -/
def valuesOf
    (a : Arguments)
    (key : String) :
    List String :=
  (a.options.filter fun o => o.1 == key).map Prod.snd

/-- The value of an option; the last one counts. -/
def value?
    (a : Arguments)
    (key : String) :
    Option String :=
  (a.valuesOf key).getLast?

end Access

section Reading

/-- The option of a name. -/
def switch?
    (switches : List Switch)
    (name : String) :
    Option Switch :=
  switches.find? fun s => s.names.contains name

/-- The options that one word names, and the key of the one whose value is the next word. -/
structure Named where
  options : List (String × String)
  pending : Option String

/-- The option of a long name with a value that may follow an equals sign. A value for an option that
has none is an error. -/
def readLong?
    (switches : List Switch)
    (word : String) :
    Option (Option Named) :=
  let name := String.ofList (word.toList.takeWhile (· != '='))
  let value := word.toList.dropWhile (· != '=')
  (switch? switches name).map fun s =>
    match s.takesValue, value with
    | true, [] => some ⟨[], some s.key⟩
    | true, _ :: v => some ⟨[(s.key, String.ofList v)], none⟩
    | false, [] => some ⟨[(s.key, "")], none⟩
    | false, _ :: _ => none

/-- The options that letters stand for. -/
def readLetters?
    (switches : List Switch) :
    List Char → Option Named
  | [] => some ⟨[], none⟩
  | c :: rest => do
    let s ← switch? switches (String.ofList ['-', c])
    match s.takesValue, rest with
    | true, [] => return ⟨[], some s.key⟩
    | true, v => return ⟨[(s.key, String.ofList v)], none⟩
    | false, rest =>
      let later ← readLetters? switches rest
      return ⟨(s.key, "") :: later.options, later.pending⟩

/-- The options that a word with a hyphen in front names. -/
def readNamed?
    (switches : List Switch)
    (word : String) :
    Option Named :=
  match readLong? (switches.map fun s => { s with names := s.names.filter fun n => 2 < n.length })
    word with
  | some found => found
  | none =>
    if Text.startsWith word "--" then none
    else readLetters? switches (word.toList.drop 1)

/-- Reads the words of a command line, or fails on a word that names no option and on a missing
value. Options stop at the first other word if they may not follow one. -/
def read?
    (switches : List Switch)
    (mixed : Bool) :
    List String → Option Arguments
  | [] => some empty
  | word :: rest =>
    if word == "--" then some ⟨[], rest⟩
    else if Text.startsWith word "-" && word != "-" then
      match readNamed? switches word, rest with
      | none, _ => none
      | some ⟨options, none⟩, rest => do
        let later ← read? switches mixed rest
        return ⟨options ++ later.options, later.words⟩
      | some ⟨_, some _⟩, [] => none
      | some ⟨options, some key⟩, value :: rest => do
        let later ← read? switches mixed rest
        return ⟨options ++ (key, value) :: later.options, later.words⟩
    else if mixed then do
      let later ← read? switches mixed rest
      return ⟨later.options, word :: later.words⟩
    else some ⟨[], word :: rest⟩

end Reading

end Arguments

end RouteAtlas.CommandLine
