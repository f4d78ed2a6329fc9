import RouteAtlas.Yaml.Token

/-!
# YAML trees

The tokens of a YAML text as a tree of scalars, sequences and mappings. A reference stands for the
tree that its anchor names, which has to be complete before it is referred to. A text holds at most
one document.
-/

namespace RouteAtlas.Yaml

/-- A tree of scalars, sequences and mappings, each with the tag that it is written with. -/
inductive Tree where
  | scalar (tag : Option String) (text : String) (isPlain : Bool)
  | sequence (tag : Option String) (items : List Tree)
  | mapping (tag : Option String) (entries : List (Tree × Tree))
  deriving Inhabited

namespace Tree

/-- Tokens that are left, and the trees that anchors name. -/
structure Reading where
  rest : List Token
  anchors : List (String × Tree)

/-- A step of reading, which may refuse the tokens. -/
abbrev ReadStep :=
  StateT Reading Option

section Steps

/-- The next token. -/
def peek : ReadStep (Option Token) := do
  return (← get).rest.head?

/-- Takes a given token if it comes next. -/
def takes (t : Token) : ReadStep Bool := do
  let s ← get
  match s.rest with
  | u :: rest =>
    if u = t then
      set { s with rest := rest }
      return true
    else return false
  | [] => return false

/-- Takes a token that has to come next. -/
def needs (t : Token) : ReadStep Unit := do
  if !(← takes t) then failure

/-- Whether one of the given tokens, or none at all, comes next. -/
def atEnd (stops : List Token) : ReadStep Bool := do
  match ← peek with
  | none => return true
  | some t => return stops.contains t

/-- A scalar that is not written. -/
def nothing : Tree :=
  .scalar none "" true

/-- The anchor and the tag in front of a tree. -/
def properties : ReadStep (Option String × Option String) := do
  let anchor : ReadStep (Option String) := do
    match ← peek with
    | some (.anchor a) =>
      let _ ← takes (.anchor a)
      return some a
    | _ => return none
  let tag : ReadStep (Option String) := do
    match ← peek with
    | some (.tag t) =>
      let _ ← takes (.tag t)
      return some t
    | _ => return none
  match ← anchor with
  | some a => return (some a, ← tag)
  | none =>
    match ← tag with
    | some t => return (← anchor, some t)
    | none => return (none, none)

/-- Remembers the tree that an anchor names. No two trees have one anchor. -/
def remember
    (anchor : Option String)
    (t : Tree) :
    ReadStep Tree := do
  match anchor with
  | none => return t
  | some a =>
    let s ← get
    if s.anchors.any fun e => e.1 == a then
      failure
    else
      set { s with anchors := (a, t) :: s.anchors }
      return t

end Steps

section Reading

mutual

/-- A tree. Outside of brackets it may be laid out by indentation, and as the value of an entry a
sequence need not be indented. -/
def read (block indentless : Bool) : Nat → ReadStep Tree
  | 0 => failure
  | n + 1 => do
    match ← peek with
    | some (.reference name) =>
      let s ← get
      let _ ← takes (.reference name)
      match s.anchors.find? fun e => e.1 == name with
      | some (_, t) => return t
      | none => failure
    | _ =>
      let (anchor, tag) ← properties
      match ← peek with
      | some (.scalar text isPlain) =>
        let _ ← takes (.scalar text isPlain)
        remember anchor (.scalar tag text isPlain)
      | some .openSequence =>
        let _ ← takes .openSequence
        remember anchor (.sequence tag (← flowItems true n))
      | some .openMapping =>
        let _ ← takes .openMapping
        remember anchor (.mapping tag (← flowEntries true n))
      | some .item =>
        if indentless then
          remember anchor (.sequence tag (← blockItems [.item, .key, .value, .blockEnd] n))
        else if anchor.isSome || tag.isSome then remember anchor (.scalar tag "" true)
        else failure
      | some .blockSequence =>
        if block then
          let _ ← takes .blockSequence
          let items ← blockItems [.item, .blockEnd] n
          needs .blockEnd
          remember anchor (.sequence tag items)
        else failure
      | some .blockMapping =>
        if block then
          let _ ← takes .blockMapping
          let entries ← blockEntries n
          needs .blockEnd
          remember anchor (.mapping tag entries)
        else failure
      | _ =>
        if anchor.isSome || tag.isSome then remember anchor (.scalar tag "" true) else failure

/-- The items of a sequence that is laid out by indentation. -/
def blockItems (stops : List Token) : Nat → ReadStep (List Tree)
  | 0 => failure
  | n + 1 => do
    if ← takes .item then
      let t ← if ← atEnd stops then pure nothing else read true false n
      return t :: (← blockItems stops n)
    else return []

/-- The entries of a mapping that is laid out by indentation. -/
def blockEntries : Nat → ReadStep (List (Tree × Tree))
  | 0 => failure
  | n + 1 => do
    let part : ReadStep Tree := do
      if ← atEnd [.key, .value, .blockEnd] then return nothing else read true true n
    if ← takes .key then
      let k ← part
      let v ← if ← takes .value then part else pure nothing
      return (k, v) :: (← blockEntries n)
    else return []

/-- The items of a sequence in brackets, the closing one included. An item with a colon is a mapping
of one entry. -/
def flowItems (first : Bool) : Nat → ReadStep (List Tree)
  | 0 => failure
  | n + 1 => do
    if ← takes .closeSequence then return []
    if !first then needs .comma
    if ← takes .closeSequence then return []
    let part (stops : List Token) : ReadStep Tree := do
      if ← atEnd stops then return nothing else read false false n
    let t ←
      if ← takes .key then
        let k ← part [.value, .comma, .closeSequence]
        let v ← if ← takes .value then part [.comma, .closeSequence] else pure nothing
        pure (.mapping none [(k, v)])
      else read false false n
    return t :: (← flowItems false n)

/-- The entries of a mapping in braces, the closing one included. -/
def flowEntries (first : Bool) : Nat → ReadStep (List (Tree × Tree))
  | 0 => failure
  | n + 1 => do
    if ← takes .closeMapping then return []
    if !first then needs .comma
    if ← takes .closeMapping then return []
    let part (stops : List Token) : ReadStep Tree := do
      if ← atEnd stops then return nothing else read false false n
    let entry ←
      if ← takes .key then
        let k ← part [.value, .comma, .closeMapping]
        let v ← if ← takes .value then part [.comma, .closeMapping] else pure nothing
        pure (k, v)
      else do
        let k ← read false false n
        pure (k, nothing)
    return entry :: (← flowEntries false n)

end

/-- Takes all marks of ends of documents. -/
def skipDocumentEnds : Nat → ReadStep Unit
  | 0 => pure ()
  | n + 1 => do
    if ← takes .documentEnd then skipDocumentEnds n

/-- Takes all directives, and says whether there are any. -/
def skipDirectives : Nat → ReadStep Bool
  | 0 => return false
  | n + 1 => do
    if ← takes .directive then
      let _ ← skipDirectives n
      return true
    else return false

/-- The one document of a text, if it holds one. -/
def document (bound : Nat) : ReadStep (Option Tree) := do
  let tree : ReadStep Tree := read true false bound
  let finish (t : Tree) : ReadStep (Option Tree) := do
    skipDocumentEnds bound
    if (← peek).isSome then failure else return some t
  match ← peek with
  | none => return none
  | some .directive | some .documentStart | some .documentEnd =>
    skipDocumentEnds bound
    if (← peek).isNone then return none
    let _ ← skipDirectives bound
    needs .documentStart
    if ← atEnd [.directive, .documentStart, .documentEnd] then finish nothing
    else finish (← tree)
  | some _ => finish (← tree)

end Reading

/-- The tree of a text: nothing when it holds no document, and a failure when it is no YAML. -/
def ofText? (text : String) : Option (Option Tree) := do
  let ts ← tokens? text
  (((document (2 * ts.length + 2)).run ⟨ts, []⟩).map Prod.fst)

end Tree

end RouteAtlas.Yaml
