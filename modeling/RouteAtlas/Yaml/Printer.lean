import RouteAtlas.Yaml.Style

/-!
# Printing YAML

A mapping as a YAML document, every entry and every item on a line of its own. Mappings are indented
by two columns below their key, lists not at all. A key that is empty, long or more than one line is
marked as a key.
-/

namespace RouteAtlas.Yaml

section Scalars

/-- The spelling of a floating-point number: one without a point gets one before its exponent. -/
def floatSpelled (x : Binary64) : String :=
  match x with
  | .notANumber => ".nan"
  | .infinite negative => if negative then "-.inf" else ".inf"
  | x =>
    let t := x.text
    if Text.contains t "." then t else
      Text.joinWith ".0e" (Text.split 'e' t)

/-- A value that is no collection, from a column on. -/
def writeScalar
    (m : Margin)
    (column : Nat) :
    Value → String
  | .bool b => if b then "true" else "false"
  | .int i => toString i
  | .float x => floatSpelled x
  | .str s => writeText m column s
  | _ => "null"

end Scalars

section Keys

/-- Whether a key may stand in front of a colon as it is: it is not empty, it has no line breaks, and
it is not too long. -/
def isSimpleKey (key : String) : Bool :=
  !key.isEmpty && key.length < 123 && !key.toList.any breaksLine

end Keys

section Blocks

/-- A new line with some columns left blank. -/
def lineAt (indent : Nat) : String :=
  String.ofList ('\n' :: List.replicate indent ' ')

/-- Where a value stands: after a key on the same line, which ends at a column, or behind a mark that
takes two columns. -/
inductive Place where
  | afterKey (column : Nat)
  | behindMark

mutual

/-- A value in a block with an indentation. -/
def writeValue
    (indent : Nat)
    (place : Place) :
    Value → String
  | .map [] => " \x7b\x7d"
  | .list [] => " []"
  | .map (e :: es) =>
    match place with
    | .afterKey _ => lineAt (indent + 2) ++ writeEntries (indent + 2) (e :: es)
    | .behindMark => " " ++ writeEntries (indent + 2) (e :: es)
  | .list (v :: vs) =>
    match place with
    | .afterKey _ => lineAt indent ++ writeItems indent (v :: vs)
    | .behindMark => " " ++ writeItems (indent + 2) (v :: vs)
  | v =>
    let column := match place with
      | .afterKey column => column + 1
      | .behindMark => indent + 2
    " " ++ writeScalar ⟨indent + 2, true⟩ column v

/-- The entries of a mapping with an indentation. -/
def writeEntries (indent : Nat) : List (String × Value) → String
  | [] => ""
  | (key, v) :: rest =>
    let entry :=
      if isSimpleKey key then
        let name := writeText ⟨indent + 2, false⟩ indent key
        name ++ ":" ++ writeValue indent (.afterKey (indent + name.length + 1)) v
      else
        "? " ++ writeText ⟨indent + 2, true⟩ (indent + 2) key ++ lineAt indent ++ ":" ++
          writeValue indent .behindMark v
    match rest with
    | [] => entry
    | _ :: _ => entry ++ lineAt indent ++ writeEntries indent rest

/-- The items of a list with an indentation. -/
def writeItems (indent : Nat) : List Value → String
  | [] => ""
  | v :: rest =>
    let item := "-" ++ writeValue indent .behindMark v
    match rest with
    | [] => item
    | _ :: _ => item ++ lineAt indent ++ writeItems indent rest

end

/-- A mapping as a YAML document. -/
def print (entries : List (String × Value)) : String :=
  match entries with
  | [] => "\x7b\x7d\n"
  | _ => writeEntries 0 entries ++ "\n"

end Blocks

end RouteAtlas.Yaml
