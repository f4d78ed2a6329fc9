import RouteAtlas.Number.Numeral
import RouteAtlas.Value
import RouteAtlas.Yaml.Tree

/-!
# YAML data

A tree as data. A plain scalar is null, a truth value, a number or a text, by its spelling; a tag may
say what it is. The keys of a mapping become texts. A key `<<` adds the entries of the mappings that
it has as its value, but those that are written out count more.
-/

namespace RouteAtlas.Yaml

section Scalars

/-- The words for null. -/
def nullWords : List String :=
  ["", "~", "null", "Null", "NULL"]

/-- The words for true. -/
def trueWords : List String :=
  ["yes", "Yes", "YES", "true", "True", "TRUE", "on", "On", "ON"]

/-- The words for false. -/
def falseWords : List String :=
  ["no", "No", "NO", "false", "False", "FALSE", "off", "Off", "OFF"]

/-- A numeral without the underscores that group its digits. -/
def ungrouped (cs : List Char) : List Char :=
  cs.filter (· != '_')

/-- Whether a character is a digit or groups digits. -/
def isGrouped (c : Char) : Bool :=
  c.isDigit || c = '_'

/-- Whether a text is a part of a numeral in base sixty. -/
def isSixtieth (cs : List Char) : Bool :=
  match cs with
  | [d] => d.isDigit
  | [d, e] => '0' ≤ d && d ≤ '5' && e.isDigit
  | _ => false

/-- The whole number that digits without a sign denote. -/
def natOf? (cs : List Char) : Option Nat :=
  match cs with
  | ['0'] => some 0
  | '0' :: 'b' :: ds => Numeral.readBase? 2 (ungrouped ds)
  | '0' :: 'x' :: ds => Numeral.readBase? 16 (ungrouped ds)
  | '0' :: ds => if ds.isEmpty then none else Numeral.readBase? 8 ('0' :: ungrouped ds)
  | d :: ds =>
    if '1' ≤ d && d ≤ '9' then
      match Text.splitOn ':' (d :: ds) with
      | [whole] => if whole.all isGrouped then Numeral.readBase? 10 (ungrouped whole) else none
      | whole :: parts =>
        if whole.all isGrouped && parts.all isSixtieth then
          (whole :: parts).foldlM (fun n part =>
            (Numeral.readBase? 10 (ungrouped part)).map fun k => n * 60 + k) 0
        else none
      | [] => none
    else none
  | [] => none

/-- The whole number that a plain scalar denotes. -/
def intOf? (s : String) : Option Int :=
  let (negative, cs) := Numeral.takeSign s.toList
  (natOf? cs).map fun n => if negative then -(n : Int) else n

/-- Whether an exponent with its sign, or nothing, is written. -/
def isExponent (cs : List Char) : Bool :=
  match cs with
  | [] => true
  | e :: sign :: ds =>
    (e = 'e' || e = 'E') && (sign = '+' || sign = '-') && !ds.isEmpty && ds.all Char.isDigit
  | _ => false

/-- Whether a text is a floating-point number: digits before a point, or a point and digits, and an
exponent with a sign. -/
def isFloat (cs : List Char) : Bool :=
  let fractionThen (cs : List Char) : List Char := cs.dropWhile isGrouped
  match cs with
  | '.' :: d :: rest => d.isDigit && isExponent (fractionThen rest)
  | cs =>
    match (Numeral.takeSign cs).2 with
    | d :: rest =>
      d.isDigit &&
        match rest.dropWhile isGrouped with
        | '.' :: more => isExponent (fractionThen more)
        | _ => false
    | [] => false

/-- The floating-point number that a plain scalar denotes. -/
def floatOf? (s : String) : Option Binary64 :=
  let (negative, body) := Numeral.takeSign s.toList
  let named := String.ofList body
  if [".inf", ".Inf", ".INF"].contains named then
    Numeral.readFloat? (if negative then "-inf" else "inf")
  else if [".nan", ".NaN", ".NAN"].contains s then
    Numeral.readFloat? "nan"
  else if isFloat s.toList then
    Numeral.readFloat? (String.ofList (ungrouped s.toList))
  else
    none

/-- The value of a plain scalar. -/
def plainValue? (s : String) : Option Value :=
  if nullWords.contains s then some .null
  else if trueWords.contains s then some (.bool true)
  else if falseWords.contains s then some (.bool false)
  else
    match intOf? s with
    | some i => some (.int i)
    | none =>
      match floatOf? s with
      | some x => some (.float x)
      | none => if s == "=" || s == "<<" then none else some (.str s)

/-- The value of a scalar with its tag. -/
def scalarValue?
    (tag : Option String)
    (s : String)
    (isPlain : Bool) :
    Option Value :=
  match tag with
  | none => if isPlain then plainValue? s else some (.str s)
  | some "!" => plainValue? s
  | some "tag:yaml.org,2002:str" => some (.str s)
  | some "tag:yaml.org,2002:null" => some .null
  | some "tag:yaml.org,2002:timestamp" => some (.str s)
  | some "tag:yaml.org,2002:bool" =>
    if trueWords.contains s then some (.bool true)
    else if falseWords.contains s then some (.bool false)
    else none
  | some "tag:yaml.org,2002:int" => (intOf? s).map .int
  | some "tag:yaml.org,2002:float" =>
    match floatOf? s with
    | some x => some (.float x)
    | none => (Numeral.readFloat? (String.ofList (ungrouped s.toList))).map .float
  | some _ => none

end Scalars

section Keys

/-- A value as the key of a mapping; lists and mappings are none. -/
def keyText? : Value → Option String
  | .null => some "null"
  | .bool b => some (if b then "true" else "false")
  | .int i => some (toString i)
  | .float x => some x.text
  | .str s => some s
  | .list _ | .map _ => none

/-- Whether a key asks for the entries of other mappings. -/
def isMergeKey : Tree → Bool
  | .scalar none "<<" true => true
  | _ => false

/-- The text of a key that is written as it is. -/
def literalKey? : Tree → Option String
  | .scalar none "=" true => some "="
  | _ => none

/-- Whether a collection may have a tag. -/
def acceptsTag
    (name : String)
    (tag : Option String) :
    Bool :=
  tag = none || tag = some "!" || tag = some ("tag:yaml.org,2002:" ++ name)

end Keys

section Trees

mutual

/-- The data that a tree denotes. -/
def Tree.value? : Tree → Option Value
  | .scalar tag s isPlain => scalarValue? tag s isPlain
  | .sequence tag items => do
    if acceptsTag "seq" tag then return .list (← Tree.values? items) else failure
  | .mapping tag entries => do
    if acceptsTag "map" tag then
      let all ← Tree.entries? entries
      return .map (ofPairs ((all.filter fun e => e.1).map Prod.snd ++
        (all.filter fun e => !e.1).map Prod.snd))
    else failure

/-- The data of a list of trees. -/
def Tree.values? : List Tree → Option (List Value)
  | [] => some []
  | t :: rest => do
    let v ← Tree.value? t
    return v :: (← Tree.values? rest)

/-- The entries of a mapping, each with whether it comes from another one. -/
def Tree.entries? : List (Tree × Tree) → Option (List (Bool × (String × Value)))
  | [] => some []
  | (k, v) :: rest => do
    let value ← Tree.value? v
    let later ← Tree.entries? rest
    if isMergeKey k then
      match value with
      | .map es => return es.map (fun e => (true, e)) ++ later
      | .list vs =>
        let maps ← vs.mapM Value.entries?
        return maps.reverse.flatten.map (fun e => (true, e)) ++ later
      | _ => failure
    else
      match literalKey? k with
      | some s => return (false, (s, value)) :: later
      | none => do
        let key ← (← Tree.value? k) |> keyText?
        return (false, (key, value)) :: later

end

end Trees

/-- The data of a YAML text: null when it holds no document, and a failure when it is no YAML. -/
def parse? (text : String) : Option Value := do
  match ← Tree.ofText? text with
  | none => return .null
  | some t => t.value?

end RouteAtlas.Yaml
