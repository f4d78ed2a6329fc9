import RouteAtlas.Syntax.SourceFile

/-!
# Shapes

The shape of a type is what its declaration says about values: a primitive, one literal, a list, a
choice, an object with fields. A shape has the text by which the type is written. The fields of an
object are not read until they are asked for, so that a type may speak of itself; until then a shape
keeps the declaration that they are read from, with what its type parameters stand for.
-/

namespace RouteAtlas

open Syntax

/-- Kinds of types about whose values no more is known. -/
inductive PlainKind where
  | string
  | number
  | boolean
  | bigint
  | null
  | undefined
  | void
  | never
  | any
  | unknown
  | function
  | unresolved
  deriving Repr, DecidableEq, Inhabited

mutual

/-- The shape of a type. -/
inductive Shape where
  | plain (kind : PlainKind) (text : String)
  | literal (text : String) (value : Scalar)
  | truth (text : String) (value : Bool)
  | array (text : String) (element : Shape)
  | tuple (text : String) (members : List Shape)
  | union (text : String) (members : List Shape)
  | enumeration (text : String) (members : List (String × Value))
  | enumMember (text name : String) (value : Value)
  | builtin (text name : String)
  | object (text : String) (name : Option String) (fields : Fields)

/-- Where the fields of an object are read from. -/
inductive Fields where
  | absent
  | ofBody (body : Node) (file : SourceFile) (bound : List (String × Shape))
  | ofInterface (declaration : Node) (file : SourceFile) (bound : List (String × Shape))
  | ofClass (declaration : Node) (file : SourceFile)
  | merged (members : List Shape)
  | adjusted (optional : Option Bool) (target : Shape)
  | selected (keep : Bool) (names : List String) (target : Shape)

end

/-- A type that has not been read yet: its annotation, the file that it stands in, and what its type
parameters stand for. -/
structure UnreadType where
  annotation : Option Node
  file : SourceFile
  bound : List (String × Shape)

/-- A field of an object. -/
structure Field where
  name : String
  optional : Bool
  isMethod : Bool
  type : Option UnreadType

namespace PlainKind

/-- The written name of a kind. -/
def name : PlainKind → String
  | string => "string"
  | number => "number"
  | boolean => "boolean"
  | bigint => "bigint"
  | null => "null"
  | undefined => "undefined"
  | void => "void"
  | never => "never"
  | any => "any"
  | unknown => "unknown"
  | function => "function"
  | unresolved => "unresolved"

end PlainKind

namespace Shape

instance : Inhabited Shape :=
  ⟨.plain .any "any"⟩

section Views

/-- The text by which a type is written. -/
def text : Shape → String
  | plain _ t | literal t _ | truth t _ | array t _ | tuple t _ | union t _ | enumeration t _
  | enumMember t _ _ | builtin t _ | object t _ _ => t

/-- The written name of the kind of a shape. -/
def kindName : Shape → String
  | plain k _ => k.name
  | literal _ _ => "literal"
  | truth _ _ => "boolean_literal"
  | array _ _ => "array"
  | tuple _ _ => "tuple"
  | union _ _ => "union"
  | enumeration _ _ => "enum"
  | enumMember _ _ _ => "enum_literal"
  | builtin _ _ => "builtin"
  | object _ _ _ => "object"

/-- Whether a type has no value to speak of. -/
def isNullish : Shape → Bool
  | plain .null _ | plain .undefined _ | plain .void _ => true
  | _ => false

/-- An object with another text; any other shape as it is. -/
def renamed
    (t : String) :
    Shape → Shape
  | object _ name fields => object t name fields
  | s => s

end Views

section Making

/-- The shape of a value of any type. -/
def anything : Shape :=
  plain .any "any"

/-- The shape of a type of which nothing is known but its text. -/
def unresolved (t : String) : Shape :=
  plain .unresolved t

/-- A type text with every run of white space as one space. -/
def singleSpaced (t : String) : String :=
  let rec squeeze : List Char → List Char
    | [] => []
    | c :: rest =>
      if Text.isBlank c then
        match rest with
        | [] => [' ']
        | d :: more => if Text.isBlank d then squeeze (d :: more) else ' ' :: squeeze (d :: more)
      else c :: squeeze rest
  Text.trim (String.ofList (squeeze t.toList))

/-- The shape that a word of the language denotes. -/
def ofWord? (word : String) : Option Shape :=
  match word with
  | "string" => some (plain .string word)
  | "number" => some (plain .number word)
  | "boolean" => some (plain .boolean word)
  | "bigint" => some (plain .bigint word)
  | "any" => some (plain .any word)
  | "unknown" | "symbol" => some (plain .unknown word)
  | "void" => some (plain .void word)
  | "never" => some (plain .never word)
  | "undefined" => some (plain .undefined word)
  | "null" => some (plain .null word)
  | "object" => some (object word none .absent)
  | _ => none

/-- A choice between shapes; a choice of one is no choice. -/
def choice
    (t : String)
    (members : List Shape) :
    Shape :=
  match members with
  | [m] => m
  | ms => union t ms

end Making

end Shape

section Enumerations

/-- The members of an enumeration among the parts of its body, given the number that the next member
without a value has, if it has one. -/
def enumMembersAmong : Option Int → List Node → List (String × Value)
  | _, [] => []
  | next, m :: rest =>
    match m.kind with
    | .enumAssignment =>
      let name := (((m.child? .name).bind Node.keyName?)).getD ""
      match (m.child? .value).bind Node.literalValue? with
      | some (.int i) => (name, .int i) :: enumMembersAmong (some (i + 1)) rest
      | some v => (name, v) :: enumMembersAmong none rest
      | none => (name, .null) :: enumMembersAmong none rest
    | .propertyIdentifier | .string | .identifier =>
      let value :=
        match next with
        | some i => .int i
        | none => .null
      (m.keyName?.getD "", value) :: enumMembersAmong (next.map (· + 1)) rest
    | _ => enumMembersAmong next rest

/-- The members of an enumeration with their values, null being one that is not known. -/
def enumMembers (declaration : Node) : List (String × Value) :=
  match declaration.child? .body with
  | some body => enumMembersAmong (some 0) body.namedChildren
  | none => []

end Enumerations

end RouteAtlas
