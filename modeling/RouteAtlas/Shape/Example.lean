import RouteAtlas.Shape.Members

/-!
# Examples of shapes

Every shape has an example, or none when a value is better left out. Objects are written out to a
limited depth, and an object is never written out inside of one that is written by the same text.
-/

namespace RouteAtlas

open Project (Scope)

/-- What kind of data the values of a shape are. -/
inductive DataClass where
  | primitive
  | array
  | object
  | unknown
  deriving Repr, DecidableEq, Inhabited

namespace DataClass

/-- The written name of a class of data. -/
def name : DataClass → String
  | primitive => "primitive"
  | array => "array"
  | object => "object"
  | unknown => "unknown"

end DataClass

namespace Shape

section Platform

/-- The example and the class of data of a class of the platform. -/
def ofPlatform (name : String) : Option Value × DataClass :=
  if ["Date", "Blob", "File", "Buffer", "ArrayBuffer", "Uint8Array", "ReadableStream",
      "WritableStream", "Readable", "Writable", "Stream", "RegExp"].contains name then
    (some (.str ""), .primitive)
  else if ["Set", "WeakSet"].contains name then
    (some (.list []), .array)
  else if ["Request", "Response", "NextRequest", "NextResponse", "NextApiRequest",
      "NextApiResponse", "IncomingMessage", "ServerResponse", "FastifyRequest",
      "FastifyReply"].contains name then
    (none, .unknown)
  else
    (some (.map []), .object)

end Platform

section Classes

mutual

/-- The class of data that the values of a shape are. A choice has the class on which its members
agree, those without a value aside. -/
def dataClass : Shape → DataClass
  | plain .string _ | plain .number _ | plain .boolean _ | plain .bigint _ => .primitive
  | literal _ _ | truth _ _ | enumeration _ _ | enumMember _ _ _ => .primitive
  | array _ _ | tuple _ _ => .array
  | object _ _ _ => .object
  | builtin _ name => (ofPlatform name).2
  | union _ members =>
    match agreed members with
    | some (some c) => c
    | _ => .unknown
  | plain _ _ => .unknown

/-- The class on which shapes agree: none for no shapes, and nothing in it when they differ. -/
def agreed : List Shape → Option (Option DataClass)
  | [] => none
  | s :: rest =>
    if s.isNullish then agreed rest
    else
      match agreed rest with
      | none => some (some (dataClass s))
      | some c => some (if c = some (dataClass s) then c else none)

end

end Classes

section Examples

/-- The examples of shapes, in order, without those that have none. -/
def examplesOf
    (example? : Shape → Except Fault (Option Value)) :
    List Shape → Except Fault (List Value)
  | [] => .ok []
  | s :: rest => do
    let v ← example? s
    let vs ← examplesOf example? rest
    return v.toList ++ vs

/-- The entries that fields give to an example. Methods and names for internal use give none. -/
def entriesOf
    (example? : Field → Except Fault (Option Value)) :
    List (String × Value) → List Field → Except Fault (List (String × Value))
  | entries, [] => .ok entries
  | entries, f :: rest =>
    if f.isMethod || Text.startsWith f.name "__" then entriesOf example? entries rest
    else do
      match ← example? f with
      | some v => entriesOf example? (putEntry f.name v entries) rest
      | none => entriesOf example? entries rest

/-- The example of a shape inside of objects with given texts, written out to so many more levels. What
the fields of an object and their types are is asked for one by one. -/
def exampleUsing
    (fieldsOf : Shape → Except Fault (List Field))
    (typeOf : Field → Except Fault Shape) :
    Nat → List String → Shape → Except Fault (Option Value)
  | 0, _, _ => .ok (some (.map []))
  | n + 1, around, s =>
    let inner := exampleUsing fieldsOf typeOf n around
    match s with
    | literal _ v => .ok (some v)
    | truth _ b => .ok (some (.bool b))
    | s =>
      if s.text == "true" || s.text == "false" then .ok (some (.bool (s.text == "true")))
      else
        match s with
        | plain .string _ => .ok (some (.str ""))
        | plain .number _ | plain .bigint _ => .ok (some (.int 0))
        | plain .boolean _ => .ok (some (.bool false))
        | plain .undefined _ | plain .void _ | plain .never _ => .ok none
        | plain .null _ => .ok (some .null)
        | array _ element => do return some (.list (← inner element).toList)
        | tuple _ members => do return some (.list (← examplesOf inner members))
        | union _ members =>
          match members.find? fun m => !m.isNullish with
          | some m => inner m
          | none => .ok none
        | enumeration t members =>
          match members with
          | (name, _) :: _ => .ok (some (.str name))
          | [] => .ok (some (.str (lastPart t)))
        | enumMember t _ _ => .ok (some (.str (lastPart t)))
        | builtin _ name => .ok (ofPlatform name).1
        | object t name fields =>
          if around.contains t then .ok (some (.map []))
          else do
            let fs ← fieldsOf (object t name fields)
            let entries ← entriesOf
              (fun f => do exampleUsing fieldsOf typeOf n (t :: around) (← typeOf f)) [] fs
            return some (.map entries)
        | _ => .ok (some (.map []))

/-- The example of a shape inside of objects with given texts, written out to so many more levels, as the
declarations of the files say. -/
def exampleWithin (scope : Scope) : Nat → List String → Shape → Except Fault (Option Value) :=
  exampleUsing (fieldList scope) (Field.shape scope)

/-- The example of a shape, written out to a given depth; none if a value is better left out. -/
def example?
    (scope : Scope)
    (maxDepth : Int)
    (s : Shape) :
    Except Fault (Option Value) :=
  exampleWithin scope (maxDepth + 1).toNat [] s

end Examples

end Shape

end RouteAtlas
