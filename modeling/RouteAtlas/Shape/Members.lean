import RouteAtlas.Shape.Reading

/-!
# Fields of objects

The fields of an interface are those of its bases, in order, and then its own; a field that comes
again takes the place of the earlier one. A class has the fields that it declares as public ones of
its instances, and its methods. Inheritance that never ends is a fault.
-/

namespace RouteAtlas

open Syntax
open Project (Scope)

namespace Field

section Declared

/-- The field that a member of an interface or of an object type declares. -/
def ofSignature?
    (file : SourceFile)
    (bound : List (String × Shape))
    (m : Node) :
    Option Field :=
  match m.kind with
  | .propertySignature =>
    ((m.child? .name).bind Node.keyName?).map fun name =>
      ⟨name, m.hasToken "?", false, some ⟨m.child? .type, file, bound⟩⟩
  | .methodSignature =>
    ((m.child? .name).bind Node.keyName?).map fun name => ⟨name, false, true, none⟩
  | _ => none

/-- The fields that the body of an interface or an object type declares. -/
def ofBody
    (file : SourceFile)
    (bound : List (String × Shape))
    (body : Option Node) :
    List Field :=
  match body with
  | some b => b.namedChildren.filterMap (ofSignature? file bound)
  | none => []

/-- Whether a member of a class is hidden or belongs to the class itself. -/
def isHidden (m : Node) : Bool :=
  m.hasToken "static" || m.children.any fun c =>
    c.kind == .accessibilityModifier && (c.text == "private" || c.text == "protected")

/-- The field that a member of a class declares. -/
def ofMember?
    (file : SourceFile)
    (m : Node) :
    Option Field :=
  match m.kind with
  | .publicFieldDefinition =>
    match m.child? .name with
    | some name =>
      if isHidden m || name.kind == .privatePropertyIdentifier then none
      else name.keyName?.map fun n => ⟨n, m.hasToken "?", false, some ⟨m.child? .type, file, []⟩⟩
    | none => none
  | .methodDefinition =>
    match (m.child? .name).bind Node.keyName? with
    | some n => if n.isEmpty || n == "constructor" then none else some ⟨n, false, true, none⟩
    | none => none
  | _ => none

/-- The fields that a class declares. -/
def ofClass
    (file : SourceFile)
    (declaration : Node) :
    List Field :=
  match declaration.child? .body with
  | some b => b.namedChildren.filterMap (ofMember? file)
  | none => []

end Declared

section Merging

/-- The fields with each name once: where the name first came, with its last field. -/
def merge (fields : List Field) : List Field :=
  (ofPairs (fields.map fun f => (f.name, f))).map Prod.snd

end Merging

/-- The shape of the type of a field; a field without a type may hold anything. -/
def shape
    (scope : Scope)
    (f : Field) :
    Except Fault Shape :=
  match f.type with
  | some ⟨some annotation, file, bound⟩ => Shape.ofNode scope [] file bound annotation
  | _ => .ok Shape.anything

end Field

namespace Shape

/-- The annotations of the bases of an interface. -/
def basesOf (declaration : Node) : List Node :=
  (declaration.namedChildren.filter fun c => c.kind == .extendsTypeClause).flatMap Node.parts

/-- The longest chain of inheritance that is followed. -/
def maxInheritance : Nat :=
  330

/-- The fields of an object; any other shape has none. The first argument bounds the length of the
chain of types that they come from. -/
def fieldsUpTo
    (scope : Scope) :
    Nat → Shape → Except Fault (List Field)
  | 0, object _ _ _ => .error .endlessInheritance
  | n + 1, object _ _ fields =>
    match fields with
    | .absent => .ok []
    | .ofBody body file bound => .ok (Field.ofBody file bound (some body))
    | .ofClass declaration file => .ok (Field.ofClass file declaration)
    | .ofInterface declaration file bound => do
      let inherited ← (basesOf declaration).mapM fun base => do
        fieldsUpTo scope n (← ofNode scope [] file bound base)
      return Field.merge (inherited.flatten ++ Field.ofBody file bound (declaration.child? .body))
    | .merged members => do
      let all ← members.mapM (fieldsUpTo scope n)
      return Field.merge all.flatten
    | .adjusted optional target => do
      let fs ← fieldsUpTo scope n target
      return fs.map fun f => { f with optional := optional.getD f.optional }
    | .selected keep names target => do
      let fs ← fieldsUpTo scope n target
      return fs.filter fun f => names.contains f.name == keep
  | _, _ => .ok []

/-- The fields of an object; any other shape has none. -/
def fieldList
    (scope : Scope)
    (s : Shape) :
    Except Fault (List Field) :=
  fieldsUpTo scope maxInheritance s

end Shape

end RouteAtlas
