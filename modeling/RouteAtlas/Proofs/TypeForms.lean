import Mathlib
import RouteAtlas.Shape.Reading

/-!
# Forms of annotations

Annotations and declarations of many kinds are read in few ways: at once, from what the type parameters in
force stand for, from the shapes of their parts, or from a name with arguments. A name is either a type
parameter, or a word of the language, or it is resolved to a shape or to a declaration. Reading then goes on
with a form of a smaller size or with one more name that is being looked up.
-/

namespace RouteAtlas

open Syntax
open Project (Scope Found)

namespace Shape

section Forms

/-- What an annotation or a declaration is read from: nothing further, what the type parameters stand for,
the shapes of its parts, or a name with arguments. A name without arguments may be a word of the language. -/
inductive Form where
  | closed (reading : Except Fault Shape)
  | object (make : List (String × Shape) → Shape)
  | composed (parts : List Node) (make : List Shape → Shape)
  | name (name t : String) (args : List Node) (word : Option Shape)

namespace Form

/-- The size of the annotations that a form is read from. -/
def size : Form → Nat
  | closed _ | object _ => 0
  | composed parts _ => Node.countForest parts
  | name _ _ args _ => Node.countForest args

end Form

/-- The form of an annotation in a file. -/
def formOf
    (scope : Scope)
    (file : SourceFile)
    (n : Node) :
    Form :=
  let t := singleSpaced n.text
  match n.kind with
  | .typeAscription | .optingTypeAscription | .readonlyType | .parenthesizedType =>
    .composed (n.parts.take 1) fun ss => ss.headD anything
  | .predefinedType => .closed (.ok ((ofWord? n.text).getD (plain .unknown n.text)))
  | .literalType => .closed (.ok (ofLiteral n))
  | .typeIdentifier | .identifier => .name n.text n.text [] (ofWord? n.text)
  | .nestedTypeIdentifier => .closed (ofQualifiedName scope n file)
  | .genericType =>
    match n.child? .name with
    | none => .closed (.ok (unresolved t))
    | some name =>
      if name.kind == .nestedTypeIdentifier then .closed (ofQualifiedName scope name file)
      else .name name.text t (((n.child? .typeArguments).map Node.parts).getD []) none
  | .arrayType => .composed (n.parts.take 1) fun ss => array t (ss.headD anything)
  | .tupleType => .composed (n.parts.filterMap tupleMember?) (tuple t)
  | .unionType => .composed (operandsAmong .unionType n.children) (choice t)
  | .intersectionType =>
    .composed (operandsAmong .intersectionType n.children) fun ss => object t none (.merged ss)
  | .objectType => .object fun bound => object t none (.ofBody n file bound)
  | .templateLiteralType => .closed (.ok (plain .string t))
  | .functionType | .constructorType => .closed (.ok (plain .function t))
  | _ => .closed (.ok (unresolved t))

/-- The form of a declaration of a file that is used by some text. A class has no use for type
parameters. -/
def formOfDeclaration
    (file : SourceFile)
    (declaration : Node)
    (t : String) :
    Form :=
  match declaration.kind with
  | .typeAliasDeclaration =>
    match declaration.child? .value with
    | none => .closed (.ok anything)
    | some v => .composed [v] fun ss => (ss.headD anything).renamed t
  | .interfaceDeclaration => .object fun bound => object t none (.ofInterface declaration file bound)
  | .classDeclaration | .abstractClassDeclaration =>
    .closed (.ok (object t none (.ofClass declaration file)))
  | .enumDeclaration => .closed (.ok (enumeration t (enumMembers declaration)))
  | _ => .closed (.ok (unresolved t))

/-- What is read from a form. -/
def readForm
    (scope : Scope)
    (open_ : OpenNames)
    (file : SourceFile)
    (bound : List (String × Shape)) :
    Form → Except Fault Shape
  | .closed reading => reading
  | .object make => .ok (make bound)
  | .composed parts make => do return make (← ofNodes scope open_ file bound parts)
  | .name name t args word =>
    match word, entryOf? name bound with
    | some s, none => .ok s
    | _, _ => ofName scope open_ file bound name t args

variable {scope : Scope} {open_ : OpenNames} {file : SourceFile} {bound : List (String × Shape)}

/-- The first part, if there is one, is read alone. -/
theorem readForm_composed_take_one
    (parts : List Node)
    (make : List Shape → Shape) :
    readForm scope open_ file bound (.composed (parts.take 1) make) =
      match parts with
      | [] => .ok (make [])
      | c :: _ => do return make [← ofNode scope open_ file bound c] := by
  cases parts with
  | nil =>
    rw [List.take_nil, readForm, ofNodes]
    rfl
  | cons c rest =>
    rw [List.take_succ_cons, List.take_zero, readForm, ofNodes, ofNodes]
    dsimp only
    cases ofNode scope open_ file bound c <;> rfl

/-- An annotation is read from its form. -/
theorem ofNode_eq_readForm (n : Node) :
    ofNode scope open_ file bound n = readForm scope open_ file bound (formOf scope file n) := by
  rw [ofNode, formOf]
  cases n.kind
  case typeAscription | optingTypeAscription | readonlyType | parenthesizedType | arrayType =>
    dsimp only
    rw [readForm_composed_take_one]
    cases n.parts with
    | nil => rfl
    | cons c rest =>
      dsimp only
      cases ofNode scope open_ file bound c <;> rfl
  case genericType =>
    dsimp only
    cases n.child? .name with
    | none => rfl
    | some name =>
      dsimp only
      split
      · rfl
      · cases n.child? .typeArguments <;> rfl
  all_goals rfl

/-- A declaration is read from its form, with what its parameters stand for. -/
theorem ofDeclaration_eq_readForm
    (declaration : Node)
    (args : List Shape)
    (t : String) :
    ofDeclaration scope open_ file declaration args t =
      readForm scope open_ file (boundBy declaration args) (formOfDeclaration file declaration t) := by
  rw [ofDeclaration, formOfDeclaration]
  cases declaration.kind
  case typeAliasDeclaration =>
    dsimp only
    cases declaration.child? .value with
    | none => rfl
    | some v =>
      dsimp only
      rw [readForm, ofNodes, ofNodes]
      cases ofNode scope open_ file (boundBy declaration args) v <;> rfl
  all_goals rfl

/-- A form is read from less than the whole annotation. -/
theorem size_formOf_lt (n : Node) : (formOf scope file n).size < n.count := by
  have hpos := Node.count_pos n
  have hparts := Node.countForest_parts_lt n
  have hfirst : Node.countForest (n.parts.take 1) ≤ Node.countForest n.parts := by
    cases n.parts <;> simp [Node.countForest]
  rw [formOf]
  cases n.kind
  case tupleType =>
    have := countForest_tupleMembers_le n.parts
    exact show Node.countForest (n.parts.filterMap tupleMember?) < n.count by omega
  case unionType =>
    have := countForest_operandsAmong_le .unionType n.children
    have := Node.countForest_children n
    exact show Node.countForest (operandsAmong .unionType n.children) < n.count by omega
  case intersectionType =>
    have := countForest_operandsAmong_le .intersectionType n.children
    have := Node.countForest_children n
    exact show Node.countForest (operandsAmong .intersectionType n.children) < n.count by omega
  case genericType =>
    dsimp only
    cases n.child? .name with
    | none => exact hpos
    | some name =>
      dsimp only
      split
      · exact hpos
      · cases hargs : n.child? .typeArguments with
        | none => exact hpos
        | some args =>
          have := Node.count_lt_of_child? hargs
          have := Node.countForest_parts_lt args
          exact show Node.countForest args.parts < n.count by omega
  all_goals first | exact hpos | exact lt_of_le_of_lt hfirst hparts

end Forms

section Names

/-- What a name with arguments is resolved to that is no type parameter: a shape, or a declaration. -/
def resolveName
    (scope : Scope)
    (open_ : OpenNames)
    (file : SourceFile)
    (name t : String)
    (args : List Shape) :
    Except Fault (Shape ⊕ Found) :=
  match ofUtility? name t args with
  | some s => .ok (.inl s)
  | none =>
    if open_.contains (file.path, name) || decide (maxOpenNames < open_.length) then
      .ok (.inl (unresolved t))
    else do
      match ← scope.type name file with
      | .error _ => return .inl (if platformNames.contains name then builtin t name else unresolved t)
      | .ok found => return .inr found

variable {scope : Scope} {open_ : OpenNames} {file : SourceFile} {bound : List (String × Shape)}

/-- Only so many names are looked up at once. -/
theorem length_le_of_resolveName
    {name t : String}
    {ss : List Shape}
    {found : Found}
    (h : resolveName scope open_ file name t ss = .ok (.inr found)) :
    open_.length ≤ maxOpenNames := by
  unfold resolveName at h
  split at h
  · cases h
  · split at h
    · cases h
    · next hopen =>
      simp only [Bool.or_eq_true, decide_eq_true_eq, not_or] at hopen
      omega

/-- A name that is no type parameter is read from what it is resolved to. -/
theorem ofName_eq_of_free
    {name : String}
    (hname : entryOf? name bound = none)
    (t : String)
    (args : List Node) :
    ofName scope open_ file bound name t args =
      ofNodes scope open_ file bound args >>= fun ss =>
        resolveName scope open_ file name t ss >>= fun r =>
          match r with
          | .inl s => .ok s
          | .inr found => ofDeclaration scope ((file.path, name) :: open_) found.file found.node ss t := by
  rw [ofName, hname]
  cases ofNodes scope open_ file bound args with
  | error e => rfl
  | ok ss =>
    simp only [bind, Except.bind, resolveName]
    cases ofUtility? name t ss with
    | some s => rfl
    | none =>
      dsimp only
      by_cases hopen : (open_.contains (file.path, name) || decide (maxOpenNames < open_.length)) = true
      · rw [dif_pos hopen, if_pos hopen]
        rfl
      · rw [dif_neg hopen, if_neg hopen]
        cases scope.type name file with
        | error e => rfl
        | ok r => cases r <;> rfl

/-- A type parameter is read to what it stands for. -/
theorem readForm_name_of_bound
    {name : String}
    {s : Shape}
    (hname : entryOf? name bound = some s)
    (t : String)
    (args : List Node)
    (word : Option Shape) :
    readForm scope open_ file bound (.name name t args word) = .ok s := by
  have hread : ofName scope open_ file bound name t args = .ok s := by rw [ofName, hname]
  unfold readForm
  dsimp only
  rw [hname]
  cases word <;> exact hread

/-- A word of the language is read as such unless it is a type parameter. -/
theorem readForm_word
    {name : String}
    (hname : entryOf? name bound = none)
    (t : String)
    (args : List Node)
    (s : Shape) :
    readForm scope open_ file bound (.name name t args (some s)) = .ok s := by
  unfold readForm
  dsimp only
  rw [hname]

/-- A name that is neither a type parameter nor a word of the language is read from what it is resolved
to. -/
theorem readForm_free
    {name : String}
    (hname : entryOf? name bound = none)
    (t : String)
    (args : List Node) :
    readForm scope open_ file bound (.name name t args none) =
      ofNodes scope open_ file bound args >>= fun ss =>
        resolveName scope open_ file name t ss >>= fun r =>
          match r with
          | .inl s => .ok s
          | .inr found =>
            readForm scope ((file.path, name) :: open_) found.file (boundBy found.node ss)
              (formOfDeclaration found.file found.node t) := by
  have hread : readForm scope open_ file bound (.name name t args none) =
      ofName scope open_ file bound name t args := rfl
  rw [hread, ofName_eq_of_free hname]
  refine congrArg (ofNodes scope open_ file bound args >>= ·) (funext fun ss => ?_)
  refine congrArg (resolveName scope open_ file name t ss >>= ·) (funext fun r => ?_)
  cases r with
  | inl s => rfl
  | inr found => exact ofDeclaration_eq_readForm found.node ss t

end Names

end Shape

end RouteAtlas
