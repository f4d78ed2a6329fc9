import RouteAtlas.Fault
import RouteAtlas.Syntax.SourceFile
import RouteAtlas.Text.Pattern.Reader

/-!
# Recognising routers

A call builds a router when it calls a factory by name, or something whose name looks like that of a
router. An entry of a router mounts another one when its value looks like a router. Which names are
factories and which look like routers is set by the user.
-/

namespace RouteAtlas.Procedures

open Syntax

/-- How routers are recognised: the names of factories, and the pattern of names of routers with its
written form. -/
structure Recognition where
  factories : List String
  pattern : Text.Pattern
  patternText : String
  deriving Inhabited

namespace Recognition

section Settings

/-- The factories that are known when none are set. -/
def defaultFactories : List String :=
  ["createTRPCRouter", "router"]

/-- The written pattern of names of routers when none is set. -/
def defaultPatternText : String :=
  "router$"

/-- The pattern of names of routers when none is set. -/
def defaultPattern : Text.Pattern :=
  .seq (.word "router") .stop

/-- Adds a name to a list that does not have it. -/
def addName
    (names : List String)
    (name : String) :
    List String :=
  if name.isEmpty || names.contains name then names else names ++ [name]

/-- The names that settings list, several in one text being separated by commas. Without a name, the
factories are those that are known anyway. -/
def factoryNames (settings : List String) : List String :=
  let names := (settings.flatMap fun s => (Text.split ',' s).map Text.trim).foldl addName []
  if names.isEmpty then defaultFactories else names

/-- How routers are recognised by given settings. A text that is no pattern is passed over. -/
def ofTexts
    (factories : List String)
    (pattern : String) :
    Recognition :=
  let names := factoryNames factories
  match (if pattern.isEmpty then none else Text.Pattern.ofText? pattern) with
  | some p => ⟨names, p, pattern⟩
  | none => ⟨names, defaultPattern, defaultPatternText⟩

/-- How routers are recognised by settings of any type. A pattern with a number that is a fault is a
fault. -/
def ofSettings
    (factories : List Value)
    (pattern : Value) :
    Except Fault Recognition := do
  let names ← factories.mapM fun v =>
    match v with
    | .str s => .ok s
    | _ => .error Fault.unsupportedOperation
  match pattern with
  | .str p =>
    match Text.Pattern.fault? p with
    | some f => throw f
    | none => return ofTexts names p
  | p => if p.isFilled then throw .unexpectedType else return ofTexts names ""

end Settings

section Names

/-- Whether a name looks like that of a router. -/
def namesRouter
    (r : Recognition)
    (name : String) :
    Bool :=
  r.pattern.occursInAnyCase name

/-- Whether an expression is a factory. -/
def isFactory
    (r : Recognition)
    (e : Node) :
    Bool :=
  match e.kind with
  | .identifier => r.factories.contains e.text
  | .memberExpression => r.factories.contains e.propertyText
  | _ => false

/-- Whether an expression looks like a router: by its name, by its property, by the object of its
property, or by what it calls. -/
def looksLikeRouter
    (r : Recognition)
    (expression : Node) :
    Bool :=
  let e := expression.unwrap
  match e.kind with
  | .identifier => r.namesRouter e.text
  | .memberExpression =>
    r.namesRouter e.propertyText ||
      match e.child? .object with
      | some o => o.kind == .identifier && r.namesRouter o.text
      | none => false
  | .callExpression =>
    match _h : e.child? .function with
    | some f => looksLikeRouter r f
    | none => false
  | _ => false
  termination_by expression.count
  decreasing_by
    have h₁ := Node.count_lt_of_child? _h
    have h₂ : e.count ≤ expression.count := Node.count_unwrap_le expression
    omega

end Names

section Calls

/-- Whether a call builds a router. -/
def buildsRouter
    (r : Recognition)
    (call : Node) :
    Bool :=
  match (call.child? .function).map Node.unwrap with
  | some f => r.isFactory f || r.looksLikeRouter f
  | none => false

/-- Whether the value of an entry is another router. -/
def isReference
    (r : Recognition)
    (expression : Node) :
    Bool :=
  let e := expression.unwrap
  match e.kind with
  | .identifier | .shorthandPropertyIdentifier => r.namesRouter e.text
  | .memberExpression => r.looksLikeRouter e
  | .callExpression => r.buildsRouter e
  | _ => false

/-- The name by which an expression refers to a router. -/
def referenceName? (expression : Node) : Option String :=
  let e := expression.unwrap
  match e.kind with
  | .identifier | .shorthandPropertyIdentifier | .memberExpression => some e.text
  | .callExpression =>
    match (e.child? .function).map Node.unwrap with
    | some f =>
      if f.kind == .identifier || f.kind == .memberExpression then some f.text else none
    | none => none
  | _ => none

end Calls

end Recognition

section Places

/-- A node with the nodes around it, the nearest first. -/
structure Placed where
  node : Node
  around : List Node
  deriving Inhabited

mutual

/-- A node and all nodes below it, each before its children, with the nodes around them. -/
def placedTree
    (around : List Node) :
    Node → List Placed
  | .mk k r s t cs => ⟨.mk k r s t cs, around⟩ :: placedForest (.mk k r s t cs :: around) cs

/-- The nodes of a list of trees with the nodes around them. -/
def placedForest
    (around : List Node) :
    List Node → List Placed
  | [] => []
  | c :: rest => placedTree around c ++ placedForest around rest

end

/-- The name of the variable that a function without a name is the value of. -/
def holderName? : List Node → Option String
  | [] => none
  | p :: rest =>
    if p.kind == .variableDeclarator then (p.child? .name).map Node.text
    else if p.kind == .program then none
    else holderName? rest

/-- The name of a router by what stands around the call that builds it: the nearest variable, property
or function. -/
def nameAround? : List Node → Option String
  | [] => none
  | p :: rest =>
    if p.kind == .variableDeclarator then
      match p.child? .name with
      | some n => if n.kind == .identifier then some n.text else none
      | none => none
    else if p.kind == .pair then
      match (p.child? .key).bind Node.keyName? with
      | some key => if key.isEmpty then nameAround? rest else some key
      | none => nameAround? rest
    else if p.isFunction then
      match p.child? .name with
      | some n => some n.text
      | none => holderName? rest
    else nameAround? rest

/-- A call that builds a router, with the name of the router. -/
structure RouterCall where
  node : Node
  name : String
  deriving Inhabited

/-- The name of the router that a call builds; one that has none is named for its line. -/
def routerName (p : Placed) : String :=
  match nameAround? p.around with
  | some n => if n.isEmpty then "router@" ++ toString p.node.line else n
  | none => "router@" ++ toString p.node.line

/-- The first of all calls that begin at the same place. -/
def firstAtEachPlace : List Nat → List Placed → List Placed
  | _, [] => []
  | seen, p :: rest =>
    if seen.contains p.node.span.start then firstAtEachPlace seen rest
    else p :: firstAtEachPlace (p.node.span.start :: seen) rest

/-- The calls of a file that build routers, in source order and outer before inner. -/
def routerCalls
    (r : Recognition)
    (file : SourceFile) :
    List RouterCall :=
  let calls := (placedForest [file.root] file.root.children).filter fun p =>
    p.node.kind == .callExpression && r.buildsRouter p.node
  (firstAtEachPlace [] calls).map fun p => ⟨p.node, routerName p⟩

end Places

end RouteAtlas.Procedures
