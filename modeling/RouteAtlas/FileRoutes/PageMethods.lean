import RouteAtlas.FileRoutes.Methods

/-!
# Methods of a page

A page answers requests through one function, its default export, and chooses by the method of the
request. The methods that it compares with are those that it supports: by an equality of either
operand order, by the cases of a switch, or by membership in a list. The method may be read off the
request under a name of its own.
-/

namespace RouteAtlas.FileRoutes

open Syntax

section Handlers

/-- The function behind an expression: names of the same file and the arguments of calls around it
are followed. The first argument bounds the number of steps. -/
def handlerFunction?
    (file : SourceFile) :
    Nat → Node → Option Node
  | 0, _ => none
  | n + 1, expression =>
    let e := expression.unwrap
    if e.isFunction then some e
    else
      match e.kind with
      | .identifier =>
        match file.localDeclaration? e.text with
        | none => none
        | some d =>
          if d.kind == .variableDeclarator then (d.child? .value).bind (handlerFunction? file n)
          else if d.isFunction then some d
          else none
      | .variableDeclarator => (e.child? .value).bind (handlerFunction? file n)
      | .callExpression => e.callArguments.findSome? (handlerFunction? file n)
      | _ => none

/-- The largest number of steps from an export to the function behind it. -/
def maxHandlerSteps : Nat :=
  9

/-- What answers the requests of a page: a function, or the whole file when none is found behind the
export. -/
inductive PageHandler where
  | function (node : Node)
  | wholeFile

/-- The handler of a page: its default export, or else what it exports as its handler. -/
def pageHandler? (file : SourceFile) : Option PageHandler :=
  let behind (node : Node) : PageHandler :=
    match handlerFunction? file maxHandlerSteps node with
    | some f => .function f
    | none => .wholeFile
  match file.defaultExport? with
  | some node => some (behind node)
  | none => ((file.findExport? "handler").bind Export.node).map behind

/-- The node that a handler stands for. -/
def PageHandler.node
    (file : SourceFile) :
    PageHandler → Node
  | .function n => n
  | .wholeFile => file.root

/-- The number of lines of a handler: those of a function, or of the value of a variable. -/
def handlerLines (n : Node) : Nat :=
  if n.isFunction then n.lineCount
  else if n.kind == .variableDeclarator then ((n.child? .value).map Node.lineCount).getD 0
  else 0

end Handlers

section Requests

/-- The names under which a handler knows the request. -/
def requestNames (handler : Node) : List String :=
  let first := if handler.isFunction then handler.parameters.head?.bind Node.parameterName? else none
  (first.toList.filter fun n => !n.isEmpty).foldl addOnce ["req", "request"]

/-- Whether an expression is the method of the request. -/
def isMethodAccess
    (requests : List String)
    (expression : Node) :
    Bool :=
  let e := expression.unwrap
  if e.kind == .memberExpression then
    match (e.child? .object).map Node.unwrap with
    | some o => o.kind == .identifier && requests.contains o.text && e.propertyText == "method"
    | none => false
  else
    false

/-- The names that an object pattern binds to the property for the method. -/
def methodBindings (pattern : Node) : List String :=
  pattern.namedChildren.filterMap fun c =>
    match c.kind with
    | .shorthandPropertyIdentifierPattern => if c.text == "method" then some "method" else none
    | .objectAssignmentPattern =>
      match c.child? .left with
      | some l => if l.text == "method" then some "method" else none
      | none => none
    | .pairPattern =>
      if (c.child? .key).bind Node.keyName? = some "method" then
        match c.child? .value with
        | some v =>
          if v.kind == .identifier then some v.text
          else if v.kind == .assignmentPattern then (v.child? .left).map Node.text
          else none
        | none => none
      else none
    | _ => none

/-- The names that a declarator binds to the method of the request. -/
def aliasesOf
    (requests : List String)
    (declarator : Node) :
    List String :=
  match declarator.child? .name, (declarator.child? .value).map Node.unwrap with
  | some name, some value =>
    if name.kind == .identifier && isMethodAccess requests value then [name.text]
    else if name.kind == .objectPattern && value.kind == .identifier &&
        requests.contains value.text then
      methodBindings name
    else []
  | _, _ => []

/-- The names that a handler gives to the method of the request. -/
def methodAliases
    (requests : List String)
    (handler : Node) :
    List String :=
  ((handler.descendantsOf .variableDeclarator).flatMap (aliasesOf requests)).foldl addOnce []

/-- Whether an expression stands for the method of the request, calls of its own methods
included. -/
def isMethodReference
    (requests aliases : List String)
    (expression : Node) :
    Bool :=
  let e := expression.unwrap
  match e.kind with
  | .identifier => aliases.contains e.text
  | .callExpression =>
    match _hf : e.child? .function with
    | some f =>
      if f.kind == .memberExpression then
        match _ho : f.child? .object with
        | some o => isMethodReference requests aliases o
        | none => false
      else false
    | none => false
  | _ => isMethodAccess requests e
  termination_by expression.count
  decreasing_by
    have h₁ := Node.count_lt_of_child? _ho
    have h₂ := Node.count_lt_of_child? _hf
    have h₃ : e.count ≤ expression.count := Node.count_unwrap_le expression
    omega

end Requests

section Checks

/-- The methods that one construct compares with the method of the request. -/
def comparedVerbs
    (isReference : Node → Bool)
    (n : Node) :
    List String :=
  let refers (r : Role) := ((n.child? r).map isReference).getD false
  let literal (r : Role) := ((n.child? r).bind verbLiteral?).toList
  match n.kind with
  | .binaryExpression =>
    let operator := ((n.child? .operator).map Node.text).getD ""
    if operator == "===" || operator == "==" then
      if refers .left then literal .right
      else if refers .right then literal .left
      else []
    else []
  | .switchStatement =>
    if refers .value then
      match n.child? .body with
      | some body =>
        (body.namedChildren.filter fun c => c.kind == .switchCase).filterMap fun c =>
          (c.child? .value).bind verbLiteral?
      | none => []
    else []
  | .callExpression =>
    match n.child? .function, n.callArguments with
    | some f, a :: _ =>
      if f.kind == .memberExpression && f.propertyText == "includes" && isReference a then
        match (f.child? .object).map Node.unwrap with
        | some array =>
          if array.kind == .array then array.namedChildren.filterMap verbLiteral? else []
        | none => []
      else []
    | _, _ => []
  | _ => []

/-- The methods that a handler compares with the method of the request, in source order. -/
def comparedMethods (handler : Node) : List String :=
  let requests := requestNames handler
  let aliases := methodAliases requests handler
  let checks := handler.descendants fun d =>
    d.kind == .binaryExpression || d.kind == .switchStatement || d.kind == .callExpression
  (checks.flatMap (comparedVerbs (isMethodReference requests aliases))).foldl addOnce []

end Checks

end RouteAtlas.FileRoutes
