import RouteAtlas.Syntax.Grammar.Types

/-!
# Patterns and parameters

Rules for what binds names: identifiers, destructuring patterns and the parameters of functions with
their decorators.
-/

namespace RouteAtlas.Syntax.Rule

section Patterns

/-- A value after an equals sign. -/
def initializer (self : Reader) : Rule (List Node) := do
  let e ← token "="
  refuses (exactToken "=")
  refuses (exactToken ">")
  let v ← self (.expression true)
  return [e, v.withRole .value]

/-- A pattern with a default. -/
def patternWithDefault (self : Reader) : Rule Node := do
  let left ← self .pattern
  let d ← opt (do
    let e ← token "="
    let v ← self (.expression true)
    return [e, v.withRole .right])
  match d with
  | [] => return left
  | _ => build .assignmentPattern (left.withRole .left :: d.flatten)

/-- The rest of what is matched. -/
def restPattern (self : Reader) : Rule Node := do
  let dots ← token "..."
  let p ← self .pattern
  build .restPattern [dots, p]

/-- An entry of an object pattern. -/
def objectPatternEntry (self : Reader) : Rule Node :=
  oneOf [
    restPattern self,
    do
      let k ← propertyName self
      let c ← token ":"
      let v ← patternWithDefault self
      build .pairPattern [k.withRole .key, c, v.withRole .value],
    do
      let n ← identifierAs .shorthandPropertyIdentifierPattern
      let e ← token "="
      let v ← self (.expression true)
      build .objectAssignmentPattern [n.withRole .left, e, v.withRole .right],
    name .shorthandPropertyIdentifierPattern]

/-- A pattern that takes an object apart. -/
def objectPattern (self : Reader) : Rule Node := do
  let all ← bracketed "\x7b" (objectPatternEntry self) "\x7d"
  build .objectPattern all

/-- A pattern that takes an array apart. -/
def arrayPattern (self : Reader) : Rule Node := do
  let all ← bracketed "[" (orElse (restPattern self) (patternWithDefault self)) "]"
  build .arrayPattern all

/-- A pattern that takes a value apart. -/
def destructuring (self : Reader) : Rule Node :=
  orElse (objectPattern self) (arrayPattern self)

/-- What a binding or an assignment may stand for. -/
def pattern (self : Reader) : Rule Node := do
  let c ← peek
  if c == '\x7b' then objectPattern self
  else if c == '[' then arrayPattern self
  else if c == '.' then restPattern self
  else self .postfix_

end Patterns

section Decorators

/-- The names of a decorator. -/
def decoratorNames : Rule Node := do
  let first ← identifier
  let more ← many do
    let dot ← token "."
    let p ← name .propertyIdentifier
    return (dot, p)
  let rec nest : Node → List (Node × Node) → Rule Node
    | acc, [] => return acc
    | acc, (dot, p) :: rest => do
      let next ← build .memberExpression [acc.withRole .object, dot, p.withRole .property]
      nest next rest
  nest first more

/-- An argument of a call. -/
def argument (self : Reader) : Rule Node :=
  orElse
    (do
      let dots ← token "..."
      let e ← self (.expression true)
      build .spreadElement [dots, e])
    (self (.expression true))

/-- The arguments of a call in parentheses. -/
def callArguments (self : Reader) : Rule Node := do
  let all ← bracketed "(" (argument self) ")"
  build .arguments all

/-- A decorator. -/
def decorator (self : Reader) : Rule Node := do
  let at_ ← token "@"
  let what ← orElse
    (do
      let l ← token "("
      let e ← self (.expressions true)
      let r ← token ")"
      build .parenthesizedExpression [l, e, r])
    (do
      let f ← decoratorNames
      let args ← opt (do
        let tas ← opt (as_ .typeArguments (typeArguments self))
        let args ← callArguments self
        return tas ++ [args.withRole .arguments])
      match args with
      | [] => return f
      | _ => build .callExpression (f.withRole .function :: args.flatten))
  build .decorator [at_, what]

/-- The decorators before a declaration. -/
def decorators (self : Reader) : Rule (List Node) :=
  many (as_ .decorator (decorator self))

end Decorators

section Parameters

/-- A keyword before a parameter that is more than the name of it. -/
def parameterMark (w : String) : Rule Node := do
  let m ← word w
  refuses (oneOf ([",", ")", ":", "?", "="].map token))
  return m

/-- A parameter of a function. -/
def parameter (self : Reader) : Rule Node := do
  let ds ← decorators self
  let access ← opt (do
    let m ← oneOf (["public", "private", "protected"].map parameterMark)
    build .accessibilityModifier [m])
  let overriding ← opt (do
    let m ← parameterMark "override"
    build .overrideModifier [m])
  let fixed ← opt (parameterMark "readonly")
  let p ← orElse (wordAs .thisExpression "this") (self .pattern)
  let q ← opt (token "?")
  let t ← optAscription self
  let v ← opt (initializer self)
  build (if q.isEmpty then .requiredParameter else .optionalParameter)
    (ds ++ access ++ overriding ++ fixed ++ [p.withRole .pattern] ++ q ++ t ++ v.flatten)

/-- The parameters of a function in parentheses. -/
def parameters (self : Reader) : Rule Node := do
  let all ← bracketed "(" (parameter self) ")"
  build .formalParameters all

end Parameters

end RouteAtlas.Syntax.Rule
