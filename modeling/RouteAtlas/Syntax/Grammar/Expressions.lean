import RouteAtlas.Syntax.Grammar.Patterns

/-!
# Expressions

Rules for expressions, from the literals up to assignments. Binary operators are read by climbing
through their levels of precedence.
-/

namespace RouteAtlas.Syntax.Rule

section Functions

/-- An arrow function. -/
def arrowFunction
    (self : Reader)
    (allowIn : Bool) :
    Rule Node := do
  let async_ ← opt (do
    let a ← word "async"
    let b ← lineBreakAhead
    guard !b
    refuses (token "=>")
    return a)
  let head ← orElse
    (do
      let n ← identifierAs .identifier
      let arrow ← token "=>"
      return [n.withRole .parameter, arrow])
    (do
      let tps ← opt (as_ .typeParameters (typeParameters self))
      let ahead ← arrowAhead
      guard ahead
      let ps ← self .parameters
      let result ← opt (as_ .returnType (resultAscription self))
      let arrow ← token "=>"
      return tps ++ [ps.withRole .parameters] ++ result ++ [arrow])
  let c ← peek
  let body ← if c == '\x7b' then self .block else self (.expression allowIn)
  build .arrowFunction (async_ ++ head ++ [body.withRole .body])

/-- A function with the keyword, as an expression. -/
def functionExpression (self : Reader) : Rule Node := do
  let async_ ← opt (word "async")
  let f ← word "function"
  let star ← opt (token "*")
  let n ← opt (as_ .name (identifierAs .identifier))
  let sig ← callSignature self
  let body ← self .block
  build (if star.isEmpty then .functionExpression else .generatorFunction)
    (async_ ++ [f] ++ star ++ n ++ sig ++ [body.withRole .body])

end Functions

section Objects

/-- A method of an object. -/
def objectMethod (self : Reader) : Rule Node := do
  let async_ ← opt (modifier "async")
  let accessor ← opt accessorMark
  let n ← propertyName self
  let q ← opt (token "?")
  let sig ← callSignature self
  let body ← self .block
  build .methodDefinition
    (async_ ++ accessor ++ [n.withRole .name] ++ q ++ sig ++ [body.withRole .body])

/-- An entry of an object. -/
def objectEntry (self : Reader) : Rule Node :=
  oneOf [
    do
      let dots ← token "..."
      let e ← self (.expression true)
      build .spreadElement [dots, e],
    do
      let k ← propertyName self
      let c ← token ":"
      let v ← self (.expression true)
      build .pair [k.withRole .key, c, v.withRole .value],
    objectMethod self,
    do
      let n ← identifierAs .shorthandPropertyIdentifierPattern
      let e ← token "="
      let v ← self (.expression true)
      build .objectAssignmentPattern [n.withRole .left, e, v.withRole .right],
    name .shorthandPropertyIdentifier]

/-- An object. -/
def object (self : Reader) : Rule Node := do
  let all ← bracketed "\x7b" (objectEntry self) "\x7d"
  build .object all

/-- An array. -/
def array (self : Reader) : Rule Node := do
  let all ← bracketed "[" (argument self) "]"
  build .array all

end Objects

section Classes

/-- What a class extends and implements. -/
def classHeritage (self : Reader) : Rule Node := do
  let ext ← opt do
    let e ← word "extends"
    let v ← self .postfix_
    let args ← opt (as_ .typeArguments (typeArguments self))
    build .extendsClause ([e, v.withRole .value] ++ args)
  let imp ← opt do
    let i ← word "implements"
    let ts ← sepBy1 (self .type) (token ",")
    build .implementsClause (i :: ts)
  build .classHeritage (ext ++ imp)

/-- A class without its decorators: from the keyword to the end of its body. -/
def classRest (self : Reader) : Rule (List Node) := do
  let c ← word "class"
  let n ← opt (as_ .name (do
    refuses (oneOf [word "extends", word "implements"])
    identifierAs .typeIdentifier))
  let tps ← opt (as_ .typeParameters (typeParameters self))
  let h ← opt (classHeritage self)
  let body ← self .classBody
  return [c] ++ n ++ tps ++ h ++ [body.withRole .body]

/-- A class as an expression. -/
def classExpression (self : Reader) : Rule Node := do
  let ds ← decorators self
  let rest ← classRest self
  build .classExpression (ds ++ rest)

end Classes

section Primary

/-- What stands in parentheses. -/
def parenthesized (self : Reader) : Rule Node := do
  let l ← token "("
  let e ← self (.expressions true)
  let t ← optAscription self
  let r ← token ")"
  build .parenthesizedExpression ([l, e] ++ t ++ [r])

/-- An expression that stands by itself, before calls and accesses. -/
def primary (self : Reader) : Rule Node := do
  let c ← peek
  if c == '"' || c.toNat == 39 then string
  else if c.toNat == 96 then template self
  else if c.isDigit || c == '.' then number
  else if c == '(' then parenthesized self
  else if c == '[' then array self
  else if c == '\x7b' then object self
  else if c == '/' then regex
  else if c == '#' then privateName
  else if c == '@' then classExpression self
  else if c == '<' then self .element
  else
    let n ← peekName
    match n with
    | "function" => functionExpression self
    | "class" => classExpression self
    | "this" => wordAs .thisExpression n
    | "super" => wordAs .superExpression n
    | "null" => wordAs .nullWord n
    | "true" => wordAs .trueWord n
    | "false" => wordAs .falseWord n
    | "import" =>
      orElse
        (do
          let i ← word "import"
          let dot ← token "."
          let m ← word "meta"
          build .metaProperty [i, dot, m])
        (wordAs .importWord n)
    | "async" => orElse (functionExpression self) identifier
    | _ => identifier

/-- An access to a property. -/
def memberSuffix
    (acc : Node) :
    Rule Node := do
  let dot ← orElse
    (do
      let q ← token "?."
      refuses (exactly .token fun s i => if (s.at_ i).isDigit then some i else none)
      build .optionalChain [q])
    (token ".")
  let p ← orElse (name .propertyIdentifier) privateName
  build .memberExpression [acc.withRole .object, dot, p.withRole .property]

/-- An access by an index. -/
def subscriptSuffix
    (self : Reader)
    (acc : Node) :
    Rule Node := do
  let q ← opt (do
    let q ← token "?."
    build .optionalChain [q])
  let l ← token "["
  let e ← self (.expressions true)
  let r ← token "]"
  build .subscriptExpression ([acc.withRole .object] ++ q ++ [l, e.withRole .index, r])

/-- A constructor call. -/
def newExpression (self : Reader) : Rule Node := do
  let n ← word "new"
  orElse
    (do
      let dot ← token "."
      let t ← word "target"
      build .metaProperty [n, dot, t])
    (do
      let (s, _) ← here
      let first ← orElse (do
        let w ← peekName
        guard (w == "new")
        self .unary) (primary self)
      let rec go : Nat → Node → Rule Node
        | 0, acc => return acc
        | k + 1, acc => orElse
          (do
            let next ← oneOf [memberSuffix acc, subscriptSuffix self acc]
            go k next)
          (return acc)
      let c ← go (s.size + 1) first
      let tas ← opt (as_ .typeArguments (self .typeArguments))
      let args ← opt (as_ .arguments (callArguments self))
      build .newExpression ([n, c.withRole .constructed] ++ tas ++ args))

/-- What may follow a function with type arguments that is not called. -/
def afterInstantiation : Rule Unit :=
  fun s i =>
    let j := s.next i
    if s.size ≤ j || ")]:;,.?\x7d=".toList.contains (s.at_ j) || s.breaksBetween i j then some ((), i)
    else none

/-- What follows an expression: accesses, calls, templates and assertions that it is there. -/
def suffix
    (self : Reader)
    (acc : Node) :
    Rule Node :=
  oneOf [
    memberSuffix acc,
    subscriptSuffix self acc,
    do
      let q ← opt (token "?.")
      let tas ← opt (as_ .typeArguments (self .typeArguments))
      let args ← callArguments self
      build .callExpression ([acc.withRole .function] ++ q ++ tas ++ [args.withRole .arguments]),
    do
      let tas ← opt (as_ .typeArguments (self .typeArguments))
      let t ← template self
      build .callExpression ([acc.withRole .function] ++ tas ++ [t.withRole .arguments]),
    do
      let b ← lineBreakAhead
      guard !b
      let bang ← token "!"
      refuses (exactToken "=")
      build .nonNullExpression [acc, bang],
    do
      let tas ← self .typeArguments
      afterInstantiation
      build .instantiationExpression [acc.withRole .function, tas.withRole .typeArguments]]

/-- An expression with what follows it. The first argument bounds the number of suffixes. -/
def suffixes (self : Reader) : Nat → Node → Rule Node
  | 0, acc => return acc
  | n + 1, acc => orElse
    (do
      let next ← suffix self acc
      suffixes self n next)
    (return acc)

/-- An expression with accesses and calls. -/
def postfix_ (self : Reader) : Rule Node := do
  let n ← peekName
  let first ← if n == "new" then newExpression self else primary self
  let (s, _) ← here
  suffixes self (s.size + 1) first

end Primary

section Operators

/-- The increment and decrement operators. -/
def stepOperator : Rule Node :=
  orElse (token "++") (token "--")

/-- A prefix operator with its operand. -/
def prefixed (self : Reader) : Rule Node := do
  let op ← oneOf (["!", "~", "-", "+"].map token ++ ["typeof", "void", "delete"].map word)
  let a ← self .unary
  build .unaryExpression [op.withRole .operator, a.withRole .argument]

/-- A type asserted in angle brackets before an expression. -/
def typeAssertion (self : Reader) : Rule Node := do
  let (s, _) ← here
  guard (s.dialect == .plain)
  let t ← self .typeArguments
  let e ← self .unary
  build .typeAssertion [t, e]

/-- The type arguments of an assertion to constants. -/
def constAssertion (self : Reader) : Rule Node := do
  let (s, _) ← here
  guard (s.dialect == .plain)
  let l ← token "<"
  let c ← word "const"
  let r ← token ">"
  let t ← build .typeArguments [l, c, r]
  let e ← self .unary
  build .typeAssertion [t, e]

/-- An expression with unary operators. -/
def unary (self : Reader) : Rule Node := do
  let c ← peek
  let n ← peekName
  if c == '<' then
    oneOf [constAssertion self, typeAssertion self, self .postfix_]
  else if n == "await" then
    orElse
      (do
        let a ← word "await"
        let e ← self .unary
        build .awaitExpression [a, e])
      (self .postfix_)
  else
    oneOf [
      do
        let op ← stepOperator
        let a ← self .unary
        build .updateExpression [op.withRole .operator, a.withRole .argument],
      prefixed self,
      do
        let a ← self .postfix_
        let op ← opt (do
          let b ← lineBreakAhead
          guard !b
          stepOperator)
        match op with
        | [] => return a
        | _ => build .updateExpression (a.withRole .argument :: op.map (Node.withRole .operator))]

/-- The binary operators of each level of precedence, the weakest first; longer operators stand
before those they start with. -/
def binaryLevels : List (List String) :=
  [["??"], ["||"], ["&&"], ["|"], ["^"], ["&"], ["===", "!==", "==", "!="],
   ["<=", ">=", "<", ">", "instanceof", "in"], [">>>", "<<", ">>"], ["+", "-"], ["*", "/", "%"],
   ["**"]]

/-- The level of precedence of comparisons, on which casts stand too. -/
def comparisonLevel : Nat :=
  7

/-- What must not follow an operator, because it would be a longer one. -/
def longerOperator : String → List String
  | "|" => ["|", "="]
  | "&" => ["&", "="]
  | "||" => ["="]
  | "&&" => ["="]
  | "??" => ["="]
  | "<" => ["<", "="]
  | ">" => [">", "="]
  | "<<" => ["="]
  | ">>" => [">", "="]
  | ">>>" => ["="]
  | "+" => ["+", "="]
  | "-" => ["-", "="]
  | "*" => ["*", "="]
  | "**" => ["="]
  | "/" => ["="]
  | "%" => ["="]
  | "^" => ["="]
  | "==" => ["="]
  | "!=" => ["="]
  | _ => []

/-- A binary operator. -/
def binaryOperator (op : String) : Rule Node := do
  let n ← if (op.toList.headD ' ').isAlpha then word op else token op
  refuses (oneOf ((longerOperator op).map exactToken))
  return n

/-- A cast to a type, or a check that an expression satisfies one. -/
def cast
    (self : Reader)
    (acc : Node) :
    Rule Node := do
  let b ← lineBreakAhead
  guard !b
  orElse
    (do
      let a ← word "as"
      let t ← orElse (word "const") (self .type)
      build .asExpression [acc, a, t])
    (do
      let a ← word "satisfies"
      let t ← self .type
      build .satisfiesExpression [acc, a, t])

/-- An expression with the binary operators of a list of levels, nested to the left. -/
def binary
    (self : Reader)
    (allowIn : Bool) :
    List (List String) → Rule Node
  | [] => self .unary
  | ops :: stronger => do
    let allowed := ops.filter fun op => allowIn || op != "in"
    let operand := binary self allowIn stronger
    let first ← operand
    let (s, _) ← here
    let rec go : Nat → Node → Rule Node
      | 0, acc => return acc
      | n + 1, acc => orElse
        (do
          let next ← orElse
            (do
              let op ← oneOf (allowed.map binaryOperator)
              let right ← operand
              build .binaryExpression
                [acc.withRole .left, op.withRole .operator, right.withRole .right])
            (do
              guard (ops.contains "instanceof")
              cast self acc)
          go n next)
        (return acc)
    go (s.size + 1) first

/-- The operators that assign a changed value. -/
def augmentedOperators : List String :=
  ["+=", "-=", "*=", "/=", "%=", "^=", "&=", "|=", ">>=", ">>>=", "<<=", "**=", "&&=", "||=", "??="]

/-- Whether an expression is a target of assignments as it stands. -/
def isTarget (n : Node) : Bool :=
  [Kind.identifier, .undefinedWord, .memberExpression, .subscriptExpression, .nonNullExpression,
    .parenthesizedExpression].contains n.kind

/-- The rest of a conditional expression, behind its question mark, given how the first branch is
read. -/
def branches
    (self : Reader)
    (allowIn : Bool)
    (first : Rule Node) :
    Rule (List Node) := do
  let yes ← first
  let colon ← token ":"
  let no ← self (.expression allowIn)
  return [yes.withRole .consequence, colon, no.withRole .alternative]

/-- A conditional expression, or a binary one. A first branch in parentheses may look like the
parameters of an arrow function with a result type; if no colon is left then, it is read without. -/
def conditional
    (self : Reader)
    (allowIn : Bool) :
    Rule Node := do
  let c ← binary self allowIn binaryLevels
  let more ← opt (do
    let q ← token "?"
    let rest ← orElse
      (branches self allowIn (self (.expression true)))
      (branches self allowIn (binary self true binaryLevels))
    return q :: rest)
  match more with
  | [] => return c
  | _ => build .ternaryExpression (c.withRole .condition :: more.flatten)

/-- An assignment to a pattern. -/
def patternAssignment
    (self : Reader)
    (allowIn : Bool) :
    Rule Node := do
  let left ← destructuring self
  let e ← token "="
  refuses (oneOf [exactToken "=", exactToken ">"])
  let right ← self (.expression allowIn)
  build .assignmentExpression [left.withRole .left, e, right.withRole .right]

/-- An assignment, or an expression of a stronger form. -/
def assignment
    (self : Reader)
    (allowIn : Bool) :
    Rule Node := do
  let left ← conditional self allowIn
  if left.kind == .object || left.kind == .array then return left
  let more ← opt (do
    guard (isTarget left)
    orElse
      (do
        let e ← token "="
        refuses (oneOf [exactToken "=", exactToken ">"])
        let right ← self (.expression allowIn)
        return (Kind.assignmentExpression, [e, right.withRole .right]))
      (do
        let op ← oneOf (augmentedOperators.map token)
        let right ← self (.expression allowIn)
        return (.augmentedAssignmentExpression, [op.withRole .operator, right.withRole .right])))
  match more with
  | [] => return left
  | (kind, rest) :: _ => build kind (left.withRole .left :: rest)

/-- A yield of a value. -/
def yield_
    (self : Reader)
    (allowIn : Bool) :
    Rule Node := do
  let y ← word "yield"
  let b ← lineBreakAhead
  let rest ← if b then pure [] else opt (orElse
    (do
      let star ← token "*"
      let e ← self (.expression allowIn)
      return [star, e])
    (do return [← self (.expression allowIn)]))
  build .yieldExpression (y :: rest.flatten)

/-- Whether an arrow function may start here. -/
def mayBeArrow : Rule Bool :=
  fun s i =>
    let j := s.next i
    let c := s.at_ j
    if c == '(' || c == '<' then some (true, i)
    else
      match s.nameEnd? j with
      | none => some (false, i)
      | some k => some (s.holds ['=', '>'] (s.next k) || s.slice j k == "async", i)

/-- An expression. -/
def expression
    (self : Reader)
    (allowIn : Bool) :
    Rule Node := do
  let c ← peek
  let n ← peekName
  let arrow ← mayBeArrow
  oneOf [
    do guard arrow; arrowFunction self allowIn,
    do guard (n == "yield"); yield_ self allowIn,
    do
      guard (c == '\x7b' || c == '[')
      let ahead ← assignmentAhead
      guard ahead
      patternAssignment self allowIn,
    assignment self allowIn]

/-- Expressions with commas between them. -/
def expressions
    (self : Reader)
    (allowIn : Bool) :
    Rule Node := do
  let first ← self (.expression allowIn)
  let more ← many do
    let c ← token ","
    let e ← self (.expression allowIn)
    return [c, e]
  match more with
  | [] => return first
  | _ => build .sequenceExpression (first :: more.flatten)

end Operators

end RouteAtlas.Syntax.Rule
