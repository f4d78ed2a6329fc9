import RouteAtlas.Syntax.Grammar.Literals

/-!
# Types

Rules for type expressions, type parameters and the members of object types and interfaces.
-/

namespace RouteAtlas.Syntax.Rule

section Annotations

/-- The assertion of a type by the result of a function, after the colon or arrow. -/
def typePredicate (self : Reader) : Rule Node := do
  let subject ← orElse (wordAs .thisExpression "this") identifier
  let is_ ← word "is"
  let t ← self .type
  build .typePredicate [subject.withRole .name, is_, t.withRole .type]

/-- A result that asserts a condition. -/
def assertion (self : Reader) : Rule Node := do
  let a ← word "asserts"
  let b ← lineBreakAhead
  guard !b
  let what ← oneOf [typePredicate self, wordAs .thisExpression "this", identifier]
  build .asserts [a, what]

/-- A type after a colon. -/
def typeAscription (self : Reader) : Rule Node := do
  let colon ← token ":"
  let t ← self .type
  build .typeAscription [colon, t]

/-- The type of a part of a declaration, if it is given. -/
def optAscription (self : Reader) : Rule (List Node) :=
  opt (as_ .type (typeAscription self))

/-- The result type of a function after a colon, or what its result asserts. -/
def resultAscription (self : Reader) : Rule Node :=
  oneOf [
    do
      let colon ← token ":"
      let a ← assertion self
      build .assertsAscription [colon, a],
    do
      let colon ← token ":"
      let p ← typePredicate self
      build .typePredicateAscription [colon, p],
    typeAscription self]

/-- A type parameter with its constraint and default. -/
def typeParameter (self : Reader) : Rule Node := do
  let marks ← many (do
    let m ← oneOf [word "const", word "in", word "out"]
    refuses (oneOf [token ",", token ">", token "=", word "extends"])
    return m)
  let n ← identifierAs .typeIdentifier
  let bound ← opt (as_ .constraint do
    let e ← orElse (word "extends") (token ":")
    let t ← self .type
    build .constraint [e, t])
  let standard ← opt (as_ .value do
    let e ← token "="
    let t ← self .type
    build .defaultType [e, t])
  build .typeParameter (marks ++ [n.withRole .name] ++ bound ++ standard)

/-- Type parameters in angle brackets. -/
def typeParameters (self : Reader) : Rule Node := do
  let all ← bracketed "<" (typeParameter self) ">"
  build .typeParameters all

/-- Types in angle brackets. -/
def typeArguments (self : Reader) : Rule Node := do
  let all ← bracketed "<" (self .type) ">"
  build .typeArguments all

/-- Type parameters, parameters and result type of a function. -/
def callSignature (self : Reader) : Rule (List Node) := do
  let tps ← opt (as_ .typeParameters (typeParameters self))
  let ps ← self .parameters
  let result ← opt (as_ .returnType (resultAscription self))
  return tps ++ [ps.withRole .parameters] ++ result

end Annotations

section Keys

/-- A name in brackets. -/
def computedName (self : Reader) : Rule Node := do
  let l ← token "["
  let e ← self (.expression true)
  let r ← token "]"
  build .computedPropertyName [l, e, r]

/-- The name of a property. -/
def propertyName (self : Reader) : Rule Node :=
  oneOf [name .propertyIdentifier, privateName, string, number, computedName self]

/-- What may follow the name of a member, so that a word before it is that name and no modifier. -/
def afterName : Rule Node :=
  oneOf (["(", "<", ":", "?", "!", "=", ";", ",", "\x7d"].map token)

/-- A keyword that modifies the member after it. -/
def modifier (w : String) : Rule Node := do
  let m ← word w
  refuses afterName
  return m

/-- The visibility of a member. -/
def accessibility : Rule Node := do
  let m ← oneOf (["public", "private", "protected"].map modifier)
  build .accessibilityModifier [m]

/-- The mark of a member that overrides another. -/
def override_ : Rule Node := do
  let m ← modifier "override"
  build .overrideModifier [m]

end Keys

section Members

/-- Mark of an accessor or a generator. -/
def accessorMark : Rule Node :=
  oneOf [modifier "get", modifier "set", token "*"]

/-- The key type of a mapped type. -/
def mappedClause (self : Reader) : Rule Node := do
  let n ← identifierAs .typeIdentifier
  let i ← word "in"
  let t ← self .type
  let alias_ ← opt (do
    let a ← word "as"
    let t ← self .type
    return [a, t.withRole .alias])
  build .mappedTypeClause ([n.withRole .name, i, t.withRole .type] ++ alias_.flatten)

/-- The type of an indexed member, with the marks that add or remove optionality. -/
def indexAscription (self : Reader) : Rule Node :=
  oneOf [
    do
      let m ← token "-?:"
      let t ← self .type
      build .omittingTypeAscription [m, t],
    do
      let m ← token "+?:"
      let t ← self .type
      build .addingTypeAscription [m, t],
    do
      let m ← token "?:"
      let t ← self .type
      build .optingTypeAscription [m, t],
    typeAscription self]

/-- A member for keys of a type. -/
def indexSignature (self : Reader) : Rule Node := do
  let marks ← opt (do
    let sign ← opt (as_ .sign (orElse (token "-") (token "+")))
    let r ← word "readonly"
    return sign ++ [r])
  let l ← token "["
  let inside ← orElse
    (do
      let n ← identifier
      let c ← token ":"
      let t ← self .type
      return [n.withRole .name, c, t.withRole .indexType])
    (do return [← mappedClause self])
  let r ← token "]"
  let t ← opt (as_ .type (indexAscription self))
  build .indexSignature (marks.flatten ++ [l] ++ inside ++ [r] ++ t)

/-- The modifiers that may stand before a member. -/
def memberModifiers : Rule (List Node) :=
  many (oneOf [accessibility, override_, modifier "static", modifier "readonly"])

/-- A method without a body. -/
def methodSignature (self : Reader) : Rule Node := do
  let ms ← memberModifiers
  let async_ ← opt (modifier "async")
  let accessor ← opt accessorMark
  let n ← propertyName self
  let q ← opt (token "?")
  let sig ← callSignature self
  build .methodSignature (ms ++ async_ ++ accessor ++ [n.withRole .name] ++ q ++ sig)

/-- A property of an object type. -/
def propertySignature (self : Reader) : Rule Node := do
  let ms ← memberModifiers
  let n ← propertyName self
  let q ← opt (token "?")
  let t ← optAscription self
  build .propertySignature (ms ++ [n.withRole .name] ++ q ++ t)

/-- A member that is called. -/
def callMember (self : Reader) : Rule Node := do
  let sig ← callSignature self
  build .callSignature sig

/-- A member that is constructed. -/
def constructMember (self : Reader) : Rule Node := do
  let n ← word "new"
  let tps ← opt (as_ .typeParameters (typeParameters self))
  let ps ← self .parameters
  let t ← optAscription self
  build .constructSignature ([n] ++ tps ++ [ps.withRole .parameters] ++ t)

/-- A member of an object type. -/
def typeMember (self : Reader) : Rule Node :=
  oneOf [indexSignature self, constructMember self, callMember self, methodSignature self,
    propertySignature self]

/-- The members of an object type between braces. -/
def objectTypeAs
    (kind : Kind)
    (self : Reader) :
    Rule Node := do
  let l ← token "\x7b"
  let first ← opt (orElse (token ",") (token ";"))
  let members ← many do
    let m ← typeMember self
    let stop ← orElse (do return [← token ","]) (statementEnd true)
    return m :: stop
  let r ← token "\x7d"
  build kind (l :: first ++ members.flatten ++ [r])

/-- An object type. -/
def objectType (self : Reader) : Rule Node :=
  objectTypeAs .objectType self

end Members

section Primary

/-- The types that have a keyword. -/
def predefined : List String :=
  ["any", "number", "boolean", "string", "symbol", "void", "unknown", "never", "object"]

/-- A type with a keyword. -/
def predefinedType : Rule Node :=
  orElse
    (do
      let u ← word "unique"
      let y ← word "symbol"
      build .predefinedType [u, y])
    (do
      let w ← wordOf predefined
      refuses (token ".")
      build .predefinedType [w])

/-- A literal as a type. -/
def literalType : Rule Node := do
  let l ← oneOf [string,
    wordAs .trueWord "true", wordAs .falseWord "false", wordAs .nullWord "null",
    wordAs .undefinedWord "undefined",
    do
      let sign ← orElse (token "-") (token "+")
      let n ← number
      build .unaryExpression [sign.withRole .operator, n.withRole .argument],
    number]
  build .literalType [l]

/-- A chain of names with points between them. -/
def nestedName : Rule (List (Node × Node) × Node) := do
  let first ← identifierAs .identifier
  let more ← many do
    let dot ← token "."
    let n ← name .identifier
    return (dot, n)
  match more.reverse with
  | [] => return ([], first)
  | (lastDot, last) :: rest =>
    let names := first :: (rest.reverse.map Prod.snd)
    let dots := (rest.reverse.map Prod.fst) ++ [lastDot]
    return (names.zip dots, last)

/-- The names before the last one of a chain, nested to the left. -/
def qualifier :
    Node → List Node → List Node → Rule Node
  | acc, dot :: dots, n :: names => do
    let next ← build .nestedIdentifier
      [acc.withRole .object, dot, (n.withKind .propertyIdentifier).withRole .property]
    qualifier next dots names
  | acc, _, _ => return acc

/-- A named type: one name, or a chain of names. -/
def typeName : Rule Node := do
  let (chain, last) ← nestedName
  match chain with
  | [] => return last.withKind .typeIdentifier
  | (first, dot) :: rest =>
    let dots := dot :: rest.map Prod.snd
    let container ← qualifier first dots.dropLast (rest.map Prod.fst)
    build .nestedTypeIdentifier
      [container.withRole .container, dots.getLastD dot,
        (last.withKind .typeIdentifier).withRole .name]

/-- A named type with or without type arguments. -/
def namedType (self : Reader) : Rule Node := do
  let n ← typeName
  let args ← opt (typeArguments self)
  match args with
  | [] => return n
  | _ => build .genericType (n.withRole .name :: args.map (Node.withRole .typeArguments))

/-- An element of a tuple type. -/
def tupleElement (self : Reader) : Rule Node :=
  oneOf [
    do
      let n ← identifier
      let t ← typeAscription self
      build .requiredParameter [n.withRole .name, t.withRole .type],
    do
      let n ← identifier
      let q ← token "?"
      let t ← typeAscription self
      build .optionalParameter [n.withRole .name, q, t.withRole .type],
    do
      let dots ← token "..."
      let n ← identifier
      let r ← build .restPattern [dots, n]
      let t ← typeAscription self
      build .requiredParameter [r.withRole .name, t.withRole .type],
    do
      let dots ← token "..."
      let t ← self .type
      build .restType [dots, t],
    do
      let t ← self .type
      let q ← opt (token "?")
      match q with
      | [] => return t
      | _ => build .optionalType (t :: q)]

/-- The value whose type is asked for: names with points, type arguments and imports. -/
def queriedValue (self : Reader) : Rule Node := do
  let first ← oneOf [
    do
      let i ← wordAs .importWord "import"
      let args ← bracketed "(" (self (.expression true)) ")"
      let a ← build .arguments args
      build .callExpression [i.withRole .function, a.withRole .arguments],
    wordAs .thisExpression "this", identifier]
  let rec go : Nat → Node → Rule Node
    | 0, acc => return acc
    | n + 1, acc => orElse
      (do
        let dot ← orElse (token ".") (token "?.")
        let p ← orElse (name .propertyIdentifier) privateName
        let next ← build .memberExpression [acc.withRole .object, dot, p.withRole .property]
        go n next)
      (return acc)
  let (s, _) ← here
  let value ← go (s.size + 1) first
  let args ← opt (typeArguments self)
  match args with
  | [] => return value
  | _ =>
    build .instantiationExpression
      (value.withRole .function :: args.map (Node.withRole .typeArguments))

/-- A type that stands by itself, before brackets that follow it. -/
def primaryType (self : Reader) : Rule Node :=
  oneOf [
    predefinedType,
    literalType,
    templateOf .templateLiteralType .templateType (self .type),
    do
      let t ← word "this"
      refuses (word "is")
      return t.withKind .thisType,
    do
      let k ← word "keyof"
      let t ← self .typeOperand
      build .indexTypeQuery [k, t],
    do
      let k ← word "typeof"
      let v ← queriedValue self
      build .typeQuery [k, v],
    do
      let i ← word "infer"
      let n ← identifierAs .typeIdentifier
      let bound ← opt (do
        let e ← word "extends"
        let t ← self .typeOperand
        refuses (token "?")
        return [e, t])
      build .inferType ([i, n] ++ bound.flatten),
    do
      let r ← word "readonly"
      let t ← self .typeOperand
      build .readonlyType [r, t],
    do
      let i ← word "import"
      let args ← bracketed "(" (self (.expression true)) ")"
      let a ← build .arguments args
      let call ← build .callExpression [i.withKind .importWord |>.withRole .function,
        a.withRole .arguments]
      let more ← many do
        let dot ← token "."
        let n ← name .typeIdentifier
        return (dot, n)
      match more.getLast? with
      | none => return call
      | some (dot, n) =>
        build .nestedTypeIdentifier [call.withRole .container, dot, n.withRole .name],
    namedType self,
    do
      let l ← token "("
      let t ← self .type
      let r ← token ")"
      build .parenthesizedType [l, t, r],
    objectType self,
    do
      let all ← bracketed "[" (tupleElement self) "]"
      build .tupleType all,
    wordAs .thisType "this",
    do
      let q ← token "?"
      let t ← self .typeOperand
      build .flowMaybeType [q, t],
    do
      let star ← token "*"
      build .existentialType [star]]

/-- The brackets after a type: arrays of it and look-ups in it. The first argument bounds their
number. -/
def typeSuffixes (self : Reader) : Nat → Node → Rule Node
  | 0, acc => return acc
  | n + 1, acc => orElse
    (do
      let b ← lineBreakAhead
      guard !b
      let l ← token "["
      let inside ← opt (self .type)
      let r ← token "]"
      let next ← match inside with
        | [] => build .arrayType [acc, l, r]
        | _ => build .lookupType ([acc, l] ++ inside ++ [r])
      typeSuffixes self n next)
    (return acc)

/-- A type with the brackets after it. -/
def typeOperand (self : Reader) : Rule Node := do
  let t ← primaryType self
  let (s, _) ← here
  typeSuffixes self (s.size + 1) t

end Primary

section Combined

/-- Types with an operator between each two, nested to the left; the operator may also stand before
the first one. -/
def typeChain
    (kind : Kind)
    (operator : String)
    (operand : Rule Node) :
    Rule Node := do
  let lead ← opt (token operator)
  let first ← operand
  let start ← match lead with
    | [] => pure first
    | _ => build kind (lead ++ [first])
  let more ← many do
    let op ← token operator
    let t ← operand
    return (op, t)
  let rec nest : Node → List (Node × Node) → Rule Node
    | acc, [] => return acc
    | acc, (op, t) :: rest => do
      let next ← build kind [acc, op, t]
      nest next rest
  nest start more

/-- A function type. -/
def functionType (self : Reader) : Rule Node := do
  let tps ← opt (as_ .typeParameters (typeParameters self))
  let ahead ← arrowAhead
  guard ahead
  let ps ← self .parameters
  let arrow ← token "=>"
  let result ← oneOf [assertion self, typePredicate self, self .type]
  build .functionType
    (tps ++ [ps.withRole .parameters, arrow, result.withRole .returnType])

/-- The type of a constructor. -/
def constructorType (self : Reader) : Rule Node := do
  let a ← opt (word "abstract")
  let n ← word "new"
  let tps ← opt (as_ .typeParameters (typeParameters self))
  let ps ← self .parameters
  let arrow ← token "=>"
  let t ← self .type
  build .constructorType
    (a ++ [n] ++ tps ++ [ps.withRole .parameters, arrow, t.withRole .type])

/-- A union of intersections. -/
def unionType (self : Reader) : Rule Node :=
  typeChain .unionType "|" (orElse (functionType self)
    (typeChain .intersectionType "&" (self .typeOperand)))

/-- A type. -/
def type (self : Reader) : Rule Node :=
  oneOf [functionType self, constructorType self, do
    let left ← unionType self
    let more ← opt (do
      let b ← lineBreakAhead
      guard !b
      let e ← word "extends"
      let right ← self .type
      let q ← token "?"
      let yes ← self .type
      let c ← token ":"
      let no ← self .type
      return [e, right.withRole .right, q, yes.withRole .consequence, c, no.withRole .alternative])
    match more with
    | [] => return left
    | _ => build .conditionalType (left.withRole .left :: more.flatten)]

end Combined

end RouteAtlas.Syntax.Rule
