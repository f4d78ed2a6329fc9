import RouteAtlas.Syntax.Grammar.Expressions
import RouteAtlas.Syntax.Grammar.Markup

/-!
# Statements and declarations

Rules for statements, for the declarations of functions, classes, types and variables, and for the
imports and exports of a module.
-/

namespace RouteAtlas.Syntax.Rule

section Variables

/-- One variable of a declaration. -/
def declarator
    (self : Reader)
    (allowIn : Bool) :
    Rule Node := do
  let n ← orElse (identifierAs .identifier) (destructuring self)
  let bang ← opt (token "!")
  let t ← optAscription self
  let v ← opt (do
    let e ← token "="
    let v ← self (.expression allowIn)
    return [e, v.withRole .value])
  build .variableDeclarator ([n.withRole .name] ++ bang ++ t ++ v.flatten)

/-- The keyword and the variables of a declaration. -/
def declaredVariables
    (self : Reader)
    (allowIn : Bool) :
    Rule (Kind × List Node) := do
  let k ← wordOf ["const", "let", "var"]
  let ds ← sepBy1 (declarator self allowIn) (token ",")
  if k.text == "var" then return (.variableDeclaration, k :: ds)
  else return (.lexicalDeclaration, k.withRole .keyword :: ds)

/-- A declaration of variables. -/
def variableStatement (self : Reader) : Rule Node := do
  let (kind, parts) ← declaredVariables self true
  endStatement kind parts false

end Variables

section Functions

/-- A declaration of a function, with a body or as a signature only. -/
def functionStatement (self : Reader) : Rule Node := do
  let async_ ← opt (word "async")
  let f ← word "function"
  let star ← opt (token "*")
  let n ← identifierAs .identifier
  let sig ← callSignature self
  let head := async_ ++ [f] ++ star ++ [n.withRole .name] ++ sig
  orElse
    (do
      let body ← self .block
      endDeclaration (if star.isEmpty then .functionDeclaration else .generatorFunctionDeclaration)
        (head ++ [body.withRole .body]))
    (endStatement .functionSignature head true)

end Functions

section Classes

/-- A member of a class with a body, or a signature. -/
def classMethod (self : Reader) : Rule (List Node) := do
  let ms ← many (oneOf [accessibility, override_,
    oneOf (["static", "readonly", "abstract", "declare"].map modifier)])
  let async_ ← opt (modifier "async")
  let accessor ← opt accessorMark
  let n ← propertyName self
  let q ← opt (token "?")
  let sig ← callSignature self
  let parts := ms ++ async_ ++ accessor ++ [n.withRole .name] ++ q ++ sig
  orElse
    (do
      let body ← self .block
      let m ← build .methodDefinition (parts ++ [body.withRole .body])
      return [m])
    (do
      let abstract_ := ms.any fun m => m.text == "abstract"
      let m ← build (if abstract_ then .abstractMethodSignature else .methodSignature) parts
      let stop ← orElse (do return [← token ","]) (statementEnd true)
      return m :: stop)

/-- A field of a class. -/
def classField
    (self : Reader)
    (ds : List Node) :
    Rule (List Node) := do
  let ms ← many (oneOf [accessibility, override_,
    oneOf (["static", "readonly", "abstract", "declare", "accessor"].map modifier)])
  let n ← propertyName self
  let mark ← opt (orElse (token "?") (token "!"))
  let t ← optAscription self
  let v ← opt (initializer self)
  let f ← build .publicFieldDefinition
    (ds ++ ms ++ [n.withRole .name] ++ mark ++ t ++ v.flatten)
  let stop ← orElse (do return [← token ","]) (statementEnd v.isEmpty)
  return f :: stop

/-- A member of a class with its decorators. Those of a field are part of it, those of a method stand
before it. -/
def classMember (self : Reader) : Rule (List Node) :=
  oneOf [
    do return [← token ";"],
    do
      let st ← word "static"
      let body ← self .block
      return [← build .classStaticBlock [st, body.withRole .body]],
    do
      let ds ← decorators self
      orElse
        (do
          let m ← classMethod self
          return ds ++ m)
        (classField self ds),
    do
      let i ← indexSignature self
      let stop ← orElse (do return [← token ","]) (statementEnd true)
      return i :: stop]

/-- The body of a class. -/
def classBody (self : Reader) : Rule Node := do
  let l ← token "\x7b"
  let members ← many (classMember self)
  let r ← token "\x7d"
  build .classBody (l :: members.flatten ++ [r])

/-- A declaration of a class, after its decorators. -/
def classStatementWith
    (self : Reader)
    (ds : List Node) :
    Rule Node := do
  let abstract_ ← opt (word "abstract")
  let c ← word "class"
  let n ← identifierAs .typeIdentifier
  let tps ← opt (as_ .typeParameters (typeParameters self))
  let h ← opt (classHeritage self)
  let body ← self .classBody
  let parts :=
    ds ++ abstract_ ++ [c, n.withRole .name] ++ tps ++ h ++ [body.withRole .body]
  if abstract_.isEmpty then endDeclaration .classDeclaration parts
  else build .abstractClassDeclaration parts

/-- A declaration of a class. -/
def classStatement (self : Reader) : Rule Node := do
  let ds ← decorators self
  classStatementWith self ds

end Classes

section Types

/-- A declaration of an interface. -/
def interfaceStatement (self : Reader) : Rule Node := do
  let i ← word "interface"
  let n ← identifierAs .typeIdentifier
  let tps ← opt (as_ .typeParameters (typeParameters self))
  let h ← opt do
    let e ← word "extends"
    let ts ← sepBy1 (as_ .type (namedType self)) (token ",")
    build .extendsTypeClause (e :: ts)
  let body ← objectTypeAs .interfaceBody self
  build .interfaceDeclaration ([i, n.withRole .name] ++ tps ++ h ++ [body.withRole .body])

/-- A declaration of a name for a type. -/
def aliasStatement (self : Reader) : Rule Node := do
  let t ← word "type"
  let n ← identifierAs .typeIdentifier
  let tps ← opt (as_ .typeParameters (typeParameters self))
  let e ← token "="
  let v ← self .type
  endStatement .typeAliasDeclaration ([t, n.withRole .name] ++ tps ++ [e, v.withRole .value]) true

/-- A member of an enumeration. -/
def enumMember (self : Reader) : Rule Node := do
  let n ← propertyName self
  let v ← opt (initializer self)
  match v with
  | [] => return n.withRole .name
  | _ => build .enumAssignment (n.withRole .name :: v.flatten)

/-- A declaration of an enumeration. -/
def enumStatement (self : Reader) : Rule Node := do
  let c ← opt (word "const")
  let e ← word "enum"
  let n ← identifierAs .identifier
  let all ← bracketed "\x7b" (enumMember self) "\x7d"
  let body ← build .enumBody all
  build .enumDeclaration (c ++ [e, n.withRole .name, body.withRole .body])

/-- A chain of names with points, as one node. -/
def dottedName : Rule Node := do
  let (chain, last) ← nestedName
  let names := chain.map Prod.fst ++ [last]
  match names with
  | [] => fail
  | first :: rest => qualifier first (chain.map Prod.snd) rest

/-- A namespace. -/
def namespaceStatement (self : Reader) : Rule Node := do
  let w ← orElse (word "namespace") (word "module")
  let b ← lineBreakAhead
  guard !b
  let n ← orElse string dottedName
  let body ← opt (as_ .body (self .block))
  let isModule := w.text == "module"
  guard (isModule || !body.isEmpty)
  let parts := [w, n.withRole .name] ++ body
  if body.isEmpty then endStatement .moduleDeclaration parts false
  else build (if isModule then .moduleDeclaration else .namespaceDeclaration) parts

/-- A short name for a member of a namespace. -/
def importAlias : Rule Node := do
  let i ← word "import"
  let n ← identifier
  let e ← token "="
  let v ← dottedName
  endStatement .importAlias [i, n, e, v] false

end Types

section Modules

/-- Where a module is imported from. -/
def fromClause : Rule (List Node) := do
  let f ← word "from"
  let s ← string
  return [f, s.withRole .source]

/-- The attributes of an import. -/
def importAttribute (self : Reader) : Rule Node := do
  let w ← orElse (word "with") (word "assert")
  let o ← object self
  build .importAttribute [w, o]

/-- A name by which a module exports. -/
def exportedName : Rule Node :=
  oneOf [string, word "default", name .identifier]

/-- A keyword for types before a name that is imported or exported. -/
def typeMark : Rule Node := do
  let t ← orElse (word "type") (word "typeof")
  refuses (oneOf [token ",", token "\x7d", do
    let a ← word "as"
    refuses (word "as")
    return a])
  return t

/-- One imported name. -/
def importSpecifier : Rule Node := do
  let t ← opt typeMark
  let n ← exportedName
  let a ← opt (do
    let a ← word "as"
    let n ← name .identifier
    return [a, n.withRole .alias])
  build .importSpecifier (t ++ [n.withRole .name] ++ a.flatten)

/-- All names of a module under one. -/
def namespaceImport : Rule Node := do
  let star ← token "*"
  let a ← word "as"
  let n ← name .identifier
  build .namespaceImport [star, a, n]

/-- Imported names in braces. -/
def namedImports : Rule Node := do
  let all ← bracketed "\x7b" importSpecifier "\x7d"
  build .namedImports all

/-- What is imported. -/
def importClause : Rule Node := do
  let parts ← oneOf [
    do return [← namespaceImport],
    do return [← namedImports],
    do
      let n ← name .identifier
      let more ← opt (do
        let c ← token ","
        let m ← orElse namespaceImport namedImports
        return [c, m])
      return n :: more.flatten]
  build .importClause parts

/-- An import. -/
def importStatement (self : Reader) : Rule Node := do
  let i ← word "import"
  let t ← opt (do
    let t ← orElse (word "type") (word "typeof")
    refuses (orElse (word "from") (token ","))
    refuses (token "=")
    return t)
  let body ← oneOf [
    do
      let s ← string
      return [s.withRole .source],
    do
      let c ← importClause
      let f ← fromClause
      return c :: f,
    do
      let n ← identifier
      let e ← token "="
      let r ← word "require"
      let l ← token "("
      let s ← string
      let p ← token ")"
      return [← build .importRequireClause [n, e, r, l, s.withRole .source, p]]]
  let attrs ← opt (importAttribute self)
  endStatement .importStatement ([i] ++ t ++ body ++ attrs) false

/-- One exported name. -/
def exportSpecifier : Rule Node := do
  let t ← opt typeMark
  let n ← exportedName
  let a ← opt (do
    let a ← word "as"
    let n ← exportedName
    return [a, n.withRole .alias])
  build .exportSpecifier (t ++ [n.withRole .name] ++ a.flatten)

/-- Exported names in braces. -/
def exportClause : Rule Node := do
  let all ← bracketed "\x7b" exportSpecifier "\x7d"
  build .exportClause all

/-- A declaration, which may be exported. -/
def declaration (self : Reader) : Rule Node := do
  let c ← peek
  if c == '@' then classStatement self
  else
    let n ← peekName
    match n with
    | "const" => orElse (enumStatement self) (variableStatement self)
    | "let" => variableStatement self
    | "var" => variableStatement self
    | "function" => functionStatement self
    | "async" => functionStatement self
    | "class" => classStatement self
    | "abstract" => classStatement self
    | "interface" => interfaceStatement self
    | "enum" => enumStatement self
    | "type" => aliasStatement self
    | "namespace" => namespaceStatement self
    | "module" => namespaceStatement self
    | "import" => importAlias
    | _ => fail

/-- A declaration of what is defined elsewhere. -/
def ambientStatement
    (self : Reader)
    (inner : Rule Node) :
    Rule Node := do
  let d ← word "declare"
  orElse
    (do
      let g ← word "global"
      let body ← self .block
      build .ambientDeclaration [d, g, body])
    (do
      let x ← inner
      build .ambientDeclaration [d, x])

/-- A declaration after the keyword that exports it, with the decorators between them. -/
def exportedDeclaration (self : Reader) : Rule Node :=
  orElse (declaration self) (ambientStatement self (declaration self))

/-- What an export exports as the default. -/
def defaultExport (self : Reader) : Rule (List Node) := do
  let d ← word "default"
  orElse
    (do
      let x ← exportedDeclaration self
      return [d, x.withRole .declaration])
    (do
      let v ← self (.expression true)
      let stop ← statementEnd false
      return [d, v.withRole .value] ++ stop)

/-- An export. -/
def exportStatement (self : Reader) : Rule Node := do
  let ds ← decorators self
  let e ← word "export"
  let rest ← oneOf [
    do
      let star ← token "*"
      let f ← fromClause
      let stop ← statementEnd false
      return star :: f ++ stop,
    do
      let star ← token "*"
      let a ← word "as"
      let n ← exportedName
      let ns ← build .namespaceExport [star, a, n]
      let f ← fromClause
      let stop ← statementEnd false
      return ns :: f ++ stop,
    do
      let t ← opt (word "type")
      let c ← exportClause
      let f ← opt fromClause
      let stop ← statementEnd false
      return t ++ [c] ++ f.flatten ++ stop,
    do
      let eq ← token "="
      let v ← self (.expression true)
      let stop ← statementEnd false
      return [eq, v] ++ stop,
    do
      let a ← word "as"
      let n ← word "namespace"
      let i ← identifier
      let stop ← statementEnd false
      return [a, n, i] ++ stop,
    defaultExport self,
    do
      let x ← exportedDeclaration self
      return [x.withRole .declaration]]
  buildToHere .exportStatement (ds ++ [e] ++ rest)

end Modules

section Control

/-- A condition in parentheses. -/
def condition (self : Reader) : Rule Node :=
  as_ .condition (parenthesized self)

/-- Statements between braces. -/
def block (self : Reader) : Rule Node := do
  let l ← token "\x7b"
  let body ← many (self .statement)
  let r ← token "\x7d"
  build .statementBlock (l :: body ++ [r])

/-- A choice by a condition. -/
def ifStatement (self : Reader) : Rule Node := do
  let i ← word "if"
  let c ← condition self
  let yes ← self .statement
  let no ← opt (as_ .alternative do
    let e ← word "else"
    let s ← self .statement
    build .elseClause [e, s])
  build .ifStatement ([i, c, yes.withRole .consequence] ++ no)

/-- A case of a switch. -/
def switchCase (self : Reader) : Rule Node :=
  orElse
    (do
      let c ← word "case"
      let v ← self (.expressions true)
      let colon ← token ":"
      let body ← many (as_ .body (self .statement))
      build .switchCase ([c, v.withRole .value, colon] ++ body))
    (do
      let d ← word "default"
      let colon ← token ":"
      let body ← many (as_ .body (self .statement))
      build .switchDefault ([d, colon] ++ body))

/-- A choice by a value. -/
def switchStatement (self : Reader) : Rule Node := do
  let s ← word "switch"
  let v ← parenthesized self
  let l ← token "\x7b"
  let cases ← many (switchCase self)
  let r ← token "\x7d"
  let body ← build .switchBody (l :: cases ++ [r])
  build .switchStatement [s, v.withRole .value, body.withRole .body]

/-- A loop over the items of a value. -/
def forInStatement (self : Reader) : Rule Node := do
  let f ← word "for"
  let a ← opt (word "await")
  let l ← token "("
  let left ← orElse
    (do
      let k ← wordOf ["const", "let", "var"]
      let p ← orElse (identifierAs .identifier) (destructuring self)
      return [k.withRole .keyword, p.withRole .left])
    (do
      let p ← self .pattern
      return [p.withRole .left])
  let op ← orElse (word "of") (word "in")
  let right ← self (.expressions true)
  let r ← token ")"
  let body ← self .statement
  build .forInStatement
    ([f] ++ a ++ [l] ++ left ++
      [op.withRole .operator, right.withRole .right, r, body.withRole .body])

/-- A statement that consists of nothing but a semicolon. -/
def emptyStatement : Rule Node := do
  let s ← token ";"
  build .emptyStatement [s]

/-- A loop with a counter. -/
def forStatement (self : Reader) : Rule Node := do
  let f ← word "for"
  let l ← token "("
  let init ← oneOf [
    do
      let (kind, parts) ← declaredVariables self false
      let semi ← token ";"
      return [← build kind (parts ++ [semi])],
    do
      let e ← self (.expressions false)
      let semi ← token ";"
      return [e, semi],
    do return [← emptyStatement]]
  let cond ← orElse
    (do
      let e ← self (.expressions true)
      let semi ← token ";"
      return [e, semi])
    (do return [← emptyStatement])
  let step ← opt (as_ .increment (self (.expressions true)))
  let r ← token ")"
  let body ← self .statement
  let marked (role : Role) (ns : List Node) : List Node :=
    match ns with
    | [] => []
    | n :: rest => n.withRole role :: rest
  build .forStatement
    ([f, l] ++ marked .initializer init ++ marked .condition cond ++ step ++
      [r, body.withRole .body])

/-- A loop that tests before each round. -/
def whileStatement (self : Reader) : Rule Node := do
  let w ← word "while"
  let c ← condition self
  let body ← self .statement
  build .whileStatement [w, c, body.withRole .body]

/-- A loop that tests after each round. -/
def doStatement (self : Reader) : Rule Node := do
  let d ← word "do"
  let body ← self .statement
  let w ← word "while"
  let c ← condition self
  let semi ← opt (token ";")
  build .doStatement ([d, body.withRole .body, w, c] ++ semi)

/-- A block with the handling of its errors. -/
def tryStatement (self : Reader) : Rule Node := do
  let t ← word "try"
  let body ← self .block
  let handler ← opt (as_ .handler do
    let c ← word "catch"
    let p ← opt (do
      let l ← token "("
      let p ← orElse (identifierAs .identifier) (destructuring self)
      let t ← optAscription self
      let r ← token ")"
      return [l, p.withRole .parameter] ++ t ++ [r])
    let b ← self .block
    build .catchClause ([c] ++ p.flatten ++ [b.withRole .body]))
  let last ← opt (as_ .finalizer do
    let f ← word "finally"
    let b ← self .block
    build .finallyClause [f, b.withRole .body])
  build .tryStatement ([t, body.withRole .body] ++ handler ++ last)

/-- A jump out of a loop or to its next round. -/
def jumpStatement
    (kind : Kind)
    (w : String) :
    Rule Node := do
  let k ← word w
  let label ← opt (as_ .label do
    let b ← lineBreakAhead
    guard !b
    identifierAs .statementIdentifier)
  endStatement kind (k :: label) false

/-- A statement that leaves a function with a value or an error. -/
def leaveStatement
    (self : Reader)
    (kind : Kind)
    (w : String) :
    Rule Node := do
  let k ← word w
  let b ← lineBreakAhead
  let v ← if b then pure [] else opt (self (.expressions true))
  endStatement kind (k :: v) false

/-- A statement whose object's members are in scope. -/
def withStatement (self : Reader) : Rule Node := do
  let w ← word "with"
  let o ← parenthesized self
  let body ← self .statement
  build .withStatement [w, o.withRole .object, body.withRole .body]

/-- A statement with a label. -/
def labeledStatement (self : Reader) : Rule Node := do
  let l ← identifierAs .statementIdentifier
  let c ← token ":"
  let body ← self .statement
  build .labeledStatement [l.withRole .label, c, body.withRole .body]

/-- An expression as a statement. -/
def expressionStatement (self : Reader) : Rule Node := do
  let c ← peek
  guard (c != '\x7b')
  let e ← self (.expressions true)
  endStatement .expressionStatement [e] false

/-- A namespace that is not exported stands as an expression, unless a statement follows on its last
line. -/
def namespaceExpression (self : Reader) : Rule Node := do
  let n ← namespaceStatement self
  if n.kind == .moduleDeclaration then return n
  else orElse (endStatement .expressionStatement [n] false) (return n)

/-- A statement. -/
def statement (self : Reader) : Rule Node := do
  let c ← peek
  let n ← peekName
  let plain := orElse (labeledStatement self) (expressionStatement self)
  if c == '\x7b' then block self
  else if c == ';' then emptyStatement
  else if c == '@' then orElse (exportStatement self) (classStatement self)
  else
    match n with
    | "export" => exportStatement self
    | "import" => oneOf [importStatement self, importAlias, plain]
    | "if" => ifStatement self
    | "switch" => switchStatement self
    | "for" => orElse (forInStatement self) (forStatement self)
    | "while" => whileStatement self
    | "do" => doStatement self
    | "try" => tryStatement self
    | "break" => jumpStatement .breakStatement n
    | "continue" => jumpStatement .continueStatement n
    | "debugger" => do endStatement .debuggerStatement [← word n] false
    | "return" => leaveStatement self .returnStatement n
    | "throw" => leaveStatement self .throwStatement n
    | "with" => withStatement self
    | "namespace" => orElse (namespaceExpression self) plain
    | "module" => orElse (namespaceExpression self) plain
    | "declare" => orElse (ambientStatement self (declaration self)) plain
    | _ => orElse (declaration self) plain

end Control

end RouteAtlas.Syntax.Rule
