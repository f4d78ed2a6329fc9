import RouteAtlas.Files.Path
import RouteAtlas.Syntax.Literal
import RouteAtlas.Syntax.Tree

/-!
# Source files

A source file with its syntax tree, and what it declares at its top level: variables, functions,
classes, types, imports and exports. Of several declarations of one name the first counts.
-/

namespace RouteAtlas.Syntax

/-- A source file with its tree. -/
structure SourceFile where
  path : Files.Path
  text : String
  root : Node
  deriving Inhabited

/-- A variable that is bound at the top level. -/
structure Variable where
  name : String
  node : Node
  value : Option Node
  annotation : Option Node
  exported : Bool
  destructured : Bool

/-- A function that is declared at the top level. -/
structure Function where
  name : String
  node : Node
  exported : Bool
  isDefault : Bool

/-- A class that is declared at the top level, with its decorators: those before an export of it
come first. -/
structure Class where
  name : String
  node : Node
  exported : Bool
  decorators : List Node

/-- A method of a class with its decorators. -/
structure Method where
  node : Node
  decorators : List Node

/-- An import statement: the module and the names that it binds. Named imports are pairs of the
local and the imported name. -/
structure Import where
  moduleName : String
  line : Nat
  defaultName : Option String
  namespaceName : Option String
  named : List (String × String)

/-- A name that a module exports: what it stands for in this file, or the module that it comes
from. -/
structure Export where
  name : String
  node : Option Node
  localName : Option String
  moduleName : Option String

namespace Import

/-- The names that an import binds: named ones, then the default, then the namespace. -/
def localNames (i : Import) : List String :=
  i.named.map Prod.fst ++ (i.defaultName.filter fun n => !n.isEmpty).toList ++
    (i.namespaceName.filter fun n => !n.isEmpty).toList

end Import

namespace SourceFile

section Reading

/-- The suffixes of files that hold source code. -/
def sourceSuffixes : List String :=
  [".ts", ".tsx", ".mts", ".cts", ".js", ".jsx", ".mjs", ".cjs"]

/-- The dialect of a file: markup for two suffixes in any letter case. -/
def dialectOf (path : Files.Path) : Dialect :=
  let suffix := Text.lower path.suffix
  if suffix == ".tsx" || suffix == ".jsx" then .markup else .plain

/-- The source file with a given text. -/
def ofText
    (path : Files.Path)
    (text : String) :
    SourceFile :=
  ⟨path, text, parse (dialectOf path) text⟩

/-- The number of lines of the text. -/
def lineCount (f : SourceFile) : Nat :=
  f.text.toList.count '\n' + 1

end Reading

section Statements

/-- The statements at the top level. -/
def statements (f : SourceFile) : List Node :=
  f.root.parts

/-- A declaration at the top level, with the export around it. -/
structure Declared where
  node : Node
  exported : Bool
  isDefault : Bool
  decorators : List Node

/-- The declarations that a statement holds. -/
def declaredIn (statement : Node) : List Declared :=
  match statement.kind with
  | .exportStatement =>
    match statement.child? .declaration with
    | some d => [⟨d, true, statement.hasToken "default", statement.ownDecorators⟩]
    | none => []
  | .ambientDeclaration => statement.namedChildren.map fun c => ⟨c, false, false, []⟩
  | _ => [⟨statement, false, false, []⟩]

/-- The declarations at the top level, in source order. -/
def declared (f : SourceFile) : List Declared :=
  f.statements.flatMap declaredIn

end Statements

section Variables

/-- Whether a node declares variables. -/
def declaresVariables (n : Node) : Bool :=
  n.kind == .lexicalDeclaration || n.kind == .variableDeclaration

/-- The variables that one declarator binds. -/
def variablesOf
    (exported : Bool)
    (declarator : Node) :
    List Variable :=
  match declarator.child? .name with
  | none => []
  | some name =>
    let value := declarator.child? .value
    if name.kind == .identifier then
      [⟨name.text, declarator, value, declarator.child? .type, exported, false⟩]
    else name.patternNames.map fun n => ⟨n, declarator, value, none, exported, true⟩

/-- The variables of one declaration. -/
def variablesIn
    (exported : Bool)
    (statement : Node) :
    List Variable :=
  (statement.namedChildren.filter fun c => c.kind == .variableDeclarator).flatMap
    (variablesOf exported)

/-- The variables at the top level. -/
def boundVariables (f : SourceFile) : List Variable :=
  (f.declared.filter fun d => declaresVariables d.node).flatMap fun d =>
    variablesIn d.exported d.node

/-- The first variable of a name. -/
def findVariable?
    (f : SourceFile)
    (name : String) :
    Option Variable :=
  f.boundVariables.find? fun v => v.name == name

end Variables

section Functions

/-- The functions at the top level. -/
def functions (f : SourceFile) : List Function :=
  (f.declared.filter fun d =>
    d.node.kind == .functionDeclaration || d.node.kind == .generatorFunctionDeclaration).map
    fun d =>
      ⟨((d.node.child? .name).map Node.text).getD "default", d.node, d.exported, d.isDefault⟩

/-- The first function of a name. -/
def findFunction?
    (f : SourceFile)
    (name : String) :
    Option Function :=
  f.functions.find? fun g => g.name == name

end Functions

section Classes

/-- Whether a node declares a class. -/
def declaresClass (n : Node) : Bool :=
  n.kind == .classDeclaration || n.kind == .abstractClassDeclaration

/-- The classes at the top level. -/
def classes (f : SourceFile) : List Class :=
  (f.declared.filter fun d => declaresClass d.node).map fun d =>
    ⟨((d.node.child? .name).map Node.text).getD "default", d.node, d.exported,
      d.decorators ++ d.node.ownDecorators⟩

/-- The methods among the members of a class. The first argument holds the decorators just before,
read backwards. -/
def methodsAmong : List Node → List Node → List Method
  | _, [] => []
  | before, c :: rest =>
    match c.kind with
    | .decorator => methodsAmong (c :: before) rest
    | .comment => methodsAmong before rest
    | .methodDefinition => ⟨c, before.reverse ++ c.ownDecorators⟩ :: methodsAmong [] rest
    | _ => methodsAmong [] rest

end Classes

end SourceFile

/-- The methods of a class, each with the decorators before it. -/
def Class.methods (c : Class) : List Method :=
  match c.node.child? .body with
  | some body => SourceFile.methodsAmong [] body.children
  | none => []

namespace SourceFile

section Types

/-- Whether a node declares a type. -/
def declaresType (n : Node) : Bool :=
  match n.kind with
  | .interfaceDeclaration | .typeAliasDeclaration | .classDeclaration | .abstractClassDeclaration
  | .enumDeclaration => true
  | _ => false

/-- The interfaces, aliases, classes and enumerations at the top level by name. -/
def types (f : SourceFile) : List (String × Node) :=
  f.declared.foldl (fun acc d =>
    if declaresType d.node then
      match d.node.child? .name with
      | some n => putMissing n.text d.node acc
      | none => acc
    else acc) []

/-- The type declaration of a name. -/
def findType?
    (f : SourceFile)
    (name : String) :
    Option Node :=
  entryOf? name f.types

end Types

section Imports

/-- Adds what one part of an import clause binds. -/
def readImportPart
    (i : Import)
    (part : Node) :
    Import :=
  match part.kind with
  | .identifier => { i with defaultName := some part.text }
  | .namespaceImport =>
    match part.namedChildren.find? fun c => c.kind == .identifier with
    | some n => { i with namespaceName := some n.text }
    | none => i
  | .namedImports =>
    (part.namedChildren.filter fun c => c.kind == .importSpecifier).foldl (fun i c =>
      match (c.child? .name).bind Node.keyName? with
      | none => i
      | some imported =>
        let local_ := ((c.child? .alias).map Node.text).getD imported
        { i with named := putEntry local_ imported i.named }) i
  | _ => i

/-- The import that a statement makes, if it makes one. -/
def importOf? (statement : Node) : Option Import :=
  if statement.kind == .importStatement then
    match (statement.child? .source).bind Node.stringValue? with
    | none => none
    | some moduleName =>
      let start : Import := ⟨moduleName, statement.line, none, none, []⟩
      match statement.namedChildren.find? fun c => c.kind == .importClause with
      | some clause => some (clause.namedChildren.foldl readImportPart start)
      | none => some start
  else none

/-- The imports in source order. -/
def imports (f : SourceFile) : List Import :=
  f.statements.filterMap importOf?

/-- The import that binds a name, with the name that it has in its module. -/
def findImport?
    (f : SourceFile)
    (name : String) :
    Option (Import × String) :=
  f.imports.findSome? fun i =>
    match entryOf? name i.named with
    | some imported => some (i, imported)
    | none => if i.defaultName = some name then some (i, "default") else none

end Imports

section Exports

/-- The function, variable or class that a name stands for in this file. -/
def localDeclaration?
    (f : SourceFile)
    (name : String) :
    Option Node :=
  match f.findFunction? name with
  | some g => some g.node
  | none =>
    match f.findVariable? name with
    | some v => some v.node
    | none => (f.classes.find? fun c => c.name == name).map Class.node

/-- The exports of a clause in braces. -/
def exportsOfClause
    (f : SourceFile)
    (moduleName : Option String)
    (clause : Node) :
    List Export :=
  (clause.namedChildren.filter fun c => c.kind == .exportSpecifier).filterMap fun c =>
    let localName := (c.child? .name).bind Node.keyName?
    let exported :=
      match c.child? .alias with
      | some a => a.keyName?
      | none => localName
    match localName, exported with
    | some l, some e =>
      let node := if (moduleName.getD "").isEmpty then f.localDeclaration? l else none
      some ⟨e, node, some l, moduleName⟩
    | _, _ => none

/-- The exports that a statement makes. -/
def exportsOf
    (f : SourceFile)
    (statement : Node) :
    List Export :=
  if statement.kind == .exportStatement then
    let isDefault := statement.hasToken "default"
    match statement.child? .declaration with
    | some d =>
      if isDefault then [⟨"default", some d, none, none⟩]
      else if declaresVariables d then
        (variablesIn true d).map fun v => ⟨v.name, some v.node, some v.name, none⟩
      else
        match d.child? .name with
        | some n => [⟨n.text, some d, some n.text, none⟩]
        | none => []
    | none =>
      match isDefault, statement.child? .value with
      | true, some v => [⟨"default", some v, none, none⟩]
      | _, _ =>
        match statement.namedChildren.find? fun c => c.kind == .exportClause with
        | some clause =>
          f.exportsOfClause ((statement.child? .source).bind Node.stringValue?) clause
        | none => []
  else []

/-- The exports in source order. -/
def exports (f : SourceFile) : List Export :=
  f.statements.flatMap f.exportsOf

/-- The first export of a name. -/
def findExport?
    (f : SourceFile)
    (name : String) :
    Option Export :=
  f.exports.find? fun e => e.name == name

/-- What the default export stands for. -/
def defaultExport? (f : SourceFile) : Option Node :=
  (f.findExport? "default").bind Export.node

end Exports

end SourceFile

end RouteAtlas.Syntax
