/-!
# Kinds of syntax nodes

The named constructs of TypeScript and of its markup dialect. Keywords and punctuation have no kind
of their own: they are tokens, told apart by their text. Each kind has a written name, by which
messages refer to it.
-/

namespace RouteAtlas.Syntax

/-- The kind of a syntax node. -/
inductive Kind where
  | token
  | program | comment | error | hashBangLine
  | exportStatement | importStatement | importClause | namespaceImport | namedImports
  | importSpecifier | importRequireClause | importAttribute | importAlias | namespaceExport
  | exportClause | exportSpecifier | variableDeclaration | lexicalDeclaration
  | variableDeclarator | functionDeclaration | generatorFunctionDeclaration | functionSignature
  | classDeclaration | abstractClassDeclaration | interfaceDeclaration | enumDeclaration
  | typeAliasDeclaration | moduleDeclaration | namespaceDeclaration | ambientDeclaration
  | statementBlock | expressionStatement | ifStatement | elseClause | switchStatement
  | switchBody | switchCase | switchDefault | forStatement | forInStatement | whileStatement
  | doStatement | tryStatement | catchClause | finallyClause | withStatement | breakStatement
  | continueStatement | debuggerStatement | returnStatement | throwStatement | emptyStatement
  | labeledStatement | statementIdentifier
  | classExpression | classHeritage | extendsClause | implementsClause | classBody
  | classStaticBlock | methodDefinition | publicFieldDefinition | abstractMethodSignature
  | methodSignature | propertySignature | callSignature | constructSignature | indexSignature
  | mappedTypeClause | accessibilityModifier | overrideModifier | decorator | enumBody
  | enumAssignment | interfaceBody | extendsTypeClause
  | formalParameters | requiredParameter | optionalParameter | objectPattern | arrayPattern
  | assignmentPattern | objectAssignmentPattern | pairPattern | restPattern
  | shorthandPropertyIdentifierPattern
  | identifier | propertyIdentifier | privatePropertyIdentifier | shorthandPropertyIdentifier
  | computedPropertyName | thisExpression | superExpression | undefinedWord | nullWord | trueWord
  | falseWord | number | string | stringFragment | escapeSequence | templateString
  | templateSubstitution | regex | regexPattern | regexFlags | object | pair | spreadElement
  | array | functionExpression | generatorFunction | arrowFunction | callExpression | arguments
  | newExpression | memberExpression | subscriptExpression | optionalChain | nonNullExpression
  | parenthesizedExpression | asExpression | satisfiesExpression | typeAssertion
  | instantiationExpression | unaryExpression | binaryExpression | ternaryExpression
  | updateExpression | assignmentExpression | augmentedAssignmentExpression | sequenceExpression
  | awaitExpression | yieldExpression | metaProperty | importWord
  | jsxElement | jsxSelfClosingElement | jsxOpeningElement | jsxClosingElement | jsxAttribute
  | jsxExpression | jsxText | jsxNamespaceName | htmlCharacterReference
  | typeAscription | typeParameters | typeParameter | constraint | defaultType | typeArguments
  | predefinedType | literalType | typeIdentifier | nestedTypeIdentifier | nestedIdentifier
  | genericType | objectType | arrayType | tupleType | optionalType | restType | readonlyType
  | parenthesizedType | unionType | intersectionType | functionType | constructorType
  | conditionalType | inferType | lookupType | indexTypeQuery | typeQuery | thisType
  | existentialType | flowMaybeType | templateLiteralType | templateType | typePredicate
  | typePredicateAscription | asserts | assertsAscription | omittingTypeAscription
  | addingTypeAscription | optingTypeAscription
  deriving DecidableEq, Repr, Inhabited

section Names

/-- The written name of a kind. -/
def Kind.name : Kind → String
  | .token => "token"
  | .program => "program"
  | .comment => "comment"
  | .error => "error"
  | .hashBangLine => "hash_bang_line"
  | .exportStatement => "export_statement"
  | .importStatement => "import_statement"
  | .importClause => "import_clause"
  | .namespaceImport => "namespace_import"
  | .namedImports => "named_imports"
  | .importSpecifier => "import_specifier"
  | .importRequireClause => "import_require_clause"
  | .importAttribute => "import_attribute"
  | .importAlias => "import_alias"
  | .namespaceExport => "namespace_export"
  | .exportClause => "export_clause"
  | .exportSpecifier => "export_specifier"
  | .variableDeclaration => "variable_declaration"
  | .lexicalDeclaration => "lexical_declaration"
  | .variableDeclarator => "variable_declarator"
  | .functionDeclaration => "function_declaration"
  | .generatorFunctionDeclaration => "generator_function_declaration"
  | .functionSignature => "function_signature"
  | .classDeclaration => "class_declaration"
  | .abstractClassDeclaration => "abstract_class_declaration"
  | .interfaceDeclaration => "interface_declaration"
  | .enumDeclaration => "enum_declaration"
  | .typeAliasDeclaration => "type_alias_declaration"
  | .moduleDeclaration => "module"
  | .namespaceDeclaration => "internal_module"
  | .ambientDeclaration => "ambient_declaration"
  | .statementBlock => "statement_block"
  | .expressionStatement => "expression_statement"
  | .ifStatement => "if_statement"
  | .elseClause => "else_clause"
  | .switchStatement => "switch_statement"
  | .switchBody => "switch_body"
  | .switchCase => "switch_case"
  | .switchDefault => "switch_default"
  | .forStatement => "for_statement"
  | .forInStatement => "for_in_statement"
  | .whileStatement => "while_statement"
  | .doStatement => "do_statement"
  | .tryStatement => "try_statement"
  | .catchClause => "catch_clause"
  | .finallyClause => "finally_clause"
  | .withStatement => "with_statement"
  | .breakStatement => "break_statement"
  | .continueStatement => "continue_statement"
  | .debuggerStatement => "debugger_statement"
  | .returnStatement => "return_statement"
  | .throwStatement => "throw_statement"
  | .emptyStatement => "empty_statement"
  | .labeledStatement => "labeled_statement"
  | .statementIdentifier => "statement_identifier"
  | .classExpression => "class"
  | .classHeritage => "class_heritage"
  | .extendsClause => "extends_clause"
  | .implementsClause => "implements_clause"
  | .classBody => "class_body"
  | .classStaticBlock => "class_static_block"
  | .methodDefinition => "method_definition"
  | .publicFieldDefinition => "public_field_definition"
  | .abstractMethodSignature => "abstract_method_signature"
  | .methodSignature => "method_signature"
  | .propertySignature => "property_signature"
  | .callSignature => "call_signature"
  | .constructSignature => "construct_signature"
  | .indexSignature => "index_signature"
  | .mappedTypeClause => "mapped_type_clause"
  | .accessibilityModifier => "accessibility_modifier"
  | .overrideModifier => "override_modifier"
  | .decorator => "decorator"
  | .enumBody => "enum_body"
  | .enumAssignment => "enum_assignment"
  | .interfaceBody => "interface_body"
  | .extendsTypeClause => "extends_type_clause"
  | .formalParameters => "formal_parameters"
  | .requiredParameter => "required_parameter"
  | .optionalParameter => "optional_parameter"
  | .objectPattern => "object_pattern"
  | .arrayPattern => "array_pattern"
  | .assignmentPattern => "assignment_pattern"
  | .objectAssignmentPattern => "object_assignment_pattern"
  | .pairPattern => "pair_pattern"
  | .restPattern => "rest_pattern"
  | .shorthandPropertyIdentifierPattern => "shorthand_property_identifier_pattern"
  | .identifier => "identifier"
  | .propertyIdentifier => "property_identifier"
  | .privatePropertyIdentifier => "private_property_identifier"
  | .shorthandPropertyIdentifier => "shorthand_property_identifier"
  | .computedPropertyName => "computed_property_name"
  | .thisExpression => "this"
  | .superExpression => "super"
  | .undefinedWord => "undefined"
  | .nullWord => "null"
  | .trueWord => "true"
  | .falseWord => "false"
  | .number => "number"
  | .string => "string"
  | .stringFragment => "string_fragment"
  | .escapeSequence => "escape_sequence"
  | .templateString => "template_string"
  | .templateSubstitution => "template_substitution"
  | .regex => "regex"
  | .regexPattern => "regex_pattern"
  | .regexFlags => "regex_flags"
  | .object => "object"
  | .pair => "pair"
  | .spreadElement => "spread_element"
  | .array => "array"
  | .functionExpression => "function_expression"
  | .generatorFunction => "generator_function"
  | .arrowFunction => "arrow_function"
  | .callExpression => "call_expression"
  | .arguments => "arguments"
  | .newExpression => "new_expression"
  | .memberExpression => "member_expression"
  | .subscriptExpression => "subscript_expression"
  | .optionalChain => "optional_chain"
  | .nonNullExpression => "non_null_expression"
  | .parenthesizedExpression => "parenthesized_expression"
  | .asExpression => "as_expression"
  | .satisfiesExpression => "satisfies_expression"
  | .typeAssertion => "type_assertion"
  | .instantiationExpression => "instantiation_expression"
  | .unaryExpression => "unary_expression"
  | .binaryExpression => "binary_expression"
  | .ternaryExpression => "ternary_expression"
  | .updateExpression => "update_expression"
  | .assignmentExpression => "assignment_expression"
  | .augmentedAssignmentExpression => "augmented_assignment_expression"
  | .sequenceExpression => "sequence_expression"
  | .awaitExpression => "await_expression"
  | .yieldExpression => "yield_expression"
  | .metaProperty => "meta_property"
  | .importWord => "import"
  | .jsxElement => "jsx_element"
  | .jsxSelfClosingElement => "jsx_self_closing_element"
  | .jsxOpeningElement => "jsx_opening_element"
  | .jsxClosingElement => "jsx_closing_element"
  | .jsxAttribute => "jsx_attribute"
  | .jsxExpression => "jsx_expression"
  | .jsxText => "jsx_text"
  | .jsxNamespaceName => "jsx_namespace_name"
  | .htmlCharacterReference => "html_character_reference"
  | .typeAscription => "type_annotation"
  | .typeParameters => "type_parameters"
  | .typeParameter => "type_parameter"
  | .constraint => "constraint"
  | .defaultType => "default_type"
  | .typeArguments => "type_arguments"
  | .predefinedType => "predefined_type"
  | .literalType => "literal_type"
  | .typeIdentifier => "type_identifier"
  | .nestedTypeIdentifier => "nested_type_identifier"
  | .nestedIdentifier => "nested_identifier"
  | .genericType => "generic_type"
  | .objectType => "object_type"
  | .arrayType => "array_type"
  | .tupleType => "tuple_type"
  | .optionalType => "optional_type"
  | .restType => "rest_type"
  | .readonlyType => "readonly_type"
  | .parenthesizedType => "parenthesized_type"
  | .unionType => "union_type"
  | .intersectionType => "intersection_type"
  | .functionType => "function_type"
  | .constructorType => "constructor_type"
  | .conditionalType => "conditional_type"
  | .inferType => "infer_type"
  | .lookupType => "lookup_type"
  | .indexTypeQuery => "index_type_query"
  | .typeQuery => "type_query"
  | .thisType => "this_type"
  | .existentialType => "existential_type"
  | .flowMaybeType => "flow_maybe_type"
  | .templateLiteralType => "template_literal_type"
  | .templateType => "template_type"
  | .typePredicate => "type_predicate"
  | .typePredicateAscription => "type_predicate_annotation"
  | .asserts => "asserts"
  | .assertsAscription => "asserts_annotation"
  | .omittingTypeAscription => "omitting_type_annotation"
  | .addingTypeAscription => "adding_type_annotation"
  | .optingTypeAscription => "opting_type_annotation"

end Names

section Roles

/-- The part that a node plays in its parent. -/
inductive Role where
  | name | value | type | body | declaration | source | key | object | property | function
  | arguments | typeArguments | typeParameters | parameters | parameter | returnType | pattern
  | left | right | operator | argument | condition | consequence | alternative | decorator
  | index | alias | constructed | keyword | handler | finalizer | initializer | increment | label
  | openTag | closeTag | attribute | constraint | container | flags | indexType | sign
  deriving DecidableEq, Repr

end Roles

end RouteAtlas.Syntax
