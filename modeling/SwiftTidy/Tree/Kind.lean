/-!
# Kinds of syntax

The closed set of kinds a Swift syntax tree is made of: the kinds of tokens (keywords among them)
come first, the kinds of inner nodes after them, and rules dispatch over them by `match`.  The
order of the constructors carries the classification, so `isToken` and `isKeyword` are
comparisons of constructor indices.
-/

namespace SwiftTidy

/-- The kind of a token or of an inner node. -/
inductive SyntaxKind where
  -- Tokens.
  | identifier
  /-- Stands for `_`. -/
  | wildcard
  | dollarIdentifier | poundKeyword | integerLiteral | floatLiteral | stringLiteral | leftParen
  | rightParen | leftBrace | rightBrace | leftBracket | rightBracket
  /-- Stands for `<` opening a generic clause. -/
  | leftAngle
  /-- Stands for `>` closing a generic clause. -/
  | rightAngle
  | comma | colon | semicolon | period | arrow | equal | atSign
  /-- Stands for `?` bound to the expression on its left (`a?.b`, `Int?`). -/
  | postfixQuestionMark
  /-- Stands for `?` of a ternary expression. -/
  | infixQuestionMark
  /-- Stands for `!` bound to the expression on its left (`a!`, `Int!`). -/
  | exclamationMark
  | binaryOperator | prefixOperator | postfixOperator | endOfFile
  -- Reserved words.
  | asKw | asyncKw | awaitKw | breakKw | caseKw | catchKw | classKw | continueKw | defaultKw
  | deferKw | doKw | elseKw | enumKw | extensionKw | fallthroughKw | falseKw | forKw | funcKw
  | guardKw | ifKw | importKw | inKw | initKw | inoutKw | isKw | letKw | nilKw | protocolKw
  | repeatKw | rethrowsKw | returnKw | selfKw | capitalSelfKw | structKw | superKw | switchKw
  | throwKw | throwsKw | trueKw | tryKw | typealiasKw | varKw | whereKw | whileKw
  -- Declarations.
  | sourceFile | codeBlockItem | codeBlock | memberBlock | attributeUse | declModifier
  | importDecl | variableDecl | patternBinding | typeAscription | initializerClause
  | functionDecl | initializerDecl | functionSignature | parameterClause | parameter
  | returnClause | structDecl | classDecl | enumDecl | protocolDecl | extensionDecl
  | typeAliasDecl | inheritanceClause | inheritedType | genericParameterClause
  | genericParameter | genericWhereClause | genericRequirement | enumCaseDecl | enumCaseElement
  -- Statements.
  | ifExpr | guardStmt | whileStmt | repeatStmt | forInStmt | doStmt | catchClause | deferStmt
  | returnStmt | throwStmt | breakStmt | continueStmt | fallthroughStmt | conditionElement
  | optionalBindingCondition | switchExpr | switchCase | switchCaseLabel | switchDefaultLabel
  | switchCaseItem | whereClause
  -- Expressions.
  | identifierExpr | literalExpr | discardExpr | memberAccessExpr | functionCallExpr
  | argumentList | labeledExpr | subscriptExpr | forceUnwrapExpr | optionalChainingExpr
  | tupleExpr | arrayExpr | arrayElement | dictionaryExpr | dictionaryElement | closureExpr
  | closureSignature | sequenceExpr | ternaryExpr | typeCastExpr | prefixOperatorExpr
  | postfixOperatorExpr | tryExpr | awaitExpr | typeExpr
  -- Patterns.
  | identifierPattern | wildcardPattern | tuplePattern | tuplePatternElement
  | expressionPattern | valueBindingPattern
  -- Types.
  | identifierType | memberType | genericArgumentClause | genericArgument | optionalType
  | implicitlyUnwrappedOptionalType | arrayType | dictionaryType | tupleType | tupleTypeElement
  | functionType | attributedType | someOrAnyType
  deriving DecidableEq, Inhabited

namespace SyntaxKind

/-- Every kind, in declaration order. -/
def all : List SyntaxKind :=
  [.identifier, .wildcard, .dollarIdentifier, .poundKeyword, .integerLiteral, .floatLiteral,
   .stringLiteral, .leftParen, .rightParen, .leftBrace, .rightBrace, .leftBracket, .rightBracket,
   .leftAngle, .rightAngle, .comma, .colon, .semicolon, .period, .arrow, .equal, .atSign,
   .postfixQuestionMark, .infixQuestionMark, .exclamationMark, .binaryOperator, .prefixOperator,
   .postfixOperator, .endOfFile, .asKw, .asyncKw, .awaitKw, .breakKw, .caseKw, .catchKw, .classKw,
   .continueKw, .defaultKw, .deferKw, .doKw, .elseKw, .enumKw, .extensionKw, .fallthroughKw,
   .falseKw, .forKw, .funcKw, .guardKw, .ifKw, .importKw, .inKw, .initKw, .inoutKw, .isKw, .letKw,
   .nilKw, .protocolKw, .repeatKw, .rethrowsKw, .returnKw, .selfKw, .capitalSelfKw, .structKw,
   .superKw, .switchKw, .throwKw, .throwsKw, .trueKw, .tryKw, .typealiasKw, .varKw, .whereKw,
   .whileKw, .sourceFile, .codeBlockItem, .codeBlock, .memberBlock, .attributeUse, .declModifier,
   .importDecl, .variableDecl, .patternBinding, .typeAscription, .initializerClause, .functionDecl,
   .initializerDecl, .functionSignature, .parameterClause, .parameter, .returnClause, .structDecl,
   .classDecl, .enumDecl, .protocolDecl, .extensionDecl, .typeAliasDecl, .inheritanceClause,
   .inheritedType, .genericParameterClause, .genericParameter, .genericWhereClause,
   .genericRequirement, .enumCaseDecl, .enumCaseElement, .ifExpr, .guardStmt, .whileStmt,
   .repeatStmt, .forInStmt, .doStmt, .catchClause, .deferStmt, .returnStmt, .throwStmt, .breakStmt,
   .continueStmt, .fallthroughStmt, .conditionElement, .optionalBindingCondition, .switchExpr,
   .switchCase, .switchCaseLabel, .switchDefaultLabel, .switchCaseItem, .whereClause,
   .identifierExpr, .literalExpr, .discardExpr, .memberAccessExpr, .functionCallExpr,
   .argumentList, .labeledExpr, .subscriptExpr, .forceUnwrapExpr, .optionalChainingExpr,
   .tupleExpr, .arrayExpr, .arrayElement, .dictionaryExpr, .dictionaryElement, .closureExpr,
   .closureSignature, .sequenceExpr, .ternaryExpr, .typeCastExpr, .prefixOperatorExpr,
   .postfixOperatorExpr, .tryExpr, .awaitExpr, .typeExpr, .identifierPattern, .wildcardPattern,
   .tuplePattern, .tuplePatternElement, .expressionPattern, .valueBindingPattern, .identifierType,
   .memberType, .genericArgumentClause, .genericArgument, .optionalType,
   .implicitlyUnwrappedOptionalType, .arrayType, .dictionaryType, .tupleType, .tupleTypeElement,
   .functionType, .attributedType, .someOrAnyType]

/-- The name under which a kind is printed. -/
def name : SyntaxKind → String
  | .identifier => "Identifier"
  | .wildcard => "Wildcard"
  | .dollarIdentifier => "DollarIdentifier"
  | .poundKeyword => "PoundKeyword"
  | .integerLiteral => "IntegerLiteral"
  | .floatLiteral => "FloatLiteral"
  | .stringLiteral => "StringLiteral"
  | .leftParen => "LeftParen"
  | .rightParen => "RightParen"
  | .leftBrace => "LeftBrace"
  | .rightBrace => "RightBrace"
  | .leftBracket => "LeftBracket"
  | .rightBracket => "RightBracket"
  | .leftAngle => "LeftAngle"
  | .rightAngle => "RightAngle"
  | .comma => "Comma"
  | .colon => "Colon"
  | .semicolon => "Semicolon"
  | .period => "Period"
  | .arrow => "Arrow"
  | .equal => "Equal"
  | .atSign => "At"
  | .postfixQuestionMark => "PostfixQuestionMark"
  | .infixQuestionMark => "InfixQuestionMark"
  | .exclamationMark => "ExclamationMark"
  | .binaryOperator => "BinaryOperator"
  | .prefixOperator => "PrefixOperator"
  | .postfixOperator => "PostfixOperator"
  | .endOfFile => "EndOfFile"
  | .asKw => "AsKw"
  | .asyncKw => "AsyncKw"
  | .awaitKw => "AwaitKw"
  | .breakKw => "BreakKw"
  | .caseKw => "CaseKw"
  | .catchKw => "CatchKw"
  | .classKw => "ClassKw"
  | .continueKw => "ContinueKw"
  | .defaultKw => "DefaultKw"
  | .deferKw => "DeferKw"
  | .doKw => "DoKw"
  | .elseKw => "ElseKw"
  | .enumKw => "EnumKw"
  | .extensionKw => "ExtensionKw"
  | .fallthroughKw => "FallthroughKw"
  | .falseKw => "FalseKw"
  | .forKw => "ForKw"
  | .funcKw => "FuncKw"
  | .guardKw => "GuardKw"
  | .ifKw => "IfKw"
  | .importKw => "ImportKw"
  | .inKw => "InKw"
  | .initKw => "InitKw"
  | .inoutKw => "InoutKw"
  | .isKw => "IsKw"
  | .letKw => "LetKw"
  | .nilKw => "NilKw"
  | .protocolKw => "ProtocolKw"
  | .repeatKw => "RepeatKw"
  | .rethrowsKw => "RethrowsKw"
  | .returnKw => "ReturnKw"
  | .selfKw => "SelfKw"
  | .capitalSelfKw => "CapitalSelfKw"
  | .structKw => "StructKw"
  | .superKw => "SuperKw"
  | .switchKw => "SwitchKw"
  | .throwKw => "ThrowKw"
  | .throwsKw => "ThrowsKw"
  | .trueKw => "TrueKw"
  | .tryKw => "TryKw"
  | .typealiasKw => "TypealiasKw"
  | .varKw => "VarKw"
  | .whereKw => "WhereKw"
  | .whileKw => "WhileKw"
  | .sourceFile => "SourceFile"
  | .codeBlockItem => "CodeBlockItem"
  | .codeBlock => "CodeBlock"
  | .memberBlock => "MemberBlock"
  | .attributeUse => "Attribute"
  | .declModifier => "DeclModifier"
  | .importDecl => "ImportDecl"
  | .variableDecl => "VariableDecl"
  | .patternBinding => "PatternBinding"
  | .typeAscription => "TypeAnnotation"
  | .initializerClause => "InitializerClause"
  | .functionDecl => "FunctionDecl"
  | .initializerDecl => "InitializerDecl"
  | .functionSignature => "FunctionSignature"
  | .parameterClause => "ParameterClause"
  | .parameter => "Parameter"
  | .returnClause => "ReturnClause"
  | .structDecl => "StructDecl"
  | .classDecl => "ClassDecl"
  | .enumDecl => "EnumDecl"
  | .protocolDecl => "ProtocolDecl"
  | .extensionDecl => "ExtensionDecl"
  | .typeAliasDecl => "TypeAliasDecl"
  | .inheritanceClause => "InheritanceClause"
  | .inheritedType => "InheritedType"
  | .genericParameterClause => "GenericParameterClause"
  | .genericParameter => "GenericParameter"
  | .genericWhereClause => "GenericWhereClause"
  | .genericRequirement => "GenericRequirement"
  | .enumCaseDecl => "EnumCaseDecl"
  | .enumCaseElement => "EnumCaseElement"
  | .ifExpr => "IfExpr"
  | .guardStmt => "GuardStmt"
  | .whileStmt => "WhileStmt"
  | .repeatStmt => "RepeatStmt"
  | .forInStmt => "ForInStmt"
  | .doStmt => "DoStmt"
  | .catchClause => "CatchClause"
  | .deferStmt => "DeferStmt"
  | .returnStmt => "ReturnStmt"
  | .throwStmt => "ThrowStmt"
  | .breakStmt => "BreakStmt"
  | .continueStmt => "ContinueStmt"
  | .fallthroughStmt => "FallthroughStmt"
  | .conditionElement => "ConditionElement"
  | .optionalBindingCondition => "OptionalBindingCondition"
  | .switchExpr => "SwitchExpr"
  | .switchCase => "SwitchCase"
  | .switchCaseLabel => "SwitchCaseLabel"
  | .switchDefaultLabel => "SwitchDefaultLabel"
  | .switchCaseItem => "SwitchCaseItem"
  | .whereClause => "WhereClause"
  | .identifierExpr => "IdentifierExpr"
  | .literalExpr => "LiteralExpr"
  | .discardExpr => "DiscardExpr"
  | .memberAccessExpr => "MemberAccessExpr"
  | .functionCallExpr => "FunctionCallExpr"
  | .argumentList => "ArgumentList"
  | .labeledExpr => "LabeledExpr"
  | .subscriptExpr => "SubscriptExpr"
  | .forceUnwrapExpr => "ForceUnwrapExpr"
  | .optionalChainingExpr => "OptionalChainingExpr"
  | .tupleExpr => "TupleExpr"
  | .arrayExpr => "ArrayExpr"
  | .arrayElement => "ArrayElement"
  | .dictionaryExpr => "DictionaryExpr"
  | .dictionaryElement => "DictionaryElement"
  | .closureExpr => "ClosureExpr"
  | .closureSignature => "ClosureSignature"
  | .sequenceExpr => "SequenceExpr"
  | .ternaryExpr => "TernaryExpr"
  | .typeCastExpr => "TypeCastExpr"
  | .prefixOperatorExpr => "PrefixOperatorExpr"
  | .postfixOperatorExpr => "PostfixOperatorExpr"
  | .tryExpr => "TryExpr"
  | .awaitExpr => "AwaitExpr"
  | .typeExpr => "TypeExpr"
  | .identifierPattern => "IdentifierPattern"
  | .wildcardPattern => "WildcardPattern"
  | .tuplePattern => "TuplePattern"
  | .tuplePatternElement => "TuplePatternElement"
  | .expressionPattern => "ExpressionPattern"
  | .valueBindingPattern => "ValueBindingPattern"
  | .identifierType => "IdentifierType"
  | .memberType => "MemberType"
  | .genericArgumentClause => "GenericArgumentClause"
  | .genericArgument => "GenericArgument"
  | .optionalType => "OptionalType"
  | .implicitlyUnwrappedOptionalType => "ImplicitlyUnwrappedOptionalType"
  | .arrayType => "ArrayType"
  | .dictionaryType => "DictionaryType"
  | .tupleType => "TupleType"
  | .tupleTypeElement => "TupleTypeElement"
  | .functionType => "FunctionType"
  | .attributedType => "AttributedType"
  | .someOrAnyType => "SomeOrAnyType"

/-- The kind printed under a given name. -/
def ofName? (s : String) : Option SyntaxKind :=
  all.find? (fun k => k.name == s)

/-- The reserved words with their kinds.  Contextual words (`get`, `private`, `some`, …) are not
reserved: they stay identifiers and are recognised where they matter. -/
def keywords : List (String × SyntaxKind) :=
  [("as", .asKw), ("async", .asyncKw), ("await", .awaitKw), ("break", .breakKw), ("case", .caseKw),
   ("catch", .catchKw), ("class", .classKw), ("continue", .continueKw), ("default", .defaultKw),
   ("defer", .deferKw), ("do", .doKw), ("else", .elseKw), ("enum", .enumKw),
   ("extension", .extensionKw), ("fallthrough", .fallthroughKw), ("false", .falseKw),
   ("for", .forKw), ("func", .funcKw), ("guard", .guardKw), ("if", .ifKw), ("import", .importKw),
   ("in", .inKw), ("init", .initKw), ("inout", .inoutKw), ("is", .isKw), ("let", .letKw),
   ("nil", .nilKw), ("protocol", .protocolKw), ("repeat", .repeatKw), ("rethrows", .rethrowsKw),
   ("return", .returnKw), ("self", .selfKw), ("Self", .capitalSelfKw), ("struct", .structKw),
   ("super", .superKw), ("switch", .switchKw), ("throw", .throwKw), ("throws", .throwsKw),
   ("true", .trueKw), ("try", .tryKw), ("typealias", .typealiasKw), ("var", .varKw),
   ("where", .whereKw), ("while", .whileKw)]

/-- The keyword kind of a reserved word. -/
def ofKeyword? (word : String) : Option SyntaxKind :=
  keywords.lookup word

/-- Whether the kind is that of a leaf token; keywords are tokens. -/
def isToken (k : SyntaxKind) : Bool :=
  k.ctorIdx < SyntaxKind.sourceFile.ctorIdx

/-- Whether the kind is that of a reserved word. -/
def isKeyword (k : SyntaxKind) : Bool :=
  SyntaxKind.asKw.ctorIdx ≤ k.ctorIdx && k.ctorIdx ≤ SyntaxKind.whileKw.ctorIdx

/-- Whether the kind is that of an inner node. -/
def isNode (k : SyntaxKind) : Bool :=
  !k.isToken

/-- The kinds that introduce a nominal type declaration. -/
def isTypeDecl : SyntaxKind → Bool
  | .structDecl | .classDecl | .enumDecl | .protocolDecl | .extensionDecl => true
  | _ => false

/-- The token kinds that are literals by themselves. -/
def isLiteralToken : SyntaxKind → Bool
  | .integerLiteral | .floatLiteral | .stringLiteral | .trueKw | .falseKw | .nilKw => true
  | _ => false

/-- The kinds of operator tokens, whatever side they bind to. -/
def isOperator : SyntaxKind → Bool
  | .binaryOperator | .prefixOperator | .postfixOperator => true
  | _ => false

/-- Argument labels and parameter names may be any identifier, `_` or keyword. -/
def isName (k : SyntaxKind) : Bool :=
  k == .identifier || k == .wildcard || k.isKeyword

end SyntaxKind

end SwiftTidy
