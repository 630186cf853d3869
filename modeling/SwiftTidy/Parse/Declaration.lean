import SwiftTidy.Parse.Expression

/-!
# Declarations

A declaration is a run of attributes and modifiers and then a keyword that tells its kind.
Modifiers are contextual words: they are identifiers anywhere else.
-/

namespace SwiftTidy

namespace Grammar

/-- The contextual words that act as modifiers. -/
def modifierWords : List String :=
  ["private", "fileprivate", "internal", "public", "open", "static", "final", "override",
   "mutating", "nonmutating", "lazy", "weak", "unowned", "required", "convenience", "dynamic",
   "optional", "indirect", "nonisolated"]

/-- The kind of the first of the tokens. -/
def headKind (ts : List Token) : SyntaxKind :=
  match ts with
  | [] => .endOfFile
  | t :: _ => t.kind

/-- Whether the first of the tokens is a modifier; `class` is one in front of a member. -/
def startsWithModifier : List Token → Bool
  | [] => false
  | t :: ts =>
    match t.kind with
    | .identifier => modifierWords.contains t.text
    | .classKw => headKind ts == .funcKw || headKind ts == .varKw || headKind ts == .letKw
    | _ => false

/-- Whether the tokens go on with one token in parentheses, as in `private(set)`. -/
def startsWithDetail (ts : List Token) : Bool :=
  headKind ts == .leftParen && headKind (ts.drop 2) == .rightParen

/-- The tokens behind a parenthesised run, of which `depth` parentheses are open. -/
def skipParens : (depth : Nat) → List Token → List Token
  | _, [] => []
  | depth, t :: ts =>
    if t.kind == .leftParen then skipParens (depth + 1) ts
    else if t.kind == .rightParen then if depth ≤ 1 then ts else skipParens (depth - 1) ts
    else skipParens depth ts

/-- The keywords that tell the kind of a declaration. -/
def isDeclKeyword : SyntaxKind → Bool
  | .importKw | .letKw | .varKw | .funcKw | .initKw | .structKw | .classKw | .enumKw
  | .protocolKw | .extensionKw | .typealiasKw | .caseKw => true
  | _ => false

/-- Whether the tokens start a declaration: behind attributes and modifiers there is a
declaration keyword.  `fuel` bounds the number of attributes and modifiers. -/
def startsDecl : (fuel : Nat) → List Token → Bool
  | 0, ts => isDeclKeyword (headKind ts)
  | fuel + 1, ts =>
    if headKind ts == .atSign then
      let rest := ts.drop 2
      startsDecl fuel (if headKind rest == .leftParen then skipParens 0 rest else rest)
    else if startsWithModifier ts then
      let rest := ts.drop 1
      startsDecl fuel (if startsWithDetail rest then rest.drop 3 else rest)
    else isDeclKeyword (headKind ts)

/-- Whether a declaration starts here. -/
def isAtDecl (s : Input) : Bool := startsDecl s.pending.length s.pending

/-- A modifier with its detail in parentheses. -/
def declModifier : Grammar :=
  node .declModifier (take ++ onlyIf (startsWithDetail ·.pending) (takeN 3))

/-- The attributes and modifiers in front of a declaration. -/
def declModifiers (r : Level) : Grammar :=
  repeated (fun s =>
    if s.isAt .atSign then some attributeUse
    else if startsWithModifier s.pending then some declModifier
    else none) r.bound

/-- An import with its path; a keyword may tell what is imported. -/
def importDecl (r : Level) : Grammar :=
  take ++
  whenAtAny [.structKw, .classKw, .enumKw, .protocolKw, .funcKw, .varKw, .letKw, .typealiasKw]
    take ++
  expect .identifier "module name" ++
  repeated (fun s =>
    if s.isAt .period && !s.isAfterNewline then
      some (take ++ peek fun s =>
        if s.isAt .identifier || s.kind.isKeyword || s.kind.isOperator then take
        else expected "import path component")
    else none) r.bound

/-- One binding of a variable declaration: pattern, type, value and accessors. -/
def patternBinding (r : Level) : Grammar :=
  r.bindingPattern ++
  whenAt .colon (typeAscription r) ++
  whenAt .equal (initializerClause r .free) ++
  whenAt .leftBrace (codeBlock r)

/-- A variable declaration. -/
def variableDecl (r : Level) : Grammar :=
  take ++ commaSeparated .patternBinding r.bound (patternBinding r)

/-- One parameter of a function: attributes, label, name, type and default value. -/
def parameter (r : Level) : Grammar :=
  repeated (fun s => if s.isAt .atSign then some attributeUse else none) r.bound ++
  (peek fun s => if s.kind.isName then take else expected "parameter name") ++
  onlyIf (fun s => s.kind.isName && s.kindAt 1 == .colon) take ++
  expect .colon "`:`" ++
  r.type ++
  onlyIf (·.isAtOperator "...") take ++
  whenAt .equal (initializerClause r .free)

/-- The parameters of a function. -/
def parameterClause (r : Level) : Grammar :=
  node .parameterClause <|
    expect .leftParen "`(`" ++
    commaSeparatedUntil .rightParen .parameter r.bound (parameter r) ++
    expect .rightParen "`)`"

/-- Parameters, effects and result of a function. -/
def functionSignature (r : Level) : Grammar :=
  node .functionSignature <|
    parameterClause r ++
    eat .asyncKw ++
    whenAtAny [.throwsKw, .rethrowsKw] take ++
    whenAt .arrow (returnClause r)

/-- The generic parameters of a declaration. -/
def genericParameterClause (r : Level) : Grammar :=
  node .genericParameterClause <|
    takeAs .leftAngle ++
    commaSeparated .genericParameter r.bound
      (expect .identifier "generic parameter name" ++
        whenAt .colon (take ++ r.type) ++ splitRightAngle) ++
    rightAngle

/-- The requirements behind `where`. -/
def genericWhereClause (r : Level) : Grammar :=
  node .genericWhereClause <|
    take ++
    commaSeparated .genericRequirement r.bound
      (r.type ++
        (peek fun s =>
          if s.isAt .colon || s.isAtOperator "==" then take else expected "`:` or `==`") ++
        r.type)

/-- Generic parameters where there are any. -/
def optionalGenericParameters (r : Level) : Grammar :=
  onlyIf (·.isAtOperator "<") (genericParameterClause r)

/-- Everything of a function or initializer behind its name. -/
def functionRest (r : Level) : Grammar :=
  optionalGenericParameters r ++
  functionSignature r ++
  whenAt .whereKw (genericWhereClause r) ++
  whenAt .leftBrace (codeBlock r)

/-- A function; operators and `=` are names too. -/
def functionDecl (r : Level) : Grammar :=
  take ++
  (peek fun s =>
    if s.isAt .identifier || s.kind.isOperator || s.isAt .equal then take
    else expected "function name") ++
  functionRest r

/-- An initializer, which may be failable. -/
def initializerDecl (r : Level) : Grammar :=
  take ++ optionalMark ++ functionRest r

/-- What a type inherits from. -/
def inheritanceClause (r : Level) : Grammar :=
  node .inheritanceClause (take ++ commaSeparated .inheritedType r.bound r.type)

/-- A type declaration or an extension; an extension names a type instead of introducing one. -/
def typeDecl (r : Level) (isExtension : Bool) : Grammar :=
  take ++
  (if isExtension then r.type
    else expect .identifier "type name" ++ optionalGenericParameters r) ++
  whenAt .colon (inheritanceClause r) ++
  whenAt .whereKw (genericWhereClause r) ++
  memberBlock r

/-- A type alias. -/
def typeAliasDecl (r : Level) : Grammar :=
  take ++
  expect .identifier "type alias name" ++
  optionalGenericParameters r ++
  expect .equal "`=`" ++
  r.type

/-- The cases of an enumeration, with associated values or raw values. -/
def enumCaseDecl (r : Level) : Grammar :=
  take ++
  commaSeparated .enumCaseElement r.bound
    (expect .identifier "enum case name" ++
      whenAt .leftParen (tupleType r) ++
      whenAt .equal (initializerClause r .free))

/-- A declaration with its attributes and modifiers. -/
def declaration (r : Level) : Grammar :=
  (declModifiers r).capture fun modifiers => peek fun s =>
    let decl (k : SyntaxKind) (g : Grammar) : Grammar := node k (emit modifiers ++ g)
    match s.kind with
    | .importKw => decl .importDecl (importDecl r)
    | .letKw | .varKw => decl .variableDecl (variableDecl r)
    | .funcKw => decl .functionDecl (functionDecl r)
    | .initKw => decl .initializerDecl (initializerDecl r)
    | .structKw => decl .structDecl (typeDecl r false)
    | .classKw => decl .classDecl (typeDecl r false)
    | .enumKw => decl .enumDecl (typeDecl r false)
    | .protocolKw => decl .protocolDecl (typeDecl r false)
    | .extensionKw => decl .extensionDecl (typeDecl r true)
    | .typealiasKw => decl .typeAliasDecl (typeAliasDecl r)
    | .caseKw => decl .enumCaseDecl (enumCaseDecl r)
    | _ => expected "declaration"

end Grammar

end SwiftTidy
