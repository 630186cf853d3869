import SwiftTidy.Parse.Grammar

/-!
# Types

The productions of types, and the clauses in which a type or an initial value is attached to
something: `: T`, `-> T` and `= value`.
-/

namespace SwiftTidy

namespace Grammar

/-- A type behind a colon. -/
def typeAscription (r : Level) : Grammar :=
  node .typeAscription (expect .colon "`:`" ++ r.type)

/-- A value behind an equals sign. -/
def initializerClause (r : Level) (ρ : Restrictions) : Grammar :=
  node .initializerClause (expect .equal "`=`" ++ r.expression ρ)

/-- The result type of a function. -/
def returnClause (r : Level) : Grammar :=
  node .returnClause (expect .arrow "`->`" ++ r.type)

/-- The `>` that ends a generic clause. -/
def rightAngle : Grammar :=
  splitRightAngle ++
  peek fun s => if s.isAtOperator ">" then takeAs .rightAngle else expected "`>`"

/-- The arguments of a generic type. -/
def genericArgumentClause (r : Level) : Grammar :=
  node .genericArgumentClause <|
    takeAs .leftAngle ++
    commaSeparated .genericArgument r.bound (r.type ++ splitRightAngle) ++
    rightAngle

/-- One element of a tuple type: labels, a type, and what a parameter of a function may add. -/
def tupleTypeElement (r : Level) : Grammar :=
  (peek fun s =>
    if s.kind.isName && s.kindAt 1 == .colon then takeN 2
    else if s.kind.isName && (s.kindAt 1).isName && s.kindAt 2 == .colon then takeN 3
    else nothing) ++
  r.type ++
  onlyIf (·.isAtOperator "...") take ++
  whenAt .equal (initializerClause r .free)

/-- A tuple type, which is also the parameter list of a function type. -/
def tupleType (r : Level) : Grammar :=
  node .tupleType <|
    expect .leftParen "`(`" ++
    commaSeparatedUntil .rightParen .tupleTypeElement r.bound (tupleTypeElement r) ++
    expect .rightParen "`)`"

/-- Everything of a function type behind its parameters. -/
def functionTypeRest (r : Level) : Grammar :=
  eat .asyncKw ++ whenAtAny [.throwsKw, .rethrowsKw] take ++ returnClause r

/-- A type without what may follow it. -/
def primaryType (r : Level) : Grammar :=
  peek fun s =>
    match s.kind with
    | .identifier | .capitalSelfKw =>
      node .identifierType (take ++ onlyIf (·.isAtOperator "<") (genericArgumentClause r))
    | .leftBracket =>
      (take ++ r.type).capture fun es => peek fun s =>
        if s.isAt .colon then
          node .dictionaryType (emit es ++ take ++ r.type ++ expect .rightBracket "`]`")
        else node .arrayType (emit es ++ expect .rightBracket "`]`")
    | .leftParen =>
      (tupleType r).capture fun es => peek fun s =>
        if s.isAtAny [.asyncKw, .throwsKw, .rethrowsKw, .arrow] then
          node .functionType (emit es ++ functionTypeRest r)
        else emit es
    | _ => expected "type"

/-- What may follow a type: `?`, `!` and a member type on the same line. -/
def typeSuffix? (r : Level) (s : Input) (_ : Element) : Option (SyntaxKind × Grammar) :=
  match s.kind with
  | .postfixQuestionMark => some (.optionalType, take)
  | .exclamationMark => some (.implicitlyUnwrappedOptionalType, take)
  | .period =>
    if !s.isAfterNewline && (s.kindAt 1).isName then
      some (.memberType, takeN 2 ++ onlyIf (·.isAtOperator "<") (genericArgumentClause r))
    else none
  | _ => none

/-- Whether `some` or `any` stands in front of a type here. -/
def isAtOpaqueType (s : Input) : Bool :=
  s.isAt .identifier && (s.text == "some" || s.text == "any") &&
    (s.kindAt 1 == .identifier || s.kindAt 1 == .leftParen || s.kindAt 1 == .capitalSelfKw)

/-- A type with the attributes and words in front of it. -/
def type (r : Level) : Grammar :=
  peek fun s =>
    if s.isAt .atSign then node .attributedType (attributeUse ++ r.type)
    else if s.isAt .inoutKw then node .attributedType (take ++ r.type)
    else if isAtOpaqueType s then node .someOrAnyType (take ++ r.type)
    else (primaryType r).withSuffixes r.bound (typeSuffix? r)

end Grammar

end SwiftTidy
