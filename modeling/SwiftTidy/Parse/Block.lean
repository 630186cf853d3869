import SwiftTidy.Parse.Type

/-!
# Patterns, blocks and branches

Two kinds of patterns: those that `let` and `var` bind, made of names and tuples, and those of
`case`, `catch` and `for case`, which are expressions in which `let`, `var` and `is` have a
meaning of their own.  Behind them braced blocks of statements, and the constructs that choose between
blocks: conditions, `if` and `switch`.
-/

namespace SwiftTidy

namespace Grammar

/-- A pattern that `let` or `var` binds. -/
def bindingPattern (r : Level) : Grammar :=
  peek fun s =>
    match s.kind with
    | .identifier => node .identifierPattern take
    | .wildcard => node .wildcardPattern take
    | .leftParen =>
      node .tuplePattern <|
        take ++
        commaSeparatedUntil .rightParen .tuplePatternElement r.bound r.bindingPattern ++
        expect .rightParen "`)`"
    | _ => expected "pattern"

/-- Whether `_` stands for a whole pattern here, not for an expression that goes on. -/
def isAtWildcardPattern (s : Input) : Bool :=
  s.isAt .wildcard &&
    (s.kindAt 1 == .colon || s.kindAt 1 == .comma || s.kindAt 1 == .whereKw ||
      s.kindAt 1 == .equal)

/-- A pattern of `case`, `catch` and `for case`. -/
def pattern (r : Level) : Grammar :=
  peek fun s =>
    if s.isAtAny [.letKw, .varKw] then node .valueBindingPattern (take ++ r.pattern)
    else if isAtWildcardPattern s then node .wildcardPattern take
    else if s.isAt .identifier && s.kindAt 1 == .inKw then node .identifierPattern take
    else node .expressionPattern (r.expression .pattern)

/-! ### Blocks -/

/-- Statements up to, and not including, the closing brace. -/
def blockItems (r : Level) : Grammar :=
  repeated (fun s =>
    if s.isAt .rightBrace then none
    else if s.isAt .endOfFile then some (expected "`\x7d`")
    else some r.codeBlockItem) r.bound

/-- A braced block of the given kind. -/
def braced (k : SyntaxKind) (r : Level) : Grammar :=
  node k (expect .leftBrace "`\x7b`" ++ blockItems r ++ take)

/-- A block of statements. -/
def codeBlock (r : Level) : Grammar := braced .codeBlock r

/-- The members of a type. -/
def memberBlock (r : Level) : Grammar := braced .memberBlock r

/-- A condition behind `where`. -/
def whereClause (r : Level) : Grammar :=
  node .whereClause (take ++ r.expression .condition)

/-- One condition of a list: a binding, a pattern to match or an expression. -/
def condition (r : Level) : Grammar :=
  peek fun s =>
    match s.kind with
    | .letKw | .varKw =>
      node .optionalBindingCondition <|
        take ++ r.bindingPattern ++
        whenAt .colon (typeAscription r) ++
        whenAt .equal (initializerClause r .condition)
    | .caseKw => take ++ r.pattern ++ initializerClause r .condition
    | _ => r.expression .condition

/-- The conditions in front of a block. -/
def conditionList (r : Level) : Grammar :=
  commaSeparated .conditionElement r.bound (condition r)

/-- A conditional with its branches. -/
def ifExpr (r : Level) : Grammar :=
  node .ifExpr <|
    take ++ conditionList r ++ codeBlock r ++
    whenAt .elseKw (take ++ peek fun s => if s.isAt .ifKw then r.ifExpr else codeBlock r)

/-- Whether `@unknown` stands in front of a label here. -/
def isAtUnknownAttribute (s : Input) : Bool :=
  s.isAt .atSign && (s.nth 1).text == "unknown"

/-- The patterns of a case. -/
def switchCaseLabel (r : Level) : Grammar :=
  node .switchCaseLabel <|
    take ++
    commaSeparated .switchCaseItem r.bound (r.pattern ++ whenAt .whereKw (whereClause r)) ++
    expect .colon "`:`"

/-- A label with the statements below it. -/
def switchCase (r : Level) : Grammar :=
  node .switchCase <|
    onlyIf isAtUnknownAttribute attributeUse ++
    (peek fun s =>
      match s.kind with
      | .caseKw => switchCaseLabel r
      | .defaultKw => node .switchDefaultLabel (take ++ expect .colon "`:`")
      | _ => expected "`case` or `default`") ++
    repeated (fun s =>
      if s.isAtAny [.caseKw, .defaultKw, .rightBrace] || isAtUnknownAttribute s then none
      else if s.isAt .endOfFile then some (expected "`\x7d`")
      else some r.codeBlockItem) r.bound

/-- A switch with its cases. -/
def switchExpr (r : Level) : Grammar :=
  node .switchExpr <|
    take ++ r.expression .condition ++ expect .leftBrace "`\x7b`" ++
    repeated (fun s => if s.isAt .rightBrace then none else some (switchCase r)) r.bound ++
    take

end Grammar

end SwiftTidy
