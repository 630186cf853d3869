import SwiftTidy.Parse.Declaration

/-!
# Statements

A statement is a declaration, one of the statements a keyword starts, or an expression.
-/

namespace SwiftTidy

namespace Grammar

/-- Whether nothing of the current statement follows here. -/
def isAtStatementEnd (s : Input) : Bool :=
  s.isAfterNewline || s.isAtAny [.rightBrace, .semicolon, .endOfFile, .caseKw, .defaultKw]

/-- A jump with an optional label on the same line. -/
def jump (k : SyntaxKind) : Grammar :=
  node k (take ++ onlyIf (fun s => s.isAt .identifier && !s.isAfterNewline) take)

/-- A guard: conditions and the block to take when they fail. -/
def guardStmt (r : Level) : Grammar :=
  node .guardStmt (take ++ conditionList r ++ expect .elseKw "`else`" ++ codeBlock r)

/-- A loop with its conditions in front. -/
def whileStmt (r : Level) : Grammar :=
  node .whileStmt (take ++ conditionList r ++ codeBlock r)

/-- A loop with its condition behind. -/
def repeatStmt (r : Level) : Grammar :=
  node .repeatStmt <|
    take ++ codeBlock r ++ expect .whileKw "`while`" ++ r.expression .free

/-- What a loop over a sequence binds. -/
def forPattern (r : Level) : Grammar :=
  peek fun s =>
    match s.kind with
    | .caseKw => take ++ r.pattern
    | .letKw | .varKw => node .valueBindingPattern (take ++ r.bindingPattern)
    | _ => r.bindingPattern

/-- A loop over a sequence. -/
def forInStmt (r : Level) : Grammar :=
  node .forInStmt <|
    take ++ eat .tryKw ++ eat .awaitKw ++
    forPattern r ++
    whenAt .colon (typeAscription r) ++
    expect .inKw "`in`" ++
    r.expression .condition ++
    whenAt .whereKw (whereClause r) ++
    codeBlock r

/-- One clause that handles errors. -/
def catchClause (r : Level) : Grammar :=
  node .catchClause <|
    take ++
    onlyIf (!·.isAtAny [.leftBrace, .whereKw]) r.pattern ++
    whenAt .whereKw (whereClause r) ++
    codeBlock r

/-- A block with the clauses that handle its errors. -/
def doStmt (r : Level) : Grammar :=
  node .doStmt <|
    take ++ codeBlock r ++
    repeated (fun s => if s.isAt .catchKw then some (catchClause r) else none) r.bound

/-- A statement. -/
def statement (r : Level) : Grammar :=
  peek fun s =>
    if isAtDecl s then declaration r
    else
      match s.kind with
      | .guardKw => guardStmt r
      | .whileKw => whileStmt r
      | .repeatKw => repeatStmt r
      | .forKw => forInStmt r
      | .doKw => doStmt r
      | .deferKw => node .deferStmt (take ++ codeBlock r)
      | .returnKw =>
        node .returnStmt (take ++ onlyIf (!isAtStatementEnd ·) (r.expression .free))
      | .throwKw => node .throwStmt (take ++ r.expression .free)
      | .breakKw => jump .breakStmt
      | .continueKw => jump .continueStmt
      | .fallthroughKw => node .fallthroughStmt take
      | _ => if isAtConditionalCompilation s then conditionalCompilation else r.expression .free

/-- A statement with the semicolon behind it. -/
def codeBlockItem (r : Level) : Grammar :=
  node .codeBlockItem (statement r ++ eat .semicolon)

end Grammar

end SwiftTidy
