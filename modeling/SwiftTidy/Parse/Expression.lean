import SwiftTidy.Parse.Block

/-!
# Expressions

An expression is a flat sequence of operands and operators: precedence is not resolved.  More
than one element make a `sequenceExpr`, in which the middle part of a conditional operator is one
element of its own.
-/

namespace SwiftTidy

namespace Grammar

/-- Comma separated values with optional labels, up to `close`.  A label may stand alone, as in a
reference to a function by its labels. -/
def argumentList (r : Level) (close : SyntaxKind) (inPattern : Bool) : Grammar :=
  node .argumentList <|
    commaSeparatedUntil close .labeledExpr r.bound <|
      onlyIf (fun s => s.kind.isName && s.kindAt 1 == .colon) (takeN 2) ++
      onlyIf (fun s => !s.isAt .comma && !s.isAt close) (r.expression ⟨false, inPattern⟩)

/-- The kinds that may occur in the signature of a closure, brackets apart. -/
def isSignatureKind : SyntaxKind → Bool
  | .identifier | .wildcard | .comma | .colon | .arrow | .period | .postfixQuestionMark
  | .exclamationMark | .throwsKw | .asyncKw | .selfKw | .capitalSelfKw | .inoutKw | .atSign
  | .binaryOperator => true
  | _ => false

/-- The number of tokens of a closure's signature, its `in` included, when the tokens behind the
brace form one. -/
def signatureLength? : (depth : Nat) → List Token → Option Nat
  | _, [] => none
  | depth, t :: ts =>
    match t.kind with
    | .inKw => if depth = 0 then some 1 else none
    | .leftParen | .leftBracket => (signatureLength? (depth + 1) ts).map (· + 1)
    | .rightParen | .rightBracket =>
      if depth = 0 then none else (signatureLength? (depth - 1) ts).map (· + 1)
    | .equal => if depth = 0 then none else (signatureLength? depth ts).map (· + 1)
    | k => if isSignatureKind k then (signatureLength? depth ts).map (· + 1) else none

/-- A closure: a braced block with an optional signature. -/
def closureExpr (r : Level) : Grammar :=
  node .closureExpr <|
    expect .leftBrace "`\x7b`" ++
    (peek fun s =>
      match signatureLength? 0 s.pending with
      | some n => node .closureSignature (takeN n)
      | none => nothing) ++
    blockItems r ++
    take

/-- An array or dictionary literal; the colon behind its first expression tells them apart. -/
def collectionExpr (r : Level) : Grammar :=
  take.capture fun opening => peek fun s =>
    if s.isAt .colon && s.kindAt 1 == .rightBracket then
      node .dictionaryExpr (emit opening ++ takeN 2)
    else if s.isAt .rightBracket then
      node .arrayExpr (emit opening ++ take)
    else
      (r.expression .free).capture fun first => peek fun s =>
        let value := r.expression .free
        let behindKey := expect .colon "`:`" ++ value
        if s.isAt .colon then
          node .dictionaryExpr <|
            emit opening ++
            commaList .dictionaryElement (·.isAt .rightBracket) (value ++ behindKey) r.bound
              (emit first ++ behindKey) ++
            expect .rightBracket "`]`"
        else
          node .arrayExpr <|
            emit opening ++
            commaList .arrayElement (·.isAt .rightBracket) value r.bound (emit first) ++
            expect .rightBracket "`]`"

/-- The name behind a period. -/
def memberName : Grammar :=
  peek fun s =>
    if s.kind.isName || s.isAt .integerLiteral || s.isAt .dollarIdentifier then take
    else expected "member name"

/-- Whether an operator is passed as a value here, as in `reduce(0, +)`. -/
def isAtOperatorValue (s : Input) : Bool :=
  s.kind.isOperator && (s.kindAt 1 == .rightParen || s.kindAt 1 == .comma)

/-- Rejects the input because conditional compilation is not read. -/
def conditionalCompilation : Grammar := fail fun s => ⟨s.position, .conditionalCompilation⟩

/-- Whether a conditional compilation block starts here. -/
def isAtConditionalCompilation (s : Input) : Bool :=
  s.isAt .poundKeyword && ['#', 'i', 'f'].isPrefixOf s.text.toList

/-- An operand without the operators around it. -/
def primaryExpr (r : Level) (ρ : Restrictions) : Grammar :=
  peek fun s =>
    match s.kind with
    | .identifier | .dollarIdentifier | .selfKw | .capitalSelfKw | .superKw | .initKw =>
      node .identifierExpr take
    | .poundKeyword =>
      if isAtConditionalCompilation s then conditionalCompilation else node .identifierExpr take
    | .wildcard => node .discardExpr take
    | .period => node .memberAccessExpr (take ++ memberName)
    | .leftParen =>
      node .tupleExpr <|
        take ++ argumentList r .rightParen ρ.inPattern ++ expect .rightParen "`)`"
    | .leftBracket => collectionExpr r
    | .leftBrace => closureExpr r
    | .ifKw => r.ifExpr
    | .switchKw => switchExpr r
    | .letKw | .varKw => if ρ.inPattern then r.pattern else expected "expression"
    | .isKw =>
      if ρ.inPattern then node .typeCastExpr (take ++ r.type) else expected "expression"
    | k =>
      if k.isLiteralToken then node .literalExpr take
      else if isAtOperatorValue s then node .identifierExpr take
      else expected "expression"

/-- The expressions that a trailing closure may be passed to. -/
def acceptsTrailingClosure : SyntaxKind → Bool
  | .identifierExpr | .memberAccessExpr | .functionCallExpr | .subscriptExpr
  | .optionalChainingExpr | .forceUnwrapExpr => true
  | _ => false

/-- Whether a trailing closure starts here. -/
def isAtTrailingClosure (ρ : Restrictions) (s : Input) : Bool :=
  !ρ.noTrailingClosure && s.isAt .leftBrace && !s.isAfterNewline

/-- What may follow an operand: a member, a call, a subscript, a trailing closure or a postfix
operator.  Calls, subscripts and closures start on the same line. -/
def exprSuffix? (r : Level) (ρ : Restrictions) (s : Input) (e : Element) :
    Option (SyntaxKind × Grammar) :=
  match s.kind with
  | .period => some (.memberAccessExpr, take ++ memberName)
  | .leftParen =>
    if s.isAfterNewline then none
    else
      some (.functionCallExpr,
        take ++ argumentList r .rightParen ρ.inPattern ++ expect .rightParen "`)`" ++
        onlyIf (isAtTrailingClosure ρ) (closureExpr r))
  | .leftBracket =>
    if s.isAfterNewline then none
    else
      some (.subscriptExpr,
        take ++ argumentList r .rightBracket false ++ expect .rightBracket "`]`")
  | .leftBrace =>
    if isAtTrailingClosure ρ s && acceptsTrailingClosure e.kind then
      some (.functionCallExpr, closureExpr r)
    else none
  | .exclamationMark => some (.forceUnwrapExpr, take)
  | .postfixQuestionMark => some (.optionalChainingExpr, take)
  | .postfixOperator => some (.postfixOperatorExpr, take)
  | _ => none

/-- The marks that may follow `try` and `as`. -/
def optionalMark : Grammar := whenAtAny [.postfixQuestionMark, .exclamationMark] take

/-- An operand with the operators in front of it and behind it. -/
def operand (r : Level) (ρ : Restrictions) : Grammar :=
  peek fun s =>
    if s.isAt .prefixOperator && !isAtOperatorValue s then
      node .prefixOperatorExpr (take ++ r.operand ρ)
    else if s.isAt .tryKw then node .tryExpr (take ++ optionalMark ++ r.operand ρ)
    else if s.isAt .awaitKw then node .awaitExpr (take ++ r.operand ρ)
    else (primaryExpr r ρ).withSuffixes r.bound (exprSuffix? r ρ)

/-- An operator with the operand behind it, if one is here. -/
def operatorPart? (r : Level) (ρ : Restrictions) (s : Input) : Option Grammar :=
  match s.kind with
  | .binaryOperator => some (take ++ r.operand ρ)
  | .equal => if ρ.inPattern then none else some (take ++ r.operand ρ)
  | .infixQuestionMark =>
    some (node .ternaryExpr (take ++ r.expression { ρ with inPattern := false } ++
      expect .colon "`:`") ++ r.operand ρ)
  | .isKw => some (node .typeCastExpr (take ++ r.type))
  | .asKw => some (node .typeCastExpr (take ++ optionalMark ++ r.type))
  | _ => none

/-- A sequence of operands and operators. -/
def expression (r : Level) (ρ : Restrictions) : Grammar :=
  nodeUnlessSingle .sequenceExpr (r.operand ρ ++ repeated (operatorPart? r ρ) r.bound)

end Grammar

end SwiftTidy
