import SwiftTidy.Parse.Lexer

/-!
# Grammars over tokens

A `Grammar` reads tokens from an `Input` and builds the elements they make up; one that reads
several things in a row is the `++` of the grammars of each.  Elements are built bottom-up, so
wrapping an operand that was read already is building a node around it.

The recursive productions of the language are the `Nonterminal`s.  A production does not call
itself: it is written over a `Level`, which says how the nonterminals below it are read, and the
levels are stacked up once, in `SwiftTidy.Parse.SourceFile`.
-/

namespace SwiftTidy

/-- What is left to read: the tokens before the end of the file, and the byte at which the first
of them starts, leading trivia included. -/
structure Input where
  offset : Nat
  pending : List Token
  endOfFile : Token
  deriving Inhabited

namespace Input

/-- The `n`-th token from here; the end-of-file token when there are not so many. -/
def nth (s : Input) (n : Nat) : Token := s.pending.getD n s.endOfFile

/-- The kind of the `n`-th token from here. -/
def kindAt (s : Input) (n : Nat) : SyntaxKind := (s.nth n).kind

/-- The kind of the next token. -/
def kind (s : Input) : SyntaxKind := s.kindAt 0

/-- The lexeme of the next token. -/
def text (s : Input) : String := (s.nth 0).text

/-- Whether the next token has the given kind. -/
def isAt (s : Input) (k : SyntaxKind) : Bool := s.kind == k

/-- Whether the next token has one of the given kinds. -/
def isAtAny (s : Input) (ks : List SyntaxKind) : Bool := ks.contains s.kind

/-- Whether the next token is the operator with this text, whatever it binds to. -/
def isAtOperator (s : Input) (text : String) : Bool := s.kind.isOperator && s.text == text

/-- Whether the next token starts a line. -/
def isAfterNewline (s : Input) : Bool := (s.nth 0).leading.containsNewline

/-- The byte at which the lexeme of the next token starts. -/
def position (s : Input) : Nat := s.offset + (s.nth 0).leading.len

/-- The sum of a measure over tokens. -/
def total (measure : Token → Nat) : List Token → Nat
  | [] => 0
  | t :: ts => measure t + total measure ts

/-- The input behind all tokens. -/
def atEnd (s : Input) : Input :=
  ⟨s.offset + total Token.fullLen s.pending, [], s.endOfFile⟩

/-- The error that `what` was due here. -/
def expected (s : Input) (what : String) : ParseError :=
  ⟨s.position, .expected what (if s.isAt .endOfFile then none else some s.text)⟩

/-- The number of bytes of the lexemes before the end of the file. -/
def size (s : Input) : Nat := total Token.len s.pending

/-- The kinds in front of which an operator is not bound to the right. -/
def endsOperand : SyntaxKind → Bool
  | .endOfFile | .rightParen | .rightBracket | .rightBrace | .comma | .semicolon | .colon => true
  | _ => false

/-- Cuts `>` off an operator such as `>>` or `>?`, so that it can close a generic clause. -/
def splitRightAngle (s : Input) : Input :=
  match s.pending with
  | [] => s
  | t :: rest =>
    match t.text.toList with
    | '>' :: c :: cs =>
      if t.kind.isOperator then
        let tail := String.ofList (c :: cs)
        let next := rest.headD s.endOfFile
        let rightBound := t.trailing.isEmpty && next.leading.isEmpty && !endsOperand next.kind
        { s with pending :=
            ⟨.binaryOperator, ">", t.leading, []⟩ ::
            ⟨Lexer.classifyOperator tail true rightBound, tail, [], t.trailing⟩ :: rest }
      else s
    | _ => s

end Input

/-- Reads tokens and builds elements from them, or rejects the input. -/
structure Grammar where
  run : Input → Except ParseError (List Element × Input)

namespace Grammar

/-- Builds the given elements, which were read before, and reads nothing. -/
def emit (es : List Element) : Grammar := ⟨fun s => .ok (es, s)⟩

/-- Reads nothing and builds nothing. -/
def nothing : Grammar := emit []

/-- Rejects the input. -/
def fail (e : Input → ParseError) : Grammar := ⟨fun s => .error (e s)⟩

/-- Rejects the input because `what` was due here. -/
def expected (what : String) : Grammar := fail (·.expected what)

/-- Chooses a grammar by looking at the input. -/
def peek (f : Input → Grammar) : Grammar := ⟨fun s => (f s).run s⟩

/-- Reads by `g` and goes on with `k` of what it built. -/
def capture (g : Grammar) (k : List Element → Grammar) : Grammar :=
  ⟨fun s =>
    match g.run s with
    | .error e => .error e
    | .ok (es, s') => (k es).run s'⟩

/-- Reads by `g` and then by `h`. -/
def append (g h : Grammar) : Grammar :=
  ⟨fun s =>
    match g.run s with
    | .error e => .error e
    | .ok (es, s') =>
      match h.run s' with
      | .error e => .error e
      | .ok (fs, s'') => .ok (es ++ fs, s'')⟩

instance : Append Grammar := ⟨append⟩

/-- Reads by `g` and makes one node of what it built. -/
def node (k : SyntaxKind) (g : Grammar) : Grammar :=
  g.capture fun es => emit [.node k es]

/-- Reads one token and gives it the kind `k`. -/
def takeAs (k : SyntaxKind) : Grammar :=
  ⟨fun s =>
    match s.pending with
    | [] => .error (s.expected "token")
    | t :: rest =>
      .ok ([.token { t with kind := k }], ⟨s.offset + t.fullLen, rest, s.endOfFile⟩)⟩

/-- Reads one token. -/
def take : Grammar := peek fun s => takeAs s.kind

/-- Reads `n` tokens. -/
def takeN : Nat → Grammar
  | 0 => nothing
  | n + 1 => take ++ takeN n

/-- Reads a token of kind `k`, which is called `what` when it is missing. -/
def expect (k : SyntaxKind) (what : String) : Grammar :=
  peek fun s => if s.isAt k then take else expected what

/-- Reads by `g` where the test holds, and nothing elsewhere. -/
def onlyIf (test : Input → Bool) (g : Grammar) : Grammar :=
  peek fun s => if test s then g else nothing

/-- Reads by `g` in front of a token of kind `k`, and nothing elsewhere. -/
def whenAt (k : SyntaxKind) (g : Grammar) : Grammar := onlyIf (·.isAt k) g

/-- Reads by `g` in front of a token of one of the kinds, and nothing elsewhere. -/
def whenAtAny (ks : List SyntaxKind) (g : Grammar) : Grammar := onlyIf (·.isAtAny ks) g

/-- Reads a token of kind `k` if there is one. -/
def eat (k : SyntaxKind) : Grammar := whenAt k take

/-- Cuts `>` off the next operator. -/
def splitRightAngle : Grammar := ⟨fun s => .ok ([], s.splitRightAngle)⟩

/-- Reads by whatever `next` chooses until it chooses nothing, at most `bound` times. -/
def repeated (next : Input → Option Grammar) : (bound : Nat) → Grammar
  | 0 => fail fun s => ⟨s.position, .tooDeep⟩
  | bound + 1 =>
    peek fun s =>
      match next s with
      | none => nothing
      | some g => g ++ repeated next bound

/-- Reads items separated by commas, each of which becomes a node of kind `k` together with the
comma behind it.  A comma is followed by another item unless `stop` holds behind it. -/
def commaList (k : SyntaxKind) (stop : Input → Bool) (item : Grammar) :
    (bound : Nat) → (first : Grammar) → Grammar
  | 0, _ => fail fun s => ⟨s.position, .tooDeep⟩
  | bound + 1, first =>
    first.capture fun es => peek fun s =>
      if s.isAt .comma then
        node k (emit es ++ take) ++
          peek fun s' => if stop s' then nothing else commaList k stop item bound item
      else node k (emit es)

/-- Items separated by commas, at least one, with no comma behind the last. -/
def commaSeparated (k : SyntaxKind) (bound : Nat) (item : Grammar) : Grammar :=
  commaList k (fun _ => false) item bound item

/-- Items separated by commas up to a closing token: none at all, or with a comma allowed behind
the last. -/
def commaSeparatedUntil (close k : SyntaxKind) (bound : Nat) (item : Grammar) : Grammar :=
  onlyIf (!·.isAt close) (commaList k (·.isAt close) item bound item)

/-- Wraps `e` in a node for each suffix that `next` finds behind it, at most `bound` times. -/
def suffixes (next : Input → Element → Option (SyntaxKind × Grammar)) :
    (bound : Nat) → (e : Element) → Grammar
  | 0, _ => fail fun s => ⟨s.position, .tooDeep⟩
  | bound + 1, e =>
    peek fun s =>
      match next s e with
      | none => emit [e]
      | some (k, g) => g.capture fun es => suffixes next bound (.node k (e :: es))

/-- Reads one element by `g` and wraps it in a node for each suffix behind it. -/
def withSuffixes (g : Grammar) (bound : Nat)
    (next : Input → Element → Option (SyntaxKind × Grammar)) : Grammar :=
  g.capture fun es =>
    match es with
    | [e] => suffixes next bound e
    | es => emit es

/-- Reads by `g`; more than one element make a node of kind `k`, a single one stands alone. -/
def nodeUnlessSingle (k : SyntaxKind) (g : Grammar) : Grammar :=
  g.capture fun es =>
    match es with
    | [e] => emit [e]
    | es => emit [.node k es]

end Grammar

/-- What holds around an expression. -/
structure Restrictions where
  /-- A brace ends the expression instead of starting a trailing closure, as in conditions and
  switch subjects. -/
  noTrailingClosure : Bool
  /-- `let`, `var` and `is` introduce patterns. -/
  inPattern : Bool
  deriving DecidableEq, Inhabited

namespace Restrictions

/-- An expression on its own. -/
def free : Restrictions := ⟨false, false⟩

/-- An expression in front of a block. -/
def condition : Restrictions := ⟨true, false⟩

/-- An expression read as a pattern. -/
def pattern : Restrictions := ⟨true, true⟩

end Restrictions

/-- The recursive productions. -/
inductive Nonterminal where
  | type
  | expression (ρ : Restrictions)
  /-- An operand with the operators in front of it. -/
  | operand (ρ : Restrictions)
  | ifExpr
  /-- A pattern of `case`, `catch` and `for case`. -/
  | pattern
  /-- A pattern that `let` or `var` binds. -/
  | bindingPattern
  | codeBlockItem
  deriving DecidableEq, Inhabited

/-- How the nonterminals below a production are read, and a bound for its loops. -/
structure Level where
  bound : Nat
  read : Nonterminal → Grammar

namespace Level

/-- A type. -/
def type (r : Level) : Grammar := r.read .type

/-- An expression. -/
def expression (r : Level) (ρ : Restrictions) : Grammar := r.read (.expression ρ)

/-- An operand with the operators in front of it. -/
def operand (r : Level) (ρ : Restrictions) : Grammar := r.read (.operand ρ)

/-- A conditional. -/
def ifExpr (r : Level) : Grammar := r.read .ifExpr

/-- A pattern of `case`, `catch` and `for case`. -/
def pattern (r : Level) : Grammar := r.read .pattern

/-- A pattern that `let` or `var` binds. -/
def bindingPattern (r : Level) : Grammar := r.read .bindingPattern

/-- A statement or declaration, with a semicolon if one follows. -/
def codeBlockItem (r : Level) : Grammar := r.read .codeBlockItem

end Level

namespace Grammar

/-! ### Attributes -/

/-- The number of tokens up to the parenthesis that closes the outermost of those open. -/
def balancedLength? : (depth : Nat) → List Token → Option Nat
  | _, [] => none
  | depth, t :: ts =>
    if t.kind == .leftParen then (balancedLength? (depth + 1) ts).map (· + 1)
    else if t.kind == .rightParen then
      if depth ≤ 1 then some 1 else (balancedLength? (depth - 1) ts).map (· + 1)
    else (balancedLength? depth ts).map (· + 1)

/-- A parenthesised run of tokens, read as it is. -/
def balancedParens : Grammar :=
  peek fun s =>
    match balancedLength? 0 s.pending with
    | some n => takeN n
    | none => fail fun s => s.atEnd.expected "`)`"

/-- An attribute: `@name`, with arguments in parentheses on the same line. -/
def attributeUse : Grammar :=
  node .attributeUse <|
    expect .atSign "`@`" ++
    (peek fun s =>
      if s.isAt .identifier || s.kind.isKeyword then take else expected "attribute name") ++
    onlyIf (fun s => s.isAt .leftParen && !s.isAfterNewline) balancedParens

end Grammar

end SwiftTidy
