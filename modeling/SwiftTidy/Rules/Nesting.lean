import SwiftTidy.Lint.Rule
import SwiftTidy.Tree.Walk

/-!
# Nesting of types and functions

Types are counted within types and functions within functions, whatever stands between them.
-/

namespace SwiftTidy

namespace Nesting

/-! ### Examples -/

/-- Code that the rule accepts. -/
def accepted : List Example :=
  [⟨"class Example_0 \x7b\n    class Example_1 \x7b\x7d\n\x7d\n", none⟩,
   ⟨"extension Example_0 \x7b\n    struct Example_1 \x7b\x7d\n\x7d\n", none⟩,
   ⟨"func f_0() \x7b\n    func f_1() \x7b\n        func f_2() \x7b\x7d\n    \x7d\n\x7d\n", none⟩,
   ⟨"struct A \x7b\n    func f_0() \x7b\n        func f_1() \x7b\n            func f_2() \x7b" ++
     "\x7d\n        \x7d\n    \x7d\n\x7d\n", none⟩,
   ⟨"var example: Int \x7b\n    struct Example_0 \x7b\n        struct Example_1 \x7b\x7d\n    " ++
     "\x7d\n    return 5\n\x7d\n", none⟩,
   ⟨"if x \x7b\n    struct A \x7b\n        struct B \x7b\n            struct C \x7b\x7d\n      " ++
     "  \x7d\n    \x7d\n\x7d\n",
    some "\x7b check_nesting_in_closures_and_statements = false \x7d"⟩,
   ⟨"let c = \x7b\n    struct A \x7b\n        struct B \x7b\n            struct C \x7b\x7d\n   " ++
     "     \x7d\n    \x7d\n\x7d\n",
    some "\x7b check_nesting_in_closures_and_statements = false \x7d"⟩,
   ⟨"struct A \x7b\n    struct B \x7b\n        func f() \x7b\n            struct C \x7b\x7d\n  " ++
     "      \x7d\n    \x7d\n\x7d\n",
    some "\x7b always_allow_one_type_in_functions = true \x7d"⟩,
   ⟨"struct A \x7b\n    struct B \x7b\n        typealias C = Int\n    \x7d\n\x7d\n",
    some "\x7b ignore_typealiases_and_associatedtypes = true \x7d"⟩]

/-- Code that the rule reports; an arrow stands in front of every violation. -/
def rejected : List Example :=
  [⟨"class A \x7b\n    class B \x7b\n        ↓class C \x7b\x7d\n    \x7d\n\x7d\n", none⟩,
   ⟨"enum A \x7b\n    enum B \x7b\n        ↓enum C \x7b\x7d\n    \x7d\n\x7d\n", none⟩,
   ⟨"func f_0() \x7b\n    func f_1() \x7b\n        func f_2() \x7b\n            ↓func f_3() " ++
     "\x7b\x7d\n        \x7d\n    \x7d\n\x7d\n", none⟩,
   ⟨"struct A \x7b\n    struct B \x7b\n        ↓typealias C = Int\n    \x7d\n\x7d\n", none⟩,
   ⟨"let c = \x7b\n    struct A \x7b\n        struct B \x7b\n            ↓struct C \x7b\x7d\n  " ++
     "      \x7d\n    \x7d\n\x7d\n", none⟩,
   ⟨"switch x \x7b\ncase .a:\n    struct A \x7b\n        struct B \x7b\n            ↓struct C " ++
     "\x7b\x7d\n        \x7d\n    \x7d\ndefault:\n    break\n\x7d\n", none⟩,
   ⟨"struct A \x7b\n    struct B \x7b\n        func f() \x7b\n            ↓struct C \x7b\x7d\n " ++
     "       \x7d\n    \x7d\n\x7d\n", none⟩]

/-- Code that the rule corrects, with the corrected code. -/
def corrections : List (Example × String) := []

/-! ### The rule -/

/-- What the rule is. -/
def description : RuleDescription where
  identifier := "nesting"
  name := "Nesting"
  summary :=
    "Types should be nested at most 1 level deep, and functions should be nested at most 2 " ++
    "levels deep"
  kind := .metrics
  optIn := false
  correctable := false
  aliases := []
  accepted := accepted
  rejected := rejected
  corrections := corrections

/-- The options of the rule. -/
structure Options where
  typeLevel : SeverityLevels := ⟨1, none⟩
  functionLevel : SeverityLevels := ⟨2, none⟩
  /-- Declarations in closures and in the bodies of statements are looked at too. -/
  checkInClosuresAndStatements : Bool := true
  /-- A type directly in a function is never too deep. -/
  alwaysAllowOneTypeInFunctions : Bool := false
  /-- Type aliases are not looked at. -/
  ignoreTypealiases : Bool := false
  deriving DecidableEq, Inhabited

/-- Reads the options. -/
def Options.reader : OptionReader Options := do
  let typeLevel ← OptionReader.levels "type_level" ⟨1, none⟩
  let functionLevel ← OptionReader.levels "function_level" ⟨2, none⟩
  let inClosures ← OptionReader.boolean "check_nesting_in_closures_and_statements" true
  let oneType ← OptionReader.boolean "always_allow_one_type_in_functions" false
  let ignoreAliases ← OptionReader.boolean "ignore_typealiases_and_associatedtypes" false
  return ⟨typeLevel, functionLevel, inClosures, oneType, ignoreAliases⟩

/-- What is counted. -/
inductive Level where
  | type
  | function
  deriving DecidableEq, Inhabited

/-- The level that a declaration opens. -/
def Level.ofKind? (k : SyntaxKind) : Option Level :=
  if k == .functionDecl then some .function else if k.isTypeDecl then some .type else none

/-- The plural for what is counted. -/
def Level.plural : Level → String
  | type => "Types"
  | function => "Functions"

/-- The limits for what is counted. -/
def Options.limits (o : Options) : Level → SeverityLevels
  | .type => o.typeLevel
  | .function => o.functionLevel

/-- The statements that have bodies. -/
def statements : List SyntaxKind :=
  [.ifExpr, .guardStmt, .whileStmt, .repeatStmt, .forInStmt, .doStmt, .switchExpr, .deferStmt]

/-- The keywords that introduce what is counted. -/
def keywords : List SyntaxKind :=
  [.classKw, .structKw, .enumKw, .protocolKw, .extensionKw, .funcKw, .typealiasKw]

/-- Where a declaration is reported: at its keyword. -/
def position (decl : Cursor) : Nat :=
  match decl.children.find? fun c => keywords.contains c.kind with
  | some keyword => keyword.position
  | none => decl.position

/-- What is said about a declaration that is nested too deep. -/
def message (level : Level) (limit : Nat) : String :=
  let plural := level.plural
  let ending := if limit > 1 then "s" else ""
  s!"{plural} should be nested at most {limit} level{ending} deep"

/-- The violation of a declaration with `depth` others of its level around it; `inFunction` says
whether the nearest declaration around it is a function. -/
def violation? (o : Options) (level : Level) (depth : Nat) (inFunction : Bool) (decl : Cursor) :
    Option Violation :=
  if o.alwaysAllowOneTypeInFunctions && inFunction && level == .type then none
  else
    ((o.limits level).exceededBy depth).map fun (severity, limit) =>
      ⟨position decl, some (message level limit), some severity⟩

/-- The declarations that are open, the innermost first, and the violations so far. -/
structure State where
  stack : List Level
  found : List Violation

/-- Looks at a declaration and opens it. -/
def State.open (o : Options) (level : Level) (decl : Cursor) (s : State) : State :=
  let inFunction := s.stack.head? == some .function
  ⟨level :: s.stack,
    s.found ++ (violation? o level (s.stack.count level) inFunction decl).toList⟩

/-- Closes the innermost declaration. -/
def State.close (s : State) : State := ⟨s.stack.tail, s.found⟩

/-- Whether what is below a node that opens no level is looked at. -/
def isVisited (o : Options) (c : Cursor) : Bool :=
  o.checkInClosuresAndStatements ||
    !(c.kind == .closureExpr || (c.kind == .codeBlockItem && c.hasAncestor statements))

/-- Collects the declarations that are nested too deep. -/
def visitor (o : Options) : Visitor State where
  enter c s :=
    match Level.ofKind? c.kind with
    | some level => (true, s.open o level c)
    | none => (isVisited o c, s)
  leave c s :=
    match Level.ofKind? c.kind with
    | some _ => s.close
    | none =>
      if c.kind == .typeAliasDecl && !o.ignoreTypealiases then (s.open o .type c).close else s
  token _ s := s

/-- The rule with its options. -/
def rule (o : Options) : Rule where
  description := description
  severity := .warning
  find ctx := .ok ((visitor o).walk ctx.root ⟨[], []⟩).found

/-- The rule before it is configured. -/
def entry : RuleEntry :=
  ⟨description, fun v => (Options.reader.configure description.identifier {} v).map rule⟩

end Nesting

end SwiftTidy
