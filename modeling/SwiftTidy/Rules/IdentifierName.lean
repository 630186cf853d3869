import SwiftTidy.Lint.Rule
import SwiftTidy.Text.CharClass.LetterCase
import SwiftTidy.Text.CharClass.Numeric
import SwiftTidy.Text.Words
import SwiftTidy.Tree.Walk

/-!
# Names of variables, functions and enumeration cases
-/

namespace SwiftTidy

namespace IdentifierName

/-! ### Examples -/

/-- Code that the rule accepts. -/
def accepted : List Example :=
  [⟨"let myLet = 0\n", none⟩,
   ⟨"var myVar = 0\n", none⟩,
   ⟨"private let _myLet = 0\n", none⟩,
   ⟨"class Abc \x7b\n    static let MyLet = 0\n\x7d\n", none⟩,
   ⟨"let URL: URL? = nil\n", none⟩,
   ⟨"let XMLString: String? = nil\n", none⟩,
   ⟨"let id = 0\n", none⟩,
   ⟨"enum Foo \x7b\n    case myEnum\n\x7d\n", none⟩,
   ⟨"func isOperator(name: String) -> Bool \x7b\x7d\n", none⟩,
   ⟨"func ==(lhs: Foo, rhs: Foo) -> Bool \x7b\x7d\n", none⟩,
   ⟨"override func IsOperator(name: String) -> Bool \x7b\x7d\n", none⟩,
   ⟨"let (abc, def) = pair\n", none⟩,
   ⟨"let handler = \x7b abc, def in \x7d\n", none⟩,
   ⟨"let `default` = 0\n", none⟩,
   ⟨"let __x = 0\n", some "\x7b allowed_symbols = [\"_\"], min_length = 1 \x7d"⟩,
   ⟨"let Abc = 0\n", some "\x7b validates_start_with_lowercase = false \x7d"⟩]

/-- Code that the rule reports; an arrow stands in front of every violation. -/
def rejected : List Example :=
  [⟨"let ↓MyLet = 0\n", none⟩,
   ⟨"let ↓_myLet = 0\n", none⟩,
   ⟨"private let ↓_i = 0\n", none⟩,
   ⟨"let ↓myExtremelyVeryVeryVeryVeryVeryLongLetName = 0\n", none⟩,
   ⟨"var ↓x = 0\n", none⟩,
   ⟨"enum Foo \x7b\n    case ↓MyEnum\n\x7d\n", none⟩,
   ⟨"func ↓IsOperator(name: String) -> Bool \x7b\x7d\n", none⟩,
   ⟨"func run(with ↓a: Int) \x7b\x7d\n", none⟩,
   ⟨"let (↓Abc, def) = pair\n", none⟩,
   ⟨"let handler = \x7b (↓Abc: Int) in \x7d\n", none⟩,
   ⟨"if let ↓Abc = optional \x7b\x7d\n", none⟩,
   ⟨"for ↓X in items \x7b\x7d\n", none⟩]

/-- Code that the rule corrects, with the corrected code. -/
def corrections : List (Example × String) := []

/-! ### The rule -/

/-- What the rule is. -/
def description : RuleDescription where
  identifier := "identifier_name"
  name := "Identifier Name"
  summary :=
    "Identifier names should only contain alphanumeric characters and start with a lowercase " ++
    "character or should only contain capital letters. Variable names may start with a " ++
    "capital letter when they are declared as static. Variable names should not be too long " ++
    "or too short"
  kind := .style
  optIn := false
  correctable := false
  aliases := ["variable_name"]
  accepted := accepted
  rejected := rejected
  corrections := corrections

/-- What operators start with. -/
def standardOperators : List String :=
  ["!", "%", "&", "*", "+", "-", ".", "/", "<", "=", ">", "?", "^", "|", "~"]

/-- The options of the rule. -/
structure Options where
  minLength : SeverityLevels := ⟨3, some 2⟩
  maxLength : SeverityLevels := ⟨40, some 60⟩
  /-- Names that are always allowed. -/
  excluded : List String := ["id"]
  /-- Characters that are allowed beyond letters and digits. -/
  allowedSymbols : List String := []
  unallowedSymbolsSeverity : Severity := .error
  /-- How serious a capital letter at the start is, if it is a violation at all. -/
  startsWithLowercase : Option Severity := some .error
  /-- What operators start with. -/
  operators : List String := standardOperators
  deriving DecidableEq, Inhabited

/-- Reads the options. -/
def Options.reader : OptionReader Options := do
  let minLength ← OptionReader.levels "min_length" ⟨3, some 2⟩
  let maxLength ← OptionReader.levels "max_length" ⟨40, some 60⟩
  let excluded ← OptionReader.strings "excluded" ["id"]
  let allowedSymbols ← OptionReader.strings "allowed_symbols" []
  let unallowed ← OptionReader.severity "unallowed_symbols_severity" .error
  let lowercase ← OptionReader.optionalSeverity "validates_start_with_lowercase" (some .error)
  let operators ← OptionReader.strings "additional_operators" standardOperators
  return ⟨minLength, maxLength, excluded, allowedSymbols, unallowed, lowercase, operators⟩

namespace Options

/-- Whether a name may hold a character. -/
def allows (o : Options) (c : Char) : Bool :=
  CharClass.isAlphanumeric c || o.allowedSymbols.any fun s => s.toList.contains c

/-- Whether a name starts like an operator. -/
def isOperator (o : Options) (name : String) : Bool :=
  o.operators.any fun p => p.toList.isPrefixOf name.toList

/-- How serious the length of a name is. -/
def lengthSeverity? (o : Options) (length : Nat) : Option Severity :=
  ((o.minLength.undercutBy length).or (o.maxLength.exceededBy length)).map (·.1)

end Options

/-- What a name stands for. -/
inductive Role where
  /-- A function, with its name and labels as they are reported. -/
  | function (resolved : String)
  | enumElement
  | binding (isStatic : Bool)
  deriving DecidableEq, Inhabited

namespace Role

/-- A name and what it stands for, as they are reported. -/
def describe (r : Role) (name : String) : String :=
  match r with
  | function resolved => s!"Function name '{resolved}'"
  | enumElement => s!"Enum element name '{name}'"
  | binding _ => s!"Variable name '{name}'"

/-- Whether it is a function. -/
def isFunction : Role → Bool
  | function _ => true
  | _ => false

end Role

/-- Whether a name starts with a capital letter in front of a small one or of nothing. -/
def startsCapitalized : List Char → Bool
  | [] => false
  | [c] => CharClass.isUppercase c
  | c :: d :: _ => CharClass.isUppercase c && CharClass.isLowercase d

/-- What is wrong with the characters or the length of a name. -/
def shapeFault? (o : Options) (role : Role) (name : String) : Option (String × Severity) :=
  let subject := role.describe name
  if role.isFunction then none
  else if !name.toList.all o.allows then
    some (s!"{subject} should only contain alphanumeric and other allowed characters",
      o.unallowedSymbolsSeverity)
  else
    let least := o.minLength.warning
    let most := o.maxLength.warning
    (o.lengthSeverity? name.length).map fun severity =>
      (s!"{subject} should be between {least} and {most} characters long", severity)

/-- What is wrong with the first letter of a name. -/
def caseFault? (o : Options) (role : Role) (name : String) : Option (String × Severity) :=
  let subject := role.describe name
  let firstIsAllowed := o.allowedSymbols.any fun s => s.toList == name.toList.take 1
  if firstIsAllowed || role == .binding true || !startsCapitalized name.toList ||
      o.isOperator name then none
  else
    o.startsWithLowercase.map fun severity =>
      (s!"{subject} should start with a lowercase character", severity)

/-- What is wrong with a name. -/
def fault? (o : Options) (role : Role) (name : String) : Option (String × Severity) :=
  if name == "" || name == "_" || o.excluded.contains name then none
  else (shapeFault? o role name).or (caseFault? o role name)

/-! ### Finding names -/

/-- The modifiers of a declaration. -/
def modifiers (decl : Cursor) : List String :=
  ((decl.childrenOfKind .declModifier).filterMap (·.firstToken?)).map (·.text)

/-- Whether a declaration has one of some modifiers. -/
def hasModifier (decl : Cursor) (words : List String) : Bool :=
  (modifiers decl).any words.contains

/-- The text without a character at the front. -/
def dropFirst (c : Char) (s : String) : String :=
  match s.toList with
  | d :: cs => if d == c then String.ofList cs else s
  | [] => s

/-- A name without the backticks around it. -/
def bareName (s : String) : String := Words.trimMatching (· == '\x60') s

/-- A name as it is looked at: private ones may start with an underscore. -/
def lookedAt (decl : Option Cursor) (s : String) : String :=
  let name := bareName s
  if decl.any (hasModifier · ["private", "fileprivate"]) then dropFirst '_' name else name

/-- The violation of a name at a token. -/
def violation? (o : Options) (role : Role) (name : String) (token : Cursor) : Option Violation :=
  (fault? o role name).map fun (reason, severity) =>
    ⟨token.position, some reason, some severity⟩

/-- The violation of the name of a function. -/
def checkFunction (o : Options) (decl : Cursor) : Option Violation := do
  if hasModifier decl ["override"] then none
  else
    let behind := (decl.children.dropWhile (·.kind != .funcKw)).drop 1
    let token ← behind.head?.filter (·.kind == .identifier)
    let parameters :=
      ((decl.childOfKind? .functionSignature).bind (·.childOfKind? .parameterClause)).toList.flatMap
        (·.childrenOfKind .parameter)
    let labels := (parameters.filterMap fun p => p.children.find? (·.isToken)).map (·.text ++ ":")
    let name := lookedAt (some decl) token.text
    violation? o (.function (name ++ "(" ++ String.join labels ++ ")")) name token

/-- The violation of the name of a variable, which `decl` declares. -/
def checkVariable (o : Options) (token : Cursor) (text : String) (decl : Option Cursor) :
    Option Violation :=
  if decl.any (hasModifier · ["override"]) then none
  else
    let isStatic := decl.any (hasModifier · ["static", "class"])
    violation? o (.binding isStatic) (lookedAt decl text) token

/-- The declaration of variables that a pattern belongs to. -/
def variableDecl? (pattern : Cursor) : Option Cursor := do
  let binding ← pattern.ancestors.find? fun c =>
    !(c.kind == .tuplePatternElement || c.kind == .tuplePattern)
  if binding.kind == .patternBinding then binding.parent?.filter (·.kind == .variableDecl)
  else none

/-- The names of the parameters of a closure, among the tokens of its signature: `prev` is the
kind of the token in front, and `depth` the number of open brackets. -/
def closureParametersFrom : (prev : Option SyntaxKind) → (depth : Nat) → List Cursor → List Cursor
  | _, _, [] => []
  | prev, depth, c :: cs =>
    match c.kind with
    | .leftParen | .leftBracket => closureParametersFrom (some c.kind) (depth + 1) cs
    | .rightParen | .rightBracket => closureParametersFrom (some c.kind) (depth - 1) cs
    | .arrow | .inKw => []
    | .identifier =>
      let starts :=
        prev.all (· == .comma) || (depth == 1 && prev == some .leftParen)
      let here : List Cursor :=
        if !starts then []
        else
          match depth, cs.head? with
          | 0, some next => if [.comma, .inKw].contains next.kind then [c] else []
          | 1, some next =>
            if [.colon, .comma, .rightParen].contains next.kind then [c]
            else if next.kind == .identifier then [next]
            else []
          | _, _ => []
      here ++ closureParametersFrom (some c.kind) depth cs
    | _ => closureParametersFrom (some c.kind) depth cs

/-- The names of the parameters of a closure. -/
def closureParameters (signature : Cursor) : List Cursor :=
  closureParametersFrom none 0 (signature.children.filter (·.isToken))

/-- The violations of the names that a node introduces. -/
def check (o : Options) (c : Cursor) : List Violation :=
  match c.kind with
  | .functionDecl => (checkFunction o c).toList
  | .parameter =>
    let names := (c.children.takeWhile (·.kind != .colon)).filter (·.isToken)
    (names.getLast?.bind fun name => checkVariable o name name.text none).toList
  | .identifierPattern =>
    ((c.child? 0).bind fun name => checkVariable o name name.text (variableDecl? c)).toList
  | .closureSignature =>
    (closureParameters c).filterMap fun name =>
      checkVariable o name (dropFirst '$' name.text) none
  | .enumCaseElement =>
    ((c.child? 0).bind fun name => violation? o .enumElement (bareName name.text) name).toList
  | _ => []

/-- The rule with its options. -/
def rule (o : Options) : Rule where
  description := description
  severity := .error
  find ctx := .ok (ctx.root.postorder.flatMap (check o))

/-- The rule before it is configured. -/
def entry : RuleEntry :=
  ⟨description, fun v => (Options.reader.configure description.identifier {} v).map rule⟩

end IdentifierName

end SwiftTidy
