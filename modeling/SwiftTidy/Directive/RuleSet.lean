/-!
# Sets of rules named by directives

A directive names rules one by one, or all of them with the wildcard `all`.  A set keeps the
wildcard apart from the names, and the names in increasing order without repetition, so that
equal sets are equal values.
-/

namespace SwiftTidy

/-- A rule as a directive names it. -/
inductive RuleName where
  /-- The wildcard `all`. -/
  | all
  | named (name : String)
  deriving DecidableEq, Inhabited

namespace RuleName

/-- Reads a name; `all` is the wildcard. -/
def ofString (s : String) : RuleName := if s == "all" then all else named s

/-- The written form of a name. -/
def toString : RuleName → String
  | all => "all"
  | named n => n

end RuleName

/-- A set of rules, possibly with the wildcard. -/
structure RuleSet where
  all : Bool
  names : List String
  deriving DecidableEq, Inhabited

namespace RuleSet

/-- The set without any rule. -/
def empty : RuleSet := ⟨false, []⟩

/-- Inserts a name into an increasing list of names. -/
def insertName (n : String) : List String → List String
  | [] => [n]
  | m :: ms => if n < m then n :: m :: ms else if m < n then m :: insertName n ms else m :: ms

/-- The set with one more rule. -/
def insert (s : RuleSet) : RuleName → RuleSet
  | .all => { s with all := true }
  | .named n => { s with names := insertName n s.names }

/-- The set of the rules in a list. -/
def ofList (xs : List RuleName) : RuleSet := xs.foldl insert empty

/-- The rules of a set, the wildcard first. -/
def toList (s : RuleSet) : List RuleName :=
  (if s.all then [.all] else []) ++ s.names.map .named

/-- Whether the set names no rule. -/
def isEmpty (s : RuleSet) : Bool := !s.all && s.names.isEmpty

/-- Whether the set covers a rule that is known under the given identifiers. -/
def covers (s : RuleSet) (ids : List String) : Bool :=
  s.all || s.names.any ids.contains

/-- The rules of both sets. -/
def union (s t : RuleSet) : RuleSet :=
  ⟨s.all || t.all, t.names.foldl (fun ns n => insertName n ns) s.names⟩

/-- The rules of `s` that are not in `t`, the wildcard taken literally. -/
def difference (s t : RuleSet) : RuleSet :=
  ⟨s.all && !t.all, s.names.filter (!t.names.contains ·)⟩

/-- The rules of `s` without those of `t`; taking the wildcard away clears the set. -/
def subtract (s t : RuleSet) : RuleSet := if t.all then empty else s.difference t

end RuleSet

end SwiftTidy
