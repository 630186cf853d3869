import SwiftTidy.Lint.Registry
import SwiftTidy.Rules.SuperfluousDisableCommand

/-!
# The linter

Runs rules over a source and reports what they find, or corrects the source again and again until
no rule has anything left to correct.  A rule that gives up stops neither the others nor the run.
-/

namespace SwiftTidy

/-- Rules that are run together. -/
structure Linter where
  rules : List Rule
  /-- The names that directives may use. -/
  known : List String
  /-- How often a source is corrected at most. -/
  maxPasses : Nat
  /-- Whether a module is needed; `none` when that is not known. -/
  isModuleUsed : String → Option Bool := fun _ => none

/-- A corrected source. -/
structure CorrectionOutcome where
  source : String
  corrections : List Correction
  /-- The number of passes that were made. -/
  passes : Nat
  /-- Whether the last pass found nothing to correct. -/
  converged : Bool
  deriving DecidableEq, Inhabited

/-- Whether something was corrected. -/
def CorrectionOutcome.isChanged (o : CorrectionOutcome) : Bool := !o.corrections.isEmpty

namespace Linter

/-- A linter that knows no other rules than its own. -/
def ofRules (rules : List Rule) : Linter where
  rules := rules
  known := rules.flatMap (·.description.identifiers)
  maxPasses := Settings.defaultMaxPasses

/-- The linter with another limit for the number of passes, which is at least one. -/
def withMaxPasses (l : Linter) (n : Nat) : Linter := { l with maxPasses := max n 1 }

/-- The linter that knows the rules of a registry. -/
def withKnown (l : Linter) (r : Registry) : Linter := { l with known := r.names }

/-- The linter of some settings. -/
def ofSettings (r : Registry) (s : Settings) : Except ConfigError Linter := do
  let rules ← r.activeRules s
  return ((ofRules rules).withKnown r).withMaxPasses s.maxPasses

/-- What the rules see of a source. -/
def context (l : Linter) (u : SourceUnit) : Context := ⟨u, l.isModuleUsed⟩

/-- Whether a rule is the one about directives without effect. -/
def isSuperfluousRule (r : Rule) : Bool :=
  r.identifier == SuperfluousDisableCommand.description.identifier

/-- The violations that a rule finds; none when it gives up. -/
def violations (l : Linter) (u : SourceUnit) (r : Rule) : List Violation :=
  match r.validate (l.context u) with
  | .ok vs => vs
  | .error _ => []

/-- The diagnostics of a rule: its violations where it is not disabled. -/
def diagnostics (u : SourceUnit) (r : Rule) (vs : List Violation) : List Diagnostic :=
  let disabled := u.disabledRegions r.description
  (vs.filter (!disabled.isSuppressed ·.position)).map
    (Diagnostic.ofViolation r.identifier r.severity r.description.summary)

/-- The violations of all rules but the one about directives without effect. -/
def results (l : Linter) (u : SourceUnit) : List (Rule × List Violation) :=
  (l.rules.filter (!isSuperfluousRule ·)).map fun r => (r, l.violations u r)

/-- The diagnostics of a source.  Directives without effect are found last, from what the other
rules found. -/
def analyze (l : Linter) (u : SourceUnit) : List Diagnostic :=
  let results := l.results u
  let plain := results.flatMap fun (r, vs) => diagnostics u r vs
  let superfluous :=
    match l.rules.find? isSuperfluousRule with
    | none => []
    | some r => diagnostics u r (SuperfluousDisableCommand.find u results l.known)
  Diagnostic.sort (plain ++ superfluous)

/-! ### Corrections -/

/-- A source during its correction. -/
structure Progress where
  unit : SourceUnit
  corrections : List Correction

/-- Lets a rule correct a source once.  Nothing changes when the rule has nothing to correct, gives
up, or would leave a source that does not parse. -/
def step (l : Linter) (p : Progress) (r : Rule) : Progress :=
  match r.fix? (l.context p.unit) with
  | some (.ok outcome) =>
    if outcome.isUnchanged then p
    else
      match SourceUnit.ofText outcome.tree.fullText with
      | .ok next => ⟨next, p.corrections ++ outcome.corrections.map (⟨·, r.identifier⟩)⟩
      | .error _ => p
  | _ => p

/-- The rules that correct. -/
def correctable (l : Linter) : List Rule := l.rules.filter (·.description.correctable)

/-- Lets every rule correct a source once. -/
def pass (l : Linter) (p : Progress) : Progress := l.correctable.foldl l.step p

/-- Corrects a source until nothing is left to correct, in at most `left` more passes behind
`made` ones. -/
def correctFrom (l : Linter) : (left made : Nat) → Progress → CorrectionOutcome
  | 0, made, p => ⟨p.unit.source, p.corrections, made, false⟩
  | left + 1, made, p =>
    let q := l.pass p
    if q.corrections.length = p.corrections.length then
      ⟨q.unit.source, q.corrections, made + 1, true⟩
    else l.correctFrom left (made + 1) q

/-- Corrects a source. -/
def correct (l : Linter) (source : String) : Except ParseError CorrectionOutcome :=
  (SourceUnit.ofText source).map fun u => l.correctFrom l.maxPasses 0 ⟨u, []⟩

end Linter

end SwiftTidy
