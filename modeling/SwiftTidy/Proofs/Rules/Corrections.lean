import SwiftTidy.Proofs.Rules.EmptyLines
import SwiftTidy.Proofs.Rules.Statements
import SwiftTidy.Proofs.Rules.SwitchCases
import SwiftTidy.Proofs.Rules.TokenSpacing
import SwiftTidy.Rules.Builtin

/-!
# What is corrected is what is reported

A rule that corrects does so apart from reporting.  `mem_reported_of_mem_corrections`: in one pass
over a source each rule of this project corrects nothing but what is reported, and the rules about
colons, semicolons and empty lines correct all of it.
-/

namespace SwiftTidy

namespace Registry

variable {source : String} {entry : RuleEntry} {options : Option Toml} {r : Rule}

theorem exists_of_ofSeverity {d : RuleDescription} {make : Severity → Rule}
    (h : (RuleEntry.ofSeverity d make).create options = .ok r) : ∃ severity, r = make severity := by
  obtain ⟨severity, -, rfl⟩ := Except.map_eq_ok.mp h
  exact ⟨severity, rfl⟩

/-- The rules that correct nothing but what they find, and those that correct all of it. -/
theorem corrects_of_mem_builtinEntries (ctx : Context)
    (h : SourceUnit.ofText source = .ok ctx.unit)
    (hentry : entry ∈ builtinEntries) (hcorrectable : entry.description.correctable = true)
    (hcreate : entry.create options = .ok r) :
    Linter.isSuperfluousRule r = false ∧ r.CorrectsOnly ctx ∧
      (entry.identifier ∈ ["colon", "trailing_semicolon", "vertical_whitespace"] →
        r.CorrectsAll ctx) := by
  simp only [builtinEntries, List.mem_cons, List.not_mem_nil, or_false] at hentry
  rcases hentry with rfl | rfl | rfl | rfl | rfl | rfl | rfl | rfl | rfl | rfl | rfl
  · obtain ⟨o, -, rfl⟩ := Except.map_eq_ok.mp hcreate
    exact ⟨rfl, (Colon.rule_correctsAll h o).correctsOnly, fun _ => Colon.rule_correctsAll h o⟩
  · cases hcorrectable
  · cases hcorrectable
  · cases hcorrectable
  · cases hcorrectable
  · obtain ⟨severity, rfl⟩ := exists_of_ofSeverity hcreate
    exact ⟨rfl, ReturnArrowWhitespace.rule_correctsOnly h severity, fun hname => absurd hname (by decide)⟩
  · obtain ⟨severity, rfl⟩ := exists_of_ofSeverity hcreate
    exact ⟨rfl, SortedSwitchCases.rule_correctsOnly h severity, fun hname => absurd hname (by decide)⟩
  · cases hcorrectable
  · obtain ⟨severity, rfl⟩ := exists_of_ofSeverity hcreate
    exact ⟨rfl, (TrailingSemicolon.rule_correctsAll h severity).correctsOnly,
      fun _ => TrailingSemicolon.rule_correctsAll h severity⟩
  · obtain ⟨severity, rfl⟩ := exists_of_ofSeverity hcreate
    exact ⟨rfl, UnusedImport.rule_correctsOnly h severity, fun hname => absurd hname (by decide)⟩
  · obtain ⟨o, -, rfl⟩ := Except.map_eq_ok.mp hcreate
    exact ⟨rfl, (VerticalWhitespace.rule_correctsAll h o).correctsOnly,
      fun _ => VerticalWhitespace.rule_correctsAll h o⟩

end Registry

namespace Linter

variable {source : String} {u : SourceUnit} {entry : RuleEntry} {options : Option Toml} {r : Rule}
  {l : Linter}

/-- **Corrections and reports**: in one pass over a source a rule of this project that can correct,
however it is configured, corrects nothing but what is reported of it; the rules about colons,
semicolons and empty lines correct all that is reported of them. -/
theorem mem_reported_of_mem_corrections (h : SourceUnit.ofText source = .ok u)
    (hentry : entry ∈ Registry.builtinEntries)
    (hcorrectable : entry.description.correctable = true)
    (hcreate : entry.create options = .ok r)
    (hl : l.rules.filter (·.identifier == r.identifier) = [r]) :
    ∃ outcome, r.fix? (l.context u) = some (.ok outcome) ∧
      (∀ p ∈ outcome.corrections, p ∈ l.reported u r) ∧
      (entry.identifier ∈ ["colon", "trailing_semicolon", "vertical_whitespace"] →
        outcome.corrections = l.reported u r) := by
  obtain ⟨hplain, hfixes, hexact⟩ :=
    Registry.corrects_of_mem_builtinEntries (l.context u) h hentry hcorrectable hcreate
  obtain ⟨vs, outcome, hfind, hfix, hmem⟩ := hfixes
  have hreported := reported_eq hl hplain hfind
  refine ⟨outcome, hfix, fun p hp => ?_, fun hname => ?_⟩
  · rw [hreported, List.mem_mergeSort]
    exact hmem p hp
  · obtain ⟨vs', outcome', hfind', hfix', hall⟩ := hexact hname
    rw [hfind] at hfind'
    rw [hfix] at hfix'
    cases hfind'
    cases hfix'
    rw [hreported, hall]
    rfl

/-- A source with three semicolons at the end of a line, the second where the rule is disabled. -/
def semicolons : String := "a;\n//swiftlint:disable:next trailing_semicolon\nb;\nc;\n"

/-- Two of the semicolons are dropped, and these are the two that are reported. -/
theorem mem_reported_of_mem_corrections_semicolons : ∃ u outcome,
    SourceUnit.ofText semicolons = .ok u ∧
    (TrailingSemicolon.rule .warning).fix?
      ((ofRules [TrailingSemicolon.rule .warning]).context u) = some (.ok outcome) ∧
    outcome.corrections = [1, 51] ∧
    (ofRules [TrailingSemicolon.rule .warning]).reported u (TrailingSemicolon.rule .warning) =
      [1, 51] := by
  have hmap : (SourceUnit.ofText semicolons).toOption.map (fun u =>
      ((u.root.postorder.filterMap TrailingSemicolon.semicolon?).map (·.position)).filter
        (!((Regions.ofCommands (Command.expandAll u.commands u.lineIndex)).disabledRegions
          TrailingSemicolon.description.identifiers).isSuppressed ·)) = some [1, 51] := by
    simp only [Command.expandAll_eq_insertionSort]
    decide +kernel
  obtain ⟨u, hu, hfound⟩ := Option.map_eq_some_iff.mp hmap
  have h : SourceUnit.ofText semicolons = .ok u := Except.toOption_eq_some.mp hu
  rw [← (SourceUnit.regions_eq h).2] at hfound
  have hreported : (ofRules [TrailingSemicolon.rule .warning]).reported u
      (TrailingSemicolon.rule .warning) = [1, 51] := by
    rw [reported_eq rfl rfl rfl, Rule.unsuppressed, List.map_map]
    refine (congrArg (List.mergeSort · (· ≤ ·)) hfound).trans ?_
    exact List.mergeSort_of_pairwise (by decide)
  have hcreate : TrailingSemicolon.entry.create none = .ok (TrailingSemicolon.rule .warning) := rfl
  have hentry : TrailingSemicolon.entry ∈ Registry.builtinEntries := by
    simp [Registry.builtinEntries]
  obtain ⟨outcome, hfix, -, hall⟩ :=
    mem_reported_of_mem_corrections (l := ofRules [TrailingSemicolon.rule .warning]) h hentry rfl
      hcreate rfl
  exact ⟨u, outcome, h, hfix, (hall (by decide)).trans hreported, hreported⟩

end Linter

end SwiftTidy
