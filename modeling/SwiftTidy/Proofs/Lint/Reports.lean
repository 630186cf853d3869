import Mathlib.Data.List.Sort
import Mathlib.Data.String.Basic
import SwiftTidy.Lint.Linter
import SwiftTidy.Proofs.Directive.LineScope
import SwiftTidy.Proofs.Parse.Productions

/-!
# What is reported of one rule

The diagnostics of a source are those of all rules, by position.  Of a rule that is run once they
are the violations that it finds where it is not disabled, in increasing order (`reported_eq`).
-/

namespace SwiftTidy

/-! ### The order of diagnostics -/

namespace Diagnostic

theorem before_iff {a b : Diagnostic} : a.before b = true ↔
    a.position < b.position ∨ a.position = b.position ∧ a.rule ≤ b.rule := by
  simp [before]

theorem before_trans (a b c : Diagnostic) (hab : a.before b = true) (hbc : b.before c = true) :
    a.before c = true := by
  rw [before_iff] at hab hbc ⊢
  rcases hab with hab | ⟨hab, hrule⟩
  · exact .inl (by omega)
  · rcases hbc with hbc | ⟨hbc, hrule'⟩
    · exact .inl (by omega)
    · exact .inr ⟨by omega, le_trans hrule hrule'⟩

theorem before_total (a b : Diagnostic) : (a.before b || b.before a) = true := by
  rw [Bool.or_eq_true, before_iff, before_iff]
  rcases Nat.lt_trichotomy a.position b.position with h | h | h
  · exact .inl (.inl h)
  · exact (le_total a.rule b.rule).imp (fun hrule => .inr ⟨h, hrule⟩) fun hrule => .inr ⟨h.symm, hrule⟩
  · exact .inr (.inl h)

/-- Diagnostics are reported by position. -/
theorem sort_positions (ds : List Diagnostic) :
    (Diagnostic.sort ds).Pairwise fun a b => a.position ≤ b.position := by
  refine (List.pairwise_mergeSort before_trans before_total ds).imp fun h => ?_
  rw [before_iff] at h
  omega

end Diagnostic

namespace Violation

theorem sort_perm (vs : List Violation) : (Violation.sort vs).Perm vs := List.mergeSort_perm ..

/-- Violations are found by position. -/
theorem sort_positions (vs : List Violation) :
    (Violation.sort vs).Pairwise fun v w => v.position ≤ w.position := by
  refine (List.pairwise_mergeSort (fun u v w huv hvw => ?_) (fun v w => ?_) vs).imp of_decide_eq_true
  · rw [decide_eq_true_eq] at huv hvw ⊢
    omega
  · rw [Bool.or_eq_true, decide_eq_true_eq, decide_eq_true_eq]
    omega

end Violation

/-- Numbers in increasing order are what sorting makes of them, however they were ordered. -/
theorem eq_mergeSort_of_perm {xs ys : List Nat} (hsorted : xs.Pairwise (· ≤ ·)) (h : xs.Perm ys) :
    xs = ys.mergeSort (· ≤ ·) := by
  have hys : (ys.mergeSort (· ≤ ·)).Pairwise (· ≤ ·) := List.pairwise_mergeSort' (· ≤ ·) ys
  exact (h.trans (List.mergeSort_perm ys _).symm).eq_of_pairwise' hsorted hys

/-! ### Parsed sources -/

namespace SourceUnit

variable {source : String} {u : SourceUnit}

theorem parse_of_ofText (h : ofText source = .ok u) : parse source = .ok u.tree := by
  obtain ⟨tree, htree, rfl⟩ := Except.map_eq_ok.mp h
  exact htree

/-- The lines of a parsed source are those of the text that was read. -/
theorem lineIndex_eq (h : ofText source = .ok u) : u.lineIndex = .ofText source := by
  obtain ⟨tree, htree, rfl⟩ := Except.map_eq_ok.mp h
  exact congrArg LineIndex.ofText (fullText_parse htree)

theorem disabledRegions_isSeparated (h : ofText source = .ok u) (d : RuleDescription) :
    (u.disabledRegions d).IsSeparated := by
  rw [disabledRegions, (regions_eq h).2]
  exact Regions.disabledRegions_isSeparated (Command.expandAll_sorted ..) d.identifiers

end SourceUnit

/-! ### What a rule corrects -/

namespace Rule

/-- The positions of the violations where a rule is not disabled. -/
def unsuppressed (r : Rule) (u : SourceUnit) (vs : List Violation) : List Nat :=
  (vs.map (·.position)).filter (!(u.disabledRegions r.description).isSuppressed ·)

/-- A rule that answers, and corrects nothing but what it finds where it is not disabled. -/
def CorrectsOnly (r : Rule) (ctx : Context) : Prop :=
  ∃ vs outcome, r.find ctx = .ok vs ∧ r.fix? ctx = some (.ok outcome) ∧
    ∀ p ∈ outcome.corrections, p ∈ r.unsuppressed ctx.unit vs

/-- A rule that answers, and corrects all that it finds where it is not disabled. -/
def CorrectsAll (r : Rule) (ctx : Context) : Prop :=
  ∃ vs outcome, r.find ctx = .ok vs ∧ r.fix? ctx = some (.ok outcome) ∧
    outcome.corrections = (r.unsuppressed ctx.unit vs).mergeSort (· ≤ ·)

/-- A rule that answers, and finds nothing where it is not disabled. -/
def FindsNothing (r : Rule) (ctx : Context) : Prop :=
  ∃ vs, r.find ctx = .ok vs ∧ r.unsuppressed ctx.unit vs = []

theorem CorrectsAll.correctsOnly {r : Rule} {ctx : Context} (h : r.CorrectsAll ctx) :
    r.CorrectsOnly ctx := by
  obtain ⟨vs, outcome, hfind, hfix, hcorrections⟩ := h
  refine ⟨vs, outcome, hfind, hfix, fun p hp => ?_⟩
  rwa [hcorrections, List.mem_mergeSort] at hp

end Rule

/-! ### The diagnostics of one rule -/

namespace Linter

variable {l : Linter} {u : SourceUnit} {r : Rule}

/-- The positions at which a rule is reported, in the order of the report. -/
def reported (l : Linter) (u : SourceUnit) (r : Rule) : List Nat :=
  ((l.analyze u).filter (·.rule == r.identifier)).map (·.position)

theorem filter_diagnostics (u : SourceUnit) (r : Rule) (vs : List Violation) (name : String) :
    (diagnostics u r vs).filter (·.rule == name) =
      if r.identifier == name then diagnostics u r vs else [] := by
  rw [diagnostics]
  split_ifs with hname
  · exact List.filter_eq_self.mpr (List.forall_mem_map.mpr fun _ _ => hname)
  · exact List.filter_eq_nil_iff.mpr (List.forall_mem_map.mpr fun _ _ => hname)

theorem map_position_diagnostics (u : SourceUnit) (r : Rule) (vs : List Violation) :
    (diagnostics u r vs).map (·.position) = r.unsuppressed u vs := by
  rw [diagnostics, Rule.unsuppressed, List.map_map, List.filter_map]
  rfl

/-- Of what several rules found only what the rules of a name found is reported under it. -/
theorem filter_flatMap_diagnostics (rs : List Rule) (name : String) :
    ((rs.map fun r => (r, l.violations u r)).flatMap fun (r, vs) => diagnostics u r vs).filter
        (·.rule == name) =
      (rs.filter (·.identifier == name)).flatMap fun r => diagnostics u r (l.violations u r) := by
  induction rs with
  | nil => rfl
  | cons s rs ih =>
    rw [List.map_cons, List.flatMap_cons, List.filter_append, ih, filter_diagnostics,
      List.filter_cons]
    split_ifs <;> rfl

/-- Directives without effect are reported under the name of another rule. -/
theorem filter_superfluous (hplain : isSuperfluousRule r = false) :
    List.filter (fun d : Diagnostic => d.rule == r.identifier)
      (match l.rules.find? isSuperfluousRule with
        | none => []
        | some s =>
          diagnostics u s (SuperfluousDisableCommand.find u (l.results u) l.known)) = [] := by
  cases hfind : l.rules.find? isSuperfluousRule with
  | none => rfl
  | some s =>
    have hs := List.find?_some hfind
    have hne : (s.identifier == r.identifier) = false := by
      by_contra heq
      rw [Bool.not_eq_false, beq_iff_eq] at heq
      rw [isSuperfluousRule, heq] at hs
      rw [isSuperfluousRule, hs] at hplain
      cases hplain
    dsimp only
    rw [filter_diagnostics, hne]
    rfl

/-- Of all that is found only what a rule itself found is reported under its name. -/
theorem filter_analyze (hr : l.rules.filter (·.identifier == r.identifier) = [r])
    (hplain : isSuperfluousRule r = false) :
    ((l.analyze u).filter (·.rule == r.identifier)).Perm
      (diagnostics u r (l.violations u r)) := by
  rw [analyze]
  refine ((List.mergeSort_perm _ _).filter _).trans ?_
  rw [List.filter_append, results, filter_flatMap_diagnostics, List.filter_filter,
    List.filter_congr (fun s _ => Bool.and_comm _ _), ← List.filter_filter, hr,
    List.filter_cons_of_pos (by simp [hplain]), List.filter_nil, List.flatMap_singleton]
  exact List.Perm.of_eq ((congrArg _ (filter_superfluous hplain)).trans (List.append_nil _))

/-- **What is reported of a rule** that is run once: the violations that it finds where it is not
disabled, in increasing order. -/
theorem reported_eq {vs : List Violation} (hr : l.rules.filter (·.identifier == r.identifier) = [r])
    (hplain : isSuperfluousRule r = false) (hfind : r.find (l.context u) = .ok vs) :
    l.reported u r = (r.unsuppressed u vs).mergeSort (· ≤ ·) := by
  have hviolations : l.violations u r = Violation.sort vs := by
    rw [violations, Rule.validate, hfind]
    rfl
  refine eq_mergeSort_of_perm ?_ ?_
  · rw [reported, List.pairwise_map]
    exact (Diagnostic.sort_positions _).filter _
  · rw [reported]
    refine ((filter_analyze hr hplain).map _).trans ?_
    rw [map_position_diagnostics, hviolations]
    exact (((List.mergeSort_perm vs _).map _).filter _)

theorem reported_eq_nil_of_findsNothing (hr : l.rules.filter (·.identifier == r.identifier) = [r])
    (hplain : isSuperfluousRule r = false) (h : r.FindsNothing (l.context u)) : l.reported u r = [] := by
  obtain ⟨vs, hfind, hnone⟩ := h
  have hnone : r.unsuppressed u vs = [] := hnone
  rw [reported_eq hr hplain hfind, hnone, List.mergeSort_nil]

end Linter

end SwiftTidy
