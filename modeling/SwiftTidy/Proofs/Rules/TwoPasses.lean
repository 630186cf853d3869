import SwiftTidy.Proofs.Lint.Accepted
import SwiftTidy.Proofs.Rules.KeptColons
import SwiftTidy.Proofs.Rules.KeptLines

/-!
# Correction in two passes

A rule that corrects all that is reported of it is done after the pass that corrects and the pass
that finds nothing left, unless what it corrects brings up something new (`isDoneInTwoPasses_iff`).
The rules about colons and about empty lines bring up nothing new (`correct_in_two_passes`): the text
that the first pass leaves is read into the tree that it made, the rules are disabled at the same places
in it, and what they still find there was left alone before.  For colons this is so of every source.

Dropping an empty line does bring up something new where it moves directives for single lines next to each
other: without the empty line between them, the line that a directive disables starts where the line that
another one enables ends, and a rule that was disabled for the rest of the file is on again
(`not_isDoneInTwoPasses_neighbours`).
-/

namespace SwiftTidy

namespace Linter

variable {source : String} {u v : SourceUnit} {r : Rule} {l : Linter} {cs : List Correction}

/-! ### A rule that corrects what is reported -/

/-- A text that is read, and of which a rule reports nothing. -/
def IsClear (l : Linter) (r : Rule) (text : String) : Prop :=
  ∃ v, SourceUnit.ofText text = .ok v ∧ l.reported v r = []

theorem isClear_iff (h : SourceUnit.ofText source = .ok u) :
    l.IsClear r source ↔ l.reported u r = [] := by
  refine ⟨fun ⟨v, hv, hnone⟩ => ?_, fun hnone => ⟨u, h, hnone⟩⟩
  obtain rfl : v = u := Except.ok.inj (hv.symm.trans h)
  exact hnone

/-- A rule that corrects in one pass all that is reported of it. -/
def CorrectsReported (l : Linter) (r : Rule) : Prop :=
  ∀ source u, SourceUnit.ofText source = .ok u →
    ∃ outcome, r.fix? (l.context u) = some (.ok outcome) ∧ outcome.corrections = l.reported u r

theorem correctsReported_of_correctsAll
    (hr : l.rules.filter (·.identifier == r.identifier) = [r])
    (hplain : isSuperfluousRule r = false)
    (h : ∀ source u, SourceUnit.ofText source = .ok u → r.CorrectsAll (l.context u)) :
    l.CorrectsReported r := by
  intro source u hu
  obtain ⟨vs, outcome, hfind, hfix, hall⟩ := h source u hu
  exact ⟨outcome, hfix, hall.trans (reported_eq hr hplain hfind).symm⟩

/-- A rule of which nothing is reported has nothing to correct. -/
theorem settled_of_reported_eq_nil (hr : l.CorrectsReported r)
    (hu : SourceUnit.ofText source = .ok u) (hnone : l.reported u r = []) : l.Settled u r := by
  obtain ⟨outcome, hfix, hall⟩ := hr source u hu
  intro cs
  have hunchanged : outcome.isUnchanged = true := by
    rw [FixOutcome.isUnchanged, hall, hnone]
    rfl
  unfold step
  dsimp only
  rw [hfix]
  exact if_pos hunchanged

/-- A pass of a rule of which something is reported: it changes nothing when the corrected text is
not read, and goes on with what is read otherwise. -/
theorem step_of_reported_ne_nil {outcome : FixOutcome} (hfix : r.fix? (l.context u) = some (.ok outcome))
    (hall : outcome.corrections = l.reported u r) (hsome : l.reported u r ≠ []) :
    (l.Settled u r ∧ ∀ v, SourceUnit.ofText outcome.tree.fullText ≠ .ok v) ∨
      ∃ v, SourceUnit.ofText outcome.tree.fullText = .ok v ∧
        ∀ cs, l.step ⟨u, cs⟩ r = ⟨v, cs ++ (l.reported u r).map (⟨·, r.identifier⟩)⟩ := by
  have hchanged : ¬ outcome.isUnchanged = true := by
    rw [FixOutcome.isUnchanged, hall]
    simpa using hsome
  unfold Settled step
  dsimp only
  rw [hfix]
  simp only [if_neg hchanged]
  cases hnext : SourceUnit.ofText outcome.tree.fullText with
  | error e => exact .inl ⟨fun _ => rfl, by simp⟩
  | ok next => exact .inr ⟨next, rfl, fun cs => by rw [hall]⟩

/-! ### The number of passes -/

/-- A correction that goes on after `made` passes and converges makes at least one more. -/
theorem lt_passes_of_converged {left made : Nat} {p : Progress}
    (h : (l.correctFrom left made p).converged = true) :
    made < (l.correctFrom left made p).passes := by
  induction left generalizing made p with
  | zero => cases h
  | succ left ih =>
    unfold correctFrom at h ⊢
    dsimp only at h ⊢
    split_ifs at h ⊢
    · exact Nat.lt_succ_self made
    · exact Nat.lt_of_succ_lt (ih h)

theorem correctFrom_of_step {left made : Nat} (hl : l.correctable = [r])
    {added : List Correction} (hadded : added ≠ [])
    (hstep : l.step ⟨u, cs⟩ r = ⟨v, cs ++ added⟩) :
    l.correctFrom (left + 1) made ⟨u, cs⟩ = l.correctFrom left (made + 1) ⟨v, cs ++ added⟩ := by
  have hpass : l.pass ⟨u, cs⟩ = ⟨v, cs ++ added⟩ := by
    rw [pass, hl]
    exact hstep
  have hlength : (cs ++ added).length ≠ cs.length := by
    have := List.length_pos_iff.mpr hadded
    rw [List.length_append]
    omega
  rw [correctFrom, hpass]
  exact if_neg hlength

/-- A correction by one rule that is done after two passes found nothing to correct, or its first
pass left a text of which nothing is reported. -/
theorem correctFrom_in_two_passes_iff (left : Nat) {outcome : FixOutcome} (hl : l.correctable = [r])
    (hr : l.CorrectsReported r) (hu : SourceUnit.ofText source = .ok u)
    (hfix : r.fix? (l.context u) = some (.ok outcome))
    (hall : outcome.corrections = l.reported u r) :
    ((l.correctFrom (left + 2) 0 ⟨u, []⟩).converged = true ∧
        (l.correctFrom (left + 2) 0 ⟨u, []⟩).passes ≤ 2 ∧
        l.IsClear r (l.correctFrom (left + 2) 0 ⟨u, []⟩).source) ↔
      l.reported u r = [] ∨ l.IsClear r outcome.tree.fullText := by
  have hstops : ∀ {v left made cs}, l.Settled v r →
      l.correctFrom (left + 1) made ⟨v, cs⟩ = ⟨v.source, cs, made + 1, true⟩ := fun hv =>
    correctFrom_of_settled (Nat.succ_pos _) (by rwa [hl, List.forall_mem_singleton])
  by_cases hnone : l.reported u r = []
  · rw [hstops (settled_of_reported_eq_nil hr hu hnone)]
    exact iff_of_true ⟨rfl, Nat.le_succ 1, u, SourceUnit.isRead_of_ofText hu, hnone⟩ (.inl hnone)
  rcases step_of_reported_ne_nil hfix hall hnone with ⟨hsettled, hunread⟩ | ⟨v, hv, hstep⟩
  · rw [hstops hsettled, isClear_iff (SourceUnit.isRead_of_ofText hu)]
    exact iff_of_false (fun h => hnone h.2.2)
      (not_or_intro hnone fun ⟨v, hv, _⟩ => hunread v hv)
  obtain ⟨outcome', hfix', hall'⟩ := hr _ v hv
  rw [correctFrom_of_step hl (by simpa using hnone) (hstep []), isClear_iff hv, or_iff_right hnone]
  by_cases hclear : l.reported v r = []
  · rw [hstops (settled_of_reported_eq_nil hr hv hclear)]
    exact iff_of_true ⟨rfl, Nat.le_refl 2, v, SourceUnit.isRead_of_ofText hv, hclear⟩ hclear
  rcases step_of_reported_ne_nil hfix' hall' hclear with ⟨hsettled, -⟩ | ⟨w, -, hstep'⟩
  · rw [hstops hsettled, isClear_iff (SourceUnit.isRead_of_ofText hv)]
    exact iff_of_false (fun h => hclear h.2.2) hclear
  · -- the second pass corrects something too, so there is a third one
    rw [correctFrom_of_step hl (by simpa using hclear) (hstep' _)]
    exact iff_of_false (fun h => Nat.not_lt.mpr h.2.1 (lt_passes_of_converged h.1)) hclear

/-! ### Colons and empty lines -/

/-- A rule that runs alone, in at most `n` passes. -/
def alone (r : Rule) (n : Nat) : Linter := (ofRules [r]).withMaxPasses n

/-- A rule that runs alone is done after at most two passes, and nothing is reported of what they leave. -/
def IsDoneInTwoPasses (r : Rule) (n : Nat) (source : String) : Prop :=
  ∃ out, (alone r n).correct source = .ok out ∧ out.converged = true ∧ out.passes ≤ 2 ∧
    (alone r n).IsClear r out.source

theorem filter_rules_alone (r : Rule) (n : Nat) :
    (alone r n).rules.filter (·.identifier == r.identifier) = [r] := by
  rw [show (alone r n).rules = [r] from rfl]
  simp

/-- A rule that corrects all that is reported of it is done in two passes exactly when nothing is reported
of the source, or of what the first pass makes of it. -/
theorem isDoneInTwoPasses_iff {n : Nat} {outcome : FixOutcome} (h : SourceUnit.ofText source = .ok u)
    (hr : (alone r n).CorrectsReported r) (hcorrectable : (alone r n).correctable = [r]) (hn : 2 ≤ n)
    (hfix : r.fix? ((alone r n).context u) = some (.ok outcome)) :
    IsDoneInTwoPasses r n source ↔
      (alone r n).reported u r = [] ∨ (alone r n).IsClear r outcome.tree.fullText := by
  obtain ⟨outcome', hfix', hall⟩ := hr source u h
  obtain rfl : outcome' = outcome := Except.ok.inj (Option.some.inj (hfix'.symm.trans hfix))
  obtain ⟨left, hleft⟩ : ∃ left, (alone r n).maxPasses = left + 2 := ⟨n - 2, by
    rw [alone, withMaxPasses]
    dsimp only
    omega⟩
  have hcorrect : (alone r n).correct source = .ok ((alone r n).correctFrom (left + 2) 0 ⟨u, []⟩) := by
    rw [correct, h, hleft]
    rfl
  rw [IsDoneInTwoPasses, hcorrect, ← correctFrom_in_two_passes_iff left hcorrectable hr h hfix hall]
  simp

/-- A rule that finds nothing where it is not disabled in what its first pass leaves is done. -/
theorem isDoneInTwoPasses_of_findsNothing {n : Nat} {outcome : FixOutcome}
    (h : SourceUnit.ofText source = .ok u) (hr : (alone r n).CorrectsReported r)
    (hcorrectable : (alone r n).correctable = [r]) (hplain : isSuperfluousRule r = false) (hn : 2 ≤ n)
    (hfix : r.fix? ((alone r n).context u) = some (.ok outcome))
    (hv : SourceUnit.ofText outcome.tree.fullText = .ok v)
    (hnone : ∀ ctx : Context, ctx.unit = v → r.FindsNothing ctx) : IsDoneInTwoPasses r n source :=
  (isDoneInTwoPasses_iff h hr hcorrectable hn hfix).mpr <| .inr
    ⟨v, hv, reported_eq_nil_of_findsNothing (filter_rules_alone r n) hplain (hnone _ rfl)⟩

theorem correctsReported_colon (o : Colon.Options) (n : Nat) :
    (alone (Colon.rule o) n).CorrectsReported (Colon.rule o) :=
  correctsReported_of_correctsAll (filter_rules_alone _ n) rfl fun _ _ hu => Colon.rule_correctsAll hu o

theorem correctsReported_verticalWhitespace (o : VerticalWhitespace.Options) (n : Nat) :
    (alone (VerticalWhitespace.rule o) n).CorrectsReported (VerticalWhitespace.rule o) :=
  correctsReported_of_correctsAll (filter_rules_alone _ n) rfl fun _ _ hu =>
    VerticalWhitespace.rule_correctsAll hu o

/-- **Two passes suffice** for the rules about colons and about empty lines, however they are configured.
The text that the first pass leaves is read into the tree that it made, directives disable the rules at the
same places as before, and nothing is found where they do not.  Exceptions are empty lines that are dropped
where a directive is for the line, or between a lone CR and a lone LF. -/
theorem correct_in_two_passes {n : Nat} (h : SourceUnit.ofText source = .ok u)
    (hlen : source.utf8ByteSize < 2 ^ 31) (hn : 2 ≤ n) :
    (∀ o : Colon.Options, IsDoneInTwoPasses (Colon.rule o) n source) ∧
    ∀ o : VerticalWhitespace.Options,
      VerticalWhitespace.SparesTargets o.maxEmptyLines (u.disabledRegions VerticalWhitespace.description) u →
        IsDoneInTwoPasses (VerticalWhitespace.rule o) n source := by
  constructor
  · intro o
    obtain ⟨outcome, v, hfix, hv, hnone⟩ := Colon.exists_fix?_findsNothing
      ((alone (Colon.rule o) n).context u) h hlen o
    exact isDoneInTwoPasses_of_findsNothing h (correctsReported_colon o n) rfl rfl hn hfix hv hnone
  · intro o hspares
    obtain ⟨outcome, v, hfix, hv, hnone⟩ := VerticalWhitespace.findsNothing_of_sparesTargets
      ((alone (VerticalWhitespace.rule o) n).context u) h o hspares
    exact isDoneInTwoPasses_of_findsNothing h (correctsReported_verticalWhitespace o n) rfl rfl hn hfix hv
      hnone

/-- A vertical tab in front of a colon, which `>` takes for an operand, two empty lines, and a directive for
the next line. -/
def spared : String :=
  "class C<T>\x0b:P \x7b\x7d\n\n\n// swiftlint:disable:next colon\nlet b :Int = 2\n"

/-- Both rules have something to correct in such a source, and no directive is in the way. -/
theorem correct_in_two_passes_spared :
    (∃ u, SourceUnit.ofText spared = .ok u ∧
      VerticalWhitespace.SparesTargets 1 (u.disabledRegions VerticalWhitespace.description) u) ∧
    spared.utf8ByteSize < 2 ^ 31 ∧ 2 ≤ 3 ∧ IsDoneInTwoPasses (Colon.rule {}) 3 spared ∧
      IsDoneInTwoPasses (VerticalWhitespace.rule {}) 3 spared := by
  have htest : (SourceUnit.ofText spared).toOption.map (fun u =>
      let disabled := (Regions.ofCommands (Command.expandAll u.commands u.lineIndex)).disabledRegions
        VerticalWhitespace.description.identifiers
      decide (VerticalWhitespace.SparesTargets 1 disabled u)) = some true := by
    simp only [Command.expandAll_eq_insertionSort]
    decide +kernel
  obtain ⟨u, hu, hspares⟩ := Option.map_eq_some_iff.mp htest
  have h : SourceUnit.ofText spared = .ok u := Except.toOption_eq_some.mp hu
  dsimp only at hspares
  rw [← (SourceUnit.regions_eq h).2, decide_eq_true_eq] at hspares
  have hlen : spared.utf8ByteSize < 2 ^ 31 := by decide
  have hn : 2 ≤ 3 := by decide
  exact ⟨⟨u, h, hspares⟩, hlen, hn, (correct_in_two_passes h hlen hn).1 {},
    (correct_in_two_passes h hlen hn).2 {} hspares⟩

/-- Rules are disabled for all of the file, and an empty line stands between a directive for the
next line and one for the line in front of it. -/
def neighbours : String :=
  "//swiftlint:disable all\n//swiftlint:disable:next all\n\n//swiftlint:enable:previous all\na\n\nb\n"

/-- The source without the empty line between the directives. -/
def neighboursJoined : String :=
  "//swiftlint:disable all\n//swiftlint:disable:next all\n//swiftlint:enable:previous all\na\n\nb\n"

/-- The first pass drops the empty line between the directives.  Then the line that is disabled
starts where the line that is enabled ends, the rest of the file is enabled, and the second pass
drops an empty line in it. -/
theorem not_isDoneInTwoPasses_neighbours :
    (∃ u, SourceUnit.ofText neighbours = .ok u) ∧
      ¬ IsDoneInTwoPasses (VerticalWhitespace.rule ⟨.warning, 0⟩) 2 neighbours := by
  have hfixed : (SourceUnit.ofText neighbours).toOption.map (fun u =>
      let disabled := (Regions.ofCommands (Command.expandAll u.commands u.lineIndex)).disabledRegions
        VerticalWhitespace.description.identifiers
      (Fixer.run { token := fun c _ => .ok (VerticalWhitespace.fix? 0 disabled c, ()) } () disabled
        u.tree).toOption.map fun o => (o.tree.fullText, o.corrections)) =
      some (some (neighboursJoined, [53])) := by
    simp only [Command.expandAll_eq_insertionSort]
    decide +kernel
  have hfound : (SourceUnit.ofText neighboursJoined).toOption.map (fun u =>
      let disabled := (Regions.ofCommands (Command.expandAll u.commands u.lineIndex)).disabledRegions
        VerticalWhitespace.description.identifiers
      (u.root.tokens.flatMap fun token =>
        (VerticalWhitespace.excesses 0 token).map (·.position)).filter (!disabled.isSuppressed ·)) =
      some [87] := by
    simp only [Command.expandAll_eq_insertionSort]
    decide +kernel
  obtain ⟨u, hu, hu'⟩ := Option.map_eq_some_iff.mp hfixed
  obtain ⟨v, hv, hv'⟩ := Option.map_eq_some_iff.mp hfound
  have h : SourceUnit.ofText neighbours = .ok u := Except.toOption_eq_some.mp hu
  have hjoined : SourceUnit.ofText neighboursJoined = .ok v := Except.toOption_eq_some.mp hv
  dsimp only at hu' hv'
  rw [← (SourceUnit.regions_eq h).2] at hu'
  rw [← (SourceUnit.regions_eq hjoined).2] at hv'
  obtain ⟨outcome, hrun, houtcome⟩ := Option.map_eq_some_iff.mp hu'
  obtain ⟨htext, hcorrections⟩ := Prod.mk.inj houtcome
  have hr := correctsReported_verticalWhitespace ⟨.warning, 0⟩ 2
  have hfix : (VerticalWhitespace.rule ⟨.warning, 0⟩).fix?
      ((alone (VerticalWhitespace.rule ⟨.warning, 0⟩) 2).context u) = some (.ok outcome) :=
    congrArg some (Except.toOption_eq_some.mp hrun)
  have hreported : (alone (VerticalWhitespace.rule ⟨.warning, 0⟩) 2).reported v
      (VerticalWhitespace.rule ⟨.warning, 0⟩) = [87] := by
    rw [reported_eq (filter_rules_alone _ 2) rfl rfl, Rule.unsuppressed, List.map_flatMap]
    simp only [List.map_map, Function.comp_def]
    exact (congrArg (List.mergeSort · (· ≤ ·)) hv').trans (List.mergeSort_singleton 87)
  refine ⟨⟨u, h⟩, ?_⟩
  rw [isDoneInTwoPasses_iff h hr rfl (Nat.le_refl 2) hfix, htext, isClear_iff hjoined, hreported]
  obtain ⟨outcome', hfix', hall⟩ := hr _ _ h
  obtain rfl : outcome = outcome' := Except.ok.inj (Option.some.inj (hfix.symm.trans hfix'))
  rw [← hall, hcorrections]
  exact not_or_intro (List.cons_ne_nil _ _) (List.cons_ne_nil _ _)

end Linter

end SwiftTidy
