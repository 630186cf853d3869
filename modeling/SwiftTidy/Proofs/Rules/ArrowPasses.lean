import SwiftTidy.Proofs.Lint.Accepted
import SwiftTidy.Proofs.Rules.TokenSpacing

/-!
# Return arrows that no pass corrects

Several arrows may meet the tokens in front of them at one place, because the signature of a closure
is a flat list of tokens, and one pass makes only the first edit at a place (`IsReached`).  The
others wait for the next pass.  A pass whose text is not read is dropped as a whole.

`reported_eq_nil_iff_of_converged`: when a correction has converged and the first edit at each place is
free to be made, nothing is left to report exactly when the text with the edits is read.
`converged_with_arrows` has two sources whose correction converges at once and leaves an arrow: in
one the text with the edit is not read, in the other the first edit at the place is suppressed.
-/

namespace SwiftTidy

namespace SpacingEdit

variable {source : String} {tree : Element} {edits : List SpacingEdit} {e : SpacingEdit}
  {disabled : DisabledRegions}

/-- The first of the edits at the place of this one is not suppressed, so that a pass makes it. -/
def IsReached (edits : List SpacingEdit) (disabled : DisabledRegions) (e : SpacingEdit) : Prop :=
  ∃ c first, e.token.commonAncestorWithPrevious? = some c ∧
    (located edits).lookup c.path = some first ∧ disabled.isSuppressed first.position = false

/-- A pass records something as soon as one edit is reached. -/
theorem corrections_ne_nil_of_isReached {outcome : FixOutcome} (h : parse source = .ok tree)
    (hdisabled : disabled.IsSeparated) (hedits : ∀ e ∈ edits, e.IsBetween (.root tree))
    (hrun : (fixer edits).run () disabled tree = .ok outcome) (hreached : e.IsReached edits disabled) :
    outcome.corrections ≠ [] := by
  obtain ⟨c, first, -, hlookup, hfirst⟩ := hreached
  obtain ⟨fixed, hrun'⟩ := run_fixer_eq h hdisabled hedits
  cases hrun.symm.trans hrun'
  -- the first edit is made where its token meets the one in front of it
  obtain ⟨hmem, p, hp, hpath⟩ := mem_located (mem_located_of_lookup hlookup)
  obtain ⟨q, front, child, back, hmeets, hq, hdescendant, -⟩ := (hedits first hmem).exists_meeting h
  obtain rfl : q = p := Option.some.inj (hq.symm.trans hp)
  have hnode : q ∈ (Cursor.root tree).postorder := by
    refine Cursor.mem_postorder_iff.mpr ⟨hdescendant, ?_⟩
    have hchildren := hmeets.children
    rw [Cursor.token?]
    cases hq : q.element with
    | token t => simp [hq, Element.children] at hchildren
    | node k es => rfl
  have hrecorded : first.position ∈ recordedAt edits disabled q := by
    rw [recordedAt, hpath, hlookup]
    simp [hfirst]
  intro hnil
  have hposition : first.position ∈
      ((Cursor.root tree).postorder.flatMap (recordedAt edits disabled)).mergeSort (· ≤ ·) := by
    rw [List.mem_mergeSort, List.mem_flatMap]
    exact ⟨q, hnode, hrecorded⟩
  dsimp only at hnil
  simp [hnil] at hposition

/-- Where nothing is recorded no edit is reached, and where no edit is left to be reached nothing is
recorded. -/
theorem corrections_eq_nil_of_suppressed {outcome : FixOutcome} (h : parse source = .ok tree)
    (hdisabled : disabled.IsSeparated) (hedits : ∀ e ∈ edits, e.IsBetween (.root tree))
    (hrun : (fixer edits).run () disabled tree = .ok outcome)
    (hsuppressed : ∀ e ∈ edits, disabled.isSuppressed e.position = true) :
    outcome.corrections = [] := by
  obtain ⟨fixed, hrun'⟩ := run_fixer_eq h hdisabled hedits
  cases hrun.symm.trans hrun'
  have hnone : (Cursor.root tree).postorder.flatMap (recordedAt edits disabled) = [] := by
    rw [List.flatMap_eq_nil_iff]
    intro c _
    rw [List.eq_nil_iff_forall_not_mem]
    intro p hp
    obtain ⟨⟨e, he, rfl⟩, hfree⟩ := exists_of_mem_recordedAt hp
    rw [hsuppressed e he] at hfree
    cases hfree
  dsimp only
  rw [hnone, List.mergeSort_nil]

end SpacingEdit

namespace Linter

variable {source : String} {u : SourceUnit} {r : Rule} {l : Linter}

/-- A rule has nothing to correct when it records nothing, or when its corrected text is not read. -/
theorem settled_iff {outcome : FixOutcome} (hfix : r.fix? (l.context u) = some (.ok outcome)) :
    l.Settled u r ↔
      outcome.corrections = [] ∨ ∀ v, SourceUnit.ofText outcome.tree.fullText ≠ .ok v := by
  unfold Settled step
  dsimp only
  rw [hfix]
  dsimp only
  by_cases hnone : outcome.corrections = []
  · have hunchanged : outcome.isUnchanged = true := by simp [FixOutcome.isUnchanged, hnone]
    simp [hunchanged, hnone]
  · have hchanged : ¬ outcome.isUnchanged = true := by simp [FixOutcome.isUnchanged, hnone]
    simp only [if_neg hchanged, hnone, false_or]
    cases hnext : SourceUnit.ofText outcome.tree.fullText with
    | error e => simp
    | ok next =>
      -- the corrections of the rule are added to those made before
      refine iff_of_false (fun hsettled => hnone ?_) fun hunread => hunread next rfl
      have hsame := congrArg Progress.corrections (hsettled [])
      simpa using hsame

end Linter

namespace ReturnArrowWhitespace

open Linter

variable {source : String} {u : SourceUnit} {l : Linter} {severity : Severity}

/-- What is reported of the rule are the violations of its edits that are not suppressed. -/
theorem reported_eq_nil_iff (hl : l.rules = [rule severity]) :
    l.reported u (rule severity) = [] ↔
      ∀ e ∈ edits u.root, (u.disabledRegions description).isSuppressed e.position = true := by
  have hfilter : l.rules.filter (·.identifier == (rule severity).identifier) = [rule severity] := by
    simp [hl]
  rw [reported_eq hfilter rfl rfl, ← List.length_eq_zero_iff, List.length_mergeSort,
    List.length_eq_zero_iff, Rule.unsuppressed, List.filter_eq_nil_iff]
  constructor
  · intro hnone e he
    have hmem : e.position ∈ (((edits u.root).map fun e => Violation.plain e.position).map
        (·.position)) := by
      rw [List.map_map]
      exact List.mem_map.mpr ⟨e, he, rfl⟩
    have hfree := hnone e.position hmem
    rwa [Bool.not_eq_true', Bool.not_eq_false] at hfree
  · intro hall p hp
    rw [List.map_map] at hp
    obtain ⟨e, he, rfl⟩ := List.mem_map.mp hp
    rw [Bool.not_eq_true', Bool.not_eq_false]
    exact hall e he

/-- A rule that is settled on a source has nothing left to report exactly when each edit that is not
suppressed is reached, and the text with the edits is read. -/
theorem reported_eq_nil_iff_of_settled {outcome : FixOutcome} (h : SourceUnit.ofText source = .ok u)
    (hl : l.rules = [rule severity])
    (hfix : (rule severity).fix? (l.context u) = some (.ok outcome))
    (hsettled : l.Settled u (rule severity)) :
    l.reported u (rule severity) = [] ↔
      (∀ e ∈ edits u.root, (u.disabledRegions description).isSuppressed e.position = false →
        e.IsReached (edits u.root) (u.disabledRegions description)) ∧
      ∃ v, SourceUnit.ofText outcome.tree.fullText = .ok v := by
  have hparse := SourceUnit.parse_of_ofText h
  have hdisabled := SourceUnit.disabledRegions_isSeparated h description
  have hedits : ∀ e ∈ edits u.root, e.IsBetween (.root u.tree) := by
    intro e he
    exact isBetween_of_mem_edits hparse he
  have hrun : (SpacingEdit.fixer (edits u.root)).run () (u.disabledRegions description) u.tree =
      .ok outcome := Option.some.inj hfix
  rw [reported_eq_nil_iff hl]
  constructor
  · intro hall
    have hnone := SpacingEdit.corrections_eq_nil_of_suppressed hparse hdisabled hedits hrun hall
    refine ⟨fun e he hfree => ?_, ?_⟩
    · rw [hall e he] at hfree
      cases hfree
    · -- nothing is corrected, so the text is the one that was read
      obtain ⟨outcome', hrun', -, hsame⟩ := SpacingEdit.keeps_run hparse (u.disabledRegions description)
        fun e he => ⟨hedits e he, isBlank_of_mem_edits hparse he⟩
      obtain rfl : outcome = outcome' := Except.ok.inj (hrun.symm.trans hrun')
      have hsource : u.source = u.tree.fullText := by
        obtain ⟨tree, -, rfl⟩ := Except.map_eq_ok.mp h
        rfl
      rw [hsame hnone, ← hsource]
      exact ⟨u, SourceUnit.isRead_of_ofText h⟩
  · rintro ⟨hreached, v, hv⟩ e he
    by_contra hfree
    have hsome := SpacingEdit.corrections_ne_nil_of_isReached hparse hdisabled hedits hrun
      (hreached e he (Bool.eq_false_iff.mpr hfree))
    rcases (settled_iff hfix).mp hsettled with hnone | hunread
    · exact hsome hnone
    · exact hunread v hv

/-- **Arrows after the last pass**: of a source that is parsed, where a correction has converged and
each edit that is not suppressed is reached, no arrow is left to report exactly when the text with
the edits is read. -/
theorem reported_eq_nil_iff_of_converged {n : Nat} (h : SourceUnit.ofText source = .ok u)
    (hl : l = (ofRules [rule severity]).withMaxPasses n) :
    ∃ out, l.correct source = .ok out ∧ (out.converged = true →
      ∃ v outcome, SourceUnit.ofText out.source = .ok v ∧
        (rule severity).fix? (l.context v) = some (.ok outcome) ∧
        ((∀ e ∈ edits v.root, (v.disabledRegions description).isSuppressed e.position = false →
            e.IsReached (edits v.root) (v.disabledRegions description)) →
          (l.reported v (rule severity) = [] ↔
            ∃ w, SourceUnit.ofText outcome.tree.fullText = .ok w))) := by
  have hrules : l.rules = [rule severity] := by
    rw [hl]
    rfl
  refine ⟨_, by rw [correct, h]; rfl, fun hconverged => ?_⟩
  obtain ⟨-, v, hv, hsource, hsettled⟩ :=
    settled_of_converged (SourceUnit.isRead_of_ofText h) hconverged
  have hread : SourceUnit.ofText v.source = .ok v := hv
  have hparse := SourceUnit.parse_of_ofText hread
  obtain ⟨outcome, hrun, -⟩ := SpacingEdit.keeps_run hparse (v.disabledRegions description)
    fun e he => ⟨isBetween_of_mem_edits hparse he, isBlank_of_mem_edits hparse he⟩
  have hmem : rule severity ∈ l.correctable := by
    rw [correctable, hrules]
    exact List.mem_cons_self
  have hfix : (rule severity).fix? (l.context v) = some (.ok outcome) := congrArg some hrun
  rw [← hsource]
  refine ⟨v, outcome, hread, hfix, fun hreached => ?_⟩
  rw [reported_eq_nil_iff_of_settled hread hrules hfix (hsettled _ hmem)]
  exact and_iff_right hreached

/-- The rule alone, with at most four passes. -/
def arrowsOnly : Linter := (ofRules [rule .warning]).withMaxPasses 4

/-- Two arrows of one signature with their spaces missing. -/
def arrowsInPasses : String := "let f = \x7b (g: (Int)->Int) ->Int in 1 \x7d\n"

/-- The same arrows with their spaces. -/
def arrowsRespaced : String := "let f = \x7b (g: (Int) -> Int) -> Int in 1 \x7d\n"

/-- Both arrows of one signature are respaced, one in each pass, and then nothing is reported. -/
theorem reported_eq_nil_iff_of_converged_signature :
    ∃ out v, arrowsOnly.correct arrowsInPasses = .ok out ∧
      out = ⟨arrowsRespaced,
        [⟨19, "return_arrow_whitespace"⟩, ⟨27, "return_arrow_whitespace"⟩], 3, true⟩ ∧
      SourceUnit.ofText out.source = .ok v ∧ arrowsOnly.reported v (rule .warning) = [] := by
  have hcorrect : arrowsOnly.correct arrowsInPasses = .ok ⟨arrowsRespaced,
      [⟨19, "return_arrow_whitespace"⟩, ⟨27, "return_arrow_whitespace"⟩], 3, true⟩ :=
    Except.toOption_eq_some.mp (by decide +kernel)
  have hread : (SourceUnit.ofText arrowsInPasses).toOption.isSome = true := by decide +kernel
  have hlast : (SourceUnit.ofText arrowsRespaced).toOption.map (fun v =>
      ((edits v.root).length, ((SpacingEdit.fixer (edits v.root)).run ()
        (v.disabledRegions description) v.tree).toOption.map fun o => o.tree.fullText)) =
      some (0, some arrowsRespaced) := by
    decide +kernel
  obtain ⟨u, hu⟩ := Option.isSome_iff_exists.mp hread
  have hrules : arrowsOnly = (ofRules [rule .warning]).withMaxPasses 4 := rfl
  obtain ⟨out, hout, hconverged⟩ :=
    reported_eq_nil_iff_of_converged (Except.toOption_eq_some.mp hu) hrules
  obtain rfl := Except.ok.inj (hout.symm.trans hcorrect)
  obtain ⟨v, outcome, hv, hfix, hiff⟩ := hconverged rfl
  refine ⟨_, v, hout, rfl, hv, ?_⟩
  have hv' : SourceUnit.ofText arrowsRespaced = .ok v := hv
  rw [hv'] at hlast
  obtain ⟨hedits, hpass⟩ := Prod.mk.inj (Option.some.inj hlast)
  have hrun : (SpacingEdit.fixer (edits v.root)).run () (v.disabledRegions description) v.tree =
      .ok outcome := Option.some.inj hfix
  rw [hrun] at hpass
  have htext : outcome.tree.fullText = arrowsRespaced := Option.some.inj hpass
  refine (hiff fun e he => ?_).mpr ⟨v, by rw [htext]; exact hv⟩
  rw [List.length_eq_zero_iff.mp hedits] at he
  cases he

/-- A pass that corrects nothing is the last one, and what it finds is still reported. -/
theorem correct_of_settled {p : Nat} {outcome : FixOutcome} (h : SourceUnit.ofText source = .ok u)
    (hfix : (rule .warning).fix? (arrowsOnly.context u) = some (.ok outcome))
    (hsettled : outcome.corrections = [] ∨ ∀ v, SourceUnit.ofText outcome.tree.fullText ≠ .ok v)
    (hfree : ((edits u.root).map (·.position)).filter
      (!(u.disabledRegions description).isSuppressed ·) = [p]) :
    arrowsOnly.correct source = .ok ⟨source, [], 1, true⟩ ∧
      arrowsOnly.reported u (rule .warning) = [p] := by
  have hsource : u.source = source := by
    obtain ⟨tree, htree, rfl⟩ := Except.map_eq_ok.mp h
    exact fullText_parse htree
  constructor
  · rw [correct, h, ← hsource]
    refine congrArg Except.ok (correctFrom_of_settled (Nat.succ_pos 3) fun r hr => ?_)
    obtain rfl : r = rule .warning := List.mem_singleton.mp hr
    exact (settled_iff hfix).mpr hsettled
  · rw [reported_eq rfl rfl rfl, Rule.unsuppressed, List.map_map]
    exact (congrArg (List.mergeSort · (· ≤ ·)) hfree).trans (List.mergeSort_singleton p)

/-- An arrow behind a range operator, which a space in front of the arrow turns into another
operator. -/
def rangedArrow : String := "let f = \x7b (x: Int...->Int) -> Int in 1 \x7d\n"

/-- Two arrows in the signature of a closure, the first one in a line for which the rule is
disabled. -/
def hiddenArrow : String :=
  "let f = \x7b (g: (Int)->Int, // swiftlint:disable:this return_arrow_whitespace\n" ++
  "  h: (Int)->Int) -> Int in 1 \x7d\n"

/-- The corrections of both sources converge, and an arrow is still reported. -/
theorem converged_with_arrows :
    (∃ u, SourceUnit.ofText rangedArrow = .ok u ∧
      arrowsOnly.correct rangedArrow = .ok ⟨rangedArrow, [], 1, true⟩ ∧
      arrowsOnly.reported u (rule .warning) = [20]) ∧
    ∃ u, SourceUnit.ofText hiddenArrow = .ok u ∧
      arrowsOnly.correct hiddenArrow = .ok ⟨hiddenArrow, [], 1, true⟩ ∧
      arrowsOnly.reported u (rule .warning) = [86] := by
  have hranged : (SourceUnit.ofText rangedArrow).toOption.map (fun u =>
      let disabled := (Regions.ofCommands (Command.expandAll u.commands u.lineIndex)).disabledRegions
        description.identifiers
      (((SpacingEdit.fixer (edits u.root)).run () disabled u.tree).toOption.map fun o =>
          (SourceUnit.ofText o.tree.fullText).toOption.isSome,
        ((edits u.root).map (·.position)).filter (!disabled.isSuppressed ·))) =
      some (some false, [20]) := by
    simp only [Command.expandAll_eq_insertionSort]
    decide +kernel
  have hhidden : (SourceUnit.ofText hiddenArrow).toOption.map (fun u =>
      let disabled := (Regions.ofCommands (Command.expandAll u.commands u.lineIndex)).disabledRegions
        description.identifiers
      (((SpacingEdit.fixer (edits u.root)).run () disabled u.tree).toOption.map (·.corrections),
        ((edits u.root).map (·.position)).filter (!disabled.isSuppressed ·))) =
      some (some [], [86]) := by
    simp only [Command.expandAll_eq_insertionSort]
    decide +kernel
  constructor
  · obtain ⟨u, hu, hu'⟩ := Option.map_eq_some_iff.mp hranged
    have h : SourceUnit.ofText rangedArrow = .ok u := Except.toOption_eq_some.mp hu
    dsimp only at hu'
    rw [← (SourceUnit.regions_eq h).2] at hu'
    obtain ⟨hpass, hfree⟩ := Prod.mk.inj hu'
    obtain ⟨outcome, hrun, hunread⟩ := Option.map_eq_some_iff.mp hpass
    refine ⟨u, h, correct_of_settled h (congrArg some (Except.toOption_eq_some.mp hrun)) (.inr ?_)
      hfree⟩
    intro v hv
    rw [hv] at hunread
    cases hunread
  · obtain ⟨u, hu, hu'⟩ := Option.map_eq_some_iff.mp hhidden
    have h : SourceUnit.ofText hiddenArrow = .ok u := Except.toOption_eq_some.mp hu
    dsimp only at hu'
    rw [← (SourceUnit.regions_eq h).2] at hu'
    obtain ⟨hpass, hfree⟩ := Prod.mk.inj hu'
    obtain ⟨outcome, hrun, hnone⟩ := Option.map_eq_some_iff.mp hpass
    exact ⟨u, h, correct_of_settled h (congrArg some (Except.toOption_eq_some.mp hrun)) (.inl hnone)
      hfree⟩

end ReturnArrowWhitespace

end SwiftTidy
