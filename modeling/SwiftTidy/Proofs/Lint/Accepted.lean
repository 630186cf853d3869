import SwiftTidy.Lint.Linter
import SwiftTidy.Proofs.Data.Except
import SwiftTidy.Proofs.Parse.Productions
import SwiftTidy.Rules.TrailingSemicolon

/-!
# What a correction amounts to

`correct_idempotent`: when the correction of a source converges, correcting the answer again makes
one pass that changes nothing.  A rule either has nothing to correct in a source (`Settled`) or adds
corrections (`step_cases`), so a pass that adds none leaves its source untouched and every rule settled
on it (`settled_of_length_eq`).  Whether a rule is settled depends on the parsed source alone, and the
parsed source at the end is the one that its text is read as (`SourceUnit.IsRead`), by losslessness.

`correct_eq_accepted`: the answer of a correction parses, and it is reached from the source by the
rewrites that were accepted, one after the other, each of which contributes its corrections in
turn.  A rule whose rewriter gives up, or whose rewritten text does not parse, could as well not
have been asked: without it the correction ends with the same text and the same corrections.
`Run` says what becomes of a source when rules are asked in turn.  One step of the linter is one
step of a run (`run_step`), so a pass is a run through the rules that correct (`run_pass`), and a
correction is a run through as many copies of them as there were passes (`run_correctFrom`).
-/

namespace SwiftTidy

namespace SourceUnit

/-- Reading the text of a parsed source gives the parsed source back. -/
def IsRead (u : SourceUnit) : Prop := ofText u.source = .ok u

/-- What is read from a text is read from its own text. -/
theorem isRead_of_ofText {text : String} {u : SourceUnit} (h : ofText text = .ok u) :
    u.IsRead := by
  obtain ⟨tree, htree, rfl⟩ := Except.map_eq_ok.mp h
  have hsource : (ofTree tree).source = text := fullText_parse htree
  unfold IsRead
  rw [hsource]
  exact h

end SourceUnit

namespace Linter

variable {l : Linter} {p : Progress}

/-! ### One rule -/

/-- A rule that has nothing to correct in a source, whatever was corrected before. -/
def Settled (l : Linter) (u : SourceUnit) (r : Rule) : Prop :=
  ∀ cs, l.step ⟨u, cs⟩ r = ⟨u, cs⟩

/-- A rule has nothing to correct, or it adds corrections and its result is read anew. -/
theorem step_cases (l : Linter) (p : Progress) (r : Rule) :
    l.Settled p.unit r ∨
      ∃ u added, u.IsRead ∧ added ≠ [] ∧ l.step p r = ⟨u, p.corrections ++ added⟩ := by
  unfold Settled step
  dsimp only
  rcases hfix : r.fix? (l.context p.unit) with _ | (fault | outcome)
  · exact .inl fun _ => rfl
  · exact .inl fun _ => rfl
  · by_cases hunchanged : outcome.isUnchanged
    · exact .inl fun _ => if_pos hunchanged
    · simp only [if_neg hunchanged]
      cases hnext : SourceUnit.ofText outcome.tree.fullText with
      | error e => exact .inl fun _ => rfl
      | ok next =>
        refine .inr ⟨next, _, SourceUnit.isRead_of_ofText hnext, ?_, rfl⟩
        simpa [FixOutcome.isUnchanged] using hunchanged

/-- Corrections are only added. -/
theorem length_le_step (l : Linter) (p : Progress) (r : Rule) :
    p.corrections.length ≤ (l.step p r).corrections.length := by
  rcases step_cases l p r with hsettled | ⟨u, added, -, -, hstep⟩
  · exact Nat.le_of_eq (congrArg (·.corrections.length) (hsettled p.corrections).symm)
  · rw [hstep, List.length_append]
    omega

theorem isRead_step (r : Rule) (hp : p.unit.IsRead) : (l.step p r).unit.IsRead := by
  rcases step_cases l p r with hsettled | ⟨u, added, hu, -, hstep⟩
  · rw [hsettled p.corrections]
    exact hp
  · rw [hstep]
    exact hu

/-! ### One pass -/

theorem length_le_foldl_step (l : Linter) (rs : List Rule) (p : Progress) :
    p.corrections.length ≤ (rs.foldl l.step p).corrections.length := by
  induction rs generalizing p with
  | nil => exact Nat.le_refl _
  | cons r rs ih => exact Nat.le_trans (length_le_step l p r) (ih (l.step p r))

theorem isRead_pass (hp : p.unit.IsRead) : (l.pass p).unit.IsRead := by
  unfold pass
  generalize l.correctable = rs
  induction rs generalizing p with
  | nil => exact hp
  | cons r rs ih => exact ih (isRead_step r hp)

/-- Rules that add no correction are all settled. -/
theorem settled_of_length_eq {rs : List Rule}
    (h : (rs.foldl l.step p).corrections.length = p.corrections.length) :
    ∀ r ∈ rs, l.Settled p.unit r := by
  induction rs generalizing p with
  | nil => simp
  | cons r rs ih =>
    rw [List.foldl_cons] at h
    have hrest := length_le_foldl_step l rs (l.step p r)
    rcases step_cases l p r with hsettled | ⟨u, added, -, hadded, hstep⟩
    · have hstay : l.step p r = p := hsettled p.corrections
      rw [hstay] at h
      exact List.forall_mem_cons.mpr ⟨hsettled, ih h⟩
    · -- the corrections of this rule are still counted at the end of the pass
      have hpos : 0 < added.length := List.length_pos_iff.mpr hadded
      rw [hstep, List.length_append, ← hstep] at hrest
      omega

/-- Settled rules leave a source alone. -/
theorem pass_of_settled {u : SourceUnit} {cs : List Correction}
    (h : ∀ r ∈ l.correctable, l.Settled u r) : l.pass ⟨u, cs⟩ = ⟨u, cs⟩ := by
  unfold pass
  generalize l.correctable = rs at h
  induction rs with
  | nil => rfl
  | cons r rs ih =>
    rw [List.forall_mem_cons] at h
    rw [List.foldl_cons, h.1 cs]
    exact ih h.2

/-! ### All passes -/

/-- Where the correction converges all rules are settled, and there was room for a pass. -/
theorem settled_of_converged {left made : Nat} (hp : p.unit.IsRead)
    (h : (l.correctFrom left made p).converged = true) :
    0 < left ∧ ∃ u : SourceUnit, u.IsRead ∧ u.source = (l.correctFrom left made p).source ∧
      ∀ r ∈ l.correctable, l.Settled u r := by
  induction left generalizing made p with
  | zero => cases h
  | succ left ih =>
    refine ⟨Nat.succ_pos left, ?_⟩
    unfold correctFrom at h ⊢
    dsimp only at h ⊢
    split_ifs at h ⊢ with hlength
    · -- the last pass corrected nothing, so what it ends with is what it started from
      have hsettled := settled_of_length_eq hlength
      have hstay : l.pass p = p := pass_of_settled hsettled
      rw [hstay]
      exact ⟨p.unit, hp, rfl, hsettled⟩
    · exact (ih (isRead_pass hp) h).2

/-- On a source on which all rules are settled the first pass is the last one. -/
theorem correctFrom_of_settled {u : SourceUnit} {left made : Nat} {cs : List Correction}
    (hleft : 0 < left) (h : ∀ r ∈ l.correctable, l.Settled u r) :
    l.correctFrom left made ⟨u, cs⟩ = ⟨u.source, cs, made + 1, true⟩ := by
  obtain ⟨left, rfl⟩ := Nat.exists_eq_succ_of_ne_zero (Nat.ne_of_gt hleft)
  unfold correctFrom
  rw [pass_of_settled h]
  exact if_pos rfl

/-- **Correction is idempotent**: when the correction of a source converges, correcting the result
takes one pass, which converges and corrects nothing. -/
theorem correct_idempotent {source : String} {out : CorrectionOutcome}
    (h : l.correct source = .ok out) (hconverged : out.converged = true) :
    l.correct out.source = .ok ⟨out.source, [], 1, true⟩ := by
  obtain ⟨u, hu, rfl⟩ := Except.map_eq_ok.mp h
  obtain ⟨hpasses, v, hv, hsource, hsettled⟩ :=
    settled_of_converged (SourceUnit.isRead_of_ofText hu) hconverged
  have hread : SourceUnit.ofText v.source = .ok v := hv
  rw [← hsource]
  refine Except.map_eq_ok.mpr ⟨v, hread, ?_⟩
  exact correctFrom_of_settled hpasses hsettled

/-- A semicolon is dropped, and then nothing is left to correct. -/
theorem correct_idempotent_semicolon :
    (ofRules [TrailingSemicolon.rule .warning]).correct "let a = 1;\n" =
      .ok ⟨"let a = 1\n", [⟨9, "trailing_semicolon"⟩], 2, true⟩ ∧
    (ofRules [TrailingSemicolon.rule .warning]).correct "let a = 1\n" =
      .ok ⟨"let a = 1\n", [], 1, true⟩ := by
  have h : (ofRules [TrailingSemicolon.rule .warning]).correct "let a = 1;\n" =
      .ok ⟨"let a = 1\n", [⟨9, "trailing_semicolon"⟩], 2, true⟩ :=
    Except.toOption_eq_some.mp (by decide +kernel)
  exact ⟨h, correct_idempotent h rfl⟩

end Linter

/-! ### Rewrites that are accepted -/

namespace Linter

/-- The rewriter of a rule gives up on a source. -/
def GivesUp (l : Linter) (u : SourceUnit) (r : Rule) : Prop :=
  ∃ fault, r.fix? (l.context u) = some (.error fault)

/-- A rule rewrites a source to a text that does not parse. -/
def Breaks (l : Linter) (u : SourceUnit) (r : Rule) : Prop :=
  ∃ outcome e, r.fix? (l.context u) = some (.ok outcome) ∧
    parse outcome.tree.fullText = .error e

/-- The rewrite of a rule is accepted: it corrects something and its text is read as `v`.  Its
corrections are recorded under the name of the rule. -/
def Accepts (l : Linter) (u : SourceUnit) (r : Rule) (v : SourceUnit) (cs : List Correction) :
    Prop :=
  ∃ outcome, r.fix? (l.context u) = some (.ok outcome) ∧ outcome.corrections ≠ [] ∧
    SourceUnit.ofText outcome.tree.fullText = .ok v ∧
    cs = outcome.corrections.map (⟨·, r.identifier⟩)

/-- Asking rules in turn leads from one source to another, with the corrections of the accepted
rewrites and of no others. -/
inductive Run (l : Linter) : List Rule → SourceUnit → SourceUnit → List Correction → Prop
  /-- No rule is asked. -/
  | done (u : SourceUnit) : Run l [] u u []
  /-- The next rule goes on from what the rewrite of the first one leaves. -/
  | accepted {r : Rule} {rs : List Rule} {u v w : SourceUnit} {cs later : List Correction} :
      Accepts l u r v cs → Run l rs v w later → Run l (r :: rs) u w (cs ++ later)
  /-- The next rule sees what the first one saw. -/
  | skipped {r : Rule} {rs : List Rule} {u w : SourceUnit} {later : List Correction} :
      (∀ v cs, ¬ Accepts l u r v cs) → Run l rs u w later → Run l (r :: rs) u w later

/-- The rules that are asked in some passes, in order. -/
def asked (l : Linter) (passes : Nat) : List Rule := (List.replicate passes l.correctable).flatten

variable {l : Linter} {u v w : SourceUnit} {r : Rule} {rs before after : List Rule}
  {cs earlier later : List Correction}

/-! ### What is not accepted -/

/-- A rule has one answer to a source, so at most one rewrite of it is accepted. -/
theorem Accepts.unique {v' : SourceUnit} {cs' : List Correction} (h : l.Accepts u r v cs)
    (h' : l.Accepts u r v' cs') : v = v' ∧ cs = cs' := by
  obtain ⟨outcome, hfix, -, hread, rfl⟩ := h
  obtain ⟨outcome', hfix', -, hread', rfl⟩ := h'
  obtain rfl : outcome = outcome' := by
    rw [hfix] at hfix'
    exact Except.ok.inj (Option.some.inj hfix')
  rw [hread] at hread'
  exact ⟨Except.ok.inj hread', rfl⟩

theorem not_accepts_of_givesUp (h : l.GivesUp u r) : ¬ l.Accepts u r v cs := by
  rintro ⟨outcome, hfix, -⟩
  obtain ⟨fault, hfault⟩ := h
  rw [hfix] at hfault
  cases hfault

theorem not_accepts_of_breaks (h : l.Breaks u r) : ¬ l.Accepts u r v cs := by
  rintro ⟨outcome, hfix, -, hread, -⟩
  obtain ⟨outcome', e, hfix', hparse⟩ := h
  obtain rfl : outcome = outcome' := by
    rw [hfix] at hfix'
    exact Except.ok.inj (Option.some.inj hfix')
  obtain ⟨tree, htree, -⟩ := Except.map_eq_ok.mp hread
  rw [htree] at hparse
  cases hparse

/-! ### Runs -/

/-- A run goes through its first rules and then through the others. -/
theorem Run.append (h : l.Run before u v earlier) (h' : l.Run after v w later) :
    l.Run (before ++ after) u w (earlier ++ later) := by
  induction h with
  | done u => exact h'
  | accepted haccepts _ ih =>
    rw [List.append_assoc]
    exact .accepted haccepts (ih h')
  | skipped hnot _ ih => exact .skipped hnot (ih h')

/-- Where a run ends, and what it corrects, is a function of where it starts. -/
theorem Run.unique {w' : SourceUnit} {later' : List Correction} (h : l.Run rs u w later)
    (h' : l.Run rs u w' later') : w = w' ∧ later = later' := by
  induction h generalizing w' later' with
  | done u =>
    cases h'
    exact ⟨rfl, rfl⟩
  | accepted haccepts _ ih =>
    cases h' with
    | accepted haccepts' hrun' =>
      obtain ⟨rfl, rfl⟩ := haccepts.unique haccepts'
      obtain ⟨rfl, rfl⟩ := ih hrun'
      exact ⟨rfl, rfl⟩
    | skipped hnot' _ => exact absurd haccepts (hnot' _ _)
  | skipped hnot _ ih =>
    cases h' with
    | accepted haccepts' _ => exact absurd haccepts' (hnot _ _)
    | skipped _ hrun' => exact ih hrun'

/-- A run through two lists of rules stops over between them. -/
theorem Run.split (h : l.Run (before ++ after) u w cs) :
    ∃ v earlier later, l.Run before u v earlier ∧ l.Run after v w later ∧
      cs = earlier ++ later := by
  induction before generalizing u cs with
  | nil => exact ⟨u, [], cs, .done u, h, rfl⟩
  | cons r before ih =>
    cases h with
    | accepted haccepts hrun =>
      obtain ⟨v, earlier, later, hbefore, hafter, rfl⟩ := ih hrun
      exact ⟨v, _, later, .accepted haccepts hbefore, hafter, (List.append_assoc _ _ _).symm⟩
    | skipped hnot hrun =>
      obtain ⟨v, earlier, later, hbefore, hafter, rfl⟩ := ih hrun
      exact ⟨v, earlier, later, .skipped hnot hbefore, hafter, rfl⟩

/-- A rule whose rewrite is not accepted can be left out, whatever is asked before and after it. -/
theorem Run.without (h : l.Run (before ++ r :: after) u w cs) (hv : l.Run before u v earlier)
    (hnot : ∀ v' cs', ¬ l.Accepts v r v' cs') : l.Run (before ++ after) u w cs := by
  obtain ⟨v', earlier', later, hbefore, hrest, rfl⟩ := h.split
  obtain ⟨rfl, rfl⟩ := hv.unique hbefore
  cases hrest with
  | accepted haccepts _ => exact absurd haccepts (hnot _ _)
  | skipped _ hafter => exact hbefore.append hafter

/-! ### The linter -/

/-- One step of the linter is a run through one rule. -/
theorem run_step (l : Linter) (p : Progress) (r : Rule) :
    ∃ added, l.Run [r] p.unit (l.step p r).unit added ∧
      (l.step p r).corrections = p.corrections ++ added := by
  by_cases h : ∃ v cs, l.Accepts p.unit r v cs
  · obtain ⟨v, cs, haccepts⟩ := h
    obtain ⟨outcome, hfix, hne, hread, hcs⟩ := id haccepts
    have hchanged : outcome.isUnchanged = false := by simpa [FixOutcome.isUnchanged] using hne
    have hstep : l.step p r = ⟨v, p.corrections ++ cs⟩ := by
      simp [step, hfix, hchanged, hread, hcs]
    rw [hstep]
    refine ⟨cs, ?_, rfl⟩
    simpa using Run.accepted haccepts (.done v)
  · have hnot : ∀ v cs, ¬ l.Accepts p.unit r v cs := fun v cs haccepts => h ⟨v, cs, haccepts⟩
    have hstep : l.step p r = p := by
      unfold step
      split
      · next outcome hfix =>
        split_ifs with hunchanged
        · rfl
        · split
          · next v hread =>
            have hne : outcome.corrections ≠ [] := by
              simpa [FixOutcome.isUnchanged] using hunchanged
            exact absurd ⟨outcome, hfix, hne, hread, rfl⟩ (hnot v _)
          · rfl
      · rfl
    rw [hstep]
    exact ⟨[], .skipped hnot (.done p.unit), (List.append_nil _).symm⟩

/-- A pass is a run through the rules that correct. -/
theorem run_pass (l : Linter) (p : Progress) :
    ∃ added, l.Run l.correctable p.unit (l.pass p).unit added ∧
      (l.pass p).corrections = p.corrections ++ added := by
  unfold pass
  generalize l.correctable = rs
  induction rs generalizing p with
  | nil => exact ⟨[], .done p.unit, (List.append_nil _).symm⟩
  | cons r rs ih =>
    obtain ⟨first, hfirst, hcorrections⟩ := run_step l p r
    obtain ⟨rest, hrest, hmore⟩ := ih (l.step p r)
    refine ⟨first ++ rest, hfirst.append hrest, ?_⟩
    rw [List.foldl_cons, hmore, hcorrections, List.append_assoc]

/-- A correction is a run through as many copies of the rules as it makes passes. -/
theorem run_correctFrom (l : Linter) (left made : Nat) (p : Progress) :
    ∃ passes w added, passes ≤ left ∧ l.Run (l.asked passes) p.unit w added ∧
      (l.correctFrom left made p).source = w.source ∧
      (l.correctFrom left made p).corrections = p.corrections ++ added ∧
      (l.correctFrom left made p).passes = made + passes := by
  induction left generalizing made p with
  | zero => exact ⟨0, p.unit, [], Nat.le_refl 0, .done p.unit, rfl, (List.append_nil _).symm, rfl⟩
  | succ left ih =>
    obtain ⟨first, hfirst, hcorrections⟩ := run_pass l p
    unfold correctFrom
    dsimp only
    split_ifs with hlength
    · refine ⟨1, (l.pass p).unit, first, by omega, ?_, rfl, hcorrections, rfl⟩
      simpa [asked] using hfirst
    · obtain ⟨passes, w, rest, hle, hrest, hsource, hmore, hmade⟩ := ih (made + 1) (l.pass p)
      refine ⟨passes + 1, w, first ++ rest, by omega, ?_, hsource, ?_, by omega⟩
      · exact hfirst.append hrest
      · rw [hmore, hcorrections, List.append_assoc]

theorem Run.isRead (h : l.Run rs u w cs) (hu : u.IsRead) : w.IsRead := by
  induction h with
  | done u => exact hu
  | accepted haccepts _ ih =>
    obtain ⟨outcome, -, -, hread, -⟩ := haccepts
    exact ih (SourceUnit.isRead_of_ofText hread)
  | skipped _ _ ih => exact ih hu

/-- **Only accepted rewrites are seen**: a corrected source parses, and it is what the accepted
rewrites make of the source in the order in which the rules are asked.  Its corrections are theirs.
A rule that gives up, or whose rewritten text does not parse, changes neither the text nor the
corrections, whatever is asked before and after it. -/
theorem correct_eq_accepted {source : String} {out : CorrectionOutcome}
    (h : l.correct source = .ok out) :
    ∃ u w, SourceUnit.ofText source = .ok u ∧ SourceUnit.ofText out.source = .ok w ∧
      u.source = source ∧ w.source = out.source ∧ out.passes ≤ l.maxPasses ∧
      l.Run (l.asked out.passes) u w out.corrections ∧
      ∀ before r after v earlier, l.asked out.passes = before ++ r :: after →
        l.Run before u v earlier → l.GivesUp v r ∨ l.Breaks v r →
        l.Run (before ++ after) u w out.corrections := by
  obtain ⟨u, hu, rfl⟩ := Except.map_eq_ok.mp h
  obtain ⟨passes, w, added, hle, hrun, hsource, hcorrections, hpasses⟩ :=
    run_correctFrom l l.maxPasses 0 ⟨u, []⟩
  rw [Nat.zero_add] at hpasses
  rw [List.nil_append] at hcorrections
  have hread : u.IsRead := SourceUnit.isRead_of_ofText hu
  have husource : u.source = source := by
    obtain ⟨tree, htree, rfl⟩ := Except.map_eq_ok.mp hu
    exact fullText_parse htree
  have hw : SourceUnit.ofText w.source = .ok w := hrun.isRead hread
  rw [hsource, hcorrections, hpasses]
  refine ⟨u, w, hu, hw, husource, rfl, hle, hrun, ?_⟩
  intro before r after v earlier hasked hbefore hfails
  rw [hasked] at hrun
  refine hrun.without hbefore fun v' cs' => ?_
  rcases hfails with hgivesUp | hbreaks
  · exact not_accepts_of_givesUp hgivesUp
  · exact not_accepts_of_breaks hbreaks

/-- A rule whose rewriter gives up on every source. -/
def quitting : Rule where
  description := { TrailingSemicolon.description with identifier := "quitting" }
  severity := .warning
  find _ := .ok []
  fixer? := some fun _ =>
    { visit := fun _ _ => .error .broken, token := fun _ _ => .error .broken }

/-- A rule that rewrites every source to a closing brace. -/
def unclosing : Rule where
  description := { TrailingSemicolon.description with identifier := "unclosing" }
  severity := .warning
  find _ := .ok []
  fixer? := some fun _ =>
    { node := fun c _ s => .ok
        (if c.path.isEmpty then some ⟨.node .sourceFile [.token ⟨.rightBrace, "\x7d", [], []⟩], 0, [], none⟩
         else none, s) }

/-- The rule about semicolons corrects what the two other rules leave alone. -/
theorem correct_eq_accepted_semicolon :
    let l := ofRules [quitting, unclosing, TrailingSemicolon.rule .warning]
    l.correct "let a = 1;\n" = .ok ⟨"let a = 1\n", [⟨9, "trailing_semicolon"⟩], 2, true⟩ ∧
    ∃ u w, SourceUnit.ofText "let a = 1;\n" = .ok u ∧ SourceUnit.ofText "let a = 1\n" = .ok w ∧
      l.GivesUp u quitting ∧ l.Breaks u unclosing ∧
      l.Run [unclosing, TrailingSemicolon.rule .warning, quitting, unclosing,
        TrailingSemicolon.rule .warning] u w [⟨9, "trailing_semicolon"⟩] := by
  intro l
  have h : l.correct "let a = 1;\n" =
      .ok ⟨"let a = 1\n", [⟨9, "trailing_semicolon"⟩], 2, true⟩ :=
    Except.toOption_eq_some.mp (by decide +kernel)
  obtain ⟨u, w, hu, hw, -, -, -, -, hfails⟩ := correct_eq_accepted h
  have hquits : l.GivesUp u quitting := by
    refine ⟨.broken, ?_⟩
    unfold Rule.fix? Fixer.run
    cases (l.context u).unit.tree <;> rfl
  have hbreaks : l.Breaks u unclosing := by
    have hbrace : ((SourceUnit.ofText "let a = 1;\n").toOption.bind fun u =>
        (unclosing.fix? (l.context u)).bind fun answer =>
          answer.toOption.map (·.tree.fullText)) = some "\x7d" := by
      decide +kernel
    rw [hu, Except.toOption, Option.bind_some, Option.bind_eq_some_iff] at hbrace
    obtain ⟨answer, hfix, hanswer⟩ := hbrace
    obtain ⟨outcome, houtcome, htext⟩ := Option.map_eq_some_iff.mp hanswer
    rw [Except.toOption_eq_some.mp houtcome] at hfix
    have hrejected : (parse outcome.tree.fullText).toOption = none := by
      rw [htext]
      decide +kernel
    cases hparse : parse outcome.tree.fullText with
    | error e => exact ⟨outcome, e, hfix, hparse⟩
    | ok tree =>
      rw [hparse] at hrejected
      cases hrejected
  exact ⟨h, u, w, hu, hw, hquits, hbreaks,
    hfails [] quitting _ u [] rfl (.done u) (.inl hquits)⟩

end Linter

end SwiftTidy
