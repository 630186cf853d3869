import SwiftTidy.Lint.Linter
import SwiftTidy.Proofs.Directive.Removal
import SwiftTidy.Proofs.Lint.Registrations
import SwiftTidy.Proofs.Lint.Reports
import SwiftTidy.Rules.Builtin

/-!
# Which directives are reported as superfluous

Whatever the settings, the rules that run are rules of this project, each under its own names
(`isBuiltin_of_ofSettings`): settings name rules by any of their names, but the names that are kept
are the current ones, each once.

A report of a directive that is superfluous stands at a directive that names the rule it is about
(`exists_command_of_mem_find`).  The directive need not disable anything where it stands: one that
enables a rule on a line has the line's end disable it again, and this end is judged like a directive
that disables.  `find_stands_at_disables_iff` says that this is the only exception.
-/

namespace SwiftTidy

/-! ### Rules of this project -/

namespace Registry

/-- No two rules of this project share a name. -/
theorem builtinEntries_names : builtinEntries.Pairwise fun e f =>
    ∀ name ∈ e.description.identifiers, name ∉ f.description.identifiers := by
  decide

theorem eq_of_mem_identifiers {e f : RuleEntry} (he : e ∈ builtinEntries) (hf : f ∈ builtinEntries)
    {name : String} (hename : name ∈ e.description.identifiers)
    (hfname : name ∈ f.description.identifiers) : e = f := by
  by_contra hne
  have hsymm : Std.Symm fun e f : RuleEntry =>
      ∀ name ∈ e.description.identifiers, name ∉ f.description.identifiers :=
    ⟨fun _ _ h name hf he => h name he hf⟩
  exact builtinEntries_names.forall he hf hne name hename hfname

variable {e : RuleEntry} {options : Option Toml} {r : Rule}

/-- A configured rule is described as it was before. -/
theorem description_of_create (hentry : e ∈ builtinEntries) (hcreate : e.create options = .ok r) :
    r.description = e.description := by
  simp only [builtinEntries, List.mem_cons, List.not_mem_nil, or_false] at hentry
  rcases hentry with rfl | rfl | rfl | rfl | rfl | rfl | rfl | rfl | rfl | rfl | rfl <;>
  · obtain ⟨_, -, rfl⟩ := Except.map_eq_ok.mp hcreate
    rfl

end Registry

/-! ### Linters -/

namespace Linter

/-- A linter runs rules of this project, each configured in some way, and no two of them share a
name. -/
structure IsBuiltin (l : Linter) : Prop where
  created : ∀ r ∈ l.rules, ∃ e ∈ Registry.builtinEntries, ∃ options, e.create options = .ok r
  names : l.rules.Pairwise fun r s =>
    ∀ name ∈ r.description.identifiers, name ∉ s.description.identifiers

/-- What a rule of this project finds does not depend on the directives. -/
theorem IsBuiltin.violations_congr {l : Linter} (hl : l.IsBuiltin) {r : Rule} (hr : r ∈ l.rules)
    (u : SourceUnit) (commands : List Command) (regions : Regions) :
    l.violations { u with commands := commands, regions := regions } r = l.violations u r := by
  obtain ⟨e, hentry, options, hcreate⟩ := hl.created r hr
  simp only [Registry.builtinEntries, List.mem_cons, List.not_mem_nil, or_false] at hentry
  rcases hentry with rfl | rfl | rfl | rfl | rfl | rfl | rfl | rfl | rfl | rfl | rfl <;>
  · obtain ⟨_, -, rfl⟩ := Except.map_eq_ok.mp hcreate
    rfl

/-- Whatever the settings, the rules that run are rules of this project that share no names. -/
theorem isBuiltin_of_ofSettings {settings : Settings} {l : Linter}
    (h : ofSettings Registry.builtin settings = .ok l) : l.IsBuiltin := by
  obtain ⟨rules, hactive, hl⟩ := Except.bind_eq_ok.mp h
  obtain ⟨chosen, hchosen, hactive⟩ := Except.bind_eq_ok.mp hactive
  cases hl
  have hholds := Registry.holds_ofList Registry.builtinEntries
  -- what is built for a selected name is the rule with this current name
  have hbuilt : ∀ p ∈ chosen, ∀ r, Registry.builtin.build p.1 p.2 = .ok r →
      ∃ e ∈ Registry.builtinEntries, e.identifier = p.1 ∧ e.create p.2 = .ok r := by
    intro p hp r hr
    obtain ⟨e, he, hid, hrule⟩ := hholds.exists_rule_of_mem_selection hchosen hp
    rw [Registry.build, Registry.builtin, hrule] at hr
    exact ⟨e, Registry.mem_of_mem_acceptedOf he, hid, hr⟩
  constructor
  · intro r hr
    obtain ⟨p, hp, hr⟩ := Except.exists_of_mapM_eq_ok hactive r hr
    obtain ⟨e, he, -, hr⟩ := hbuilt p hp r hr
    exact ⟨e, he, _, hr⟩
  · have hsorted := Registry.pairwise_selection hchosen
    refine Except.pairwise_of_mapM_eq_ok hactive (hsorted.imp_of_mem fun ha hb hlt x y hx hy => ?_)
    obtain ⟨e, he, hid, hx⟩ := hbuilt _ ha x hx
    obtain ⟨f, hf, hid', hy⟩ := hbuilt _ hb y hy
    rw [Registry.description_of_create he hx, Registry.description_of_create hf hy]
    intro name hename hfname
    rw [← hid, ← hid', Registry.eq_of_mem_identifiers he hf hename hfname] at hlt
    exact lt_irrefl _ hlt

end Linter

namespace SuperfluousDisableCommand

variable {results : List (Rule × List Violation)} {known : List String} {v : Violation}
  {s : DisableSpan}

/-- A violation says that it is for nothing that a directive disables a rule under a name. -/
def IsReport (v : Violation) (name : String) : Prop :=
  v.reason = some (unknownMessage name) ∨ v.reason = some (idleMessage name)

theorem mem_find_iff {u : SourceUnit} :
    v ∈ find u results known ↔ ∃ s ∈ u.regions.spans, check results known s = some v := by
  unfold find Violation.sort
  rw [(List.mergeSort_perm ..).mem_iff, List.mem_filterMap]

/-- What is reported about a span stands at its directive and is about its rule. -/
theorem of_check_eq_some (h : check results known s = some v) :
    v.position = s.origin ∧ IsReport v s.rule := by
  unfold check at h
  split at h
  · cases h
    exact ⟨rfl, .inl rfl⟩
  · split at h
    · cases h
    · split at h
      · cases h
      · cases h
        exact ⟨rfl, .inr rfl⟩

/-- A report stands at a directive that names the rule it is about. -/
theorem exists_command_of_mem_find {source : String} {u : SourceUnit}
    (h : SourceUnit.ofText source = .ok u) (hv : v ∈ find u results known) :
    ∃ c ∈ u.commands, v.position = c.offset ∧ ∃ name ∈ c.rules.names, IsReport v name := by
  obtain ⟨s, hs, hcheck⟩ := mem_find_iff.mp hv
  obtain ⟨hposition, hreport⟩ := of_check_eq_some hcheck
  obtain ⟨c, hc, horigin, hrule, -⟩ := SourceUnit.exists_command_of_mem_spans h hs
  exact ⟨c, hc, hposition.trans horigin, s.rule, hrule, hreport⟩

/-- **Where reports stand**: each report stands at a directive that disables, and that names the
rule the report is about, unless some directive enables a rule on a line and the span that starts
where this line ends is found to be superfluous. -/
theorem find_stands_at_disables_iff {source : String} {u : SourceUnit}
    (h : SourceUnit.ofText source = .ok u) (results : List (Rule × List Violation))
    (known : List String) :
    (∀ v ∈ find u results known, ∃ c ∈ u.commands, c.action = .disable ∧ v.position = c.offset ∧
        ∃ name ∈ c.rules.names, IsReport v name) ↔
      ∀ c ∈ u.commands, c.action = .enable → ∀ m line, c.modifier = some m →
        c.target? m u.lineIndex = some line → ∀ s ∈ u.regions.spans, s.origin = c.offset →
          s.start = u.lineIndex.lineEnd line → check results known s = none := by
  constructor
  · intro hfind c hc haction m line _ _ s hs horigin _
    by_contra hne
    obtain ⟨v, hcheck⟩ := Option.ne_none_iff_exists'.mp hne
    obtain ⟨d, hd, hdisable, hposition, -⟩ := hfind v (mem_find_iff.mpr ⟨s, hs, hcheck⟩)
    have hoffset : c.offset = d.offset := by
      rw [← horigin, ← (of_check_eq_some hcheck).1, hposition]
    rw [SourceUnit.eq_of_offset_eq h hc hd hoffset, hdisable] at haction
    cases haction
  · intro henables v hv
    obtain ⟨s, hs, hcheck⟩ := mem_find_iff.mp hv
    obtain ⟨hposition, hreport⟩ := of_check_eq_some hcheck
    obtain ⟨c, hc, horigin, hrule, hdisable | ⟨henable, m, line, hm, hline, hstart⟩⟩ :=
      SourceUnit.exists_command_of_mem_spans h hs
    · exact ⟨c, hc, hdisable, hposition.trans horigin, s.rule, hrule, hreport⟩
    · rw [henables c hc henable m line hm hline s hs horigin hstart] at hcheck
      cases hcheck

/-- A source that enables a rule on a line. -/
def enabledOnLine : String := "let a: Int = 1 //swiftlint:enable:this colon\n"

/-- The end of the line is judged although nothing in the source disables the rule, so that the
directive that enables it is reported when the rule has found nothing. -/
theorem find_stands_at_disables_iff_enabledOnLine :
    ∃ u, SourceUnit.ofText enabledOnLine = .ok u ∧ (∀ c ∈ u.commands, c.action = .enable) ∧
      ¬ ∀ v ∈ find u [(Colon.rule {}, [])] ["colon"], ∃ c ∈ u.commands, c.action = .disable ∧
        v.position = c.offset ∧ ∃ name ∈ c.rules.names, IsReport v name := by
  have hmap : (SourceUnit.ofText enabledOnLine).toOption.map (fun u =>
      (u.commands.all (·.action == .enable),
        u.commands.any fun c => c.offset == 17 && c.modifier == some .this &&
          (c.target? .this u.lineIndex).any (u.lineIndex.lineEnd · == 45),
        (Regions.ofCommands (Command.expandAll u.commands u.lineIndex)).spans)) =
      some (true, true, [⟨"colon", 45, none, 17⟩]) := by
    simp only [Command.expandAll_eq_insertionSort]
    decide +kernel
  obtain ⟨u, hu, hvalues⟩ := Option.map_eq_some_iff.mp hmap
  simp only [Prod.mk.injEq, List.all_eq_true, beq_iff_eq, List.any_eq_true, Bool.and_eq_true,
    Option.any_eq_true] at hvalues
  obtain ⟨henables, ⟨c, hc, ⟨hoffset, hthis⟩, line, hline, hstop⟩, hspans⟩ := hvalues
  have h : SourceUnit.ofText enabledOnLine = .ok u := Except.toOption_eq_some.mp hu
  rw [← (SourceUnit.regions_eq h).2] at hspans
  refine ⟨u, h, henables, fun hdisables => ?_⟩
  have hnone := (find_stands_at_disables_iff h [(Colon.rule {}, [])] ["colon"]).mp hdisables c hc
    (henables c hc) .this line hthis hline ⟨"colon", 45, none, 17⟩ (by rw [hspans]; simp)
    hoffset.symm hstop.symm
  have hreported : check [(Colon.rule {}, [])] ["colon"] ⟨"colon", 45, none, 17⟩ ≠ none := by decide
  exact hreported hnone

/-! ### Directives without effect -/

theorem unknownMessage_ne_idleMessage (name other : String) :
    unknownMessage name ≠ idleMessage other := by
  intro h
  have hfirst := congrArg (·.toList.head?) h
  simp [unknownMessage, idleMessage, toString] at hfirst

theorem idleMessage_injective {name other : String} (h : idleMessage name = idleMessage other) :
    name = other := by
  have hchars := congrArg String.toList h
  simpa [idleMessage, toString, String.toList_inj] using hchars

/-- A directive is found to have no effect when the first rule with the name has no violation in
the span. -/
theorem of_check_eq_idle {offset : Nat} {name : String} {severity : Option Severity}
    (h : check results known s = some ⟨offset, some (idleMessage name), severity⟩) :
    s.origin = offset ∧ s.rule = name ∧ ∃ r vs, (r, vs) ∈ results ∧
      name ∈ r.description.identifiers ∧ ∀ v ∈ vs, s.contains v.position = false := by
  unfold check at h
  split at h
  · rw [Option.some.injEq, Violation.mk.injEq, Option.some.injEq] at h
    exact absurd h.2.1 (unknownMessage_ne_idleMessage _ _)
  · split at h
    · cases h
    · rename_i r vs hfind
      split at h
      · cases h
      · rename_i hnone
        rw [Option.some.injEq, Violation.mk.injEq, Option.some.injEq] at h
        obtain ⟨horigin, hmessage, -⟩ := h
        have hrule := idleMessage_injective hmessage
        refine ⟨horigin, hrule, r, vs, List.mem_of_find?_eq_some hfind, ?_, ?_⟩
        · simpa [hrule] using List.find?_some hfind
        · simpa using hnone

end SuperfluousDisableCommand

namespace Linter

open SuperfluousDisableCommand (find idleMessage)

variable {l : Linter} {u : SourceUnit}

/-- The diagnostics of all rules but the one about directives without effect. -/
def plainReports (l : Linter) (u : SourceUnit) : List Diagnostic :=
  (l.analyze u).filter (·.rule != SuperfluousDisableCommand.description.identifier)

theorem plainReports_eq (l : Linter) (u : SourceUnit) :
    l.plainReports u =
      Diagnostic.sort ((l.results u).flatMap fun (r, vs) => diagnostics u r vs) := by
  have hplain : ((l.results u).flatMap fun (r, vs) => diagnostics u r vs).filter
      (·.rule != SuperfluousDisableCommand.description.identifier) =
      (l.results u).flatMap fun (r, vs) => diagnostics u r vs := by
    refine List.filter_eq_self.mpr fun d hd => ?_
    obtain ⟨⟨r, vs⟩, hr, hd⟩ := List.mem_flatMap.mp hd
    obtain ⟨r', hr', heq⟩ := List.mem_map.mp hr
    cases heq
    obtain ⟨v, -, rfl⟩ := List.mem_map.mp hd
    simpa [isSuperfluousRule, Diagnostic.ofViolation] using (List.mem_filter.mp hr').2
  have hsuperfluous : ∀ r, l.rules.find? isSuperfluousRule = some r → ∀ vs,
      (diagnostics u r vs).filter
        (·.rule != SuperfluousDisableCommand.description.identifier) = [] := by
    intro r hr vs
    refine List.filter_eq_nil_iff.mpr (List.forall_mem_map.mpr fun v _ => ?_)
    simpa [isSuperfluousRule, Diagnostic.ofViolation] using List.find?_some hr
  unfold plainReports analyze Diagnostic.sort
  rw [StableSort.filter_mergeSort Diagnostic.before_trans Diagnostic.before_total,
    List.filter_append, hplain]
  cases hfind : l.rules.find? isSuperfluousRule with
  | none => rw [List.filter_nil, List.append_nil]
  | some r => rw [hsuperfluous r hfind, List.append_nil]

/-- **Reports of directives without effect**: taking a name out of a directive that was found to
have no effect on the rule leaves the diagnostics of all other rules as they are, if what the
directive did to the rule is over where its span ends. -/
theorem plainReports_withoutName {source : String} (h : SourceUnit.ofText source = .ok u)
    (hl : l.IsBuiltin) {c : Command} (hc : c ∈ u.commands) (haction : c.action = .disable)
    {name : String} (hidle : ⟨c.offset, some (idleMessage name), none⟩ ∈ find u (l.results u) l.known)
    (hends : u.EndsForGood c.offset name) :
    l.plainReports (u.withoutName c.offset name) = l.plainReports u := by
  obtain ⟨s, hs, hcheck⟩ := SuperfluousDisableCommand.mem_find_iff.mp hidle
  obtain ⟨horigin, rfl, r₀, vs₀, hr₀, hname₀, hnone⟩ :=
    SuperfluousDisableCommand.of_check_eq_idle hcheck
  have hsymm : Std.Symm fun r s : Rule =>
      ∀ name ∈ r.description.identifiers, name ∉ s.description.identifiers :=
    ⟨fun _ _ h name hs hr => h name hr hs⟩
  have hresults : l.results (u.withoutName c.offset s.rule) = l.results u := by
    refine List.map_congr_left fun r hr => ?_
    rw [SourceUnit.withoutName, hl.violations_congr (List.mem_filter.mp hr).1]
  rw [plainReports_eq, plainReports_eq, hresults]
  congr 1
  refine List.flatMap_congr fun p hr => ?_
  obtain ⟨r, vs⟩ := p
  show diagnostics _ r vs = diagnostics _ r vs
  unfold diagnostics SourceUnit.disabledRegions
  dsimp only
  congr 1
  refine List.filter_congr fun v hv => congrArg Bool.not ?_
  rw [SourceUnit.isSuppressed_withoutName h hc haction hs horigin hends]
  intro hname
  -- the only rule with the name has no violation in the span
  have hsame : r = r₀ ∧ vs = vs₀ := by
    obtain ⟨r', hr', heq'⟩ := List.mem_map.mp hr
    obtain ⟨r₁, hr₁, heq₁⟩ := List.mem_map.mp hr₀
    cases heq'
    cases heq₁
    have heq : r = r₀ := by
      by_contra hne
      exact hl.names.forall (List.mem_filter.mp hr').1 (List.mem_filter.mp hr₁).1 hne _ hname hname₀
    exact ⟨heq, by rw [heq]⟩
  exact hnone v (hsame.2 ▸ hv)

/-- A source that disables a rule up to where it is enabled again, which is in front of what the
rule finds. -/
def disabledInVain : String :=
  "//swiftlint:disable colon\nlet a: Int = 1\n//swiftlint:enable colon\nlet b:Int = 2\n"

/-- The rules of the two kinds that take part. -/
def colonOnly : Linter := ofRules [Colon.rule {}, SuperfluousDisableCommand.rule .warning]

/-- The directive is found to have no effect, and without it the rule is reported as before. -/
theorem plainReports_withoutName_disabledInVain :
    ∃ u, SourceUnit.ofText disabledInVain = .ok u ∧
      ⟨2, some (idleMessage "colon"), none⟩ ∈ find u (colonOnly.results u) colonOnly.known ∧
      u.EndsForGood 2 "colon" ∧
      colonOnly.plainReports (u.withoutName 2 "colon") = colonOnly.plainReports u := by
  have hmap : (SourceUnit.ofText disabledInVain).toOption.map (fun u =>
      (Command.expandAll u.commands u.lineIndex,
        u.commands.any fun c => c.offset == 2 && c.action == .disable,
        (Colon.edits {} u.root).map (·.position))) =
      some ([⟨.disable, ⟨false, ["colon"]⟩, 2, 2, .file⟩, ⟨.enable, ⟨false, ["colon"]⟩, 43, 43, .file⟩],
        true, [71]) := by
    simp only [Command.expandAll_eq_insertionSort]
    decide +kernel
  obtain ⟨u, hu, hvalues⟩ := Option.map_eq_some_iff.mp hmap
  simp only [Prod.mk.injEq, List.any_eq_true, Bool.and_eq_true, beq_iff_eq] at hvalues
  obtain ⟨hcommands, ⟨c, hc, hoffset, haction⟩, hedits⟩ := hvalues
  have h : SourceUnit.ofText disabledInVain = .ok u := Except.toOption_eq_some.mp hu
  have hspans : u.regions.spans = [⟨"colon", 2, some 43, 2⟩] := by
    rw [(SourceUnit.regions_eq h).2, hcommands]
    decide
  have hviolations : colonOnly.violations u (Colon.rule {}) = [.plain 71] := by
    have hfound : (Colon.edits {} u.root).map (fun e => Violation.plain e.position) =
        [.plain 71] := by
      simpa using congrArg (List.map Violation.plain) hedits
    show Violation.sort ((Colon.edits {} u.root).map fun e => Violation.plain e.position) = _
    rw [hfound]
    exact List.mergeSort_singleton _
  have hresults : colonOnly.results u = [(Colon.rule {}, [.plain 71])] := by
    rw [← hviolations]
    rfl
  have hidle : ⟨2, some (idleMessage "colon"), none⟩ ∈
      find u (colonOnly.results u) colonOnly.known := by
    refine SuperfluousDisableCommand.mem_find_iff.mpr ⟨⟨"colon", 2, some 43, 2⟩, ?_, ?_⟩
    · rw [hspans]
      exact List.mem_cons_self
    · rw [hresults]
      decide
  have hends : u.EndsForGood 2 "colon" := by
    intro front a later hsplit horigin haction
    rw [hcommands] at hsplit
    rcases front with _ | ⟨_, _ | ⟨_, _ | _⟩⟩
    · cases hsplit
      intro middle stop back hlater _ _
      rcases middle with _ | ⟨_, _ | _⟩
      · cases hlater
        exact ⟨rfl, by simp⟩
      · cases hlater
      · cases hlater
    · cases hsplit
      cases haction
    · cases hsplit
    · cases hsplit
  have hbuiltin : colonOnly.IsBuiltin := by
    refine ⟨?_, by unfold colonOnly; decide⟩
    intro r hr
    rcases List.mem_pair.mp hr with rfl | rfl
    · exact ⟨Colon.entry, by simp [Registry.builtinEntries], none, rfl⟩
    · exact ⟨SuperfluousDisableCommand.entry, by simp [Registry.builtinEntries], none, rfl⟩
  have hunchanged : colonOnly.plainReports (u.withoutName c.offset "colon") =
      colonOnly.plainReports u :=
    plainReports_withoutName h hbuiltin hc haction (by rwa [hoffset]) (by rwa [hoffset])
  rw [hoffset] at hunchanged
  exact ⟨u, h, hidle, hends, hunchanged⟩

end Linter

end SwiftTidy
