import Mathlib.Data.List.Induction
import SwiftTidy.Proofs.Directive.Collect
import SwiftTidy.Proofs.Directive.LineScope
import SwiftTidy.Proofs.Parse.WellKinded

/-!
# Sources with plain directives only, and sources that only disable rules

Without line-scoped directives the sweep keeps, for every name, what the last command about it did:
a name is disabled when some command disables it and no later one enables it (`has_foldl_iff`).
Enabling everything is about every name, while enabling a rule by its name leaves a `disable all`
as it is.  `isSuppressed_iff_of_plain` says so of the directives of a source, which are found in
the order of their offsets.

Where every directive disables rules, the sweep turns a name on again only at the end of the line
that turned it off: a name is recorded by at most one open line (`Owned`), and once this line ends
the name is on, although other directives may still disable it there.  A directive `Holds` a name
when the name was on as it came, or when what turned the name off before is not over yet.

`isSuppressed_iff_of_disables` says that a rule is suppressed where a directive in effect holds one
of its names.  Directives for neighbouring lines that are given in the opposite order show that
being in effect is not enough: the later line starts before the end of the earlier one is processed,
and records nothing.
-/

namespace SwiftTidy

/-- Whether a command enables a name, by itself or with everything else. -/
def AnchoredCommand.Enables (c : AnchoredCommand) (i : RuleName) : Prop :=
  c.action = .enable ∧ (c.rules.has i = true ∨ c.rules.has .all = true)

namespace SweepState

variable {c : AnchoredCommand} {i : RuleName}

/-- A command that is not the end of a line disables the names it is given, or enables some, and
leaves the other names as they are. -/
theorem has_step_iff (hscope : c.scope ≠ .lineEnd) (s : SweepState) :
    (s.step c).disabled.has i = true ↔
      (c.action = .disable ∧ c.rules.has i = true) ∨ (s.disabled.has i = true ∧ ¬ c.Enables i) := by
  rw [has_step_of_ne_lineEnd hscope, AnchoredCommand.isAbout, AnchoredCommand.Enables]
  have hall : c.rules.has .all = c.rules.all := rfl
  cases c.action with
  | disable => cases hrules : c.rules.has i <;> simp
  | enable => cases hrules : c.rules.has i <;> cases hwild : c.rules.all <;> simp [hall, hwild]

/-- Where no line ends, a name is disabled when a command disables it and no later one enables it,
or when it was disabled before and no command enables it. -/
theorem has_foldl_iff {commands : List AnchoredCommand}
    (hscope : ∀ c ∈ commands, c.scope ≠ .lineEnd) (s : SweepState) (i : RuleName) :
    (commands.foldl step s).disabled.has i = true ↔
      (∃ front c back, commands = front ++ c :: back ∧
        (c.action = .disable ∧ c.rules.has i = true) ∧ ∀ d ∈ back, ¬ d.Enables i) ∨
      (s.disabled.has i = true ∧ ∀ d ∈ commands, ¬ d.Enables i) := by
  induction commands generalizing s with
  | nil => simp
  | cons c cs ih =>
    obtain ⟨hc, hcs⟩ := List.forall_mem_cons.mp hscope
    rw [List.foldl_cons, ih hcs, has_step_iff hc, List.forall_mem_cons]
    constructor
    · rintro (⟨front, d, back, rfl, hd⟩ | ⟨hdisables | ⟨hhas, henables⟩, hlater⟩)
      · exact .inl ⟨c :: front, d, back, rfl, hd⟩
      · exact .inl ⟨[], c, cs, rfl, hdisables, hlater⟩
      · exact .inr ⟨hhas, henables, hlater⟩
    · rintro (⟨front, d, back, hsplit, hdisables, hlater⟩ | ⟨hhas, henables, hlater⟩)
      · cases front with
        | nil =>
          cases hsplit
          exact .inr ⟨.inl hdisables, hlater⟩
        | cons b front =>
          cases hsplit
          exact .inl ⟨front, d, back, rfl, hdisables, hlater⟩
      · exact .inr ⟨.inr ⟨hhas, henables⟩, hlater⟩

end SweepState

namespace Command

/-- The command of a plain directive. -/
def anchored (c : Command) : AnchoredCommand := ⟨c.action, c.rules, c.offset, c.offset, .file⟩

/-- Plain directives in order are swept as they come. -/
theorem expandAll_of_plain {cs : List Command} (ix : LineIndex) (hplain : ∀ c ∈ cs, c.modifier = none)
    (hsorted : cs.Pairwise fun c d => c.offset < d.offset) :
    expandAll cs ix = cs.map anchored := by
  have hexpand : cs.flatMap (·.expand ix) = cs.map anchored := by
    rw [List.map_eq_flatMap]
    refine List.flatMap_congr fun c hc => ?_
    rw [expand, hplain c hc]
    rfl
  rw [expandAll, hexpand]
  refine List.mergeSort_of_pairwise (List.pairwise_map.mpr (hsorted.imp fun h => ?_))
  exact decide_eq_true (Nat.le_of_lt h)

/-- The commands of plain directives are split where the directives are. -/
theorem exists_split_map_iff (cs : List Command) (P Q : AnchoredCommand → Prop) :
    (∃ front c back, cs.map anchored = front ++ c :: back ∧ P c ∧ ∀ d ∈ back, Q d) ↔
      ∃ front c back, cs = front ++ c :: back ∧ P c.anchored ∧ ∀ d ∈ back, Q d.anchored := by
  constructor
  · rintro ⟨front, c, back, hsplit, hP, hQ⟩
    obtain ⟨front, rest, rfl, rfl, hrest⟩ := List.map_eq_append_iff.mp hsplit
    obtain ⟨c, back, rfl, rfl, rfl⟩ := List.map_eq_cons_iff.mp hrest
    exact ⟨front, c, back, rfl, hP, fun d hd => hQ _ (List.mem_map_of_mem hd)⟩
  · rintro ⟨front, c, back, rfl, hP, hQ⟩
    refine ⟨_, _, _, List.map_append, hP, fun d hd => ?_⟩
    obtain ⟨e, he, rfl⟩ := List.mem_map.mp hd
    exact hQ e he

/-- In directives that are in order, those behind one are those with greater offsets. -/
theorem exists_split_iff {cs : List Command} (hsorted : cs.Pairwise fun c d => c.offset < d.offset)
    (P Q : Command → Prop) :
    (∃ front c back, cs = front ++ c :: back ∧ P c ∧ ∀ d ∈ back, Q d) ↔
      ∃ c ∈ cs, P c ∧ ∀ d ∈ cs, c.offset < d.offset → Q d := by
  constructor
  · rintro ⟨front, c, back, rfl, hc, hback⟩
    refine ⟨c, by simp, hc, fun d hd hlt => ?_⟩
    have hfront := (List.pairwise_append.mp hsorted).2.2
    rcases List.mem_append.mp hd with hd | hd
    · have hgt := hfront d hd c (by simp)
      omega
    · rcases List.mem_cons.mp hd with rfl | hd
      · exact absurd hlt (Nat.lt_irrefl _)
      · exact hback d hd
  · rintro ⟨c, hc, hP, hQ⟩
    obtain ⟨front, back, rfl⟩ := List.append_of_mem hc
    have hback := (List.pairwise_cons.mp (List.pairwise_append.mp hsorted).2.1).1
    exact ⟨front, c, back, rfl, hP, fun d hd => hQ d (by simp [hd]) (hback d hd)⟩

end Command

namespace SourceUnit

variable {source : String} {u : SourceUnit}

/-- The directives of a source are in the order of their offsets. -/
theorem commands_pairwise (h : ofText source = .ok u) :
    u.commands.Pairwise fun c d => c.offset < d.offset := by
  obtain ⟨tree, htree, rfl⟩ := Except.map_eq_ok.mp h
  exact Command.collect_pairwise (wellKinded_parse htree) _

/-- **Plain directives**: where no directive is narrowed to a line, a rule is suppressed at an
offset when one of its names, or `all`, is disabled by a directive up to there, and no later
directive up to there enables this name or everything. -/
theorem isSuppressed_iff_of_plain (h : ofText source = .ok u)
    (hplain : ∀ c ∈ u.commands, c.modifier = none) (ids : List String) (offset : Nat) :
    u.regions.isSuppressed ids offset = true ↔
      ∃ i ∈ RuleName.namesOf ids, ∃ c ∈ u.commands,
        c.action = .disable ∧ c.rules.has i = true ∧ c.offset ≤ offset ∧
        ∀ d ∈ u.commands, c.offset < d.offset → d.offset ≤ offset →
          ¬ (d.action = .enable ∧ (d.rules.has i = true ∨ d.rules.has .all = true)) := by
  have hsorted := commands_pairwise h
  rw [(regions_eq h).2, Regions.isSuppressed_ofCommands (Command.expandAll_sorted ..),
    Command.expandAll_of_plain _ hplain hsorted, RuleSet.covers_eq, List.any_eq_true]
  refine exists_congr fun i => and_congr_right fun _ => ?_
  have hfile : ∀ a ∈ (u.commands.map Command.anchored).filter (·.offset ≤ offset),
      a.scope ≠ .lineEnd := by
    intro a ha
    obtain ⟨c, -, rfl⟩ := List.mem_map.mp (List.mem_filter.mp ha).1
    exact Scope.noConfusion
  rw [SweepState.upTo, SweepState.has_foldl_iff hfile, List.filter_map]
  have hstart : SweepState.start.disabled.has i = false := RuleSet.has_empty i
  rw [Command.exists_split_map_iff _ (fun c => c.action = .disable ∧ c.rules.has i = true),
    Command.exists_split_iff (hsorted.filter _)
      (fun c => c.anchored.action = .disable ∧ c.anchored.rules.has i = true)]
  simp only [hstart, Bool.false_eq_true, false_and, or_false, List.mem_filter, Function.comp_apply,
    decide_eq_true_eq, and_assoc]
  constructor
  · rintro ⟨c, hc, hoffset, haction, hrules, hlater⟩
    exact ⟨c, hc, haction, hrules, hoffset, fun d hd hlt hle => hlater d ⟨hd, hle⟩ hlt⟩
  · rintro ⟨c, hc, haction, hrules, hoffset, hlater⟩
    exact ⟨c, hc, hoffset, haction, hrules, fun d hd hlt => hlater d hd.1 hlt hd.2⟩

/-- A source that disables everything, then enables one rule, and later everything. -/
def liftedByName : String :=
  "//swiftlint:disable all y\n//swiftlint:enable x y\nlet a = 1\n//swiftlint:enable all\n"

/-- Enabling rules by name does not lift `disable all`, for which no directive enables `all` up to
the offset. -/
theorem isSuppressed_iff_of_plain_lifted : ∃ u, ofText liftedByName = .ok u ∧
    (∀ c ∈ u.commands, c.modifier = none) ∧ u.commands.length = 3 ∧
    ∃ i ∈ RuleName.namesOf ["y"], ∃ c ∈ u.commands,
      c.action = .disable ∧ c.rules.has i = true ∧ c.offset ≤ 52 ∧
      ∀ d ∈ u.commands, c.offset < d.offset → d.offset ≤ 52 →
        ¬ (d.action = .enable ∧ (d.rules.has i = true ∨ d.rules.has .all = true)) := by
  have hmap : (ofText liftedByName).toOption.map (fun u =>
      (u.commands.all (·.modifier == none), u.commands.length,
        (Regions.ofCommands (Command.expandAll u.commands u.lineIndex)).isSuppressed ["y"] 52)) =
      some (true, 3, true) := by
    simp only [Command.expandAll_eq_insertionSort]
    decide +kernel
  obtain ⟨u, hu, hvalues⟩ := Option.map_eq_some_iff.mp hmap
  simp only [Prod.mk.injEq, List.all_eq_true, beq_iff_eq] at hvalues
  obtain ⟨hplain, hlength, hsuppressed⟩ := hvalues
  have h : ofText liftedByName = .ok u := Except.toOption_eq_some.mp hu
  rw [← (regions_eq h).2] at hsuppressed
  exact ⟨u, h, hplain, hlength, (isSuppressed_iff_of_plain h hplain ["y"] 52).mp hsuppressed⟩

end SourceUnit

/-- Whether two commands are told apart by their directives or by their places on the line. -/
def AnchoredCommand.Distinct (a b : AnchoredCommand) : Prop :=
  a.origin = b.origin → a.scope ≠ b.scope

namespace SweepState

variable {s : SweepState} {c : AnchoredCommand} {i : RuleName} {commands : List AnchoredCommand}

/-! ### Lines that stay open -/

/-- An open line stays open until an end with its origin comes. -/
theorem mem_pendingLines_step {line : Nat × Action × RuleSet} (hline : line ∈ s.pendingLines)
    (hc : c.scope = .lineEnd → c.origin ≠ line.1) : line ∈ (s.step c).pendingLines := by
  cases hscope : c.scope with
  | file => rwa [pendingLines_step_file hscope]
  | lineStart =>
    obtain ⟨changed, hlines, -⟩ := pendingLines_step_lineStart (s := s) hscope
    rw [hlines]
    exact List.mem_append_left _ hline
  | lineEnd =>
    rcases close_cases c.origin s.pendingLines with
      ⟨hclose, -⟩ | ⟨⟨action, changed⟩, rest, hclose, hperm⟩
    · rwa [step_lineEnd_of_none hscope hclose]
    · rw [(step_lineEnd hscope hclose).1]
      rcases List.mem_cons.mp (hperm.mem_iff.mp hline) with rfl | hrest
      · exact absurd rfl (hc hscope)
      · exact hrest

theorem mem_pendingLines_foldl {line : Nat × Action × RuleSet} (hline : line ∈ s.pendingLines)
    (hends : ∀ c ∈ commands, c.scope = .lineEnd → c.origin ≠ line.1) :
    line ∈ (commands.foldl step s).pendingLines := by
  induction commands generalizing s with
  | nil => exact hline
  | cons c cs ih =>
    obtain ⟨hc, hcs⟩ := List.forall_mem_cons.mp hends
    exact ih (mem_pendingLines_step hline hc) hcs

/-- The open lines are some of those that were started. -/
theorem pendingLines_subperm (commands : List AnchoredCommand) :
    ((commands.foldl step start).pendingLines.map (·.1)).Subperm
      ((commands.filter (·.scope == .lineStart)).map (·.origin)) := by
  induction commands using List.reverseRecOn with
  | nil => exact List.nil_subperm
  | append_singleton cs c ih =>
    rw [List.foldl_append, List.foldl_cons, List.foldl_nil, List.filter_append, List.map_append]
    cases hscope : c.scope with
    | file =>
      rw [pendingLines_step_file hscope]
      exact ih.trans (List.sublist_append_left ..).subperm
    | lineStart =>
      obtain ⟨changed, hlines, -⟩ := pendingLines_step_lineStart (s := cs.foldl step start) hscope
      rw [hlines, List.map_append, List.filter_cons_of_pos (by simp [hscope])]
      exact (List.subperm_append_right [c.origin]).mpr ih
    | lineEnd =>
      refine List.Subperm.trans ?_ (ih.trans (List.sublist_append_left ..).subperm)
      rcases close_cases c.origin (cs.foldl step start).pendingLines with
        ⟨hclose, -⟩ | ⟨⟨action, changed⟩, rest, hclose, hperm⟩
      · rw [step_lineEnd_of_none hscope hclose]
      · rw [(step_lineEnd hscope hclose).1]
        exact ((List.sublist_cons_self _ rest).map _).subperm.trans (hperm.map _).symm.subperm

/-- Where all commands are told apart, no two open lines have the same origin. -/
theorem pendingLines_nodup (hdistinct : commands.Pairwise AnchoredCommand.Distinct) :
    ((commands.foldl step start).pendingLines.map (·.1)).Nodup := by
  obtain ⟨origins, hperm, hsublist⟩ := pendingLines_subperm commands
  refine hperm.nodup_iff.mp (List.Nodup.sublist hsublist ?_)
  refine List.pairwise_map.mpr ((hdistinct.filter _).imp_of_mem fun ha hb hab horigin => ?_)
  have ha := (List.mem_filter.mp ha).2
  have hb := (List.mem_filter.mp hb).2
  rw [beq_iff_eq] at ha hb
  exact hab horigin (ha.trans hb.symm)

/-! ### Who turned a name off -/

/-- Every open line disabled something, and a name is recorded by at most one of them, which had it
turned off. -/
structure Owned (i : RuleName) (s : SweepState) : Prop where
  disables : ∀ line ∈ s.pendingLines, line.2.1 = .disable
  countP_le : s.pendingLines.countP (·.2.2.has i) ≤ if s.disabled.has i then 1 else 0

/-- A command that disables turns its names off and leaves the others as they are. -/
theorem has_step_of_disable (hscope : c.scope ≠ .lineEnd) (haction : c.action = .disable) :
    (s.step c).disabled.has i = (c.rules.has i || s.disabled.has i) := by
  rw [has_step_of_ne_lineEnd hscope, AnchoredCommand.isAbout, haction]
  cases c.rules.has i <;> simp

/-- The start of a line that disables records the names that were on. -/
theorem pendingLines_step_of_disable (hscope : c.scope = .lineStart) (haction : c.action = .disable) :
    ∃ changed, (s.step c).pendingLines = s.pendingLines ++ [(c.origin, .disable, changed)] ∧
      ∀ i, changed.has i = (c.rules.has i && !s.disabled.has i) := by
  obtain ⟨changed, hlines, hchanged⟩ := pendingLines_step_lineStart (s := s) hscope
  rw [haction] at hlines
  refine ⟨changed, hlines, fun i => ?_⟩
  rw [hchanged, AnchoredCommand.isAbout, haction]
  cases c.rules.has i <;> cases s.disabled.has i <;> rfl

theorem Owned.step (h : Owned i s) (hc : c.scope ≠ .lineEnd → c.action = .disable) :
    Owned i (s.step c) := by
  cases hscope : c.scope with
  | file =>
    have hne : c.scope ≠ .lineEnd := by simp [hscope]
    constructor
    · rw [pendingLines_step_file hscope]
      exact h.disables
    · rw [pendingLines_step_file hscope, has_step_of_disable hne (hc hne)]
      refine h.countP_le.trans ?_
      cases c.rules.has i <;> cases s.disabled.has i <;> simp
  | lineStart =>
    have hne : c.scope ≠ .lineEnd := by simp [hscope]
    obtain ⟨changed, hlines, hchanged⟩ :=
      pendingLines_step_of_disable (s := s) hscope (hc hne)
    constructor
    · rw [hlines, List.forall_mem_append]
      exact ⟨h.disables, by simp⟩
    · -- the name is recorded only if it was on, and then no other line records it
      have hcount := h.countP_le
      rw [hlines, List.countP_append, List.countP_singleton, hchanged,
        has_step_of_disable hne (hc hne)]
      revert hcount
      cases c.rules.has i <;> cases s.disabled.has i <;> simp
  | lineEnd =>
    rcases close_cases c.origin s.pendingLines with
      ⟨hclose, -⟩ | ⟨⟨action, changed⟩, rest, hclose, hperm⟩
    · rwa [step_lineEnd_of_none hscope hclose]
    · obtain ⟨hlines, hhas⟩ := step_lineEnd hscope hclose
      have haction : action = .disable :=
        h.disables (c.origin, action, changed) (hperm.mem_iff.mpr (by simp))
      constructor
      · intro line hline
        rw [hlines] at hline
        exact h.disables line (hperm.mem_iff.mpr (List.mem_cons_of_mem _ hline))
      · have hcount := h.countP_le
        rw [hperm.countP_eq, List.countP_cons] at hcount
        rw [hlines, hhas, haction]
        revert hcount
        cases changed.has i <;> cases s.disabled.has i <;> simp

theorem Owned.foldl (h : Owned i s)
    (hcommands : ∀ c ∈ commands, c.scope ≠ .lineEnd → c.action = .disable) :
    Owned i (commands.foldl SweepState.step s) := by
  induction commands generalizing s with
  | nil => exact h
  | cons c cs ih =>
    obtain ⟨hc, hcs⟩ := List.forall_mem_cons.mp hcommands
    exact ih (h.step hc) hcs

theorem Owned.start (i : RuleName) : Owned i SweepState.start :=
  ⟨by simp [SweepState.start], by simp [SweepState.start]⟩

/-- While a name is on, no open line records it. -/
theorem Owned.has_eq_false (h : Owned i s) (hon : s.disabled.has i = false)
    {line : Nat × Action × RuleSet} (hline : line ∈ s.pendingLines) : line.2.2.has i = false := by
  have hcount := h.countP_le
  rw [hon] at hcount
  have hzero := List.countP_eq_zero.mp (Nat.le_zero.mp hcount)
  simpa using hzero line hline

/-! ### Names that stay off -/

/-- A name stays off as long as no line that records it ends. -/
theorem has_foldl_of_not_ended
    (hcommands : ∀ c ∈ commands, c.scope ≠ .lineEnd → c.action = .disable)
    (hoff : s.disabled.has i = true)
    (hends : ∀ line ∈ s.pendingLines, line.2.2.has i = true →
      ∀ c ∈ commands, c.scope = .lineEnd → c.origin ≠ line.1) :
    (commands.foldl step s).disabled.has i = true := by
  induction commands generalizing s with
  | nil => exact hoff
  | cons c cs ih =>
    obtain ⟨hc, hcs⟩ := List.forall_mem_cons.mp hcommands
    have hlater : ∀ line ∈ s.pendingLines, line.2.2.has i = true →
        ∀ c ∈ cs, c.scope = .lineEnd → c.origin ≠ line.1 :=
      fun line hline hhas d hd => hends line hline hhas d (List.mem_cons_of_mem _ hd)
    rw [List.foldl_cons]
    cases hscope : c.scope with
    | file =>
      have hne : c.scope ≠ .lineEnd := by simp [hscope]
      refine ih hcs ?_ ?_
      · rw [has_step_of_disable hne (hc hne), hoff, Bool.or_true]
      · rw [pendingLines_step_file hscope]
        exact hlater
    | lineStart =>
      have hne : c.scope ≠ .lineEnd := by simp [hscope]
      obtain ⟨changed, hlines, hchanged⟩ :=
        pendingLines_step_of_disable (s := s) hscope (hc hne)
      refine ih hcs ?_ ?_
      · rw [has_step_of_disable hne (hc hne), hoff, Bool.or_true]
      · rw [hlines, List.forall_mem_append]
        refine ⟨hlater, fun line hline hhas => ?_⟩
        -- the name was off before, so that this line does not record it
        rw [List.mem_singleton.mp hline, hchanged, hoff] at hhas
        simp at hhas
    | lineEnd =>
      rcases close_cases c.origin s.pendingLines with
        ⟨hclose, -⟩ | ⟨⟨action, changed⟩, rest, hclose, hperm⟩
      · rw [step_lineEnd_of_none hscope hclose]
        exact ih hcs hoff hlater
      · obtain ⟨hlines, hhas⟩ := step_lineEnd hscope hclose
        have hchanged : changed.has i = false := by
          by_contra hchanged
          exact hends (c.origin, action, changed) (hperm.mem_iff.mpr (by simp)) (by simpa using hchanged)
            c (by simp) hscope rfl
        refine ih hcs ?_ ?_
        · rw [hhas, hchanged]
          exact hoff
        · rw [hlines]
          exact fun line hline =>
            hlater line (hperm.mem_iff.mpr (List.mem_cons_of_mem _ hline))

/-- Whether the command of a directive holds a name to the end of the commands: no line that
records the name when the command comes ends behind it. -/
def Holds (commands : List AnchoredCommand) (i : RuleName) (origin : Nat) : Prop :=
  ∃ front a back, commands = front ++ a :: back ∧ a.scope ≠ .lineEnd ∧ a.origin = origin ∧
    ∀ line ∈ (front.foldl step start).pendingLines, line.2.2.has i = true →
      ∀ d ∈ back, d.scope = .lineEnd → d.origin ≠ line.1

/-- Whether a command disables a name for the rest of the commands: it holds the name, and the line
that it starts is not over. -/
def Keeps (i : RuleName) (front : List AnchoredCommand) (a : AnchoredCommand)
    (back : List AnchoredCommand) : Prop :=
  a.scope ≠ .lineEnd ∧ a.rules.has i = true ∧
    (a.scope = .lineStart → ∀ d ∈ back, d.scope = .lineEnd → d.origin ≠ a.origin) ∧
    ∀ line ∈ (front.foldl step start).pendingLines, line.2.2.has i = true →
      ∀ d ∈ back, d.scope = .lineEnd → d.origin ≠ line.1

/-- A name is off when a command keeps it off. -/
theorem has_foldl_of_keeps {front back : List AnchoredCommand} {a : AnchoredCommand}
    (hcommands : ∀ c ∈ front ++ a :: back, c.scope ≠ .lineEnd → c.action = .disable)
    (h : Keeps i front a back) : ((front ++ a :: back).foldl step start).disabled.has i = true := by
  obtain ⟨hscope, hrules, hown, hothers⟩ := h
  have ha := hcommands a (by simp) hscope
  rw [List.foldl_append, List.foldl_cons]
  refine has_foldl_of_not_ended (fun c hc => hcommands c (by simp [hc])) ?_ ?_
  · rw [has_step_of_disable hscope ha, hrules, Bool.true_or]
  · cases hkind : a.scope with
    | file =>
      rw [pendingLines_step_file hkind]
      exact hothers
    | lineStart =>
      obtain ⟨changed, hlines, -⟩ :=
        pendingLines_step_of_disable (s := front.foldl step start) hkind ha
      rw [hlines, List.forall_mem_append]
      refine ⟨hothers, fun line hline _ => ?_⟩
      rw [List.mem_singleton.mp hline]
      exact hown hkind
    | lineEnd => exact absurd hkind hscope

/-- A name that is off was turned off by a command that keeps it off. -/
theorem exists_keeps_of_has (hdistinct : commands.Pairwise AnchoredCommand.Distinct)
    (hcommands : ∀ c ∈ commands, c.scope ≠ .lineEnd → c.action = .disable)
    (hoff : (commands.foldl step start).disabled.has i = true) :
    ∃ front a back, commands = front ++ a :: back ∧ Keeps i front a back ∧
      (front.foldl step start).disabled.has i = false := by
  -- the last command either keeps what was off or turns it off itself
  induction commands using List.reverseRecOn with
  | nil =>
    rw [List.foldl_nil, show start.disabled.has i = false from RuleSet.has_empty i] at hoff
    cases hoff
  | append_singleton cs c ih =>
    have hcs : ∀ d ∈ cs, d.scope ≠ .lineEnd → d.action = .disable :=
      fun d hd => hcommands d (by simp [hd])
    have ih := ih (List.pairwise_append.mp hdistinct).1 hcs
    have howned : Owned i (cs.foldl step start) := (Owned.start i).foldl hcs
    rw [List.foldl_append, List.foldl_cons, List.foldl_nil] at hoff
    by_cases hscope : c.scope = .lineEnd
    · -- the end of a line that does not record the name
      have hbefore : (cs.foldl step start).disabled.has i = true ∧
          ∀ change rest, close c.origin (cs.foldl step start).pendingLines = some (change, rest) →
            change.2.has i = false := by
        rcases close_cases c.origin (cs.foldl step start).pendingLines with
          ⟨hclose, -⟩ | ⟨⟨action, changed⟩, rest, hclose, hperm⟩
        · rw [step_lineEnd_of_none hscope hclose] at hoff
          exact ⟨hoff, fun change rest h => by rw [hclose] at h; cases h⟩
        · have haction : action = .disable :=
            howned.disables (c.origin, action, changed) (hperm.mem_iff.mpr (by simp))
          rw [(step_lineEnd hscope hclose).2, haction] at hoff
          have hchanged : changed.has i = false := by
            by_contra hchanged
            rw [if_pos (by simpa using hchanged)] at hoff
            cases hoff
          rw [hchanged] at hoff
          exact ⟨hoff, fun change rest h => by rw [hclose] at h; cases h; exact hchanged⟩
      obtain ⟨hhas, hclosed⟩ := hbefore
      obtain ⟨front, a, back, rfl, ⟨ha, hrules, hown, hothers⟩, hon⟩ := ih hhas
      have hfront : Owned i (front.foldl step start) :=
        (Owned.start i).foldl fun d hd => hcs d (by simp [hd])
      refine ⟨front, a, back ++ [c], by simp, ⟨ha, hrules, fun hkind => ?_, ?_⟩, hon⟩
      · -- the line that the command starts records the name, and it is the only one of its origin
        obtain ⟨changed, hlines, hchanged⟩ := pendingLines_step_of_disable
          (s := front.foldl step start) hkind (hcs a (by simp) ha)
        have hrecords : changed.has i = true := by rw [hchanged, hrules, hon]; rfl
        have hopen : (a.origin, Action.disable, changed) ∈
            ((front ++ a :: back).foldl step start).pendingLines := by
          rw [List.foldl_append, List.foldl_cons]
          refine mem_pendingLines_foldl ?_ (hown hkind)
          rw [hlines]
          simp
        refine List.forall_mem_append.mpr ⟨hown hkind, fun d hd hend horigin => ?_⟩
        rw [List.mem_singleton.mp hd] at horigin
        rcases close_cases c.origin ((front ++ a :: back).foldl step start).pendingLines with
          ⟨-, hnone⟩ | ⟨change, rest, hclose, hperm⟩
        · exact hnone _ hopen horigin.symm
        · have hnodup := (hperm.map (·.1)).nodup_iff.mp
            (pendingLines_nodup (List.pairwise_append.mp hdistinct).1)
          rcases List.mem_cons.mp (hperm.mem_iff.mp hopen) with heq | hrest
          · have hchange : change = (Action.disable, changed) := congrArg Prod.snd heq.symm
            have hnot := hclosed change rest hclose
            rw [hchange, hrecords] at hnot
            cases hnot
          · refine (List.nodup_cons.mp hnodup).1 ?_
            rw [horigin]
            exact List.mem_map_of_mem (f := (·.1)) hrest
      · intro line hline hrecorded
        rw [hfront.has_eq_false hon hline] at hrecorded
        cases hrecorded
    · have hc := hcommands c (by simp) hscope
      rw [has_step_of_disable hscope hc] at hoff
      by_cases hhas : (cs.foldl step start).disabled.has i = true
      · obtain ⟨front, a, back, rfl, ⟨ha, hrules, hown, hothers⟩, hon⟩ := ih hhas
        -- one more command that is not the end of a line ends nothing
        have hlater : ∀ origin, (∀ d ∈ back, d.scope = .lineEnd → d.origin ≠ origin) →
            ∀ d ∈ back ++ [c], d.scope = .lineEnd → d.origin ≠ origin := fun origin hback =>
          List.forall_mem_append.mpr
            ⟨hback, fun d hd hend => absurd (List.mem_singleton.mp hd ▸ hend) hscope⟩
        exact ⟨front, a, back ++ [c], by simp, ⟨ha, hrules, fun hkind => hlater _ (hown hkind),
          fun line hline hrecorded => hlater _ (hothers line hline hrecorded)⟩, hon⟩
      · rw [Bool.eq_false_iff.mpr hhas, Bool.or_false] at hoff
        have hon : (cs.foldl step start).disabled.has i = false := Bool.eq_false_iff.mpr hhas
        exact ⟨cs, c, [], rfl, ⟨hscope, hoff, by simp, by simp⟩, hon⟩

end SweepState

namespace Command

variable {cs : List Command} {c : Command} {a : AnchoredCommand} {ix : LineIndex}

theorem mem_expandAll : a ∈ expandAll cs ix ↔ ∃ c ∈ cs, a ∈ c.expand ix := by
  rw [expandAll, List.mem_mergeSort, List.mem_flatMap]

/-- Whether a directive is in effect at an offset: from where it stands on, or on its line. -/
def isInEffect (c : Command) (ix : LineIndex) (offset : Nat) : Bool :=
  match c.modifier with
  | none => c.offset ≤ offset
  | some _ => c.isOnTarget ix offset

/-- The commands of a directive are its own, about its rules. -/
theorem of_mem_expand (h : a ∈ c.expand ix) :
    a.origin = c.offset ∧ a.rules = c.rules ∧ (a.scope ≠ .lineEnd → a.action = c.action) := by
  rcases expand_cases c ix with ⟨-, hexpand⟩ | ⟨-, hexpand⟩ | ⟨m, line, -, -, hexpand⟩
  · rw [hexpand, List.mem_singleton] at h
    subst h
    exact ⟨rfl, rfl, fun _ => rfl⟩
  · rw [hexpand] at h
    cases h
  · rw [hexpand, List.mem_cons, List.mem_singleton] at h
    rcases h with rfl | rfl
    · exact ⟨rfl, rfl, fun _ => rfl⟩
    · exact ⟨rfl, rfl, fun h => absurd rfl h⟩

/-- A directive that is not the end of a line is in effect from its command on, and up to the end
of the line that it starts. -/
theorem isInEffect_iff (h : a ∈ c.expand ix) (hscope : a.scope ≠ .lineEnd) {offset : Nat} :
    c.isInEffect ix offset = true ↔
      a.offset ≤ offset ∧ ∀ d ∈ c.expand ix, d.scope = .lineEnd → offset < d.offset := by
  unfold isInEffect isOnTarget
  rcases expand_cases c ix with ⟨hplain, hexpand⟩ | ⟨-, hexpand⟩ | ⟨m, line, hline, htarget, hexpand⟩
  · rw [hexpand, List.mem_singleton] at h
    simp [hplain, hexpand, h]
  · rw [hexpand] at h
    cases h
  · rw [hexpand, List.mem_cons, List.mem_singleton] at h
    rcases h with rfl | rfl
    · simp [hline, hexpand, htarget]
    · exact absurd rfl hscope

/-- Where directives are in order, all their commands are told apart. -/
theorem expandAll_distinct (hsorted : cs.Pairwise fun c d => c.offset < d.offset) (ix : LineIndex) :
    (expandAll cs ix).Pairwise AnchoredCommand.Distinct := by
  have hsymm : ∀ {a b : AnchoredCommand}, a.Distinct b → b.Distinct a :=
    fun h horigin hscope => h horigin.symm hscope.symm
  refine (List.mergeSort_perm _ _).symm.pairwise ?_ hsymm
  refine List.pairwise_flatMap.mpr ⟨fun c _ => ?_, hsorted.imp fun hlt a ha b hb horigin => ?_⟩
  · rcases expand_cases c ix with ⟨-, hexpand⟩ | ⟨-, hexpand⟩ | ⟨m, line, -, -, hexpand⟩
    · rw [hexpand]
      exact List.pairwise_singleton ..
    · rw [hexpand]
      exact List.Pairwise.nil
    · rw [hexpand]
      exact List.pairwise_pair.mpr fun _ => Scope.noConfusion
  · rw [(of_mem_expand ha).1, (of_mem_expand hb).1] at horigin
    omega

/-- The commands of a directive stay in order. -/
theorem expand_sublist_expandAll (text : String) (hc : c ∈ cs) :
    (c.expand (.ofText text)).Sublist (expandAll cs (.ofText text)) := by
  refine List.sublist_mergeSort offset_trans offset_total ?_ ?_
  · rcases expand_cases c (.ofText text) with
      ⟨-, hexpand⟩ | ⟨-, hexpand⟩ | ⟨m, line, -, htarget, hexpand⟩
    · rw [hexpand]
      exact List.pairwise_singleton ..
    · rw [hexpand]
      exact List.Pairwise.nil
    · rw [hexpand]
      exact List.pairwise_pair.mpr (decide_eq_true (lineStart_le_lineEnd_target htarget))
  · rw [List.flatMap_def]
    exact List.sublist_flatten_of_mem (List.mem_map_of_mem hc)

/-- Among commands that are told apart, the end of a line comes behind its start. -/
theorem mem_of_lineEnd {text : String} {offset : Nat} {front back : List AnchoredCommand}
    {d : AnchoredCommand} (hsorted : cs.Pairwise fun c d => c.offset < d.offset)
    (hsplit : (expandAll cs (.ofText text)).filter (·.offset ≤ offset) = front ++ a :: back)
    (hc : c ∈ cs) (ha : a ∈ c.expand (.ofText text)) (hscope : a.scope ≠ .lineEnd)
    (hd : d ∈ c.expand (.ofText text)) (hend : d.scope = .lineEnd) (hle : d.offset ≤ offset) :
    a.scope = .lineStart ∧ d ∈ back := by
  have hdistinct := (expandAll_distinct hsorted (.ofText text)).filter (·.offset ≤ offset)
  rw [hsplit] at hdistinct
  have hfront : a ∉ front := fun hmem =>
    (List.pairwise_append.mp hdistinct).2.2 a hmem a (by simp) rfl rfl
  have haL : a ∈ (expandAll cs (.ofText text)).filter (·.offset ≤ offset) := by
    rw [hsplit]
    simp
  -- a directive with a modifier has two commands, the start of its line and the end
  have hpair : c.expand (.ofText text) = [a, d] ∧ a.scope = .lineStart := by
    rcases expand_cases c (.ofText text) with
      ⟨-, hexpand⟩ | ⟨-, hexpand⟩ | ⟨m, line, -, -, hexpand⟩
    · rw [hexpand, List.mem_singleton] at hd
      rw [hd] at hend
      cases hend
    · rw [hexpand] at hd
      cases hd
    · rw [hexpand, List.mem_cons, List.mem_singleton] at ha hd
      rcases ha with rfl | rfl
      · rcases hd with rfl | rfl
        · cases hend
        · exact ⟨hexpand, rfl⟩
      · exact absurd rfl hscope
  have hsublist := (expand_sublist_expandAll text hc).filter (·.offset ≤ offset)
  rw [hpair.1, hsplit, List.filter_cons_of_pos (by simpa using (List.mem_filter.mp haL).2),
    List.filter_cons_of_pos (by simpa using hle), List.filter_nil] at hsublist
  refine ⟨hpair.2, ?_⟩
  -- both stand in this order among all commands, and the first one is the one at the cut
  obtain ⟨one, two, hparts, hone, htwo⟩ := List.sublist_append_iff.mp hsublist
  cases one with
  | nil =>
    rw [List.nil_append] at hparts
    rw [← hparts] at htwo
    exact List.singleton_sublist.mp (List.cons_sublist_cons.mp htwo)
  | cons b one =>
    have hb : b = a := (List.cons.inj hparts).1.symm
    exact absurd (hb ▸ hone.subset List.mem_cons_self) hfront

end Command

namespace SourceUnit

variable {source : String} {u : SourceUnit}

/-- A directive that is in effect and holds a name keeps it off, and a name that is kept off is
held by a directive in effect. -/
theorem exists_keeps_iff (h : ofText source = .ok u) (i : RuleName) (offset : Nat) :
    (∃ front a back, (Command.expandAll u.commands u.lineIndex).filter (·.offset ≤ offset) =
        front ++ a :: back ∧ SweepState.Keeps i front a back) ↔
      ∃ c ∈ u.commands, c.rules.has i = true ∧ c.isInEffect u.lineIndex offset = true ∧
        SweepState.Holds ((Command.expandAll u.commands u.lineIndex).filter (·.offset ≤ offset)) i
          c.offset := by
  have hsorted := commands_pairwise h
  have hindex := (regions_eq h).1
  -- every command is that of a directive, and within the offset
  have horigin : ∀ {front a back},
      (Command.expandAll u.commands u.lineIndex).filter (·.offset ≤ offset) = front ++ a :: back →
      ∀ d ∈ front ++ a :: back, d.offset ≤ offset ∧ ∃ c ∈ u.commands, d ∈ c.expand u.lineIndex := by
    intro front a back hsplit d hd
    rw [← hsplit, List.mem_filter, decide_eq_true_eq] at hd
    exact ⟨hd.2, Command.mem_expandAll.mp hd.1⟩
  have hnodup : (u.commands.map (·.offset)).Nodup :=
    List.pairwise_map.mpr (hsorted.imp Nat.ne_of_lt)
  constructor
  · rintro ⟨front, a, back, hsplit, hscope, hrules, hown, hothers⟩
    obtain ⟨hle, c, hc, ha⟩ := horigin hsplit a (by simp)
    obtain ⟨hac, hsame, -⟩ := Command.of_mem_expand ha
    refine ⟨c, hc, hsame ▸ hrules, ?_, front, a, back, hsplit, hscope, hac, hothers⟩
    rw [Command.isInEffect_iff ha hscope]
    refine ⟨hle, fun d hd hend => Nat.lt_of_not_le fun hbefore => ?_⟩
    rw [hindex] at hsplit ha hd
    obtain ⟨hstart, hback⟩ :=
      Command.mem_of_lineEnd hsorted hsplit hc ha hscope hd hend hbefore
    exact hown hstart d hback hend ((Command.of_mem_expand hd).1.trans hac.symm)
  · rintro ⟨c, hc, hrules, heffect, front, a, back, hsplit, hscope, hac, hothers⟩
    obtain ⟨-, c', hc', ha⟩ := horigin hsplit a (by simp)
    obtain ⟨hac', hsame, -⟩ := Command.of_mem_expand ha
    have hcc' : c' = c := List.inj_on_of_nodup_map hnodup hc' hc (hac'.symm.trans hac)
    subst hcc'
    refine ⟨front, a, back, hsplit, hscope, hsame ▸ hrules, fun _ d hd hend horig => ?_, hothers⟩
    -- an end of the line within the offset would be that of the directive itself
    obtain ⟨hle, c, hc, hdc⟩ := horigin hsplit d (by simp [hd])
    have hcc' : c = c' :=
      List.inj_on_of_nodup_map hnodup hc hc' ((Command.of_mem_expand hdc).1.symm.trans
        (horig.trans hac'))
    subst hcc'
    have hlt := ((Command.isInEffect_iff ha hscope).mp heffect).2 d hdc hend
    omega

/-- **Sources that only disable**: where every directive disables rules, a rule is suppressed at an
offset when one of its names, or `all`, is disabled by a directive that is in effect there and holds
the name. -/
theorem isSuppressed_iff_of_disables (h : ofText source = .ok u)
    (hdisables : ∀ c ∈ u.commands, c.action = .disable) (ids : List String) (offset : Nat) :
    u.regions.isSuppressed ids offset = true ↔
      ∃ i ∈ RuleName.namesOf ids, ∃ c ∈ u.commands,
        c.rules.has i = true ∧ c.isInEffect u.lineIndex offset = true ∧
        SweepState.Holds ((Command.expandAll u.commands u.lineIndex).filter (·.offset ≤ offset)) i
          c.offset := by
  rw [(regions_eq h).2, Regions.isSuppressed_ofCommands (Command.expandAll_sorted ..),
    RuleSet.covers_eq, List.any_eq_true]
  refine exists_congr fun i => and_congr_right fun _ => ?_
  rw [← exists_keeps_iff h, SweepState.upTo]
  have hdistinct :=
    (Command.expandAll_distinct (commands_pairwise h) u.lineIndex).filter (·.offset ≤ offset)
  have hcommands : ∀ a ∈ (Command.expandAll u.commands u.lineIndex).filter (·.offset ≤ offset),
      a.scope ≠ .lineEnd → a.action = .disable := by
    intro a ha hscope
    obtain ⟨c, hc, hac⟩ := Command.mem_expandAll.mp (List.mem_filter.mp ha).1
    rw [(Command.of_mem_expand hac).2.2 hscope, hdisables c hc]
  constructor
  · intro hoff
    obtain ⟨front, a, back, hsplit, hkeeps, -⟩ :=
      SweepState.exists_keeps_of_has hdistinct hcommands hoff
    exact ⟨front, a, back, hsplit, hkeeps⟩
  · rintro ⟨front, a, back, hsplit, hkeeps⟩
    rw [hsplit] at hcommands ⊢
    exact SweepState.has_foldl_of_keeps hcommands hkeeps

/-- A source that disables a rule for its third line, and then for its second. -/
def neighbours : String :=
  "\n//swiftlint:disable:next x\n//swiftlint:disable:previous x\n"

/-- On its third line the rule is on, although a directive disables it there: when the third line
starts the rule is still disabled for the second, so that the end of the second line enables it. -/
theorem isSuppressed_iff_of_disables_neighbours : ∃ u, ofText neighbours = .ok u ∧
    (∀ c ∈ u.commands, c.action = .disable) ∧ u.regions.isSuppressed ["x"] 29 = false ∧
    ∃ c ∈ u.commands, c.rules.has (.named "x") = true ∧ c.isInEffect u.lineIndex 29 = true ∧
      ¬ SweepState.Holds ((Command.expandAll u.commands u.lineIndex).filter (·.offset ≤ 29))
        (.named "x") c.offset := by
  have hmap : (ofText neighbours).toOption.map (fun u =>
      (u.commands.all (·.action == .disable),
        (Regions.ofCommands (Command.expandAll u.commands u.lineIndex)).isSuppressed ["x"] 29,
        u.commands.any fun c => c.rules.has (.named "x") && c.isInEffect u.lineIndex 29)) =
      some (true, false, true) := by
    simp only [Command.expandAll_eq_insertionSort]
    decide +kernel
  obtain ⟨u, hu, hvalues⟩ := Option.map_eq_some_iff.mp hmap
  simp only [Prod.mk.injEq, List.all_eq_true, beq_iff_eq, List.any_eq_true, Bool.and_eq_true]
    at hvalues
  obtain ⟨hdisables, hon, c, hc, hrules, heffect⟩ := hvalues
  have h : ofText neighbours = .ok u := Except.toOption_eq_some.mp hu
  rw [← (regions_eq h).2] at hon
  refine ⟨u, h, hdisables, hon, c, hc, hrules, heffect, fun hholds => ?_⟩
  have hoff := (isSuppressed_iff_of_disables h hdisables ["x"] 29).mpr
    ⟨.named "x", by simp [RuleName.namesOf], c, hc, hrules, heffect, hholds⟩
  rw [hon] at hoff
  cases hoff

end SourceUnit

end SwiftTidy
