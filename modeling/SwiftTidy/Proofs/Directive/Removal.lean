import SwiftTidy.Proofs.Directive.Alike
import SwiftTidy.Proofs.Directive.Overlap

/-!
# Where the disabling of a rule ends, and taking a name out of a directive

The spans of a file are read off its commands: each command that disables rules opens one for every
rule it names, which a later command may end (`mem_disableSpans_iff`).  The commands that disable
come from two kinds of directives (`exists_command_of_mem_spans`): those that disable, and those that
enable rules on one line, which are disabled again where the line ends.

Where a directive disables a rule, taking the rule out of it changes where the rule is disabled.
Outside of the span of the directive for the rule it changes nothing, as long as what the directive
did is over where the span ends (`EndsForGood`, `isSuppressed_withoutName`).  This is so behind the
span of a plain directive that ends at a plain one, with no line left open (`agree_of_file`), and
behind the line of any other directive that is alone on it (`agree_of_line`).
-/

namespace SwiftTidy

/-! ### Where the disabling of a rule starts and ends -/

namespace Regions

/-- The span that a command opens for one rule, given the commands behind it. -/
def spanOf (c : AnchoredCommand) (rule : String) (later : List AnchoredCommand) : DisableSpan :=
  ⟨rule, c.offset, (later.find? (endsSpan c rule)).map (·.offset), c.origin⟩

/-- The spans are those of the commands that disable rules by name. -/
theorem mem_disableSpans_iff {commands : List AnchoredCommand} {s : DisableSpan} :
    s ∈ disableSpans commands ↔
      ∃ front c later, commands = front ++ c :: later ∧ c.action = .disable ∧
        ∃ rule ∈ c.rules.names, s = spanOf c rule later := by
  induction commands with
  | nil => simp [disableSpans]
  | cons a cs ih =>
    rw [disableSpans, List.mem_append, ih]
    constructor
    · rintro (hs | ⟨front, c, later, rfl, hc⟩)
      · split at hs
        · rename_i haction
          obtain ⟨rule, hrule, rfl⟩ := List.mem_map.mp hs
          exact ⟨[], a, cs, rfl, by simpa using haction, rule, hrule, rfl⟩
        · cases hs
      · exact ⟨a :: front, c, later, rfl, hc⟩
    · rintro ⟨front, c, later, hsplit, haction, rule, hrule, rfl⟩
      cases front with
      | nil =>
        cases hsplit
        left
        rw [if_pos (by simpa using haction)]
        exact List.mem_map_of_mem hrule
      | cons b front =>
        cases hsplit
        exact .inr ⟨front, c, later, rfl, haction, rule, hrule, rfl⟩

end Regions

namespace SourceUnit

variable {source : String} {u : SourceUnit}

/-- Directives at the same offset are the same. -/
theorem eq_of_offset_eq (h : ofText source = .ok u) {c d : Command} (hc : c ∈ u.commands)
    (hd : d ∈ u.commands) (hoffset : c.offset = d.offset) : c = d := by
  have hnodup : (u.commands.map (·.offset)).Nodup :=
    List.pairwise_map.mpr ((commands_pairwise h).imp Nat.ne_of_lt)
  exact List.inj_on_of_nodup_map hnodup hc hd hoffset

/-- A span is that of a directive that names the rule.  The directive disables, or it enables the
rule on a line and the span starts where the line ends. -/
theorem exists_command_of_mem_spans (h : ofText source = .ok u) {s : DisableSpan}
    (hs : s ∈ u.regions.spans) :
    ∃ c ∈ u.commands, s.origin = c.offset ∧ s.rule ∈ c.rules.names ∧
      (c.action = .disable ∨
        c.action = .enable ∧ ∃ m line, c.modifier = some m ∧
          c.target? m u.lineIndex = some line ∧ s.start = u.lineIndex.lineEnd line) := by
  rw [(regions_eq h).2] at hs
  obtain ⟨front, a, later, hsplit, haction, rule, hrule, rfl⟩ := Regions.mem_disableSpans_iff.mp hs
  have ha : a ∈ Command.expandAll u.commands u.lineIndex := by
    rw [hsplit]
    exact List.mem_append_cons_self
  obtain ⟨c, hc, hac⟩ := Command.mem_expandAll.mp ha
  obtain ⟨horigin, hrules, -⟩ := Command.of_mem_expand hac
  refine ⟨c, hc, horigin, hrules ▸ hrule, ?_⟩
  cases hc' : c.action with
  | disable => exact .inl rfl
  | enable =>
    right
    rcases Command.expand_cases c u.lineIndex with
      ⟨-, hexpand⟩ | ⟨-, hexpand⟩ | ⟨m, line, hm, hline, hexpand⟩
    · -- a plain directive has one command, which does what the directive says
      rw [hexpand, List.mem_singleton] at hac
      rw [hac, hc'] at haction
      cases haction
    · rw [hexpand] at hac
      cases hac
    · rw [hexpand, List.mem_pair] at hac
      rcases hac with rfl | rfl
      · rw [hc'] at haction
        cases haction
      · exact ⟨rfl, m, line, hm, hline, rfl⟩

end SourceUnit

/-! ### The commands of one directive -/

/-- Commands of the same directive are the start and the end of its line, in this order. -/
def AnchoredCommand.InOrder (a b : AnchoredCommand) : Prop :=
  a.origin = b.origin → a.scope = .lineStart ∧ b.scope = .lineEnd ∧ a.rules = b.rules

theorem AnchoredCommand.InOrder.distinct {a b : AnchoredCommand} (h : a.InOrder b) :
    a.Distinct b := by
  intro horigin
  obtain ⟨ha, hb, -⟩ := h horigin
  rw [ha, hb]
  exact Scope.noConfusion

/-- Two elements of a list without repetition stand in one order only. -/
theorem not_sublist_swap {α : Type} {l : List α} {x y : α} (hnodup : l.Nodup)
    (hxy : [x, y].Sublist l) : ¬ [y, x].Sublist l := by
  intro hyx
  obtain ⟨r₁, r₂, rfl, hx, hy⟩ := List.cons_sublist_iff.mp hxy
  obtain ⟨q₁, q₂, hsplit, hy', hx'⟩ := List.cons_sublist_iff.mp hyx
  have hy := List.singleton_sublist.mp hy
  have hx' := List.singleton_sublist.mp hx'
  have hdisjoint := (List.nodup_append.mp hnodup).2.2
  have hdisjoint' := (List.nodup_append.mp (hsplit ▸ hnodup)).2.2
  rcases List.append_eq_append_iff.mp hsplit with ⟨rest, rfl, -⟩ | ⟨rest, rfl, -⟩
  · exact hdisjoint' x (List.mem_append_left _ hx) x hx' rfl
  · exact hdisjoint y (List.mem_append_left _ hy') y hy rfl

/-- Where directives are in order, so are their commands. -/
theorem Command.expandAll_inOrder {cs : List Command}
    (hsorted : cs.Pairwise fun c d => c.offset < d.offset) (text : String) :
    (expandAll cs (.ofText text)).Pairwise AnchoredCommand.InOrder := by
  have hdistinct := expandAll_distinct hsorted (.ofText text)
  have hnodup : (expandAll cs (.ofText text)).Nodup :=
    hdistinct.imp fun h heq => h (congrArg _ heq) (congrArg _ heq)
  refine List.pairwise_iff_forall_sublist.mpr fun {a b} hab horigin => ?_
  have hscopes := List.pairwise_iff_forall_sublist.mp hdistinct hab horigin
  obtain ⟨c, hc, ha⟩ := mem_expandAll.mp (hab.subset (List.mem_cons_self (a := a)))
  obtain ⟨c', hc', hb⟩ := mem_expandAll.mp (hab.subset (List.mem_cons_of_mem a List.mem_cons_self))
  have hnodupOffsets : (cs.map (·.offset)).Nodup :=
    List.pairwise_map.mpr (hsorted.imp Nat.ne_of_lt)
  have heq : c = c' := List.inj_on_of_nodup_map hnodupOffsets hc hc'
    (by rw [← (of_mem_expand ha).1, ← (of_mem_expand hb).1, horigin])
  subst heq
  rcases expand_cases c (.ofText text) with ⟨-, hexpand⟩ | ⟨-, hexpand⟩ | ⟨m, line, -, -, hexpand⟩
  · rw [hexpand, List.mem_singleton] at ha hb
    rw [ha, hb] at hscopes
    exact absurd rfl hscopes
  · rw [hexpand] at ha
    cases ha
  · have hsublist := expand_sublist_expandAll text hc
    rw [hexpand] at ha hb hsublist
    rw [List.mem_pair] at ha hb
    rcases ha with rfl | rfl <;> rcases hb with rfl | rfl
    · exact absurd rfl hscopes
    · exact ⟨rfl, rfl, rfl⟩
    · exact absurd hab (not_sublist_swap hnodup hsublist)
    · exact absurd rfl hscopes

namespace SweepState

variable {s : SweepState} {c d : AnchoredCommand}
  {commands : List AnchoredCommand}

/-! ### Lines that are over -/

theorem foldl_openAfter_zero {origin : Nat}
    (h : ∀ c ∈ commands, c.scope = .lineStart → c.origin ≠ origin) :
    commands.foldl (openAfter origin) 0 = 0 := by
  induction commands with
  | nil => rfl
  | cons c cs ih =>
    obtain ⟨hc, hcs⟩ := List.forall_mem_cons.mp h
    have hzero : openAfter origin 0 c = 0 := by
      unfold openAfter
      split
      · rfl
      · rename_i hscope
        exact if_neg (hc hscope)
      · exact ite_self 0
    rw [List.foldl_cons, hzero, ih hcs]

/-- A line that has ended is not open any more. -/
theorem ne_origin_of_lineEnd (hordered : commands.Pairwise AnchoredCommand.InOrder)
    (hd : d ∈ commands) (hend : d.scope = .lineEnd) :
    ∀ e ∈ (commands.foldl SweepState.step start).pendingLines, e.1 ≠ d.origin := by
  obtain ⟨front, back, rfl⟩ := List.append_of_mem hd
  obtain ⟨hfront, hback, -⟩ := List.pairwise_append.mp hordered
  -- at most one line of the directive is open in front of its end, and none is started behind it
  have hone : ((front.foldl SweepState.step start).pendingLines.countP (·.1 == d.origin)) ≤ 1 := by
    have hnodup := pendingLines_nodup (hfront.imp AnchoredCommand.InOrder.distinct)
    have hcount := List.nodup_iff_count_le_one.mp hnodup d.origin
    rwa [List.count_eq_countP, List.countP_map] at hcount
  have hzero : ((front ++ d :: back).foldl SweepState.step start).pendingLines.countP
      (·.1 == d.origin) = 0 := by
    rw [List.foldl_append, List.foldl_cons, countP_pendingLines_foldl, countP_pendingLines_step]
    have hclosed : openAfter d.origin
        ((front.foldl SweepState.step start).pendingLines.countP (·.1 == d.origin)) d = 0 := by
      simp only [openAfter, hend, if_true]
      omega
    rw [hclosed]
    refine foldl_openAfter_zero fun c hc hstart horigin => ?_
    have hlater := (List.pairwise_cons.mp hback).1 c hc horigin.symm
    rw [hend] at hlater
    cases hlater.1
  intro e he
  simpa using List.countP_eq_zero.mp hzero e he

/-- What an open line recorded, the start of the line was about. -/
theorem exists_start_of_mem_pendingLines {e : Nat × Action × RuleSet}
    (he : e ∈ (commands.foldl SweepState.step start).pendingLines) :
    ∃ a ∈ commands, a.scope = .lineStart ∧ a.origin = e.1 ∧
      ∀ j, e.2.2.has j = true → a.isAbout j = true := by
  induction commands using List.reverseRecOn with
  | nil => cases he
  | append_singleton cs c ih =>
    rw [List.foldl_append, List.foldl_cons, List.foldl_nil] at he
    have hold : e ∈ (cs.foldl SweepState.step start).pendingLines →
        ∃ a ∈ cs ++ [c], a.scope = .lineStart ∧ a.origin = e.1 ∧
          ∀ j, e.2.2.has j = true → a.isAbout j = true := by
      intro he
      obtain ⟨a, ha, hstart⟩ := ih he
      exact ⟨a, List.mem_append_left _ ha, hstart⟩
    cases hscope : c.scope with
    | file =>
      rw [pendingLines_step_file hscope] at he
      exact hold he
    | lineStart =>
      obtain ⟨changed, hlines, hchanged⟩ :=
        pendingLines_step_lineStart (s := cs.foldl SweepState.step start) hscope
      rw [hlines, List.mem_append, List.mem_singleton] at he
      rcases he with he | rfl
      · exact hold he
      · refine ⟨c, by simp, hscope, rfl, fun j hj => ?_⟩
        rw [hchanged, Bool.and_eq_true] at hj
        exact hj.1
    | lineEnd =>
      rcases close_cases c.origin (cs.foldl SweepState.step start).pendingLines with
        ⟨hclose, -⟩ | ⟨⟨action, changed⟩, rest, hclose, hperm⟩
      · rw [step_lineEnd_of_none hscope hclose] at he
        exact hold he
      · rw [(step_lineEnd hscope hclose).1] at he
        exact hold (hperm.mem_iff.mpr (List.mem_cons_of_mem _ he))

/-- Where no two open lines have the same origin, closing a line finds it. -/
theorem close_of_mem {lines : List (Nat × Action × RuleSet)} {origin : Nat} {change : Action × RuleSet}
    (hnodup : (lines.map (·.1)).Nodup) (h : (origin, change) ∈ lines) :
    ∃ rest, close origin lines = some (change, rest) := by
  rcases close_cases origin lines with ⟨-, hnone⟩ | ⟨change', rest, hclose, hperm⟩
  · exact absurd rfl (hnone _ h)
  · have heq : (origin, change) = (origin, change') :=
      List.inj_on_of_nodup_map hnodup h (hperm.mem_iff.mpr List.mem_cons_self) rfl
    exact ⟨rest, by rw [hclose, (Prod.mk.inj heq).2]⟩

/-! ### Behind the span of a directive -/

variable {name : String} {front middle : List AnchoredCommand} {stop : AnchoredCommand}

/-- From a command on that is not the end of a line, the sweeps with a name and without it in the
directive of this command are alike. -/
theorem alike_without (name : String) (opened : Nat → Prop)
    (hordered : (front ++ c :: middle).Pairwise AnchoredCommand.InOrder)
    (hscope : c.scope ≠ .lineEnd)
    (hstart : ∀ a ∈ c :: middle, a.scope = .lineStart → a.isAbout (.named name) = true →
      opened a.origin) :
    Alike (.named name) False opened ((front ++ c :: middle).foldl SweepState.step start)
      (((front ++ c :: middle).map (·.without c.origin name)).foldl SweepState.step start) := by
  have hfront : front.map (·.without c.origin name) = front :=
    AnchoredCommand.map_without_of_ne fun a ha horigin =>
      hscope ((List.pairwise_append.mp hordered).2.2 a ha c List.mem_cons_self horigin).2.1
  rw [List.map_append, hfront, List.foldl_append, List.foldl_append]
  exact (Alike.refl (.named name) True opened _).foldl hstart

/-- Behind a plain directive that sets a name, the sweeps with the name and without it in an earlier
plain directive agree, if every line about the name that was started in between is over. -/
theorem agree_of_file
    (hordered : (front ++ c :: (middle ++ [stop])).Pairwise AnchoredCommand.InOrder)
    (hscope : c.scope = .file) (hstop : stop.scope = .file)
    (habout : stop.isAbout (.named name) = true)
    (hclosed : ∀ a ∈ middle, a.scope = .lineStart → a.isAbout (.named name) = true →
      ∃ d ∈ middle, d.scope = .lineEnd ∧ d.origin = a.origin) :
    Agree (((front ++ c :: middle).foldl SweepState.step start).step stop)
      ((((front ++ c :: middle).map (·.without c.origin name)).foldl SweepState.step start).step
        (stop.without c.origin name)) := by
  have hne : stop.origin ≠ c.origin := fun horigin => by
    have hpair := (List.pairwise_cons.mp (List.pairwise_append.mp hordered).2.1).1 stop (by simp)
      horigin.symm
    rw [hscope] at hpair
    cases hpair.1
  have hinitial : (front ++ c :: middle).Pairwise AnchoredCommand.InOrder := by
    refine hordered.sublist ?_
    simp
  have halike := alike_without name
    (fun o => ∃ a ∈ middle, a.scope = .lineStart ∧ a.isAbout (.named name) = true ∧
      a.origin = o) hinitial (by simp [hscope]) (by
        refine List.forall_mem_cons.mpr ⟨fun hstart => ?_, fun a ha hstart ha' => ?_⟩
        · rw [hscope] at hstart
          cases hstart
        · exact ⟨a, ha, hstart, ha', rfl⟩)
  have hset := halike.step True (stop.alikeBut_without c.origin name)
    (fun _ _ => ⟨by rw [AnchoredCommand.without_of_ne hne], .inl habout⟩)
    (fun hend => by rw [hstop] at hend; cases hend)
    (fun hstart => by rw [hstop] at hstart; cases hstart)
  refine hset.agree (hset.disabled _ fun _ => trivial) ?_
  rw [pendingLines_step_file hstop]
  rintro e he ⟨a, ha, hstart, ha', horigin⟩
  obtain ⟨d, hd, hend, hda⟩ := hclosed a ha hstart ha'
  refine ne_origin_of_lineEnd hinitial (d := d) ?_ hend e he (horigin.symm.trans hda.symm)
  exact List.mem_append_right _ (List.mem_cons_of_mem _ hd)

/-- Where nothing but plain directives that enable is about a name, and no line ends that recorded
it, the name stays as it is unless one of these directives enables it. -/
theorem has_foldl_of_enables {i : RuleName}
    (hcommands : ∀ a ∈ commands, a.scope ≠ .lineEnd → a.isAbout i = true → a.action = .enable)
    (hscopes : ∀ a ∈ commands, a.scope = .lineStart → a.isAbout i = false)
    (hends : ∀ e ∈ s.pendingLines, e.2.2.has i = true →
      ∀ a ∈ commands, a.scope = .lineEnd → a.origin ≠ e.1) :
    (commands.foldl SweepState.step s).disabled.has i =
      (s.disabled.has i && !commands.any fun a => a.scope == .file && a.isAbout i) := by
  induction commands generalizing s with
  | nil => simp
  | cons c cs ih =>
    obtain ⟨hc, hcs⟩ := List.forall_mem_cons.mp hcommands
    obtain ⟨hstart, hstarts⟩ := List.forall_mem_cons.mp hscopes
    have hlater : ∀ e ∈ s.pendingLines, e.2.2.has i = true →
        ∀ a ∈ cs, a.scope = .lineEnd → a.origin ≠ e.1 :=
      fun e he hhas a ha => hends e he hhas a (List.mem_cons_of_mem _ ha)
    rw [List.foldl_cons, List.any_cons]
    cases hscope : c.scope with
    | file =>
      have hne : c.scope ≠ .lineEnd := by simp [hscope]
      rw [ih hcs hstarts (by rwa [pendingLines_step_file hscope]), has_step_of_ne_lineEnd hne]
      by_cases habout : c.isAbout i = true
      · rw [if_pos habout, hc hne habout, habout]
        simp
      · simp [Bool.eq_false_iff.mpr habout]
    | lineStart =>
      have hne : c.scope ≠ .lineEnd := by simp [hscope]
      have hnot := hstart hscope
      -- the start of a line is not about the name, so it records nothing of it
      obtain ⟨changed, hlines, hchanged⟩ := pendingLines_step_lineStart (s := s) hscope
      rw [ih hcs hstarts ?_, has_step_of_ne_lineEnd hne, hnot]
      · simp
      · rw [hlines, List.forall_mem_append]
        refine ⟨hlater, fun e he hhas => ?_⟩
        rw [List.mem_singleton.mp he, hchanged, hnot] at hhas
        cases hhas
    | lineEnd =>
      rcases close_cases c.origin s.pendingLines with
        ⟨hclose, -⟩ | ⟨⟨action, changed⟩, rest, hclose, hperm⟩
      · rw [step_lineEnd_of_none hscope hclose, ih hcs hstarts hlater]
        rfl
      · obtain ⟨hlines, hhas⟩ := step_lineEnd hscope hclose
        -- a line that recorded the name does not end among these commands
        have hchanged : changed.has i = false := by
          by_contra hchanged
          exact hends (c.origin, action, changed) (hperm.mem_iff.mpr List.mem_cons_self)
            (by simpa using hchanged) c List.mem_cons_self hscope rfl
        rw [ih hcs hstarts ?_, hhas, hchanged]
        · rfl
        · rw [hlines]
          exact fun e he => hlater e (hperm.mem_iff.mpr (List.mem_cons_of_mem _ he))

/-- Behind the line of a directive that disables rules a name is as it was in front, unless a plain
directive on the line enables it, if nothing else on the line is about the name. -/
theorem has_behind_line {i : RuleName} {e : AnchoredCommand}
    (hnodup : ((commands.foldl SweepState.step (s.step c)).pendingLines.map (·.1)).Nodup)
    (hscope : c.scope = .lineStart) (haction : c.action = .disable) (hend : e.scope = .lineEnd)
    (horigin : e.origin = c.origin)
    (hcommands : ∀ a ∈ commands, a.scope ≠ .lineEnd → a.isAbout i = true → a.action = .enable)
    (hscopes : ∀ a ∈ commands, a.scope = .lineStart → a.isAbout i = false)
    (hends : ∀ line ∈ s.pendingLines, line.2.2.has i = true →
      ∀ a ∈ commands, a.scope = .lineEnd → a.origin ≠ line.1)
    (hne : ∀ a ∈ commands, a.scope = .lineEnd → a.origin ≠ c.origin) :
    ((commands.foldl SweepState.step (s.step c)).step e).disabled.has i =
      (s.disabled.has i && !commands.any fun a => a.scope == .file && a.isAbout i) := by
  obtain ⟨changed, hlines, hchanged⟩ := pendingLines_step_lineStart (s := s) hscope
  have hopen : (e.origin, c.action, changed) ∈
      (commands.foldl SweepState.step (s.step c)).pendingLines := by
    rw [horigin]
    refine mem_pendingLines_foldl ?_ hne
    rw [hlines]
    exact List.mem_append_right _ List.mem_cons_self
  obtain ⟨rest, hclose⟩ := close_of_mem hnodup hopen
  rw [(step_lineEnd hend hclose).2, has_foldl_of_enables hcommands hscopes ?_,
    has_step_of_ne_lineEnd (by simp [hscope]), hchanged, haction]
  · -- what the start of the line changed is changed back
    cases c.isAbout i <;> cases s.disabled.has i <;> simp
  · rw [hlines, List.forall_mem_append]
    refine ⟨hends, fun line hline _ => ?_⟩
    rw [List.mem_singleton.mp hline]
    exact hne

/-- Behind the line of a directive that disables a name on it, the sweeps with the name and without
it in this directive agree, if nothing on the line is about the name but plain directives that
enable it. -/
theorem agree_of_line
    (hordered : (front ++ c :: (middle ++ [stop])).Pairwise AnchoredCommand.InOrder)
    (hscope : c.scope = .lineStart) (haction : c.action = .disable)
    (hstop : stop.scope = .lineEnd) (horigin : stop.origin = c.origin)
    (hquiet : ∀ a ∈ middle, a.rules.all = true ∨ a.rules.has (.named name) = true →
      a.scope = .file ∧ a.action = .enable) :
    Agree (((front ++ c :: middle).foldl SweepState.step start).step stop)
      ((((front ++ c :: middle).map (·.without c.origin name)).foldl SweepState.step start).step
        (stop.without c.origin name)) := by
  have hinitial : (front ++ c :: middle).Pairwise AnchoredCommand.InOrder := by
    refine hordered.sublist ?_
    simp
  obtain ⟨-, hlater, hfront⟩ := List.pairwise_append.mp hordered
  obtain ⟨hbehind, hmiddle⟩ := List.pairwise_cons.mp hlater
  have hne : ∀ a ∈ middle, a.scope = .lineEnd → a.origin ≠ c.origin := by
    intro a ha hend hac
    have hpair := (List.pairwise_append.mp hmiddle).2.2 a ha stop (by simp) (hac.trans horigin.symm)
    rw [hend] at hpair
    cases hpair.1
  have habout : ∀ a : AnchoredCommand, a.isAbout (.named name) = true →
      a.rules.all = true ∨ a.rules.has (.named name) = true := by
    intro a ha
    simp only [AnchoredCommand.isAbout, Bool.or_eq_true, Bool.and_eq_true] at ha
    exact ha.elim .inr fun ha => .inl ha.2
  have hstarts : ∀ a ∈ middle, a.scope = .lineStart → a.isAbout (.named name) = false := by
    intro a ha hstart
    by_contra htrue
    rw [(hquiet a ha (habout a (by simpa using htrue))).1] at hstart
    cases hstart
  -- inside the line the sweeps may differ in the name alone
  have halike := alike_without name (· = c.origin) hinitial (by simp [hscope])
    (List.forall_mem_cons.mpr ⟨fun _ _ => rfl, fun a ha hstart ha' => by
      rw [hstarts a ha hstart] at ha'
      cases ha'⟩)
  -- both sweeps come back to the value in front of the line
  have hvalue : ∀ d : AnchoredCommand, d.scope = .lineStart → d.action = .disable →
      d.origin = c.origin → ∀ e : AnchoredCommand, e.scope = .lineEnd → e.origin = c.origin →
      (((middle.foldl SweepState.step ((front.foldl SweepState.step start).step d)).pendingLines.map
        (·.1)).Nodup) →
      ((middle.foldl SweepState.step ((front.foldl SweepState.step start).step d)).step
        e).disabled.has (.named name) =
      ((front.foldl SweepState.step start).disabled.has (.named name) &&
        !middle.any fun a => a.scope == .file && a.isAbout (.named name)) := by
    intro d hd hdisable hdc e he hec hnodup
    refine has_behind_line hnodup hd hdisable he (hec.trans hdc.symm) ?_ hstarts ?_ (hdc ▸ hne)
    · exact fun a ha _ ha' => (hquiet a ha (habout a ha')).2
    · intro line hline hhas a ha hend haline
      obtain ⟨b, hb, -, hbline, hbabout⟩ := exists_start_of_mem_pendingLines hline
      have hpair := hfront b hb a (by simp [ha]) (hbline.trans haline.symm)
      have hplain := (hquiet a ha (hpair.2.2 ▸ habout b (hbabout _ hhas))).1
      rw [hend] at hplain
      cases hplain
  have hmapMiddle : middle.map (·.without c.origin name) = middle := by
    refine AnchoredCommand.map_without_of_ne fun a ha hac => ?_
    exact hne a ha (hbehind a (by simp [ha]) hac.symm).2.1 hac
  have hmapFront : front.map (·.without c.origin name) = front := by
    refine AnchoredCommand.map_without_of_ne fun a ha hac => ?_
    have hend := (hfront a ha c List.mem_cons_self hac).2.1
    rw [hscope] at hend
    cases hend
  -- the end of the line takes back what its start did, in both sweeps
  have hnodup := pendingLines_nodup (hinitial.imp AnchoredCommand.InOrder.distinct)
  have hnodup' := hnodup
  rw [map_origin_of_forall₂ (fun _ _ h => h.1) halike.pendingLines] at hnodup'
  have hnext := halike.step False (stop.alikeBut_without c.origin name)
    (fun _ => False.elim) (fun _ => False.elim) (fun hstart => by rw [hstop] at hstart; cases hstart)
  refine hnext.agree ?_ ?_
  · rw [List.map_append, List.map_cons, hmapFront, hmapMiddle] at hnodup' ⊢
    rw [List.foldl_append, List.foldl_cons] at hnodup hnodup' ⊢
    rw [List.foldl_append, List.foldl_cons, hvalue c hscope haction rfl stop hstop horigin hnodup,
      hvalue _ (by simpa using hscope) (by simpa using haction) (by simp) _ (by simpa using hstop)
        (by simpa using horigin) hnodup']
  · intro e he
    have hended := ne_origin_of_lineEnd hordered (d := stop) (by simp) hstop e
    rw [horigin] at hended
    refine hended ?_
    rw [← List.cons_append, ← List.append_assoc, List.foldl_append]
    exact he

end SweepState

/-! ### Outside of the span of a directive -/

namespace Regions

open SweepState

/-- What a command does to a rule is over where its span for the rule ends.

The span of a plain directive is ended by a plain directive, and each line about the rule that starts
in the span ends in it.  On the line of any other directive only plain directives that enable it are
about the rule. -/
def EndsForGood (c : AnchoredCommand) (rule : String) (later : List AnchoredCommand) : Prop :=
  ∀ middle stop back, later = middle ++ stop :: back → (∀ a ∈ middle, endsSpan c rule a = false) →
    endsSpan c rule stop = true →
    if c.scope = .lineStart then
      ∀ a ∈ middle, a.rules.covers [rule] = true → a.scope = .file ∧ a.action = .enable
    else
      stop.scope = .file ∧ ∀ a ∈ middle, a.scope = .lineStart → a.isAbout (.named rule) = true →
        ∃ d ∈ middle, d.scope = .lineEnd ∧ d.origin = a.origin

variable {commands front later : List AnchoredCommand} {c : AnchoredCommand} {name : String}

/-- Sweeping some commands without a name gives the same for all other names. -/
theorem has_without_of_ne (commands : List AnchoredCommand) (origin : Nat) {j : RuleName}
    (hj : j ≠ .named name) :
    ((commands.map (·.without origin name)).foldl step start).disabled.has j =
      (commands.foldl step start).disabled.has j := by
  have halike : Alike (.named name) False (fun _ => True) (commands.foldl step start)
      ((commands.map (·.without origin name)).foldl step start) :=
    (Alike.refl (.named name) True _ start).foldl fun _ _ _ _ => trivial
  exact (halike.disabled j fun heq => absurd heq hj).symm

/-- Where the span of a command ends and what the command did is over, the sweeps with a name and
without it in the command agree. -/
theorem agree_of_endsForGood {middle back : List AnchoredCommand} {stop : AnchoredCommand}
    (hordered : (front ++ c :: (middle ++ stop :: back)).Pairwise AnchoredCommand.InOrder)
    (haction : c.action = .disable) (hscope : c.scope ≠ .lineEnd)
    (hends : EndsForGood c name (middle ++ stop :: back))
    (hmiddle : ∀ a ∈ middle, endsSpan c name a = false) (hstop : endsSpan c name stop = true) :
    Agree ((front ++ c :: (middle ++ [stop])).foldl step start)
        (((front ++ c :: (middle ++ [stop])).map (·.without c.origin name)).foldl step start) ∧
      ∀ a ∈ back, a.origin ≠ c.origin := by
  have hends := hends middle stop back rfl hmiddle hstop
  obtain ⟨-, hlater, -⟩ := List.pairwise_append.mp hordered
  obtain ⟨hbehind, hrest⟩ := List.pairwise_cons.mp hlater
  have hback := (List.pairwise_cons.mp (List.pairwise_append.mp hrest).2.1).1
  have hordered' : (front ++ c :: (middle ++ [stop])).Pairwise AnchoredCommand.InOrder := by
    refine hordered.sublist ?_
    simp
  have hfold : Agree (((front ++ c :: middle).foldl step start).step stop)
      ((((front ++ c :: middle).map (·.without c.origin name)).foldl step start).step
        (stop.without c.origin name)) →
      Agree ((front ++ c :: (middle ++ [stop])).foldl step start)
        (((front ++ c :: (middle ++ [stop])).map (·.without c.origin name)).foldl step start) := by
    have hlist : front ++ c :: (middle ++ [stop]) = (front ++ c :: middle) ++ [stop] := by simp
    rw [hlist]
    generalize front ++ c :: middle = commands
    rw [List.map_append, List.foldl_append, List.foldl_append]
    exact id
  have hnone : c.scope = .file → ∀ a ∈ middle ++ stop :: back, a.origin ≠ c.origin := by
    intro hfile a ha horigin
    have hstart := (hbehind a ha horigin.symm).1
    rw [hfile] at hstart
    cases hstart
  -- the span of a plain directive ends at one that takes it back, that of a line at its end
  unfold endsSpan at hstop
  cases hkind : c.scope with
  | file =>
    rw [if_neg (by simp [hkind])] at hends
    simp only [hkind, Bool.and_eq_true, beq_iff_eq] at hstop
    obtain ⟨⟨henable, -⟩, hcovers⟩ := hstop
    have habout : stop.isAbout (.named name) = true := by
      rw [RuleSet.covers_eq] at hcovers
      simpa [RuleName.namesOf, AnchoredCommand.isAbout, henable, RuleSet.has, or_comm] using hcovers
    exact ⟨hfold (agree_of_file hordered' hkind hends.1 habout hends.2),
      fun a ha => hnone hkind a (by simp [ha])⟩
  | lineStart =>
    rw [if_pos hkind] at hends
    simp only [hkind, Bool.and_eq_true, beq_iff_eq] at hstop
    refine ⟨hfold (agree_of_line hordered' hkind haction hstop.1 hstop.2 fun a ha hrules =>
      hends a ha ?_), fun a ha horigin => ?_⟩
    · rw [RuleSet.covers_eq]
      simpa [RuleName.namesOf, RuleSet.has] using hrules
    · have hstart := (hback a ha (hstop.2.trans horigin.symm)).1
      rw [hstop.1] at hstart
      cases hstart
  | lineEnd => exact absurd hkind hscope

/-- **Without a name in a directive**, a rule is disabled at the same offsets as before, but for
those in the span of the directive for this name, if what the directive did is over where the span
ends. -/
theorem covers_upTo_without (hsorted : Sorted (front ++ c :: later))
    (hordered : (front ++ c :: later).Pairwise AnchoredCommand.InOrder)
    (haction : c.action = .disable) (hscope : c.scope ≠ .lineEnd)
    (hends : EndsForGood c name later) (ids : List String) {offset : Nat}
    (hout : name ∈ ids → (spanOf c name later).contains offset = false) :
    (upTo ((front ++ c :: later).map (·.without c.origin name)) offset).disabled.covers ids =
      (upTo (front ++ c :: later) offset).disabled.covers ids := by
  have hbehind : ∀ a ∈ later, c.offset ≤ a.offset :=
    (List.pairwise_cons.mp (List.pairwise_append.mp hsorted).2.1).1
  have hmap : ∀ commands : List AnchoredCommand,
      (commands.map (·.without c.origin name)).filter (·.offset ≤ offset) =
        (commands.filter (·.offset ≤ offset)).map (·.without c.origin name) := by
    intro commands
    rw [List.filter_map]
    congr 1
    exact List.filter_congr fun a _ => by simp
  rw [RuleSet.covers_eq, RuleSet.covers_eq, Bool.eq_iff_iff, List.any_eq_true, List.any_eq_true]
  refine exists_congr fun j => and_congr_right fun hj => ?_
  rw [upTo, upTo, hmap]
  by_cases hname : j = .named name
  · subst hname
    have hname : name ∈ ids := by simpa [RuleName.namesOf] using hj
    by_cases hfront : offset < c.offset
    · -- in front of the directive no command is changed
      have hnone : (c :: later).filter (·.offset ≤ offset) = [] := by
        refine List.filter_eq_nil_iff.mpr (List.forall_mem_cons.mpr ⟨by simpa using hfront, ?_⟩)
        intro a ha
        have hle := hbehind a ha
        simp only [decide_eq_true_eq, not_le]
        omega
      rw [List.filter_append, hnone, List.append_nil, AnchoredCommand.map_without_of_ne]
      intro a ha horigin
      have ha := (List.mem_filter.mp ha).1
      exact hscope ((List.pairwise_append.mp hordered).2.2 a ha c List.mem_cons_self horigin).2.1
    · have hcontains := hout hname
      rw [DisableSpan.contains, spanOf, Bool.and_eq_false_iff, decide_eq_false_iff_not] at hcontains
      have hstop := hcontains.resolve_left (not_not.mpr (Nat.le_of_not_lt hfront))
      cases hfind : later.find? (endsSpan c name) with
      | none =>
        rw [hfind] at hstop
        cases hstop
      | some stop =>
        rw [hfind, Option.map_some, beforeStop, decide_eq_false_iff_not, Nat.not_lt] at hstop
        obtain ⟨hends', middle, back, rfl, hmiddle⟩ := List.find?_eq_some_iff_append.mp hfind
        obtain ⟨hagree, hback⟩ := agree_of_endsForGood hordered haction hscope hends
          (fun a ha => by simpa using hmiddle a ha) hends'
        have hlist : front ++ c :: (middle ++ stop :: back) =
            (front ++ c :: (middle ++ [stop])) ++ back := by simp
        -- all commands up to the end of the span are within the offset
        have hwithin : (front ++ c :: (middle ++ [stop])).filter (·.offset ≤ offset) =
            front ++ c :: (middle ++ [stop]) := by
          refine List.filter_eq_self.mpr fun a ha => decide_eq_true (le_trans ?_ hstop)
          rw [← List.cons_append, ← List.append_assoc] at ha hsorted
          rcases List.mem_append.mp ha with ha | ha
          · exact (List.pairwise_append.mp hsorted).2.2 a ha stop List.mem_cons_self
          · rw [List.mem_singleton.mp ha]
        have hsame : back.map (·.without c.origin name) = back :=
          AnchoredCommand.map_without_of_ne hback
        rw [hlist, List.filter_append, hwithin, List.map_append, List.foldl_append,
          List.foldl_append, ← hmap, hsame]
        rw [(hagree.foldl (back.filter (·.offset ≤ offset))).disabled]
  · rw [has_without_of_ne _ _ hname]

end Regions

/-! ### Sources without a name in a directive -/

namespace Command

/-- A directive without a name. -/
def without (c : Command) (name : String) : Command := { c with rules := c.rules.without name }

theorem expand_without (c : Command) (name : String) (ix : LineIndex) :
    (c.without name).expand ix = (c.expand ix).map (·.without c.offset name) := by
  have hmodifier : (c.without name).modifier = c.modifier := rfl
  have htarget : ∀ m, (c.without name).target? m ix = c.target? m ix := fun _ => rfl
  unfold expand
  rw [hmodifier]
  cases c.modifier with
  | none => simp [without, AnchoredCommand.without]
  | some m =>
    dsimp only
    rw [htarget]
    cases c.target? m ix with
    | none => rfl
    | some line => simp [without, AnchoredCommand.without]

/-- The commands of directives without a name in one of them. -/
theorem expandAll_without (cs : List Command) (offset : Nat) (name : String) (ix : LineIndex) :
    expandAll (cs.map fun c => if c.offset = offset then c.without name else c) ix =
      (expandAll cs ix).map (·.without offset name) := by
  have hexpand : ∀ c : Command, (if c.offset = offset then c.without name else c).expand ix =
      (c.expand ix).map (·.without offset name) := by
    intro c
    by_cases heq : c.offset = offset
    · rw [if_pos heq, expand_without, heq]
    · rw [if_neg heq, AnchoredCommand.map_without_of_ne]
      exact fun a ha => (of_mem_expand ha).1 ▸ heq
  unfold expandAll
  rw [List.map_mergeSort (s := fun a b => a.offset ≤ b.offset) (by simp), List.flatMap_map]
  simp only [hexpand, List.map_flatMap]

end Command

namespace SourceUnit

/-- A source in which the directive at an offset does not give a name. -/
def withoutName (u : SourceUnit) (offset : Nat) (name : String) : SourceUnit :=
  let commands := u.commands.map fun c => if c.offset = offset then c.without name else c
  { u with
    commands := commands
    regions := Regions.ofCommands (Command.expandAll commands u.lineIndex) }

variable {source : String} {u : SourceUnit} {c : Command} {s : DisableSpan}

/-- What every disabling command of a directive did to a rule is over where its span for the rule
ends. -/
def EndsForGood (u : SourceUnit) (offset : Nat) (name : String) : Prop :=
  ∀ front a later, Command.expandAll u.commands u.lineIndex = front ++ a :: later →
    a.origin = offset → a.action = .disable → Regions.EndsForGood a name later

/-- Without the name in a directive that disables it, a rule is disabled at the same offsets as
before, but for those in the span, if what the directive did is over where the span ends. -/
theorem isSuppressed_withoutName (h : ofText source = .ok u) (hc : c ∈ u.commands)
    (haction : c.action = .disable) (hs : s ∈ u.regions.spans) (horigin : s.origin = c.offset)
    (hends : u.EndsForGood c.offset s.rule) (ids : List String) {offset : Nat}
    (hout : s.rule ∈ ids → s.contains offset = false) :
    ((u.withoutName c.offset s.rule).regions.disabledRegions ids).isSuppressed offset =
      (u.regions.disabledRegions ids).isSuppressed offset := by
  obtain ⟨hindex, hregions⟩ := regions_eq h
  rw [hregions] at hs
  obtain ⟨front, a, later, hsplit, hdisable, rule, hrule, rfl⟩ := Regions.mem_disableSpans_iff.mp hs
  have ha : a ∈ Command.expandAll u.commands u.lineIndex := by
    rw [hsplit]
    exact List.mem_append_cons_self
  obtain ⟨d, hd, had⟩ := Command.mem_expandAll.mp ha
  have hdc : d = c := eq_of_offset_eq h hd hc ((Command.of_mem_expand had).1.symm.trans horigin)
  subst hdc
  -- the end of the line of a directive that disables does not disable
  have hscope : a.scope ≠ .lineEnd := by
    intro hend
    rcases Command.expand_cases d u.lineIndex with
      ⟨-, hexpand⟩ | ⟨-, hexpand⟩ | ⟨m, line, -, -, hexpand⟩
    · rw [hexpand, List.mem_singleton] at had
      rw [had] at hend
      cases hend
    · rw [hexpand] at had
      cases had
    · rw [hexpand, List.mem_pair] at had
      rcases had with rfl | rfl
      · cases hend
      · rw [haction] at hdisable
        cases hdisable
  have horigin : a.origin = d.offset := horigin
  have hsorted := Command.expandAll_sorted u.commands u.lineIndex
  have hordered : (Command.expandAll u.commands u.lineIndex).Pairwise AnchoredCommand.InOrder := by
    rw [hindex]
    exact Command.expandAll_inOrder (commands_pairwise h) _
  rw [withoutName, hregions, Regions.isSuppressed_disabledRegions (Command.expandAll_sorted ..),
    Regions.isSuppressed_disabledRegions hsorted,
    Regions.isSuppressed_ofCommands (Command.expandAll_sorted ..),
    Regions.isSuppressed_ofCommands hsorted, Command.expandAll_without, ← horigin]
  have hgood := hends front a later hsplit horigin hdisable
  rw [hsplit] at hsorted hordered ⊢
  exact Regions.covers_upTo_without hsorted hordered hdisable hscope hgood ids hout

end SourceUnit

end SwiftTidy
