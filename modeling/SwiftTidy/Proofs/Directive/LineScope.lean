import SwiftTidy.Lint.SourceUnit
import SwiftTidy.Proofs.Data.Except
import SwiftTidy.Proofs.Directive.Sweep

/-!
# What line-scoped directives leave behind

The end of a line sets the names that its start changed back to the value they had before.  That is
not always the value that the plain directives leave: another line may have been open by then, or a
plain directive may stand on the line.  `isSuppressed_eq_plain_iff` says exactly when this is seen
at an offset that is on no target line: when the rule `Strays` there.

The sweep is looked at one name at a time.  The starts of lines do not matter, since at such an
offset every line that was started is over (`pendingLines_eq_nil`).  So a name has the value that was
set last, by a plain directive or by the end of a line (`has_upTo_of_linesClosed`); the invariant
`Agrees` says so of every state of the sweep, except on lines that changed the name.
-/

namespace SwiftTidy

namespace SweepState

variable {s : SweepState} {c : AnchoredCommand} {i : RuleName}

/-! ### No line stays open -/

/-- How many lines of one origin are open after one more command. -/
def openAfter (origin n : Nat) (c : AnchoredCommand) : Nat :=
  match c.scope with
  | .file => n
  | .lineStart => if c.origin = origin then n + 1 else n
  | .lineEnd => if c.origin = origin then n - 1 else n

variable {origin : Nat} {commands : List AnchoredCommand}

theorem countP_pendingLines_step (s : SweepState) (c : AnchoredCommand) :
    (s.step c).pendingLines.countP (·.1 == origin) =
      openAfter origin (s.pendingLines.countP (·.1 == origin)) c := by
  unfold openAfter
  cases hscope : c.scope with
  | file => rw [pendingLines_step_file hscope]
  | lineStart =>
    obtain ⟨changed, hlines, -⟩ := pendingLines_step_lineStart (s := s) hscope
    rw [hlines, List.countP_append, List.countP_singleton]
    by_cases horigin : c.origin = origin
    · simp [horigin]
    · simp [horigin]
  | lineEnd =>
    rcases close_cases c.origin s.pendingLines with ⟨hclose, hnone⟩ | ⟨⟨action, changed⟩, rest, hclose, hperm⟩
    · rw [step_lineEnd_of_none hscope hclose]
      by_cases horigin : c.origin = origin
      · have hzero : s.pendingLines.countP (·.1 == origin) = 0 := by
          rw [List.countP_eq_zero]
          intro e he
          simpa [horigin] using hnone e he
        simp only [if_pos horigin, hzero]
      · simp only [if_neg horigin]
    · rw [(step_lineEnd hscope hclose).1, hperm.countP_eq, List.countP_cons]
      by_cases horigin : c.origin = origin
      · simp [horigin]
      · simp [horigin]

theorem countP_pendingLines_foldl (origin : Nat) (s : SweepState)
    (commands : List AnchoredCommand) :
    (commands.foldl step s).pendingLines.countP (·.1 == origin) =
      commands.foldl (openAfter origin) (s.pendingLines.countP (·.1 == origin)) := by
  induction commands generalizing s with
  | nil => rfl
  | cons c cs ih => rw [List.foldl_cons, List.foldl_cons, ih, countP_pendingLines_step]

theorem openAfter_mono {m n : Nat} (h : m ≤ n) (c : AnchoredCommand) :
    openAfter origin m c ≤ openAfter origin n c := by
  unfold openAfter
  split
  · exact h
  · split <;> omega
  · split <;> omega

theorem foldl_openAfter_mono (origin : Nat) (commands : List AnchoredCommand) {m n : Nat}
    (h : m ≤ n) :
    commands.foldl (openAfter origin) m ≤ commands.foldl (openAfter origin) n := by
  induction commands generalizing m n with
  | nil => exact h
  | cons c cs ih => exact ih (openAfter_mono h c)

/-- One more open line at the beginning is at most one more at the end. -/
theorem foldl_openAfter_succ (origin : Nat) (commands : List AnchoredCommand) (n : Nat) :
    commands.foldl (openAfter origin) (n + 1) ≤ commands.foldl (openAfter origin) n + 1 := by
  induction commands generalizing n with
  | nil => exact Nat.le_refl _
  | cons c cs ih =>
    have hstep : openAfter origin (n + 1) c ≤ openAfter origin n c + 1 := by
      unfold openAfter
      split
      · omega
      · split <;> omega
      · split <;> omega
    rw [List.foldl_cons, List.foldl_cons]
    exact Nat.le_trans (foldl_openAfter_mono origin cs hstep) (ih _)

/-- A pair of a start and an end leaves no more lines open than there are without it. -/
theorem foldl_openAfter_of_linesClosed (h : Command.LinesClosed commands) :
    commands.foldl (openAfter origin) 0 = 0 := by
  induction h with
  | nil => rfl
  | @plain front back c hscope h ih =>
    rw [List.foldl_append] at ih
    have hstay : ∀ n, openAfter origin n c = n := fun n => by rw [openAfter, hscope]
    rw [List.foldl_append, List.foldl_cons, hstay, ih]
  | @line front middle back s e hs he horigin h ih =>
    rw [List.foldl_append, List.foldl_append] at ih
    rw [List.foldl_append, List.foldl_cons, List.foldl_append, List.foldl_cons]
    generalize front.foldl (openAfter origin) 0 = n at ih ⊢
    -- the start opens at most one line more than there would be, and the end closes one
    have hpair : openAfter origin (middle.foldl (openAfter origin) (openAfter origin n s)) e ≤
        middle.foldl (openAfter origin) n := by
      simp only [openAfter, hs, he, horigin]
      split
      · have hsucc := foldl_openAfter_succ origin middle n
        omega
      · exact Nat.le_refl _
    have hmono := foldl_openAfter_mono origin back hpair
    omega

/-- Where the start of every line is followed by its end, no line is open in the end. -/
theorem pendingLines_eq_nil (h : Command.LinesClosed commands) :
    (commands.foldl step start).pendingLines = [] := by
  rw [List.eq_nil_iff_forall_not_mem]
  intro e he
  have hzero := countP_pendingLines_foldl e.1 start commands
  rw [show start.pendingLines.countP (·.1 == e.1) = 0 from rfl,
    foldl_openAfter_of_linesClosed h, List.countP_eq_zero] at hzero
  exact hzero e he (beq_self_eq_true e.1)

/-! ### Which command set a name last -/

/-- The action of the directive whose line ends with a command, if the start of the line changed
the name. -/
def takenBack? (s : SweepState) (c : AnchoredCommand) (i : RuleName) : Option Action :=
  match close c.origin s.pendingLines with
  | some ((action, changed), _) => if changed.has i then some action else none
  | none => none

/-- Follows a sweep and keeps the action of the line-scoped directive whose end was the last
command to set a name.  Starts of lines do not count, since their ends will. -/
def follow (i : RuleName) (x : SweepState × Option Action) (c : AnchoredCommand) :
    SweepState × Option Action :=
  (x.1.step c,
    match c.scope with
    | .file => if c.isAbout i then none else x.2
    | .lineStart => x.2
    | .lineEnd => (x.1.takenBack? c i).or x.2)

/-- The action of the line-scoped directive whose end was the last command to set a name, among
the commands in effect at an offset; none if that was a plain directive, or nothing set it. -/
def leftBy? (commands : List AnchoredCommand) (offset : Nat) (i : RuleName) : Option Action :=
  ((commands.filter (·.offset ≤ offset)).foldl (follow i) (start, none)).2

/-- The value of a name if it is the one set last: the end of a line sets the value that its
directive does not set, and otherwise it is the value that the plain directives set. -/
def lastValue (plain : SweepState) (i : RuleName) : Option Action → Bool
  | none => plain.disabled.has i
  | some action => action == .enable

/-- A name has the value that was set last, except on lines that changed it. -/
def Agrees (i : RuleName) (s : SweepState) (last : Option Action) (plain : SweepState) : Prop :=
  s.disabled.has i = lastValue plain i last ∨ ∃ e ∈ s.pendingLines, e.2.2.has i = true

variable {last : Option Action} {plain : SweepState}

/-- A plain command sets its names in both sweeps. -/
theorem Agrees.file (h : Agrees i s last plain) (hscope : c.scope = .file) :
    Agrees i (s.step c) (if c.isAbout i then none else last) (plain.step c) := by
  have hne : c.scope ≠ .lineEnd := by simp [hscope]
  unfold Agrees
  rw [pendingLines_step_file hscope, has_step_of_ne_lineEnd hne]
  by_cases habout : c.isAbout i = true
  · left
    rw [if_pos habout, if_pos habout, lastValue, has_step_of_ne_lineEnd hne, if_pos habout]
  · rw [if_neg habout, if_neg habout]
    have hplain : (plain.step c).disabled.has i = plain.disabled.has i := by
      rw [has_step_of_ne_lineEnd hne, if_neg habout]
    rcases h with hvalue | hopen
    · left
      rw [hvalue]
      cases last with
      | none => exact hplain.symm
      | some action => rfl
    · exact .inr hopen

/-- The start of a line opens a line that changed the name, or the name stays as it is. -/
theorem Agrees.lineStart (h : Agrees i s last plain) (hscope : c.scope = .lineStart) :
    Agrees i (s.step c) last plain := by
  obtain ⟨changed, hlines, hchanged⟩ := pendingLines_step_lineStart (s := s) hscope
  unfold Agrees
  rw [hlines]
  by_cases hopened : changed.has i = true
  · exact .inr ⟨(c.origin, c.action, changed), by simp, hopened⟩
  · -- the command is not about the name, or sets it to the value it has
    have hstay : (s.step c).disabled.has i = s.disabled.has i := by
      rw [has_step_of_ne_lineEnd (by simp [hscope])]
      rw [hchanged] at hopened
      by_cases habout : c.isAbout i = true
      · rw [if_pos habout]
        have hsame : s.disabled.has i = (c.action == .disable) := by simpa [habout] using hopened
        exact hsame.symm
      · rw [if_neg habout]
    rw [hstay]
    rcases h with hvalue | ⟨e, he, hhas⟩
    · exact .inl hvalue
    · exact .inr ⟨e, by simp [he], hhas⟩

/-- The end of a line sets the name if the line changed it; otherwise the name stays as it is, and
the lines that changed it stay open. -/
theorem Agrees.lineEnd (h : Agrees i s last plain) (hscope : c.scope = .lineEnd) :
    Agrees i (s.step c) ((s.takenBack? c i).or last) plain := by
  unfold takenBack?
  rcases close_cases c.origin s.pendingLines with
    ⟨hclose, -⟩ | ⟨⟨action, changed⟩, rest, hclose, hperm⟩
  · rw [step_lineEnd_of_none hscope hclose, hclose]
    exact h
  · obtain ⟨hlines, hhas⟩ := step_lineEnd hscope hclose
    rw [hclose]
    unfold Agrees
    rw [hlines, hhas]
    by_cases hchanged : changed.has i = true
    · -- the end of this line is now the command that set the name last
      left
      simp only [if_pos hchanged]
      rfl
    · simp only [if_neg hchanged]
      rcases h with hvalue | ⟨e, he, hopen⟩
      · exact .inl hvalue
      · rcases List.mem_cons.mp (hperm.mem_iff.mp he) with rfl | he
        · exact absurd hopen hchanged
        · exact .inr ⟨e, he, hopen⟩

/-- Along a whole sweep a name has the value that was set last, except on lines that changed it. -/
theorem Agrees.foldl (h : Agrees i s last plain) (commands : List AnchoredCommand) :
    Agrees i (commands.foldl (follow i) (s, last)).1 (commands.foldl (follow i) (s, last)).2
      ((commands.filter (·.scope == .file)).foldl step plain) := by
  induction commands generalizing s last plain with
  | nil => exact h
  | cons c cs ih =>
    rw [List.foldl_cons, follow]
    cases hscope : c.scope with
    | file =>
      rw [List.filter_cons_of_pos (by simp [hscope])]
      exact ih (h.file hscope)
    | lineStart =>
      rw [List.filter_cons_of_neg (by simp [hscope])]
      exact ih (h.lineStart hscope)
    | lineEnd =>
      rw [List.filter_cons_of_neg (by simp [hscope])]
      exact ih (h.lineEnd hscope)

theorem foldl_follow_fst (i : RuleName) (s : SweepState) (last : Option Action) :
    (commands.foldl (follow i) (s, last)).1 = commands.foldl step s := by
  induction commands generalizing s last with
  | nil => rfl
  | cons c cs ih => exact ih _ _

/-- Where every line that was started is over, a name has the value that was set last. -/
theorem has_upTo_of_linesClosed {offset : Nat}
    (h : Command.LinesClosed (commands.filter (·.offset ≤ offset))) (i : RuleName) :
    (upTo commands offset).disabled.has i =
      lastValue (upTo (commands.filter (·.scope == .file)) offset) i
        (leftBy? commands offset i) := by
  have hstart : Agrees i start none start := .inl rfl
  have hend := hstart.foldl (commands.filter (·.offset ≤ offset))
  rw [foldl_follow_fst, List.filter_comm] at hend
  rcases hend with hvalue | ⟨e, he, -⟩
  · exact hvalue
  · rw [pendingLines_eq_nil h] at he
    cases he

/-! ### Rules under all their names -/

/-- A rule is on where the plain directives disable it, or off where they do not.

It is on when each of its names was set last by the end of a `disable` line, but for names that no
end of a line set and that the plain directives do not disable; it is off when one of its names was
set last by the end of an `enable` line. -/
def Strays (commands : List AnchoredCommand) (ids : List String) (offset : Nat) : Prop :=
  let plain := upTo (commands.filter (·.scope == .file)) offset
  if plain.disabled.covers ids then
    ∀ i ∈ RuleName.namesOf ids, leftBy? commands offset i = some .disable ∨
      (leftBy? commands offset i = none ∧ plain.disabled.has i = false)
  else ∃ i ∈ RuleName.namesOf ids, leftBy? commands offset i = some .enable

instance (commands : List AnchoredCommand) (ids : List String) (offset : Nat) :
    Decidable (Strays commands ids offset) := by
  unfold Strays
  infer_instance

theorem lastValue_eq_false_iff :
    lastValue plain i last = false ↔
      last = some .disable ∨ (last = none ∧ plain.disabled.has i = false) := by
  cases last with
  | none => simp [lastValue]
  | some action => cases action <;> simp [lastValue]

/-- Where every line that was started is over, the sweep and the sweep of the plain commands
disagree on exactly the rules that stray. -/
theorem covers_ne_iff_strays {offset : Nat}
    (h : Command.LinesClosed (commands.filter (·.offset ≤ offset))) (ids : List String) :
    (upTo commands offset).disabled.covers ids ≠
        (upTo (commands.filter (·.scope == .file)) offset).disabled.covers ids ↔
      Strays commands ids offset := by
  have hvalue := has_upTo_of_linesClosed h
  unfold Strays
  dsimp only
  generalize upTo (commands.filter (·.scope == .file)) offset = plain at hvalue ⊢
  by_cases hplain : plain.disabled.covers ids = true
  · rw [if_pos hplain, hplain, ne_eq, Bool.not_eq_true, RuleSet.covers_eq, List.any_eq_false]
    refine forall₂_congr fun i hi => ?_
    rw [Bool.not_eq_true, hvalue, lastValue_eq_false_iff]
  · rw [if_neg hplain, Bool.eq_false_iff.mpr hplain, ne_eq, Bool.not_eq_false, RuleSet.covers_eq,
      List.any_eq_true]
    refine exists_congr fun i => and_congr_right fun hi => ?_
    have hoff : plain.disabled.has i = false := by
      rw [RuleSet.covers_eq, List.any_eq_true] at hplain
      by_contra hhas
      exact hplain ⟨i, hi, by simpa using hhas⟩
    rw [hvalue]
    cases leftBy? commands offset i with
    | none => simp [lastValue, hoff]
    | some action => simp [lastValue]

end SweepState

namespace SourceUnit

theorem regions_eq {source : String} {u : SourceUnit} (h : ofText source = .ok u) :
    u.lineIndex = .ofText u.source ∧
      u.regions = Regions.ofCommands (Command.expandAll u.commands u.lineIndex) := by
  obtain ⟨tree, -, rfl⟩ := Except.map_eq_ok.mp h
  exact ⟨rfl, rfl⟩

/-- **Line-scoped directives off their lines**: at an offset that is on no target line, a rule is
suppressed as it would be without the line-scoped directives, unless it strays there. -/
theorem isSuppressed_eq_plain_iff {source : String} {u : SourceUnit} (h : ofText source = .ok u)
    (ids : List String) {offset : Nat}
    (hoff : ∀ c ∈ u.commands, c.isOnTarget u.lineIndex offset = false) :
    u.regions.isSuppressed ids offset =
        (Regions.ofCommands (Command.expandAll (u.commands.filter (·.modifier.isNone))
          u.lineIndex)).isSuppressed ids offset ↔
      ¬ SweepState.Strays (Command.expandAll u.commands u.lineIndex) ids offset := by
  obtain ⟨hindex, hregions⟩ := regions_eq h
  rw [hindex] at hoff
  have hclosed := Command.linesClosed_expandAll hoff
  rw [← hindex] at hclosed
  rw [hregions, Regions.isSuppressed_ofCommands (Command.expandAll_sorted ..),
    Regions.isSuppressed_ofCommands (Command.expandAll_sorted ..), ← Command.filter_expandAll,
    ← SweepState.covers_ne_iff_strays hclosed ids, ne_eq, not_not]

/-- A source that disables a rule from its first line on, once more for its third line, and enables
it for its second. -/
def crossing : String :=
  "//swiftlint:disable x\n//swiftlint:disable:next x\n//swiftlint:enable:previous x\n"

/-- Behind the third line the rule is on, although the plain directive disables it there: when the
third line starts the rule is still enabled for the second, so that the end of the third line
enables it again. -/
theorem isSuppressed_eq_plain_iff_crossing : ∃ u, ofText crossing = .ok u ∧
    (∀ c ∈ u.commands, c.isOnTarget u.lineIndex 79 = false) ∧
    u.regions.isSuppressed ["x"] 79 = false ∧
    (Regions.ofCommands (Command.expandAll (u.commands.filter (·.modifier.isNone))
      u.lineIndex)).isSuppressed ["x"] 79 = true ∧
    SweepState.Strays (Command.expandAll u.commands u.lineIndex) ["x"] 79 := by
  have hmap : (ofText crossing).toOption.map (fun u =>
      (u.commands.all (!·.isOnTarget u.lineIndex 79),
        (Regions.ofCommands (Command.expandAll u.commands u.lineIndex)).isSuppressed ["x"] 79,
        (Regions.ofCommands (Command.expandAll (u.commands.filter (·.modifier.isNone))
          u.lineIndex)).isSuppressed ["x"] 79)) = some (true, false, true) := by
    simp only [Command.expandAll_eq_insertionSort]
    decide +kernel
  obtain ⟨u, hu, hvalues⟩ := Option.map_eq_some_iff.mp hmap
  simp only [Prod.mk.injEq, List.all_eq_true, Bool.not_eq_true'] at hvalues
  obtain ⟨hoff, hlined, hplain⟩ := hvalues
  have h : ofText crossing = .ok u := Except.toOption_eq_some.mp hu
  rw [← (regions_eq h).2] at hlined
  refine ⟨u, h, hoff, hlined, hplain, ?_⟩
  by_contra hstays
  have hsame := (isSuppressed_eq_plain_iff h ["x"] hoff).mpr hstays
  rw [hlined, hplain] at hsame
  cases hsame

end SourceUnit

end SwiftTidy
