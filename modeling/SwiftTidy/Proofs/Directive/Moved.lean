import SwiftTidy.Proofs.Directive.Comments
import SwiftTidy.Proofs.Directive.Removal
import SwiftTidy.Proofs.Text.Columns

/-!
# Regions of a text that has moved

A text that lost some lines, or some bytes within its lines, has the directives that it had, at other
offsets.  `SourceUnit.Moves f kept u v` says which offsets are still there and where they are: offsets keep
their order, the lines that are kept start where `f` takes their starts, and each directive stands on a line
that is kept.  If each line that a directive targets is kept too, then the commands that directives expand to
move along (`expandAll_eq`), and so do the regions in which a rule is disabled (`isSuppressed_eq`).

Commands are sorted by their offsets, and what is lost between two of them makes their offsets equal.  Such a
pair was already in the order in which its directives stand (`lt_of_lt`): only the end of a line can come to
stand where a later command does, and that happens only if its directive stands in front of the other one.
-/

namespace SwiftTidy

/-! ### Commands that are moved -/

/-- The command with its offsets moved. -/
def AnchoredCommand.moved (f : Nat → Nat) (c : AnchoredCommand) : AnchoredCommand :=
  { c with offset := f c.offset, origin := f c.origin }

namespace SweepState

/-- The state with the origins of the open lines moved. -/
def moved (f : Nat → Nat) (s : SweepState) : SweepState :=
  ⟨s.disabled, s.pendingLines.map fun e => (f e.1, e.2)⟩

variable {f : Nat → Nat} {s : SweepState} {c : AnchoredCommand} {commands : List AnchoredCommand}

theorem close_moved {origin : Nat} {lines : List (Nat × Action × RuleSet)}
    (h : ∀ e ∈ lines, f e.1 = f origin → e.1 = origin) :
    close (f origin) (lines.map fun e => (f e.1, e.2)) =
      (close origin lines).map fun p => (p.1, p.2.map fun e => (f e.1, e.2)) := by
  have hindex : (lines.map fun e => (f e.1, e.2)).findIdx? (·.1 == f origin) =
      lines.findIdx? (·.1 == origin) := by
    induction lines with
    | nil => rfl
    | cons e lines ih =>
      obtain ⟨he, hlines⟩ := List.forall_mem_cons.mp h
      have hsame : (f e.1 == f origin) = (e.1 == origin) := by
        rw [Bool.eq_iff_iff, beq_iff_eq, beq_iff_eq]
        exact ⟨he, congrArg f⟩
      rw [List.map_cons, List.findIdx?_cons, List.findIdx?_cons, ih hlines, hsame]
  unfold close
  rw [hindex]
  cases lines.findIdx? (·.1 == origin) with
  | none => rfl
  | some i =>
    simp only [List.getElem?_map, List.getLast?_map]
    cases lines[i]? with
    | none => rfl
    | some e =>
      cases lines.getLast? with
      | none => rfl
      | some last => simp [List.map_set, List.map_dropLast]

/-- A moved command does to the moved state what the command does. -/
theorem step_moved (h : ∀ e ∈ s.pendingLines, f e.1 = f c.origin → e.1 = c.origin) :
    (s.moved f).step (c.moved f) = (s.step c).moved f := by
  unfold step
  simp only [AnchoredCommand.moved, moved, close_moved h]
  split
  · cases close c.origin s.pendingLines with
    | none => rfl
    | some p =>
      obtain ⟨⟨action, changed⟩, rest⟩ := p
      cases action <;> rfl
  · by_cases hstart : c.scope = .lineStart
    · cases c.action <;> simp [hstart]
    · cases c.action <;> simp [hstart]

theorem foldl_moved (h : ∀ c ∈ commands, ∀ d ∈ commands, f c.origin = f d.origin → c.origin = d.origin) :
    (commands.map (·.moved f)).foldl step start = (commands.foldl step start).moved f := by
  induction commands using List.reverseRecOn with
  | nil => rfl
  | append_singleton cs c ih =>
    rw [List.map_append, List.foldl_append, List.foldl_append,
      ih fun a ha b hb => h a (List.mem_append_left _ ha) b (List.mem_append_left _ hb)]
    refine step_moved fun e he hsame => ?_
    obtain ⟨a, ha, -, horigin, -⟩ := exists_start_of_mem_pendingLines he
    rw [← horigin] at hsame ⊢
    exact h a (List.mem_append_left _ ha) c (by simp) hsame

end SweepState

/-! ### Lines -/

namespace LineIndex

/-- A line with the starts of the lines in front of it and behind it. -/
structure Divides (ix : LineIndex) (line : OneIndexed) (front : List Nat) (start : Nat)
    (back : List Nat) : Prop where
  starts_eq : ix.starts = front ++ start :: back
  val_eq : line.val = front.length + 1

namespace Divides

variable {ix : LineIndex} {line : OneIndexed} {front back : List Nat} {start : Nat}

theorem toZeroBased_eq (h : ix.Divides line front start back) : line.toZeroBased = front.length := by
  rw [OneIndexed.toZeroBased, h.val_eq, Nat.add_sub_cancel]

theorem lt_lineCount (h : ix.Divides line front start back) : line.toZeroBased < ix.lineCount := by
  rw [h.toZeroBased_eq, lineCount, h.starts_eq, List.length_append, List.length_cons]
  omega

theorem lineStart_eq (h : ix.Divides line front start back) : ix.lineStart line = start := by
  rw [lineStart, h.toZeroBased_eq, h.starts_eq, List.getD_append_right _ _ _ _ (Nat.le_refl _),
    Nat.sub_self, List.getD_cons_zero]

theorem lineEnd_eq (h : ix.Divides line front start back) :
    ix.lineEnd line = back.head?.getD ix.len := by
  rw [lineEnd, h.val_eq, h.starts_eq, List.getD_append_right _ _ _ _ (by omega),
    Nat.add_sub_cancel_left, List.getD_cons_succ]
  cases back <;> rfl

/-- No line starts between the start and the end of a line. -/
theorem le_or_le (h : ix.Divides line front start back) (hsorted : ix.starts.Pairwise (· < ·))
    (hlen : ∀ p ∈ ix.starts, p ≤ ix.len) {p : Nat} (hp : p ∈ ix.starts ∨ p = ix.len) :
    p ≤ start ∨ back.head?.getD ix.len ≤ p := by
  have hend : back.head?.getD ix.len ≤ ix.len := by
    cases back with
    | nil => exact Nat.le_refl _
    | cons t back => exact hlen t (by rw [h.starts_eq]; simp)
  rcases hp with hp | rfl
  · rw [h.starts_eq] at hp hsorted
    obtain ⟨-, hback, hfront⟩ := List.pairwise_append.mp hsorted
    rcases List.mem_append.mp hp with hp | hp
    · exact .inl (Nat.le_of_lt (hfront p hp start List.mem_cons_self))
    · rcases List.mem_cons.mp hp with rfl | hp
      · exact .inl (Nat.le_refl _)
      · right
        cases back with
        | nil => cases hp
        | cons t back =>
          rcases List.mem_cons.mp hp with rfl | hp
          · exact Nat.le_refl _
          · exact Nat.le_of_lt ((List.pairwise_cons.mp (List.pairwise_cons.mp hback).2).1 p hp)
  · exact .inr hend

/-- A line ends where another one starts, or with the text. -/
theorem end_cases (h : ix.Divides line front start back) :
    back.head?.getD ix.len ∈ ix.starts ∨ back.head?.getD ix.len = ix.len := by
  cases back with
  | nil => exact .inr rfl
  | cons t back => exact .inl (by rw [h.starts_eq]; simp)

end Divides

/-- The last of some offsets in order that is not behind a position. -/
theorem exists_last_le {starts : List Nat} (hsorted : starts.Pairwise (· < ·)) {offset : Nat}
    (h : ∃ s ∈ starts, s ≤ offset) : ∃ front start back, starts = front ++ start :: back ∧
      start ≤ offset ∧ (∀ t ∈ back, offset < t) ∧ starts.countP (· ≤ offset) = front.length + 1 := by
  induction starts with
  | nil => simp at h
  | cons s starts ih =>
    obtain ⟨hs, hrest⟩ := List.pairwise_cons.mp hsorted
    by_cases hlater : ∃ t ∈ starts, t ≤ offset
    · obtain ⟨front, start, back, rfl, hle, hback, hcount⟩ := ih hrest hlater
      have hsle : s ≤ offset := (Nat.le_of_lt (hs start (by simp))).trans hle
      refine ⟨s :: front, start, back, rfl, hle, hback, ?_⟩
      rw [List.countP_cons_of_pos (by simpa using hsle), hcount, List.length_cons]
    · simp only [not_exists, not_and, Nat.not_le] at hlater
      have hsle : s ≤ offset := by
        obtain ⟨t, ht, hle⟩ := h
        rcases List.mem_cons.mp ht with rfl | ht
        · exact hle
        · exact absurd hle (Nat.not_le.mpr (hlater t ht))
      refine ⟨[], s, starts, rfl, hsle, hlater, ?_⟩
      rw [List.countP_cons_of_pos (by simpa using hsle), List.countP_eq_zero.mpr (by simpa using hlater),
        List.length_nil]

/-- An offset divides the lines of a text. -/
theorem exists_divides {text : String} (hlen : text.utf8ByteSize < Offset.limit) (offset : Nat) :
    ∃ front start back, (ofText text).Divides ((ofText text).lineOf offset) front start back ∧
      start ≤ offset ∧ ∀ t ∈ back, offset < t := by
  obtain ⟨front, start, back, hstarts, hle, hback, hcount⟩ :=
    exists_last_le (starts_pairwise text) ⟨0, List.mem_cons_self, Nat.zero_le offset⟩
  exact ⟨front, start, back, ⟨hstarts, (lineOf_val hlen offset).trans hcount⟩, hle, hback⟩

/-- How the lines of a text move: offsets keep their order, and more so behind those that are kept; the lines
of another text start where kept lines start, and lines that are not kept have no length there. -/
structure Moves (f : Nat → Nat) (kept : Nat → Bool) (ix ix' : LineIndex) : Prop where
  monotone : Monotone f
  strict : ∀ {p q}, kept p = true → p < q → f p < f q
  starts : ix'.starts = (ix.starts.filter kept).map f
  len : ix'.len = f ix.len
  lost : ∀ front s t back, ix.starts = front ++ s :: t :: back → kept s = false → f s = f t
  last : ∀ s, ix.starts.getLast? = some s → kept s = true

namespace Moves

variable {f : Nat → Nat} {kept : Nat → Bool} {ix ix' : LineIndex} {line : OneIndexed}
  {front back : List Nat} {start : Nat}

/-- The first line that is kept starts where the first one moves. -/
theorem head?_filter (h : Moves f kept ix ix') (hstarts : ix.starts = front ++ start :: back) :
    (((start :: back).filter kept).map f).head? = some (f start) := by
  induction back generalizing front start with
  | nil =>
    rw [List.filter_cons_of_pos (h.last start (by rw [hstarts]; simp))]
    rfl
  | cons t back ih =>
    by_cases hstart : kept start = true
    · rw [List.filter_cons_of_pos hstart]
      rfl
    · rw [List.filter_cons_of_neg hstart, h.lost front start t back hstarts (by simpa using hstart)]
      have hnext : ix.starts = (front ++ [start]) ++ t :: back := by
        rw [hstarts, List.append_assoc]
        rfl
      exact ih hnext

/-- A line that is kept is found again. -/
theorem divides (h : Moves f kept ix ix') (hline : ix.Divides line front start back)
    (hkept : kept start = true) {line' : OneIndexed}
    (hval : line'.val = (front.filter kept).length + 1) :
    ix'.Divides line' ((front.filter kept).map f) (f start) ((back.filter kept).map f) ∧
      ix'.lineStart line' = f (ix.lineStart line) ∧ ix'.lineEnd line' = f (ix.lineEnd line) := by
  have hdivides : ix'.Divides line' ((front.filter kept).map f) (f start) ((back.filter kept).map f) := by
    refine ⟨?_, by rw [hval, List.length_map]⟩
    rw [h.starts, hline.starts_eq, List.filter_append, List.filter_cons_of_pos hkept, List.map_append,
      List.map_cons]
  refine ⟨hdivides, by rw [hdivides.lineStart_eq, hline.lineStart_eq], ?_⟩
  rw [hdivides.lineEnd_eq, hline.lineEnd_eq]
  cases back with
  | nil => exact h.len
  | cons t back =>
    have hnext : ix.starts = (front ++ [start]) ++ t :: back := by
      rw [hline.starts_eq, List.append_assoc]
      rfl
    rw [h.head?_filter hnext]
    rfl

end Moves

end LineIndex

namespace Command

open LineIndex (Divides Moves)

variable {f : Nat → Nat} {kept : Nat → Bool} {ix ix' : LineIndex} {line line' : OneIndexed}
  {front back : List Nat} {start : Nat} {c d : Command} {m : Modifier}

/-- The line that a modifier targets, from the line of its directive: both lines with the starts of the
lines in front of them and behind them. -/
inductive Targets : Modifier → (front : List Nat) → (start : Nat) → (back : List Nat) →
    (front' : List Nat) → (start' : Nat) → (back' : List Nat) → Prop
  | previous {front back : List Nat} {start t : Nat} :
      Targets .previous (front ++ [t]) start back front t (start :: back)
  | this {front back : List Nat} {start : Nat} : Targets .this front start back front start back
  | next {front back : List Nat} {start t : Nat} :
      Targets .next front start (t :: back) (front ++ [start]) t back

/-- A modifier targets a line, or there is no line in front of the one of the directive, or none behind. -/
theorem targets_cases (m : Modifier) (front : List Nat) (start : Nat) (back : List Nat) :
    (m = .previous ∧ front = [] ∨ m = .next ∧ back = []) ∨
      ∃ front' start' back', Targets m front start back front' start' back' := by
  cases m with
  | this => exact .inr ⟨_, _, _, .this⟩
  | previous =>
    rcases List.eq_nil_or_concat front with rfl | ⟨front, t, rfl⟩
    · exact .inl (.inl ⟨rfl, rfl⟩)
    · rw [List.concat_eq_append]
      exact .inr ⟨_, _, _, .previous⟩
  | next =>
    cases back with
    | nil => exact .inl (.inr ⟨rfl, rfl⟩)
    | cons t back => exact .inr ⟨_, _, _, .next⟩

theorem target?_eq_none (h : ix.Divides c.line front start back)
    (hsize : ix.lineCount < OneIndexed.greatest)
    (hnone : m = .previous ∧ front = [] ∨ m = .next ∧ back = []) : c.target? m ix = none := by
  have hstarts := h.starts_eq
  have hval := h.val_eq
  rw [LineIndex.lineCount, hstarts, List.length_append, List.length_cons] at hsize
  rcases hnone with ⟨rfl, rfl⟩ | ⟨rfl, rfl⟩
  · have hnone : OneIndexed.ofNat? (c.line.val - 1) = none := by
      rw [hval]
      rfl
    rw [target?, hnone]
    rfl
  · have hbehind : ¬ (c.line.saturatingAdd 1).toZeroBased < ix.lineCount := by
      simp only [OneIndexed.saturatingAdd, OneIndexed.toZeroBased, LineIndex.lineCount, hstarts, hval,
        List.length_append, List.length_singleton]
      omega
    rw [target?, Option.filter_some, if_neg (by simpa using hbehind)]

variable {front' back' : List Nat} {start' : Nat}

theorem Targets.exists_target? (h : Targets m front start back front' start' back')
    (hline : ix.Divides c.line front start back) (hsize : ix.lineCount < OneIndexed.greatest) :
    ∃ line, c.target? m ix = some line ∧ ix.Divides line front' start' back' := by
  have hfound : ∀ {line : OneIndexed}, ix.Divides line front' start' back' →
      (some line).filter (fun l : OneIndexed => l.toZeroBased < ix.lineCount) = some line :=
    fun hline => by rw [Option.filter_some, if_pos (by simpa using hline.lt_lineCount)]
  have hstarts := hline.starts_eq
  have hval := hline.val_eq
  rw [LineIndex.lineCount, hstarts, List.length_append, List.length_cons] at hsize
  cases h with
  | this => exact ⟨_, hfound hline, hline⟩
  | previous =>
    rw [List.length_append, List.length_singleton] at hval
    have hpos : 0 < c.line.val - 1 := by omega
    have hbefore : ix.Divides ⟨c.line.val - 1, hpos⟩ front' start' (start :: back) :=
      ⟨by rw [hstarts, List.append_assoc]; rfl, by dsimp only; omega⟩
    have hsome : OneIndexed.ofNat? (c.line.val - 1) = some ⟨c.line.val - 1, hpos⟩ := dif_pos hpos
    refine ⟨_, ?_, hbefore⟩
    rw [target?, hsome]
    exact hfound hbefore
  | next =>
    have hbehind : ix.Divides (c.line.saturatingAdd 1) (front ++ [start]) start' back' := by
      refine ⟨by rw [hstarts, List.append_assoc]; rfl, ?_⟩
      simp only [OneIndexed.saturatingAdd, hval, List.length_append, List.length_singleton]
      rw [List.length_cons] at hsize
      omega
    exact ⟨_, hfound hbehind, hbehind⟩

/-- Among the lines that are kept, a line has the same neighbours if they are kept too. -/
theorem Targets.moved (h : Targets m front start back front' start' back') (hstart : kept start = true)
    (htarget : kept start' = true) :
    Targets m ((front.filter kept).map f) (f start) ((back.filter kept).map f)
      ((front'.filter kept).map f) (f start') ((back'.filter kept).map f) := by
  cases h with
  | previous =>
    rw [List.filter_append, List.filter_cons_of_pos htarget, List.filter_nil, List.map_append,
      List.filter_cons_of_pos hstart]
    exact .previous
  | this => exact .this
  | next =>
    rw [List.filter_append, List.filter_cons_of_pos hstart, List.filter_nil, List.map_append,
      List.filter_cons_of_pos htarget]
    exact .next

/-- A directive that is found elsewhere. -/
def moved (f : Nat → Nat) (line : OneIndexed) (c : Command) : Command :=
  { c with offset := f c.offset, line := line }

/-- A directive that is found elsewhere has the same commands elsewhere, if its own line and the one that it
targets are kept. -/
theorem expand_moved (h : Moves f kept ix ix') (hsize : ix.lineCount < OneIndexed.greatest)
    (hsize' : ix'.lineCount < OneIndexed.greatest) (hline : ix.Divides c.line front start back)
    (hstart : kept start = true) (hval : line'.val = (front.filter kept).length + 1)
    (htarget : ∀ m line, c.modifier = some m → c.target? m ix = some line →
      kept (ix.lineStart line) = true) :
    (c.moved f line').expand ix' = (c.expand ix).map (·.moved f) := by
  have hline' : ix'.Divides (c.moved f line').line _ _ _ := (h.divides hline hstart hval).1
  cases hmodifier : c.modifier with
  | none =>
    have hplain : (c.moved f line').modifier = none := hmodifier
    rw [expand, expand, hmodifier, hplain]
    rfl
  | some m =>
    have hnarrowed : (c.moved f line').modifier = some m := hmodifier
    rw [expand, expand, hmodifier, hnarrowed]
    dsimp only
    rcases targets_cases m front start back with hnone | ⟨front', start', back', htargets⟩
    · have hnone' : m = .previous ∧ (front.filter kept).map f = [] ∨
          m = .next ∧ (back.filter kept).map f = [] := by
        rcases hnone with ⟨rfl, rfl⟩ | ⟨rfl, rfl⟩
        · exact .inl ⟨rfl, rfl⟩
        · exact .inr ⟨rfl, rfl⟩
      rw [target?_eq_none hline hsize hnone, target?_eq_none hline' hsize' hnone']
      rfl
    · obtain ⟨line, hsome, hdivides⟩ := htargets.exists_target? hline hsize
      have hkept : kept start' = true := by
        rw [← hdivides.lineStart_eq]
        exact htarget m line hmodifier hsome
      obtain ⟨line', hsome', hdivides'⟩ := (htargets.moved hstart hkept).exists_target? hline' hsize'
      obtain ⟨-, hfirst, hend⟩ := h.divides hdivides hkept
        (by rw [hdivides'.val_eq, List.length_map])
      rw [hsome, hsome', List.map_cons, List.map_singleton]
      dsimp only
      rw [hfirst, hend]
      rfl

end Command

namespace SourceUnit

open Command (Targets)

/-- One unit has the lines and the directives of another one at other offsets.  The directives are kept, and
so are the lines that they stand on and the lines that they target. -/
structure Moves (f : Nat → Nat) (kept : Nat → Bool) (u v : SourceUnit) : Prop where
  lines : LineIndex.Moves f kept u.lineIndex v.lineIndex
  commands : v.commands = u.commands.map fun c => c.moved f (v.lineIndex.lineOf (f c.offset))
  offset : ∀ c ∈ u.commands, kept c.offset = true
  line : ∀ c ∈ u.commands, kept (u.lineIndex.lineStart c.line) = true
  target : ∀ c ∈ u.commands, ∀ m line, c.modifier = some m → c.target? m u.lineIndex = some line →
    kept (u.lineIndex.lineStart line) = true

namespace Moves

variable {f : Nat → Nat} {kept : Nat → Bool} {u v : SourceUnit} {source source' : String} {c d : Command}
  {a b : AnchoredCommand}

/-- Behind a kept offset the order is the same. -/
theorem le_iff (h : Moves f kept u v) {p : Nat} (hp : kept p = true) (q : Nat) : f q ≤ f p ↔ q ≤ p := by
  refine ⟨fun hle => ?_, fun hle => h.lines.monotone hle⟩
  by_contra hlt
  have hless := h.lines.strict hp (Nat.lt_of_not_le hlt)
  omega

theorem lineCount_lt (hu : ofText source = .ok u) : u.lineIndex.lineCount < OneIndexed.greatest := by
  have hlen := utf8ByteSize_lt_of_parse (parse_of_ofText hu)
  have hcount := LineIndex.lineCount_le source
  rw [lineIndex_eq hu]
  rw [Offset.limit] at hlen
  rw [OneIndexed.greatest]
  omega

/-- A directive stands on a line, with other lines in front of it and behind it. -/
theorem exists_divides (hu : ofText source = .ok u) (hc : c ∈ u.commands) :
    ∃ front start back, u.lineIndex.Divides c.line front start back ∧ start ≤ c.offset ∧
      ∀ t ∈ back, c.offset < t := by
  have hlen := utf8ByteSize_lt_of_parse (parse_of_ofText hu)
  obtain ⟨-, -, -, -, -, -, -, hline, -⟩ := (mem_commands_iff hu).mp hc
  have hline : c.line = (LineIndex.ofText source).lineOf c.offset :=
    OneIndexed.eq_of_val_eq (by rw [hline, LineIndex.lineOf_val hlen, LineIndex.countP_starts])
  rw [lineIndex_eq hu, hline]
  exact LineIndex.exists_divides hlen c.offset

theorem expand_eq (h : Moves f kept u v) (hu : ofText source = .ok u) (hv : ofText source' = .ok v)
    (hc : c ∈ u.commands) :
    (c.moved f (v.lineIndex.lineOf (f c.offset))).expand v.lineIndex =
      (c.expand u.lineIndex).map (·.moved f) := by
  obtain ⟨front, start, back, hline, hle, hback⟩ := exists_divides hu hc
  have hstart : kept start = true := hline.lineStart_eq ▸ h.line c hc
  refine Command.expand_moved h.lines (lineCount_lt hu) (lineCount_lt hv) hline hstart ?_ (h.target c hc)
  have hoffset := h.offset c hc
  have hsorted := LineIndex.starts_pairwise source
  rw [← lineIndex_eq hu, hline.starts_eq] at hsorted
  have hfront : ∀ s ∈ front, s ≤ c.offset := fun s hs =>
    (Nat.le_of_lt ((List.pairwise_append.mp hsorted).2.2 s hs start List.mem_cons_self)).trans hle
  -- the starts of lines that are kept and not behind the directive
  rw [lineIndex_eq hv, LineIndex.lineOf_val (utf8ByteSize_lt_of_parse (parse_of_ofText hv)),
    ← lineIndex_eq hv, h.lines.starts, hline.starts_eq, List.filter_append,
    List.filter_cons_of_pos hstart, List.countP_map, List.countP_append, List.countP_cons_of_pos,
    List.countP_eq_length.mpr, List.countP_eq_zero.mpr]
  · intro t ht
    simpa [h.le_iff hoffset] using hback t (List.mem_filter.mp ht).1
  · intro s hs
    simpa [h.le_iff hoffset] using hfront s (List.mem_filter.mp hs).1
  · simpa [h.le_iff hoffset] using hle

theorem kept_of_targets (h : Moves f kept u v) (hc : c ∈ u.commands)
    {m : Modifier} {line : OneIndexed} {front back : List Nat} {start : Nat} (hm : c.modifier = some m)
    (htarget : c.target? m u.lineIndex = some line) (hline : u.lineIndex.Divides line front start back) :
    kept start = true := hline.lineStart_eq ▸ h.target c hc m line hm htarget

/-- What the commands of a directive for a line are. -/
theorem exists_targets (hu : ofText source = .ok u) {front back : List Nat} {start : Nat}
    (hline : u.lineIndex.Divides c.line front start back) (ha : a ∈ c.expand u.lineIndex)
    (hplain : a.offset ≠ c.offset) :
    ∃ m line front' start' back', c.modifier = some m ∧ c.target? m u.lineIndex = some line ∧
      Targets m front start back front' start' back' ∧
      u.lineIndex.Divides line front' start' back' ∧
      (a.offset = start' ∨ a.offset = back'.head?.getD u.lineIndex.len) := by
  rcases Command.expand_cases c u.lineIndex with
    ⟨-, hexpand⟩ | ⟨-, hexpand⟩ | ⟨m, line, hm, htarget, hexpand⟩
  · rw [hexpand, List.mem_singleton] at ha
    exact absurd (ha ▸ rfl) hplain
  · rw [hexpand] at ha
    cases ha
  · rcases Command.targets_cases m front start back with hnone | ⟨front', start', back', htargets⟩
    · rw [Command.target?_eq_none hline (lineCount_lt hu) hnone] at htarget
      cases htarget
    · obtain ⟨line', hline', hdivides⟩ := htargets.exists_target? hline (lineCount_lt hu)
      obtain rfl : line = line' := Option.some.inj (htarget.symm.trans hline')
      refine ⟨m, line, front', start', back', hm, htarget, htargets, hdivides, ?_⟩
      rw [← hdivides.lineStart_eq, ← hdivides.lineEnd_eq]
      rw [hexpand, List.mem_pair] at ha
      rcases ha with rfl | rfl
      · exact .inl rfl
      · exact .inr rfl

/-- A command that may come to stand where a later one does is the end of a line, and its directive stands in
front of it. -/
theorem lt_or_lt (h : Moves f kept u v) (hu : ofText source = .ok u) (hd : d ∈ u.commands)
    (hb : b ∈ d.expand u.lineIndex) {p : Nat} (hp : b.offset < p) (hlen : p ≤ u.lineIndex.len) :
    f b.offset < f p ∨ d.offset < b.offset ∧ b.offset ∈ u.lineIndex.starts := by
  by_cases hplain : b.offset = d.offset
  · exact .inl (h.lines.strict (hplain ▸ h.offset d hd) hp)
  obtain ⟨front, start, back, hline, -, hback⟩ := exists_divides hu hd
  obtain ⟨m, line, front', start', back', hm, htarget, htargets, hdivides, hb⟩ :=
    exists_targets hu hline hb hplain
  rcases hb with hb | hb
  · exact .inl (h.lines.strict (hb ▸ h.kept_of_targets hd hm htarget hdivides) hp)
  have hmem : b.offset ∈ u.lineIndex.starts := hb ▸ hdivides.end_cases.resolve_right (by omega)
  cases htargets with
  | previous =>
    -- the line ends where the one of the directive starts
    rw [List.head?_cons, Option.getD_some] at hb
    exact .inl (h.lines.strict (by rw [hb, ← hline.lineStart_eq]; exact h.line d hd) hp)
  | this =>
    cases back with
    | nil =>
      rw [List.head?_nil, Option.getD_none] at hb
      omega
    | cons t back =>
      rw [List.head?_cons, Option.getD_some] at hb
      exact .inr ⟨hb ▸ hback t List.mem_cons_self, hmem⟩
  | next =>
    have hsorted := LineIndex.starts_pairwise source
    cases back' with
    | nil =>
      rw [List.head?_nil, Option.getD_none] at hb
      omega
    | cons t back' =>
      rw [List.head?_cons, Option.getD_some] at hb
      exact .inr ⟨hb ▸ hback t (List.mem_cons_of_mem _ List.mem_cons_self), hmem⟩

theorem offset_le_len (hu : ofText source = .ok u) (hc : c ∈ u.commands) :
    c.offset ≤ u.lineIndex.len := by
  obtain ⟨start, p, hcomment, hsays⟩ := (mem_commands_iff hu).mp hc
  obtain ⟨before, after, htext, hstart⟩ := hcomment.exists_toList_eq
  have hlt := hsays.bounds.2
  rw [lineIndex_eq hu, LineIndex.len]
  show _ ≤ source.utf8ByteSize
  rw [TriviaPiece.len, Text.utf8ByteSize_eq] at hlt
  rw [Text.utf8ByteSize_eq, htext, String.utf8Len_append, String.utf8Len_append]
  omega

/-- Commands of two directives that come to stand at one offset are in order. -/
theorem lt_of_lt (h : Moves f kept u v) (hu : ofText source = .ok u) (hc : c ∈ u.commands)
    (hd : d ∈ u.commands) (hlt : c.offset < d.offset) (ha : a ∈ c.expand u.lineIndex)
    (hb : b ∈ d.expand u.lineIndex) (hba : b.offset < a.offset) : f b.offset < f a.offset := by
  have hsorted : u.lineIndex.starts.Pairwise (· < ·) := lineIndex_eq hu ▸ LineIndex.starts_pairwise source
  have hlen : ∀ p ∈ u.lineIndex.starts, p ≤ u.lineIndex.len :=
    lineIndex_eq hu ▸ LineIndex.starts_le_len source
  obtain ⟨front, start, back, hline, hle, hback⟩ := exists_divides hu hc
  by_cases hplain : a.offset = c.offset
  · refine (h.lt_or_lt hu hd hb hba (hplain ▸ offset_le_len hu hc)).resolve_right fun hlater => ?_
    omega
  obtain ⟨m, line, front', start', back', hm, htarget, htargets, hdivides, ha⟩ :=
    exists_targets hu hline ha hplain
  have hend : a.offset ≤ u.lineIndex.len := by
    rcases ha with ha | ha
    · exact ha ▸ hlen _ (by rw [hdivides.starts_eq]; simp)
    · rw [ha]
      exact hdivides.end_cases.elim (hlen _) Nat.le_of_eq
  rcases h.lt_or_lt hu hd hb hba hend with hless | ⟨hbehind, hmem⟩
  · exact hless
  -- no line starts between the line of the first directive and its end
  have hnext := (hline.le_or_le hsorted hlen (.inl hmem)).resolve_left (by omega)
  cases htargets with
  | previous =>
    have hstarts := hline.starts_eq
    rw [hstarts] at hsorted
    have hbefore := (List.pairwise_append.mp hsorted).2.2 start' (by simp) start List.mem_cons_self
    rw [List.head?_cons, Option.getD_some] at ha
    omega
  | this => omega
  | next =>
    rw [List.head?_cons, Option.getD_some] at hnext
    have hstart' := (hdivides.le_or_le hsorted hlen (.inl hmem)).resolve_right (by omega)
    obtain heq : b.offset = start' := by omega
    exact h.lines.strict (heq ▸ h.kept_of_targets hc hm htarget hdivides) hba

theorem expandAll_eq (h : Moves f kept u v) (hu : ofText source = .ok u) (hv : ofText source' = .ok v) :
    Command.expandAll v.commands v.lineIndex =
      (Command.expandAll u.commands u.lineIndex).map (·.moved f) := by
  have hexpand : v.commands.flatMap (·.expand v.lineIndex) =
      (u.commands.flatMap (·.expand u.lineIndex)).map (·.moved f) := by
    rw [h.commands, List.flatMap_map, List.map_flatMap]
    exact List.flatMap_congr fun c hc => h.expand_eq hu hv hc
  rw [Command.expandAll, Command.expandAll, hexpand]
  refine StableSort.mergeSort_map Command.offset_trans Command.offset_total Command.offset_trans
    Command.offset_total _ ?_
  have hsame : ∀ {a b : AnchoredCommand}, (b.offset < a.offset → f b.offset < f a.offset) →
      decide ((a.moved f).offset ≤ (b.moved f).offset) = decide (a.offset ≤ b.offset) := by
    intro a b hab
    refine decide_eq_decide.mpr ⟨fun hle => ?_, fun hle => h.lines.monotone hle⟩
    by_contra hlt
    exact Nat.not_lt.mpr hle (hab (Nat.lt_of_not_le hlt))
  refine List.pairwise_flatMap.mpr ⟨fun c hc => ?_, ?_⟩
  · rcases Command.expand_cases c u.lineIndex with
      ⟨-, hexpand⟩ | ⟨-, hexpand⟩ | ⟨m, line, -, htarget, hexpand⟩
    · rw [hexpand]
      exact List.pairwise_singleton ..
    · rw [hexpand]
      exact List.Pairwise.nil
    · rw [hexpand, List.pairwise_pair]
      refine hsame fun hlt => absurd hlt (Nat.not_lt.mpr ?_)
      rw [lineIndex_eq hu] at htarget ⊢
      exact Command.lineStart_le_lineEnd_target htarget
  · exact (commands_pairwise hu).imp_of_mem fun hc hd hlt a ha b hb => hsame (h.lt_of_lt hu hc hd hlt ha hb)

/-- **Regions move along**: where an offset is kept, a rule is disabled if and only if it is disabled where
the offset moves. -/
theorem isSuppressed_eq (h : Moves f kept u v) (hu : ofText source = .ok u) (hv : ofText source' = .ok v)
    (rule : RuleDescription) {p : Nat} (hp : kept p = true) :
    (v.disabledRegions rule).isSuppressed (f p) = (u.disabledRegions rule).isSuppressed p := by
  have hinjective : ∀ a ∈ Command.expandAll u.commands u.lineIndex,
      ∀ b ∈ Command.expandAll u.commands u.lineIndex, f a.origin = f b.origin → a.origin = b.origin := by
    intro a ha b hb hsame
    obtain ⟨c, hc, ha⟩ := Command.mem_expandAll.mp ha
    obtain ⟨d, hd, hb⟩ := Command.mem_expandAll.mp hb
    rw [(Command.of_mem_expand ha).1, (Command.of_mem_expand hb).1] at hsame ⊢
    exact Nat.le_antisymm ((h.le_iff (h.offset d hd) _).mp (Nat.le_of_eq hsame))
      ((h.le_iff (h.offset c hc) _).mp (Nat.le_of_eq hsame.symm))
  have hfilter : ((Command.expandAll u.commands u.lineIndex).map (·.moved f)).filter (·.offset ≤ f p) =
      ((Command.expandAll u.commands u.lineIndex).filter (·.offset ≤ p)).map (·.moved f) := by
    rw [List.filter_map]
    refine congrArg _ (List.filter_congr fun a _ => ?_)
    exact decide_eq_decide.mpr (h.le_iff hp a.offset)
  have hsorted := Command.expandAll_sorted u.commands u.lineIndex
  have hsorted' := Command.expandAll_sorted v.commands v.lineIndex
  rw [disabledRegions, disabledRegions, (regions_eq hu).2, (regions_eq hv).2,
    Regions.isSuppressed_disabledRegions hsorted, Regions.isSuppressed_disabledRegions hsorted',
    Regions.isSuppressed_ofCommands hsorted, Regions.isSuppressed_ofCommands hsorted', SweepState.upTo,
    SweepState.upTo, h.expandAll_eq hu hv, hfilter, SweepState.foldl_moved]
  · rfl
  · exact fun a ha b hb => hinjective a (List.mem_filter.mp ha).1 b (List.mem_filter.mp hb).1

end Moves

end SourceUnit

end SwiftTidy
