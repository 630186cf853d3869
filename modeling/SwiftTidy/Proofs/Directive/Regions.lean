import SwiftTidy.Proofs.Directive.Lookup

/-!
# Regions of a sweep

A sweep over commands in order opens a region at each command.  `three_answers_agree` says that
the regions tell the same as the state of the sweep: a rule is disabled at an offset when the
commands up to this offset leave it disabled, and so say the scan of all regions and the
bisection of the merged ones.

* `exists_mem_sweep_iff`: the regions that hold an offset have the rules that are disabled there;
* `sweep_inOrder`: the regions of a sweep are in order;
* `exists_mem_merge_iff`, `merge_isSeparated`: merging them keeps what they hold and leaves a gap
  between each two.
-/

namespace SwiftTidy

/-- A set without rules covers no rule. -/
theorem RuleSet.covers_eq_false_of_isEmpty {s : RuleSet} (h : s.isEmpty = true)
    (ids : List String) : s.covers ids = false := by
  unfold RuleSet.isEmpty at h
  unfold RuleSet.covers
  simp only [Bool.and_eq_true, Bool.not_eq_true', List.isEmpty_iff] at h
  rw [h.1, h.2]
  rfl

namespace Regions

open DisabledRegion (IsProper IsBefore IsApart contains_iff)

/-- Commands in the order of their offsets. -/
def Sorted (commands : List AnchoredCommand) : Prop :=
  commands.Pairwise fun a b => a.offset ≤ b.offset

/-! ### The sweep -/

variable {s : SweepState} {c : AnchoredCommand} {commands : List AnchoredCommand}

/-- No region starts in front of the first command. -/
theorem le_start_of_mem_sweep {low : Nat} (h : ∀ c ∈ commands, low ≤ c.offset) :
    ∀ r ∈ sweep s commands, low ≤ r.start := by
  induction commands generalizing s with
  | nil => simp [sweep]
  | cons c cs ih =>
    obtain ⟨hc, hcs⟩ := List.forall_mem_cons.mp h
    unfold sweep
    dsimp only
    split
    · exact ih hcs
    · exact List.forall_mem_cons.mpr ⟨hc, ih hcs⟩

/-- In front of all commands there is no region. -/
theorem not_contains_of_mem_sweep {offset : Nat} (h : ∀ c ∈ commands, offset < c.offset) :
    ∀ r ∈ sweep s commands, ¬ r.contains offset = true := by
  intro r hr hcontains
  have hlow : offset + 1 ≤ r.start := le_start_of_mem_sweep h r hr
  have hstart := (contains_iff.mp hcontains).1
  omega

/-- A command opens a region up to the next one, unless the region is empty or nothing is disabled
in it. -/
theorem mem_sweep_cons {cs : List AnchoredCommand} {r : DisabledRegion} :
    r ∈ sweep s (c :: cs) ↔
      (r = ⟨(s.step c).disabled, c.offset, cs.head?.map (·.offset)⟩ ∧
        (s.step c).disabled.isEmpty = false ∧ cs.head?.map (·.offset) ≠ some c.offset) ∨
      r ∈ sweep (s.step c) cs := by
  rw [sweep]
  split
  · rename_i hskip
    simp only [Bool.or_eq_true, beq_iff_eq] at hskip
    constructor
    · exact .inr
    · rintro (⟨-, hempty, hstop⟩ | hr)
      · rcases hskip with hskip | hskip
        · rw [hskip] at hempty
          cases hempty
        · exact absurd hskip hstop
      · exact hr
  · rename_i hkeep
    simp only [Bool.or_eq_true, beq_iff_eq, not_or, Bool.not_eq_true] at hkeep
    rw [List.mem_cons]
    constructor
    · exact .imp_left fun hr => ⟨hr, hkeep⟩
    · exact .imp_left fun hr => hr.1

/-- No command is in effect at an offset when the first one is not. -/
theorem filter_eq_nil_iff (hsorted : Sorted commands) {offset : Nat} :
    commands.filter (·.offset ≤ offset) = [] ↔
      ∀ stop, commands.head?.map (·.offset) = some stop → offset < stop := by
  cases commands with
  | nil => simp
  | cons c cs =>
    obtain ⟨hhead, -⟩ := List.pairwise_cons.mp hsorted
    simp only [List.filter_eq_nil_iff, decide_eq_true_eq, Nat.not_le, List.head?_cons,
      Option.map_some, Option.some.injEq, forall_eq']
    constructor
    · intro h
      exact h c (by simp)
    · intro h d hd
      rcases List.mem_cons.mp hd with rfl | hd
      · exact h
      · have hle := hhead d hd
        omega

/-- Whether some region holds an offset and covers a rule is decided by the commands up to this
offset: before the first one there is no region, behind it the rule is disabled in the state they
lead to. -/
theorem exists_mem_sweep_iff (hsorted : Sorted commands) {ids : List String} {offset : Nat} :
    (∃ r ∈ sweep s commands, r.contains offset = true ∧ r.rules.covers ids = true) ↔
      commands.filter (·.offset ≤ offset) ≠ [] ∧
        ((commands.filter (·.offset ≤ offset)).foldl SweepState.step s).disabled.covers ids =
          true := by
  induction commands generalizing s with
  | nil => simp [sweep]
  | cons c cs ih =>
    obtain ⟨hhead, htail⟩ := List.pairwise_cons.mp hsorted
    by_cases hc : c.offset ≤ offset
    · rw [List.filter_cons_of_pos (by simpa using hc), List.foldl_cons]
      simp only [mem_sweep_cons, or_and_right, exists_or, ih htail, and_assoc, exists_eq_left,
        ne_eq, List.cons_ne_nil, not_false_eq_true, true_and]
      -- the region of `c` holds the offset unless the next command is in effect there
      by_cases hnext : cs.filter (·.offset ≤ offset) = []
      · have hstop := (filter_eq_nil_iff htail).mp hnext
        simp only [hnext, not_true_eq_false, false_and, or_false, List.foldl_nil]
        constructor
        · exact fun h => h.2.2.2
        · intro hcovers
          refine ⟨?_, ?_, contains_iff.mpr ⟨hc, hstop⟩, hcovers⟩
          · by_contra hempty
            rw [RuleSet.covers_eq_false_of_isEmpty (by simpa using hempty)] at hcovers
            cases hcovers
          · intro hsame
            have hlt := hstop _ hsame
            omega
      · have hover : ¬ _ := mt (filter_eq_nil_iff htail).mpr hnext
        simp only [hnext, not_false_eq_true, true_and]
        constructor
        · rintro (⟨-, -, hcontains, -⟩ | hrest)
          · exact absurd (contains_iff.mp hcontains).2 hover
          · exact hrest
        · exact .inr
    · have hbehind : ∀ d ∈ c :: cs, offset < d.offset := by
        refine List.forall_mem_cons.mpr ⟨by omega, fun d hd => ?_⟩
        have hle := hhead d hd
        omega
      have hnone : (c :: cs).filter (·.offset ≤ offset) = [] := by
        simpa [List.filter_eq_nil_iff] using hbehind
      simp only [hnone, ne_eq, not_true_eq_false, false_and, iff_false, not_exists]
      rintro r ⟨hr, hcontains, -⟩
      exact not_contains_of_mem_sweep hbehind r hr hcontains

/-- **The scan of all regions** says what the state of the sweep says. -/
theorem isSuppressed_ofCommands (hsorted : Sorted commands) (ids : List String) (offset : Nat) :
    (ofCommands commands).isSuppressed ids offset =
      (SweepState.upTo commands offset).disabled.covers ids := by
  rw [Bool.eq_iff_iff]
  unfold isSuppressed ofCommands SweepState.upTo
  rw [List.any_eq_true]
  simp only [Bool.and_eq_true]
  rw [exists_mem_sweep_iff hsorted]
  by_cases hnil : commands.filter (·.offset ≤ offset) = []
  · rw [hnil]
    simp [SweepState.start, RuleSet.empty, RuleSet.covers]
  · simp [hnil]

/-! ### Merging -/

/-- Regions that hold something, each of which ends where the next one starts or in front of it. -/
structure InOrder (rs : List DisabledRegion) : Prop where
  proper : ∀ r ∈ rs, r.IsProper
  before : rs.Pairwise IsBefore

/-- The regions of a sweep are in order. -/
theorem sweep_inOrder (hsorted : Sorted commands) : InOrder (sweep s commands) := by
  induction commands generalizing s with
  | nil => exact ⟨by simp [sweep], .nil⟩
  | cons c cs ih =>
    obtain ⟨hhead, htail⟩ := List.pairwise_cons.mp hsorted
    obtain ⟨hproper, hbefore⟩ := ih (s := s.step c) htail
    rw [sweep]
    split
    · exact ⟨hproper, hbefore⟩
    · rename_i hkeep
      simp only [Bool.or_eq_true, beq_iff_eq, not_or] at hkeep
      refine ⟨List.forall_mem_cons.mpr ⟨?_, hproper⟩, List.pairwise_cons.mpr ⟨?_, hbefore⟩⟩
      · intro stop hstop
        have hle : c.offset ≤ stop := by
          obtain ⟨d, hd, rfl⟩ := Option.map_eq_some_iff.mp hstop
          exact hhead d (List.mem_of_mem_head? hd)
        have hne : c.offset ≠ stop := by
          rintro rfl
          exact hkeep.2 hstop
        exact Nat.lt_of_le_of_ne hle hne
      · -- what comes later starts at the next command or behind it
        cases cs with
        | nil => simp [sweep]
        | cons d ds =>
          obtain ⟨hnext, -⟩ := List.pairwise_cons.mp htail
          intro r hr
          exact ⟨d.offset, rfl,
            le_start_of_mem_sweep (List.forall_mem_cons.mpr ⟨Nat.le_refl _, hnext⟩) r hr⟩

variable {last r : DisabledRegion} {rs : List DisabledRegion}

/-- Two regions as one. -/
def join (last r : DisabledRegion) : DisabledRegion :=
  ⟨last.rules.union r.rules, last.start, laterStop last.stop r.stop⟩

theorem merge_cons (last r : DisabledRegion) (rs : List DisabledRegion) :
    merge last (r :: rs) =
      if last.stop.all (r.start ≤ ·) then merge (join last r) rs else last :: merge r rs := rfl

/-- Of two regions in order the second ends later. -/
theorem join_stop (hbefore : last.IsBefore r) (hr : r.IsProper) : (join last r).stop = r.stop := by
  obtain ⟨stop, hstop, hle⟩ := hbefore
  show laterStop last.stop r.stop = r.stop
  rw [hstop]
  cases hend : r.stop with
  | none => rfl
  | some e =>
    have hlt := hr e hend
    show some (max stop e) = some e
    rw [Nat.max_eq_right (by omega)]

/-- Regions that touch hold together what each of them holds. -/
theorem join_contains_iff (hlast : last.IsProper) (hbefore : last.IsBefore r) (hr : r.IsProper)
    (htouch : last.stop.all (r.start ≤ ·) = true) (offset : Nat) :
    (join last r).contains offset = true ↔
      last.contains offset = true ∨ r.contains offset = true := by
  rw [contains_iff, contains_iff, contains_iff, join_stop hbefore hr]
  obtain ⟨stop, hstop, hle⟩ := hbefore
  have hlt := hlast stop hstop
  rw [hstop] at htouch ⊢
  simp only [Option.all_some, decide_eq_true_eq, Option.some.injEq, forall_eq'] at htouch ⊢
  show last.start ≤ offset ∧ _ ↔ _
  constructor
  · rintro ⟨hstart, hin⟩
    by_cases hside : offset < stop
    · exact .inl ⟨hstart, hside⟩
    · exact .inr ⟨by omega, hin⟩
  · rintro (⟨hstart, hside⟩ | ⟨hstart, hin⟩)
    · refine ⟨hstart, fun e he => ?_⟩
      have hpos := hr e he
      omega
    · exact ⟨by omega, hin⟩

/-- Regions in order stay so when the first two become one. -/
theorem InOrder.join (h : InOrder (last :: r :: rs)) : InOrder (join last r :: rs) := by
  obtain ⟨hproper, hbefore⟩ := h
  obtain ⟨hlast, hproper⟩ := List.forall_mem_cons.mp hproper
  obtain ⟨hr, hproper⟩ := List.forall_mem_cons.mp hproper
  obtain ⟨hbeforeLast, hbefore⟩ := List.pairwise_cons.mp hbefore
  obtain ⟨hbeforeR, hbefore⟩ := List.pairwise_cons.mp hbefore
  have hlastR := hbeforeLast r (by simp)
  have hstop := join_stop hlastR hr
  refine ⟨List.forall_mem_cons.mpr ⟨?_, hproper⟩, List.pairwise_cons.mpr ⟨?_, hbefore⟩⟩
  · intro e he
    obtain ⟨stop, hend, hle⟩ := hlastR
    have hlt := hlast stop hend
    have hpos := hr e (by rw [← hstop, he])
    show last.start < e
    omega
  · intro t ht
    obtain ⟨e, he, hle⟩ := hbeforeR t ht
    exact ⟨e, by rw [hstop, he], hle⟩

theorem InOrder.tail (h : InOrder (last :: rs)) : InOrder rs :=
  ⟨fun r hr => h.proper r (by simp [hr]), (List.pairwise_cons.mp h.before).2⟩

/-- No region of a list in order starts in front of the first. -/
theorem InOrder.le_start (h : InOrder (last :: rs)) : ∀ r ∈ last :: rs, last.start ≤ r.start := by
  refine List.forall_mem_cons.mpr ⟨Nat.le_refl _, fun r hr => ?_⟩
  obtain ⟨stop, hstop, hle⟩ := (List.pairwise_cons.mp h.before).1 r hr
  have hlt := h.proper last (by simp) stop hstop
  omega

/-- Merging keeps what the regions hold. -/
theorem exists_mem_merge_iff (h : InOrder (last :: rs)) (offset : Nat) :
    (∃ r ∈ merge last rs, r.contains offset = true) ↔
      ∃ r ∈ last :: rs, r.contains offset = true := by
  induction rs generalizing last with
  | nil => rfl
  | cons r rs ih =>
    have hlast := h.proper last (by simp)
    have hr := h.proper r (by simp)
    have hbefore := (List.pairwise_cons.mp h.before).1 r (by simp)
    rw [merge_cons]
    by_cases htouch : last.stop.all (r.start ≤ ·) = true
    · rw [if_pos htouch, ih h.join]
      simp only [List.mem_cons, exists_eq_or_imp, join_contains_iff hlast hbefore hr htouch, or_assoc]
    · rw [if_neg htouch]
      simp only [List.mem_cons, exists_eq_or_imp, ih h.tail]

theorem le_start_of_mem_merge {low : Nat} (h : ∀ r ∈ last :: rs, low ≤ r.start) :
    ∀ r ∈ merge last rs, low ≤ r.start := by
  induction rs generalizing last with
  | nil => exact h
  | cons r rs ih =>
    obtain ⟨hlast, hrest⟩ := List.forall_mem_cons.mp h
    rw [merge_cons]
    split
    · exact ih (List.forall_mem_cons.mpr ⟨hlast, (List.forall_mem_cons.mp hrest).2⟩)
    · exact List.forall_mem_cons.mpr ⟨hlast, ih hrest⟩

/-- Merged regions have a gap between each two. -/
theorem merge_isSeparated (h : InOrder (last :: rs)) :
    DisabledRegions.IsSeparated ⟨(merge last rs).toArray⟩ := by
  induction rs generalizing last with
  | nil => exact ⟨h.proper, List.pairwise_singleton ..⟩
  | cons r rs ih =>
    rw [merge_cons]
    split
    · exact ih h.join
    · rename_i hgap
      have hrest := ih h.tail
      refine ⟨List.forall_mem_cons.mpr ⟨h.proper last (by simp), hrest.proper⟩,
        List.pairwise_cons.mpr ⟨?_, hrest.apart⟩⟩
      intro t ht
      obtain ⟨stop, hstop, -⟩ := (List.pairwise_cons.mp h.before).1 r (by simp)
      rw [hstop] at hgap
      simp only [Option.all_some, decide_eq_true_eq, Nat.not_le] at hgap
      have hle := le_start_of_mem_merge h.tail.le_start t ht
      exact ⟨stop, hstop, by omega⟩

/-! ### The regions of one rule -/

theorem filter_covers_inOrder (hsorted : Sorted commands) (ids : List String) :
    InOrder ((ofCommands commands).regions.filter (·.rules.covers ids)) := by
  obtain ⟨hproper, hbefore⟩ := sweep_inOrder (s := SweepState.start) hsorted
  exact ⟨fun r hr => hproper r (List.mem_filter.mp hr).1, hbefore.filter _⟩

/-- The disabled regions of a rule are apart from each other. -/
theorem disabledRegions_isSeparated (hsorted : Sorted commands) (ids : List String) :
    ((ofCommands commands).disabledRegions ids).IsSeparated := by
  have hfiltered := filter_covers_inOrder hsorted ids
  unfold disabledRegions
  split
  · exact ⟨by simp [DisabledRegions.none], .nil⟩
  · rename_i r rest heq
    rw [heq] at hfiltered
    exact merge_isSeparated hfiltered

/-- **The bisection of the merged regions** says what the scan of all regions says. -/
theorem isSuppressed_disabledRegions (hsorted : Sorted commands) (ids : List String)
    (offset : Nat) :
    ((ofCommands commands).disabledRegions ids).isSuppressed offset =
      (ofCommands commands).isSuppressed ids offset := by
  have hscan : (ofCommands commands).isSuppressed ids offset = true ↔
      ∃ r ∈ (ofCommands commands).regions.filter (·.rules.covers ids),
        r.contains offset = true := by
    unfold isSuppressed
    simp only [List.any_eq_true, Bool.and_eq_true, List.mem_filter, and_assoc]
    exact exists_congr fun r => and_congr_right fun _ => and_comm
  rw [Bool.eq_iff_iff, hscan,
    DisabledRegions.isSuppressed_iff (disabledRegions_isSeparated hsorted ids)]
  have hfiltered := filter_covers_inOrder hsorted ids
  unfold disabledRegions
  split
  · rename_i hnil
    simp [hnil, DisabledRegions.none]
  · rename_i r rest heq
    rw [heq] at hfiltered ⊢
    exact exists_mem_merge_iff hfiltered offset

/-- **Three answers agree**: whether a rule is disabled at an offset is the same in the state that
the commands up to this offset lead to, in a scan of all regions, and in a bisection of the merged
regions.  Between each two merged regions there is a gap, and a range that is not empty is
contained in one of them exactly when the rule is disabled at all of its offsets. -/
theorem three_answers_agree (hsorted : Sorted commands) (ids : List String) :
    (∀ offset, (SweepState.upTo commands offset).disabled.covers ids =
        (ofCommands commands).isSuppressed ids offset ∧
      (ofCommands commands).isSuppressed ids offset =
        ((ofCommands commands).disabledRegions ids).isSuppressed offset) ∧
    (∀ r ∈ ((ofCommands commands).disabledRegions ids).regions.toList, r.IsProper) ∧
    ((ofCommands commands).disabledRegions ids).regions.toList.Pairwise IsApart ∧
    ∀ q : TextRange, q.start < q.stop →
      (((ofCommands commands).disabledRegions ids).isContainedIn q = true ↔
        ∀ x, q.start ≤ x → x < q.stop →
          ((ofCommands commands).disabledRegions ids).isSuppressed x = true) := by
  have hseparated := disabledRegions_isSeparated hsorted ids
  refine ⟨?_, hseparated.proper, hseparated.apart, ?_⟩
  · intro offset
    exact ⟨(isSuppressed_ofCommands hsorted ids offset).symm,
      (isSuppressed_disabledRegions hsorted ids offset).symm⟩
  · intro q hq
    exact DisabledRegions.isContainedIn_iff hseparated hq

/-- Commands of which two take effect at the same offset. -/
def touching : List AnchoredCommand :=
  [⟨.disable, ⟨false, ["colon"]⟩, 3, 3, .file⟩, ⟨.enable, ⟨false, ["colon"]⟩, 9, 9, .file⟩,
    ⟨.disable, ⟨true, []⟩, 9, 9, .file⟩, ⟨.enable, ⟨true, []⟩, 20, 20, .file⟩]

/-- The regions on both sides of the common offset become one. -/
theorem three_answers_agree_touching :
    Sorted touching ∧
    ((ofCommands touching).disabledRegions ["colon"]).isSuppressed 12 = true ∧
    ∀ x, 5 ≤ x → x < 15 →
      ((ofCommands touching).disabledRegions ["colon"]).isSuppressed x = true := by
  have hsorted : Sorted touching := by
    unfold Sorted
    decide
  obtain ⟨hanswers, -, -, hcontained⟩ := three_answers_agree hsorted ["colon"]
  refine ⟨hsorted, ?_, ?_⟩
  · rw [← (hanswers 12).2]
    decide
  · exact (hcontained ⟨5, 15, by omega⟩ (by decide)).mp (by decide)

end Regions

end SwiftTidy
