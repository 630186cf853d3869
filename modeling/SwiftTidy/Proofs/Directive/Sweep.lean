import SwiftTidy.Directive.Regions
import SwiftTidy.Directive.RuleSet
import SwiftTidy.Proofs.Data.StableSort
import SwiftTidy.Proofs.Directive.Regions
import SwiftTidy.Proofs.Text.Location

/-!
# The commands of directives and the sweep over them

A set of rules is looked at one name at a time: `has` says whether a name, or the wildcard, is in
it.  Each operation then acts on the answers (`has_union`, `has_difference`, `has_subtract`), and a
set covers a rule when it has one of the names under which the rule can be given (`covers_eq`).
A set read from a list has exactly the names of the list (`has_ofList`), in increasing order.

The commands of directives are sorted by offset, those of one directive stay in order, and the
plain ones are those of the plain directives (`expandAll_sorted`, `filter_expandAll`).  At an
offset that is on no target line every line that was started is over: the commands up to there are
plain ones and pairs of a start and its end (`linesClosed_expandAll`).

What a command does to the sweep is said one name at a time.  A plain command and the start of a
line set the names they are about (`has_step_of_ne_lineEnd`); the start of a line also opens it, with
the names that it changed (`pendingLines_step_lineStart`).  The end of a line closes one of the open
lines with its origin and sets the names back that this line changed (`close_cases`,
`step_lineEnd`).
-/

namespace SwiftTidy

/-- The names under which a rule can be given: the wildcard and its identifiers. -/
def RuleName.namesOf (ids : List String) : List RuleName := .all :: ids.map .named

namespace RuleSet

/-- Whether a name is in the set, the wildcard taken literally. -/
def has (s : RuleSet) : RuleName → Bool
  | .all => s.all
  | .named n => s.names.contains n

theorem mem_insertName {n m : String} {ns : List String} :
    m ∈ insertName n ns ↔ m = n ∨ m ∈ ns := by
  induction ns with
  | nil => simp [insertName]
  | cons k ns ih =>
    unfold insertName
    split
    · rw [List.mem_cons]
    · split
      · rw [List.mem_cons, List.mem_cons, ih]
        exact or_left_comm
      · rename_i hnk hkn
        have heq : n = k := String.le_antisymm (String.not_lt.mp hkn) (String.not_lt.mp hnk)
        rw [heq, List.mem_cons]
        exact (or_iff_right_of_imp .inl).symm

theorem mem_foldl_insertName {m : String} {ns ms : List String} :
    m ∈ ms.foldl (fun ns n => insertName n ns) ns ↔ m ∈ ns ∨ m ∈ ms := by
  induction ms generalizing ns with
  | nil => simp
  | cons k ms ih =>
    rw [List.foldl_cons, ih, mem_insertName, List.mem_cons]
    constructor
    · rintro ((rfl | h) | h)
      · exact .inr (.inl rfl)
      · exact .inl h
      · exact .inr (.inr h)
    · rintro (h | rfl | h)
      · exact .inl (.inr h)
      · exact .inl (.inl rfl)
      · exact .inr h

theorem mem_insertName_of_lt {n k : String} {ns : List String} (hk : k < n)
    (h : ∀ m ∈ ns, k < m) : ∀ m ∈ insertName n ns, k < m := by
  intro m hm
  rcases mem_insertName.mp hm with rfl | hm
  · exact hk
  · exact h m hm

/-- The names stay in increasing order. -/
theorem pairwise_insertName {n : String} {ns : List String} (h : ns.Pairwise (· < ·)) :
    (insertName n ns).Pairwise (· < ·) := by
  induction h with
  | nil => exact List.pairwise_singleton _ n
  | @cons k ns hk hns ih =>
    unfold insertName
    split
    · rename_i hnk
      refine List.pairwise_cons.mpr ⟨?_, List.pairwise_cons.mpr ⟨hk, hns⟩⟩
      intro m hm
      rcases List.mem_cons.mp hm with rfl | hm
      · exact hnk
      · exact String.lt_trans hnk (hk m hm)
    · split
      · rename_i hkn
        exact List.pairwise_cons.mpr ⟨mem_insertName_of_lt hkn hk, ih⟩
      · exact List.pairwise_cons.mpr ⟨hk, hns⟩

@[simp] theorem has_empty (i : RuleName) : empty.has i = false := by
  cases i <;> rfl

@[simp] theorem has_union (s t : RuleSet) (i : RuleName) :
    (s.union t).has i = (s.has i || t.has i) := by
  cases i with
  | all => rfl
  | named n =>
    rw [Bool.eq_iff_iff]
    simp only [has, union, List.contains_iff_mem, mem_foldl_insertName, Bool.or_eq_true]

@[simp] theorem has_difference (s t : RuleSet) (i : RuleName) :
    (s.difference t).has i = (s.has i && !t.has i) := by
  cases i with
  | all => rfl
  | named n =>
    rw [Bool.eq_iff_iff]
    simp [has, difference]

/-- Taking the wildcard away takes every name away. -/
@[simp] theorem has_subtract (s t : RuleSet) (i : RuleName) :
    (s.subtract t).has i = (s.has i && !(t.all || t.has i)) := by
  unfold subtract
  by_cases hall : t.all = true
  · rw [if_pos hall, has_empty, hall, Bool.true_or, Bool.not_true, Bool.and_false]
  · rw [if_neg hall, has_difference, Bool.eq_false_iff.mpr hall, Bool.false_or]

theorem has_insert (s : RuleSet) (i j : RuleName) :
    (s.insert j).has i = true ↔ s.has i = true ∨ i = j := by
  cases i with
  | all => cases j <;> simp [insert, has]
  | named n => cases j <;> simp [insert, has, mem_insertName, or_comm]

theorem has_foldl_insert {s : RuleSet} {i : RuleName} {xs : List RuleName} :
    (xs.foldl insert s).has i = true ↔ s.has i = true ∨ i ∈ xs := by
  induction xs generalizing s with
  | nil => simp
  | cons j xs ih => rw [List.foldl_cons, ih, has_insert, List.mem_cons, or_assoc]

/-- A set read from a list has exactly the names of the list. -/
theorem has_ofList {i : RuleName} {xs : List RuleName} :
    (ofList xs).has i = true ↔ i ∈ xs := by
  rw [ofList, has_foldl_insert, has_empty]
  exact or_iff_right Bool.false_ne_true

/-- The names of a set that is read from a list increase. -/
theorem pairwise_names_ofList (xs : List RuleName) : (ofList xs).names.Pairwise (· < ·) := by
  suffices h : ∀ s : RuleSet, s.names.Pairwise (· < ·) →
      (xs.foldl insert s).names.Pairwise (· < ·) from h empty List.Pairwise.nil
  induction xs with
  | nil => exact fun _ hs => hs
  | cons j xs ih =>
    intro s hs
    refine ih _ ?_
    cases j with
    | all => exact hs
    | named n => exact pairwise_insertName hs

/-- A set that has a name is not empty. -/
theorem isEmpty_of_has {s : RuleSet} {i : RuleName} (h : s.has i = true) : s.isEmpty = false := by
  cases i with
  | all =>
    have hall : s.all = true := h
    rw [isEmpty, hall, Bool.not_true, Bool.false_and]
  | named n =>
    have hmem : n ∈ s.names := List.contains_iff_mem.mp h
    rw [isEmpty, List.isEmpty_eq_false_iff.mpr (List.ne_nil_of_mem hmem), Bool.and_false]

/-- A set covers a rule when it has the wildcard or an identifier of the rule. -/
theorem covers_eq (s : RuleSet) (ids : List String) :
    s.covers ids = (RuleName.namesOf ids).any s.has := by
  rw [Bool.eq_iff_iff]
  simp only [covers, RuleName.namesOf, List.any_cons, List.any_map, Bool.or_eq_true,
    List.any_eq_true, has, Function.comp_apply, List.contains_iff_mem, and_comm]

end RuleSet

namespace Command

variable {cs : List Command} {ix : LineIndex}

theorem offset_trans (a b c : AnchoredCommand) (hab : decide (a.offset ≤ b.offset) = true)
    (hbc : decide (b.offset ≤ c.offset) = true) : decide (a.offset ≤ c.offset) = true := by
  simp only [decide_eq_true_eq] at *
  omega

theorem offset_total (a b : AnchoredCommand) :
    (decide (a.offset ≤ b.offset) || decide (b.offset ≤ a.offset)) = true := by
  simp only [Bool.or_eq_true, decide_eq_true_eq]
  omega

/-- Expanded commands are in the order of their offsets. -/
theorem expandAll_sorted (cs : List Command) (ix : LineIndex) :
    Regions.Sorted (expandAll cs ix) := by
  have h := List.pairwise_mergeSort offset_trans offset_total (cs.flatMap (·.expand ix))
  exact h.imp fun hle => by simpa using hle

/-- Expanded commands can be sorted by insertion. -/
theorem expandAll_eq_insertionSort (cs : List Command) (ix : LineIndex) :
    expandAll cs ix =
      (cs.flatMap (·.expand ix)).insertionSort
        (fun a b => decide (a.offset ≤ b.offset) = true) :=
  StableSort.mergeSort_eq_insertionSort offset_trans offset_total _

/-- A directive is plain, or its line does not exist, or it makes a start and an end. -/
theorem expand_cases (c : Command) (ix : LineIndex) :
    (c.modifier = none ∧ c.expand ix = [⟨c.action, c.rules, c.offset, c.offset, .file⟩]) ∨
    (c.modifier ≠ none ∧ c.expand ix = []) ∨
    ∃ m line, c.modifier = some m ∧ c.target? m ix = some line ∧
      c.expand ix = [⟨c.action, c.rules, ix.lineStart line, c.offset, .lineStart⟩,
        ⟨c.action.inverse, c.rules, ix.lineEnd line, c.offset, .lineEnd⟩] := by
  unfold expand
  rcases hmodifier : c.modifier with _ | m
  · exact .inl ⟨rfl, rfl⟩
  · rcases htarget : c.target? m ix with _ | line
    · exact .inr (.inl ⟨by simp, by simp only [htarget]⟩)
    · exact .inr (.inr ⟨m, line, rfl, htarget, by simp only [htarget]⟩)

/-- The plain commands are those of the plain directives. -/
theorem filter_expandAll (cs : List Command) (ix : LineIndex) :
    (expandAll cs ix).filter (·.scope == .file) = expandAll (cs.filter (·.modifier.isNone)) ix := by
  unfold expandAll
  rw [StableSort.filter_mergeSort offset_trans offset_total]
  congr 1
  induction cs with
  | nil => rfl
  | cons c cs ih =>
    rw [List.flatMap_cons, List.filter_append, ih]
    rcases expand_cases c ix with ⟨hnone, hexpand⟩ | ⟨hsome, hexpand⟩ | ⟨m, line, hsome, -, hexpand⟩
    · rw [List.filter_cons_of_pos (by simp [hnone]), List.flatMap_cons, hexpand]
      rfl
    · rw [List.filter_cons_of_neg (by simpa using hsome), hexpand]
      rfl
    · rw [List.filter_cons_of_neg (by simp [hsome]), hexpand]
      rfl

/-! ### Lines that are over -/

/-- Whether an offset lies on the line to which a directive is narrowed. -/
def isOnTarget (c : Command) (ix : LineIndex) (offset : Nat) : Bool :=
  match c.modifier with
  | none => false
  | some m => (c.target? m ix).any fun line => ix.lineStart line ≤ offset && offset < ix.lineEnd line

/-- Commands in which the start of every line is followed by its end. -/
inductive LinesClosed : List AnchoredCommand → Prop
  | nil : LinesClosed []
  | plain {front back : List AnchoredCommand} {c : AnchoredCommand} (hscope : c.scope = .file)
      (h : LinesClosed (front ++ back)) : LinesClosed (front ++ c :: back)
  | line {front middle back : List AnchoredCommand} {s e : AnchoredCommand}
      (hs : s.scope = .lineStart) (he : e.scope = .lineEnd) (horigin : s.origin = e.origin)
      (h : LinesClosed (front ++ middle ++ back)) :
      LinesClosed (front ++ s :: (middle ++ e :: back))

/-- Sorting one more command puts it behind the commands with smaller offsets. -/
theorem sort_cons (a : AnchoredCommand) (l : List AnchoredCommand) :
    ∃ front back, (a :: l).mergeSort (fun a b => a.offset ≤ b.offset) = front ++ a :: back ∧
      l.mergeSort (fun a b => a.offset ≤ b.offset) = front ++ back ∧
      ∀ b ∈ front, b.offset < a.offset := by
  obtain ⟨front, back, hcons, hrest, hfront, -⟩ :=
    StableSort.mergeSort_cons_split offset_trans offset_total a l
  exact ⟨front, back, hcons, hrest, fun b hb => by simpa using hfront b hb⟩

/-- Sorting the start and the end of a line puts the end behind the start. -/
theorem sort_line {s e : AnchoredCommand} (hle : s.offset ≤ e.offset) (l : List AnchoredCommand) :
    ∃ front middle back,
      (s :: e :: l).mergeSort (fun a b => a.offset ≤ b.offset) =
        front ++ s :: (middle ++ e :: back) ∧
      l.mergeSort (fun a b => a.offset ≤ b.offset) = front ++ middle ++ back := by
  obtain ⟨front, back, hs, hrest, hfront⟩ := sort_cons s (e :: l)
  obtain ⟨front', back', he, hrest', -⟩ := sort_cons e l
  rw [he] at hrest
  -- the commands in front of the start are all in front of the end
  rcases List.append_eq_append_iff.mp hrest with ⟨rest, hsplit, hback⟩ | ⟨middle, hsplit, hback⟩
  · cases rest with
    | nil =>
      rw [List.append_nil] at hsplit
      rw [List.nil_append] at hback
      refine ⟨front, [], back', ?_, ?_⟩
      · rw [hs, ← hback, List.nil_append]
      · rw [hrest', hsplit, List.append_nil]
    | cons b rest =>
      cases hback
      have hlt := hfront e (by simp [hsplit])
      omega
  · refine ⟨front, middle, back', ?_, ?_⟩
    · rw [hs, hback]
    · rw [hrest', hsplit]

/-- A target line ends where it starts or behind that. -/
theorem lineStart_le_lineEnd_target {c : Command} {m : Modifier} {line : OneIndexed}
    {text : String} (h : c.target? m (.ofText text) = some line) :
    (LineIndex.ofText text).lineStart line ≤ (LineIndex.ofText text).lineEnd line := by
  unfold target? at h
  obtain ⟨-, hline⟩ := Option.filter_eq_some_iff.mp h
  exact LineIndex.lineStart_le_lineEnd (by simpa using hline)

/-- Where an offset is on no target line, every line that was started is over. -/
theorem linesClosed_expandAll {text : String} {offset : Nat}
    (h : ∀ c ∈ cs, c.isOnTarget (.ofText text) offset = false) :
    LinesClosed ((expandAll cs (.ofText text)).filter (·.offset ≤ offset)) := by
  unfold expandAll
  induction cs with
  | nil => simpa using LinesClosed.nil
  | cons c cs ih =>
    obtain ⟨hc, hcs⟩ := List.forall_mem_cons.mp h
    have ih := ih hcs
    rw [List.flatMap_cons]
    rcases expand_cases c (.ofText text) with
      ⟨-, hexpand⟩ | ⟨-, hexpand⟩ | ⟨m, line, hmodifier, htarget, hexpand⟩
    · rw [hexpand, List.singleton_append]
      obtain ⟨front, back, hsort, hrest, -⟩ := sort_cons
        ⟨c.action, c.rules, c.offset, c.offset, .file⟩ (cs.flatMap (·.expand (.ofText text)))
      rw [hrest, List.filter_append] at ih
      rw [hsort, List.filter_append, List.filter_cons]
      split
      · exact .plain rfl ih
      · exact ih
    · rw [hexpand, List.nil_append]
      exact ih
    · rw [hexpand]
      have hle := lineStart_le_lineEnd_target htarget
      obtain ⟨front, middle, back, hsort, hrest⟩ := sort_line
        (s := ⟨c.action, c.rules, (LineIndex.ofText text).lineStart line, c.offset, .lineStart⟩)
        (e := ⟨c.action.inverse, c.rules, (LineIndex.ofText text).lineEnd line, c.offset, .lineEnd⟩)
        hle (cs.flatMap (·.expand (.ofText text)))
      rw [hrest] at ih
      rw [List.cons_append, List.singleton_append, hsort]
      simp only [List.filter_append, List.filter_cons, decide_eq_true_eq] at ih ⊢
      -- the offset is in front of both commands or behind both
      by_cases hbehind : (LineIndex.ofText text).lineEnd line ≤ offset
      · rw [if_pos (by omega), if_pos hbehind]
        exact .line rfl rfl rfl ih
      · have hfront : ¬ (LineIndex.ofText text).lineStart line ≤ offset := by
          unfold isOnTarget at hc
          rw [hmodifier] at hc
          simp only [htarget, Option.any_some, Bool.and_eq_false_iff, decide_eq_false_iff_not] at hc
          omega
        rw [if_neg hfront, if_neg hbehind, ← List.append_assoc]
        exact ih

end Command

/-- Whether a command is about a name.  A command that enables everything is about every name. -/
def AnchoredCommand.isAbout (c : AnchoredCommand) (i : RuleName) : Bool :=
  c.rules.has i || (c.action == .enable && c.rules.all)

namespace SweepState

variable {s : SweepState} {c : AnchoredCommand} {i : RuleName}

/-! ### The open lines -/

/-- The last element moves into the place of the one that is taken out. -/
theorem perm_cons_set_dropLast {α : Type} {l : List α} {x y : α} {k : Nat} (hx : l[k]? = some x)
    (hy : l.getLast? = some y) : l.Perm (x :: (l.set k y).dropLast) := by
  obtain ⟨front, rfl⟩ := List.getLast?_eq_some_iff.mp hy
  by_cases hk : k < front.length
  · rw [List.getElem?_append_left hk] at hx
    obtain ⟨hlt, hget⟩ := List.getElem?_eq_some_iff.mp hx
    rw [List.set_append_left _ _ hk, List.dropLast_concat, List.set_eq_take_append_cons_drop,
      if_pos hk]
    have hfront : front = front.take k ++ x :: front.drop (k + 1) := by
      rw [← hget, List.getElem_cons_drop, List.take_append_drop]
    -- `y` moves to the front, changes places with `x`, and moves into its old place
    have hmove : (front ++ [y]).Perm (y :: (front.take k ++ x :: front.drop (k + 1))) := by
      rw [← hfront]
      exact List.perm_append_singleton y front
    exact hmove.trans ((List.perm_middle.cons y).trans
      ((List.Perm.swap ..).trans (List.perm_middle.symm.cons x)))
  · have hlast : k = front.length := by
      obtain ⟨hlt, -⟩ := List.getElem?_eq_some_iff.mp hx
      simp only [List.length_append, List.length_singleton] at hlt
      omega
    subst hlast
    rw [List.getElem?_concat_length] at hx
    cases hx
    simp

/-- Closing a line takes one of the open lines with its origin, if there is one. -/
theorem close_cases (origin : Nat) (lines : List (Nat × Action × RuleSet)) :
    (close origin lines = none ∧ ∀ e ∈ lines, e.1 ≠ origin) ∨
    ∃ change rest, close origin lines = some (change, rest) ∧
      lines.Perm ((origin, change) :: rest) := by
  unfold close
  cases hfind : lines.findIdx? (·.1 == origin) with
  | none =>
    rw [List.findIdx?_eq_none_iff] at hfind
    exact .inl ⟨rfl, fun e he => by simpa using hfind e he⟩
  | some k =>
    obtain ⟨hk, horigin, -⟩ := List.findIdx?_eq_some_iff_getElem.mp hfind
    have hget := List.getElem?_eq_getElem hk
    have hne : lines ≠ [] := by
      rintro rfl
      cases hk
    have hlast := List.getLast?_eq_some_getLast hne
    right
    refine ⟨lines[k].2, (lines.set k (lines.getLast hne)).dropLast, ?_, ?_⟩
    · simp only [hget, hlast]
    · rw [← eq_of_beq horigin]
      exact perm_cons_set_dropLast hget hlast

/-! ### What a command does -/

/-- A command that is not the end of a line sets the names it is about. -/
theorem has_step_of_ne_lineEnd (hscope : c.scope ≠ .lineEnd) :
    (s.step c).disabled.has i =
      if c.isAbout i then c.action == .disable else s.disabled.has i := by
  unfold step AnchoredCommand.isAbout
  rw [if_neg (by simpa using hscope)]
  cases c.action with
  | disable => cases hrules : c.rules.has i <;> simp [hrules]
  | enable => cases hrules : c.rules.has i <;> cases hall : c.rules.all <;> simp [hrules, hall]

theorem pendingLines_step_file (hscope : c.scope = .file) :
    (s.step c).pendingLines = s.pendingLines := by
  unfold step
  rw [hscope]
  cases c.action <;> rfl

/-- The start of a line opens it, with the names that it sets to another value than before. -/
theorem pendingLines_step_lineStart (hscope : c.scope = .lineStart) :
    ∃ changed, (s.step c).pendingLines = s.pendingLines ++ [(c.origin, c.action, changed)] ∧
      ∀ i, changed.has i = (c.isAbout i && (s.disabled.has i != (c.action == .disable))) := by
  unfold step AnchoredCommand.isAbout
  rw [hscope]
  cases c.action with
  | disable =>
    refine ⟨_, rfl, fun i => ?_⟩
    cases hrules : c.rules.has i <;> cases hhas : s.disabled.has i <;> simp [hrules, hhas]
  | enable =>
    refine ⟨_, rfl, fun i => ?_⟩
    cases hrules : c.rules.has i <;> cases hhas : s.disabled.has i <;> cases hall : c.rules.all <;>
      simp [hrules, hhas, hall]

/-- The end of a line closes it, and sets the names that its start changed back. -/
theorem step_lineEnd (hscope : c.scope = .lineEnd) {action : Action} {changed : RuleSet}
    {rest : List (Nat × Action × RuleSet)}
    (hclose : close c.origin s.pendingLines = some ((action, changed), rest)) :
    (s.step c).pendingLines = rest ∧
      ∀ i, (s.step c).disabled.has i =
        if changed.has i then action == .enable else s.disabled.has i := by
  have hend : (c.scope == .lineEnd) = true := by rw [hscope]; rfl
  unfold step
  rw [if_pos hend, hclose]
  cases action with
  | disable =>
    refine ⟨rfl, fun i => ?_⟩
    cases hchanged : changed.has i <;> simp [hchanged]
  | enable =>
    refine ⟨rfl, fun i => ?_⟩
    cases hchanged : changed.has i <;> simp [hchanged]

theorem step_lineEnd_of_none (hscope : c.scope = .lineEnd)
    (hclose : close c.origin s.pendingLines = none) : s.step c = s := by
  have hend : (c.scope == .lineEnd) = true := by rw [hscope]; rfl
  unfold step
  rw [if_pos hend, hclose]

end SweepState

end SwiftTidy
