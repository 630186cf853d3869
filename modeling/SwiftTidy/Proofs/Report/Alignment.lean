import Mathlib.Order.Bounds.Defs
import Mathlib.Tactic.SplitIfs
import SwiftTidy.Report.UnifiedDiff

/-!
# Shortest alignments

The lines of two texts are aligned without loss: what is not added are the old lines, and what is
not removed are the new ones (`lines_aligns`).  No alignment removes and adds fewer lines, since the
lines it keeps are a longest common subsequence (`lines_shortest`).

The table holds a number for every rest of the old lines with every rest of the new ones.  `lcs` is
the number in its first corner; with the lines that are passed its first rows and columns go, so that
`lcs` and the alignment have equations in which no table occurs.
-/

namespace SwiftTidy

namespace DiffLine

variable (t : String)

@[simp] theorem old?_same : (same t).old? = some t := rfl

@[simp] theorem old?_removed : (removed t).old? = some t := rfl

@[simp] theorem old?_added : (added t).old? = none := rfl

@[simp] theorem new?_same : (same t).new? = some t := rfl

@[simp] theorem new?_removed : (removed t).new? = none := rfl

@[simp] theorem new?_added : (added t).new? = some t := rfl

@[simp] theorem isSame_same : (same t).isSame = true := rfl

@[simp] theorem isSame_removed : (removed t).isSame = false := rfl

@[simp] theorem isSame_added : (added t).isSame = false := rfl

end DiffLine

namespace UnifiedDiff

/-- The old lines of a script: what it does not add. -/
def oldLines (script : List DiffLine) : List String := script.filterMap (·.old?)

/-- The new lines of a script: what it does not remove. -/
def newLines (script : List DiffLine) : List String := script.filterMap (·.new?)

/-- The number of lines that a script keeps. -/
def kept (script : List DiffLine) : Nat := script.countP DiffLine.isSame

/-- The number of lines that a script removes or adds. -/
def edits (script : List DiffLine) : Nat := script.countP fun l => !l.isSame

/-- A script from the old lines to the new ones. -/
structure Aligns (script : List DiffLine) (old new : List String) : Prop where
  old_eq : oldLines script = old
  new_eq : newLines script = new

section Cons

variable (l : DiffLine) (ls : List DiffLine)

@[simp] theorem oldLines_cons : oldLines (l :: ls) = l.old?.toList ++ oldLines ls := by
  cases l <;> rfl

@[simp] theorem newLines_cons : newLines (l :: ls) = l.new?.toList ++ newLines ls := by
  cases l <;> rfl

@[simp] theorem kept_cons : kept (l :: ls) = kept ls + l.isSame.toNat := by
  rw [kept, List.countP_cons]
  cases l <;> rfl

@[simp] theorem edits_cons : edits (l :: ls) = edits ls + (!l.isSame).toNat := by
  rw [edits, List.countP_cons]
  cases l <;> rfl

end Cons

@[simp] theorem oldLines_nil : oldLines [] = [] := rfl

@[simp] theorem newLines_nil : newLines [] = [] := rfl

@[simp] theorem kept_nil : kept [] = 0 := rfl

@[simp] theorem edits_nil : edits [] = 0 := rfl

/-! ### The table -/

/-- The number that the table holds for all of the lines. -/
def lcs (old new : List String) : Nat := ((lcsTable new old).headD []).headD 0

/-- The alignment along the table of the lines. -/
def alignment (old new : List String) : List DiffLine := align old new (lcsTable new old)

variable {a b : String} {as bs old new : List String}

/-- Without its first column a table is that of the new lines behind the first. -/
theorem map_tail_lcsTable (b : String) (bs old : List String) :
    (lcsTable (b :: bs) old).map List.tail = lcsTable bs old := by
  induction old with
  | nil => rfl
  | cons a as ih =>
    have hbelow : ((lcsTable (b :: bs) as).headD []).tail = (lcsTable bs as).headD [] := by
      rw [← ih]
      cases lcsTable (b :: bs) as with
      | nil => rfl
      | cons row rows => rfl
    rw [lcsTable, lcsTable, List.map_cons, ih, lcsRow, hbelow, List.tail_cons]

/-- Without its first entry a row is that of the new lines behind the first. -/
theorem headD_tail_lcsTable (b : String) (bs old : List String) :
    ((lcsTable (b :: bs) old).headD []).tail = (lcsTable bs old).headD [] := by
  rw [← map_tail_lcsTable b bs old]
  cases lcsTable (b :: bs) old with
  | nil => rfl
  | cons row rows => rfl

theorem lcs_nil_left (new : List String) : lcs [] new = 0 := rfl

theorem lcs_nil_right (old : List String) : lcs old [] = 0 := by
  cases old with
  | nil => rfl
  | cons a as => rfl

theorem lcs_cons_cons (a b : String) (as bs : List String) : lcs (a :: as) (b :: bs) =
    if a == b then lcs as bs + 1 else max (lcs as (b :: bs)) (lcs (a :: as) bs) := by
  have hbelow := headD_tail_lcsTable b bs as
  show (lcsRow a (b :: bs) ((lcsTable (b :: bs) as).headD [])).headD 0 = _
  rw [lcsRow, hbelow]
  rfl

theorem alignment_nil_left (new : List String) : alignment [] new = new.map .added := rfl

theorem alignment_nil_right (a : String) (as : List String) :
    alignment (a :: as) [] = (a :: as).map .removed := rfl

theorem alignment_cons_cons (a b : String) (as bs : List String) :
    alignment (a :: as) (b :: bs) =
      if a == b then .same a :: alignment as bs
      else if lcs (a :: as) bs ≤ lcs as (b :: bs) then .removed a :: alignment as (b :: bs)
      else .added b :: alignment (a :: as) bs := by
  have htail : (lcsTable (b :: bs) (a :: as)).tail = lcsTable (b :: bs) as := rfl
  have hright : (((lcsTable (b :: bs) (a :: as)).headD []).tail).headD 0 = lcs (a :: as) bs := by
    rw [headD_tail_lcsTable]
    rfl
  show alignFirst a as (align as) (b :: bs) (lcsTable (b :: bs) (a :: as)) = _
  rw [alignFirst, htail, hright, map_tail_lcsTable, map_tail_lcsTable]
  rfl

/-! ### What an alignment keeps -/

theorem aligns_added (new : List String) : Aligns (new.map .added) [] new := by
  constructor
  · simp [oldLines]
  · simp [newLines, List.filterMap_map, Function.comp_def]

theorem aligns_removed (old : List String) : Aligns (old.map .removed) old [] := by
  constructor
  · simp [oldLines, List.filterMap_map, Function.comp_def]
  · simp [newLines]

/-- What is not added are the old lines, and what is not removed are the new ones. -/
theorem alignment_aligns (old new : List String) : Aligns (alignment old new) old new := by
  induction old generalizing new with
  | nil => exact aligns_added new
  | cons a as ihold =>
    induction new with
    | nil => exact aligns_removed (a :: as)
    | cons b bs ihnew =>
      rw [alignment_cons_cons]
      split_ifs with heq hle
      · obtain rfl : a = b := eq_of_beq heq
        have hrest := ihold bs
        constructor
        · simp [hrest.old_eq]
        · simp [hrest.new_eq]
      · have hrest := ihold (b :: bs)
        constructor
        · simp [hrest.old_eq]
        · simp [hrest.new_eq]
      · constructor
        · simp [ihnew.old_eq]
        · simp [ihnew.new_eq]

/-- As many lines are kept as the table says. -/
theorem kept_alignment (old new : List String) : kept (alignment old new) = lcs old new := by
  induction old generalizing new with
  | nil => simp [alignment_nil_left, lcs_nil_left, kept]
  | cons a as ihold =>
    induction new with
    | nil => simp [alignment_nil_right, lcs_nil_right, kept]
    | cons b bs ihnew =>
      rw [alignment_cons_cons, lcs_cons_cons]
      split_ifs with heq hle
      · simp [ihold]
      · simp [ihold, hle]
      · simp [ihnew, Nat.le_of_not_le hle]

/-- No common subsequence is longer than the table says. -/
theorem length_le_lcs {common : List String} (hold : common.Sublist old)
    (hnew : common.Sublist new) : common.length ≤ lcs old new := by
  induction old generalizing new common with
  | nil =>
    rw [List.sublist_nil.mp hold]
    exact Nat.zero_le _
  | cons a as ihold =>
    induction new generalizing common with
    | nil =>
      rw [List.sublist_nil.mp hnew]
      exact Nat.zero_le _
    | cons b bs ihnew =>
      rw [lcs_cons_cons]
      split_ifs with heq
      · -- at most one of the common lines is taken from the two first lines
        have hrest : common.tail.length ≤ lcs as bs := ihold hold.tail hnew.tail
        rw [List.length_tail] at hrest
        omega
      · -- the first common line is not the first old line or not the first new one
        have hne : a ≠ b := by simpa using heq
        rcases List.sublist_cons_iff.mp hold with hskip | ⟨common', rfl, hold'⟩
        · have hle := ihold hskip hnew
          omega
        · have hskip : (a :: common').Sublist bs := by
            rcases List.sublist_cons_iff.mp hnew with hskip | ⟨rest, hcons, -⟩
            · exact hskip
            · exact absurd (List.cons.inj hcons).1 hne
          have hle := ihnew hold hskip
          omega

/-! ### Scripts -/

/-- The lines that a script keeps are a common subsequence. -/
theorem exists_common (script : List DiffLine) : ∃ common : List String,
    common.Sublist (oldLines script) ∧ common.Sublist (newLines script) ∧
      common.length = kept script := by
  induction script with
  | nil => exact ⟨[], .slnil, .slnil, rfl⟩
  | cons line script ih =>
    obtain ⟨common, hold, hnew, hlen⟩ := ih
    cases line with
    | same t =>
      refine ⟨t :: common, ?_, ?_, ?_⟩
      · simpa using hold
      · simpa using hnew
      · simpa using hlen
    | removed t =>
      refine ⟨common, ?_, ?_, ?_⟩
      · simpa using hold.cons t
      · simpa using hnew
      · simpa using hlen
    | added t =>
      refine ⟨common, ?_, ?_, ?_⟩
      · simpa using hold
      · simpa using hnew.cons t
      · simpa using hlen

/-- A line that a script keeps is an old and a new line, and every other is one of them. -/
theorem edits_add_kept (script : List DiffLine) :
    edits script + 2 * kept script = (oldLines script).length + (newLines script).length := by
  induction script with
  | nil => rfl
  | cons line script ih => cases line <;> simp <;> omega

/-- The alignment of two texts leads from the lines of the old one to those of the new one. -/
theorem lines_aligns (old new : String) :
    Aligns (lines old new) (Words.lines old) (Words.lines new) := alignment_aligns _ _

/-- **Shortest alignments**: as many lines of two texts are kept as a longest common subsequence of
their lines has, and no script from the old lines to the new ones removes and adds fewer. -/
theorem lines_shortest (old new : String) :
    IsGreatest {n | ∃ common : List String, common.Sublist (Words.lines old) ∧
        common.Sublist (Words.lines new) ∧ common.length = n} (kept (lines old new)) ∧
      IsLeast {n | ∃ script, Aligns script (Words.lines old) (Words.lines new) ∧ edits script = n}
        (edits (lines old new)) := by
  have haligns := lines_aligns old new
  have hkept : kept (lines old new) = lcs (Words.lines old) (Words.lines new) :=
    kept_alignment _ _
  refine ⟨⟨?_, ?_⟩, ⟨⟨_, haligns, rfl⟩, ?_⟩⟩
  · have hcommon := exists_common (lines old new)
    rwa [haligns.old_eq, haligns.new_eq] at hcommon
  · rintro n ⟨common, hold, hnew, rfl⟩
    rw [hkept]
    exact length_le_lcs hold hnew
  · rintro n ⟨script, ⟨hold, hnew⟩, rfl⟩
    -- with fewer edits a script would keep more lines than any common subsequence has
    obtain ⟨common, hcommon, hcommon', hlen⟩ := exists_common script
    rw [hold] at hcommon
    rw [hnew] at hcommon'
    have hle := length_le_lcs hcommon hcommon'
    have hedits := edits_add_kept (lines old new)
    have hedits' := edits_add_kept script
    rw [haligns.old_eq, haligns.new_eq] at hedits
    rw [hold, hnew] at hedits'
    omega

end UnifiedDiff

end SwiftTidy
