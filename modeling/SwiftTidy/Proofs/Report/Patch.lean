import Mathlib.Data.List.Basic
import Mathlib.Data.List.TakeDrop
import SwiftTidy.Proofs.Report.Alignment

/-!
# Differences as patches

The stretches of lines that are shown are what lies around the changes, apart from each other
(`mem_hunks_iff`, `hunks_pairwise`).  Every header tells where its hunk stands in both texts, and the
original becomes the corrected text when the range of each header is replaced by the new lines of its
hunk (`render_patches`).

What carries the induction over the stretches: the one that is open ends behind the last change that
was looked at, and all later changes lie behind that one.
-/

namespace SwiftTidy

namespace UnifiedDiff

variable {ls : List DiffLine} {i j start count : Nat} {is : List Nat} {stretch : Nat × Nat}

/-! ### Changes -/

/-- Whether there is a line at an index that is not in both texts. -/
def IsChange (ls : List DiffLine) (i : Nat) : Prop := ∃ l, ls[i]? = some l ∧ l.isSame = false

theorem IsChange.lt_length (h : IsChange ls i) : i < ls.length := by
  obtain ⟨l, hl, -⟩ := h
  exact (List.getElem?_eq_some_iff.mp hl).1

/-- The changes are found, counted from the given number on. -/
theorem mem_changed_iff : j ∈ changed i ls ↔ i ≤ j ∧ IsChange ls (j - i) := by
  induction ls generalizing i with
  | nil => simp [changed, IsChange]
  | cons l ls ih =>
    -- the first line has the number `i`, and every other one a greater one
    have hhead : IsChange (l :: ls) 0 ↔ l.isSame = false := by simp [IsChange]
    have htail : ∀ {k}, i + 1 ≤ k → (IsChange (l :: ls) (k - i) ↔ IsChange ls (k - (i + 1))) := by
      intro k hk
      have hsub : k - i = k - (i + 1) + 1 := by omega
      rw [IsChange, hsub, List.getElem?_cons_succ]
      rfl
    have hcases : i ≤ j ↔ j = i ∨ i + 1 ≤ j := by omega
    unfold changed
    cases hsame : l.isSame with
    | true =>
      rw [if_pos rfl, ih]
      constructor
      · rintro ⟨hlt, hchange⟩
        exact ⟨by omega, (htail hlt).mpr hchange⟩
      · rintro ⟨hle, hchange⟩
        rcases hcases.mp hle with rfl | hlt
        · rw [Nat.sub_self, hhead, hsame] at hchange
          cases hchange
        · exact ⟨hlt, (htail hlt).mp hchange⟩
    | false =>
      rw [if_neg Bool.false_ne_true, List.mem_cons, ih, hcases, or_and_right]
      refine or_congr ?_ (and_congr_right fun hlt => (htail hlt).symm)
      constructor
      · rintro rfl
        exact ⟨rfl, by rwa [Nat.sub_self, hhead]⟩
      · exact And.left

theorem changed_pairwise (i : Nat) (ls : List DiffLine) : (changed i ls).Pairwise (· < ·) := by
  induction ls generalizing i with
  | nil => exact .nil
  | cons l ls ih =>
    unfold changed
    split
    · exact ih (i + 1)
    · refine List.pairwise_cons.mpr ⟨?_, ih (i + 1)⟩
      intro j hj
      exact (mem_changed_iff.mp hj).1

/-! ### Stretches -/

/-- The open stretch goes on to the end of the context of the change that was looked at last, and
the changes that are left come behind that one. -/
structure Open (count start i : Nat) (is : List Nat) : Prop where
  start_le : start + context ≤ i ∨ start = 0
  lt_count : i < count
  pairwise : (i :: is).Pairwise (· < ·)
  forall_lt : ∀ j ∈ is, j < count

/-- Where the context of a change ends. -/
abbrev contextEnd (count i : Nat) : Nat := min (i + context + 1) count

theorem Open.next (h : Open count start i (j :: is)) : Open count start j is := by
  have hlt : i < j := (List.pairwise_cons.mp h.pairwise).1 j List.mem_cons_self
  have hstart := h.start_le
  exact ⟨by omega, h.forall_lt j List.mem_cons_self, (List.pairwise_cons.mp h.pairwise).2,
    fun k hk => h.forall_lt k (List.mem_cons_of_mem _ hk)⟩

theorem Open.fresh (h : Open count start i (j :: is)) : Open count (j - context) j is :=
  ⟨by omega, h.forall_lt j List.mem_cons_self, (List.pairwise_cons.mp h.pairwise).2,
    fun k hk => h.forall_lt k (List.mem_cons_of_mem _ hk)⟩

/-- What is shown is the open stretch and the contexts of the changes that are left. -/
theorem exists_mem_hunksFrom_iff (h : Open count start i is) (k : Nat) :
    (∃ s ∈ hunksFrom count (start, contextEnd count i) is, s.1 ≤ k ∧ k < s.2) ↔
      (start ≤ k ∧ k < contextEnd count i) ∨ ∃ j ∈ is, j - context ≤ k ∧ k < contextEnd count j := by
  induction is generalizing start i with
  | nil => simp [hunksFrom]
  | cons j is ih =>
    have hlt : i < j := (List.pairwise_cons.mp h.pairwise).1 j List.mem_cons_self
    have hstart := h.start_le
    rw [hunksFrom, List.exists_mem_cons_iff]
    split
    · next hle =>
      rw [ih h.next, ← or_assoc]
      refine or_congr_left ?_
      -- the context of the next change touches the open stretch, and both become one
      dsimp only at hle
      unfold contextEnd context at *
      omega
    · rw [List.exists_mem_cons_iff, ih h.fresh]

/-- The stretches are not empty, stay among the lines and start with the open one. -/
theorem bounds_of_mem_hunksFrom (h : Open count start i is) :
    ∀ s ∈ hunksFrom count (start, contextEnd count i) is, start ≤ s.1 ∧ s.1 < s.2 ∧ s.2 ≤ count := by
  have hstart := h.start_le
  have hcount := h.lt_count
  have hopen : start < contextEnd count i ∧ contextEnd count i ≤ count := by
    unfold contextEnd context at *
    omega
  induction is generalizing start i with
  | nil =>
    intro s hs
    rw [hunksFrom, List.mem_singleton] at hs
    rw [hs]
    exact ⟨Nat.le_refl _, hopen⟩
  | cons j is ih =>
    have hlt : i < j := (List.pairwise_cons.mp h.pairwise).1 j List.mem_cons_self
    have hj := h.forall_lt j List.mem_cons_self
    rw [hunksFrom]
    split
    · next hle =>
      refine ih h.next ?_ hj ?_
      · omega
      · unfold contextEnd context at *
        omega
    · intro s hs
      rcases List.mem_cons.mp hs with rfl | hs
      · exact ⟨Nat.le_refl _, hopen⟩
      · have hbounds := ih h.fresh ?_ hj ?_ s hs
        · refine ⟨?_, hbounds.2⟩
          unfold contextEnd context at *
          omega
        · omega
        · unfold contextEnd context at *
          omega

/-- Between two stretches there is a line that is not shown. -/
theorem hunksFrom_pairwise (h : Open count start i is) :
    (hunksFrom count (start, contextEnd count i) is).Pairwise fun s t => s.2 < t.1 := by
  induction is generalizing start i with
  | nil => exact List.pairwise_singleton _ _
  | cons j is ih =>
    rw [hunksFrom]
    split
    · next hle => exact ih h.next
    · next hlt =>
      refine List.pairwise_cons.mpr ⟨?_, ih h.fresh⟩
      intro s hs
      have hbounds := bounds_of_mem_hunksFrom h.fresh s hs
      dsimp only at hlt ⊢
      omega

theorem open_changed (h : changed 0 ls = i :: is) : Open ls.length (i - context) i is := by
  have hmem : ∀ j ∈ i :: is, j < ls.length := by
    intro j hj
    exact (mem_changed_iff.mp (h ▸ hj)).2.lt_length
  refine ⟨by omega, hmem i List.mem_cons_self, h ▸ changed_pairwise 0 ls, ?_⟩
  intro j hj
  exact hmem j (List.mem_cons_of_mem _ hj)

/-- **What is shown**: a line is shown when there is a change at most two lines away. -/
theorem mem_hunks_iff (ls : List DiffLine) (k : Nat) :
    (∃ s ∈ hunks ls, s.1 ≤ k ∧ k < s.2) ↔
      k < ls.length ∧ ∃ j, IsChange ls j ∧ j ≤ k + 2 ∧ k ≤ j + 2 := by
  have hchange : ∀ j, j ∈ changed 0 ls ↔ IsChange ls j := by
    intro j
    rw [mem_changed_iff]
    simp
  unfold hunks
  cases hchanged : changed 0 ls with
  | nil =>
    rw [hchanged] at hchange
    simp [← hchange]
  | cons i is =>
    rw [hchanged] at hchange
    have hcontexts := (exists_mem_hunksFrom_iff (open_changed hchanged) k).trans
      (List.exists_mem_cons_iff
        (fun j => j - context ≤ k ∧ k < contextEnd ls.length j) i is).symm
    simp only [hchange] at hcontexts
    refine hcontexts.trans ?_
    unfold contextEnd context
    constructor
    · rintro ⟨j, hj, hjk, hkj⟩
      exact ⟨by omega, j, hj, by omega, by omega⟩
    · rintro ⟨hk, j, hj, hjk, hkj⟩
      exact ⟨j, hj, by omega, by omega⟩

theorem bounds_of_mem_hunks (h : stretch ∈ hunks ls) : stretch.1 < stretch.2 ∧ stretch.2 ≤ ls.length := by
  unfold hunks at h
  cases hchanged : changed 0 ls with
  | nil =>
    rw [hchanged] at h
    cases h
  | cons i is =>
    rw [hchanged] at h
    exact (bounds_of_mem_hunksFrom (open_changed hchanged) stretch h).2

/-- Nothing is shown exactly of lines that are all in both texts. -/
theorem hunks_eq_nil_iff : hunks ls = [] ↔ ls.all DiffLine.isSame = true := by
  have hall : ls.all DiffLine.isSame = true ↔ ∀ j, ¬ IsChange ls j := by
    rw [List.all_eq_true]
    constructor
    · rintro hsame j ⟨l, hl, hchange⟩
      rw [hsame l (List.mem_of_getElem? hl)] at hchange
      cases hchange
    · intro hnone l hl
      obtain ⟨j, hj⟩ := List.mem_iff_getElem?.mp hl
      by_contra hne
      exact hnone j ⟨l, hj, by simpa using hne⟩
  rw [hall]
  constructor
  · intro hnil j hj
    obtain ⟨s, hs, -⟩ := (mem_hunks_iff ls j).mpr ⟨hj.lt_length, j, hj, by omega, by omega⟩
    rw [hnil] at hs
    cases hs
  · intro hnone
    refine List.eq_nil_iff_forall_not_mem.mpr fun s hs => ?_
    -- the first line of a stretch is near a change
    have hlt := (bounds_of_mem_hunks hs).1
    obtain ⟨-, j, hj, -⟩ := (mem_hunks_iff ls s.1).mp ⟨s, hs, Nat.le_refl _, hlt⟩
    exact hnone j hj

/-- Between two stretches that are shown there is a line that is not. -/
theorem hunks_pairwise (ls : List DiffLine) : (hunks ls).Pairwise fun s t => s.2 < t.1 := by
  unfold hunks
  cases hchanged : changed 0 ls with
  | nil => exact .nil
  | cons i is => exact hunksFrom_pairwise (open_changed hchanged)

/-! ### Hunks -/

/-- A hunk: the numbers in its header and the lines below it. -/
structure Hunk where
  oldStart : Nat
  oldCount : Nat
  newStart : Nat
  newCount : Nat
  body : List DiffLine

namespace Hunk

/-- The hunk that is shown of a stretch of lines. -/
def ofStretch (ls : List DiffLine) (stretch : Nat × Nat) : Hunk :=
  let front := ls.take stretch.1
  let body := (ls.take stretch.2).drop stretch.1
  ⟨1 + (oldLines front).length, (oldLines body).length, 1 + (newLines front).length,
    (newLines body).length, body⟩

/-- The printed form of a hunk. -/
def display (color : Bool) (h : Hunk) : String :=
  Color.cyan.paint color s!"@@ -{h.oldStart},{h.oldCount} +{h.newStart},{h.newCount} @@" ++ "\n" ++
    String.join (h.body.map fun l => l.display color ++ "\n")

/-- The header tells the truth: the lines of each text from the start on, as many as it says, are
those of the hunk. -/
structure IsTrue (h : Hunk) (old new : List String) : Prop where
  oldStart_pos : 0 < h.oldStart
  newStart_pos : 0 < h.newStart
  oldCount_eq : h.oldCount = (oldLines h.body).length
  newCount_eq : h.newCount = (newLines h.body).length
  oldLines_eq : (old.drop (h.oldStart - 1)).take h.oldCount = oldLines h.body
  newLines_eq : (new.drop (h.newStart - 1)).take h.newCount = newLines h.body

end Hunk

/-- The old lines, the first of which has the number `line`, with the range of each hunk replaced by
its new lines. -/
def patchFrom : (line : Nat) → List Hunk → (old : List String) → List String
  | _, [], old => old
  | line, h :: hs, old =>
    let front := h.oldStart - line
    old.take front ++ newLines h.body ++
      patchFrom (h.oldStart + h.oldCount) hs (old.drop (front + h.oldCount))

/-- The old lines with the range of each hunk replaced by its new lines. -/
def patch (hs : List Hunk) (old : List String) : List String := patchFrom 1 hs old

@[simp] theorem oldLines_append (ls ms : List DiffLine) :
    oldLines (ls ++ ms) = oldLines ls ++ oldLines ms := List.filterMap_append

@[simp] theorem newLines_append (ls ms : List DiffLine) :
    newLines (ls ++ ms) = newLines ls ++ newLines ms := List.filterMap_append

/-- Lines are those in front of a stretch, those of the stretch and those behind it. -/
theorem eq_append_stretch (ls : List DiffLine) (h : stretch.1 ≤ stretch.2) :
    ls = ls.take stretch.1 ++ (Hunk.ofStretch ls stretch).body ++ ls.drop stretch.2 := by
  show ls = ls.take stretch.1 ++ (ls.take stretch.2).drop stretch.1 ++ ls.drop stretch.2
  have hfront : ls.take stretch.1 = (ls.take stretch.2).take stretch.1 := by
    rw [List.take_take, Nat.min_eq_left h]
  rw [hfront, List.take_append_drop, List.take_append_drop]

/-- The header of a hunk tells the truth about the texts that the lines align. -/
theorem isTrue_ofStretch (ls : List DiffLine) (h : stretch.1 ≤ stretch.2) :
    (Hunk.ofStretch ls stretch).IsTrue (oldLines ls) (newLines ls) := by
  have hsplit := eq_append_stretch ls h
  constructor
  · exact Nat.lt_add_right _ Nat.one_pos
  · exact Nat.lt_add_right _ Nat.one_pos
  · rfl
  · rfl
  · have hold := congrArg oldLines hsplit
    rw [oldLines_append, oldLines_append, List.append_assoc] at hold
    have hstart : (Hunk.ofStretch ls stretch).oldStart - 1 = (oldLines (ls.take stretch.1)).length :=
      Nat.add_sub_cancel_left _ _
    rw [hold, hstart, List.drop_left]
    exact List.take_left
  · have hnew := congrArg newLines hsplit
    rw [newLines_append, newLines_append, List.append_assoc] at hnew
    have hstart : (Hunk.ofStretch ls stretch).newStart - 1 = (newLines (ls.take stretch.1)).length :=
      Nat.add_sub_cancel_left _ _
    rw [hnew, hstart, List.drop_left]
    exact List.take_left

/-! ### Applying the hunks -/

/-- Lines without a change are the same in both texts. -/
theorem oldLines_eq_newLines (h : ∀ l ∈ ls, l.isSame = true) : oldLines ls = newLines ls := by
  induction ls with
  | nil => rfl
  | cons l ls ih =>
    obtain ⟨hl, hls⟩ := List.forall_mem_cons.mp h
    cases l with
    | same t => simp [ih hls]
    | removed t => cases hl
    | added t => cases hl

theorem isSame_of_mem_drop_take {s t : Nat} (h : ∀ k, s ≤ k → k < t → ¬ IsChange ls k) :
    ∀ l ∈ (ls.take t).drop s, l.isSame = true := by
  intro l hl
  obtain ⟨n, hn⟩ := List.mem_iff_getElem?.mp hl
  rw [List.getElem?_drop, List.getElem?_take] at hn
  split at hn
  · next hlt =>
    by_contra hne
    exact h (s + n) (Nat.le_add_right _ _) hlt ⟨l, hn, by simpa using hne⟩
  · cases hn

/-- The lines in front of a hunk stay, and its old lines become its new ones. -/
theorem patchFrom_cons {line : Nat} {h : Hunk} {gap : List String}
    (hstart : h.oldStart = line + gap.length) (hcount : h.oldCount = (oldLines h.body).length)
    (hs : List Hunk) (behind : List String) :
    patchFrom line (h :: hs) (gap ++ oldLines h.body ++ behind) =
      gap ++ newLines h.body ++ patchFrom (h.oldStart + h.oldCount) hs behind := by
  have hfront : h.oldStart - line = gap.length := by omega
  have hdrop : (gap ++ oldLines h.body ++ behind).drop (gap.length + h.oldCount) = behind := by
    rw [hcount, ← List.length_append, List.drop_left]
  rw [patchFrom, hfront, hdrop, List.append_assoc gap (oldLines h.body), List.take_left]

/-- From any line on, the old lines become the new ones, if the stretches that are left hold all
changes from there on. -/
theorem patchFrom_eq {stretches : List (Nat × Nat)} {p : Nat} (hp : p ≤ ls.length)
    (hpairwise : stretches.Pairwise fun s t => s.2 < t.1)
    (hbounds : ∀ s ∈ stretches, p ≤ s.1 ∧ s.1 < s.2 ∧ s.2 ≤ ls.length)
    (hchange : ∀ k, p ≤ k → IsChange ls k → ∃ s ∈ stretches, s.1 ≤ k ∧ k < s.2) :
    patchFrom (1 + (oldLines (ls.take p)).length) (stretches.map (Hunk.ofStretch ls))
      (oldLines (ls.drop p)) = newLines (ls.drop p) := by
  induction stretches generalizing p with
  | nil =>
    have hsame : ∀ l ∈ (ls.take ls.length).drop p, l.isSame = true := by
      refine isSame_of_mem_drop_take fun k hk _ hk' => ?_
      obtain ⟨s, hs, -⟩ := hchange k hk hk'
      cases hs
    rw [List.take_length] at hsame
    exact oldLines_eq_newLines hsame
  | cons s stretches ih =>
    obtain ⟨⟨hps, hlt, hle⟩, hbounds⟩ := List.forall_mem_cons.mp hbounds
    obtain ⟨hapart, hpairwise⟩ := List.pairwise_cons.mp hpairwise
    -- what stands between here and the stretch, and what is left behind it
    let gap := (ls.take s.1).drop p
    let body := (Hunk.ofStretch ls s).body
    have hfront : ls.take s.1 = ls.take p ++ gap := by
      show ls.take s.1 = ls.take p ++ (ls.take s.1).drop p
      conv_lhs => rw [← List.take_append_drop p (ls.take s.1)]
      rw [List.take_take, Nat.min_eq_left hps]
    have hrest : ls.drop p = gap ++ body ++ ls.drop s.2 := by
      have hsplit := eq_append_stretch ls (Nat.le_of_lt hlt)
      rw [hfront] at hsplit
      have hlen : (ls.take p).length = p := List.length_take_of_le hp
      conv_lhs => rw [hsplit]
      rw [List.append_assoc, List.append_assoc, List.drop_left' hlen, List.append_assoc]
    have hgap : oldLines gap = newLines gap := by
      refine oldLines_eq_newLines (isSame_of_mem_drop_take fun k hk hks hk' => ?_)
      obtain ⟨t, ht, hbetween⟩ := hchange k hk hk'
      rcases List.mem_cons.mp ht with rfl | ht
      · omega
      · have hbehind := hapart t ht
        omega
    have hline : (Hunk.ofStretch ls s).oldStart =
        1 + (oldLines (ls.take p)).length + (oldLines gap).length := by
      show 1 + (oldLines (ls.take s.1)).length = _
      rw [hfront, oldLines_append, List.length_append, Nat.add_assoc]
    have hbehind : (Hunk.ofStretch ls s).oldStart + (Hunk.ofStretch ls s).oldCount =
        1 + (oldLines (ls.take s.2)).length := by
      have htake : ls.take s.2 = ls.take s.1 ++ body := by
        show ls.take s.2 = ls.take s.1 ++ (ls.take s.2).drop s.1
        conv_lhs => rw [← List.take_append_drop s.1 (ls.take s.2)]
        rw [List.take_take, Nat.min_eq_left (Nat.le_of_lt hlt)]
      rw [htake, oldLines_append, List.length_append, ← Nat.add_assoc]
      rfl
    have hnext : patchFrom (1 + (oldLines (ls.take s.2)).length) (stretches.map (Hunk.ofStretch ls))
        (oldLines (ls.drop s.2)) = newLines (ls.drop s.2) := by
      refine ih hle hpairwise (fun t ht => ?_) fun k hk hk' => ?_
      · have hbehind := hapart t ht
        have hbounds := hbounds t ht
        omega
      · obtain ⟨t, ht, hbetween⟩ := hchange k (by omega) hk'
        rcases List.mem_cons.mp ht with rfl | ht
        · omega
        · exact ⟨t, ht, hbetween⟩
    rw [List.map_cons, hrest, oldLines_append, oldLines_append, newLines_append, newLines_append,
      patchFrom_cons hline rfl, hbehind, hnext, hgap]

/-- The hunks that are shown of an alignment turn its old lines into its new ones. -/
theorem patch_hunks (ls : List DiffLine) :
    patch ((hunks ls).map (Hunk.ofStretch ls)) (oldLines ls) = newLines ls := by
  have hpatch := patchFrom_eq (Nat.zero_le ls.length) (hunks_pairwise ls)
    (fun s hs => ⟨Nat.zero_le _, bounds_of_mem_hunks hs⟩)
    (fun k _ hk => (mem_hunks_iff ls k).mpr ⟨hk.lt_length, k, hk, by omega, by omega⟩)
  simpa [patch] using hpatch

/-- **Differences are patches**: the lines of two texts are aligned without loss; the stretches that
are shown come in order with a line between them that is not shown, and hold what is at most two lines
away from a change; what is printed are these hunks, below headers that tell the truth; and the old
lines become the new ones when the range of each header is replaced by the new lines of its hunk. -/
theorem render_patches (old new : String) :
    Aligns (lines old new) (Words.lines old) (Words.lines new) ∧
      (hunks (lines old new)).Pairwise (fun s t => s.2 < t.1) ∧
      (∀ s ∈ hunks (lines old new), s.1 < s.2 ∧ s.2 ≤ (lines old new).length) ∧
      (∀ k, (∃ s ∈ hunks (lines old new), s.1 ≤ k ∧ k < s.2) ↔ k < (lines old new).length ∧
        ∃ j, IsChange (lines old new) j ∧ j ≤ k + 2 ∧ k ≤ j + 2) ∧
      (∀ color path, render color path old new =
        if hunks (lines old new) = [] then ""
        else "--- a/" ++ path ++ "\n+++ b/" ++ path ++ "\n" ++ String.join
          (((hunks (lines old new)).map (Hunk.ofStretch (lines old new))).map (Hunk.display color))) ∧
      (∀ s ∈ hunks (lines old new),
        (Hunk.ofStretch (lines old new) s).IsTrue (Words.lines old) (Words.lines new)) ∧
      patch ((hunks (lines old new)).map (Hunk.ofStretch (lines old new))) (Words.lines old) =
        Words.lines new := by
  have haligns := lines_aligns old new
  refine ⟨haligns, hunks_pairwise _, fun s hs => bounds_of_mem_hunks hs, mem_hunks_iff _, ?_, ?_, ?_⟩
  · intro color path
    unfold render
    simp only [hunks_eq_nil_iff, List.map_map]
    rfl
  · intro s hs
    have htrue := isTrue_ofStretch (lines old new) (Nat.le_of_lt (bounds_of_mem_hunks hs).1)
    rwa [haligns.old_eq, haligns.new_eq] at htrue
  · have hpatch := patch_hunks (lines old new)
    rwa [haligns.old_eq, haligns.new_eq] at hpatch

/-- The contexts of two changes with one line between them: the header of the second hunk is true. -/
theorem render_patches_apart :
    (5, 9) ∈ hunks (lines "a:A\nb\n\n\n\nc\nd:D\n" "a: A\nb\n\n\n\nc\nd: D\n") ∧
      (Hunk.ofStretch (lines "a:A\nb\n\n\n\nc\nd:D\n" "a: A\nb\n\n\n\nc\nd: D\n") (5, 9)).IsTrue
        ["a:A", "b", "", "", "", "c", "d:D"] ["a: A", "b", "", "", "", "c", "d: D"] := by
  have hmem : (5, 9) ∈ hunks (lines "a:A\nb\n\n\n\nc\nd:D\n" "a: A\nb\n\n\n\nc\nd: D\n") := by
    decide
  obtain ⟨-, -, -, -, -, htrue, -⟩ :=
    render_patches "a:A\nb\n\n\n\nc\nd:D\n" "a: A\nb\n\n\n\nc\nd: D\n"
  exact ⟨hmem, htrue (5, 9) hmem⟩

example : render false "A" "a:A\nb\n\n\n\nc\nd:D\n" "a: A\nb\n\n\n\nc\nd: D\n" =
    "--- a/A\n+++ b/A\n@@ -1,3 +1,3 @@\n-a:A\n+a: A\n b\n \n@@ -5,3 +5,3 @@\n \n c\n-d:D\n+d: D\n" := by
  decide

end UnifiedDiff

end SwiftTidy
