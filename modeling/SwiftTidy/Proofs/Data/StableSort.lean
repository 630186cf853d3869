import Mathlib.Data.List.Sort

/-!
# Stable sorting

A stable sort puts an element in front of all that were behind it and are not smaller, and changes
nothing else (`mergeSort_cons_split`).  So it is the same as sorting by insertion, which can be
evaluated (`mergeSort_eq_insertionSort`), and it makes no difference whether elements are left out
before or after sorting (`filter_mergeSort`).

What it makes of a list is told by two facts: the elements are in order, and those that are tied stand
as they did (`mergeSort_eq_iff`).  So what is mapped in order is sorted alike (`mergeSort_map`).
-/

namespace SwiftTidy

namespace StableSort

variable {α : Type} {le : α → α → Bool}

/-- Sorting one more element splits the sorted rest around it. -/
theorem mergeSort_cons_split (htrans : ∀ a b c, le a b → le b c → le a c)
    (htotal : ∀ a b, le a b || le b a) (a : α) (l : List α) :
    ∃ front back, (a :: l).mergeSort le = front ++ a :: back ∧ l.mergeSort le = front ++ back ∧
      (∀ b ∈ front, le a b = false) ∧ ∀ b ∈ back, le a b = true := by
  obtain ⟨front, back, hcons, hrest, hfront⟩ := List.mergeSort_cons htrans htotal a l
  refine ⟨front, back, hcons, hrest, fun b hb => by simpa using hfront b hb, ?_⟩
  have hsorted := List.pairwise_mergeSort htrans htotal (a :: l)
  rw [hcons] at hsorted
  exact (List.pairwise_cons.mp (List.pairwise_append.mp hsorted).2.1).1

/-- Sorting by insertion gives the same list. -/
theorem mergeSort_eq_insertionSort (htrans : ∀ a b c, le a b → le b c → le a c)
    (htotal : ∀ a b, le a b || le b a) (l : List α) :
    l.mergeSort le = l.insertionSort (fun a b => le a b = true) := by
  induction l with
  | nil => simp
  | cons a l ih =>
    obtain ⟨front, back, hcons, hrest, hfront, hback⟩ := mergeSort_cons_split htrans htotal a l
    rw [hcons, List.insertionSort_cons, ← ih, hrest]
    clear hcons hrest ih
    induction front with
    | nil =>
      cases back with
      | nil => rfl
      | cons b back =>
        exact (List.orderedInsert_cons_of_le (fun a b => le a b = true) back
          (hback b (by simp))).symm
    | cons b front ih =>
      obtain ⟨hb, hfront⟩ := List.forall_mem_cons.mp hfront
      rw [List.cons_append, List.cons_append,
        List.orderedInsert_of_not_le (r := fun a b => le a b = true) _ (by simp [hb]), ih hfront]

/-- A list that is split by a test gives its parts back. -/
theorem filter_append_split {test : α → Bool} {front back : List α}
    (hfront : ∀ b ∈ front, test b = false) (hback : ∀ b ∈ back, test b = true) :
    (front ++ back).filter (!test ·) = front ∧ (front ++ back).filter test = back := by
  rw [List.filter_append, List.filter_append, List.filter_eq_self.mpr (by simpa using hfront),
    List.filter_eq_nil_iff.mpr (by simpa using hback),
    List.filter_eq_nil_iff.mpr (by simpa using hfront), List.filter_eq_self.mpr hback]
  exact ⟨List.append_nil front, List.nil_append back⟩

/-- There is only one way to split a list by a test that fails in front and holds behind. -/
theorem split_unique {test : α → Bool} {front back front' back' : List α}
    (h : front ++ back = front' ++ back') (hfront : ∀ b ∈ front, test b = false)
    (hback : ∀ b ∈ back, test b = true) (hfront' : ∀ b ∈ front', test b = false)
    (hback' : ∀ b ∈ back', test b = true) : front = front' ∧ back = back' := by
  have hone := filter_append_split hfront hback
  have htwo := filter_append_split hfront' hback'
  rw [h] at hone
  exact ⟨hone.1.symm.trans htwo.1, hone.2.symm.trans htwo.2⟩

/-- Elements can be left out before or after sorting. -/
theorem filter_mergeSort (htrans : ∀ a b c, le a b → le b c → le a c)
    (htotal : ∀ a b, le a b || le b a) (p : α → Bool) (l : List α) :
    (l.mergeSort le).filter p = (l.filter p).mergeSort le := by
  induction l with
  | nil => simp
  | cons a l ih =>
    obtain ⟨front, back, hcons, hrest, hfront, hback⟩ := mergeSort_cons_split htrans htotal a l
    rw [hrest, List.filter_append] at ih
    rw [hcons, List.filter_append]
    by_cases ha : p a = true
    · -- both sides put `a` at the one place where the rest is split by it
      rw [List.filter_cons_of_pos ha, List.filter_cons_of_pos ha]
      obtain ⟨front', back', hcons', hrest', hfront', hback'⟩ :=
        mergeSort_cons_split htrans htotal a (l.filter p)
      rw [hrest'] at ih
      obtain ⟨hf, hb⟩ := split_unique ih (fun b hb => hfront b (List.mem_filter.mp hb).1)
        (fun b hb => hback b (List.mem_filter.mp hb).1) hfront' hback'
      rw [hcons', hf, hb]
    · rw [List.filter_cons_of_neg ha, List.filter_cons_of_neg ha, ih]

/-! ### Elements that are tied -/

/-- Whether neither of two elements has to stand in front of the other. -/
def tied (le : α → α → Bool) (a b : α) : Bool := le a b && le b a

theorem tied_refl (htotal : ∀ a b, le a b || le b a) (a : α) : tied le a a = true := by
  simpa [tied] using htotal a a

/-- Of elements in order nothing but the order of those that are tied is open. -/
theorem eq_of_filter_tied (htotal : ∀ a b, le a b || le b a) {xs ys : List α}
    (hxs : xs.Pairwise fun a b => le a b = true) (hys : ys.Pairwise fun a b => le a b = true)
    (h : ∀ a, xs.filter (tied le a) = ys.filter (tied le a)) : xs = ys := by
  have hmem : ∀ {us vs : List α}, (∀ a, us.filter (tied le a) = vs.filter (tied le a)) →
      ∀ a ∈ us, a ∈ vs := by
    intro us vs hfilter a ha
    have hin : a ∈ us.filter (tied le a) := List.mem_filter.mpr ⟨ha, tied_refl htotal a⟩
    rw [hfilter a] at hin
    exact (List.mem_filter.mp hin).1
  induction xs generalizing ys with
  | nil =>
    cases ys with
    | nil => rfl
    | cons b ys => exact absurd (hmem (fun a => (h a).symm) b (by simp)) (by simp)
  | cons a xs ih =>
    cases ys with
    | nil => exact absurd (hmem h a (by simp)) (by simp)
    | cons b ys =>
      rw [List.pairwise_cons] at hxs hys
      -- each of the two first elements stands somewhere in the other list
      have hba : le b a = true := by
        rcases List.mem_cons.mp (hmem h a (by simp)) with rfl | ha
        · simpa using htotal a a
        · exact hys.1 a ha
      have hab : le a b = true := by
        rcases List.mem_cons.mp (hmem (fun a => (h a).symm) b (by simp)) with rfl | hb
        · simpa using htotal b b
        · exact hxs.1 b hb
      have hheads := h a
      rw [List.filter_cons_of_pos (tied_refl htotal a),
        List.filter_cons_of_pos (by simp [tied, hab, hba])] at hheads
      obtain rfl : a = b := (List.cons.inj hheads).1
      rw [ih hxs.2 hys.2]
      intro c
      have hc := h c
      rw [List.filter_cons, List.filter_cons] at hc
      split at hc
      · exact (List.cons.inj hc).2
      · exact hc

/-- **Stability**: elements that are tied stay in the order they had. -/
theorem filter_tied_mergeSort (htrans : ∀ a b c, le a b → le b c → le a c)
    (htotal : ∀ a b, le a b || le b a) (a : α) (l : List α) :
    (l.mergeSort le).filter (tied le a) = l.filter (tied le a) := by
  rw [filter_mergeSort htrans htotal]
  apply List.mergeSort_of_pairwise
  rw [List.pairwise_filter]
  refine List.pairwise_of_forall fun b c hb hc => ?_
  rw [tied, Bool.and_eq_true] at hb hc
  exact htrans b a c hb.2 hc.1

/-- What a stable sort makes of a list: the one list in order in which tied elements stand as they
did. -/
theorem mergeSort_eq_iff (htrans : ∀ a b c, le a b → le b c → le a c)
    (htotal : ∀ a b, le a b || le b a) {l sorted : List α} : l.mergeSort le = sorted ↔
      (sorted.Pairwise fun a b => le a b = true) ∧
        ∀ a, sorted.filter (tied le a) = l.filter (tied le a) := by
  constructor
  · rintro rfl
    exact ⟨List.pairwise_mergeSort htrans htotal l, fun a => filter_tied_mergeSort htrans htotal a l⟩
  · rintro ⟨hsorted, htied⟩
    apply eq_of_filter_tied htotal (List.pairwise_mergeSort htrans htotal l) hsorted
    intro a
    rw [filter_tied_mergeSort htrans htotal, htied]

/-- What is mapped is sorted alike if each element is compared with those behind it as before. -/
theorem mergeSort_map {β : Type} {le' : β → β → Bool} (htrans : ∀ a b c, le a b → le b c → le a c)
    (htotal : ∀ a b, le a b || le b a) (htrans' : ∀ a b c, le' a b → le' b c → le' a c)
    (htotal' : ∀ a b, le' a b || le' b a)
    (g : α → β) {l : List α} (h : l.Pairwise fun a b => le' (g a) (g b) = le a b) :
    (l.map g).mergeSort le' = (l.mergeSort le).map g := by
  induction l with
  | nil => simp
  | cons a l ih =>
    obtain ⟨ha, hl⟩ := List.pairwise_cons.mp h
    obtain ⟨front, back, hcons, hrest, hfront, hback⟩ := mergeSort_cons_split htrans htotal a l
    obtain ⟨front', back', hcons', hrest', hfront', hback'⟩ :=
      mergeSort_cons_split htrans' htotal' (g a) (l.map g)
    have hsame : ∀ b ∈ front ++ back, le' (g a) (g b) = le a b := fun b hb =>
      ha b (List.mem_mergeSort.mp (hrest ▸ hb))
    have ih := ih hl
    rw [hrest, hrest', List.map_append] at ih
    -- both sides put `a` at the one place where the rest is split by it
    obtain ⟨rfl, rfl⟩ := @split_unique _ (le' (g a)) _ _ _ _ ih hfront' hback'
      (List.forall_mem_map.mpr fun b hb =>
        (hsame b (List.mem_append_left _ hb)).trans (hfront b hb))
      (List.forall_mem_map.mpr fun b hb =>
        (hsame b (List.mem_append_right _ hb)).trans (hback b hb))
    rw [List.map_cons, hcons', hcons, List.map_append, List.map_cons]

end StableSort

end SwiftTidy
