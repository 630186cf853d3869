import Mathlib.Tactic.ByContra
import SwiftTidy.Directive.Regions

/-!
# Looking up disabled regions by bisection

On regions that are apart from each other (`DisabledRegions.IsApart`) the bisection finds the only
region that can hold an offset, so the two lookups say what a scan of all regions would say:

* `isSuppressed_iff`: an offset is suppressed when it lies in some region (for this it is enough that
  the regions are in order, `InOrder.isSuppressed_iff`);
* `isContainedIn_iff`: a range that is not empty is contained when all of its offsets are
  suppressed.
-/

namespace SwiftTidy

/-! ### Bisection -/

/-- If the test holds exactly in front of `n`, bisection ends at the last place at which it
holds. -/
theorem bisect_eq {test : Nat → Bool} {n : Nat} (htest : ∀ i, test i = true ↔ i < n)
    {fuel base size : Nat} (hfuel : size ≤ fuel) (hbase : base ≤ n - 1)
    (hsize : n - 1 < base + size) : bisect test fuel base size = n - 1 := by
  induction fuel generalizing base size with
  | zero => omega
  | succ fuel ih =>
    unfold bisect
    by_cases hone : size ≤ 1
    · rw [if_pos hone]
      omega
    · rw [if_neg hone]
      dsimp only
      by_cases hhalf : test (base + size / 2) = true
      · rw [if_pos hhalf]
        have hlt := (htest _).mp hhalf
        exact ih (by omega) (by omega) (by omega)
      · rw [if_neg hhalf]
        have hge := mt (htest _).mpr hhalf
        exact ih (by omega) (by omega) (by omega)

/-- Where the test holds on a first part and nowhere behind it, the partition point lies between
the two. -/
theorem partitionPoint_append {α : Type} {test : α → Bool} {front back : List α}
    (hfront : ∀ a ∈ front, test a = true) (hback : ∀ a ∈ back, test a = false) :
    partitionPoint (front ++ back).toArray test = front.length := by
  have htest : ∀ i, ((front ++ back).toArray[i]?).any test = true ↔ i < front.length := by
    intro i
    rw [List.getElem?_toArray]
    by_cases hi : i < front.length
    · rw [List.getElem?_append_left hi, List.getElem?_eq_getElem hi]
      simpa [hi] using hfront _ (List.getElem_mem hi)
    · rw [List.getElem?_append_right (by omega)]
      cases hget : back[i - front.length]? with
      | none => simp [hi]
      | some a => simpa [hi] using hback a (List.mem_of_getElem? hget)
  unfold partitionPoint
  dsimp only
  by_cases hsize : (front ++ back).toArray.size = 0
  · rw [if_pos hsize]
    simp only [List.size_toArray, List.length_append] at hsize
    omega
  · rw [if_neg hsize]
    simp only [List.size_toArray, List.length_append] at hsize
    rw [bisect_eq htest (Nat.le_refl _) (Nat.zero_le _)
      (by simp only [List.size_toArray, List.length_append]; omega)]
    -- bisection ends at the first place also when the test holds nowhere
    by_cases hzero : front.length = 0
    · rw [if_neg (by rw [htest]; omega)]
      omega
    · rw [if_pos (by rw [htest]; omega)]
      omega

/-! ### Regions in order -/

namespace DisabledRegion

/-- The region holds some offset. -/
def IsProper (r : DisabledRegion) : Prop := ∀ stop, r.stop = some stop → r.start < stop

/-- The first region ends where the second starts, or in front of it. -/
def IsBefore (a b : DisabledRegion) : Prop := ∃ stop, a.stop = some stop ∧ stop ≤ b.start

/-- The first region ends in front of the second, with a gap between them. -/
def IsApart (a b : DisabledRegion) : Prop := ∃ stop, a.stop = some stop ∧ stop < b.start

theorem contains_iff {r : DisabledRegion} {offset : Nat} :
    r.contains offset = true ↔
      r.start ≤ offset ∧ ∀ stop, r.stop = some stop → offset < stop := by
  unfold contains beforeStop
  cases r.stop <;> simp

theorem containsRange_iff {r : DisabledRegion} {q : TextRange} :
    r.containsRange q = true ↔
      r.start ≤ q.start ∧ ∀ stop, r.stop = some stop → q.stop ≤ stop := by
  unfold containsRange
  cases r.stop <;> simp

/-- Regions that are apart share no offset. -/
theorem IsApart.not_contains {a b : DisabledRegion} (h : a.IsApart b) {offset : Nat}
    (hb : b.start ≤ offset) : ¬ a.contains offset = true := by
  intro hcontains
  obtain ⟨stop, hstop, hlt⟩ := h
  have hoffset := (contains_iff.mp hcontains).2 stop hstop
  omega

end DisabledRegion

namespace DisabledRegions

open DisabledRegion (IsProper IsApart IsBefore contains_iff containsRange_iff)

/-- Regions that are in order, hold something, and have a gap between each two. -/
structure IsSeparated (d : DisabledRegions) : Prop where
  proper : ∀ r ∈ d.regions.toList, r.IsProper
  apart : d.regions.toList.Pairwise IsApart

/-- Regions in order: none ends in front of its start, and each ends where the next one starts or in
front of it. -/
structure InOrder (d : DisabledRegions) : Prop where
  start_le : ∀ r ∈ d.regions.toList, ∀ stop, r.stop = some stop → r.start ≤ stop
  before : d.regions.toList.Pairwise IsBefore

variable {d : DisabledRegions}

theorem IsSeparated.inOrder (hd : d.IsSeparated) : d.InOrder where
  start_le r hr stop hstop := Nat.le_of_lt (hd.proper r hr stop hstop)
  before := hd.apart.imp fun ⟨stop, hstop, hlt⟩ => ⟨stop, hstop, Nat.le_of_lt hlt⟩

theorem InOrder.pairwise_start (hd : d.InOrder) :
    d.regions.toList.Pairwise (fun a b => a.start ≤ b.start) :=
  hd.before.imp_of_mem fun ha _ ⟨stop, hstop, hle⟩ => Nat.le_trans (hd.start_le _ ha stop hstop) hle

/-- An offset splits regions by their starts. -/
theorem exists_split {rs : List DisabledRegion} (hsorted : rs.Pairwise fun a b => a.start ≤ b.start)
    (offset : Nat) : ∃ front back, rs = front ++ back ∧ (∀ r ∈ front, r.start ≤ offset) ∧
      ∀ r ∈ back, offset < r.start := by
  induction rs with
  | nil => exact ⟨[], [], rfl, by simp, by simp⟩
  | cons r rs ih =>
    obtain ⟨hhead, htail⟩ := List.pairwise_cons.mp hsorted
    by_cases hstart : r.start ≤ offset
    · obtain ⟨front, back, hsplit, hfront, hback⟩ := ih htail
      refine ⟨r :: front, back, by rw [hsplit, List.cons_append], ?_, hback⟩
      exact List.forall_mem_cons.mpr ⟨hstart, hfront⟩
    · refine ⟨[], r :: rs, rfl, by simp, ?_⟩
      intro s hs
      rcases List.mem_cons.mp hs with rfl | hs
      · omega
      · have hle := hhead s hs
        omega

/-- Two regions are the same, or one lies in front of the other. -/
theorem IsSeparated.trichotomy (hd : d.IsSeparated) {r s : DisabledRegion}
    (hr : r ∈ d.regions.toList) (hs : s ∈ d.regions.toList) :
    r = s ∨ r.IsApart s ∨ s.IsApart r := by
  refine List.Pairwise.forall_of_forall_of_flip (R := fun a b => a = b ∨ a.IsApart b ∨ b.IsApart a)
    (fun _ _ => .inl rfl) ?_ ?_ hr hs
  · exact hd.apart.imp fun h => .inr (.inl h)
  · exact hd.apart.imp fun h => .inr (.inr h)

/-- Bisection finds the last region that does not start behind the offset, if there is one: of the
regions that do not start behind the offset all others lie in front of it. -/
theorem lastFrom?_cases (hd : d.InOrder) (offset : Nat) :
    (d.lastFrom? offset = Option.none ∧ ∀ r ∈ d.regions.toList, offset < r.start) ∨
    ∃ r ∈ d.regions.toList, d.lastFrom? offset = some r ∧ r.start ≤ offset ∧
      ∀ s ∈ d.regions.toList, s.start ≤ offset → s = r ∨ s.IsBefore r := by
  obtain ⟨front, back, hsplit, hfront, hback⟩ := exists_split hd.pairwise_start offset
  have hregions : d.regions = (front ++ back).toArray := by rw [← hsplit]
  have hpoint : partitionPoint d.regions (·.start ≤ offset) = front.length := by
    rw [hregions]
    exact partitionPoint_append (by simpa using hfront) (by simpa using hback)
  unfold lastFrom?
  rw [hpoint]
  rcases List.eq_nil_or_concat front with rfl | ⟨front, r, rfl⟩
  · left
    exact ⟨rfl, by rw [hsplit]; exact hback⟩
  · right
    refine ⟨r, by simp [hsplit], by simp [hregions], hfront r (by simp), ?_⟩
    intro s hs hle
    have hbefore := hd.before
    rw [hsplit, List.concat_append] at hs hbefore
    obtain ⟨-, -, hbefore⟩ := List.pairwise_append.mp hbefore
    rcases List.mem_append.mp hs with hs | hs
    · exact .inr (hbefore s hs r (by simp))
    · rcases List.mem_cons.mp hs with rfl | hs
      · exact .inl rfl
      · have hlt := hback s hs
        omega

/-- **Bisection looks at the right region**: an offset is suppressed when some region holds it. -/
theorem InOrder.isSuppressed_iff (hd : d.InOrder) (offset : Nat) :
    d.isSuppressed offset = true ↔ ∃ r ∈ d.regions.toList, r.contains offset = true := by
  unfold isSuppressed
  rcases lastFrom?_cases hd offset with ⟨hnone, hbehind⟩ | ⟨r, hmem, hsome, hr, hlast⟩
  · rw [hnone]
    constructor
    · intro h
      cases h
    · rintro ⟨r, hmem, hcontains⟩
      have hlt := hbehind r hmem
      have hle := (contains_iff.mp hcontains).1
      omega
  · rw [hsome, Option.any_some]
    constructor
    · intro hcontains
      exact ⟨r, hmem, hcontains⟩
    · rintro ⟨s, hs, hcontains⟩
      obtain ⟨hstart, hstop⟩ := contains_iff.mp hcontains
      rcases hlast s hs hstart with rfl | ⟨stop, heq, hle⟩
      · exact hcontains
      · have hlt := hstop stop heq
        omega

theorem isSuppressed_iff (hd : d.IsSeparated) (offset : Nat) :
    d.isSuppressed offset = true ↔ ∃ r ∈ d.regions.toList, r.contains offset = true :=
  hd.inOrder.isSuppressed_iff offset

/-- A range lies within one region exactly when all of its offsets are suppressed: regions that
are apart cannot cover it together. -/
theorem isContainedIn_iff (hd : d.IsSeparated) {q : TextRange} (hq : q.start < q.stop) :
    d.isContainedIn q = true ↔
      ∀ x, q.start ≤ x → x < q.stop → d.isSuppressed x = true := by
  unfold isContainedIn
  constructor
  · intro h x hle hlt
    rw [isSuppressed_iff hd]
    rcases lastFrom?_cases hd.inOrder q.start with ⟨hnone, -⟩ | ⟨r, hmem, hsome, -, -⟩
    · rw [hnone] at h
      cases h
    · rw [hsome, Option.any_some] at h
      obtain ⟨hstart, hstop⟩ := containsRange_iff.mp h
      refine ⟨r, hmem, contains_iff.mpr ⟨by omega, ?_⟩⟩
      intro stop hs
      have hle := hstop stop hs
      omega
  · intro h
    have hfirst := h q.start (Nat.le_refl _) hq
    unfold isSuppressed at hfirst
    rcases lastFrom?_cases hd.inOrder q.start with ⟨hnone, -⟩ | ⟨r, hmem, hsome, -, -⟩
    · rw [hnone] at hfirst
      cases hfirst
    · rw [hsome, Option.any_some] at hfirst ⊢
      obtain ⟨hstart, hstop⟩ := contains_iff.mp hfirst
      refine containsRange_iff.mpr ⟨hstart, ?_⟩
      intro stop hs
      have hin := hstop stop hs
      by_contra hlong
      -- the end of the region is an offset of the range, and no region holds it
      have hend := h stop (by omega) (by omega)
      obtain ⟨s, hsmem, hcontains⟩ := (isSuppressed_iff hd stop).mp hend
      obtain ⟨hsstart, hsstop⟩ := contains_iff.mp hcontains
      rcases hd.trichotomy hmem hsmem with rfl | ⟨e, he, hlt⟩ | hsr
      · exact absurd (hsstop stop hs) (Nat.lt_irrefl stop)
      · have heq : stop = e := Option.some.inj (hs.symm.trans he)
        omega
      · exact hsr.not_contains (by omega) hcontains

end DisabledRegions

end SwiftTidy
