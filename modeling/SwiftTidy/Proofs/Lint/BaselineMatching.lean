import Mathlib.Data.Finset.Card
import SwiftTidy.Lint.Baseline
import SwiftTidy.Proofs.Data.Except

/-!
# What a baseline hides

The copies of a violation are the distinct entries with one key.  Exact matches are taken out of
both sides before the copies are counted, and as they are the same entries on both sides, this
leaves their difference as it is: an entry is new when it is not recorded and the current copies of
its violation outnumber the recorded ones (`isUnmatched_iff`).

So only the sets of entries count (`isUnmatched_congr`), entries that were moved one to one are
hidden (`isUnmatched_eq_false_of_injOn`), and a baseline that records more reports less
(`Baseline.filter_ofEntries_sublist`).  `Baseline.hides_by_count` states all of this together.
-/

namespace SwiftTidy

/-! ### Counting copies -/

namespace BaselineEntry

/-- The copies of a violation: the distinct entries with its key. -/
def copies (es : List BaselineEntry) (key : String × String × String) : Finset BaselineEntry :=
  es.toFinset.filter fun e => e.key = key

theorem mem_copies {es : List BaselineEntry} {key : String × String × String} {e : BaselineEntry} :
    e ∈ copies es key ↔ e ∈ es ∧ e.key = key := by
  rw [copies, Finset.mem_filter, List.mem_toFinset]

theorem copies_subset {es others : List BaselineEntry} (h : ∀ e ∈ es, e ∈ others)
    (key : String × String × String) : copies es key ⊆ copies others key := by
  intro e he
  rw [mem_copies] at he ⊢
  exact ⟨h e he.1, he.2⟩

theorem copies_congr {es others : List BaselineEntry} (h : ∀ e, e ∈ es ↔ e ∈ others)
    (key : String × String × String) : copies es key = copies others key :=
  (copies_subset (fun e => (h e).mp) key).antisymm (copies_subset (fun e => (h e).mpr) key)

end BaselineEntry

open BaselineEntry (copies mem_copies copies_subset copies_congr)

theorem nodup_eraseDups (es : List BaselineEntry) : es.eraseDups.Nodup := by
  induction hn : es.length using Nat.strong_induction_on generalizing es with
  | _ n ih =>
    cases es with
    | nil => exact List.nodup_nil
    | cons e es =>
      rw [List.eraseDups_cons, List.nodup_cons]
      constructor
      · rw [List.mem_eraseDups, List.mem_filter]
        simp
      · have hle := List.length_filter_le (fun x => !x == e) es
        rw [List.length_cons] at hn
        exact ih _ (by omega) _ rfl

/-- What is counted of one side are its copies without those that the other side has too. -/
theorem movedCount_eq (es others : List BaselineEntry) (key : String × String × String) :
    movedCount es others key = (copies es key \ copies others key).card := by
  rw [movedCount, ← List.toFinset_card_of_nodup ((nodup_eraseDups es).filter _)]
  congr 1
  ext e
  simp only [List.mem_toFinset, List.mem_filter, List.mem_eraseDups, Bool.and_eq_true,
    Bool.not_eq_true', List.contains_eq_mem, decide_eq_false_iff_not, beq_iff_eq,
    Finset.mem_sdiff, mem_copies]
  constructor
  · rintro ⟨hmem, hothers, hkey⟩
    exact ⟨⟨hmem, hkey⟩, fun h => hothers h.1⟩
  · rintro ⟨⟨hmem, hkey⟩, hothers⟩
    exact ⟨hmem, fun h => hothers ⟨h, hkey⟩, hkey⟩

/-! ### New entries -/

section
variable {current current' recorded recorded' : List BaselineEntry} {e : BaselineEntry}

theorem isUnmatched_iff : isUnmatched current recorded e = true ↔
    e ∉ recorded ∧ (copies recorded e.key).card < (copies current e.key).card := by
  rw [isUnmatched, movedCount_eq, movedCount_eq, Bool.and_eq_true, Bool.not_eq_true',
    List.contains_eq_mem, decide_eq_false_iff_not, decide_eq_true_eq,
    Finset.card_sdiff_lt_card_sdiff_iff]

/-- Neither order nor repetition matters on either side. -/
theorem isUnmatched_congr (hcurrent : ∀ e, e ∈ current ↔ e ∈ current')
    (hrecorded : ∀ e, e ∈ recorded ↔ e ∈ recorded') :
    isUnmatched current recorded = isUnmatched current' recorded' := by
  funext e
  rw [Bool.eq_iff_iff, isUnmatched_iff, isUnmatched_iff, copies_congr hcurrent,
    copies_congr hrecorded, hrecorded]

/-- What is new for more recorded entries is new for fewer. -/
theorem isUnmatched_of_subset (h : ∀ e ∈ recorded, e ∈ recorded')
    (hnew : isUnmatched current recorded' e = true) : isUnmatched current recorded e = true := by
  rw [isUnmatched_iff] at hnew ⊢
  exact ⟨fun hmem => hnew.1 (h e hmem),
    (Finset.card_le_card (copies_subset h e.key)).trans_lt hnew.2⟩

/-- If every current entry comes from a recorded one with its key, and no two from the same one,
then nothing is new. -/
theorem isUnmatched_eq_false_of_injOn {origin : BaselineEntry → BaselineEntry}
    (hrecorded : ∀ e ∈ current, origin e ∈ recorded ∧ (origin e).key = e.key)
    (hinj : Set.InjOn origin {e | e ∈ current}) (e : BaselineEntry) :
    isUnmatched current recorded e = false := by
  rw [Bool.eq_false_iff, Ne, isUnmatched_iff]
  rintro ⟨-, hlt⟩
  refine absurd hlt (Nat.not_lt.mpr (Finset.card_le_card_of_injOn origin ?_ ?_))
  · intro x hx
    obtain ⟨hmem, hkey⟩ := mem_copies.mp hx
    exact mem_copies.mpr ⟨(hrecorded x hmem).1, (hrecorded x hmem).2.trans hkey⟩
  · exact hinj.mono fun x hx => (mem_copies.mp hx).1

theorem isUnmatched_eq_false_of_mem (h : e ∈ recorded) : isUnmatched current recorded e = false := by
  rw [Bool.eq_false_iff, Ne, isUnmatched_iff]
  exact fun hnew => hnew.1 h

end

namespace Baseline

/-! ### Groups -/

variable {b : Baseline}

/-- An entry goes behind those of its path, and the other paths keep theirs. -/
theorem recorded_insert (e : BaselineEntry) (path : String) :
    (b.insert e).recorded path = b.recorded path ++ if e.path = path then [e] else [] := by
  rw [recorded, insert, KeyTable.lookup?_alter]
  by_cases hpath : e.path = path
  · rw [if_pos hpath.symm, if_pos hpath, Option.getD_some, recorded, hpath]
  · rw [if_neg (Ne.symm hpath), if_neg hpath, List.append_nil, recorded]

/-- The entries of a path are those that were put in with it, in their order. -/
theorem recorded_ofEntries (es : List BaselineEntry) (path : String) :
    (ofEntries es).recorded path = es.filter fun e => e.path = path := by
  suffices hfold : ∀ b : Baseline,
      (es.foldl insert b).recorded path = b.recorded path ++ es.filter fun e => e.path = path from hfold _
  induction es with
  | nil => exact fun b => (List.append_nil _).symm
  | cons e es ih =>
    intro b
    rw [List.foldl_cons, ih, recorded_insert, List.append_assoc, List.filter_cons]
    by_cases heq : e.path = path <;> simp [heq]

/-! ### What is reported -/

section
variable {path : String} {u : SourceUnit} {ds : List Diagnostic}

theorem map_filter_zip_map {α β : Type} (f : α → β) (p : β → Bool) (l : List α) :
    ((l.zip (l.map f)).filter fun x => p x.2).map (·.1) = l.filter fun a => p (f a) := by
  induction l with
  | nil => rfl
  | cons a l ih =>
    rw [List.map_cons, List.zip_cons_cons, List.filter_cons, List.filter_cons, ← ih]
    by_cases h : p (f a) = true
    · rw [if_pos h, if_pos h, List.map_cons]
    · rw [if_neg h, if_neg h]

/-- The diagnostics whose entries are new are reported. -/
theorem filter_eq (b : Baseline) (path : String) (u : SourceUnit) (ds : List Diagnostic) :
    b.filter path u ds = ds.filter fun d =>
      isUnmatched (ds.map (.ofDiagnostic path u)) (b.recorded path) (.ofDiagnostic path u d) :=
  map_filter_zip_map (BaselineEntry.ofDiagnostic path u)
    (isUnmatched (ds.map (.ofDiagnostic path u)) (b.recorded path)) ds

/-- Nothing is hidden under a path without recorded entries. -/
theorem filter_of_recorded_eq_nil {b : Baseline} (h : b.recorded path = []) :
    b.filter path u ds = ds := by
  rw [filter_eq, List.filter_eq_self]
  intro d hd
  rw [isUnmatched_iff, h]
  refine ⟨List.not_mem_nil, ?_⟩
  have hmem : BaselineEntry.ofDiagnostic path u d ∈
      copies (ds.map (.ofDiagnostic path u)) (BaselineEntry.ofDiagnostic path u d).key :=
    mem_copies.mpr ⟨List.mem_map_of_mem hd, rfl⟩
  exact (Finset.card_pos.mpr ⟨_, hmem⟩)

/-- A baseline that records more reports less. -/
theorem filter_sublist {b b' : Baseline} (h : ∀ e ∈ b.recorded path, e ∈ b'.recorded path) :
    (b'.filter path u ds).Sublist (b.filter path u ds) := by
  rw [filter_eq, filter_eq]
  exact List.monotone_filter_right _ fun d hd => isUnmatched_of_subset h hd

theorem filter_ofEntries_sublist {es es' : List BaselineEntry} (h : ∀ e ∈ es, e ∈ es') :
    ((ofEntries es').filter path u ds).Sublist ((ofEntries es).filter path u ds) := by
  refine filter_sublist fun e he => ?_
  rw [recorded_ofEntries, List.mem_filter] at he ⊢
  exact ⟨h e he.1, he.2⟩

/-- Nothing is reported when all diagnostics are recorded. -/
theorem filter_ofEntries_eq_nil {es : List BaselineEntry}
    (h : ∀ d ∈ ds, BaselineEntry.ofDiagnostic path u d ∈ es) :
    (ofEntries es).filter path u ds = [] := by
  rw [filter_eq, List.filter_eq_nil_iff]
  intro d hd
  have hmem : BaselineEntry.ofDiagnostic path u d ∈ (ofEntries es).recorded path := by
    rw [recorded_ofEntries, List.mem_filter]
    exact ⟨h d hd, decide_eq_true rfl⟩
  rw [isUnmatched_eq_false_of_mem hmem]
  exact Bool.false_ne_true

end

/-- An entry is new when it is not recorded and the current copies of its violation outnumber the
recorded ones.  So order and repetition do not matter, entries that come one to one from recorded
ones with their keys are hidden, a baseline that records all diagnostics leaves none, and one that
records more reports nothing that was not reported before. -/
theorem hides_by_count :
    (∀ current recorded e, isUnmatched current recorded e = true ↔
      e ∉ recorded ∧ (copies recorded e.key).card < (copies current e.key).card) ∧
    (∀ current current' recorded recorded', (∀ e, e ∈ current ↔ e ∈ current') →
      (∀ e, e ∈ recorded ↔ e ∈ recorded') →
      isUnmatched current recorded = isUnmatched current' recorded') ∧
    (∀ current recorded (origin : BaselineEntry → BaselineEntry),
      (∀ e ∈ current, origin e ∈ recorded ∧ (origin e).key = e.key) →
      Set.InjOn origin {e | e ∈ current} →
      ∀ e ∈ current, isUnmatched current recorded e = false) ∧
    (∀ path u ds es, (∀ d ∈ ds, BaselineEntry.ofDiagnostic path u d ∈ es) →
      (ofEntries es).filter path u ds = []) ∧
    (∀ path u ds es es', (∀ e ∈ es, e ∈ es') →
      ((ofEntries es').filter path u ds).Sublist ((ofEntries es).filter path u ds)) := by
  refine ⟨?counts, ?sets, ?moved, ?same, ?more⟩
  case counts => exact fun _ _ _ => isUnmatched_iff
  case sets => exact fun _ _ _ _ => isUnmatched_congr
  case moved => exact fun _ _ _ hrecorded hinj e _ => isUnmatched_eq_false_of_injOn hrecorded hinj e
  case same => exact fun _ _ _ _ => filter_ofEntries_eq_nil
  case more => exact fun _ _ _ _ _ => filter_ofEntries_sublist

/-- A colon without a space behind it, recorded on the given line. -/
def tightColon (line : Nat) : BaselineEntry :=
  ⟨"A.swift", line, 6, "colon", "Colon Spacing", "let a:Int = 1"⟩

/-- What is reported about the two copies in `"\nlet a:Int = 1\nlet a:Int = 1\n"`. -/
def tightColons : List Diagnostic :=
  [⟨"colon", .warning, 6, "Colon Spacing"⟩, ⟨"colon", .warning, 20, "Colon Spacing"⟩]

/-- With one copy recorded both of two are new, in whatever order and however often they are
listed; with two copies recorded both are hidden, though only one is where it was.  A baseline of
both diagnostics leaves none. -/
theorem hides_by_count_copies : ∃ u,
    SourceUnit.ofText "\nlet a:Int = 1\nlet a:Int = 1\n" = .ok u ∧
    tightColons.map (.ofDiagnostic "A.swift" u) = [tightColon 2, tightColon 3] ∧
    isUnmatched [tightColon 2, tightColon 3] [tightColon 1] (tightColon 2) = true ∧
    isUnmatched [tightColon 3, tightColon 2, tightColon 3] [tightColon 1, tightColon 1] =
      isUnmatched [tightColon 2, tightColon 3] [tightColon 1] ∧
    isUnmatched [tightColon 2, tightColon 3] [tightColon 1, tightColon 2] (tightColon 3) = false ∧
    (ofEntries [tightColon 2, tightColon 3]).filter "A.swift" u tightColons = [] ∧
    ((ofEntries [tightColon 1, tightColon 2]).filter "A.swift" u tightColons).Sublist
      ((ofEntries [tightColon 1]).filter "A.swift" u tightColons) := by
  have hmap : (SourceUnit.ofText "\nlet a:Int = 1\nlet a:Int = 1\n").toOption.map (fun u =>
      tightColons.map (.ofDiagnostic "A.swift" u)) = some [tightColon 2, tightColon 3] := by
    decide +kernel
  obtain ⟨u, hu, hentries⟩ := Option.map_eq_some_iff.mp hmap
  obtain ⟨hcounts, hsets, hmoved, hsame, hmore⟩ := hides_by_count
  refine ⟨u, Except.toOption_eq_some.mp hu, hentries, ?grown, ?repeated, ?moved, ?same, ?more⟩
  case grown => exact (hcounts _ _ _).mpr (by decide +kernel)
  case repeated =>
    refine hsets _ _ _ _ (fun e => ?_) (fun e => ?_)
    · simp only [List.mem_cons, List.not_mem_nil, or_false, or_left_comm, or_self]
    · simp only [List.mem_cons, List.not_mem_nil, or_false, or_self]
  case moved =>
    refine hmoved _ _ (fun e => tightColon (e.line - 1)) (by decide +kernel) ?_ _
      (List.mem_cons_of_mem _ List.mem_cons_self)
    -- an entry of the two is known by its line
    intro a ha b hb hab
    have hline : ∀ e, e ∈ [tightColon 2, tightColon 3] → e = tightColon (e.line - 1 + 1) := by
      decide +kernel
    rw [hline a ha, hline b hb]
    exact congrArg (fun e : BaselineEntry => tightColon (e.line + 1)) hab
  case same =>
    refine hsame _ _ _ _ fun d hd => ?_
    rw [← hentries]
    exact List.mem_map_of_mem hd
  case more =>
    exact hmore _ _ _ _ _ fun e he => List.mem_cons.mpr (.inl (List.mem_singleton.mp he))

end Baseline

end SwiftTidy
