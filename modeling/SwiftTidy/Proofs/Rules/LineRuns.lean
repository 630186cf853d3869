import Mathlib.Data.List.Flatten
import SwiftTidy.Proofs.Parse.Relexing
import SwiftTidy.Proofs.Rules.KeptLexemes

/-!
# Lines in front of a token

The lines that are found in trivia stand one behind the other, each behind a line break
(`standsIn_of_mem_lineRuns`, `pairwise_last_lineRuns`).  So dropping empty lines drops whole lines of
blanks (`thins_dropLines`), and where empty lines are counted again, each run has lost just those of
its lines that were dropped (`map_first_emptyRuns_dropLines`).
-/

namespace SwiftTidy

namespace VerticalWhitespace

/-- The line ends in a line break of the trivia, has no other one, and starts behind one or at the
front. -/
structure Line.StandsIn (leading : Trivia) (l : Line) : Prop where
  first_le : l.first ≤ l.last
  front : ∀ i p, i + 1 = l.first → leading[i]? = some p → p.isNewline = true
  inside : ∀ i p, l.first ≤ i → i < l.last → leading[i]? = some p → p.isNewline = false
  last : ∃ p, leading[l.last]? = some p ∧ p.isNewline = true

/-- The line holds nothing but blanks, and starts at the front only where a line starts there. -/
structure Line.IsBlank (atFront : Bool) (leading : Trivia) (l : Line) : Prop extends
    l.StandsIn leading where
  clear : l.IsClear leading
  atFront : l.first = 0 → atFront = true

variable {leading ps : Trivia} {lines lines' run D : List Line} {l l' : Line} {atFront b : Bool}
  {index offset first start : Nat}

theorem contains_iff : l.contains index = true ↔ l.first ≤ index ∧ index ≤ l.last := by
  rw [Line.contains, Bool.and_eq_true, decide_eq_true_eq, decide_eq_true_eq]

theorem Line.StandsIn.contains_last (h : l.StandsIn leading) : l.contains l.last = true :=
  contains_iff.mpr ⟨h.first_le, Nat.le_refl _⟩

/-- A line with the line break of another one ends in it. -/
theorem Line.StandsIn.last_eq (h : l.StandsIn leading) {p : TriviaPiece} (hp : leading[index]? = some p)
    (hnewline : p.isNewline = true) (hcontains : l.contains index = true) : l.last = index := by
  obtain ⟨hfrom, hto⟩ := contains_iff.mp hcontains
  by_contra hne
  have hinside := h.inside index p hfrom (by omega) hp
  rw [hnewline] at hinside
  cases hinside

/-! ### The lines that are found -/

/-- What is known where piece `index` is read: which lines have ended, and where the current one
started. -/
structure Scan (leading : Trivia) (index first : Nat) (lines : List Line) : Prop where
  standsIn : ∀ l ∈ lines, l.StandsIn leading
  ordered : lines.Pairwise (·.last < ·.last)
  ended : ∀ l ∈ lines, l.last < index
  first_le : first ≤ index
  front : ∀ i p, i + 1 = first → leading[i]? = some p → p.isNewline = true
  inside : ∀ i p, first ≤ i → i < index → leading[i]? = some p → p.isNewline = false

namespace Scan

theorem initial (leading : Trivia) : Scan leading 0 0 [] :=
  ⟨nofun, .nil, nofun, Nat.le_refl 0, by omega, by omega⟩

variable {p : TriviaPiece}

/-- At a line break the current line ends. -/
theorem line (h : Scan leading index first lines) (hp : leading[index]? = some p)
    (hnewline : p.isNewline = true) (start : Nat) : (⟨first, index, start⟩ : Line).StandsIn leading :=
  ⟨h.first_le, h.front, h.inside, p, hp, hnewline⟩

theorem newline (h : Scan leading index first lines) (hp : leading[index]? = some p)
    (hnewline : p.isNewline = true) (start : Nat) :
    Scan leading (index + 1) (index + 1) (lines ++ [⟨first, index, start⟩]) where
  standsIn := List.forall_mem_append.mpr
    ⟨h.standsIn, List.forall_mem_singleton.mpr (h.line hp hnewline start)⟩
  ordered := by
    rw [List.pairwise_append]
    refine ⟨h.ordered, List.pairwise_singleton _ _, ?_⟩
    intro l hl l' hl'
    rw [List.mem_singleton.mp hl']
    exact h.ended l hl
  ended := by
    rw [List.forall_mem_append, List.forall_mem_singleton]
    exact ⟨fun l hl => Nat.lt_succ_of_lt (h.ended l hl), Nat.lt_succ_self index⟩
  first_le := Nat.le_refl _
  front i q hi hq := by
    obtain rfl := Nat.succ.inj hi
    rw [hp] at hq
    rwa [← Option.some.inj hq]
  inside i q hfrom hto := by omega

/-- At any other piece the current line goes on. -/
theorem other (h : Scan leading index first lines) (hp : leading[index]? = some p)
    (hother : ¬ p.isNewline = true) : Scan leading (index + 1) first lines where
  standsIn := h.standsIn
  ordered := h.ordered
  ended l hl := Nat.lt_succ_of_lt (h.ended l hl)
  first_le := Nat.le_succ_of_le h.first_le
  front := h.front
  inside i q hfrom hto hq := by
    rcases Nat.lt_or_eq_of_le (Nat.lt_succ_iff.mp hto) with hlt | rfl
    · exact h.inside i q hfrom hlt hq
    · rw [hp] at hq
      rw [← Option.some.inj hq]
      exact Bool.not_eq_true _ ▸ hother

/-- Behind a comment no line has ended yet. -/
theorem comment (h : Scan leading index first lines) : Scan leading index first [] :=
  ⟨nofun, .nil, nofun, h.first_le, h.front, h.inside⟩

end Scan

theorem getElem?_of_drop {p : TriviaPiece} (hps : leading.drop index = p :: ps) :
    leading[index]? = some p ∧ leading.drop (index + 1) = ps := by
  constructor
  · rw [← List.head?_drop, hps]
    rfl
  · rw [← List.tail_drop, hps]
    rfl

/-- Every line is found in the trivia. -/
theorem standsIn_of_mem_lineRuns (h : Scan leading index first lines) (hps : leading.drop index = ps)
    (hrun : run ∈ lineRuns index offset first start lines ps) (hl : l ∈ run) : l.StandsIn leading := by
  induction ps generalizing index offset first start lines with
  | nil =>
    rw [lineRuns, List.mem_singleton] at hrun
    exact h.standsIn l (hrun ▸ hl)
  | cons p ps ih =>
    obtain ⟨hp, hrest⟩ := getElem?_of_drop hps
    rw [lineRuns] at hrun
    split_ifs at hrun with hnewline hcomment
    · exact ih (h.newline hp hnewline start) hrest hrun
    · rw [List.mem_cons] at hrun
      rcases hrun with rfl | hrun
      · exact h.standsIn l hl
      · exact ih (h.other hp hnewline).comment hrest hrun
    · exact ih (h.other hp hnewline) hrest hrun

/-- Lines that are found later end later. -/
theorem mem_or_le_last (hrun : run ∈ lineRuns index offset first start lines ps) (hl : l ∈ run) :
    l ∈ lines ∨ index ≤ l.last := by
  induction ps generalizing index offset first start lines with
  | nil =>
    rw [lineRuns, List.mem_singleton] at hrun
    exact .inl (hrun ▸ hl)
  | cons p ps ih =>
    rw [lineRuns] at hrun
    split_ifs at hrun
    · rcases ih hrun with hmem | hle
      · rw [List.mem_append, List.mem_singleton] at hmem
        rcases hmem with hmem | rfl
        · exact .inl hmem
        · exact .inr (Nat.le_refl _)
      · exact .inr (Nat.le_of_succ_le hle)
    · rw [List.mem_cons] at hrun
      rcases hrun with rfl | hrun
      · exact .inl hl
      · rcases ih hrun with hmem | hle
        · cases hmem
        · exact .inr (Nat.le_of_succ_le hle)
    · exact (ih hrun).imp_right Nat.le_of_succ_le

/-- The lines are found one behind the other. -/
theorem pairwise_last_lineRuns (h : Scan leading index first lines) (hps : leading.drop index = ps) :
    (lineRuns index offset first start lines ps).flatten.Pairwise (·.last < ·.last) := by
  induction ps generalizing index offset first start lines with
  | nil =>
    rw [lineRuns, List.flatten_singleton]
    exact h.ordered
  | cons p ps ih =>
    obtain ⟨hp, hrest⟩ := getElem?_of_drop hps
    rw [lineRuns]
    split_ifs with hnewline hcomment
    · exact ih (h.newline hp hnewline start) hrest
    · rw [List.flatten_cons, List.pairwise_append]
      refine ⟨h.ordered, ih (h.other hp hnewline).comment hrest, ?_⟩
      intro l hl l' hl'
      obtain ⟨run, hrun, hmem⟩ := List.mem_flatten.mp hl'
      rcases mem_or_le_last hrun hmem with hnil | hle
      · cases hnil
      · exact (h.ended l hl).trans hle
    · exact ih (h.other hp hnewline) hrest

theorem pairwise_last (offset : Nat) (leading : Trivia) :
    (lineRuns 0 offset 0 offset [] leading).flatten.Pairwise (·.last < ·.last) :=
  pairwise_last_lineRuns (.initial leading) List.drop_zero

/-- The lines that have ended are among those that are found. -/
theorem exists_mem_lineRuns_of_mem (index offset first start : Nat) (lines : List Line) (ps : Trivia) :
    ∃ run ∈ lineRuns index offset first start lines ps, ∀ l ∈ lines, l ∈ run := by
  induction ps generalizing index offset first start lines with
  | nil => exact ⟨lines, List.mem_singleton.mpr rfl, fun l hl => hl⟩
  | cons p ps ih =>
    rw [lineRuns]
    split_ifs
    · obtain ⟨run, hrun, hmem⟩ := ih (index + 1) (offset + p.len) (index + 1) (offset + p.len)
        (lines ++ [⟨first, index, start⟩])
      exact ⟨run, hrun, fun l hl => hmem l (List.mem_append_left _ hl)⟩
    · exact ⟨lines, List.mem_cons_self, fun l hl => hl⟩
    · exact ih (index + 1) (offset + p.len) first start lines

/-! ### Empty lines -/

theorem exists_lineRuns_eq_cons (offset : Nat) (leading : Trivia) :
    ∃ run runs, lineRuns 0 offset 0 offset [] leading = run :: runs := by
  obtain ⟨run, hrun, -⟩ := exists_mem_lineRuns_of_mem 0 offset 0 offset [] leading
  exact List.exists_cons_of_ne_nil (List.ne_nil_of_mem hrun)

theorem emptyRuns_eq {runs : List (List Line)}
    (h : lineRuns 0 offset 0 offset [] leading = run :: runs) :
    emptyRuns offset leading = (if offset = 0 then run else run.drop 1) :: runs.map (·.drop 1) := by
  rw [emptyRuns, h]

/-- The lines of a run but the first one start behind the front. -/
theorem first_pos_of_mem_drop (hrun : run ∈ lineRuns 0 offset 0 offset [] leading)
    (hl : l ∈ run.drop 1) : 0 < l.first := by
  have hstands : ∀ l ∈ run, l.StandsIn leading := fun l hl =>
    standsIn_of_mem_lineRuns (.initial leading) List.drop_zero hrun hl
  have hordered := (List.pairwise_flatten.mp (pairwise_last offset leading)).1 run hrun
  cases run with
  | nil => cases hl
  | cons x run =>
    have hlt : x.last < l.last := (List.pairwise_cons.mp hordered).1 l hl
    obtain ⟨p, hp, hnewline⟩ := (hstands x List.mem_cons_self).last
    -- a line from the front on would have the line break of the first one inside
    rw [Nat.pos_iff_ne_zero]
    intro hfirst
    have hinside := (hstands l (List.mem_cons_of_mem _ hl)).inside x.last p (by omega) hlt hp
    rw [hnewline] at hinside
    cases hinside

/-- Empty lines hold nothing but blanks, and one starts at the front of the file only. -/
theorem isBlank_of_mem_emptyRuns (hrun : run ∈ emptyRuns offset leading) (hl : l ∈ run) :
    l.IsBlank (offset == 0) leading := by
  obtain ⟨run', hrun', hl'⟩ := exists_mem_lineRuns hrun hl
  refine ⟨standsIn_of_mem_lineRuns (.initial leading) List.drop_zero hrun' hl',
    isClear_of_mem_emptyRuns hrun hl, fun hfirst => ?_⟩
  rw [beq_iff_eq]
  by_contra hoffset
  obtain ⟨first, rest, hlines⟩ := exists_lineRuns_eq_cons offset leading
  obtain ⟨run'', hrun'', rfl⟩ : ∃ run'' ∈ first :: rest, run''.drop 1 = run := by
    rwa [emptyRuns_eq hlines, if_neg hoffset, ← List.map_cons, List.mem_map] at hrun
  rw [← hlines] at hrun''
  have hpos := first_pos_of_mem_drop hrun'' hl
  omega

/-! ### What is left without some of the lines -/

theorem dropLines_append (D : List Line) (index : Nat) (s t : Trivia) :
    dropLines D index (s ++ t) = dropLines D index s ++ dropLines D (index + s.length) t := by
  induction s generalizing index with
  | nil => rfl
  | cons p s ih =>
    rw [List.cons_append, dropLines, dropLines, ih, List.length_cons, Nat.add_right_comm, Nat.add_assoc]
    split_ifs <;> rfl

theorem dropLines_eq_nil (h : ∀ i, i < ps.length → D.any (·.contains (index + i)) = true) :
    dropLines D index ps = [] := by
  induction ps generalizing index with
  | nil => rfl
  | cons p ps ih =>
    have hhead : D.any (·.contains index) = true := h 0 (Nat.succ_pos _)
    rw [dropLines, if_pos hhead]
    refine ih fun i hi => ?_
    rw [Nat.add_right_comm, Nat.add_assoc]
    exact h (i + 1) (Nat.succ_lt_succ hi)

/-- A line of blanks in the trivia, with its line break and what stands behind it. -/
theorem Line.IsBlank.exists_split (h : l.IsBlank atFront leading) :
    ∃ (line t : Trivia) (q : TriviaPiece), leading.drop l.first = line ++ q :: t ∧
      line.isWhitespaceOnly = true ∧ leading[l.last]? = some q ∧ q.isNewline = true ∧
      l.first + line.length = l.last ∧ leading.drop (l.last + 1) = t := by
  obtain ⟨q, hq, hnewline⟩ := h.last
  obtain ⟨k, hk⟩ := Nat.exists_eq_add_of_le h.first_le
  have hlast := (List.getElem?_eq_some_iff.mp hq).1
  have hlength : ((leading.drop l.first).take k).length = k := by
    rw [List.length_take, List.length_drop]
    omega
  refine ⟨(leading.drop l.first).take k, leading.drop (l.last + 1), q, ?_, ?_, hq, hnewline, ?_, rfl⟩
  · have hcons : leading.drop l.last = q :: leading.drop (l.last + 1) := by
      rw [List.drop_eq_getElem_cons hlast, (List.getElem?_eq_some_iff.mp hq).2]
    rw [← hcons, hk, ← List.drop_drop, List.take_append_drop]
  · rw [Trivia.isWhitespaceOnly, List.all_eq_true]
    intro r hr
    obtain ⟨i, hi⟩ := List.mem_iff_getElem?.mp hr
    rw [List.getElem?_take, Option.ite_none_right_eq_some, List.getElem?_drop] at hi
    obtain ⟨hik, hi⟩ := hi
    have hcomment := h.clear (l.first + i) r (contains_iff.mpr (by omega)) hi
    have hinside := h.inside (l.first + i) r (by omega) (by omega) hi
    obtain ⟨kind, text⟩ := r
    cases kind with
    | whitespace => rfl
    | newline => cases hinside
    | _ => cases hcomment
  · rw [hlength, hk]

/-- **Whole lines**: dropping lines of blanks leaves the trivia without some lines of blanks. -/
theorem thins_dropLines (hD : ∀ l ∈ D, l.IsBlank atFront leading) (hps : leading.drop index = ps)
    (hfront : index = 0 → b = atFront)
    (hbehind : ∀ i p, i + 1 = index → leading[i]? = some p → b = p.isNewline)
    (hbound : ∀ l ∈ D, l.contains index = true → l.first = index) :
    Trivia.Thins b ps (dropLines D index ps) := by
  -- a line goes at once, so the induction is on the number of pieces that are left
  induction hlength : ps.length using Nat.strong_induction_on generalizing index ps b with
  | _ n ih =>
    cases ps with
    | nil => exact .nil
    | cons p ps =>
      obtain ⟨hp, hrest⟩ := getElem?_of_drop hps
      by_cases hdropped : D.any (·.contains index) = true
      · obtain ⟨l, hl, hcontains⟩ := List.any_eq_true.mp hdropped
        obtain rfl := hbound l hl hcontains
        obtain ⟨line, t, q, hsplit, hblanks, hq, hnewline, hlast, ht⟩ := (hD l hl).exists_split
        have hstart : b = true := by
          cases hfirst : l.first with
          | zero =>
            rw [hfront hfirst]
            exact (hD l hl).atFront hfirst
          | succ i =>
            have hi := (List.getElem?_eq_some_iff.mp hp).1
            obtain ⟨r, hr⟩ : ∃ r, leading[i]? = some r := ⟨_, List.getElem?_eq_getElem (by omega)⟩
            rw [hbehind i r hfirst.symm hr]
            exact (hD l hl).front i r hfirst.symm hr
        -- all pieces of the line go with it
        have hgone : dropLines D l.first (line ++ [q]) = [] := by
          refine dropLines_eq_nil fun i hi => List.any_eq_true.mpr ⟨l, hl, contains_iff.mpr ?_⟩
          rw [List.length_append, List.length_singleton] at hi
          omega
        have hbehind' : l.first + (line ++ [q]).length = l.last + 1 := by
          rw [List.length_append, List.length_singleton]
          omega
        rw [← hps, hsplit, List.append_cons, dropLines_append, hgone, List.nil_append, hbehind',
          ← List.append_cons, hstart]
        refine .drop hblanks hnewline (ih t.length ?_ ht ?_ ?_ ?_ rfl)
        · rw [← hlength, ← hps, hsplit, List.length_append, List.length_cons]
          omega
        · omega
        · intro i r hi hr
          rw [Nat.succ.inj hi, hq] at hr
          rw [← Option.some.inj hr, hnewline]
        · -- no other line has this line break inside
          intro l' hl' hcontains'
          by_contra hne
          obtain ⟨hfrom, hto⟩ := contains_iff.mp hcontains'
          have hinside := (hD l' hl').inside l.last q (by omega) (by omega) hq
          rw [hnewline] at hinside
          cases hinside
      · rw [dropLines, if_neg hdropped]
        refine .keep (ih ps.length ?_ hrest ?_ ?_ ?_ rfl)
        · rw [← hlength]
          exact Nat.lt_succ_self _
        · omega
        · intro i r hi hr
          rw [Nat.succ.inj hi, hp] at hr
          rw [← Option.some.inj hr]
        · intro l hl hcontains
          by_contra hne
          obtain ⟨hfrom, hto⟩ := contains_iff.mp hcontains
          exact hdropped (List.any_eq_true.mpr ⟨l, hl, contains_iff.mpr (by omega)⟩)

/-- The trivia in front of a token without some of the empty lines. -/
theorem thins_dropLines_emptyRuns (hD : ∀ l ∈ D, ∃ run ∈ emptyRuns offset leading, l ∈ run) :
    Trivia.Thins (offset == 0) leading (dropLines D 0 leading) := by
  refine thins_dropLines (fun l hl => ?_) List.drop_zero (fun _ => rfl) (by omega) ?_
  · obtain ⟨run, hrun, hmem⟩ := hD l hl
    exact isBlank_of_mem_emptyRuns hrun hmem
  · intro l hl hcontains
    have hfrom := (contains_iff.mp hcontains).1
    omega

/-! ### Counting again -/

/-- The number of pieces that are left in front of a piece. -/
def leftBefore (D : List Line) (leading : Trivia) (index : Nat) : Nat :=
  (dropLines D 0 (leading.take index)).length

theorem leftBefore_succ {p : TriviaPiece} (hp : leading[index]? = some p) : leftBefore D leading (index + 1) =
    leftBefore D leading index + if D.any (·.contains index) then 0 else 1 := by
  have hlength : (leading.take index).length = index :=
    List.length_take_of_le (Nat.le_of_lt (List.getElem?_eq_some_iff.mp hp).1)
  rw [leftBefore, List.take_add_one, hp, Option.toList_some, dropLines_append, List.length_append, hlength,
    Nat.zero_add, leftBefore, dropLines]
  split_ifs <;> rfl

/-- Where all pieces between two of them are dropped, as many are left in front of both. -/
theorem leftBefore_eq {last : Nat} (hlast : last < leading.length) (hle : index ≤ last + 1)
    (h : ∀ i, index ≤ i → i ≤ last → D.any (·.contains i) = true) :
    leftBefore D leading (last + 1) = leftBefore D leading index := by
  obtain ⟨k, hk⟩ := Nat.exists_eq_add_of_le hle
  induction k generalizing last with
  | zero => rw [hk, Nat.add_zero]
  | succ k ih =>
    rw [leftBefore_succ (List.getElem?_eq_getElem hlast), if_pos (h last (by omega) (Nat.le_refl _))]
    cases last with
    | zero =>
      obtain rfl : index = 0 := by omega
      rfl
    | succ last => exact ih (by omega) (by omega) (fun i hi hlt => h i hi (by omega)) (by omega)

/-- The lines of each run that are left are found again, at the pieces that are left of them, whatever offsets
they have. -/
theorem map_first_lineRuns_dropLines {index' offset' first' start' : Nat}
    (hps : leading.drop index = ps) (hclear : ∀ l ∈ D, l.IsClear leading)
    (hD : ∀ run ∈ lineRuns index offset first start lines ps, ∀ l ∈ run,
      D.any (·.contains l.last) = decide (l ∈ D))
    (hindex : index' = leftBefore D leading index) (hfirst : first' = leftBefore D leading first)
    (hle : first ≤ index)
    (hlines : lines'.map Line.first =
      (lines.filter (· ∉ D)).map fun l => leftBefore D leading l.first) :
    (lineRuns index' offset' first' start' lines' (dropLines D index ps)).map (·.map Line.first) =
      (lineRuns index offset first start lines ps).map fun run =>
        (run.filter (· ∉ D)).map fun l => leftBefore D leading l.first := by
  induction ps generalizing index offset first start lines index' offset' first' start' lines' with
  | nil =>
    rw [dropLines, lineRuns, lineRuns, List.map_singleton, List.map_singleton, hlines]
  | cons p ps ih =>
    obtain ⟨hp, hrest⟩ := getElem?_of_drop hps
    have hsucc := leftBefore_succ (D := D) hp
    rw [lineRuns] at hD ⊢
    split_ifs at hD ⊢ with hnewline hcomment
    · obtain ⟨run, hrun, hmem⟩ := exists_mem_lineRuns_of_mem (index + 1) (offset + p.len) (index + 1)
        (offset + p.len) (lines ++ [⟨first, index, start⟩]) ps
      have hline := hD run hrun _ (hmem _ (List.mem_append_right _ (List.mem_singleton.mpr rfl)))
      by_cases hdropped : (⟨first, index, start⟩ : Line) ∈ D
      · have hany := hline.trans (decide_eq_true hdropped)
        -- nothing is left of the line
        have hnone : leftBefore D leading (index + 1) = leftBefore D leading first :=
          leftBefore_eq (List.getElem?_eq_some_iff.mp hp).1 (Nat.le_succ_of_le hle) fun i hfrom hto =>
            List.any_eq_true.mpr ⟨_, hdropped, contains_iff.mpr ⟨hfrom, hto⟩⟩
        rw [dropLines, if_pos hany]
        rw [if_pos hany] at hsucc
        refine ih hrest hD (hindex.trans hsucc.symm) (hfirst.trans hnone.symm) (Nat.le_refl _) ?_
        rw [List.filter_append, List.filter_singleton, List.map_append, hlines]
        simp [hdropped]
      · have hkept : ¬ D.any (·.contains index) = true := by
          rw [hline]
          simp [hdropped]
        rw [dropLines, if_neg hkept, lineRuns, if_pos hnewline]
        rw [if_neg hkept] at hsucc
        refine ih hrest hD ?_ ?_ (Nat.le_refl _) ?_
        · rw [hindex, hsucc]
        · rw [hindex, hsucc]
        · rw [List.filter_append, List.filter_singleton, List.map_append, List.map_append, hlines,
            List.map_singleton, hfirst]
          simp [hdropped]
    · have hkept : ¬ D.any (·.contains index) = true := by
        intro hdropped
        obtain ⟨l, hl, hcontains⟩ := List.any_eq_true.mp hdropped
        rw [hclear l hl index p hcontains hp] at hcomment
        cases hcomment
      rw [dropLines, if_neg hkept, lineRuns, if_neg hnewline, if_pos hcomment, List.map_cons,
        List.map_cons, hlines]
      rw [if_neg hkept] at hsucc
      refine congrArg _ (ih hrest (fun run hrun => hD run (List.mem_cons_of_mem _ hrun)) ?_ hfirst
        (Nat.le_succ_of_le hle) rfl)
      rw [hindex, hsucc]
    · rw [dropLines]
      split_ifs with hdropped
      · rw [if_pos hdropped] at hsucc
        exact ih hrest hD (hindex.trans hsucc.symm) hfirst (Nat.le_succ_of_le hle) hlines
      · rw [if_neg hdropped] at hsucc
        rw [lineRuns, if_neg hnewline, if_neg hcomment]
        exact ih hrest hD (by rw [hindex, hsucc]) hfirst (Nat.le_succ_of_le hle) hlines

/-- A line that is dropped contains the line break of no other line. -/
theorem any_contains_last (hD : ∀ l ∈ D, ∃ run ∈ lineRuns 0 offset 0 offset [] leading, l ∈ run)
    (hrun : run ∈ lineRuns 0 offset 0 offset [] leading) (hl : l ∈ run) :
    D.any (·.contains l.last) = decide (l ∈ D) := by
  have hstands := standsIn_of_mem_lineRuns (.initial leading) List.drop_zero hrun hl
  rw [Bool.eq_iff_iff, List.any_eq_true, decide_eq_true_eq]
  constructor
  · rintro ⟨l', hl', hcontains⟩
    obtain ⟨run', hrun', hmem⟩ := hD l' hl'
    obtain ⟨p, hp, hnewline⟩ := hstands.last
    have hlast := (standsIn_of_mem_lineRuns (.initial leading) List.drop_zero hrun' hmem).last_eq hp
      hnewline hcontains
    -- two lines with one line break are the same
    have hapart : ((lineRuns 0 offset 0 offset [] leading).flatten.map Line.last).Nodup :=
      List.pairwise_map.mpr ((pairwise_last offset leading).imp fun h => Nat.ne_of_lt h)
    have hsame : l' = l := List.inj_on_of_nodup_map hapart
      (List.mem_flatten.mpr ⟨run', hrun', hmem⟩) (List.mem_flatten.mpr ⟨run, hrun, hl⟩) hlast
    rwa [← hsame]
  · intro hmem
    exact ⟨l, hmem, hstands.contains_last⟩

theorem flatten_map_drop_sublist (runs : List (List Line)) :
    (runs.map (·.drop 1)).flatten.Sublist runs.flatten := by
  rw [← List.flatMap_def, ← List.flatMap_id]
  exact List.Sublist.flatMap_right runs fun run _ => List.drop_sublist 1 run

/-- Of lists without repetition, no first member is among the others. -/
theorem head_notMem_flatten {runs : List (List Line)} (h : runs.flatten.Nodup) (hrun : run ∈ runs)
    (hl : run.head? = some l) : l ∉ (runs.map (·.drop 1)).flatten := by
  have hmem := List.mem_of_head? hl
  induction runs with
  | nil => cases hrun
  | cons run' runs ih =>
    obtain ⟨hnodup, hruns, hdisjoint⟩ := List.nodup_append'.mp (List.flatten_cons ▸ h)
    rw [List.map_cons, List.flatten_cons, List.mem_append, not_or]
    rcases List.mem_cons.mp hrun with rfl | hrun
    · refine ⟨?_, fun hrest => hdisjoint hmem ((flatten_map_drop_sublist runs).subset hrest)⟩
      cases run with
      | nil => cases hmem
      | cons x run =>
        obtain rfl : x = l := Option.some.inj hl
        exact (List.nodup_cons.mp hnodup).1
    · refine ⟨fun hdrop => ?_, ih hruns hrun⟩
      exact hdisjoint (List.mem_of_mem_drop hdrop) (List.mem_flatten.mpr ⟨run, hrun, hmem⟩)

/-- No line is found twice. -/
theorem nodup_flatten_lineRuns (offset : Nat) (leading : Trivia) :
    (lineRuns 0 offset 0 offset [] leading).flatten.Nodup := by
  refine (pairwise_last offset leading).imp ?_
  rintro x y hlt rfl
  exact Nat.lt_irrefl _ hlt

/-- No empty line is found twice. -/
theorem nodup_flatten_emptyRuns (offset : Nat) (leading : Trivia) :
    (emptyRuns offset leading).flatten.Nodup := by
  have hnodup := nodup_flatten_lineRuns offset leading
  obtain ⟨run, runs, hlines⟩ := exists_lineRuns_eq_cons offset leading
  rw [hlines, List.flatten_cons] at hnodup
  rw [emptyRuns_eq hlines, List.flatten_cons]
  refine (List.Sublist.append ?_ (flatten_map_drop_sublist runs)).nodup hnodup
  split_ifs
  · exact List.Sublist.refl run
  · exact List.drop_sublist 1 run

/-- Where the first line of a run is not dropped, the others that are left are those that are left of the whole
run but one. -/
theorem filter_drop (hhead : ∀ x, run.head? = some x → x ∉ D) :
    (run.drop 1).filter (· ∉ D) = (run.filter (· ∉ D)).drop 1 := by
  cases run with
  | nil => rfl
  | cons x run =>
    rw [List.filter_cons_of_pos (by simpa using hhead x rfl)]
    rfl

/-- **Counting again**: where empty lines are dropped, each run is found again with those of its lines
that are left, at the pieces that are left of them. -/
theorem map_first_emptyRuns_dropLines {offset' : Nat} (hoffset : offset' = 0 ↔ offset = 0)
    (hD : ∀ l ∈ D, ∃ run ∈ emptyRuns offset leading, l ∈ run) :
    (emptyRuns offset' (dropLines D 0 leading)).map (·.map Line.first) =
      (emptyRuns offset leading).map fun run =>
        (run.filter (· ∉ D)).map fun l => leftBefore D leading l.first := by
  have hmem : ∀ l ∈ D, ∃ run ∈ lineRuns 0 offset 0 offset [] leading, l ∈ run := by
    intro l hl
    obtain ⟨run, hrun, hl⟩ := hD l hl
    exact exists_mem_lineRuns hrun hl
  have hclear : ∀ l ∈ D, l.IsClear leading := by
    intro l hl
    obtain ⟨run, hrun, hl⟩ := hD l hl
    exact isClear_of_mem_emptyRuns hrun hl
  have hfirsts : (lineRuns 0 offset' 0 offset' [] (dropLines D 0 leading)).map (·.map Line.first) =
      (lineRuns 0 offset 0 offset [] leading).map fun run =>
        (run.filter (· ∉ D)).map fun l => leftBefore D leading l.first :=
    map_first_lineRuns_dropLines List.drop_zero hclear
      (fun run hrun l hl => any_contains_last hmem hrun hl) rfl rfl (Nat.le_refl _) rfl
  have hnodup := nodup_flatten_lineRuns offset leading
  obtain ⟨run, runs, hlines⟩ := exists_lineRuns_eq_cons offset leading
  obtain ⟨run', runs', hlines'⟩ := exists_lineRuns_eq_cons offset' (dropLines D 0 leading)
  rw [hlines] at hnodup
  rw [hlines, hlines', List.map_cons, List.map_cons] at hfirsts
  obtain ⟨hrun, hruns⟩ := List.cons.inj hfirsts
  rw [emptyRuns_eq hlines] at hD ⊢
  rw [emptyRuns_eq hlines', List.map_cons, List.map_cons, List.map_map, List.map_map]
  congr 1
  · -- the first run is the only one that may have a line at the start of the file
    split_ifs with h h' h'
    · exact hrun
    · exact absurd (hoffset.mp h) h'
    · exact absurd (hoffset.mpr h') h
    · rw [filter_drop, List.map_drop, List.map_drop, hrun]
      intro x hx hdropped
      obtain ⟨run'', hrun'', hx'⟩ := hD x hdropped
      rw [if_neg h', ← List.map_cons] at hrun''
      exact head_notMem_flatten hnodup List.mem_cons_self hx (List.mem_flatten.mpr ⟨run'', hrun'', hx'⟩)
  · -- every later run gives up its first line, which no edit drops
    have hkept : ∀ run'' ∈ runs, (run''.drop 1).filter (· ∉ D) = (run''.filter (· ∉ D)).drop 1 := by
      intro run'' hrun''
      refine filter_drop fun x hx hdropped => ?_
      obtain ⟨hnodup', hruns', hdisjoint⟩ := List.nodup_append'.mp (List.flatten_cons ▸ hnodup)
      have hxs : x ∈ runs.flatten := List.mem_flatten.mpr ⟨run'', hrun'', List.mem_of_head? hx⟩
      obtain ⟨lines, hlines, hx'⟩ := hD x hdropped
      rcases List.mem_cons.mp hlines with rfl | hlines
      · refine hdisjoint ?_ hxs
        split_ifs at hx'
        · exact hx'
        · exact List.mem_of_mem_drop hx'
      · exact head_notMem_flatten hruns' hrun'' hx (List.mem_flatten.mpr ⟨lines, hlines, hx'⟩)
    calc runs'.map ((·.map Line.first) ∘ (·.drop 1))
        = (runs'.map (·.map Line.first)).map (·.drop 1) := by simp [Function.comp_def]
      _ = (runs.map fun run => (run.filter (· ∉ D)).map fun l => leftBefore D leading l.first).map
            (·.drop 1) := by rw [hruns]
      _ = runs.map fun run => ((run.filter (· ∉ D)).drop 1).map fun l => leftBefore D leading l.first := by
        simp [Function.comp_def]
      _ = runs.map fun run => ((run.drop 1).filter (· ∉ D)).map fun l => leftBefore D leading l.first :=
        List.map_congr_left fun run hrun => by rw [hkept run hrun]

theorem map_length_emptyRuns_dropLines {offset' : Nat} (hoffset : offset' = 0 ↔ offset = 0)
    (hD : ∀ l ∈ D, ∃ run ∈ emptyRuns offset leading, l ∈ run) :
    (emptyRuns offset' (dropLines D 0 leading)).map List.length =
      (emptyRuns offset leading).map fun run => (run.filter (· ∉ D)).length := by
  have hlengths := congrArg (List.map List.length) (map_first_emptyRuns_dropLines hoffset hD)
  simpa only [List.map_map, Function.comp_def, List.length_map] using hlengths

end VerticalWhitespace

end SwiftTidy
