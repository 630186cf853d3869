import SwiftTidy.Proofs.Directive.Moved
import SwiftTidy.Proofs.Parse.LineEnds

/-!
# Directives of a text with some of its trivia replaced

A text and what has become of it are told by their parts (`Portion`): characters that are kept, and runs that
have others in their place.  `kept` and `moved` say of a byte of the old text whether it is still there, and
where.  `Lined` parts change the text within its lines, or drop whole lines: then the lines of the new text
are those that are left, and they start where the parts say (`Lined.moves`).

For tokens that keep their lexemes and comments (`Token.Turns`) the directives are found again at the bytes
to which their comments have moved.  If no line is dropped that a directive targets, the sources are related
by `SourceUnit.Moves` (`moves_of_turns`), and rules are disabled at the same places.
-/

namespace SwiftTidy

namespace Text

open LineIndex (startsFrom)

/-- A part of a text and what becomes of it. -/
inductive Portion where
  /-- A character that is kept. -/
  | keep (c : Char)
  /-- Characters with others in their place. -/
  | replace (w w' : List Char)

namespace Portion

/-- The text that there was. -/
def before : List Portion → List Char
  | [] => []
  | keep c :: ps => c :: before ps
  | replace w _ :: ps => w ++ before ps

/-- The text that there is. -/
def after : List Portion → List Char
  | [] => []
  | keep c :: ps => c :: after ps
  | replace _ w' :: ps => w' ++ after ps

/-- Whether a byte of the old text is kept; the parts start at byte `o`. -/
def kept : (o : Nat) → List Portion → Nat → Bool
  | _, [], _ => true
  | o, keep c :: ps, p => p < o + c.utf8Size || kept (o + c.utf8Size) ps p
  | o, replace w _ :: ps, p => !(p < o + String.utf8Len w) && kept (o + String.utf8Len w) ps p

/-- Where a byte of the old text is in the new one; the parts start at byte `o` of the old one and at byte
`o'` of the new one. -/
def moved : (o o' : Nat) → List Portion → Nat → Nat
  | o, o', [], p => o' + (p - o)
  | o, o', keep c :: ps, p =>
    if p < o + c.utf8Size then o' + (p - o) else moved (o + c.utf8Size) (o' + c.utf8Size) ps p
  | o, o', replace w w' :: ps, p =>
    if p < o + String.utf8Len w then o'
    else moved (o + String.utf8Len w) (o' + String.utf8Len w') ps p

variable {o o' p q : Nat} {c : Char} {w w' : List Char} {ps qs : List Portion}

/-! ### Offsets -/

@[simp] theorem before_append (ps qs : List Portion) : before (ps ++ qs) = before ps ++ before qs := by
  induction ps with
  | nil => rfl
  | cons part ps ih => cases part <;> simp [before, ih]

@[simp] theorem after_append (ps qs : List Portion) : after (ps ++ qs) = after ps ++ after qs := by
  induction ps with
  | nil => rfl
  | cons part ps ih => cases part <;> simp [after, ih]

@[simp] theorem before_map_keep (w : List Char) : before (w.map keep) = w := by
  induction w with
  | nil => rfl
  | cons c w ih => rw [List.map_cons, before, ih]

@[simp] theorem after_map_keep (w : List Char) : after (w.map keep) = w := by
  induction w with
  | nil => rfl
  | cons c w ih => rw [List.map_cons, after, ih]

theorem le_moved (o o' : Nat) (ps : List Portion) (p : Nat) : o' ≤ moved o o' ps p := by
  induction ps generalizing o o' with
  | nil => exact Nat.le_add_right _ _
  | cons part ps ih =>
    cases part with
    | keep c =>
      rw [moved]
      split_ifs
      · exact Nat.le_add_right _ _
      · exact (Nat.le_add_right _ _).trans (ih _ _)
    | replace w w' =>
      rw [moved]
      split_ifs
      · exact Nat.le_refl _
      · exact (Nat.le_add_right _ _).trans (ih _ _)

/-- Bytes keep their order. -/
theorem monotone_moved (o o' : Nat) (ps : List Portion) : Monotone (moved o o' ps) := by
  intro p q hle
  induction ps generalizing o o' with
  | nil =>
    rw [moved, moved]
    omega
  | cons part ps ih =>
    cases part with
    | keep c =>
      rw [moved, moved]
      have hpos := le_moved (o + c.utf8Size) (o' + c.utf8Size) ps q
      have hrest := ih (o + c.utf8Size) (o' + c.utf8Size)
      split_ifs <;> omega
    | replace w w' =>
      rw [moved, moved]
      have hpos := le_moved (o + String.utf8Len w) (o' + String.utf8Len w') ps q
      have hrest := ih (o + String.utf8Len w) (o' + String.utf8Len w')
      split_ifs <;> omega

/-- What is behind a byte that is kept stays behind it. -/
theorem moved_lt_moved (hp : kept o ps p = true) (ho : o ≤ p) (hlt : p < q) :
    moved o o' ps p < moved o o' ps q := by
  induction ps generalizing o o' with
  | nil =>
    rw [moved, moved]
    omega
  | cons part ps ih =>
    cases part with
    | keep c =>
      rw [kept, Bool.or_eq_true, decide_eq_true_eq] at hp
      rw [moved, moved]
      have hpos := le_moved (o + c.utf8Size) (o' + c.utf8Size) ps q
      split_ifs with h h'
      · omega
      · omega
      · omega
      · exact ih (hp.resolve_left h) (by omega)
    | replace w w' =>
      rw [kept, Bool.and_eq_true, Bool.not_eq_true', decide_eq_false_iff_not] at hp
      rw [moved, moved, if_neg hp.1, if_neg (by omega)]
      exact ih hp.2 (by omega)

/-- Behind some parts, what counts are the others. -/
theorem kept_append (h : o + String.utf8Len (before ps) ≤ p) :
    kept o (ps ++ qs) p = kept (o + String.utf8Len (before ps)) qs p := by
  induction ps generalizing o with
  | nil => rfl
  | cons part ps ih =>
    cases part with
    | keep c =>
      rw [before, String.utf8Len_cons] at h ⊢
      rw [List.cons_append, kept, decide_eq_false (by omega), Bool.false_or, ih (by omega)]
      congr 1
      omega
    | replace w w' =>
      rw [before, String.utf8Len_append] at h ⊢
      rw [List.cons_append, kept, decide_eq_false (by omega), Bool.not_false, Bool.true_and, ih (by omega)]
      congr 1
      omega

theorem moved_append (h : o + String.utf8Len (before ps) ≤ p) : moved o o' (ps ++ qs) p =
    moved (o + String.utf8Len (before ps)) (o' + String.utf8Len (after ps)) qs p := by
  induction ps generalizing o o' with
  | nil => rfl
  | cons part ps ih =>
    cases part with
    | keep c =>
      rw [before, String.utf8Len_cons] at h ⊢
      rw [List.cons_append, moved, if_neg (by omega), ih (by omega), after, String.utf8Len_cons]
      congr 1 <;> omega
    | replace w w' =>
      rw [before, String.utf8Len_append] at h ⊢
      rw [List.cons_append, moved, if_neg (by omega), ih (by omega), after, String.utf8Len_append]
      congr 1 <;> omega

/-- Characters that are kept move together. -/
theorem kept_map_keep {k : Nat} (h : k < String.utf8Len w) :
    kept o (w.map keep ++ qs) (o + k) = true ∧ moved o o' (w.map keep ++ qs) (o + k) = o' + k := by
  induction w generalizing o o' k with
  | nil => exact absurd h (Nat.not_lt_zero _)
  | cons c w ih =>
    rw [String.utf8Len_cons] at h
    rw [List.map_cons, List.cons_append, kept, moved]
    by_cases hk : k < c.utf8Size
    · rw [decide_eq_true (by omega), if_pos (by omega)]
      exact ⟨rfl, by omega⟩
    · obtain ⟨m, rfl⟩ := Nat.exists_eq_add_of_le (Nat.le_of_not_lt hk)
      have hrest := @ih (o + c.utf8Size) (o' + c.utf8Size) m (by omega)
      rw [Nat.add_assoc, Nat.add_assoc o'] at hrest
      rw [if_neg (by omega), hrest.1, hrest.2, Bool.or_true]
      exact ⟨rfl, rfl⟩

theorem kept_length (o : Nat) (ps : List Portion) : kept o ps (o + String.utf8Len (before ps)) = true := by
  have h : kept o (ps ++ []) _ = _ := kept_append (Nat.le_refl _)
  rwa [List.append_nil] at h

theorem moved_length (o o' : Nat) (ps : List Portion) :
    moved o o' ps (o + String.utf8Len (before ps)) = o' + String.utf8Len (after ps) := by
  have h : moved o o' (ps ++ []) _ = _ := moved_append (Nat.le_refl _)
  rw [List.append_nil, moved, Nat.sub_self] at h
  exact h

/-! ### Lines -/

/-- Where in the lines of a text something stands: where a line starts, further behind, or in a line that is
dropped. -/
inductive Place where
  | start
  | inside
  | dropped
  deriving DecidableEq

/-- The place behind a character, by the text that follows. -/
def Place.behind (c : Char) (rest : List Char) : Place := if endsLine c rest then .start else .inside

theorem Place.behind_ne_dropped (c : Char) (rest : List Char) : Place.behind c rest ≠ .dropped := by
  rw [behind]
  split_ifs <;> decide

/-- What changes are whole lines, which are dropped, and characters within a line: the parts of a text from a
place on, at byte `o`.  Of the bytes at which dropped lines start `P` is known. -/
inductive Lined (P : Nat → Prop) : Place → (o : Nat) → List Portion → Prop
  | nil {s : Place} {o : Nat} (hs : s ≠ .dropped) : Lined P s o []
  | same {s : Place} {o : Nat} {c : Char} {ps : List Portion} (hs : s ≠ .dropped)
      (hends : endsLine c (after ps) = endsLine c (before ps))
      (h : Lined P (.behind c (before ps)) (o + c.utf8Size) ps) : Lined P s o (keep c :: ps)
  | change {o : Nat} {w w' : List Char} {ps : List Portion} (hw : ∀ c ∈ w, IsPlain c)
      (hw' : ∀ c ∈ w', IsPlain c) (h : Lined P .inside (o + String.utf8Len w) ps) :
      Lined P .inside o (replace w w' :: ps)
  | drop {s : Place} {o : Nat} {w : List Char} {ps : List Portion} (hs : s ≠ .inside) (hP : s = .start → P o)
      (hw : ∀ c ∈ w, IsPlain c) (hpos : 0 < String.utf8Len w)
      (h : Lined P .dropped (o + String.utf8Len w) ps) : Lined P s o (replace w [] :: ps)
  | dropEnd {s : Place} {o : Nat} {w : List Char} {ps : List Portion} (hs : s ≠ .inside)
      (hP : s = .start → P o) (hw : IsTerminator [] (before ps) w)
      (h : Lined P .start (o + String.utf8Len w) ps) : Lined P s o (replace w [] :: ps)

/-- The starts of lines from a place of the old text on. -/
def starts (s : Place) (o : Nat) (cs : List Char) : List Nat :=
  match s with
  | .start => o :: startsFrom o cs
  | _ => startsFrom o cs

/-- The starts of lines from a place of the new text on: a line that is dropped leaves its start to the next
one. -/
def startsAfter (s : Place) (o' : Nat) (cs : List Char) : List Nat :=
  match s with
  | .inside => startsFrom o' cs
  | _ => o' :: startsFrom o' cs

theorem startsFrom_append_of_isPlain (hw : ∀ c ∈ w, IsPlain c) (o : Nat) (cs : List Char) :
    startsFrom o (w ++ cs) = startsFrom (o + String.utf8Len w) cs := by
  induction w generalizing o with
  | nil => rfl
  | cons c w ih =>
    obtain ⟨hc, hw⟩ := List.forall_mem_cons.mp hw
    have hends : endsLine c (w ++ cs) = false := by simp [endsLine, hc.1, hc.2]
    rw [List.cons_append, LineIndex.startsFrom_cons, hends, ih hw, String.utf8Len_cons, if_neg (by simp)]
    congr 1
    omega

theorem startsFrom_append_of_isTerminator {cs : List Char} (hw : IsTerminator [] cs w) (o : Nat) :
    startsFrom o (w ++ cs) = starts .start (o + String.utf8Len w) cs := by
  cases hw with
  | lf => rfl
  | crLf => rfl
  | cr h =>
    have hends : endsLine '\r' cs = true := by simp [endsLine, h]
    rw [List.singleton_append, LineIndex.startsFrom_cons, hends, if_pos rfl]
    rfl

theorem startsFrom_cons_eq (o : Nat) (c : Char) (cs : List Char) :
    startsFrom o (c :: cs) = starts (.behind c cs) (o + c.utf8Size) cs := by
  rw [LineIndex.startsFrom_cons, Place.behind]
  split_ifs <;> rfl

theorem le_of_mem_starts {s : Place} {cs : List Char} (h : p ∈ starts s o cs) : o ≤ p := by
  have hbehind : p ∈ startsFrom o cs → o ≤ p := fun h =>
    Nat.le_of_lt (LineIndex.startsFrom_bounds p h).1
  cases s with
  | start =>
    rcases List.mem_cons.mp h with rfl | h
    · exact Nat.le_refl _
    · exact hbehind h
  | inside => exact hbehind h
  | dropped => exact hbehind h

/-- What is behind a part is kept and moved as the other parts say. -/
theorem kept_keep (h : o + c.utf8Size ≤ p) : kept o (keep c :: ps) p = kept (o + c.utf8Size) ps p := by
  rw [kept, decide_eq_false (Nat.not_lt.mpr h), Bool.false_or]

theorem moved_keep (h : o + c.utf8Size ≤ p) :
    moved o o' (keep c :: ps) p = moved (o + c.utf8Size) (o' + c.utf8Size) ps p := by
  rw [moved, if_neg (Nat.not_lt.mpr h)]

theorem kept_replace (h : o + String.utf8Len w ≤ p) :
    kept o (replace w w' :: ps) p = kept (o + String.utf8Len w) ps p := by
  rw [kept, decide_eq_false (Nat.not_lt.mpr h), Bool.not_false, Bool.true_and]

theorem moved_replace (h : o + String.utf8Len w ≤ p) : moved o o' (replace w w' :: ps) p =
    moved (o + String.utf8Len w) (o' + String.utf8Len w') ps p := by
  rw [moved, if_neg (Nat.not_lt.mpr h)]

theorem map_moved_keep {ns : List Nat} (h : ∀ n ∈ ns, o + c.utf8Size ≤ n) :
    (ns.filter (kept o (keep c :: ps))).map (moved o o' (keep c :: ps)) =
      (ns.filter (kept (o + c.utf8Size) ps)).map (moved (o + c.utf8Size) (o' + c.utf8Size) ps) := by
  rw [List.filter_congr fun n hn => kept_keep (h n hn)]
  exact List.map_congr_left fun n hn => moved_keep (h n (List.mem_filter.mp hn).1)

theorem map_moved_replace {ns : List Nat} (h : ∀ n ∈ ns, o + String.utf8Len w ≤ n) :
    (ns.filter (kept o (replace w w' :: ps))).map (moved o o' (replace w w' :: ps)) =
      (ns.filter (kept (o + String.utf8Len w) ps)).map
        (moved (o + String.utf8Len w) (o' + String.utf8Len w') ps) := by
  rw [List.filter_congr fun n hn => kept_replace (h n hn)]
  exact List.map_congr_left fun n hn => moved_replace (h n (List.mem_filter.mp hn).1)

end Portion

theorem IsTerminator.utf8Len_pos {front rest w : List Char} (h : IsTerminator front rest w) :
    0 < String.utf8Len w := by
  cases h <;> decide

namespace Portion

theorem startsAfter_drop {s : Place} (hs : s ≠ .inside) (hpos : 0 < String.utf8Len w)
    (h : o' :: startsFrom o' (after (replace w w' :: ps)) =
      ((startsFrom o (before (replace w w' :: ps))).filter (kept o (replace w w' :: ps))).map
        (moved o o' (replace w w' :: ps))) :
    startsAfter s o' (after (replace w w' :: ps)) =
      ((starts s o (before (replace w w' :: ps))).filter (kept o (replace w w' :: ps))).map
        (moved o o' (replace w w' :: ps)) := by
  cases s with
  | start =>
    have hlost : ¬ kept o (replace w w' :: ps) o = true := by
      rw [kept, decide_eq_true (by omega)]
      exact Bool.false_ne_true
    rw [startsAfter, starts, List.filter_cons_of_neg hlost]
    · exact h
    · decide
  | inside => exact absurd rfl hs
  | dropped => exact h

namespace Lined

variable {P : Nat → Prop} {s : Place}

/-- A line starts in the new text where the line starts that takes its place. -/
theorem moved_start (h : Lined P .start o ps) (o' : Nat) : moved o o' ps o = o' := by
  cases h with
  | nil => rw [moved, Nat.sub_self, Nat.add_zero]
  | @same _ _ c =>
    have hpos := c.utf8Size_pos
    rw [moved, if_pos (by omega), Nat.sub_self, Nat.add_zero]
  | drop _ _ _ hpos => rw [moved, if_pos (by omega)]
  | dropEnd _ _ hw =>
    have hpos := hw.utf8Len_pos
    rw [moved, if_pos (by omega)]

/-- **Lines of the new text** start where lines that are kept start. -/
theorem startsAfter_eq (h : Lined P s o ps) (o' : Nat) : startsAfter s o' (after ps) =
    ((starts s o (before ps)).filter (kept o ps)).map (moved o o' ps) := by
  induction h generalizing o' with
  | @nil s o hs =>
    cases s with
    | start => simp [startsAfter, starts, after, before, startsFrom, kept, moved]
    | inside => rfl
    | dropped => exact absurd rfl hs
  | @same s o c ps hs hends h ih =>
    have hpos := c.utf8Size_pos
    have hsame : Place.behind c (after ps) = Place.behind c (before ps) := by
      rw [Place.behind, Place.behind, hends]
    -- behind the character a line starts in both texts or in neither
    have hbehind : startsFrom o' (after (keep c :: ps)) =
        ((startsFrom o (before (keep c :: ps))).filter (kept o (keep c :: ps))).map
          (moved o o' (keep c :: ps)) := by
      rw [after, before, startsFrom_cons_eq, startsFrom_cons_eq, hsame,
        map_moved_keep fun n hn => le_of_mem_starts hn, ← ih, Place.behind]
      split_ifs <;> rfl
    cases s with
    | start =>
      have hkept : kept o (keep c :: ps) o = true := by
        rw [kept, decide_eq_true (by omega), Bool.true_or]
      rw [startsAfter, starts, List.filter_cons_of_pos hkept, List.map_cons, ← hbehind, moved,
        if_pos (by omega), Nat.sub_self, Nat.add_zero]
      decide
    | inside => exact hbehind
    | dropped => exact absurd rfl hs
  | @change o w w' ps hw hw' h ih =>
    have hrest := ih (o' + String.utf8Len w')
    rw [startsAfter, starts] at hrest ⊢
    rw [after, before, startsFrom_append_of_isPlain hw, startsFrom_append_of_isPlain hw', hrest,
      map_moved_replace fun n hn => Nat.le_of_lt (LineIndex.startsFrom_bounds n hn).1]
    all_goals decide
  | @drop s o w ps hs _ hw hpos h ih =>
    refine startsAfter_drop hs hpos ?_
    rw [after, before, startsFrom_append_of_isPlain hw,
      map_moved_replace fun n hn => Nat.le_of_lt (LineIndex.startsFrom_bounds n hn).1]
    exact ih o'
  | @dropEnd s o w ps hs _ hw h ih =>
    refine startsAfter_drop hs hw.utf8Len_pos ?_
    rw [after, before, startsFrom_append_of_isTerminator hw,
      map_moved_replace fun n hn => le_of_mem_starts (s := .start) hn]
    exact ih o'

/-- A dropped line holds no byte that is kept, up to the next line. -/
theorem kept_eq_false (h : Lined P .dropped o ps) (hq : ∀ n ∈ startsFrom o (before ps), q < n) :
    kept o ps q = false := by
  generalize hs : Place.dropped = s at h
  induction h with
  | nil hdropped | same hdropped => exact absurd hs.symm hdropped
  | change => cases hs
  | @drop _ o w ps _ _ hw _ _ ih =>
    rw [before, startsFrom_append_of_isPlain hw] at hq
    rw [kept, ih hq rfl, Bool.and_false]
  | @dropEnd _ o w ps _ _ hw _ _ =>
    rw [before, startsFrom_append_of_isTerminator hw] at hq
    rw [kept, decide_eq_true (hq _ List.mem_cons_self)]
    rfl

/-- What is dropped has no length in the new text, up to the next line. -/
theorem moved_eq (h : Lined P .dropped o ps) (hq : ∀ n ∈ startsFrom o (before ps), q ≤ n) :
    moved o o' ps q = o' := by
  generalize hs : Place.dropped = s at h
  induction h with
  | nil hdropped | same hdropped => exact absurd hs.symm hdropped
  | change => cases hs
  | @drop _ o w ps _ _ hw _ _ ih =>
    rw [before, startsFrom_append_of_isPlain hw] at hq
    rw [moved]
    split_ifs with hlt
    · rfl
    · exact ih hq rfl
  | @dropEnd _ o w ps _ _ hw h _ =>
    rw [before, startsFrom_append_of_isTerminator hw] at hq
    rw [moved]
    split_ifs with hlt
    · rfl
    · obtain rfl : q = o + String.utf8Len w :=
        Nat.le_antisymm (hq _ List.mem_cons_self) (Nat.le_of_not_lt hlt)
      exact h.moved_start _

end Lined

/-- From a place on, the lines whose start is dropped have no byte that is kept, and no length in the new
text.  Of their starts `P` is known. -/
def LosesLines (P : Nat → Prop) (s : Place) (o : Nat) (ps : List Portion) : Prop :=
  ∀ o' p q, p ∈ starts s o (before ps) → kept o ps p = false → p ≤ q →
    P p ∧ ((∀ n ∈ starts s o (before ps), p < n → q < n) → kept o ps q = false) ∧
      ((∀ n ∈ starts s o (before ps), p < n → q ≤ n) → moved o o' ps q = moved o o' ps p)

variable {P : Nat → Prop}

theorem LosesLines.cons {part : Portion} {s s' : Place} {k k' : Nat} (h : LosesLines P s' (o + k) ps)
    (hstarts : startsFrom o (before (part :: ps)) = starts s' (o + k) (before ps))
    (hkept : ∀ p, o + k ≤ p → kept o (part :: ps) p = kept (o + k) ps p)
    (hmoved : ∀ o' p, o + k ≤ p → moved o o' (part :: ps) p = moved (o + k) (o' + k') ps p)
    (hstart : s = .start → kept o (part :: ps) o = true ∨ P o ∧ Lined P .dropped o (part :: ps)) :
    LosesLines P s o (part :: ps) := by
  intro o' p q hp hlost hle
  -- the first line is the one at the place, and the others start behind the part
  have hbehind : ∀ n ∈ startsFrom o (before (part :: ps)), n ∈ starts s o (before (part :: ps)) := by
    intro n hn
    cases s with
    | start => exact List.mem_cons_of_mem _ hn
    | inside => exact hn
    | dropped => exact hn
  have hcases : s = .start ∧ p = o ∨ p ∈ startsFrom o (before (part :: ps)) := by
    cases s with
    | start => exact (List.mem_cons.mp hp).imp_left fun hp => ⟨rfl, hp⟩
    | inside => exact .inr hp
    | dropped => exact .inr hp
  rcases hcases with ⟨hs, rfl⟩ | hmem
  · rcases hstart hs with hfirst | ⟨hP, hdropped⟩
    · rw [hfirst] at hlost
      cases hlost
    · have hlater : ∀ n ∈ startsFrom p (before (part :: ps)), p < n := fun n hn =>
        (LineIndex.startsFrom_bounds n hn).1
      refine ⟨hP, fun hq => hdropped.kept_eq_false fun n hn => hq n (hbehind n hn) (hlater n hn),
        fun hq => ?_⟩
      rw [hdropped.moved_eq fun n hn => hq n (hbehind n hn) (hlater n hn),
        hdropped.moved_eq fun n hn => Nat.le_of_lt (hlater n hn)]
  · rw [hstarts] at hmem hbehind
    have hfrom := le_of_mem_starts hmem
    rw [hkept p hfrom] at hlost
    rw [hkept q (hfrom.trans hle), hmoved o' q (hfrom.trans hle), hmoved o' p hfrom]
    obtain ⟨hP, hnone, hsame⟩ := h (o' + k') p q hmem hlost hle
    exact ⟨hP, fun hq => hnone fun n hn => hq n (hbehind n hn),
      fun hq => hsame fun n hn => hq n (hbehind n hn)⟩

/-- **Lines that are lost** have no byte that is kept and no length in the new text. -/
theorem Lined.losesLines {s : Place} (h : Lined P s o ps) : LosesLines P s o ps := by
  induction h with
  | nil => exact fun _ _ _ _ hlost => nomatch hlost
  | @same s o c ps _ _ _ ih =>
    refine ih.cons (startsFrom_cons_eq o c (before ps)) (fun _ => kept_keep) (fun _ _ => moved_keep)
      fun _ => .inl ?_
    have hpos := c.utf8Size_pos
    rw [kept, decide_eq_true (by omega), Bool.true_or]
  | @change o w w' ps hw _ _ ih =>
    exact ih.cons (startsFrom_append_of_isPlain hw o (before ps)) (fun _ => kept_replace)
      (fun _ _ => moved_replace) fun hs => absurd hs (by decide)
  | @drop s o w ps _ hP hw hpos h ih =>
    exact ih.cons (startsFrom_append_of_isPlain hw o (before ps)) (fun _ => kept_replace)
      (fun _ _ => moved_replace) fun hs => .inr ⟨hP hs, .drop (by decide) (absurd · (by decide)) hw hpos h⟩
  | @dropEnd s o w ps _ hP hw h ih =>
    exact ih.cons (startsFrom_append_of_isTerminator hw o) (fun _ => kept_replace)
      (fun _ _ => moved_replace) fun hs => .inr ⟨hP hs, .dropEnd (by decide) (absurd · (by decide)) hw h⟩

/-- **The lines of both texts**, if a line starts where the parts do. -/
theorem Lined.moves {source source' : String} (h : Lined P .start 0 ps)
    (hbefore : source.toList = before ps) (hafter : source'.toList = after ps) :
    LineIndex.Moves (moved 0 0 ps) (kept 0 ps) (.ofText source) (.ofText source') := by
  have hstarts : (LineIndex.ofText source).starts = starts .start 0 (before ps) := by
    rw [← hbefore]
    rfl
  have hsorted := LineIndex.starts_pairwise source
  have hlen : (LineIndex.ofText source).len = String.utf8Len (before ps) := by
    rw [← hbefore]
    exact utf8ByteSize_eq source
  refine ⟨monotone_moved 0 0 ps, fun hp hlt => moved_lt_moved hp (Nat.zero_le _) hlt, ?_, ?_, ?_, ?_⟩
  · have hafter' : (LineIndex.ofText source').starts = startsAfter .start 0 (after ps) := by
      rw [← hafter]
      rfl
    rw [hafter', h.startsAfter_eq 0, hstarts]
  · have hmoved := moved_length 0 0 ps
    rw [Nat.zero_add, Nat.zero_add] at hmoved
    rw [hlen, hmoved, ← hafter]
    exact utf8ByteSize_eq source'
  · -- a start that is lost lies where the next one goes
    intro front p q back hsplit hlost
    rw [hsplit, List.pairwise_append] at hsorted
    obtain ⟨-, hback, hfront⟩ := hsorted
    obtain ⟨hp, hback⟩ := List.pairwise_cons.mp hback
    have hmem : p ∈ starts .start 0 (before ps) := by
      rw [← hstarts, hsplit]
      simp
    refine ((h.losesLines 0 p q hmem hlost (Nat.le_of_lt (hp q List.mem_cons_self))).2.2 ?_).symm
    intro n hn hlt
    rw [← hstarts, hsplit, List.mem_append, List.mem_cons, List.mem_cons] at hn
    rcases hn with hn | rfl | rfl | hn
    · exact absurd (hfront n hn p List.mem_cons_self) (Nat.not_lt.mpr (Nat.le_of_lt hlt))
    · exact absurd hlt (Nat.lt_irrefl _)
    · exact Nat.le_refl _
    · exact Nat.le_of_lt ((List.pairwise_cons.mp hback).1 n hn)
  · -- the last start is kept: were it lost, its line would be the end of the text
    intro p hlast
    obtain ⟨front, hsplit⟩ := List.getLast?_eq_some_iff.mp hlast
    have hmem : p ∈ starts .start 0 (before ps) := by
      rw [← hstarts, hsplit]
      simp
    have hle : p ≤ String.utf8Len (before ps) := by
      rw [← hlen]
      exact LineIndex.starts_le_len source p (hstarts ▸ hmem)
    by_contra hlost
    have hend := (h.losesLines 0 p _ hmem (Bool.eq_false_iff.mpr hlost) hle).2.1 fun n hn hlt => ?_
    · have hkept := kept_length 0 ps
      rw [Nat.zero_add, hend] at hkept
      cases hkept
    · rw [hsplit, List.pairwise_append] at hsorted
      rw [← hstarts, hsplit, List.mem_append, List.mem_singleton] at hn
      rcases hn with hn | rfl
      · have hbefore := hsorted.2.2 n hn p (List.mem_singleton.mpr rfl)
        omega
      · exact absurd hlt (Nat.lt_irrefl _)

end Portion

end Text

open Text (Portion IsTerminator IsPlain endsLine)

open Text.Portion (before after Lined)

/-! ### Pieces and lexemes -/

namespace Text.Portion

variable {P : Nat → Prop} {o : Nat} {s : Place} {qs : List Portion}

theorem isPlain_of_isLineEnd {c : Char} (h : Lexer.isLineEnd c = false) : IsPlain c := by
  rwa [Lexer.isLineEnd, Bool.or_eq_false_iff, beq_eq_false_iff_ne, beq_eq_false_iff_ne] at h

/-- What is kept and stops within a line leaves the rest within it. -/
theorem lined_of_isWithin {w : List Char} (hw : Lexer.IsWithin w) (hs : s ≠ .dropped)
    (h : Lined P .inside (o + String.utf8Len w) qs) : Lined P s o (w.map .keep ++ qs) := by
  have hne : w ≠ [] := by
    rintro rfl
    obtain ⟨c, hc, -⟩ := hw.head
    cases hc
  have hlast := hw.last
  clear hw
  induction w generalizing s o with
  | nil => exact absurd rfl hne
  | cons c w ih =>
    cases w with
    | nil =>
      obtain ⟨hlf, hcr⟩ := isPlain_of_isLineEnd (hlast c rfl)
      have hends : ∀ rest, endsLine c rest = false := fun rest => by simp [endsLine, hlf, hcr]
      refine .same hs ((hends _).trans (hends _).symm) ?_
      rw [Place.behind, hends]
      rwa [String.utf8Len_cons, String.utf8Len_nil, Nat.zero_add] at h
    | cons d w =>
      rw [String.utf8Len_cons, Nat.add_comm (String.utf8Len _), ← Nat.add_assoc] at h
      refine .same hs rfl (ih ?_ h (List.cons_ne_nil d w) fun b hb => hlast b ?_)
      · exact Place.behind_ne_dropped c _
      · rw [List.getLast?_cons_cons]
        exact hb

/-- A line break that is kept leaves the rest at the start of a line. -/
theorem lined_of_isTerminator {w : List Char} (hw : IsTerminator [] (before qs) w)
    (hw' : IsTerminator [] (after qs) w) (hs : s ≠ .dropped)
    (h : Lined P .start (o + String.utf8Len w) qs) : Lined P s o (w.map .keep ++ qs) := by
  cases hw with
  | lf => exact .same hs rfl h
  | crLf => exact .same hs rfl (.same (Place.behind_ne_dropped _ _) rfl h)
  | cr hhead =>
    have hhead' : (after qs).head? ≠ some '\n' := by
      cases hw' with
      | cr hhead' => exact hhead'
    have hends : ∀ {rest : List Char}, rest.head? ≠ some '\n' → endsLine '\r' rest = true :=
      fun h => by simp [endsLine, h]
    refine .same hs ((hends hhead').trans (hends hhead).symm) ?_
    show Lined P (Place.behind '\r' (before qs)) _ qs
    rw [Place.behind, hends hhead]
    exact h

/-- A line break of trivia ends a line in front of any text, unless LF comes to stand behind CR. -/
theorem isTerminator_of_isNewline {p : TriviaPiece} {rest : List Char} (hp : p.KeepsLines)
    (hnewline : p.isNewline = true) (hcr : p.text = "\r" → rest.head? ≠ some '\n') :
    IsTerminator [] rest p.text.toList := by
  rcases hp.breaks hnewline with h | h | h
  · rw [h]
    exact .lf (by simp)
  · rw [h]
    exact .crLf
  · rw [h]
    exact .cr (hcr h)

/-- A piece that is kept leaves the rest at the start of a line if it is a line break, and within a line
otherwise. -/
theorem lined_piece {p : TriviaPiece} (hp : p.KeepsLines) (hs : s ≠ .dropped)
    (hbefore : p.text = "\r" → (before qs).head? ≠ some '\n')
    (hafter : p.text = "\r" → (after qs).head? ≠ some '\n')
    (h : Lined P (if p.isNewline then .start else .inside) (o + p.len) qs) :
    Lined P s o (p.text.toList.map .keep ++ qs) := by
  rw [TriviaPiece.len, Text.utf8ByteSize_eq] at h
  split_ifs at h with hnewline
  · exact lined_of_isTerminator (isTerminator_of_isNewline hp hnewline hbefore)
      (isTerminator_of_isNewline hp hnewline hafter) hs h
  · exact lined_of_isWithin (hp.within (Bool.eq_false_iff.mpr hnewline)) hs h

theorem head?_ne_of_isWithin {w : List Char} (h : Lexer.IsWithin w) (rest : List Char) :
    (w ++ rest).head? ≠ some '\n' := by
  obtain ⟨c, hc, hend⟩ := h.head
  obtain ⟨w, rfl⟩ := List.head?_eq_some_iff.mp hc
  rintro ⟨⟩
  cases hend

/-- Behind CR that is a line break by itself, trivia does not start with LF. -/
theorem head?_ne_of_keepsLines {p : TriviaPiece} {t : Trivia} {rest : List Char}
    (ht : ∀ q ∈ t, q.KeepsLines) (hapart : Trivia.BreaksApart (p :: t)) (hp : p.text = "\r")
    (hrest : rest.head? ≠ some '\n') : (t.text.toList ++ rest).head? ≠ some '\n' := by
  cases t with
  | nil => exact hrest
  | cons q t =>
    have hq := ht q List.mem_cons_self
    rw [Trivia.toList_text_cons]
    cases hnewline : q.isNewline with
    | true =>
      rcases hq.breaks hnewline with h | h | h
      · exact absurd ⟨hp, h⟩ (List.isChain_cons_cons.mp hapart).1
      · rw [h]
        simp
      · rw [h]
        simp
    | false =>
      rw [List.append_assoc]
      exact head?_ne_of_isWithin (hq.within hnewline) _

end Text.Portion

/-! ### Comments -/

/-- What becomes of a run of trivia, by the parts of its text: comments are kept. -/
inductive Trivia.Turns : Trivia → Trivia → List Portion → Prop
  | nil : Turns [] [] []
  | keep {p : TriviaPiece} {s t : Trivia} {ps : List Portion} (h : Turns s t ps) :
      Turns (p :: s) (p :: t) (p.text.toList.map .keep ++ ps)
  | replace {s' t' s t : Trivia} {ps : List Portion} (hs : s'.containsComment = false)
      (ht : t'.containsComment = false) (h : Turns s t ps) :
      Turns (s' ++ s) (t' ++ t) (.replace s'.text.toList t'.text.toList :: ps)

/-- What becomes of tokens, by the parts of their text: their lexemes and the comments are kept. -/
inductive Token.Turns : List Token → List Token → List Portion → Prop
  | nil : Turns [] [] []
  | cons {t u : Token} {ts us : List Token} {ps qs rs : List Portion}
      (hleading : Trivia.Turns t.leading u.leading ps) (htext : u.text = t.text)
      (htrailing : Trivia.Turns t.trailing u.trailing qs) (h : Turns ts us rs) :
      Turns (t :: ts) (u :: us) (ps ++ (t.text.toList.map .keep ++ (qs ++ rs)))

namespace Text.Portion

variable {P : Nat → Prop} {o : Nat} {qs : List Portion}

/-- The parts of trivia that is kept. -/
def ofTrivia (t : Trivia) : List Portion := t.flatMap fun p => p.text.toList.map .keep

theorem turns_ofTrivia (t : Trivia) : t.Turns t (ofTrivia t) := by
  induction t with
  | nil => exact .nil
  | cons p t ih => exact .keep ih

/-- Trivia within a line leaves the rest within it. -/
theorem lined_ofTrivia {t : Trivia} (ht : ∀ p ∈ t, p.KeepsLines) (hline : t.containsNewline = false)
    (h : Lined P .inside (o + t.len) qs) : Lined P .inside o (ofTrivia t ++ qs) := by
  induction t generalizing o with
  | nil => exact h
  | cons p t ih =>
    obtain ⟨hp, ht⟩ := List.forall_mem_cons.mp ht
    rw [Trivia.containsNewline, List.any_cons, Bool.or_eq_false_iff] at hline
    rw [ofTrivia, List.flatMap_cons, List.append_assoc]
    refine lined_of_isWithin (hp.within hline.1) (by decide) (ih ht hline.2 ?_)
    rwa [Trivia.len_cons, TriviaPiece.len, Text.utf8ByteSize_eq, ← Nat.add_assoc] at h

end Text.Portion

/-- The first comment is kept as it is, and is the second one. -/
def Text.Portion.Carries (o o' : Nat) (ps : List Portion) (x y : Nat × TriviaPiece) : Prop :=
  y.2 = x.2 ∧ o ≤ x.1 ∧
    ∀ k < x.2.len, Portion.kept o ps (x.1 + k) = true ∧ Portion.moved o o' ps (x.1 + k) = y.1 + k

open Text.Portion (Carries)

variable {o o' : Nat} {ps qs : List Portion} {x y : Nat × TriviaPiece}

/-- Comments behind some parts are carried by the others. -/
theorem Text.Portion.Carries.append {m m' : Nat} (hm : o + String.utf8Len (before ps) = m)
    (hm' : o' + String.utf8Len (after ps) = m') (h : Carries m m' qs x y) :
    Carries o o' (ps ++ qs) x y := by
  obtain ⟨hsame, hfrom, hbytes⟩ := h
  refine ⟨hsame, by omega, fun k hk => ?_⟩
  rw [Portion.kept_append (by omega), Portion.moved_append (by omega), hm, hm']
  exact hbytes k hk

namespace Trivia.Turns

variable {s t : Trivia}

theorem before_eq (h : Turns s t ps) : before ps = s.text.toList := by
  induction h with
  | nil => rfl
  | keep _ ih => rw [Portion.before_append, Portion.before_map_keep, ih, toList_text_cons]
  | replace _ _ _ ih => rw [before, ih, toList_text_append]

theorem after_eq (h : Turns s t ps) : after ps = t.text.toList := by
  induction h with
  | nil => rfl
  | keep _ ih => rw [Portion.after_append, Portion.after_map_keep, ih, toList_text_cons]
  | replace _ _ _ ih => rw [after, ih, toList_text_append]

theorem commentsFrom_eq_nil (h : s.containsComment = false) (o : Nat) : commentsFrom o s = [] := by
  rw [List.eq_nil_iff_forall_not_mem]
  intro x hx
  obtain ⟨front, back, rfl, hcomment, -⟩ := mem_commentsFrom_iff.mp hx
  rw [containsComment, List.any_eq_false] at h
  exact h x.2 (by simp) hcomment

/-- The comments of a run are carried. -/
theorem comments (h : Turns s t ps) (o o' : Nat) (qs : List Portion) :
    List.Forall₂ (Carries o o' (ps ++ qs)) (commentsFrom o s) (commentsFrom o' t) := by
  induction h generalizing o o' with
  | nil => exact .nil
  | @keep p s t ps _ ih =>
    have hlen : String.utf8Len p.text.toList = p.len := (Text.utf8ByteSize_eq p.text).symm
    have hrest : List.Forall₂ (Carries o o' (p.text.toList.map .keep ++ (ps ++ qs)))
        (commentsFrom (o + p.len) s) (commentsFrom (o' + p.len) t) := by
      refine (ih (o + p.len) (o' + p.len)).imp fun x y hxy => .append ?_ ?_ hxy
      · rw [Portion.before_map_keep, hlen]
      · rw [Portion.after_map_keep, hlen]
    rw [commentsFrom, commentsFrom, List.append_assoc]
    split_ifs
    · exact .cons ⟨rfl, Nat.le_refl _, fun k hk => Portion.kept_map_keep (by rwa [hlen])⟩ hrest
    · exact hrest
  | @replace s' t' s t ps hs ht _ ih =>
    rw [commentsFrom_append, commentsFrom_append, commentsFrom_eq_nil hs, commentsFrom_eq_nil ht,
      List.nil_append, List.nil_append]
    refine (ih (o + s'.len) (o' + t'.len)).imp fun x y hxy => ?_
    show Carries o o' ([.replace s'.text.toList t'.text.toList] ++ (ps ++ qs)) x y
    refine .append ?_ ?_ hxy
    · rw [before, before, List.append_nil, utf8Len_text]
    · rw [after, after, List.append_nil, utf8Len_text]

end Trivia.Turns

namespace Text.Portion

variable {P : Nat → Prop} {s : Place}

theorem before_ofTrivia (t : Trivia) : before (ofTrivia t) = t.text.toList := (turns_ofTrivia t).before_eq

theorem after_ofTrivia (t : Trivia) : after (ofTrivia t) = t.text.toList := (turns_ofTrivia t).after_eq

/-- Trivia in front of a token leaves the rest at the start of a line, or within one. -/
theorem lined_leading {t : Trivia} (ht : ∀ p ∈ t, p.KeepsLines) (hapart : t.BreaksApart) (hs : s ≠ .dropped)
    (hbefore : (before qs).head? ≠ some '\n') (hafter : (after qs).head? ≠ some '\n')
    (h : ∀ s ≠ .dropped, Lined P s (o + t.len) qs) : Lined P s o (ofTrivia t ++ qs) := by
  induction t generalizing o s with
  | nil => exact h s hs
  | cons p t ih =>
    obtain ⟨hp, ht⟩ := List.forall_mem_cons.mp ht
    rw [ofTrivia, List.flatMap_cons, List.append_assoc, ← ofTrivia]
    refine lined_piece hp hs (fun hcr => ?_) (fun hcr => ?_) (ih ht hapart.tail ?_ fun s hs => ?_)
    · rw [before_append, before_ofTrivia]
      exact head?_ne_of_keepsLines ht hapart hcr hbefore
    · rw [after_append, after_ofTrivia]
      exact head?_ne_of_keepsLines ht hapart hcr hafter
    · split_ifs <;> decide
    · have hrest := h s hs
      rwa [Trivia.len_cons, ← Nat.add_assoc] at hrest

/-- A lexeme leaves the rest within a line; only the end of the file has none, and there is no rest. -/
theorem lined_lexeme {t : Token} (ht : t.KeepsLines) (hs : s ≠ .dropped) (hempty : t.text = "" → qs = [])
    (h : Lined P .inside (o + t.len) qs) : Lined P s o (t.text.toList.map .keep ++ qs) := by
  rcases ht.text with ⟨htext, -⟩ | hwithin
  · rw [htext, hempty htext]
    exact .nil hs
  · refine lined_of_isWithin hwithin hs ?_
    rwa [Token.len, Text.utf8ByteSize_eq] at h

/-- Neither text goes on with LF where a lexeme stands. -/
theorem head?_lexeme {t : Token} (ht : t.KeepsLines) (hempty : t.text = "" → qs = []) :
    (before (t.text.toList.map .keep ++ qs)).head? ≠ some '\n' ∧
      (after (t.text.toList.map .keep ++ qs)).head? ≠ some '\n' := by
  rcases ht.text with ⟨htext, -⟩ | hwithin
  · rw [htext, hempty htext]
    simp [before, after]
  · rw [before_append, after_append, before_map_keep, after_map_keep]
    exact ⟨head?_ne_of_isWithin hwithin _, head?_ne_of_isWithin hwithin _⟩

end Text.Portion

namespace Token.Turns

variable {ts us : List Token}

theorem before_eq (h : Turns ts us ps) : before ps = spell ts := by
  induction h with
  | nil => rfl
  | cons hleading htext htrailing _ ih =>
    simp only [Portion.before_append, Portion.before_map_keep, hleading.before_eq, htrailing.before_eq, ih,
      spell_cons, toList_fullText, List.append_assoc]

theorem after_eq (h : Turns ts us ps) : after ps = spell us := by
  induction h with
  | nil => rfl
  | cons hleading htext htrailing _ ih =>
    simp only [Portion.after_append, Portion.after_map_keep, hleading.after_eq, htrailing.after_eq, ih,
      spell_cons, toList_fullText, List.append_assoc, htext]

/-- The comments around tokens are carried. -/
theorem comments (h : Turns ts us ps) (o o' : Nat) :
    List.Forall₂ (Carries o o' ps) (Token.comments o ts) (Token.comments o' us) := by
  induction h generalizing o o' with
  | nil => exact .nil
  | @cons t u ts us ps qs rs hleading htext htrailing h ih =>
    have hlen : String.utf8Len t.text.toList = t.len := (Text.utf8ByteSize_eq t.text).symm
    have hlen' : u.len = t.len := by rw [len, htext, len]
    have hbefore : o + String.utf8Len (before ps) = o + t.leading.len := by
      rw [hleading.before_eq, Trivia.utf8Len_text]
    have hafter : o' + String.utf8Len (after ps) = o' + u.leading.len := by
      rw [hleading.after_eq, Trivia.utf8Len_text]
    have hbefore' : o + t.leading.len + String.utf8Len (before (t.text.toList.map .keep)) =
        o + t.leading.len + t.len := by rw [Portion.before_map_keep, hlen]
    have hafter' : o' + u.leading.len + String.utf8Len (after (t.text.toList.map .keep)) =
        o' + u.leading.len + u.len := by rw [Portion.after_map_keep, hlen, hlen']
    rw [comments_cons, comments_cons, commentsAround, commentsAround, List.append_assoc, List.append_assoc]
    refine List.rel_append (hleading.comments o o' _) (List.rel_append ?_ ?_)
    · exact (htrailing.comments _ _ rs).imp fun x y hxy =>
        .append hbefore hafter (.append hbefore' hafter' hxy)
    · refine (ih _ _).imp fun x y hxy =>
        .append hbefore hafter (.append hbefore' hafter' (.append ?_ ?_ hxy))
      · rw [htrailing.before_eq, Trivia.utf8Len_text, fullLen]
        simp only [Nat.add_assoc]
      · rw [htrailing.after_eq, Trivia.utf8Len_text, fullLen]
        simp only [Nat.add_assoc]

end Token.Turns

/-! ### Directives -/

namespace Command

/-- A comment that is carried says the same elsewhere. -/
theorem ofComment?_of_carries (ix ix' : LineIndex) (h : Carries o o' ps x y) :
    ofComment? ix' y = (ofComment? ix x).map fun c =>
      c.moved (Portion.moved o o' ps) (ix'.lineOf (Portion.moved o o' ps c.offset)) := by
  obtain ⟨hsame, -, hbytes⟩ := h
  unfold ofComment?
  rw [hsame]
  cases hsplit : Words.splitAtText marker.toList x.2.text.toList with
  | none => rfl
  | some p =>
    obtain ⟨front, rest⟩ := p
    have hlen := utf8Len_lt_of_marker (Words.append_of_splitAtText hsplit)
    have hmoved := (hbytes _ hlen).2
    simp only [Option.bind_eq_bind, Option.bind_some, String.utf8ByteSize_ofList]
    rw [parse?_eq, parse?_eq _ (x.1 + _), Option.map_map]
    refine congrArg (Option.map · _) (funext fun c => ?_)
    simp only [Function.comp_apply, Command.moved, hmoved]

theorem filterMap_ofComment? {ix ix' : LineIndex} {xs ys : List (Nat × TriviaPiece)}
    (h : List.Forall₂ (Carries o o' ps) xs ys) :
    ys.filterMap (ofComment? ix') = (xs.filterMap (ofComment? ix)).map fun c =>
      c.moved (Portion.moved o o' ps) (ix'.lineOf (Portion.moved o o' ps c.offset)) := by
  induction h with
  | nil => rfl
  | @cons x y xs ys hxy _ ih =>
    rw [List.filterMap_cons, List.filterMap_cons, ofComment?_of_carries ix ix' hxy, ih]
    cases ofComment? ix x <;> rfl

/-- The line that a directive targets is a line of the text. -/
theorem lineStart_mem_starts {ix : LineIndex} {c : Command} {m : Modifier} {line : OneIndexed}
    (h : c.target? m ix = some line) : ix.lineStart line ∈ ix.starts := by
  obtain ⟨-, hlt⟩ := Option.filter_eq_some_iff.mp h
  rw [decide_eq_true_eq, LineIndex.lineCount] at hlt
  rw [LineIndex.lineStart, List.getD_eq_getElem _ _ hlt]
  exact List.getElem_mem hlt

/-- A directive is kept with its comment. -/
theorem kept_of_mem_filterMap {ix : LineIndex} {xs ys : List (Nat × TriviaPiece)} {c : Command}
    (h : List.Forall₂ (Carries o o' ps) xs ys) (hc : c ∈ xs.filterMap (ofComment? ix)) :
    Portion.kept o ps c.offset = true := by
  induction h with
  | nil => cases hc
  | @cons x y xs ys hxy _ ih =>
    obtain ⟨z, hz, hsome⟩ := List.mem_filterMap.mp hc
    rcases List.mem_cons.mp hz with rfl | hz
    · have hbounds := ofComment?_bounds hsome
      obtain ⟨k, hk⟩ := Nat.exists_eq_add_of_le hbounds.1
      rw [hk]
      exact (hxy.2.2 k (by omega)).1
    · exact ih (List.mem_filterMap.mpr ⟨z, hz, hsome⟩)

end Command

namespace SourceUnit

variable {source source' : String} {u v : SourceUnit}

/-- **A retouched source**: what is not dropped with the lines is where the parts of the text say, if no line
is dropped that a directive targets. -/
theorem moves_of_turns (hu : ofText source = .ok u) (hv : ofText source' = .ok v)
    {P : Nat → Prop} (h : Token.Turns u.tree.leaves v.tree.leaves ps) (hlined : Lined P .start 0 ps)
    (htarget : ∀ c ∈ u.commands, ∀ m line, c.modifier = some m → c.target? m u.lineIndex = some line →
      ¬ P (u.lineIndex.lineStart line)) :
    Moves (Portion.moved 0 0 ps) (Portion.kept 0 ps) u v := by
  have hbefore : source.toList = before ps := by
    rw [h.before_eq, ← Element.toList_fullText, fullText_parse (parse_of_ofText hu)]
  have hlines : LineIndex.Moves (Portion.moved 0 0 ps) (Portion.kept 0 ps) u.lineIndex v.lineIndex := by
    rw [lineIndex_eq hu, lineIndex_eq hv]
    refine hlined.moves hbefore ?_
    rw [h.after_eq, ← Element.toList_fullText, fullText_parse (parse_of_ofText hv)]
  have hstarts : u.lineIndex.starts = Portion.starts .start 0 (before ps) := by
    rw [lineIndex_eq hu, ← hbefore]
    rfl
  have hcarries := h.comments 0 0
  have hkept : ∀ c ∈ u.commands, Portion.kept 0 ps c.offset = true := by
    intro c hc
    rw [commands_eq_filterMap hu] at hc
    exact Command.kept_of_mem_filterMap hcarries hc
  refine ⟨hlines, ?_, hkept, ?_, ?_⟩
  · rw [commands_eq_filterMap hu, commands_eq_filterMap hv]
    exact Command.filterMap_ofComment? hcarries
  · -- a line that is lost has no byte that is kept, and the directive is one
    intro c hc
    obtain ⟨front, start, back, hline, hle, hback⟩ := Moves.exists_divides hu hc
    have hsorted := LineIndex.starts_pairwise source
    rw [← lineIndex_eq hu, hline.starts_eq, List.pairwise_append] at hsorted
    rw [hline.lineStart_eq]
    rw [hline.starts_eq] at hstarts
    by_contra hlost
    have hnone := (hlined.losesLines 0 start c.offset (by rw [← hstarts]; simp)
      (Bool.eq_false_iff.mpr hlost) hle).2.1 fun n hn hlt => ?_
    · rw [hkept c hc] at hnone
      cases hnone
    · rw [← hstarts, List.mem_append, List.mem_cons] at hn
      rcases hn with hn | rfl | hn
      · have hfront := hsorted.2.2 n hn start List.mem_cons_self
        omega
      · exact absurd hlt (Nat.lt_irrefl _)
      · exact hback n hn
  · intro c hc m line hm hline
    have hmem := Command.lineStart_mem_starts hline
    rw [hstarts] at hmem
    by_contra hlost
    exact htarget c hc m line hm hline
      (hlined.losesLines 0 _ _ hmem (Bool.eq_false_iff.mpr hlost) (Nat.le_refl _)).1

end SourceUnit

end SwiftTidy
