import SwiftTidy.Proofs.Directive.Retouched
import SwiftTidy.Proofs.Rules.DroppedLines

/-!
# Empty lines that are left

Where runs of empty lines were shortened, the text is told by its parts (`parts`): the pieces of the lines
that are dropped, and all the rest.  What is still too long is a run in which the rule was disabled
(`exists_excess_of_shortened`), and it is disabled there in the new text too, unless a line was dropped that
a directive targets.  So one pass is enough for sources that spare the targets of their directives
(`findsNothing_of_sparesTargets`).
-/

namespace SwiftTidy

open Text (Portion IsTerminator)

open Text.Portion (before after Lined Place)

namespace VerticalWhitespace

variable {source : String} {tree : Element} {leading ps : Trivia} {limit index offset offset' : Nat}
  {disabled : DisabledRegions} {D run : List Line} {l : Line} {atFront : Bool} {qs : List Portion} {s : Place}
  {P : Nat → Prop}

/-! ### The parts of the text -/

/-- The byte at which a piece starts. -/
def pieceStart (offset : Nat) (leading : Trivia) (index : Nat) : Nat :=
  offset + Trivia.len (leading.take index)

theorem pieceStart_succ (offset : Nat) {p : TriviaPiece} (hp : leading[index]? = some p) :
    pieceStart offset leading (index + 1) = pieceStart offset leading index + p.len := by
  rw [pieceStart, List.take_add_one, hp, Option.toList_some, Trivia.len_append, Trivia.len_cons,
    Trivia.len_nil, Nat.add_zero, ← Nat.add_assoc, pieceStart]

/-- The parts of trivia of which the pieces of some lines are dropped. -/
def partsOf (D : List Line) : (index : Nat) → Trivia → List Portion
  | _, [] => []
  | index, p :: ps =>
    if D.any (·.contains index) then .replace p.text.toList [] :: partsOf D (index + 1) ps
    else p.text.toList.map .keep ++ partsOf D (index + 1) ps

theorem turns_partsOf (hclear : ∀ l ∈ D, l.IsClear leading) (hps : leading.drop index = ps) :
    ps.Turns (dropLines D index ps) (partsOf D index ps) := by
  induction ps generalizing index with
  | nil => exact .nil
  | cons p ps ih =>
    obtain ⟨hp, hrest⟩ := getElem?_of_drop hps
    rw [dropLines, partsOf]
    split_ifs with hdropped
    · obtain ⟨l, hl, hcontains⟩ := List.any_eq_true.mp hdropped
      have hcomment : Trivia.containsComment [p] = false := by
        rw [Trivia.containsComment, List.any_cons, hclear l hl index p hcontains hp]
        rfl
      have hturns : Trivia.Turns ([p] ++ ps) ([] ++ dropLines D (index + 1) ps) _ :=
        .replace hcomment rfl (ih hrest)
      rwa [Trivia.toList_text_cons, Trivia.toList_text_nil, List.append_nil] at hturns
    · exact .keep (ih hrest)

/-- What is known of a piece that is dropped: the line goes on behind it, or it is the line break. -/
theorem contains_succ (hD : ∀ l ∈ D, l.IsBlank atFront leading) {p : TriviaPiece}
    (hp : leading[index]? = some p) (hdropped : D.any (·.contains index) = true)
    (hother : p.isNewline = false) : D.any (·.contains (index + 1)) = true := by
  obtain ⟨l, hl, hcontains⟩ := List.any_eq_true.mp hdropped
  obtain ⟨hfrom, hto⟩ := contains_iff.mp hcontains
  obtain ⟨q, hq, hnewline⟩ := (hD l hl).last
  refine List.any_eq_true.mpr ⟨l, hl, contains_iff.mpr ⟨by omega, ?_⟩⟩
  by_contra hend
  obtain rfl : l.last = index := by omega
  rw [hp] at hq
  rw [Option.some.inj hq, hnewline] at hother
  cases hother

/-- A line that is dropped starts behind a line break. -/
theorem isNewline_of_contains_succ (hD : ∀ l ∈ D, l.IsBlank atFront leading) {p : TriviaPiece}
    (hp : leading[index]? = some p) (hkept : ¬ D.any (·.contains index) = true)
    (hnext : D.any (·.contains (index + 1)) = true) : p.isNewline = true := by
  obtain ⟨l, hl, hcontains⟩ := List.any_eq_true.mp hnext
  obtain ⟨hfrom, hto⟩ := contains_iff.mp hcontains
  refine (hD l hl).front index p ?_ hp
  by_contra hne
  exact hkept (List.any_eq_true.mpr ⟨l, hl, contains_iff.mpr (by omega)⟩)

/-- Behind a line break a line starts with the next piece. -/
theorem first_eq_of_contains_succ (hl : l.StandsIn leading) {p : TriviaPiece}
    (hp : leading[index]? = some p) (hnewline : p.isNewline = true)
    (hcontains : l.contains (index + 1) = true) : l.first = index + 1 := by
  obtain ⟨hfrom, hto⟩ := contains_iff.mp hcontains
  by_contra hne
  have hinside := hl.inside index p (by omega) (by omega) hp
  rw [hnewline] at hinside
  cases hinside

/-- **Whole lines** are dropped of the text too. -/
theorem lined_partsOf (hD : ∀ l ∈ D, l.IsBlank atFront leading) (hP : ∀ l ∈ D, P l.start)
    (hstart : ∀ l ∈ D, l.start = pieceStart offset leading l.first) (hps : leading.drop index = ps)
    (hlines : ∀ p ∈ ps, p.KeepsLines) (hapart : ps.BreaksApart)
    (hapart' : (dropLines D index ps).BreaksApart)
    (hqs : ∀ s ≠ .dropped, Lined P s (offset + leading.len) qs)
    (hbefore : (before qs).head? ≠ some '\n') (hafter : (after qs).head? ≠ some '\n')
    (hinside : D.any (·.contains index) = true → s ≠ .inside)
    (hdropped : s = .dropped → D.any (·.contains index) = true)
    (hfirst : s = .start → ∀ l ∈ D, l.contains index = true → l.first = index) :
    Lined P s (pieceStart offset leading index) (partsOf D index ps ++ qs) := by
  induction ps generalizing index s with
  | nil =>
    rw [List.drop_eq_nil_iff] at hps
    rw [pieceStart, List.take_of_length_le hps]
    refine hqs s fun hs => ?_
    obtain ⟨l, hl, hcontains⟩ := List.any_eq_true.mp (hdropped hs)
    obtain ⟨q, hq, -⟩ := (hD l hl).last
    have hlast := (List.getElem?_eq_some_iff.mp hq).1
    have hto := (contains_iff.mp hcontains).2
    omega
  | cons p ps ih =>
    obtain ⟨hp, hrest⟩ := getElem?_of_drop hps
    obtain ⟨hpiece, hlines⟩ := List.forall_mem_cons.mp hlines
    have hturns := turns_partsOf (fun l hl => (hD l hl).clear) hrest
    have hlen := pieceStart_succ offset hp
    have hsize : String.utf8Len p.text.toList = p.len := (Text.utf8ByteSize_eq p.text).symm
    have hold : p.text = "\r" → (before (partsOf D (index + 1) ps ++ qs)).head? ≠ some '\n' := by
      intro hcr
      rw [Text.Portion.before_append, hturns.before_eq]
      exact Text.Portion.head?_ne_of_keepsLines hlines hapart hcr hbefore
    rw [partsOf]
    rw [dropLines] at hapart'
    split_ifs at hapart' ⊢ with hdrop
    · -- a piece of a line that is dropped: the break that ends it, or blanks in front of that
      have hknown : s = .start → P (pieceStart offset leading index) := by
        intro hs
        obtain ⟨l, hl, hcontains⟩ := List.any_eq_true.mp hdrop
        rw [← hfirst hs l hl hcontains, ← hstart l hl]
        exact hP l hl
      cases hnewline : p.isNewline with
      | true =>
        refine .dropEnd (hinside hdrop) hknown
          (Text.Portion.isTerminator_of_isNewline hpiece hnewline hold) ?_
        rw [hsize, ← hlen]
        exact ih hrest hlines hapart.of_cons hapart' (fun _ => by decide) (absurd · (by decide)) fun _ l hl =>
          first_eq_of_contains_succ (hD l hl).toStandsIn hp hnewline
      | false =>
        have hblank : p.isWhitespace = true := by
          obtain ⟨l, hl, hcontains⟩ := List.any_eq_true.mp hdrop
          have hcomment := (hD l hl).clear index p hcontains hp
          rw [TriviaPiece.isNewline, beq_eq_false_iff_ne] at hnewline
          rw [TriviaPiece.isComment] at hcomment
          rw [TriviaPiece.isWhitespace, beq_iff_eq]
          generalize p.kind = kind at hnewline hcomment
          cases kind with
          | whitespace => rfl
          | newline => exact absurd rfl hnewline
          | _ => cases hcomment
        refine .drop (hinside hdrop) hknown
          (fun c hc => Text.Portion.isPlain_of_isLineEnd (hpiece.blanks hblank c hc)) ?_ ?_
        · obtain ⟨c, hc, -⟩ := (hpiece.within hnewline).head
          obtain ⟨w, hw⟩ := List.head?_eq_some_iff.mp hc
          have hpos := c.utf8Size_pos
          rw [hw, String.utf8Len_cons]
          omega
        · rw [hsize, ← hlen]
          exact ih hrest hlines hapart.of_cons hapart' (fun _ => by decide)
            (fun _ => contains_succ hD hp hdrop hnewline) (absurd · (by decide))
    · -- a piece that is kept: a line that is dropped starts behind it only if it is a break
      rw [List.append_assoc]
      refine Text.Portion.lined_piece hpiece (fun hs => hdrop (hdropped hs)) hold ?_ ?_
      · intro hcr
        rw [Text.Portion.after_append, hturns.after_eq]
        refine Text.Portion.head?_ne_of_keepsLines (fun q hq => hlines q ?_) hapart' hcr hafter
        exact (dropLines_sublist _ _ _).subset hq
      · rw [← hlen]
        refine ih hrest hlines hapart.of_cons hapart'.of_cons (fun hnext => ?_) (fun hs => ?_) fun hs => ?_
        · rw [isNewline_of_contains_succ hD hp hdrop hnext]
          decide
        · split_ifs at hs
        · have hnewline : p.isNewline = true := by
            by_contra hne
            rw [if_neg hne] at hs
            cases hs
          exact fun l hl => first_eq_of_contains_succ (hD l hl).toStandsIn hp hnewline

/-! ### In front of all tokens -/

/-- The lines that are dropped in front of a token at a byte. -/
def dropped (limit : Nat) (disabled : DisabledRegions) (offset : Nat) (leading : Trivia) : List Line :=
  (emptyRuns offset leading).flatMap (droppedOf limit disabled)

/-- The parts of the text of tokens of which some lines are dropped. -/
def parts (limit : Nat) (disabled : DisabledRegions) : (offset : Nat) → List Token → List Portion
  | _, [] => []
  | offset, t :: ts =>
    partsOf (dropped limit disabled offset t.leading) 0 t.leading ++
      (t.text.toList.map .keep ++
        (Text.Portion.ofTrivia t.trailing ++ parts limit disabled (offset + t.fullLen) ts))

theorem isBlank_of_mem_dropped (hl : l ∈ dropped limit disabled offset leading) :
    l.IsBlank (offset == 0) leading := by
  obtain ⟨run, hrun, hmem⟩ := exists_of_mem_dropped hl
  exact isBlank_of_mem_emptyRuns hrun hmem

theorem turns_parts (offset : Nat) (ts : List Token) :
    Token.Turns ts (Token.relead (shortened limit disabled) offset ts) (parts limit disabled offset ts) := by
  induction ts generalizing offset with
  | nil => exact .nil
  | cons t ts ih =>
    rw [Token.relead_cons]
    exact .cons (turns_partsOf (fun l hl => (isBlank_of_mem_dropped hl).clear) List.drop_zero) rfl
      (Text.Portion.turns_ofTrivia t.trailing) (ih _)

/-- Every line starts with its first piece. -/
theorem start_of_mem_lineRuns {lines : List Line} {first start : Nat} (hps : leading.drop index = ps)
    (hcurrent : start = pieceStart offset leading first)
    (hlines : ∀ l ∈ lines, l.start = pieceStart offset leading l.first)
    (hrun : run ∈ lineRuns index (pieceStart offset leading index) first start lines ps) (hl : l ∈ run) :
    l.start = pieceStart offset leading l.first := by
  induction ps generalizing index first start lines with
  | nil =>
    rw [lineRuns, List.mem_singleton] at hrun
    exact hlines l (hrun ▸ hl)
  | cons p ps ih =>
    obtain ⟨hp, hrest⟩ := getElem?_of_drop hps
    rw [lineRuns, ← pieceStart_succ offset hp] at hrun
    split_ifs at hrun
    · refine ih hrest rfl ?_ hrun
      rw [List.forall_mem_append, List.forall_mem_singleton]
      exact ⟨hlines, hcurrent⟩
    · rcases List.mem_cons.mp hrun with rfl | hrun
      · exact hlines l hl
      · exact ih hrest hcurrent (List.forall_mem_nil _) hrun
    · exact ih hrest hcurrent hlines hrun

theorem start_of_mem_emptyRuns (hrun : run ∈ emptyRuns offset leading) (hl : l ∈ run) :
    l.start = pieceStart offset leading l.first := by
  obtain ⟨run', hrun', hl'⟩ := exists_mem_lineRuns hrun hl
  exact start_of_mem_lineRuns List.drop_zero rfl (List.forall_mem_nil _) hrun' hl'

theorem lined_parts {ts : List Token} (hts : ∀ t ∈ ts, t.KeepsLines) (hpos : ∀ t ∈ ts.dropLast, 0 < t.len)
    (hapart : ∀ p ∈ Token.placed offset ts, Trivia.BreaksApart (shortened limit disabled p.1 p.2.leading))
    (hP : ∀ p ∈ Token.placed offset ts, ∀ l ∈ dropped limit disabled p.1 p.2.leading, P l.start) :
    Lined P (if offset = 0 then .start else .inside) offset (parts limit disabled offset ts) := by
  induction ts generalizing offset with
  | nil =>
    refine .nil ?_
    split_ifs <;> decide
  | cons t ts ih =>
    obtain ⟨ht, hts⟩ := List.forall_mem_cons.mp hts
    obtain ⟨hfirst, hapart⟩ := List.forall_mem_cons.mp hapart
    obtain ⟨hknown, hP⟩ := List.forall_mem_cons.mp hP
    -- behind the first token a line goes on; only the last token may be empty
    have hrest : Lined P .inside (offset + t.fullLen) (parts limit disabled (offset + t.fullLen) ts) ∧
        (t.text = "" → parts limit disabled (offset + t.fullLen) ts = []) := by
      cases ts with
      | nil => exact ⟨.nil (by decide), fun _ => rfl⟩
      | cons u ts =>
        rw [List.dropLast_cons_cons, List.forall_mem_cons] at hpos
        have hlined := ih hts hpos.2 hapart hP
        rw [if_neg (by rw [Token.fullLen]; omega)] at hlined
        refine ⟨hlined, fun hempty => absurd hpos.1 ?_⟩
        rw [Token.len, hempty]
        exact Nat.lt_irrefl 0
    have hempty : t.text = "" →
        Text.Portion.ofTrivia t.trailing ++ parts limit disabled (offset + t.fullLen) ts = [] := fun htext => by
      rw [ht.trailing_eq_nil htext, hrest.2 htext]
      rfl
    have hlexeme : ∀ s ≠ .dropped, Lined P s (offset + t.leading.len) _ := fun s hs =>
      Text.Portion.lined_lexeme ht hs hempty (Text.Portion.lined_ofTrivia ht.trailing ht.stays
        (by rw [Nat.add_assoc, Nat.add_assoc, ← Nat.add_assoc t.leading.len]; exact hrest.1))
    have hhead := Text.Portion.head?_lexeme ht hempty
    refine lined_partsOf (fun l hl => isBlank_of_mem_dropped hl) hknown (fun l hl => ?_)
      List.drop_zero ht.leading ht.apart hfirst hlexeme hhead.1 hhead.2 ?_ ?_ ?_
    · obtain ⟨run, hrun, hmem⟩ := exists_of_mem_dropped hl
      exact start_of_mem_emptyRuns hrun hmem
    · intro hcontains
      obtain ⟨l, hl, hcontains⟩ := List.any_eq_true.mp hcontains
      have hfront := (isBlank_of_mem_dropped hl).atFront (Nat.le_zero.mp (contains_iff.mp hcontains).1)
      rw [if_pos (eq_of_beq hfront)]
      decide
    · intro hs
      split_ifs at hs
    · exact fun _ l _ hcontains => Nat.le_zero.mp (contains_iff.mp hcontains).1

/-! ### Where the lines that are left are -/

theorem partsOf_append (D : List Line) (index : Nat) (s t : Trivia) :
    partsOf D index (s ++ t) = partsOf D index s ++ partsOf D (index + s.length) t := by
  induction s generalizing index with
  | nil => rfl
  | cons p s ih =>
    rw [List.cons_append, partsOf, partsOf, ih, List.length_cons, Nat.add_right_comm, Nat.add_assoc]
    split_ifs
    · rfl
    · rw [List.append_assoc]

theorem before_partsOf (D : List Line) (index : Nat) (t : Trivia) :
    before (partsOf D index t) = t.text.toList := by
  induction t generalizing index with
  | nil => rfl
  | cons p t ih =>
    rw [partsOf, Trivia.toList_text_cons]
    split_ifs
    · rw [before, ih]
    · rw [Text.Portion.before_append, Text.Portion.before_map_keep, ih]

theorem after_partsOf (D : List Line) (index : Nat) (t : Trivia) :
    after (partsOf D index t) = (Trivia.text (dropLines D index t)).toList := by
  induction t generalizing index with
  | nil => rfl
  | cons p t ih =>
    rw [partsOf, dropLines]
    split_ifs
    · rw [after, ih, List.nil_append]
    · rw [Text.Portion.after_append, Text.Portion.after_map_keep, ih, Trivia.toList_text_cons]

/-- A piece that is not dropped is found behind those that are left in front of it. -/
theorem kept_piece {p : TriviaPiece} (hp : leading[index]? = some p) (hlen : 0 < p.len)
    (hkept : ¬ D.any (·.contains index) = true) :
    Portion.kept offset (partsOf D 0 leading ++ qs) (pieceStart offset leading index) = true ∧
      Portion.moved offset offset' (partsOf D 0 leading ++ qs) (pieceStart offset leading index) =
        pieceStart offset' (dropLines D 0 leading) (leftBefore D leading index) := by
  obtain ⟨hlt, hget⟩ := List.getElem?_eq_some_iff.mp hp
  have hlength : (leading.take index).length = index := List.length_take_of_le (Nat.le_of_lt hlt)
  have hsplit : leading = leading.take index ++ p :: leading.drop (index + 1) := by
    rw [← hget, ← List.drop_eq_getElem_cons hlt, List.take_append_drop]
  have hparts : partsOf D 0 leading ++ qs = partsOf D 0 (leading.take index) ++
      (p.text.toList.map .keep ++ (partsOf D (index + 1) (leading.drop (index + 1)) ++ qs)) := by
    conv_lhs => rw [hsplit, partsOf_append, hlength, Nat.zero_add, partsOf, if_neg hkept]
    simp only [List.append_assoc]
  have hleft : (dropLines D 0 leading).take (leftBefore D leading index) =
      dropLines D 0 (leading.take index) := by
    conv_lhs => rw [hsplit, dropLines_append]
    rw [← hsplit, leftBefore, List.take_left]
  have hbefore : String.utf8Len (before (partsOf D 0 (leading.take index))) =
      Trivia.len (leading.take index) := by
    rw [before_partsOf, Trivia.utf8Len_text]
  have hafter : String.utf8Len (after (partsOf D 0 (leading.take index))) =
      Trivia.len (dropLines D 0 (leading.take index)) := by
    rw [after_partsOf, Trivia.utf8Len_text]
  have hsize : 0 < String.utf8Len p.text.toList := by rwa [← Text.utf8ByteSize_eq]
  rw [hparts, pieceStart, pieceStart, hleft, Text.Portion.kept_append (by rw [hbefore]),
    Text.Portion.moved_append (by rw [hbefore]), hbefore, hafter]
  exact Text.Portion.kept_map_keep hsize

/-- A line that is not dropped has its first piece left. -/
theorem not_contains_first (hD : ∀ l ∈ D, ∃ run ∈ lineRuns 0 offset 0 offset [] leading, l ∈ run)
    (hrun : run ∈ lineRuns 0 offset 0 offset [] leading) (hl : l ∈ run) (hkept : l ∉ D) :
    ¬ D.any (·.contains l.first) = true := by
  have hstands := standsIn_of_mem_lineRuns (.initial leading) List.drop_zero hrun hl
  intro hany
  obtain ⟨l', hl', hcontains⟩ := List.any_eq_true.mp hany
  obtain ⟨run', hrun', hmem⟩ := hD l' hl'
  have hstands' := standsIn_of_mem_lineRuns (.initial leading) List.drop_zero hrun' hmem
  obtain ⟨hfrom, hto⟩ := contains_iff.mp hcontains
  obtain ⟨p, hp, hnewline⟩ := hstands.last
  obtain ⟨p', hp', hnewline'⟩ := hstands'.last
  -- neither line has the line break of the other one inside
  have hle : ¬ l'.last < l.last := fun hlt => by
    have hinside := hstands.inside l'.last p' hto hlt hp'
    rw [hnewline'] at hinside
    cases hinside
  have hge : ¬ l.last < l'.last := fun hlt => by
    have hinside := hstands'.inside l.last p (hfrom.trans hstands.first_le) hlt hp
    rw [hnewline] at hinside
    cases hinside
  have hlast := any_contains_last hD hrun hl
  rw [decide_eq_false hkept, show l.last = l'.last by omega] at hlast
  rw [List.any_eq_true.mpr ⟨l', hl', hstands'.contains_last⟩] at hlast
  cases hlast

/-- **What is still too long** is a run that was not shortened, where the rule was disabled.  Its last line is
left, with its first piece. -/
theorem exists_excess_of_shortened {e' : Excess} {run' : List Line}
    (hoffset : offset' = 0 ↔ offset = 0)
    (hrun' : run' ∈ emptyRuns offset' (shortened limit disabled offset leading))
    (he' : excess? limit run' = some e') :
    ∃ position i, disabled.isSuppressed position = true ∧ position = pieceStart offset leading i ∧
      i < leading.length ∧ ¬ (dropped limit disabled offset leading).any (·.contains i) = true ∧
      e'.position = pieceStart offset' (shortened limit disabled offset leading)
        (leftBefore (dropped limit disabled offset leading) leading i) := by
  have hfound : ∀ l ∈ dropped limit disabled offset leading, ∃ run ∈ emptyRuns offset leading, l ∈ run :=
    fun l hl => exists_of_mem_dropped hl
  have hfirsts := map_first_emptyRuns_dropLines hoffset hfound
  -- the run is what is left of an old one
  obtain ⟨run, hrun, hsame⟩ : ∃ run ∈ emptyRuns offset leading,
      (run.filter (· ∉ dropped limit disabled offset leading)).map
        (fun l => leftBefore (dropped limit disabled offset leading) leading l.first) =
          run'.map Line.first := by
    have hmem := List.mem_map_of_mem (f := fun run : List Line => run.map Line.first) hrun'
    rw [shortened] at hmem
    rw [show (emptyRuns offset leading).flatMap (droppedOf limit disabled) =
      dropped limit disabled offset leading from rfl, hfirsts] at hmem
    exact List.mem_map.mp hmem
  have hlength : run'.length = if isShortened limit disabled run then limit else run.length := by
    have hlength := congrArg List.length hsame
    rw [List.length_map, List.length_map] at hlength
    rw [← hlength]
    exact length_filter_dropped hrun
  rw [excess?, Option.ite_none_right_eq_some] at he'
  obtain ⟨hlong, he'⟩ := he'
  obtain ⟨l', hl', rfl⟩ := Option.map_eq_some_iff.mp he'
  -- a run that was shortened is as long as the limit, so this one was not, and all its lines are left
  have hnot : isShortened limit disabled run = false := by
    by_contra hshort
    rw [if_pos (by simpa using hshort)] at hlength
    omega
  rw [hnot, if_neg Bool.false_ne_true] at hlength
  have hkept : ∀ l ∈ run, l ∉ dropped limit disabled offset leading := fun l hl hmem => by
    have hnone := (mem_dropped_iff hrun hl).mp hmem
    rw [droppedOf, hnot] at hnone
    cases hnone
  rw [List.filter_eq_self.mpr fun l hl => decide_eq_true (hkept l hl)] at hsame
  obtain ⟨l, hl⟩ : ∃ l, run.getLast? = some l := by
    rw [← Option.isSome_iff_exists, List.getLast?_isSome, ← List.length_pos_iff]
    omega
  have hmem := List.mem_of_getLast? hl
  have hfirst : leftBefore (dropped limit disabled offset leading) leading l.first = l'.first := by
    have hlast := congrArg List.getLast? hsame
    rw [List.getLast?_map, List.getLast?_map, hl, hl'] at hlast
    exact Option.some.inj hlast
  have hsuppressed : disabled.isSuppressed l.start = true := by
    rw [isShortened, excess?, if_pos (by omega), hl] at hnot
    simpa using hnot
  have hstands := (isBlank_of_mem_emptyRuns hrun hmem).toStandsIn
  obtain ⟨q, hq, -⟩ := hstands.last
  obtain ⟨run₀, hrun₀, hmem₀⟩ := exists_mem_lineRuns hrun hmem
  refine ⟨l.start, l.first, hsuppressed, start_of_mem_emptyRuns hrun hmem,
    hstands.first_le.trans_lt (List.getElem?_eq_some_iff.mp hq).1,
    not_contains_first (fun l hl => ?_) hrun₀ hmem₀ (hkept l hmem), ?_⟩
  · obtain ⟨run₁, hrun₁, hl⟩ := hfound l hl
    exact exists_mem_lineRuns hrun₁ hl
  · rw [hfirst]
    exact start_of_mem_emptyRuns hrun' (List.mem_of_getLast? hl')

/-! ### The second pass -/

/-- The parts of the text of one token. -/
theorem utf8Len_parts (limit : Nat) (disabled : DisabledRegions) (offset : Nat) (t : Token)
    (ts : List Token) : ∃ ps, parts limit disabled offset (t :: ts) =
        ps ++ parts limit disabled (offset + t.fullLen) ts ∧
      String.utf8Len (before ps) = t.fullLen ∧
      String.utf8Len (after ps) =
        Token.fullLen { t with leading := shortened limit disabled offset t.leading } := by
  refine ⟨partsOf (dropped limit disabled offset t.leading) 0 t.leading ++
    (t.text.toList.map .keep ++ Text.Portion.ofTrivia t.trailing), ?_, ?_, ?_⟩
  · rw [parts, List.append_assoc, List.append_assoc]
  · rw [Text.Portion.before_append, Text.Portion.before_append, before_partsOf, Text.Portion.before_map_keep,
      (Text.Portion.turns_ofTrivia t.trailing).before_eq, String.utf8Len_append, String.utf8Len_append,
      Trivia.utf8Len_text, Trivia.utf8Len_text, ← Text.utf8ByteSize_eq, Token.fullLen, Token.len]
    omega
  · rw [Text.Portion.after_append, Text.Portion.after_append, after_partsOf, Text.Portion.after_map_keep,
      (Text.Portion.turns_ofTrivia t.trailing).after_eq, String.utf8Len_append, String.utf8Len_append,
      Trivia.utf8Len_text, Trivia.utf8Len_text, ← Text.utf8ByteSize_eq]
    dsimp only [Token.fullLen, Token.len, shortened, dropped]
    omega

/-- Every piece that is not dropped is where the parts of the text say. -/
theorem forall₂_placed_parts {ts : List Token} (hts : ∀ t ∈ ts, t.leading.IsCut)
    (hpos : ∀ t ∈ ts.dropLast, 0 < t.len) (hoffset : offset' = 0 ↔ offset = 0) :
    List.Forall₂ (fun p q => (q.1 = 0 ↔ p.1 = 0) ∧ q.2.leading = shortened limit disabled p.1 p.2.leading ∧
        offset ≤ p.1 ∧ ∀ i < p.2.leading.length,
          ¬ (dropped limit disabled p.1 p.2.leading).any (·.contains i) = true →
            Portion.kept offset (parts limit disabled offset ts) (pieceStart p.1 p.2.leading i) = true ∧
            Portion.moved offset offset' (parts limit disabled offset ts) (pieceStart p.1 p.2.leading i) =
              pieceStart q.1 q.2.leading
                (leftBefore (dropped limit disabled p.1 p.2.leading) p.2.leading i))
      (Token.placed offset ts)
      (Token.placed offset' (Token.relead (shortened limit disabled) offset ts)) := by
  induction ts generalizing offset offset' with
  | nil => exact .nil
  | cons t ts ih =>
    obtain ⟨ht, hts⟩ := List.forall_mem_cons.mp hts
    rw [Token.relead_cons, Token.placed, Token.placed]
    refine .cons ⟨hoffset, rfl, Nat.le_refl _, fun i hi hkept => ?_⟩ ?_
    · have hpiece := ht _ (List.getElem_mem hi)
      exact kept_piece (List.getElem?_eq_getElem hi) (TriviaPiece.len_pos hpiece) hkept
    · cases ts with
      | nil => exact .nil
      | cons u ts =>
        rw [List.dropLast_cons_cons, List.forall_mem_cons] at hpos
        have hlen : 0 < t.text.utf8ByteSize := hpos.1
        obtain ⟨ps, hparts, hbefore, hafter⟩ := utf8Len_parts limit disabled offset t (u :: ts)
        refine (ih hts hpos.2 ?_).imp ?_
        · simp only [Token.fullLen, Token.len]
          omega
        · rintro p q ⟨hfront, hleading, hle, hpieces⟩
          refine ⟨hfront, hleading, by omega, fun i hi hkept => ?_⟩
          have hstart : offset + String.utf8Len (before ps) ≤ pieceStart p.1 p.2.leading i := by
            rw [hbefore, pieceStart]
            omega
          rw [hparts, Text.Portion.kept_append hstart, Text.Portion.moved_append hstart, hbefore, hafter]
          exact hpieces i hi hkept

/-- **Nothing is left to shorten**: where the text without the dropped lines is read into the tree without
them, the rule is disabled at every run of too many empty lines, if no directive targets a line that is
dropped. -/
theorem isSuppressed_of_made {source' : String} {u v : SourceUnit} (hu : SourceUnit.ofText source = .ok u)
    (hv : SourceUnit.ofText source' = .ok v)
    (hmade : Made limit (u.disabledRegions description) (.root u.tree) v.tree)
    (hapart : ∀ t ∈ v.tree.leaves, Trivia.BreaksApart t.leading)
    (htarget : ∀ p ∈ Token.placed 0 u.tree.leaves,
      ∀ l ∈ dropped limit (u.disabledRegions description) p.1 p.2.leading, ∀ c ∈ u.commands,
        ∀ line ∈ c.modifier.bind (c.target? · u.lineIndex), u.lineIndex.lineStart line ≠ l.start) :
    ∀ q ∈ Token.placed 0 v.tree.leaves, ∀ run ∈ emptyRuns q.1 q.2.leading, ∀ e,
      excess? limit run = some e → (v.disabledRegions description).isSuppressed e.position = true := by
  have hparse := SourceUnit.parse_of_ofText hu
  have hleaves : v.tree.leaves =
      Token.relead (shortened limit (u.disabledRegions description)) 0 u.tree.leaves := hmade.leaves
  obtain ⟨ts, t, htree, hcut, hlast, -⟩ := leaves_isCut hparse
  have hpos : ∀ t ∈ u.tree.leaves.dropLast, 0 < t.len := by
    rw [htree, List.dropLast_concat]
    exact fun t ht => (hcut t ht).len_pos
  have hturns : Token.Turns u.tree.leaves v.tree.leaves _ := hleaves ▸ turns_parts 0 u.tree.leaves
  have hlined := lined_parts (P := fun n => ∃ p ∈ Token.placed 0 u.tree.leaves,
      ∃ l ∈ dropped limit (u.disabledRegions description) p.1 p.2.leading, l.start = n)
    (keepsLines_of_parse hparse) hpos (by
      rw [hleaves, Token.relead, List.forall_mem_map] at hapart
      exact hapart) fun p hp l hl => ⟨p, hp, l, hl, rfl⟩
  have hmoves := SourceUnit.moves_of_turns hu hv hturns hlined (by
    rintro c hc m line hm hline ⟨p, hp, l, hl, heq⟩
    exact htarget p hp l hl c hc line (by rw [hm]; exact hline) heq.symm)
  have hplaced := @forall₂_placed_parts limit 0 0 (u.disabledRegions description) _
    (fun t ht => (trivia_isCut_of_mem_leaves hparse ht).1) hpos Iff.rfl
  rw [← hleaves] at hplaced
  intro q hq run hrun e he
  obtain ⟨⟨i, hi⟩, rfl⟩ := List.get_of_mem hq
  obtain ⟨hfront, hleading, -, hpieces⟩ := hplaced.get (hplaced.length_eq ▸ hi) hi
  rw [hleading] at hrun
  obtain ⟨position, k, hsuppressed, hposition, hk, hkept, he⟩ := exists_excess_of_shortened hfront hrun he
  obtain ⟨hkept, hmoved⟩ := hpieces k hk hkept
  rw [hleading, ← he, ← hposition] at hmoved
  rw [← hposition] at hkept
  rw [← hmoved, hmoves.isSuppressed_eq hu hv description hkept]
  exact hsuppressed

/-- **Sources that are done after one pass**: where lines are dropped, no lone CR comes to stand in front of
a lone LF, and none of these lines is one that a directive is for. -/
structure SparesTargets (limit : Nat) (disabled : DisabledRegions) (u : SourceUnit) : Prop where
  breaks : ∀ p ∈ Token.placed 0 u.tree.leaves, Trivia.BreaksApart (shortened limit disabled p.1 p.2.leading)
  targets : ∀ p ∈ Token.placed 0 u.tree.leaves, ∀ l ∈ dropped limit disabled p.1 p.2.leading,
    ∀ c ∈ u.commands, ∀ line ∈ c.modifier.bind (c.target? · u.lineIndex),
      u.lineIndex.lineStart line ≠ l.start

instance (limit : Nat) (disabled : DisabledRegions) (u : SourceUnit) :
    Decidable (SparesTargets limit disabled u) :=
  decidable_of_iff
    ((∀ p ∈ Token.placed 0 u.tree.leaves, Trivia.BreaksApart (shortened limit disabled p.1 p.2.leading)) ∧
      ∀ p ∈ Token.placed 0 u.tree.leaves, ∀ l ∈ dropped limit disabled p.1 p.2.leading,
        ∀ c ∈ u.commands, ∀ line ∈ c.modifier.bind (c.target? · u.lineIndex),
          u.lineIndex.lineStart line ≠ l.start)
    ⟨fun h => ⟨h.1, h.2⟩, fun h => ⟨h.breaks, h.targets⟩⟩

/-- A token that the rule looks at is a leaf, at the byte where it starts. -/
theorem exists_placed_of_mem_tokens {u : SourceUnit} {token : Cursor} (h : SourceUnit.ofText source = .ok u)
    (htoken : token ∈ u.root.tokens) :
    ∃ t, (token.offset, t) ∈ Token.placed 0 u.tree.leaves ∧ token.leadingTrivia = t.leading := by
  have hparse := SourceUnit.parse_of_ofText h
  obtain ⟨t, helement, hplaced⟩ :=
    Cursor.exists_mem_placed (p := .root u.tree) (wellKinded_parse hparse) htoken
  exact ⟨t, hplaced, (leading_of_mem_descendants hparse (List.mem_filter.mp htoken).1 helement).2⟩

/-- What a pass leaves of such a source is read, and the rule finds nothing in it where it is not
disabled. -/
theorem findsNothing_of_sparesTargets (ctx : Context) (h : SourceUnit.ofText source = .ok ctx.unit)
    (o : Options) (hspares : SparesTargets o.maxEmptyLines (ctx.unit.disabledRegions description) ctx.unit) :
    ∃ outcome v, (rule o).fix? ctx = some (.ok outcome) ∧
      SourceUnit.ofText outcome.tree.fullText = .ok v ∧
      ∀ ctx' : Context, ctx'.unit = v → (rule o).FindsNothing ctx' := by
  have hparse := SourceUnit.parse_of_ofText h
  obtain ⟨outcome, hrun, hmade⟩ := made_run hparse o.maxEmptyLines
    (SourceUnit.disabledRegions_isSeparated h description)
  have hapart : ∀ t ∈ outcome.tree.leaves, Trivia.BreaksApart t.leading := by
    rw [hmade.leaves, Token.relead, List.forall_mem_map]
    exact hspares.breaks
  have hread : SourceUnit.ofText outcome.tree.fullText = .ok (.ofTree outcome.tree) := by
    rw [SourceUnit.ofText, parse_of_made hparse hmade hapart]
    rfl
  have hsuppressed := isSuppressed_of_made h hread hmade hapart hspares.targets
  refine ⟨outcome, _, congrArg some hrun, hread, fun ctx' hctx => ⟨_, rfl, ?_⟩⟩
  rw [hctx, Rule.unsuppressed, List.filter_eq_nil_iff]
  intro position hposition
  obtain ⟨violation, hviolation, rfl⟩ := List.mem_map.mp hposition
  obtain ⟨token, htoken, hviolation⟩ := List.mem_flatMap.mp hviolation
  obtain ⟨e, he, rfl⟩ := List.mem_map.mp hviolation
  obtain ⟨run, hrun, he⟩ := List.mem_filterMap.mp he
  rw [Context.root, hctx] at htoken
  obtain ⟨t, hplaced, hleading⟩ := exists_placed_of_mem_tokens hread htoken
  rw [hleading] at hrun
  have hdisabled : (SourceUnit.disabledRegions _ (rule o).description).isSuppressed e.position = true :=
    hsuppressed _ hplaced run hrun e he
  rw [hdisabled]
  exact Bool.false_ne_true

end VerticalWhitespace

end SwiftTidy
