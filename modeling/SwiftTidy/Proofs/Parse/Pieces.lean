import SwiftTidy.Proofs.Parse.Boundaries
import SwiftTidy.Proofs.Parse.Lexemes
import SwiftTidy.Proofs.Parse.Total

/-!
# Trivia is cut off piece by piece

A piece of trivia is the same whatever stands behind it, as long as the next character is
(`triviaPiece?_congr`).  `CutsOff trailing rest t` says that the pieces of `t` are what is cut off one
by one in front of `rest`; that is how the lexer finds trivia (`CutsOff.trivia_eq`), and the same trivia
is cut off in front of a text that starts alike (`CutsOff.congr`).
-/

namespace SwiftTidy

namespace Lexer

variable {trailing : Bool} {w rest rest' : List Char} {k : TriviaKind}

/-! ### Texts that start alike -/

/-- Texts that are the same to a scanner in front of them: the next character is the same, it opens a
comment in both or in neither, and a lexeme that ends here ends in front of both. -/
structure StartsAlike (cs cs' : List Char) : Prop where
  head?_eq : cs.head? = cs'.head?
  startsComment_eq : startsComment cs = startsComment cs'
  looksLike : LooksLike cs cs'

namespace StartsAlike

theorem nil : StartsAlike [] [] := ⟨rfl, rfl, .breaks rfl rfl⟩

theorem isRightBound_eq (h : StartsAlike rest rest') : isRightBound rest = isRightBound rest' := by
  have hhead := h.head?_eq
  have hcomment := h.startsComment_eq
  cases rest with
  | nil =>
    rw [List.head?_eq_none_iff.mp hhead.symm]
  | cons c cs =>
    obtain ⟨cs', rfl⟩ := List.head?_eq_some_iff.mp hhead.symm
    rw [isRightBound, isRightBound, hcomment]

/-- The same text in front makes them start alike all the more. -/
theorem append_left (w : List Char) (h : StartsAlike rest rest') :
    StartsAlike (w ++ rest) (w ++ rest') := by
  cases w with
  | nil => exact h
  | cons c w =>
    have hnext : SameNext (w ++ rest) (w ++ rest') := h.looksLike.sameNext.append_left w
    have hhead : (w ++ rest).head? = (w ++ rest').head? := by
      cases w with
      | nil => exact h.head?_eq
      | cons d w => rfl
    have hcomment : startsComment (c :: (w ++ rest)) = startsComment (c :: (w ++ rest')) := by
      rw [startsComment_cons, startsComment_cons, hhead]
    exact ⟨rfl, hcomment, .cons c hnext hcomment⟩

end StartsAlike

/-! ### One piece -/

/-- What the piece at the front is, by its first characters. -/
theorem triviaPiece?_cons (trailing : Bool) (c : Char) (cs : List Char) :
    triviaPiece? trailing (c :: cs) =
      if c = '\n' then .ok (if trailing then none else some (.newline, 1))
      else if c = '\r' then
        .ok (if trailing then none else some (.newline, if cs.head? = some '\n' then 2 else 1))
      else if c = '/' ∧ cs.head? = some '/' then
        .ok (some (lineCommentKind (c :: cs), lineLength cs.tail + 2))
      else if c = '/' ∧ cs.head? = some '*' then
        match blockCommentLength 1 cs.tail with
        | some n => .ok (some (blockCommentKind (c :: cs), n + 2))
        | none => .error ⟨.unterminatedComment, 0⟩
      else if isHorizontal c then .ok (some (.whitespace, (cs.takeWhile isHorizontal).length + 1))
      else .ok none := by
  unfold triviaPiece?
  split
  · next heq => cases heq
  · next heq =>
    cases heq
    rfl
  · next heq =>
    cases heq
    rfl
  · next hne heq =>
    cases heq
    -- a lone carriage return
    have hhead : ¬ cs.head? = some '\n' := by
      cases cs with
      | nil => simp
      | cons d cs => exact fun hd => hne cs (by rw [Option.some.inj hd])
    rw [if_neg (show ¬ '\r' = '\n' by decide), if_pos rfl, if_neg hhead]
  · next heq =>
    cases heq
    rfl
  · next heq =>
    cases heq
    rfl
  · next c' cs' hlf hcrlf hcr hline hblock heq =>
    cases heq
    have hnot : ∀ d, (∀ cs', c = '/' → cs = d :: cs' → False) → ¬ (c = '/' ∧ cs.head? = some d) := by
      rintro d hd ⟨hc, hhead⟩
      cases cs with
      | nil => cases hhead
      | cons e cs => exact hd cs hc (by rw [Option.some.inj hhead])
    rw [if_neg hlf, if_neg hcr, if_neg (hnot '/' hline), if_neg (hnot '*' hblock)]

theorem two_le_blockCommentLength {depth n : Nat} {cs : List Char}
    (h : blockCommentLength (depth + 1) cs = some n) : 2 ≤ n := by
  generalize hd : depth + 1 = d at h
  induction d, cs using blockCommentLength.induct generalizing depth n with
  | case1 cs => cases hd
  | case2 d cs ih =>
    rw [blockCommentLength, Option.map_eq_some_iff] at h
    obtain ⟨m, -, rfl⟩ := h
    exact Nat.le_add_left 2 m
  | case3 d cs ih =>
    rw [blockCommentLength, Option.map_eq_some_iff] at h
    obtain ⟨m, -, rfl⟩ := h
    exact Nat.le_add_left 2 m
  | case4 d c cs hopen hclose ih =>
    rw [blockCommentLength.eq_4 _ _ _ hopen hclose, Option.map_eq_some_iff] at h
    obtain ⟨m, hm, rfl⟩ := h
    exact Nat.le_succ_of_le (ih rfl hm)
  | case5 d => cases h

/-- A block comment ends at its end, whatever stands behind it. -/
theorem blockCommentLength_append {depth n : Nat} {cs : List Char}
    (h : blockCommentLength depth cs = some n) (rest' : List Char) :
    blockCommentLength depth (cs.take n ++ rest') = some n := by
  induction depth, cs using blockCommentLength.induct generalizing n with
  | case1 cs =>
    rw [blockCommentLength] at h
    cases h
    rw [blockCommentLength]
  | case2 d cs ih =>
    rw [blockCommentLength, Option.map_eq_some_iff] at h
    obtain ⟨m, hm, rfl⟩ := h
    rw [List.take_succ_cons, List.take_succ_cons, List.cons_append, List.cons_append,
      blockCommentLength, ih hm]
    rfl
  | case3 d cs ih =>
    rw [blockCommentLength, Option.map_eq_some_iff] at h
    obtain ⟨m, hm, rfl⟩ := h
    rw [List.take_succ_cons, List.take_succ_cons, List.cons_append, List.cons_append,
      blockCommentLength, ih hm]
    rfl
  | case4 d c cs hopen hclose ih =>
    rw [blockCommentLength.eq_4 _ _ _ hopen hclose, Option.map_eq_some_iff] at h
    obtain ⟨m, hm, rfl⟩ := h
    obtain ⟨m, rfl⟩ := Nat.exists_eq_add_of_le' (two_le_blockCommentLength hm)
    -- the character behind this one is the same
    have hhead : ∀ {e : Char} {tail : List Char}, cs.take (m + 2) ++ rest' = e :: tail →
        ∃ tail', cs = e :: tail' := by
      intro e tail heq
      cases cs with
      | nil => cases hm
      | cons d' cs =>
        rw [List.take_succ_cons, List.cons_append] at heq
        exact ⟨cs, by rw [(List.cons.inj heq).1]⟩
    rw [List.take_succ_cons, List.cons_append, blockCommentLength.eq_4, ih hm]
    · rfl
    · intro tail hc heq
      obtain ⟨tail', htail⟩ := hhead heq
      exact hopen tail' hc htail
    · intro tail hc heq
      obtain ⟨tail', htail⟩ := hhead heq
      exact hclose tail' hc htail
  | case5 d => cases h

theorem lineCommentKind_eq (cs : List Char) : lineCommentKind ('/' :: '/' :: cs) =
    if cs.head? = some '/' ∧ cs.tail.head? ≠ some '/' then .docLineComment else .lineComment := by
  unfold lineCommentKind
  split
  · next heq =>
    cases heq
    simp
  · next hne heq =>
    cases heq
    rw [if_pos]
    refine ⟨rfl, fun hhead => ?_⟩
    obtain ⟨tail, htail⟩ := List.head?_eq_some_iff.mp hhead
    exact hne tail htail
  · next hne hdoc =>
    rw [if_neg]
    rintro ⟨hhead, -⟩
    obtain ⟨tail, rfl⟩ := List.head?_eq_some_iff.mp hhead
    exact hdoc tail rfl

theorem blockCommentKind_eq (cs : List Char) : blockCommentKind ('/' :: '*' :: cs) =
    if cs.head? = some '*' ∧ cs.tail.head? ≠ some '/' then .docBlockComment else .blockComment := by
  unfold blockCommentKind
  split
  · next heq =>
    cases heq
    simp
  · next hne heq =>
    cases heq
    rw [if_pos]
    refine ⟨rfl, fun hhead => ?_⟩
    obtain ⟨tail, htail⟩ := List.head?_eq_some_iff.mp hhead
    exact hne tail htail
  · next hne hdoc =>
    rw [if_neg]
    rintro ⟨hhead, -⟩
    obtain ⟨tail, rfl⟩ := List.head?_eq_some_iff.mp hhead
    exact hdoc tail rfl

/-- A line comment ends at the end of the line, and its kind is told by its own characters. -/
theorem lineComment_congr (h : rest.head? = rest'.head?) (hlength : lineLength (w ++ rest) = w.length) :
    lineLength (w ++ rest') = w.length ∧
      lineCommentKind ('/' :: '/' :: (w ++ rest')) = lineCommentKind ('/' :: '/' :: (w ++ rest)) := by
  unfold lineLength at hlength ⊢
  rw [length_takeWhile_append_iff] at hlength ⊢
  rw [← h]
  refine ⟨hlength, ?_⟩
  rw [lineCommentKind_eq, lineCommentKind_eq]
  match w with
  | [] =>
    have hslash : rest.head? ≠ some '/' := fun hhead => by
      rw [hhead] at hlength
      exact absurd hlength.2 (by decide)
    rw [List.nil_append, List.nil_append, ← h]
    simp [hslash]
  | [c] => rw [List.singleton_append, List.singleton_append, List.tail_cons, List.tail_cons, h]; rfl
  | c :: d :: w => rfl

theorem blockComment_congr (hlength : blockCommentLength 1 (w ++ rest) = some w.length) :
    blockCommentLength 1 (w ++ rest') = some w.length ∧
      blockCommentKind ('/' :: '*' :: (w ++ rest')) = blockCommentKind ('/' :: '*' :: (w ++ rest)) := by
  have htwo := two_le_blockCommentLength hlength
  have hend := blockCommentLength_append hlength rest'
  rw [List.take_left] at hend
  refine ⟨hend, ?_⟩
  rw [blockCommentKind_eq, blockCommentKind_eq]
  match w, htwo with
  | c :: d :: w, _ => rfl

/-- **One piece**: a piece of trivia is cut off the same in front of the same next character. -/
theorem triviaPiece?_congr {c : Char} (h : rest.head? = rest'.head?)
    (hpiece : triviaPiece? trailing (c :: (w ++ rest)) = .ok (some (k, w.length + 1))) :
    triviaPiece? trailing (c :: (w ++ rest')) = .ok (some (k, w.length + 1)) := by
  -- all that is looked at beyond the piece is the character behind it
  have hnext : ∀ d : Char, (w ++ rest).head? = some d ↔ (w ++ rest').head? = some d := by
    intro d
    cases w with
    | nil => rw [List.nil_append, List.nil_append, h]
    | cons e w => exact Iff.rfl
  rw [triviaPiece?_cons] at hpiece ⊢
  simp only [← hnext]
  by_cases hlf : c = '\n'
  · rwa [if_pos hlf] at hpiece ⊢
  rw [if_neg hlf] at hpiece ⊢
  by_cases hcr : c = '\r'
  · rwa [if_pos hcr] at hpiece ⊢
  rw [if_neg hcr] at hpiece ⊢
  by_cases hline : c = '/' ∧ (w ++ rest).head? = some '/'
  · rw [if_pos hline] at hpiece ⊢
    obtain ⟨rfl, hlength⟩ := Prod.mk.inj (Option.some.inj (Except.ok.inj hpiece))
    obtain ⟨rfl, hslash⟩ := hline
    cases w with
    | nil => cases hlength
    | cons d v =>
      obtain rfl : d = '/' := Option.some.inj hslash
      obtain ⟨hlength', hkind⟩ := lineComment_congr h (w := v) (Nat.add_right_cancel hlength)
      rw [List.cons_append, List.cons_append, List.tail_cons, hlength', hkind]
      rfl
  rw [if_neg hline] at hpiece ⊢
  by_cases hblock : c = '/' ∧ (w ++ rest).head? = some '*'
  · rw [if_pos hblock] at hpiece ⊢
    split at hpiece
    · next n hn =>
      obtain ⟨rfl, hlength⟩ := Prod.mk.inj (Option.some.inj (Except.ok.inj hpiece))
      obtain ⟨rfl, hstar⟩ := hblock
      cases w with
      | nil => cases hlength
      | cons d v =>
        obtain rfl : d = '*' := Option.some.inj hstar
        obtain rfl : n = v.length := Nat.add_right_cancel hlength
        obtain ⟨hlength', hkind⟩ := blockComment_congr (w := v) hn
        rw [List.cons_append, List.cons_append, List.tail_cons, hlength', hkind]
        rfl
    · cases hpiece
  rw [if_neg hblock] at hpiece ⊢
  split_ifs at hpiece ⊢ with hblank
  · obtain ⟨rfl, hlength⟩ := Prod.mk.inj (Option.some.inj (Except.ok.inj hpiece))
    have hlength := Nat.succ.inj hlength
    rw [length_takeWhile_append_iff, h, ← length_takeWhile_append_iff] at hlength
    rw [hlength]
  · cases hpiece

/-- Where no piece is cut off: at the end of a line behind a token, and where neither a blank nor a
comment nor, otherwise, a line end is. -/
theorem triviaPiece?_eq_none_iff {c : Char} {cs : List Char} :
    triviaPiece? trailing (c :: cs) = .ok none ↔
      if isLineEnd c then trailing = true
      else isHorizontal c = false ∧ startsComment (c :: cs) = false := by
  rw [triviaPiece?_cons, startsComment_cons]
  by_cases hlf : c = '\n'
  · rw [if_pos hlf, hlf]
    cases trailing <;> simp [isLineEnd]
  rw [if_neg hlf]
  by_cases hcr : c = '\r'
  · rw [if_pos hcr, hcr]
    cases trailing <;> simp [isLineEnd]
  rw [if_neg hcr, if_neg (show ¬ isLineEnd c = true by simp [isLineEnd, hlf, hcr])]
  by_cases hslash : c = '/'
  · subst hslash
    cases hhead : cs.head? with
    | none => simp [isHorizontal]
    | some d =>
      by_cases hline : d = '/'
      · simp [hline]
      · by_cases hblock : d = '*'
        · simp [hblock]
          split <;> simp
        · simp [hline, hblock, isHorizontal]
  · cases hblank : isHorizontal c <;> simp [hslash]

/-- Texts that start alike start with trivia both or neither. -/
theorem triviaPiece?_none_congr (h : StartsAlike rest rest')
    (hnone : triviaPiece? trailing rest = .ok none) : triviaPiece? trailing rest' = .ok none := by
  have hhead := h.head?_eq
  have hcomment := h.startsComment_eq
  cases rest with
  | nil =>
    rw [List.head?_eq_none_iff.mp hhead.symm]
    exact hnone
  | cons c cs =>
    obtain ⟨cs', rfl⟩ := List.head?_eq_some_iff.mp hhead.symm
    rw [triviaPiece?_eq_none_iff] at hnone ⊢
    rwa [← hcomment]

/-! ### Runs of pieces -/

/-- The pieces are what is cut off, one by one, in front of the rest. -/
inductive CutsOff (trailing : Bool) (rest : List Char) : Trivia → Prop where
  | done (hrest : triviaPiece? trailing rest = .ok none) : CutsOff trailing rest []
  | piece {p : TriviaPiece} {t : Trivia}
      (hpiece : triviaPiece? trailing (p.text.toList ++ ((Trivia.text t).toList ++ rest)) =
        .ok (some (p.kind, p.text.toList.length)))
      (ht : CutsOff trailing rest t) : CutsOff trailing rest (p :: t)

/-- What the lexer finds is cut off one by one. -/
theorem cutsOff_of_trivia {fuel pos : Nat} {cs : List Char} {t : Trivia} (hfuel : cs.length ≤ fuel)
    (h : trivia trailing fuel pos cs = .ok (t, rest)) : CutsOff trailing rest t := by
  induction fuel generalizing pos cs t with
  | zero =>
    obtain rfl := List.length_eq_zero_iff.mp (Nat.le_zero.mp hfuel)
    cases h
    exact .done rfl
  | succ fuel ih =>
    rw [trivia] at h
    split at h
    · cases h
    · next hnone =>
      cases h
      exact .done hnone
    · next kind n hpiece =>
      split at h
      · cases h
      · next t' rest' hrest =>
        cases h
        have hpos := (triviaPiece?_pos hpiece).1
        have hle := triviaPiece?_le hpiece
        have hspell := toList_trivia _ _ _ _ hrest
        refine .piece ?_ (ih ?_ hrest)
        · rw [hspell, toList_front, List.take_append_drop, List.length_take_of_le hle]
          exact hpiece
        · rw [List.length_drop]
          omega

/-- **Trivia is cut off**: the lexer finds the pieces that are cut off one by one. -/
theorem CutsOff.trivia_eq {t : Trivia} (h : CutsOff trailing rest t) {fuel : Nat} (pos : Nat)
    (hfuel : ((Trivia.text t).toList ++ rest).length ≤ fuel) :
    trivia trailing fuel pos ((Trivia.text t).toList ++ rest) = .ok (t, rest) := by
  induction h generalizing fuel pos with
  | done hrest =>
    cases fuel with
    | zero => rfl
    | succ fuel =>
      rw [Trivia.toList_text_nil, List.nil_append, trivia, hrest]
  | @piece p t hpiece ht ih =>
    have hpos := (triviaPiece?_pos hpiece).1
    rw [Trivia.toList_text_cons, List.append_assoc] at hfuel ⊢
    rw [List.length_append] at hfuel
    obtain ⟨fuel, rfl⟩ := Nat.exists_eq_succ_of_ne_zero (n := fuel) (by omega)
    rw [trivia, hpiece]
    dsimp only
    rw [List.drop_left, ih _ (by omega)]
    dsimp only
    rw [front, List.take_left, String.ofList_toList]

namespace CutsOff

variable {t : Trivia}

/-- Behind the last piece there is none. -/
theorem triviaPiece?_rest (h : CutsOff trailing rest t) : triviaPiece? trailing rest = .ok none := by
  induction h with
  | done hrest => exact hrest
  | piece _ _ ih => exact ih

/-- The same trivia is cut off in front of a text that starts alike. -/
theorem congr (h : CutsOff trailing rest t) (halike : StartsAlike rest rest') :
    CutsOff trailing rest' t := by
  induction h with
  | done hrest => exact .done (triviaPiece?_none_congr halike hrest)
  | @piece p t hpiece ht ih =>
    refine .piece ?_ ih
    have hhead := (halike.append_left (Trivia.text t).toList).head?_eq
    have hpos := (triviaPiece?_pos hpiece).1
    cases hp : p.text.toList with
    | nil =>
      rw [hp] at hpos
      cases hpos
    | cons c w =>
      rw [hp] at hpiece
      exact triviaPiece?_congr hhead hpiece

end CutsOff

end Lexer

end SwiftTidy
