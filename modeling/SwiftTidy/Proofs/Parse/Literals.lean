import Mathlib.Tactic.SplitIfs
import SwiftTidy.Parse.Lexer

/-!
# The parts of string literals

A string literal is told by its parts: characters that stand for themselves, escapes, and interpolations
with balanced parentheses and literals of their own.  `IsLiteral` and `IsInterpolation` say which parts a
literal has, without fuel and without the text behind it.

The scan finds the parts of the literal in front (`exists_isLiteral`, by induction on the fuel), and
scanning the text of the parts finds its end, whatever stands behind it (`IsLiteral.literalEnd_eq`, by
induction on the parts).  So a scan does not depend on what it has not taken.
-/

namespace SwiftTidy

namespace Lexer

/-- A part of a string literal between its delimiters. -/
inductive LiteralPart where
  | char (c : Char)
  /-- An escape mark with the character behind it. -/
  | escape (c : Char)
  /-- An escape mark with the interpolation behind it, parentheses included. -/
  | interpolation (text : List Char)

/-- The text of a part. -/
def LiteralPart.text (d : Delimiter) : LiteralPart → List Char
  | char c => [c]
  | escape c => d.escape ++ [c]
  | interpolation x => d.escape ++ x

/-- The text of the parts of a literal, and what ends it. -/
def literalTail (d : Delimiter) (ps : List LiteralPart) : List Char :=
  ps.flatMap (·.text d) ++ d.closing

mutual
/-- The parts of a literal, in front of what ends it.  A character stands for itself where neither the end
of the literal nor an escape starts, and within a line where the line does not end. -/
inductive IsLiteral : Delimiter → List LiteralPart → Prop
  | nil {d : Delimiter} : IsLiteral d []
  | char {d : Delimiter} {c : Char} {ps : List LiteralPart}
      (hclose : d.closing.isPrefixOf (c :: literalTail d ps) = false)
      (hescape : d.escape.isPrefixOf (c :: literalTail d ps) = false)
      (hline : d.multiline = true ∨ isLineEnd c = false) (hps : IsLiteral d ps) :
      IsLiteral d (.char c :: ps)
  | escape {d : Delimiter} {c : Char} {ps : List LiteralPart} (hc : c ≠ '(') (hps : IsLiteral d ps) :
      IsLiteral d (.escape c :: ps)
  | interpolation {d : Delimiter} {x : List Char} {ps : List LiteralPart}
      (hx : IsInterpolation 0 ('(' :: x)) (hps : IsLiteral d ps) :
      IsLiteral d (.interpolation ('(' :: x) :: ps)
/-- The text from inside an interpolation with `depth` open parentheses to its end. -/
inductive IsInterpolation : Nat → List Char → Prop
  | last {depth : Nat} (h : depth ≤ 1) : IsInterpolation depth [')']
  | opened {depth : Nat} {x : List Char} (hx : IsInterpolation (depth + 1) x) :
      IsInterpolation depth ('(' :: x)
  | closed {depth : Nat} {x : List Char} (hx : IsInterpolation (depth + 1) x) :
      IsInterpolation (depth + 2) (')' :: x)
  | literal {d : Delimiter} {ps : List LiteralPart} {depth : Nat} {x : List Char}
      (hd : openingDelimiter d.hashes (d.quotes ++ (literalTail d ps ++ x)) = d)
      (hps : IsLiteral d ps) (hx : IsInterpolation depth x) :
      IsInterpolation depth
        (List.replicate d.hashes '#' ++ (d.quotes ++ (literalTail d ps ++ x)))
  | char {c : Char} {depth : Nat} {x : List Char} (hopen : c ≠ '(') (hclose : c ≠ ')')
      (hquote : rawHashes? (c :: x) = none) (hx : IsInterpolation depth x) :
      IsInterpolation depth (c :: x)
end

variable {x rest rest' : List Char} {d : Delimiter}

/-! ### Marks in front of a quote -/

theorem isPrefixOf_append_eq : ∀ {a x : List Char} (rest : List Char), a.length ≤ x.length →
    a.isPrefixOf (x ++ rest) = a.isPrefixOf x
  | [], x, rest, _ => by simp [List.isPrefixOf]
  | c :: a, [], rest, h => absurd h (Nat.not_succ_le_zero _)
  | c :: a, d :: x, rest, h => by
    rw [List.cons_append, List.isPrefixOf_cons_cons, List.isPrefixOf_cons_cons,
      isPrefixOf_append_eq rest (Nat.le_of_succ_le_succ h)]

theorem eq_append_of_isPrefixOf {a cs : List Char} (h : a.isPrefixOf cs = true) :
    cs = a ++ cs.drop a.length :=
  (List.prefix_iff_eq_append.mp (List.isPrefixOf_iff_prefix.mp h)).symm

theorem isPrefixOf_append (a cs : List Char) : a.isPrefixOf (a ++ cs) = true :=
  List.isPrefixOf_iff_prefix.mpr (List.prefix_append a cs)

theorem rawHashes?_hash (cs : List Char) : rawHashes? ('#' :: cs) = (rawHashes? cs).map (· + 1) := by
  unfold rawHashes?
  rw [List.takeWhile_cons_of_pos (by rfl)]
  dsimp only
  rw [List.length_cons, List.drop_succ_cons]
  split_ifs <;> rfl

theorem rawHashes?_cons {c : Char} (hc : c ≠ '#') (cs : List Char) :
    rawHashes? (c :: cs) = if c = '"' then some 0 else none := by
  unfold rawHashes?
  rw [List.takeWhile_cons_of_neg (by simpa using hc)]
  simp

/-- The marks in front of a quote are seen in front of any other character. -/
theorem rawHashes?_congr {c : Char} (hc : c ≠ '#') (rest' : List Char) :
    rawHashes? (x ++ c :: rest') = rawHashes? (x ++ c :: rest) := by
  induction x with
  | nil => rw [List.nil_append, List.nil_append, rawHashes?_cons hc, rawHashes?_cons hc]
  | cons d x ih =>
    rw [List.cons_append, List.cons_append]
    by_cases hd : d = '#'
    · rw [hd, rawHashes?_hash, rawHashes?_hash, ih]
    · rw [rawHashes?_cons hd, rawHashes?_cons hd]

theorem rawHashes?_eq_some_iff {cs : List Char} {hashes : Nat} :
    rawHashes? cs = some hashes ↔ ∃ tail, cs = List.replicate hashes '#' ++ '"' :: tail := by
  constructor
  · intro h
    induction cs generalizing hashes with
    | nil => cases h
    | cons c cs ih =>
      by_cases hc : c = '#'
      · rw [hc, rawHashes?_hash, Option.map_eq_some_iff] at h
        obtain ⟨m, hm, rfl⟩ := h
        obtain ⟨tail, rfl⟩ := ih hm
        exact ⟨tail, by rw [hc, List.replicate_succ, List.cons_append]⟩
      · rw [rawHashes?_cons hc] at h
        split_ifs at h with hquote
        cases h
        exact ⟨cs, by rw [hquote]; rfl⟩
  · rintro ⟨tail, rfl⟩
    induction hashes with
    | zero => rw [List.replicate_zero, List.nil_append, rawHashes?_cons (by decide), if_pos rfl]
    | succ m ih =>
      rw [List.replicate_succ, List.cons_append, rawHashes?_hash, ih]
      rfl

/-! ### Delimiters -/

namespace Delimiter

theorem quotes_eq (d : Delimiter) : ∃ tail, d.quotes = '"' :: tail := by
  rw [quotes]
  split_ifs
  · exact ⟨_, rfl⟩
  · exact ⟨_, rfl⟩

theorem quotes_length_pos (d : Delimiter) : 0 < d.quotes.length := by
  obtain ⟨tail, htail⟩ := d.quotes_eq
  rw [htail]
  exact Nat.succ_pos _

/-- What ends a literal starts with a quote. -/
theorem closing_eq (d : Delimiter) : ∃ tail, d.closing = '"' :: tail := by
  obtain ⟨tail, htail⟩ := d.quotes_eq
  exact ⟨_, by rw [closing, htail, List.cons_append]⟩

theorem escape_length_le (d : Delimiter) : d.escape.length ≤ d.closing.length := by
  have hquotes := d.quotes_length_pos
  rw [escape, closing, List.length_cons, List.length_append]
  omega

/-- No escape ends a literal. -/
theorem closing_isPrefixOf_escape (d : Delimiter) (cs : List Char) :
    d.closing.isPrefixOf (d.escape ++ cs) = false := by
  obtain ⟨tail, htail⟩ := d.closing_eq
  rw [htail, escape, List.cons_append, List.isPrefixOf_cons_cons]
  rfl

/-- The marks that open a literal. -/
theorem rawHashes?_opening (d : Delimiter) (cs : List Char) :
    rawHashes? (List.replicate d.hashes '#' ++ (d.quotes ++ cs)) = some d.hashes := by
  obtain ⟨tail, htail⟩ := d.quotes_eq
  exact rawHashes?_eq_some_iff.mpr ⟨tail ++ cs, by rw [htail, List.cons_append]⟩

theorem drop_hashes (d : Delimiter) (cs : List Char) :
    (List.replicate d.hashes '#' ++ cs).drop d.hashes = cs :=
  List.drop_left' (List.length_replicate ..)

theorem drop_opening (d : Delimiter) (cs : List Char) :
    (List.replicate d.hashes '#' ++ (d.quotes ++ cs)).drop (d.hashes + d.quotes.length) = cs := by
  rw [← List.drop_drop, drop_hashes, List.drop_left]

end Delimiter

/-- Whether a literal has three quotes is seen from three characters. -/
theorem openingDelimiter_append {hashes : Nat} (h : 3 ≤ x.length) (rest : List Char) :
    openingDelimiter hashes (x ++ rest) = openingDelimiter hashes x :=
  congrArg (Delimiter.mk hashes) (isPrefixOf_append_eq rest h)

/-- The quotes that open a literal are there, behind its marks. -/
theorem eq_opening_append {hashes : Nat} {cs : List Char} (h : rawHashes? cs = some hashes)
    (hd : openingDelimiter hashes (cs.drop hashes) = d) :
    cs = List.replicate d.hashes '#' ++ (d.quotes ++ cs.drop (hashes + d.quotes.length)) := by
  obtain ⟨tail, rfl⟩ := rawHashes?_eq_some_iff.mp h
  rw [List.drop_left' (List.length_replicate ..)] at hd
  have hhashes : d.hashes = hashes := by rw [← hd]; rfl
  have hquotes : d.quotes.isPrefixOf ('"' :: tail) = true := by
    rw [← hd, openingDelimiter, Delimiter.quotes]
    split_ifs with hthree
    · exact hthree
    · simp [List.isPrefixOf]
  rw [← List.drop_drop, List.drop_left' (List.length_replicate ..), hhashes,
    ← eq_append_of_isPrefixOf hquotes]

/-! ### The text of the parts -/

theorem literalTail_nil (d : Delimiter) : literalTail d [] = d.closing := rfl

theorem literalTail_cons (d : Delimiter) (p : LiteralPart) (ps : List LiteralPart) :
    literalTail d (p :: ps) = p.text d ++ literalTail d ps := by
  rw [literalTail, List.flatMap_cons, List.append_assoc, ← literalTail]

theorem literalTail_char (d : Delimiter) (c : Char) (ps : List LiteralPart) :
    literalTail d (.char c :: ps) = c :: literalTail d ps := literalTail_cons d (.char c) ps

theorem literalTail_escape (d : Delimiter) (c : Char) (ps : List LiteralPart) :
    literalTail d (.escape c :: ps) = d.escape ++ c :: literalTail d ps := by
  rw [literalTail_cons, LiteralPart.text, ← List.append_cons]

theorem literalTail_interpolation (d : Delimiter) (x : List Char) (ps : List LiteralPart) :
    literalTail d (.interpolation x :: ps) = d.escape ++ (x ++ literalTail d ps) := by
  rw [literalTail_cons, LiteralPart.text, List.append_assoc]

theorem closing_length_le (d : Delimiter) (ps : List LiteralPart) :
    d.closing.length ≤ (literalTail d ps).length := by
  rw [literalTail, List.length_append]
  exact Nat.le_add_left _ _

theorem literalTail_length_pos (d : Delimiter) (ps : List LiteralPart) :
    0 < (literalTail d ps).length := by
  obtain ⟨tail, htail⟩ := d.closing_eq
  refine Nat.lt_of_lt_of_le ?_ (closing_length_le d ps)
  rw [htail]
  exact Nat.succ_pos _

/-- An interpolation ends with a parenthesis. -/
theorem IsInterpolation.exists_append {depth : Nat} {x : List Char} :
    IsInterpolation depth x → ∃ y, x = y ++ [')']
  | .last _ => ⟨[], rfl⟩
  | .opened hx => by
    obtain ⟨y, rfl⟩ := hx.exists_append
    exact ⟨'(' :: y, rfl⟩
  | .closed hx => by
    obtain ⟨y, rfl⟩ := hx.exists_append
    exact ⟨')' :: y, rfl⟩
  | @IsInterpolation.literal d ps _ _ _ _ hx => by
    obtain ⟨y, rfl⟩ := hx.exists_append
    exact ⟨List.replicate d.hashes '#' ++ (d.quotes ++ (literalTail d ps ++ y)), by
      simp only [List.append_assoc]⟩
  | .char (c := c) _ _ _ hx => by
    obtain ⟨y, rfl⟩ := hx.exists_append
    exact ⟨c :: y, rfl⟩

theorem IsInterpolation.length_pos {depth : Nat} (h : IsInterpolation depth x) : 0 < x.length := by
  obtain ⟨y, rfl⟩ := h.exists_append
  rw [List.length_append]
  exact Nat.succ_pos _

/-- The text of a literal in an interpolation has a character of its own in front of two quotes. -/
theorem three_le_length (d : Delimiter) (ps : List LiteralPart) (hx : 0 < x.length) :
    3 ≤ (d.quotes ++ (literalTail d ps ++ x)).length := by
  have hquotes := d.quotes_length_pos
  have htail := literalTail_length_pos d ps
  rw [List.length_append, List.length_append]
  omega

/-- Marks inside an interpolation stand in front of a quote inside it. -/
theorem IsInterpolation.rawHashes?_append {depth : Nat} {c : Char} (hx : IsInterpolation depth x)
    (rest : List Char) :
    rawHashes? (c :: x ++ rest) = rawHashes? (c :: x) := by
  obtain ⟨y, rfl⟩ := hx.exists_append
  rw [← List.cons_append, List.append_assoc, List.singleton_append]
  exact rawHashes?_congr (by decide) rest

/-! ### What the scan finds -/

mutual
/-- The scan of a literal finds its parts. -/
theorem exists_isLiteral {start : Nat} {d : Delimiter} : ∀ {fuel i : Nat} {cs : List Char} {k : Nat}
    {rest : List Char}, literalEnd start d fuel i cs = .ok (k, rest) →
    ∃ ps, IsLiteral d ps ∧ cs = literalTail d ps ++ rest ∧ k = i + (literalTail d ps).length
  | 0, i, cs, k, rest, h => by
    rw [literalEnd] at h
    cases h
  | fuel + 1, i, [], k, rest, h => by
    rw [literalEnd] at h
    cases h
  | fuel + 1, i, c :: cs, k, rest, h => by
    rw [literalEnd] at h
    split_ifs at h with hclose hescape hline
    · cases h
      exact ⟨[], .nil, eq_append_of_isPrefixOf hclose, rfl⟩
    · -- an escape: an interpolation behind a parenthesis, or the character that is escaped
      dsimp only at h
      have hsplit := eq_append_of_isPrefixOf hescape
      split at h
      · cases h
      · next inner hdrop =>
        split at h
        · cases h
        · next k' rest₁ hinner =>
          obtain ⟨x, hx, heq, rfl⟩ := exists_isInterpolation hinner
          obtain ⟨ps, hps, rfl, rfl⟩ := exists_isLiteral h
          obtain ⟨y, rfl⟩ : ∃ y, x = '(' :: y := by
            obtain ⟨b, y, rfl⟩ := List.exists_cons_of_length_pos hx.length_pos
            exact ⟨y, by rw [(List.cons.inj heq).1]⟩
          refine ⟨.interpolation ('(' :: y) :: ps, .interpolation hx hps, ?_, ?_⟩
          · rw [hsplit, hdrop, heq, literalTail_interpolation, List.append_assoc, List.append_assoc]
          · rw [literalTail_interpolation, List.length_append, List.length_append]
            omega
      · next e inner hne hdrop =>
        obtain ⟨ps, hps, rfl, rfl⟩ := exists_isLiteral h
        refine ⟨.escape e :: ps, .escape hne hps, ?_, ?_⟩
        · rw [hsplit, hdrop, literalTail_escape, List.append_assoc, List.cons_append]
        · rw [literalTail_escape, List.length_append, List.length_cons]
          omega
    · obtain ⟨ps, hps, rfl, rfl⟩ := exists_isLiteral h
      have hlength : d.closing.length ≤ (c :: literalTail d ps).length :=
        Nat.le_succ_of_le (closing_length_le d ps)
      refine ⟨.char c :: ps, .char ?_ ?_ ?_ hps, by rw [literalTail_char, List.cons_append], ?_⟩
      · rwa [Bool.not_eq_true, ← List.cons_append, isPrefixOf_append_eq rest hlength] at hclose
      · rwa [Bool.not_eq_true, ← List.cons_append,
          isPrefixOf_append_eq rest (Nat.le_trans d.escape_length_le hlength)] at hescape
      · cases hmultiline : d.multiline with
        | true => exact .inl rfl
        | false => exact .inr (by simpa [hmultiline] using hline)
      · rw [literalTail_char, List.length_cons]
        omega
termination_by structural fuel => fuel
/-- The scan of an interpolation finds its end. -/
theorem exists_isInterpolation {start : Nat} : ∀ {fuel depth i : Nat} {cs : List Char} {k : Nat}
    {rest : List Char}, interpolationEnd start fuel depth i cs = .ok (k, rest) →
    ∃ x, IsInterpolation depth x ∧ cs = x ++ rest ∧ k = i + x.length
  | 0, depth, i, cs, k, rest, h => by
    rw [interpolationEnd] at h
    cases h
  | fuel + 1, depth, i, [], k, rest, h => by
    rw [interpolationEnd] at h
    cases h
  | fuel + 1, depth, i, c :: cs, k, rest, h => by
    rw [interpolationEnd] at h
    split_ifs at h with hopen hclose hlast
    · obtain ⟨x, hx, rfl, rfl⟩ := exists_isInterpolation h
      obtain rfl : c = '(' := beq_iff_eq.mp hopen
      exact ⟨'(' :: x, .opened hx, rfl, by rw [List.length_cons]; omega⟩
    · cases h
      obtain rfl : c = ')' := beq_iff_eq.mp hclose
      exact ⟨[')'], .last hlast, rfl, rfl⟩
    · obtain ⟨x, hx, rfl, rfl⟩ := exists_isInterpolation h
      obtain rfl : c = ')' := beq_iff_eq.mp hclose
      obtain ⟨m, rfl⟩ := Nat.exists_eq_add_of_le' (Nat.lt_of_not_le hlast)
      exact ⟨')' :: x, .closed hx, rfl, by rw [List.length_cons]; omega⟩
    · -- a literal inside the interpolation, or any other character
      split at h
      · next hashes hhashes =>
        dsimp only at h
        generalize hd : openingDelimiter hashes ((c :: cs).drop hashes) = d at h
        split at h
        · cases h
        · next k' rest₁ hinner =>
          obtain ⟨ps, hps, hdrop, rfl⟩ := exists_isLiteral hinner
          obtain ⟨x, hx, rfl, rfl⟩ := exists_isInterpolation h
          have hopening := eq_opening_append hhashes hd
          have hhashes' : d.hashes = hashes := by rw [← hd]; rfl
          have htext : c :: cs =
              List.replicate d.hashes '#' ++ (d.quotes ++ (literalTail d ps ++ x)) ++ rest := by
            rw [hopening, hdrop]
            simp only [List.append_assoc]
          rw [htext, ← hhashes', List.append_assoc, List.drop_left' (List.length_replicate ..)] at hd
          refine ⟨_, .literal ?_ hps hx, htext, ?_⟩
          · rwa [openingDelimiter_append (three_le_length d ps hx.length_pos)] at hd
          · simp only [List.length_append, List.length_replicate]
            omega
      · next hhashes =>
        obtain ⟨x, hx, rfl, rfl⟩ := exists_isInterpolation h
        refine ⟨c :: x, .char (by simpa using hopen) (by simpa using hclose) ?_ hx, rfl, ?_⟩
        · rw [← List.cons_append] at hhashes
          rwa [hx.rawHashes?_append] at hhashes
        · rw [List.length_cons]
          omega
termination_by structural fuel => fuel
end

/-! ### How the parts are scanned -/

section

variable {start fuel i k : Nat} {cs tail : List Char}

/-- What ends a literal is taken with it. -/
theorem literalEnd_closing (start : Nat) (d : Delimiter) (fuel i : Nat) (rest : List Char) :
    literalEnd start d (fuel + 1) i (d.closing ++ rest) = .ok (i + d.closing.length, rest) := by
  obtain ⟨tail, htail⟩ := d.closing_eq
  have hself := isPrefixOf_append d.closing rest
  have hdrop : (d.closing ++ rest).drop d.closing.length = rest := List.drop_left
  rw [show d.closing ++ rest = '"' :: (tail ++ rest) by rw [htail]; rfl] at hself hdrop ⊢
  rw [literalEnd, if_pos hself, hdrop]

/-- An interpolation is stepped over whole. -/
theorem literalEnd_interpolation
    (hinner : interpolationEnd start fuel 0 (i + d.escape.length) ('(' :: tail) = .ok (k, rest)) :
    literalEnd start d (fuel + 1) i (d.escape ++ '(' :: tail) = literalEnd start d fuel k rest := by
  have hclose := d.closing_isPrefixOf_escape ('(' :: tail)
  have hself := isPrefixOf_append d.escape ('(' :: tail)
  have hdrop : (d.escape ++ '(' :: tail).drop d.escape.length = '(' :: tail := List.drop_left
  generalize d.escape ++ '(' :: tail = cs at hclose hself hdrop ⊢
  cases cs with
  | nil => simp at hdrop
  | cons c cs =>
    rw [literalEnd, hclose, if_neg Bool.false_ne_true, if_pos hself]
    simp only [hdrop, hinner]

/-- Another escape takes one more character. -/
theorem literalEnd_escape (start : Nat) (d : Delimiter) (fuel i : Nat) {c : Char} (hc : c ≠ '(')
    (cs : List Char) :
    literalEnd start d (fuel + 1) i (d.escape ++ c :: cs) =
      literalEnd start d fuel (i + d.escape.length + 1) cs := by
  have hclose := d.closing_isPrefixOf_escape (c :: cs)
  have hself := isPrefixOf_append d.escape (c :: cs)
  have hdrop : (d.escape ++ c :: cs).drop d.escape.length = c :: cs := List.drop_left
  generalize d.escape ++ c :: cs = ds at hclose hself hdrop ⊢
  cases ds with
  | nil => simp at hdrop
  | cons b ds =>
    rw [literalEnd, hclose, if_neg Bool.false_ne_true, if_pos hself]
    dsimp only
    rw [hdrop]
    split
    · next heq => cases heq
    · next heq =>
      cases heq
      exact absurd rfl hc
    · next heq =>
      cases heq
      rfl

/-- A literal inside an interpolation is stepped over whole. -/
theorem interpolationEnd_literal {depth hashes : Nat} (hhashes : rawHashes? cs = some hashes)
    (hd : openingDelimiter hashes (cs.drop hashes) = d)
    (hinner : literalEnd i d fuel (i + (hashes + d.quotes.length)) (cs.drop (hashes + d.quotes.length)) =
      .ok (k, rest)) :
    interpolationEnd start (fuel + 1) depth i cs = interpolationEnd start fuel depth k rest := by
  cases cs with
  | nil => cases hhashes
  | cons c cs =>
    have hmark : c = '#' ∨ c = '"' := by
      by_cases hc : c = '#'
      · exact .inl hc
      · rw [rawHashes?_cons hc] at hhashes
        split_ifs at hhashes with hquote
        exact .inr hquote
    have hopen : ¬ (c == '(') = true := by rcases hmark with rfl | rfl <;> decide
    have hclose : ¬ (c == ')') = true := by rcases hmark with rfl | rfl <;> decide
    subst hd
    rw [interpolationEnd, if_neg hopen, if_neg hclose, hhashes]
    dsimp only
    rw [hinner]

end

mutual
/-- The scan of the text of the parts of a literal ends behind it, whatever stands there. -/
theorem IsLiteral.literalEnd_eq {start : Nat} {d : Delimiter} : ∀ {ps : List LiteralPart},
    IsLiteral d ps → ∀ {fuel i : Nat} (rest : List Char), (literalTail d ps).length < fuel →
    literalEnd start d fuel i (literalTail d ps ++ rest) = .ok (i + (literalTail d ps).length, rest)
  | _, .nil, fuel, i, rest, hfuel => by
    obtain ⟨f, rfl⟩ := Nat.exists_eq_succ_of_ne_zero (Nat.ne_zero_of_lt hfuel)
    exact literalEnd_closing start d f i rest
  | _, @IsLiteral.char _ c ps hclose hescape hline hps, fuel, i, rest, hfuel => by
    obtain ⟨f, rfl⟩ := Nat.exists_eq_succ_of_ne_zero (Nat.ne_zero_of_lt hfuel)
    rw [literalTail_char] at hfuel ⊢
    have hlength : d.closing.length ≤ (c :: literalTail d ps).length :=
      Nat.le_succ_of_le (closing_length_le d ps)
    rw [← isPrefixOf_append_eq rest hlength] at hclose
    rw [← isPrefixOf_append_eq rest (Nat.le_trans d.escape_length_le hlength)] at hescape
    rw [List.cons_append] at hclose hescape ⊢
    have hstop : ¬ (!d.multiline && isLineEnd c) = true := by
      rcases hline with hline | hline <;> simp [hline]
    rw [literalEnd, hclose, hescape, if_neg Bool.false_ne_true, if_neg Bool.false_ne_true, if_neg hstop,
      hps.literalEnd_eq rest (Nat.lt_of_succ_lt_succ hfuel), List.length_cons, Nat.add_right_comm,
      Nat.add_assoc]
  | _, @IsLiteral.escape _ c ps hc hps, fuel, i, rest, hfuel => by
    obtain ⟨f, rfl⟩ := Nat.exists_eq_succ_of_ne_zero (Nat.ne_zero_of_lt hfuel)
    rw [literalTail_escape, List.length_append, List.length_cons] at hfuel ⊢
    rw [List.append_assoc, List.cons_append, literalEnd_escape start d f i hc,
      hps.literalEnd_eq rest (by omega)]
    exact congrArg (fun k => Except.ok (k, rest)) (by omega)
  | _, @IsLiteral.interpolation _ x ps hx hps, fuel, i, rest, hfuel => by
    obtain ⟨f, rfl⟩ := Nat.exists_eq_succ_of_ne_zero (Nat.ne_zero_of_lt hfuel)
    rw [literalTail_interpolation, List.length_append, List.length_append] at hfuel ⊢
    have hescape : 0 < d.escape.length := Nat.succ_pos _
    have hinner : interpolationEnd start f 0 (i + d.escape.length)
        ('(' :: (x ++ (literalTail d ps ++ rest))) =
        .ok (i + d.escape.length + ('(' :: x).length, literalTail d ps ++ rest) :=
      hx.interpolationEnd_eq (literalTail d ps ++ rest) (by omega)
    rw [List.append_assoc, List.append_assoc, List.cons_append, literalEnd_interpolation hinner,
      hps.literalEnd_eq rest (by omega)]
    exact congrArg (fun k => Except.ok (k, rest)) (by omega)
/-- The scan of an interpolation ends behind it, whatever stands there. -/
theorem IsInterpolation.interpolationEnd_eq {start : Nat} : ∀ {depth : Nat} {x : List Char},
    IsInterpolation depth x → ∀ {fuel i : Nat} (rest : List Char), x.length < fuel →
    interpolationEnd start fuel depth i (x ++ rest) = .ok (i + x.length, rest)
  | _, _, .last hdepth, fuel, i, rest, hfuel => by
    obtain ⟨f, rfl⟩ := Nat.exists_eq_succ_of_ne_zero (Nat.ne_zero_of_lt hfuel)
    rw [List.singleton_append, interpolationEnd, if_neg (by decide), if_pos (by decide), if_pos hdepth]
    rfl
  | _, _, .opened hx, fuel, i, rest, hfuel => by
    obtain ⟨f, rfl⟩ := Nat.exists_eq_succ_of_ne_zero (Nat.ne_zero_of_lt hfuel)
    rw [List.cons_append, interpolationEnd, if_pos (by decide),
      hx.interpolationEnd_eq rest (Nat.lt_of_succ_lt_succ hfuel), List.length_cons, Nat.add_right_comm,
      Nat.add_assoc]
  | _, _, .closed hx, fuel, i, rest, hfuel => by
    obtain ⟨f, rfl⟩ := Nat.exists_eq_succ_of_ne_zero (Nat.ne_zero_of_lt hfuel)
    rw [List.cons_append, interpolationEnd, if_neg (by decide), if_pos (by decide), if_neg (by omega),
      Nat.add_succ_sub_one, hx.interpolationEnd_eq rest (Nat.lt_of_succ_lt_succ hfuel),
      List.length_cons, Nat.add_right_comm, Nat.add_assoc]
  | depth, _, @IsInterpolation.literal d ps _ x hd hps hx, fuel, i, rest, hfuel => by
    obtain ⟨f, rfl⟩ := Nat.exists_eq_succ_of_ne_zero (Nat.ne_zero_of_lt hfuel)
    have hquotes := d.quotes_length_pos
    simp only [List.length_append, List.length_replicate] at hfuel ⊢
    -- what follows does not add to the quotes, as something stands behind the literal
    have hd' : openingDelimiter d.hashes (d.quotes ++ (literalTail d ps ++ (x ++ rest))) = d := by
      rw [← openingDelimiter_append (three_le_length d ps hx.length_pos) rest] at hd
      simpa only [List.append_assoc] using hd
    have hinner : literalEnd i d f (i + (d.hashes + d.quotes.length)) (literalTail d ps ++ (x ++ rest)) =
        .ok (i + (d.hashes + d.quotes.length) + (literalTail d ps).length, x ++ rest) :=
      hps.literalEnd_eq (x ++ rest) (by omega)
    rw [← d.drop_opening (literalTail d ps ++ (x ++ rest))] at hinner
    simp only [List.append_assoc]
    rw [interpolationEnd_literal (d.rawHashes?_opening _) (by rw [d.drop_hashes]; exact hd') hinner,
      hx.interpolationEnd_eq rest (by omega)]
    exact congrArg (fun k => Except.ok (k, rest)) (by omega)
  | depth, _, @IsInterpolation.char c _ x hopen hclose hquote hx, fuel, i, rest, hfuel => by
    obtain ⟨f, rfl⟩ := Nat.exists_eq_succ_of_ne_zero (Nat.ne_zero_of_lt hfuel)
    have hnone := (hx.rawHashes?_append rest).trans hquote
    rw [List.cons_append] at hnone ⊢
    rw [interpolationEnd, if_neg (by simpa using hopen), if_neg (by simpa using hclose), hnone]
    dsimp only
    rw [hx.interpolationEnd_eq rest (Nat.lt_of_succ_lt_succ hfuel), List.length_cons, Nat.add_right_comm,
      Nat.add_assoc]
end

/-! ### One reading -/

theorem IsInterpolation.eq_of_append_eq {depth : Nat} {y : List Char} (hx : IsInterpolation depth x)
    (hy : IsInterpolation depth y) (h : x ++ rest = y ++ rest') : x = y ∧ rest = rest' := by
  -- one scan with fuel for both ends behind either of them
  have hscan : interpolationEnd 0 (x.length + y.length + 1) depth 0 (x ++ rest) =
      .ok (0 + x.length, rest) := hx.interpolationEnd_eq rest (by omega)
  rw [h, hy.interpolationEnd_eq rest' (by omega)] at hscan
  obtain ⟨-, rfl⟩ := Prod.mk.inj (Except.ok.inj hscan)
  exact ⟨List.append_cancel_right h, rfl⟩

/-- Whether a part starts with an escape mark. -/
def LiteralPart.isEscaped : LiteralPart → Bool
  | char _ => false
  | escape _ => true
  | interpolation _ => true

/-- The end of a literal is seen where there are no parts left. -/
theorem IsLiteral.closing_isPrefixOf {ps : List LiteralPart} (h : IsLiteral d ps) :
    d.closing.isPrefixOf (literalTail d ps) = ps.isEmpty := by
  cases h with
  | nil => rw [literalTail_nil, List.isPrefixOf_iff_prefix.mpr (List.prefix_refl _)]; rfl
  | char hclose _ _ _ => rwa [literalTail_char]
  | escape _ _ => rw [literalTail_escape, d.closing_isPrefixOf_escape]; rfl
  | interpolation _ _ => rw [literalTail_interpolation, d.closing_isPrefixOf_escape]; rfl

/-- An escape is seen where a part starts with one. -/
theorem IsLiteral.escape_isPrefixOf {p : LiteralPart} {ps : List LiteralPart}
    (h : IsLiteral d (p :: ps)) : d.escape.isPrefixOf (literalTail d (p :: ps)) = p.isEscaped := by
  cases h with
  | char _ hescape _ _ => rwa [literalTail_char]
  | escape _ _ => rw [literalTail_escape, isPrefixOf_append]; rfl
  | interpolation _ _ => rw [literalTail_interpolation, isPrefixOf_append]; rfl

/-- A literal has its parts in one way only. -/
theorem IsLiteral.unique {ps qs : List LiteralPart} (h : IsLiteral d ps) (h' : IsLiteral d qs)
    (heq : literalTail d ps = literalTail d qs) : ps = qs := by
  induction ps generalizing qs with
  | nil =>
    have hempty := h'.closing_isPrefixOf
    rw [← heq, h.closing_isPrefixOf] at hempty
    exact (List.isEmpty_iff.mp hempty.symm).symm
  | cons p ps ih =>
    cases qs with
    | nil =>
      have hempty := h.closing_isPrefixOf
      rw [heq, h'.closing_isPrefixOf] at hempty
      cases hempty
    | cons q qs =>
      -- what starts with the escape does so on both sides
      have hescaped : p.isEscaped = q.isEscaped := by
        rw [← h.escape_isPrefixOf, heq, h'.escape_isPrefixOf]
      cases h with
      | char _ _ _ hps =>
        cases h' with
        | char _ _ _ hqs =>
          rw [literalTail_char, literalTail_char] at heq
          obtain ⟨rfl, htail⟩ := List.cons.inj heq
          rw [ih hps hqs htail]
        | escape | interpolation => cases hescaped
      | escape hc hps =>
        cases h' with
        | char => cases hescaped
        | escape _ hqs =>
          rw [literalTail_escape, literalTail_escape] at heq
          obtain ⟨rfl, htail⟩ := List.cons.inj (List.append_cancel_left heq)
          rw [ih hps hqs htail]
        | interpolation =>
          rw [literalTail_escape, literalTail_interpolation] at heq
          exact absurd (List.cons.inj (List.append_cancel_left heq)).1 hc
      | interpolation hx hps =>
        cases h' with
        | char => cases hescaped
        | escape hc =>
          rw [literalTail_escape, literalTail_interpolation] at heq
          exact absurd (List.cons.inj (List.append_cancel_left heq)).1.symm hc
        | interpolation hy hqs =>
          rw [literalTail_interpolation, literalTail_interpolation] at heq
          obtain ⟨hxy, htail⟩ := hx.eq_of_append_eq hy (List.append_cancel_left heq)
          rw [hxy, ih hps hqs htail]

/-! ### Literals -/

/-- The text of a literal: what opens it, its parts and what ends it. -/
def Delimiter.spell (d : Delimiter) (ps : List LiteralPart) : List Char :=
  List.replicate d.hashes '#' ++ (d.quotes ++ literalTail d ps)

theorem Delimiter.spell_append (d : Delimiter) (ps : List LiteralPart) (rest : List Char) :
    d.spell ps ++ rest = List.replicate d.hashes '#' ++ (d.quotes ++ (literalTail d ps ++ rest)) := by
  rw [spell, List.append_assoc, List.append_assoc]

theorem Delimiter.spell_length (d : Delimiter) (ps : List LiteralPart) :
    (d.spell ps).length = d.hashes + d.quotes.length + (literalTail d ps).length := by
  rw [spell, List.length_append, List.length_append, List.length_replicate, Nat.add_assoc]

theorem Delimiter.spell_length_pos (d : Delimiter) (ps : List LiteralPart) :
    0 < (d.spell ps).length := by
  have hquotes := d.quotes_length_pos
  rw [d.spell_length]
  omega

/-- The literal in front of a text is spelled by its parts. -/
theorem exists_spell {fuel hashes n : Nat} {cs : List Char} (hhashes : rawHashes? cs = some hashes)
    (h : literalLength fuel hashes cs = .ok n) :
    ∃ d ps rest, cs = d.spell ps ++ rest ∧ n = (d.spell ps).length ∧ d.hashes = hashes ∧
      IsLiteral d ps ∧ openingDelimiter hashes (d.quotes ++ (literalTail d ps ++ rest)) = d := by
  unfold literalLength at h
  dsimp only at h
  generalize hd : openingDelimiter hashes (cs.drop hashes) = d at h
  split at h
  · cases h
  · next m rest hend =>
    obtain rfl : m = n := Except.ok.inj h
    obtain ⟨ps, hps, hdrop, hlength⟩ := exists_isLiteral hend
    have hopening := eq_opening_append hhashes hd
    have hhashes' : d.hashes = hashes := by rw [← hd]; rfl
    rw [hdrop] at hopening
    refine ⟨d, ps, rest, by rw [d.spell_append, hopening], ?_, hhashes', hps, ?_⟩
    · rw [hlength, d.spell_length, hhashes']
    · rw [hopening, ← hhashes', d.drop_hashes] at hd
      rwa [hhashes'] at hd

/-- The literal that is in front of a text with its parts. -/
theorem IsLiteral.literalLength_eq {fuel : Nat} {ps : List LiteralPart} (h : IsLiteral d ps)
    (hd : openingDelimiter d.hashes (d.quotes ++ (literalTail d ps ++ rest)) = d)
    (hfuel : (d.spell ps).length < fuel) :
    literalLength fuel d.hashes (d.spell ps ++ rest) = .ok (d.spell ps).length := by
  rw [d.spell_length] at hfuel ⊢
  unfold literalLength
  dsimp only
  rw [d.spell_append, d.drop_hashes, hd, d.drop_opening, h.literalEnd_eq rest (by omega)]

end Lexer

end SwiftTidy
