import SwiftTidy.Proofs.Parse.Lexer

/-!
# What a scanner sees of the text behind its lexeme

A scanner looks at most two characters beyond its lexeme.  `LooksLike rest rest'` says that two
texts are the same to a scanner that has come to its end: `token_congr` puts the one in the place of
the other, for a lexeme of any kind.  An operator is classified by what stands behind it, too, so
there the texts must also agree on binding it to the right.
-/

namespace SwiftTidy

namespace Lexer

/-! ### The front of a text -/

theorem startsComment_cons (c : Char) (cs : List Char) :
    startsComment (c :: cs) = (c == '/' && cs.head?.any fun d => d == '/' || d == '*') := by
  by_cases hc : c = '/'
  · subst hc
    cases cs with
    | nil => rfl
    | cons d cs => simp [startsComment]
  · rw [startsComment, beq_eq_false_iff_ne.mpr hc]
    · rfl
    · intro d cs' heq
      cases heq
      exact absurd rfl hc

/-- Whether no lexeme goes on here, whatever it is: at the end, at whitespace, a line break or a
comment, and at a colon or a semicolon. -/
def isBreak : List Char → Bool
  | [] => true
  | c :: cs =>
    isHorizontal c || isLineEnd c || c == ':' || c == ';' || startsComment (c :: cs)

/-- The characters at which every lexeme but an operator ends. -/
theorem cons_break {c : Char} {cs : List Char} (h : isBreak (c :: cs) = true) :
    c ∈ [' ', '\t', '\x0b', '\x0c', '\n', '\r', ':', ';', '/'] := by
  simp only [isBreak, isHorizontal, isLineEnd, startsComment_cons, Bool.or_eq_true, Bool.and_eq_true,
    beq_iff_eq] at h
  rcases h with ((((((h | h) | h) | h) | h | h) | h) | h) | ⟨h, -⟩
  all_goals
    subst h
    decide

/-- Texts that start alike, or where no lexeme goes on. -/
def SameNext (cs cs' : List Char) : Prop :=
  cs.head? = cs'.head? ∨ isBreak cs = true ∧ isBreak cs' = true

/-- Texts that are the same to a scanner that has come to the end of its lexeme. -/
inductive LooksLike : List Char → List Char → Prop where
  | breaks {cs cs' : List Char} (h : isBreak cs = true) (h' : isBreak cs' = true) : LooksLike cs cs'
  | cons (c : Char) {cs cs' : List Char} (h : SameNext cs cs')
      (hcomment : startsComment (c :: cs) = startsComment (c :: cs')) :
      LooksLike (c :: cs) (c :: cs')

/-- A test on the next character that fails where lexemes end. -/
def Fails (test : Char → Bool) : Prop :=
  ∀ c ∈ [' ', '\t', '\x0b', '\x0c', '\n', '\r', ':', ';', '/'], test c = false

instance (test : Char → Bool) : Decidable (Fails test) :=
  List.decidableBAll (test · = false) _

theorem Fails.any_head? {test : Char → Bool} (htest : Fails test) {cs : List Char}
    (h : isBreak cs = true) : cs.head?.any test = false := by
  cases cs with
  | nil => rfl
  | cons c cs => exact htest c (cons_break h)

theorem SameNext.any_head? {test : Char → Bool} (htest : Fails test) {cs cs' : List Char}
    (h : SameNext cs cs') : cs.head?.any test = cs'.head?.any test := by
  rcases h with h | ⟨h, h'⟩
  · rw [h]
  · rw [htest.any_head? h, htest.any_head? h']

/-- A character at which no lexeme ends stands in front of both or of neither. -/
theorem SameNext.head?_iff {d : Char} (hd : Fails (· == d)) {cs cs' : List Char}
    (h : SameNext cs cs') : cs.head? = some d ↔ cs'.head? = some d := by
  have hany : ∀ cs : List Char, cs.head? = some d ↔ cs.head?.any (· == d) = true := by
    intro cs
    cases cs <;> simp
  rw [hany, hany, h.any_head? hd]

theorem SameNext.append_left (x : List Char) {cs cs' : List Char} (h : SameNext cs cs') :
    SameNext (x ++ cs) (x ++ cs') := by
  cases x with
  | nil => exact h
  | cons c x => exact .inl rfl

theorem LooksLike.sameNext {cs cs' : List Char} (h : LooksLike cs cs') : SameNext cs cs' := by
  cases h with
  | breaks h h' => exact .inr ⟨h, h'⟩
  | cons c h => exact .inl rfl

/-! ### Names, operators and numbers -/

variable {x rest rest' : List Char}

/-- A run of characters is all of `x` when they pass the test and the next one does not. -/
theorem length_takeWhile_append_iff {test : Char → Bool} :
    ((x ++ rest).takeWhile test).length = x.length ↔
      (∀ c ∈ x, test c = true) ∧ rest.head?.any test = false := by
  induction x with
  | nil =>
    cases rest with
    | nil => simp
    | cons c cs => cases hc : test c <;> simp [hc]
  | cons c x ih =>
    rw [List.cons_append, List.takeWhile_cons]
    cases hc : test c with
    | false => simp [hc]
    | true =>
      rw [if_pos rfl, List.length_cons, List.length_cons, Nat.succ_inj, ih]
      simp [hc]

theorem length_takeWhile_congr {test : Char → Bool} (htest : Fails test) (h : SameNext rest rest')
    (hlength : ((x ++ rest).takeWhile test).length = x.length) :
    ((x ++ rest').takeWhile test).length = x.length := by
  rw [length_takeWhile_append_iff] at hlength ⊢
  rwa [← h.any_head? htest]

theorem nameLength_congr (h : SameNext rest rest') (hlength : nameLength (x ++ rest) = x.length) :
    nameLength (x ++ rest') = x.length :=
  length_takeWhile_congr (by decide) h hlength

theorem operatorRunLength_eq_zero_iff (cs : List Char) : operatorRunLength cs = 0 ↔
    startsComment cs = true ∨ cs.head?.any isOperatorChar = false := by
  cases cs with
  | nil => simp [operatorRunLength]
  | cons c cs =>
    rw [operatorRunLength]
    split_ifs with hend
    · simpa using hend
    · simpa using hend

/-- No operator goes on where lexemes end: of their characters only a slash is one of an operator,
and that one starts a comment. -/
theorem operatorRunLength_of_isBreak {cs : List Char} (h : isBreak cs = true) :
    operatorRunLength cs = 0 := by
  rw [operatorRunLength_eq_zero_iff]
  cases cs with
  | nil => exact .inr rfl
  | cons c cs =>
    by_cases hc : c = '/'
    · subst hc
      exact .inl (by simpa [isBreak, isHorizontal, isLineEnd] using h)
    · right
      have hmem := cons_break h
      simp only [List.mem_cons, List.not_mem_nil, or_false] at hmem
      rcases hmem with rfl | rfl | rfl | rfl | rfl | rfl | rfl | rfl | rfl
      all_goals first | rfl | exact absurd rfl hc

/-- A run of operator characters ends alike, unless its last slash becomes the start of a comment. -/
theorem operatorRunLength_congr (h : LooksLike rest rest')
    (hslash : x.getLast? = some '/' → startsComment ('/' :: rest') = false)
    (hlength : operatorRunLength (x ++ rest) = x.length) :
    operatorRunLength (x ++ rest') = x.length := by
  induction x with
  | nil =>
    rw [List.nil_append, List.length_nil] at hlength ⊢
    cases h with
    | breaks h h' => exact operatorRunLength_of_isBreak h'
    | cons c h hcomment =>
      rw [operatorRunLength_eq_zero_iff] at hlength ⊢
      rwa [← hcomment, List.head?_cons]
  | cons c x ih =>
    rw [List.cons_append, operatorRunLength] at hlength ⊢
    have hcomment : startsComment (c :: (x ++ rest)) = false → startsComment (c :: (x ++ rest')) = false := by
      intro hfalse
      cases x with
      | nil =>
        by_cases hc : c = '/'
        · rw [hc]
          exact hslash (by rw [hc]; rfl)
        · rw [startsComment_cons, beq_eq_false_iff_ne.mpr hc, Bool.false_and]
      | cons d x => rwa [startsComment_cons] at hfalse ⊢
    split_ifs at hlength with hend
    rw [Bool.or_eq_true, not_or, Bool.not_eq_true] at hend
    rw [if_neg (by rw [hcomment hend.1, Bool.false_or]; exact hend.2)]
    rw [List.length_cons, Nat.succ_inj] at hlength ⊢
    refine ih (fun hlast => hslash ?_) hlength
    cases x with
    | nil => cases hlast
    | cons d x => rwa [List.getLast?_cons_cons]

theorem rangeOperatorLength_point (cs : List Char) :
    rangeOperatorLength ('.' :: cs) = rangeOperatorLength cs + 1 := by
  unfold rangeOperatorLength
  rw [List.takeWhile_cons_of_pos (by rfl)]
  dsimp only
  rw [List.length_cons, List.drop_succ_cons]
  split_ifs <;> rfl

theorem rangeOperatorLength_eq {cs : List Char} (h : cs.head?.any (· == '.') = false) :
    rangeOperatorLength cs = if cs.head?.any (· == '<') then 1 else 0 := by
  cases cs with
  | nil => rfl
  | cons c cs =>
    unfold rangeOperatorLength
    rw [List.takeWhile_cons_of_neg (by simpa using h)]
    simp

/-- A run of dots ends alike. -/
theorem rangeOperatorLength_congr (h : SameNext rest rest')
    (hlength : rangeOperatorLength (x ++ rest) = x.length) :
    rangeOperatorLength (x ++ rest') = x.length := by
  induction x with
  | nil =>
    rw [List.nil_append] at hlength ⊢
    have hpoint : rest.head?.any (· == '.') = false := by
      cases rest with
      | nil => rfl
      | cons c cs =>
        refine Bool.eq_false_iff.mpr fun hc => ?_
        have hc : c = '.' := by simpa using hc
        rw [hc, rangeOperatorLength_point] at hlength
        cases hlength
    rw [rangeOperatorLength_eq hpoint, h.any_head? (by decide)] at hlength
    rwa [rangeOperatorLength_eq (by rwa [← h.any_head? (by decide)])]
  | cons c x ih =>
    rw [List.cons_append] at hlength ⊢
    by_cases hc : c = '.'
    · rw [hc, rangeOperatorLength_point, List.length_cons] at hlength
      rw [hc, rangeOperatorLength_point, List.length_cons, ih (Nat.succ.inj hlength)]
    · have hpoint : ∀ cs : List Char, (c :: cs).head?.any (· == '.') = false := fun _ => by
        simpa using hc
      rw [rangeOperatorLength_eq (hpoint _)] at hlength ⊢
      exact hlength

/-- The mark in front of an exponent. -/
def isExponentMark (hex : Bool) (c : Char) : Bool :=
  if hex then c == 'p' || c == 'P' else c == 'e' || c == 'E'

theorem numberRest_point (hex : Bool) (cs : List Char) : numberRest hex ('.' :: cs) =
    if cs.head?.any Char.isDigit then ((numberRest hex cs).1 + 1, true) else (0, false) := by
  cases cs with
  | nil => rfl
  | cons d cs => rw [numberRest]; rfl

theorem numberRest_cons (hex : Bool) {c : Char} (hc : c ≠ '.') (cs : List Char) :
    numberRest hex (c :: cs) =
      if c.isAlphanum || c == '_' then
        if isExponentMark hex c then
          if cs.head?.any fun s => s == '+' || s == '-' then ((numberRest hex cs.tail).1 + 2, true)
          else ((numberRest hex cs).1 + 1, true)
        else ((numberRest hex cs).1 + 1, (numberRest hex cs).2)
      else (0, false) := by
  cases cs with
  | nil =>
    rw [numberRest]
    · unfold isExponentMark
      simp only [numberRest]
      split_ifs <;> simp_all
  | cons s cs =>
    rw [numberRest]
    · rfl
    · exact hc

/-- A number ends where neither a word goes on nor a digit follows a point. -/
theorem numberRest_eq_zero_iff (hex : Bool) (cs : List Char) : (numberRest hex cs).1 = 0 ↔
    cs.head?.any (fun c => c.isAlphanum || c == '_') = false ∧
      (cs.head? = some '.' → cs.tail.head?.any Char.isDigit = false) := by
  cases cs with
  | nil => simp [numberRest]
  | cons c cs =>
    by_cases hc : c = '.'
    · subst hc
      rw [numberRest_point]
      cases hdigit : cs.head?.any Char.isDigit <;> simp [hdigit]
    · rw [numberRest_cons hex hc, List.head?_cons, Option.any_some]
      cases hword : c.isAlphanum || c == '_' with
      | false => simp [hc]
      | true =>
        rw [if_pos rfl]
        split_ifs <;> simp

theorem numberRest_snd_of_eq_zero {hex : Bool} {cs : List Char} (h : (numberRest hex cs).1 = 0) :
    (numberRest hex cs).2 = false := by
  cases cs with
  | nil => rfl
  | cons c cs =>
    by_cases hc : c = '.'
    · subst hc
      rw [numberRest_point] at h ⊢
      split_ifs at h ⊢
      rfl
    · rw [numberRest_cons hex hc] at h ⊢
      split_ifs at h ⊢
      rfl

theorem numberRest_congr_nil {hex : Bool} (h : LooksLike rest rest')
    (hzero : (numberRest hex rest).1 = 0) : (numberRest hex rest').1 = 0 := by
  rw [numberRest_eq_zero_iff] at hzero ⊢
  rw [← h.sameNext.any_head? (by decide)]
  refine ⟨hzero.1, fun hpoint => ?_⟩
  cases h with
  | breaks h h' =>
    have hnone := (by decide : Fails (· == '.')).any_head? h'
    rw [hpoint] at hnone
    cases hnone
  | cons c h hcomment =>
    rw [List.tail_cons, ← h.any_head? (by decide)]
    exact hzero.2 hpoint

/-- A number ends alike, and is as much of a fraction. -/
theorem numberRest_congr (hex : Bool) (h : LooksLike rest rest') {x : List Char}
    (hlength : (numberRest hex (x ++ rest)).1 = x.length) :
    numberRest hex (x ++ rest') = numberRest hex (x ++ rest) := by
  induction hn : x.length using Nat.strongRecOn generalizing x with
  | _ n ih =>
    cases x with
    | nil =>
      have hzero := numberRest_congr_nil h hlength
      exact Prod.ext (hzero.trans hlength.symm)
        ((numberRest_snd_of_eq_zero hzero).trans (numberRest_snd_of_eq_zero hlength).symm)
    | cons c y =>
      have hy : y.length < n := by rw [← hn]; exact Nat.lt_succ_self _
      rw [List.cons_append] at hlength ⊢
      -- the next character is looked at, too
      have hnext := h.sameNext.append_left y
      by_cases hc : c = '.'
      · subst hc
        rw [numberRest_point] at hlength
        rw [List.cons_append, numberRest_point, numberRest_point, ← hnext.any_head? (by decide)]
        split_ifs at hlength ⊢
        rw [ih y.length hy (Nat.succ.inj hlength) rfl]
      · rw [numberRest_cons hex hc] at hlength
        rw [List.cons_append, numberRest_cons hex hc, numberRest_cons hex hc,
          ← hnext.any_head? (by decide)]
        split_ifs at hlength ⊢ with hword hmark hsign
        · cases y with
          | nil =>
            rw [List.length_singleton] at hlength
            omega
          | cons s z =>
            have hz : z.length < n := Nat.lt_of_succ_lt hy
            have hrest : (numberRest hex (z ++ rest)).1 = z.length := by
              simpa using hlength
            rw [List.cons_append, List.cons_append, List.tail_cons, List.tail_cons,
              ih z.length hz hrest rfl]
        · rw [ih y.length hy (Nat.succ.inj hlength) rfl]
        · rw [ih y.length hy (Nat.succ.inj hlength) rfl]

theorem number_congr (h : LooksLike rest rest') {c : Char} {x : List Char}
    (hlength : (number (c :: (x ++ rest))).2 = x.length + 1) :
    number (c :: (x ++ rest')) = number (c :: (x ++ rest)) := by
  have hhex : ['0', 'x'].isPrefixOf (c :: (x ++ rest')) = ['0', 'x'].isPrefixOf (c :: (x ++ rest)) := by
    have htest : Fails (· == 'x') := by decide
    have hcons : ∀ cs, ['0', 'x'].isPrefixOf (c :: cs) = ('0' == c && cs.head?.any (· == 'x')) := by
      intro cs
      cases cs with
      | nil => simp [List.isPrefixOf]
      | cons d cs => simp [List.isPrefixOf, Bool.beq_comm]
    rw [hcons, hcons, (h.sameNext.append_left x).any_head? htest]
  have hrest := numberRest_congr (['0', 'x'].isPrefixOf (c :: (x ++ rest))) (x := c :: x) h hlength
  rw [number, number, hhex]
  rw [List.cons_append, List.cons_append] at hrest
  rw [hrest]

/-- A name between backticks is not empty and has neither a backtick nor a line feed in it. -/
theorem exists_of_escapedNameLength (h : escapedNameLength (x ++ rest) = some (x.length + 1)) :
    ∃ y, x = y ++ ['\x60'] ∧ y ≠ [] ∧ ∀ c ∈ y, (!(c == '\x60' || c == '\n')) = true := by
  unfold escapedNameLength at h
  dsimp only at h
  generalize hbody : (x ++ rest).takeWhile (fun c => !(c == '\x60' || c == '\n')) = body at h
  split at h
  · next tail hdrop =>
    split_ifs at h with hempty
    have hsplit : body ++ '\x60' :: tail = x ++ rest := by
      rw [← hdrop, ← hbody]
      exact List.prefix_iff_eq_append.mp (List.takeWhile_prefix _)
    rw [← List.singleton_append, ← List.append_assoc] at hsplit
    obtain ⟨hx, -⟩ := List.append_inj hsplit (by simpa using h)
    refine ⟨body, hx.symm, by simpa using hempty, ?_⟩
    rw [← hbody]
    exact List.all_eq_true.mp List.all_takeWhile
  · cases h

/-- A name between backticks ends at the second one. -/
theorem escapedNameLength_congr (hlength : escapedNameLength (x ++ rest) = some (x.length + 1)) :
    escapedNameLength (x ++ rest') = some (x.length + 1) := by
  obtain ⟨body, rfl, hempty, hall⟩ := exists_of_escapedNameLength hlength
  have hbody : (body ++ ['\x60'] ++ rest').takeWhile (fun c => !(c == '\x60' || c == '\n')) =
      body := by
    rw [List.append_assoc, List.takeWhile_append_of_pos hall]
    simp
  rw [escapedNameLength, hbody, List.append_assoc, List.drop_left]
  simp [hempty]

/-! ### String literals -/

/-- Whether a literal has three quotes is seen from the character behind two of them. -/
theorem openingDelimiter_congr {hashes : Nat} (hlength : 2 ≤ x.length) (h : SameNext rest rest') :
    openingDelimiter hashes (x ++ rest') = openingDelimiter hashes (x ++ rest) := by
  obtain ⟨a, b, y, rfl⟩ : ∃ a b y, x = a :: b :: y := by
    match x, hlength with
    | a :: b :: y, _ => exact ⟨a, b, y, rfl⟩
  have hthird : ∀ cs, ['"', '"', '"'].isPrefixOf (a :: b :: cs) =
      ('"' == a && ('"' == b && cs.head?.any (· == '"'))) := by
    intro cs
    cases cs with
    | nil => simp [List.isPrefixOf]
    | cons c cs => simp [List.isPrefixOf, Bool.beq_comm]
  rw [openingDelimiter, openingDelimiter, List.cons_append, List.cons_append, List.cons_append,
    List.cons_append, hthird, hthird]
  cases y with
  | nil => rw [List.nil_append, List.nil_append, h.any_head? (by decide)]
  | cons c y => rfl

/-- A literal is told by its parts, so it is the same in front of other texts. -/
theorem literalLength_congr {fuel fuel' hashes : Nat} (h : SameNext rest rest')
    (hhashes : rawHashes? (x ++ rest) = some hashes) (hfuel : x.length < fuel')
    (hlength : literalLength fuel hashes (x ++ rest) = .ok x.length) :
    rawHashes? (x ++ rest') = some hashes ∧
      literalLength fuel' hashes (x ++ rest') = .ok x.length := by
  obtain ⟨d, ps, rest₁, happend, hspell, rfl, hps, hd⟩ := exists_spell hhashes hlength
  obtain ⟨rfl, rfl⟩ := List.append_inj happend hspell
  have htwo : 2 ≤ (d.quotes ++ literalTail d ps).length := by
    have hquotes := d.quotes_length_pos
    have htail := literalTail_length_pos d ps
    rw [List.length_append]
    omega
  rw [← List.append_assoc, ← openingDelimiter_congr htwo h, List.append_assoc] at hd
  refine ⟨?_, hps.literalLength_eq hd hfuel⟩
  rw [d.spell_append]
  exact d.rawHashes?_opening _

/-! ### Tokens -/

/-- A character of operators starts neither a number nor a name. -/
theorem not_isDigit_of_isOperatorChar {c : Char} (h : isOperatorChar c = true) :
    c.isDigit = false ∧ (c == '_' || CharClass.isAlphabetic c) = false := by
  simp only [isOperatorChar, Bool.or_eq_true, beq_iff_eq] at h
  rcases h with ((((((((((((h | h) | h) | h) | h) | h) | h) | h) | h) | h) | h) | h) | h) | h
  all_goals
    rw [h]
    decide

/-- What the token is that starts with a character of operators. -/
theorem token_of_startsOperator {fuel : Nat} {leftBound : Bool} {c : Char} {cs : List Char}
    (hstart : startsOperator c = true) :
    token fuel leftBound (c :: cs) =
      if c = '.' ∧ cs.head? ≠ some '.' then .ok (.period, 1)
      else .ok (operator leftBound
        (if c = '.' then rangeOperatorLength (c :: cs) else operatorLength leftBound (c :: cs))
        (c :: cs)) := by
  have hother : ∀ d, startsOperator d = false → c ≠ d := by
    rintro d hd rfl
    rw [hstart] at hd
    cases hd
  have hmark : mark? c = none := by
    rw [mark?, List.lookup_eq_none_iff]
    intro p hp
    have hfalse : startsOperator p.1 = false := by
      revert p
      decide
    rw [bne_iff_ne]
    exact hother p.1 hfalse
  rw [token_cons, hmark]
  dsimp only
  by_cases hpoint : c = '.'
  · rw [if_pos hpoint, if_pos hpoint]
    by_cases hrange : cs.head? = some '.'
    · rw [if_pos hrange, if_neg (fun h => h.2 hrange)]
    · rw [if_neg hrange, if_pos ⟨hpoint, hrange⟩]
  have hoperator : isOperatorChar c = true := by
    rw [startsOperator, Bool.or_eq_true, beq_iff_eq] at hstart
    exact hstart.resolve_left hpoint
  obtain ⟨hdigit, hname⟩ := not_isDigit_of_isOperatorChar hoperator
  rw [if_neg hpoint, if_neg (hother _ rfl), if_neg (hother _ rfl), if_neg (hother _ rfl),
    if_neg (hother _ rfl), hdigit, hname, hoperator, if_neg Bool.false_ne_true,
    if_neg Bool.false_ne_true, if_pos rfl, if_neg (fun h => hpoint h.1), if_neg hpoint]

/-- **Operators**: one is cut off the same in front of a text that looks the same, if it ends in no slash
that would start a comment.  What it is may change with the side it is bound on. -/
theorem operator_congr {fuel : Nat} {leftBound : Bool} {c : Char} {kind : SyntaxKind}
    (h : LooksLike rest rest') (hstart : startsOperator c = true)
    (hslash : x.getLast? = some '/' → startsComment ('/' :: rest') = false)
    (htoken : token fuel leftBound (c :: (x ++ rest)) = .ok (kind, x.length + 1)) (fuel' : Nat) :
    (kind = .period ∧ token fuel' leftBound (c :: (x ++ rest')) = .ok (.period, x.length + 1)) ∨
    (kind = classifyOperator (String.ofList (c :: x)) leftBound (isRightBound rest) ∧
      token fuel' leftBound (c :: (x ++ rest')) =
        .ok (classifyOperator (String.ofList (c :: x)) leftBound (isRightBound rest'), x.length + 1)) := by
  have hnext := (h.sameNext.append_left x).head?_iff (d := '.') (by decide)
  have hoperator : ∀ r, operator leftBound (x.length + 1) (c :: (x ++ r)) =
      (classifyOperator (String.ofList (c :: x)) leftBound (isRightBound r), x.length + 1) := fun r => by
    rw [operator, front, List.take_succ_cons, List.take_left, List.drop_succ_cons, List.drop_left]
  rw [token_of_startsOperator hstart] at htoken ⊢
  simp only [ne_eq, ← hnext]
  split_ifs at htoken ⊢ with hperiod hpoint
  · obtain ⟨rfl, hlength⟩ := Prod.mk.inj (Except.ok.inj htoken)
    exact .inl ⟨rfl, by rw [← hlength]⟩
  · have hlength : rangeOperatorLength (c :: (x ++ rest)) = x.length + 1 :=
      congrArg Prod.snd (Except.ok.inj htoken)
    have hlength' : rangeOperatorLength (c :: (x ++ rest')) = x.length + 1 :=
      rangeOperatorLength_congr (x := c :: x) h.sameNext hlength
    rw [hlength, hoperator] at htoken
    rw [hlength', hoperator]
    exact .inr ⟨(Prod.mk.inj (Except.ok.inj htoken)).1.symm, rfl⟩
  · have hlength : operatorLength leftBound (c :: (x ++ rest)) = x.length + 1 :=
      congrArg Prod.snd (Except.ok.inj htoken)
    have hlength' : operatorLength leftBound (c :: (x ++ rest')) = x.length + 1 := by
      rw [operatorLength] at hlength ⊢
      split_ifs at hlength ⊢ with hmark
      · exact hlength
      · rw [operatorRunLength_congr h hslash (Nat.succ.inj hlength)]
    rw [hlength, hoperator] at htoken
    rw [hlength', hoperator]
    exact .inr ⟨(Prod.mk.inj (Except.ok.inj htoken)).1.symm, rfl⟩

/-- **The front decides**: a token is cut off the same in front of a text that looks the same, if an
operator is bound to the right by both texts or by neither and ends in no slash that would start a
comment. -/
theorem token_congr {fuel fuel' : Nat} {leftBound : Bool} {c : Char} {kind : SyntaxKind}
    (h : LooksLike rest rest')
    (hright : startsOperator c = true → isRightBound rest = isRightBound rest')
    (hslash : startsOperator c = true → x.getLast? = some '/' → startsComment ('/' :: rest') = false)
    (hfuel : x.length + 1 < fuel')
    (htoken : token fuel leftBound (c :: (x ++ rest)) = .ok (kind, x.length + 1)) :
    token fuel' leftBound (c :: (x ++ rest')) = .ok (kind, x.length + 1) := by
  -- an operator is the only token that looks at what it touches
  by_cases hstart : startsOperator c = true
  · rcases operator_congr h hstart (hslash hstart) htoken fuel' with ⟨hkind, htoken'⟩ | ⟨hkind, htoken'⟩
    · rw [hkind, htoken']
    · rw [hkind, htoken', hright hstart]
  rw [startsOperator, Bool.or_eq_true, beq_iff_eq, not_or] at hstart
  obtain ⟨hpoint, hoperator⟩ := hstart
  -- the other tokens are told by their first character and end before the front does
  rw [token_cons] at htoken ⊢
  have hfront : ∀ r, front (x.length + 1) (c :: (x ++ r)) = String.ofList (c :: x) := fun r => by
    rw [front, List.take_succ_cons, List.take_left]
  split at htoken
  · -- a mark is all of the token
    exact htoken
  rw [if_neg hpoint] at htoken ⊢
  by_cases hquote : c = '"'
  · rw [if_pos hquote] at htoken ⊢
    obtain ⟨n, hliteral, hn⟩ := Except.map_eq_ok.mp htoken
    obtain ⟨rfl, rfl⟩ := Prod.mk.inj hn
    have hhashes : rawHashes? ((c :: x) ++ rest) = some 0 := by
      rw [hquote, List.cons_append, rawHashes?_cons (by decide), if_pos rfl]
    obtain ⟨-, hliteral'⟩ := literalLength_congr (x := c :: x) h.sameNext hhashes hfuel hliteral
    rw [List.cons_append] at hliteral'
    rw [hliteral']
    rfl
  rw [if_neg hquote] at htoken ⊢
  by_cases hhash : c = '#'
  · rw [if_pos hhash] at htoken ⊢
    split at htoken
    · next hashes hhashes =>
      obtain ⟨n, hliteral, hn⟩ := Except.map_eq_ok.mp htoken
      obtain ⟨rfl, rfl⟩ := Prod.mk.inj hn
      obtain ⟨hhashes', hliteral'⟩ :=
        literalLength_congr (x := c :: x) h.sameNext hhashes hfuel hliteral
      rw [List.cons_append] at hhashes' hliteral'
      rw [hhashes']
      dsimp only
      rw [hliteral']
      rfl
    · next hhashes =>
      split_ifs at htoken with hempty
      obtain ⟨rfl, hlength⟩ := Prod.mk.inj (Except.ok.inj htoken)
      have hlength := Nat.succ.inj hlength
      rw [hlength] at hempty
      obtain ⟨d, y, rfl⟩ := List.exists_cons_of_length_pos (Nat.pos_of_ne_zero hempty)
      have hd : d ≠ '#' := by
        rintro rfl
        rw [nameLength, length_takeWhile_append_iff] at hlength
        exact absurd (hlength.1 '#' List.mem_cons_self) (by decide)
      have hhashes' : rawHashes? (c :: (d :: y ++ rest')) = none :=
        (rawHashes?_congr (x := [c]) hd _).trans hhashes
      rw [hhashes', nameLength_congr h.sameNext hlength, if_neg (by simp)]
  rw [if_neg hhash] at htoken ⊢
  by_cases hbacktick : c = '\x60'
  · rw [if_pos hbacktick] at htoken ⊢
    split at htoken
    · next n hn =>
      obtain ⟨rfl, rfl⟩ := Prod.mk.inj (Except.ok.inj htoken)
      rw [escapedNameLength_congr hn]
    · cases htoken
  rw [if_neg hbacktick] at htoken ⊢
  by_cases hdollar : c = '$'
  · rw [if_pos hdollar] at htoken ⊢
    obtain ⟨rfl, hlength⟩ := Prod.mk.inj (Except.ok.inj htoken)
    rw [nameLength_congr h.sameNext (Nat.succ.inj hlength)]
  rw [if_neg hdollar] at htoken ⊢
  split_ifs at htoken ⊢ with hdigit hname
  · have hnumber := Except.ok.inj htoken
    rw [number_congr h (congrArg Prod.snd hnumber), hnumber]
  · obtain ⟨rfl, hlength⟩ := Prod.mk.inj (Except.ok.inj htoken)
    have hlength := Nat.succ.inj hlength
    rw [nameLength_congr h.sameNext hlength, hlength, hfront, hfront]

/-! ### Lexemes are fronts -/

theorem nameLength_le (cs : List Char) : nameLength cs ≤ cs.length :=
  (List.takeWhile_prefix _).length_le

theorem operatorRunLength_le (cs : List Char) : operatorRunLength cs ≤ cs.length := by
  induction cs with
  | nil => exact Nat.le_refl 0
  | cons c cs ih =>
    rw [operatorRunLength]
    split_ifs
    · exact Nat.zero_le _
    · exact Nat.succ_le_succ ih

theorem rangeOperatorLength_le (cs : List Char) : rangeOperatorLength cs ≤ cs.length := by
  induction cs with
  | nil => exact Nat.le_refl 0
  | cons c cs ih =>
    by_cases hc : c = '.'
    · rw [hc, rangeOperatorLength_point]
      exact Nat.succ_le_succ ih
    · rw [rangeOperatorLength_eq (by simpa using hc)]
      split_ifs <;> simp

theorem numberRest_le (hex : Bool) (cs : List Char) : (numberRest hex cs).1 ≤ cs.length := by
  induction hn : cs.length using Nat.strongRecOn generalizing cs with
  | _ n ih =>
    cases cs with
    | nil => exact Nat.zero_le _
    | cons c cs =>
      have hrest := ih cs.length (by rw [← hn]; exact Nat.lt_succ_self _) cs rfl
      rw [List.length_cons] at hn
      by_cases hc : c = '.'
      · rw [hc, numberRest_point]
        split_ifs
        · exact hn ▸ Nat.succ_le_succ hrest
        · exact Nat.zero_le _
      · rw [numberRest_cons hex hc]
        split_ifs with hword hmark hsign
        · cases cs with
          | nil => cases hsign
          | cons s cs =>
            have hrest := ih cs.length (by rw [← hn, List.length_cons]; omega) cs rfl
            rw [List.length_cons] at hn
            show (numberRest hex cs).1 + 2 ≤ n
            omega
        · exact hn ▸ Nat.succ_le_succ hrest
        · exact hn ▸ Nat.succ_le_succ hrest
        · exact Nat.zero_le _

theorem escapedNameLength_le {cs : List Char} {n : Nat} (h : escapedNameLength cs = some n) :
    n ≤ cs.length + 1 := by
  unfold escapedNameLength at h
  dsimp only at h
  split at h
  · next tail hdrop =>
    split_ifs at h
    cases h
    have hlength := congrArg List.length hdrop
    rw [List.length_drop, List.length_cons] at hlength
    omega
  · cases h

/-- The lexeme of a token is there. -/
theorem token_le {fuel n : Nat} {leftBound : Bool} {c : Char} {cs : List Char} {kind : SyntaxKind}
    (h : token fuel leftBound (c :: cs) = .ok (kind, n)) : n ≤ cs.length + 1 := by
  cases frontToken_of_token h with
  | mark | period => exact Nat.succ_le_succ (Nat.zero_le _)
  | directive | dollar | name => exact Nat.succ_le_succ (nameLength_le cs)
  | operator _ hn =>
    rw [hn, operatorLength]
    split_ifs
    · exact rangeOperatorLength_le (c :: cs)
    · exact Nat.succ_le_succ (Nat.zero_le _)
    · exact Nat.succ_le_succ (operatorRunLength_le cs)
  | literal hhashes hn =>
    obtain ⟨d, ps, rest, htext, rfl, -⟩ := exists_spell hhashes hn
    rw [← List.length_cons, htext, List.length_append]
    exact Nat.le_add_right _ _
  | escaped _ hn => exact escapedNameLength_le hn
  | number => exact numberRest_le _ (c :: cs)

end Lexer

end SwiftTidy
