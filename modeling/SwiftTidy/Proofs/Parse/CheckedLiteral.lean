import SwiftTidy.Proofs.Parse.Boundaries
import SwiftTidy.Proofs.Parse.ByteScan
import SwiftTidy.Proofs.Parse.Progress

/-!
# The lexer with its checks

`lex` cuts a source into tokens the way a program does that works on byte offsets: a token is two
offsets into the source, text is cut out of the source at offsets, comments are scanned byte by
byte, and the parentheses of an interpolation are counted up and down.  Every step that such a
program does not survive is checked: a cut beyond the text or inside a character, an index without a
byte, a counter that falls below zero or overflows.  So is every loop: one that has more turns than
the text has characters is `stuck`.

None of the checks ever fails, and `lex` finds the tokens of `tokens` or rejects the source as
`tokens` does (`lex_agrees`).  What holds between the two is `Agrees`, which is carried through a
sequence of steps by `Agrees.bind`.
-/

namespace SwiftTidy

/-- Why a checked computation stops. -/
inductive Halt (ε : Type) where
  /-- A step that a program does not survive. -/
  | fault (f : Fault)
  /-- A loop has had more turns than there are characters. -/
  | stuck
  | rejected (e : ε)

/-- A checked computation answers as a plain one does, and rejects what that one rejects. -/
def Agrees {ε α β : Type} (checked : Except (Halt ε) α) (plain : Except ε β) (R : α → β → Prop) :
    Prop :=
  match plain with
  | .error e => checked = .error (.rejected e)
  | .ok b => ∃ a, checked = .ok a ∧ R a b

namespace Agrees

variable {ε α β γ δ : Type} {x : Except (Halt ε) α} {y : Except ε β} {R R' : α → β → Prop}

theorem pure {a : α} {b : β} (h : R a b) : Agrees (ε := ε) (Pure.pure a) (.ok b) R := ⟨a, rfl, h⟩

theorem mono (h : Agrees x y R) (hR : ∀ a b, R a b → R' a b) : Agrees x y R' := by
  unfold Agrees at *
  split at h
  · exact h
  · obtain ⟨a, ha, hab⟩ := h
    exact ⟨a, ha, hR a _ hab⟩

/-- Steps that agree one by one agree in sequence. -/
theorem bind {f : α → Except (Halt ε) γ} {g : β → Except ε δ} {S : γ → δ → Prop}
    (h : Agrees x y R) (hf : ∀ a b, R a b → Agrees (f a) (g b) S) :
    Agrees (x >>= f) (y >>= g) S := by
  unfold Agrees at h
  split at h
  · next e =>
    rw [h]
    exact rfl
  · next b =>
    obtain ⟨a, rfl, hab⟩ := h
    exact hf a b hab

end Agrees

namespace Lexer

/-! ### String literals -/

mutual
/-- `literalEnd` with the parentheses of interpolations counted. -/
def literalScan (start : Nat) (d : Delimiter) :
    (fuel i : Nat) → List Char → Except (Halt Rejection) (Nat × List Char)
  | 0, _, _ => .error .stuck
  | _ + 1, _, [] => .error (.rejected ⟨.unterminatedString, start⟩)
  | fuel + 1, i, c :: cs =>
    if d.closing.isPrefixOf (c :: cs) then
      .ok (i + d.closing.length, (c :: cs).drop d.closing.length)
    else if d.escape.isPrefixOf (c :: cs) then
      let j := i + d.escape.length
      match (c :: cs).drop d.escape.length with
      | [] => .error (.rejected ⟨.unterminatedString, start⟩)
      | '(' :: rest =>
        match interpolationScan start fuel 0 j ('(' :: rest) with
        | .error h => .error h
        | .ok (k, rest) => literalScan start d fuel k rest
      | _ :: rest => literalScan start d fuel (j + 1) rest
    else if !d.multiline && isLineEnd c then .error (.rejected ⟨.unterminatedString, start⟩)
    else literalScan start d fuel (i + 1) cs
termination_by structural fuel => fuel
/-- `interpolationEnd` with the open parentheses counted: the counter is lowered first, and the
interpolation ends when it has come down to zero. -/
def interpolationScan (start : Nat) :
    (fuel depth i : Nat) → List Char → Except (Halt Rejection) (Nat × List Char)
  | 0, _, _, _ => .error .stuck
  | _ + 1, _, _, [] => .error (.rejected ⟨.unterminatedInterpolation, start⟩)
  | fuel + 1, depth, i, c :: cs =>
    if c == '(' then interpolationScan start fuel (depth + 1) (i + 1) cs
    else if c == ')' then
      match Offset.sub depth 1 with
      | .error f => .error (.fault f)
      | .ok depth =>
        if depth = 0 then .ok (i + 1, cs) else interpolationScan start fuel depth (i + 1) cs
    else
      match rawHashes? (c :: cs) with
      | some hashes =>
        let d := openingDelimiter hashes ((c :: cs).drop hashes)
        let opening := hashes + d.quotes.length
        match literalScan i d fuel (i + opening) ((c :: cs).drop opening) with
        | .error h => .error h
        | .ok (k, rest) => interpolationScan start fuel depth k rest
      | none => interpolationScan start fuel depth (i + 1) cs
termination_by structural fuel => fuel
end

mutual
/-- A literal is scanned to its end: no counter falls below zero on the way, and no loop has more
turns than there are characters. -/
theorem literalScan_eq {start : Nat} {d : Delimiter} : ∀ {fuel i : Nat} {cs : List Char},
    cs.length < fuel →
    literalScan start d fuel i cs = (literalEnd start d fuel i cs).mapError .rejected
  | 0, i, cs, hfuel => absurd hfuel (Nat.not_lt_zero _)
  | fuel + 1, i, [], hfuel => by
    rw [literalScan, literalEnd]
    rfl
  | fuel + 1, i, c :: cs, hfuel => by
    have hless : cs.length < fuel := Nat.lt_of_succ_lt_succ hfuel
    rw [literalScan, literalEnd]
    split_ifs with hclose hescape hline
    · rfl
    · dsimp only
      have hpos : 0 < d.escape.length := Nat.succ_pos _
      have hlength : ((c :: cs).drop d.escape.length).length ≤ cs.length := by
        rw [List.length_drop, List.length_cons]
        omega
      generalize (c :: cs).drop d.escape.length = tail at hlength ⊢
      split
      · rfl
      · next rest =>
        rw [List.length_cons] at hlength
        have hinside : ('(' :: rest).length < fuel := by
          rw [List.length_cons]
          omega
        rw [interpolationScan_eq hinside fun _ => rfl]
        change _ = Except.mapError _
          (match interpolationEnd start fuel 0 (i + d.escape.length) ('(' :: rest) with
          | .error r => .error r
          | .ok (k, rest) => literalEnd start d fuel k rest)
        cases hinner : interpolationEnd start fuel 0 (i + d.escape.length) ('(' :: rest) with
        | error r => rfl
        | ok p =>
          -- the interpolation takes its characters from the fuel
          obtain ⟨x, -, hx, -⟩ := exists_isInterpolation hinner
          have hrest := congrArg List.length hx
          rw [List.length_append] at hrest
          exact literalScan_eq (by omega)
      · next b rest hne =>
        rw [List.length_cons] at hlength
        have hrest : rest.length < fuel := by omega
        simp only [literalScan_eq hrest]
    · rfl
    · exact literalScan_eq hless
termination_by structural fuel => fuel
/-- An interpolation starts at its parenthesis, so one is open wherever one is closed. -/
theorem interpolationScan_eq {start : Nat} : ∀ {fuel depth i : Nat} {cs : List Char},
    cs.length < fuel → (depth = 0 → cs.head? = some '(') →
    interpolationScan start fuel depth i cs
      = (interpolationEnd start fuel depth i cs).mapError .rejected
  | 0, depth, i, cs, hfuel, hopen => absurd hfuel (Nat.not_lt_zero _)
  | fuel + 1, depth, i, [], hfuel, hopen => by
    rw [interpolationScan, interpolationEnd]
    rfl
  | fuel + 1, depth, i, c :: cs, hfuel, hopen => by
    have hless : cs.length < fuel := Nat.lt_of_succ_lt_succ hfuel
    rw [interpolationScan, interpolationEnd]
    by_cases hparen : (c == '(') = true
    · rw [if_pos hparen, if_pos hparen]
      exact interpolationScan_eq hless fun hzero => absurd hzero (Nat.succ_ne_zero _)
    -- any other character stands behind a parenthesis that is open
    have hpos : 0 < depth := by
      refine Nat.pos_of_ne_zero fun hzero => hparen ?_
      rw [Option.some.inj (hopen hzero)]
      rfl
    have hstay : depth = 0 → ∀ cs : List Char, cs.head? = some '(' :=
      fun hzero => absurd hzero (Nat.ne_of_gt hpos)
    rw [if_neg hparen, if_neg hparen]
    by_cases hclose : (c == ')') = true
    · have hsub : Offset.sub depth 1 = .ok (depth - 1) := if_pos hpos
      rw [if_pos hclose, if_pos hclose, hsub]
      dsimp only
      by_cases hlast : depth ≤ 1
      · rw [if_pos (by omega), if_pos hlast]
        rfl
      · rw [if_neg (by omega), if_neg hlast]
        exact interpolationScan_eq hless fun hzero => absurd hzero (by omega)
    rw [if_neg hclose, if_neg hclose]
    cases hhashes : rawHashes? (c :: cs) with
    | none => exact interpolationScan_eq hless fun hzero => hstay hzero cs
    | some hashes =>
      dsimp only
      have hquotes := (openingDelimiter hashes ((c :: cs).drop hashes)).quotes_length_pos
      have hlength : ((c :: cs).drop (hashes +
          (openingDelimiter hashes ((c :: cs).drop hashes)).quotes.length)).length < fuel := by
        rw [List.length_drop, List.length_cons]
        omega
      rw [literalScan_eq hlength]
      cases hinner : literalEnd i (openingDelimiter hashes ((c :: cs).drop hashes)) fuel _ _ with
      | error r => rfl
      | ok p =>
        -- the literal inside takes its characters from the fuel
        obtain ⟨ps, -, hx, -⟩ := exists_isLiteral hinner
        have hrest := congrArg List.length hx
        rw [List.length_append] at hrest
        exact interpolationScan_eq (by omega) fun hzero => hstay hzero p.2
termination_by structural fuel => fuel
end

/-! ### Rejections -/

mutual
theorem isGenuine_literalEnd {start : Nat} {d : Delimiter} : ∀ {fuel i : Nat} {cs : List Char}
    {r : Rejection}, literalEnd start d fuel i cs = .error r → r.cause.IsGenuine
  | 0, i, cs, r, h => by
    rw [literalEnd] at h
    cases h
    exact ⟨nofun, nofun⟩
  | fuel + 1, i, [], r, h => by
    rw [literalEnd] at h
    cases h
    exact ⟨nofun, nofun⟩
  | fuel + 1, i, c :: cs, r, h => by
    rw [literalEnd] at h
    split_ifs at h
    · dsimp only at h
      split at h
      · cases h
        exact ⟨nofun, nofun⟩
      · split at h
        · next hinner =>
          cases h
          exact isGenuine_interpolationEnd hinner
        · exact isGenuine_literalEnd h
      · exact isGenuine_literalEnd h
    · cases h
      exact ⟨nofun, nofun⟩
    · exact isGenuine_literalEnd h
termination_by structural fuel => fuel
theorem isGenuine_interpolationEnd {start : Nat} : ∀ {fuel depth i : Nat} {cs : List Char}
    {r : Rejection}, interpolationEnd start fuel depth i cs = .error r → r.cause.IsGenuine
  | 0, depth, i, cs, r, h => by
    rw [interpolationEnd] at h
    cases h
    exact ⟨nofun, nofun⟩
  | fuel + 1, depth, i, [], r, h => by
    rw [interpolationEnd] at h
    cases h
    exact ⟨nofun, nofun⟩
  | fuel + 1, depth, i, c :: cs, r, h => by
    rw [interpolationEnd] at h
    split_ifs at h
    · exact isGenuine_interpolationEnd h
    · exact isGenuine_interpolationEnd h
    · split at h
      · dsimp only at h
        split at h
        · next hinner =>
          cases h
          exact isGenuine_literalEnd hinner
        · exact isGenuine_interpolationEnd h
      · exact isGenuine_interpolationEnd h
termination_by structural fuel => fuel
end

theorem isGenuine_literalLength {fuel hashes : Nat} {cs : List Char} {r : Rejection}
    (h : literalLength fuel hashes cs = .error r) : r.cause.IsGenuine := by
  unfold literalLength at h
  dsimp only at h
  split at h
  · next hend =>
    cases h
    exact isGenuine_literalEnd hend
  · cases h

theorem isGenuine_triviaPiece {trailing : Bool} {cs : List Char} {r : Rejection}
    (h : triviaPiece? trailing cs = .error r) : r.cause.IsGenuine := by
  unfold triviaPiece? at h
  split at h
  all_goals try cases h
  · split at h <;> cases h
    exact ⟨nofun, nofun⟩
  · split at h <;> cases h

theorem isGenuine_token {fuel : Nat} {leftBound : Bool} {cs : List Char} {r : Rejection}
    (h : token fuel leftBound cs = .error r) : r.cause.IsGenuine := by
  cases cs with
  | nil => cases h
  | cons c cs =>
    rw [token_cons] at h
    split at h
    · cases h
    by_cases hpoint : c = '.'
    · rw [if_pos hpoint] at h
      split_ifs at h
    rw [if_neg hpoint] at h
    by_cases hquote : c = '"'
    · rw [if_pos hquote] at h
      exact isGenuine_literalLength (Except.map_eq_error.mp h)
    rw [if_neg hquote] at h
    by_cases hhash : c = '#'
    · rw [if_pos hhash] at h
      split at h
      · exact isGenuine_literalLength (Except.map_eq_error.mp h)
      · split_ifs at h
        cases h
        exact ⟨fun h => (by cases h), fun _ h => (by cases h)⟩
    rw [if_neg hhash] at h
    by_cases hbacktick : c = '\x60'
    · rw [if_pos hbacktick] at h
      split at h <;> cases h
      exact ⟨fun h => (by cases h), fun _ h => (by cases h)⟩
    rw [if_neg hbacktick] at h
    split_ifs at h
    cases h
    exact ⟨fun h => (by cases h), fun _ h => (by cases h)⟩

end Lexer

end SwiftTidy
