import Mathlib.Data.List.GetD
import SwiftTidy.Proofs.Parse.Assembled
import SwiftTidy.Proofs.Text.Offset

/-!
# Grammars that go on

A grammar `Reads` where it takes at least one token or rejects the input for a cause of its own:
it neither takes a token behind the last one nor gives up because a bound is reached.  It `Keeps`
where it may also take nothing.  There is one rule for each combinator.

A token has a text, so what is taken makes the rest shorter (`Input.size`); cutting an operator in
two does not, though there is one token more then.  That is why the size is counted in bytes: a
loop that takes a token at every turn has at most as many turns as there are bytes left.
-/

namespace SwiftTidy

/-- A cause that lies in the source: no bound was reached, and no token was taken behind the last
one. -/
def ParseError.Cause.IsGenuine (cause : ParseError.Cause) : Prop :=
  cause ≠ .tooDeep ∧ ∀ found, cause ≠ .expected "token" found

/-- A rejection for a cause that lies in the source. -/
def ParseError.IsGenuine (e : ParseError) : Prop := e.cause.IsGenuine

namespace Input

/-! ### What is left to read -/

/-- An input whose tokens have a text, and which ends with the end of the file. -/
structure Ready (s : Input) : Prop where
  len_pos : ∀ t ∈ s.pending, 0 < t.len
  kind_endOfFile : s.endOfFile.kind = .endOfFile

/-- Nothing was put back between `s` and `s'`. -/
structure Ahead (s s' : Input) : Prop where
  ready : s'.Ready
  size_le : s'.size ≤ s.size

/-- A token was taken between `s` and `s'`. -/
structure Past (s s' : Input) : Prop where
  ready : s'.Ready
  size_lt : s'.size < s.size

variable {s s' s'' : Input} {t : Token} {rest : List Token}

theorem Ready.ahead (h : s.Ready) : s.Ahead s := ⟨h, Nat.le_refl _⟩

theorem Past.ahead (h : s.Past s') : s.Ahead s' := ⟨h.ready, Nat.le_of_lt h.size_lt⟩

theorem Ahead.trans (h : s.Ahead s') (h' : s'.Ahead s'') : s.Ahead s'' :=
  ⟨h'.ready, Nat.le_trans h'.size_le h.size_le⟩

theorem Past.trans_ahead (h : s.Past s') (h' : s'.Ahead s'') : s.Past s'' :=
  ⟨h'.ready, Nat.lt_of_le_of_lt h'.size_le h.size_lt⟩

theorem Ahead.trans_past (h : s.Ahead s') (h' : s'.Past s'') : s.Past s'' :=
  ⟨h'.ready, Nat.lt_of_lt_of_le h'.size_lt h.size_le⟩

/-- Behind the last token there is only the end of the file. -/
theorem Ready.lt_length (h : s.Ready) {n : Nat} (hn : s.kindAt n ≠ .endOfFile) :
    n < s.pending.length := by
  refine Nat.lt_of_not_le fun hge => hn ?_
  rw [kindAt, nth, List.getD_eq_default _ _ hge]
  exact h.kind_endOfFile

theorem Ready.exists_pending (h : s.Ready) (hkind : s.kind ≠ .endOfFile) :
    ∃ t rest, s.pending = t :: rest := by
  have hlt := h.lt_length (n := 0) hkind
  cases hpending : s.pending with
  | nil =>
    rw [hpending] at hlt
    cases hlt
  | cons t rest => exact ⟨t, rest, rfl⟩

/-- Behind a token that was taken there is less left. -/
theorem Ready.past_of_pending (h : s.Ready) (hs : s.pending = t :: rest) (offset : Nat) :
    s.Past ⟨offset, rest, s.endOfFile⟩ := by
  have hpos : 0 < t.len := h.len_pos t (by rw [hs]; exact List.mem_cons_self)
  refine ⟨⟨fun u hu => h.len_pos u ?_, h.kind_endOfFile⟩, ?_⟩
  · rw [hs]
    exact List.mem_cons_of_mem t hu
  · show total Token.len rest < total Token.len s.pending
    rw [hs, total]
    omega

/-- Cutting an operator in two leaves as many bytes, in tokens that have a text. -/
theorem Ready.splitRightAngle (h : s.Ready) : s.Ahead s.splitRightAngle := by
  unfold Input.splitRightAngle
  split
  · exact h.ahead
  · next t rest hs =>
    split
    · next c cs htext =>
      split
      · have hlen : t.len = 1 + (String.ofList (c :: cs)).utf8ByteSize := by
          rw [Token.len, ← String.ofList_toList (s := t.text), htext, String.utf8ByteSize_ofList,
            String.utf8ByteSize_ofList, String.utf8Len_cons]
          exact Nat.add_comm _ 1
        have htail : 0 < (String.ofList (c :: cs)).utf8ByteSize := by
          rw [String.utf8ByteSize_ofList, String.utf8Len_cons]
          have hpos := c.utf8Size_pos
          omega
        refine ⟨⟨?_, h.kind_endOfFile⟩, ?_⟩
        · intro u hu
          rcases List.mem_cons.mp hu with rfl | hu
          · exact Nat.one_pos
          rcases List.mem_cons.mp hu with rfl | hu
          · exact htail
          · exact h.len_pos u (by rw [hs]; exact List.mem_cons_of_mem t hu)
        · show total Token.len (_ :: _ :: rest) ≤ total Token.len s.pending
          rw [hs, total, total, total, hlen, ← Nat.add_assoc]
          exact Nat.le_refl _
      · exact h.ahead
    · exact h.ahead

end Input

namespace Grammar

/-! ### Runs and what holds behind them -/

/-- Where the grammar answers, `Q` holds of what is left; where it does not, it has a cause. -/
def Meets (g : Grammar) (s : Input) (Q : Input → Prop) : Prop :=
  match g.run s with
  | .error e => e.IsGenuine
  | .ok (_, s') => Q s'

/-- The grammar takes at least one token, or rejects the input. -/
def Reads (g : Grammar) (s : Input) : Prop := g.Meets s s.Past

/-- The grammar takes tokens or none, or rejects the input. -/
def Keeps (g : Grammar) (s : Input) : Prop := g.Meets s s.Ahead

variable {g h : Grammar} {k : List Element → Grammar} {s : Input} {Q R : Input → Prop}
  {es : List Element}

theorem Meets.mono (hg : g.Meets s Q) (hQ : ∀ s', Q s' → R s') : g.Meets s R := by
  unfold Meets at hg ⊢
  split at hg
  · exact hg
  · exact hQ _ hg

theorem meets_emit (hs : Q s) : (emit es).Meets s Q := hs

theorem meets_fail {e : Input → ParseError} (he : (e s).IsGenuine) : (fail e).Meets s Q := he

theorem isGenuine_expected {what : String} (hwhat : what ≠ "token") :
    (s.expected what).IsGenuine := by
  refine ⟨?_, ?_⟩
  · rintro ⟨⟩
  · intro found heq
    injection heq with hword
    exact hwhat hword

theorem meets_expected {what : String} (hwhat : what ≠ "token") :
    (expected what).Meets s Q :=
  meets_fail (isGenuine_expected hwhat)

theorem meets_peek {f : Input → Grammar} (hf : (f s).Meets s Q) : (peek f).Meets s Q := hf

theorem Meets.capture (hg : g.Meets s R) (hk : ∀ es s', R s' → (k es).Meets s' Q) :
    (capture g k).Meets s Q := by
  unfold Meets at hg
  unfold Meets Grammar.capture
  cases hrun : g.run s with
  | error e =>
    rw [hrun] at hg
    simpa only [hrun] using hg
  | ok p =>
    rw [hrun] at hg
    have hrest := hk p.1 p.2 hg
    unfold Meets at hrest
    simpa only [hrun] using hrest

theorem Meets.append (hg : g.Meets s R) (hh : ∀ s', R s' → h.Meets s' Q) :
    (g ++ h).Meets s Q := by
  show (Grammar.append g h).Meets s Q
  unfold Meets at hg
  unfold Meets Grammar.append
  cases hrun : g.run s with
  | error e =>
    rw [hrun] at hg
    simpa only [hrun] using hg
  | ok p =>
    rw [hrun] at hg
    have hrest := hh p.2 hg
    unfold Meets at hrest
    cases hrun' : h.run p.2 with
    | error e =>
      rw [hrun'] at hrest
      simpa only [hrun, hrun'] using hrest
    | ok q =>
      rw [hrun'] at hrest
      simpa only [hrun, hrun'] using hrest

theorem Meets.node {kind : SyntaxKind} (hg : g.Meets s Q) : (node kind g).Meets s Q :=
  hg.capture fun _ _ hs' => meets_emit hs'

theorem Meets.ite {p : Prop} [Decidable p] (hg : p → g.Meets s Q) (hh : ¬ p → h.Meets s Q) :
    (if p then g else h).Meets s Q := by
  split
  · next hp => exact hg hp
  · next hp => exact hh hp

/-! ### Taking tokens -/

theorem Reads.keeps (hg : g.Reads s) : g.Keeps s := hg.mono fun _ hs' => hs'.ahead

theorem Reads.node {kind : SyntaxKind} (hg : g.Reads s) : (Grammar.node kind g).Reads s :=
  Meets.node hg

/-- What follows a token that was taken need not take one. -/
theorem Reads.append (hg : g.Reads s) (hh : ∀ s', s.Past s' → h.Keeps s') : (g ++ h).Reads s :=
  Meets.append hg fun s' hs' => (hh s' hs').mono fun _ hs'' => hs'.trans_ahead hs''

theorem Keeps.append (hg : g.Keeps s) (hh : ∀ s', s.Ahead s' → h.Keeps s') : (g ++ h).Keeps s :=
  Meets.append hg fun s' hs' => (hh s' hs').mono fun _ hs'' => hs'.trans hs''

theorem Keeps.append_reads (hg : g.Keeps s) (hh : ∀ s', s.Ahead s' → h.Reads s') :
    (g ++ h).Reads s :=
  Meets.append hg fun s' hs' => (hh s' hs').mono fun _ hs'' => hs'.trans_past hs''

theorem Reads.capture (hg : g.Reads s) (hk : ∀ es s', s.Past s' → (k es).Keeps s') :
    (Grammar.capture g k).Reads s :=
  Meets.capture hg fun es s' hs' => (hk es s' hs').mono fun _ hs'' => hs'.trans_ahead hs''

theorem Keeps.capture_reads (hg : g.Keeps s) (hk : ∀ es s', s.Ahead s' → (k es).Reads s') :
    (Grammar.capture g k).Reads s :=
  Meets.capture hg fun es s' hs' => (hk es s' hs').mono fun _ hs'' => hs'.trans_past hs''

theorem Keeps.capture (hg : g.Keeps s) (hk : ∀ es s', s.Ahead s' → (k es).Keeps s') :
    (Grammar.capture g k).Keeps s :=
  Meets.capture hg fun es s' hs' => (hk es s' hs').mono fun _ hs'' => hs'.trans hs''

theorem keeps_emit (hs : s.Ready) : (emit es).Keeps s := meets_emit hs.ahead

theorem keeps_nothing (hs : s.Ready) : nothing.Keeps s := keeps_emit hs

/-- Elements that were read before stand in front. -/
theorem reads_emit_append (hg : g.Reads s) : (emit es ++ g).Reads s :=
  Meets.append (R := (· = s)) (meets_emit rfl) fun _ hs' => hs' ▸ hg

theorem keeps_emit_append (hg : g.Keeps s) : (emit es ++ g).Keeps s :=
  Meets.append (R := (· = s)) (meets_emit rfl) fun _ hs' => hs' ▸ hg

theorem meets_takeAs {kind : SyntaxKind} {t : Token} {rest : List Token}
    (hpending : s.pending = t :: rest) (hQ : Q ⟨s.offset + t.fullLen, rest, s.endOfFile⟩) :
    (takeAs kind).Meets s Q := by
  unfold Meets takeAs
  simpa only [hpending] using hQ

theorem reads_takeAs {kind : SyntaxKind} (hs : s.Ready) (hkind : s.kind ≠ .endOfFile) :
    (takeAs kind).Reads s := by
  obtain ⟨t, rest, hpending⟩ := hs.exists_pending hkind
  exact meets_takeAs hpending (hs.past_of_pending hpending _)

theorem reads_take (hs : s.Ready) (hkind : s.kind ≠ .endOfFile) : take.Reads s :=
  meets_peek (reads_takeAs hs hkind)

theorem keeps_takeN {n : Nat} (hs : s.Ready) (hn : n ≤ s.pending.length) : (takeN n).Keeps s := by
  induction n generalizing s with
  | zero => exact keeps_nothing hs
  | succ n ih =>
    obtain ⟨t, rest, hpending⟩ := List.exists_cons_of_length_pos (Nat.zero_lt_of_lt hn)
    rw [hpending, List.length_cons] at hn
    have hpast := hs.past_of_pending hpending (s.offset + t.fullLen)
    refine Meets.append (R := (· = _)) (meets_takeAs hpending rfl) ?_
    rintro s' rfl
    exact (ih hpast.ready (Nat.le_of_succ_le_succ hn)).mono fun _ hs'' => hpast.ahead.trans hs''

/-- As many tokens can be taken as are there. -/
theorem reads_takeN {n : Nat} (hs : s.Ready) (hpos : 0 < n) (hn : n ≤ s.pending.length) :
    (takeN n).Reads s := by
  obtain ⟨n, rfl⟩ := Nat.exists_eq_succ_of_ne_zero (Nat.ne_of_gt hpos)
  obtain ⟨t, rest, hpending⟩ := List.exists_cons_of_length_pos (Nat.zero_lt_of_lt hn)
  rw [hpending, List.length_cons] at hn
  have hpast := hs.past_of_pending hpending (s.offset + t.fullLen)
  refine Meets.append (R := (· = _)) (meets_takeAs hpending rfl) ?_
  rintro s' rfl
  exact (keeps_takeN hpast.ready (Nat.le_of_succ_le_succ hn)).mono fun _ hs'' =>
    hpast.trans_ahead hs''

theorem keeps_splitRightAngle (hs : s.Ready) : splitRightAngle.Keeps s :=
  hs.splitRightAngle

theorem ne_endOfFile_of_isAt {kind : SyntaxKind} (hkind : kind ≠ .endOfFile)
    (hat : s.isAt kind = true) : s.kind ≠ .endOfFile := by
  rw [eq_of_beq hat]
  exact hkind

theorem ne_endOfFile_of_isAtAny {kinds : List SyntaxKind}
    (hkinds : SyntaxKind.endOfFile ∉ kinds) (hat : s.isAtAny kinds = true) :
    s.kind ≠ .endOfFile := by
  intro hend
  refine hkinds ?_
  rw [← hend]
  simpa [Input.isAtAny] using hat

theorem reads_expect (kind : SyntaxKind) (what : String) (hs : s.Ready)
    (hkind : kind ≠ .endOfFile) (hwhat : what ≠ "token") :
    (expect kind what).Reads s :=
  meets_peek (Meets.ite (fun hat => reads_take hs (ne_endOfFile_of_isAt hkind hat))
    fun _ => meets_expected hwhat)

/-! ### Choices -/

theorem keeps_onlyIf {p : Input → Bool} (hs : s.Ready) (hg : p s = true → g.Keeps s) :
    (onlyIf p g).Keeps s :=
  meets_peek (Meets.ite hg fun _ => keeps_nothing hs)

theorem keeps_whenAt {k : SyntaxKind} (hs : s.Ready) (hg : s.isAt k = true → g.Keeps s) :
    (whenAt k g).Keeps s :=
  keeps_onlyIf hs hg

theorem keeps_whenAtAny {kinds : List SyntaxKind} (hs : s.Ready)
    (hg : s.isAtAny kinds = true → g.Keeps s) : (whenAtAny kinds g).Keeps s :=
  keeps_onlyIf hs hg

theorem keeps_eat (kind : SyntaxKind) (hs : s.Ready) (hkind : kind ≠ .endOfFile) :
    (eat kind).Keeps s :=
  keeps_whenAt hs fun hat => (reads_take hs (ne_endOfFile_of_isAt hkind hat)).keeps

/-! ### Loops -/

/-- A loop that takes a token at every turn ends where there is no further turn, before its bound
is reached. -/
theorem meets_repeated {next : Input → Option Grammar} {bound : Nat} (hs : s.Ready)
    (hbound : s.size < bound)
    (hnext : ∀ s', s.Ahead s' → ∀ g, next s' = some g → g.Reads s') :
    (repeated next bound).Meets s fun s' => s.Ahead s' ∧ next s' = none := by
  induction bound generalizing s with
  | zero => omega
  | succ bound ih =>
    refine meets_peek ?_
    cases hturn : next s with
    | none => exact meets_emit ⟨hs.ahead, hturn⟩
    | some g =>
      refine Meets.append (hnext s hs.ahead g hturn) fun s' hs' => ?_
      have hless := hs'.size_lt
      refine (ih hs'.ready (by omega) fun s'' hs'' => hnext s'' (hs'.ahead.trans hs'')).mono ?_
      exact fun s'' hs'' => ⟨hs'.ahead.trans hs''.1, hs''.2⟩

theorem keeps_repeated {next : Input → Option Grammar} {bound : Nat} (hs : s.Ready)
    (hbound : s.size < bound)
    (hnext : ∀ s', s.Ahead s' → ∀ g, next s' = some g → g.Reads s') :
    (repeated next bound).Keeps s :=
  (meets_repeated hs hbound hnext).mono fun _ hs' => hs'.1

section

variable {kind : SyntaxKind} {stop : Input → Bool} {item first : Grammar} {bound : Nat}

/-- What follows an item of a list takes a comma before it goes on. -/
theorem keeps_behindItem (hs : s.Ready)
    (hrest : ∀ s', s.Past s' → (commaList kind stop item bound item).Keeps s') :
    (peek fun s =>
      if s.isAt .comma then
        node kind (emit es ++ take) ++
          peek fun s' => if stop s' then nothing else commaList kind stop item bound item
      else node kind (emit es)).Keeps s := by
  refine meets_peek (Meets.ite ?_ fun _ => Meets.node (keeps_emit hs))
  intro hat
  have htake : (emit es ++ take).Reads s :=
    reads_emit_append (reads_take hs (ne_endOfFile_of_isAt (by decide) hat))
  refine (Reads.append htake.node fun s' hs' => meets_peek (Meets.ite ?_ ?_)).keeps
  · exact fun _ => keeps_nothing hs'.ready
  · exact fun _ => hrest s' hs'

theorem keeps_commaList (hfirst : first.Keeps s) (hs : s.Ready) (hbound : s.size < bound)
    (hitem : ∀ s', s.Past s' → item.Keeps s') :
    (commaList kind stop item bound first).Keeps s := by
  induction bound generalizing s first with
  | zero => omega
  | succ bound ih =>
    refine Keeps.capture hfirst fun es s' hs' => keeps_behindItem hs'.ready fun s'' hs'' => ?_
    have hpast := hs'.trans_past hs''
    have hless := hpast.size_lt
    exact ih (hitem s'' hpast) hs''.ready (by omega) fun t ht => hitem t (hpast.trans_ahead ht.ahead)

theorem reads_commaList (hfirst : first.Reads s) (hbound : s.size < bound)
    (hitem : ∀ s', s.Past s' → item.Keeps s') :
    (commaList kind stop item bound first).Reads s := by
  cases bound with
  | zero => omega
  | succ bound =>
    refine Reads.capture hfirst fun es s' hs' => keeps_behindItem hs'.ready fun s'' hs'' => ?_
    have hpast := hs'.trans_ahead hs''.ahead
    have hless := hpast.size_lt
    exact keeps_commaList (hitem s'' hpast) hs''.ready (by omega)
      fun t ht => hitem t (hpast.trans_ahead ht.ahead)

theorem reads_commaSeparated (hitem : ∀ s', s.Ahead s' → item.Reads s') (hs : s.Ready)
    (hbound : s.size < bound) : (commaSeparated kind bound item).Reads s :=
  reads_commaList (hitem s hs.ahead) hbound fun s' hs' => (hitem s' hs'.ahead).keeps

theorem keeps_commaSeparatedUntil {close : SyntaxKind} (hitem : ∀ s', s.Ahead s' → item.Keeps s')
    (hs : s.Ready) (hbound : s.size < bound) :
    (commaSeparatedUntil close kind bound item).Keeps s :=
  keeps_onlyIf hs fun _ =>
    keeps_commaList (hitem s hs.ahead) hs hbound fun s' hs' => hitem s' hs'.ahead

end

/-- Suffixes take a token each. -/
theorem keeps_suffixes {next : Input → Element → Option (SyntaxKind × Grammar)} {bound : Nat}
    (hs : s.Ready) (hbound : s.size < bound) {e : Element}
    (hnext : ∀ s', s.Ahead s' → ∀ e p, next s' e = some p → p.2.Reads s') :
    (suffixes next bound e).Keeps s := by
  induction bound generalizing s e with
  | zero => omega
  | succ bound ih =>
    refine meets_peek ?_
    cases hturn : next s e with
    | none => exact keeps_emit hs
    | some p =>
      refine (Reads.capture (hnext s hs.ahead e p hturn) fun es s' hs' => ?_).keeps
      have hless := hs'.size_lt
      exact ih hs'.ready (by omega) fun s'' hs'' => hnext s'' (hs'.ahead.trans hs'')

theorem reads_withSuffixes {next : Input → Element → Option (SyntaxKind × Grammar)} {bound : Nat}
    (hg : g.Reads s) (hbound : s.size ≤ bound)
    (hnext : ∀ s', s.Past s' → ∀ e p, next s' e = some p → p.2.Reads s') :
    (withSuffixes g bound next).Reads s := by
  refine Reads.capture hg fun es s' hs' => ?_
  have hless := hs'.size_lt
  split
  · exact keeps_suffixes hs'.ready (by omega) fun s'' hs'' => hnext s'' (hs'.trans_ahead hs'')
  · exact keeps_emit hs'.ready

theorem reads_nodeUnlessSingle {kind : SyntaxKind} (hg : g.Reads s) :
    (nodeUnlessSingle kind g).Reads s := by
  refine Reads.capture hg fun es s' hs' => ?_
  split
  · exact keeps_emit hs'.ready
  · exact keeps_emit hs'.ready

end Grammar

end SwiftTidy
