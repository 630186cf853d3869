import SwiftTidy.Proofs.Parse.Loosening

/-!
# Reading the same in front of colons

Two inputs differ by operators that have loosened in front of colons.  A grammar `Retains` what it builds
from the one when it reads it from the other too, and leaves an input that is related to the one left
there.

An operator that may loosen is read only where it opens or closes a list of generic arguments or
parameters.  An expression would go on with it and want an operand, which no colon is.  So a grammar is
asked nothing where it leaves one of the inputs `B`: `Never` for what ends with tokens of its own,
`Input.MayLoosen` for expressions, `Input.IsAstray` for statements.

Tokens that a node holds as they come are read with the kinds that they have (`SyntaxKind.holdsTokens`).
Among them no colon starts at a byte of `M` (`Element.Clears`).
-/

namespace SwiftTidy

open Grammar

/-! ### Runs of tokens -/

/-- The kinds of nodes that hold tokens as they come. -/
def SyntaxKind.holdsTokens (k : SyntaxKind) : Bool := k == .attributeUse || k == .closureSignature

namespace Element

/-- No colon among the elements, the first of which starts at byte `o`, starts at a byte of `M`. -/
def Spares (M : Nat → Prop) (o : Nat) (es : List Element) : Prop :=
  ∀ front c back, es = front ++ .token c :: back → c.kind = .colon → ¬ M (o + fullLenAll front)

mutual
/-- Where tokens are held as they come, no colon starts at a byte of `M`. -/
def Clears (M : Nat → Prop) : (o : Nat) → Element → Prop
  | _, .token _ => True
  | o, .node k es => (k.holdsTokens = true → Spares M o es) ∧ ClearsAll M o es
/-- Where tokens are held as they come below the elements, no colon starts at a byte of `M`. -/
def ClearsAll (M : Nat → Prop) : (o : Nat) → List Element → Prop
  | _, [] => True
  | o, e :: es => Clears M o e ∧ ClearsAll M (o + e.fullLen) es
end

variable {M : Nat → Prop} {o : Nat} {es fs : List Element} {k : SyntaxKind}

theorem clearsAll_append :
    ClearsAll M o (es ++ fs) ↔ ClearsAll M o es ∧ ClearsAll M (o + fullLenAll es) fs := by
  induction es generalizing o with
  | nil => simp [ClearsAll, fullLenAll]
  | cons e es ih => rw [List.cons_append, ClearsAll, ClearsAll, ih, fullLenAll, ← Nat.add_assoc, and_assoc]

theorem ClearsAll.of_node (h : ClearsAll M o [.node k es]) : ClearsAll M o es := by
  rw [ClearsAll, Clears] at h
  exact h.1.2

theorem ClearsAll.spares (h : ClearsAll M o [.node k es]) (hk : k.holdsTokens = true) : Spares M o es := by
  rw [ClearsAll, Clears] at h
  exact h.1.1 hk

end Element

namespace Grammar

open Element

/-- What `g` builds from `s`, the first of it at byte `o`, it builds from `u` too, and leaves an input that
`R` relates to the one left of `s`, unless that is one of `B`. -/
def Retains (M : Nat → Prop) (R : Input → Input → Prop) (B : Input → Prop) (o : Nat) (s u : Input)
    (g : Grammar) : Prop :=
  ∀ es t, g.run s = .ok (es, t) → ClearsAll M o es → ¬ B t →
    ∃ v, g.run u = .ok (es, v) ∧ R t v ∧ t.offset = o + fullLenAll es

/-- No input. -/
def Never : Input → Prop := fun _ => False

/-- The grammar reads nothing here, if it answers at all. -/
def Idle (g : Grammar) (s : Input) : Prop := ∀ es t, g.run s = .ok (es, t) → t = s

/-- Related inputs differ by operators that loosen, and the ones behind the next token are related too. -/
structure ReadsOn (M : Nat → Prop) (R : Input → Input → Prop) : Prop where
  loosens : ∀ {s u}, R s u → s.Loosens M u
  behind : ∀ {s u}, R s u → ¬ s.MayLoosen M → R s.behind u.behind

variable {M : Nat → Prop} {R : Input → Input → Prop} {B B' : Input → Prop} {o : Nat} {s t u v : Input}
  {g h : Grammar} {es fs : List Element} {k : SyntaxKind}

/-! ### Grammars that read nothing -/

theorem Rejects.idle (hg : g.Rejects s) : g.Idle s := fun es t hrun => absurd hrun (hg es t)

theorem idle_emit (es : List Element) : (emit es).Idle s := by
  intro fs t hrun
  cases hrun
  rfl

theorem idle_peek {f : Input → Grammar} (hf : (f s).Idle s) : (peek f).Idle s := hf

theorem idle_onlyIf {test : Input → Bool} (htest : test s = false) : (onlyIf test g).Idle s := by
  intro es t hrun
  rw [run_onlyIf_eq htest] at hrun
  cases hrun
  rfl

theorem Idle.append (hg : g.Idle s) (hh : h.Idle s) : (g ++ h).Idle s := by
  intro es t hrun
  obtain ⟨fs, gs, w, hfs, hgs, -⟩ := run_append hrun
  obtain rfl := hg fs w hfs
  exact hh gs t hgs

theorem Idle.append_rejects (hg : g.Idle s) (hh : h.Rejects s) : (g ++ h).Rejects s := by
  intro es t hrun
  obtain ⟨fs, gs, w, hfs, hgs, -⟩ := run_append hrun
  obtain rfl := hg fs w hfs
  exact hh gs t hgs

theorem idle_repeated {next : Input → Option Grammar} {bound : Nat}
    (hnext : ∀ g, next s = some g → g.Rejects s) : (repeated next bound).Idle s := by
  cases bound with
  | zero => exact (rejects_fail _).idle
  | succ bound =>
    refine idle_peek ?_
    cases hturn : next s with
    | none => exact idle_emit []
    | some g => exact (hnext g hturn).append.idle

/-- No item is read where the first was read before and no comma follows. -/
theorem idle_commaList {stop : Input → Bool} {item first : Grammar} {bound : Nat} (hfirst : first.Idle s)
    (hcomma : s.isAt .comma = false) : (commaList k stop item bound first).Idle s := by
  cases bound with
  | zero => exact (rejects_fail _).idle
  | succ bound =>
    intro es t hrun
    obtain ⟨fs, w, hfs, hrest⟩ := run_capture hrun
    obtain rfl := hfirst fs w hfs
    unfold peek at hrest
    dsimp only at hrest
    rw [hcomma] at hrest
    cases hrest
    rfl

theorem rejects_commaSeparated {item : Grammar} {bound : Nat} (hitem : item.Rejects s) :
    (commaSeparated k bound item).Rejects s := by
  cases bound with
  | zero => exact rejects_fail _
  | succ bound => exact hitem.capture

/-! ### Basic steps -/

theorem Rejects.retains (hg : g.Rejects s) : Retains M R B o s u g :=
  fun es t hrun => absurd hrun (hg es t)

theorem Retains.mono (hg : Retains M R B' o s u g) (hB : ∀ t, B' t → B t) : Retains M R B o s u g :=
  fun es t hrun hclears hend => hg es t hrun hclears (mt (hB t) hend)

/-- Where the grammar ends it may end. -/
theorem Retains.of_ends (hg : Retains M R B' o s u g) (hend : ∀ es t, g.run s = .ok (es, t) → ¬ B' t) :
    Retains M R B o s u g :=
  fun es t hrun hclears _ => hg es t hrun hclears (hend es t hrun)

theorem Retains.anywhere (hg : Retains M R Never o s u g) : Retains M R B o s u g :=
  hg.of_ends fun _ _ _ => id

/-- What is asked nothing at an operator that may loosen can be asked nothing at a colon either. -/
theorem Retains.settled (hg : Retains M R (·.MayLoosen M) o s u g) : Retains M R (·.IsAstray M) o s u g :=
  hg.mono fun _ => .inl

theorem retains_emit (hR : R s u) (ho : s.offset = o + fullLenAll es) : Retains M R B o s u (emit es) := by
  intro fs t hrun _ _
  cases hrun
  exact ⟨u, rfl, hR, ho⟩

theorem retains_nothing (hR : R s u) : Retains M R B s.offset s u nothing := retains_emit hR rfl

theorem retains_peek {f : Input → Grammar} (hf : f u = f s) (h : Retains M R B o s u (f s)) :
    Retains M R B o s u (peek f) := by
  intro es t hrun hclears hend
  obtain ⟨v, hv, hrest⟩ := h es t hrun hclears hend
  exact ⟨v, by rw [← hf] at hv; exact hv, hrest⟩

theorem Retains.ite {p : Prop} [Decidable p] (hg : p → Retains M R B o s u g)
    (hh : ¬ p → Retains M R B o s u h) : Retains M R B o s u (if p then g else h) := by
  split
  · next hcase => exact hg hcase
  · next hcase => exact hh hcase

/-- A test that comes out the same chooses alike. -/
theorem retains_test {test : Input → Bool} {f f' : Input → Grammar} (htest : test u = test s)
    (hg : test s = true → Retains M R B o s u (peek f))
    (hh : test s = false → Retains M R B o s u (peek f')) :
    Retains M R B o s u (peek fun s => if test s then f s else f' s) := by
  intro es t hrun hclears hend
  unfold peek at hrun ⊢
  dsimp only at hrun ⊢
  rw [htest]
  cases hcase : test s with
  | true =>
    rw [hcase] at hrun
    exact hg hcase es t hrun hclears hend
  | false =>
    rw [hcase] at hrun
    exact hh hcase es t hrun hclears hend

theorem retains_onlyIf {test : Input → Bool} (hR : R s u) (htest : test u = test s)
    (hg : test s = true → Retains M R B s.offset s u g) : Retains M R B s.offset s u (onlyIf test g) :=
  retains_test htest hg fun _ => retains_nothing hR

/-! ### One after another -/

theorem Retains.append_of (hg : Retains M R B' o s u g)
    (hend : ∀ t gs w, h.run t = .ok (gs, w) → ¬ B w → ¬ B' t)
    (hh : ∀ t v, R t v → Retains M R B t.offset t v h) : Retains M R B o s u (g ++ h) := by
  intro es t hrun hclears hB
  obtain ⟨fs, gs, w, hfs, hgs, rfl⟩ := run_append hrun
  rw [clearsAll_append] at hclears
  obtain ⟨v, hv, hR, hoffset⟩ := hg fs w hfs hclears.1 (hend w gs t hgs hB)
  rw [← hoffset] at hclears
  obtain ⟨v', hv', hR', hoffset'⟩ := hh w v hR gs t hgs hclears.2 hB
  exact ⟨v', run_append_eq hv hv', hR', by rw [hoffset', hoffset, fullLenAll_append, Nat.add_assoc]⟩

/-- What may end anywhere comes first. -/
theorem Retains.append (hg : Retains M R Never o s u g) (hh : ∀ t v, R t v → Retains M R B t.offset t v h) :
    Retains M R B o s u (g ++ h) :=
  hg.append_of (fun _ _ _ _ _ => id) hh

/-- Where the first part may not end, the second one does not go on. -/
theorem Retains.append_due (hg : Retains M R B' o s u g) (hdue : ∀ t, B' t → h.Rejects t)
    (hh : ∀ t v, R t v → Retains M R B t.offset t v h) : Retains M R B o s u (g ++ h) :=
  hg.append_of (fun t gs w hgs _ ht => hdue t ht gs w hgs) hh

/-- Where the first part may not end, the second one reads nothing, and may not end either. -/
theorem Retains.append_idle (hg : Retains M R B o s u g) (hidle : ∀ t, B t → h.Idle t)
    (hh : ∀ t v, R t v → Retains M R B t.offset t v h) : Retains M R B o s u (g ++ h) := by
  refine hg.append_of (fun t gs w hgs hw ht => hw ?_) hh
  rw [hidle t ht gs w hgs]
  exact ht

theorem Retains.emit_append {o' : Nat} (ho : o' = o + fullLenAll es) (hg : Retains M R B o' s u g) :
    Retains M R B o s u (emit es ++ g) := by
  intro fs t hrun hclears hB
  obtain ⟨gs, hgs, rfl⟩ := run_emit_append hrun
  rw [clearsAll_append, ← ho] at hclears
  obtain ⟨v, hv, hR, hoffset⟩ := hg gs t hgs hclears.2 hB
  refine ⟨v, run_append_eq (show (emit es).run u = .ok (es, u) from rfl) hv, hR, ?_⟩
  rw [hoffset, ho, fullLenAll_append, Nat.add_assoc]

theorem Retains.node (hg : Retains M R B o s u g) : Retains M R B o s u (Grammar.node k g) := by
  intro es t hrun hclears hB
  obtain ⟨fs, w, hfs, hemit⟩ := run_capture hrun
  cases hemit
  obtain ⟨v, hv, hR, hoffset⟩ := hg fs t hfs hclears.of_node hB
  refine ⟨v, run_capture_eq hv rfl, hR, ?_⟩
  rw [hoffset, fullLenAll, fullLen, fullLenAll, Nat.add_zero]

/-- What is captured is placed behind what is held already. -/
theorem Retains.capture_of {k : List Element → Grammar} (front : List Element) {o' : Nat}
    (ho : o' = o + fullLenAll front) (hg : Retains M R B' o' s u g)
    (hplaced : ∀ es, Assembled (front ++ es) (k es))
    (hend : ∀ es t fs w, (k es).run t = .ok (fs, w) → ¬ B w → ¬ B' t)
    (hk : ∀ es t v, R t v → t.offset = o' + fullLenAll es → Retains M R B o t v (k es)) :
    Retains M R B o s u (Grammar.capture g k) := by
  intro es t hrun hclears hB
  obtain ⟨fs, w, hfs, hes⟩ := run_capture hrun
  have hheld : ClearsAll M o (front ++ fs) :=
    (hplaced fs).of_held (fun _ => trivial) (fun _ _ _ => clearsAll_append) (fun _ _ _ => ClearsAll.of_node)
      hes hclears
  have hheld := (clearsAll_append.mp hheld).2
  rw [← ho] at hheld
  obtain ⟨v, hv, hR, hoffset⟩ := hg fs w hfs hheld (hend fs w es t hes hB)
  obtain ⟨v', hv', hrest⟩ := hk fs w v hR hoffset es t hes hclears hB
  exact ⟨v', run_capture_eq hv hv', hrest⟩

/-- What is captured is placed first. -/
theorem Retains.capture {k : List Element → Grammar} (hg : Retains M R B' o s u g)
    (hplaced : ∀ es, Assembled es (k es))
    (hend : ∀ es t fs w, (k es).run t = .ok (fs, w) → ¬ B w → ¬ B' t)
    (hk : ∀ es t v, R t v → t.offset = o + fullLenAll es → Retains M R B o t v (k es)) :
    Retains M R B o s u (Grammar.capture g k) :=
  hg.capture_of [] rfl hplaced hend hk

theorem retains_nodeUnlessSingle (hk : k.isNode = true) (hg : Retains M R B o s u g) :
    Retains M R B o s u (nodeUnlessSingle k g) := by
  refine hg.capture (fun es => ?_) (fun es t fs w hrun hB ht => hB ?_) fun es t v hR ho => ?_
  · split
    · exact .emit _
    · exact .wrap k hk (.emit _)
  · split at hrun <;>
      · cases hrun
        exact ht
  · split
    · exact retains_emit hR ho
    · exact (retains_emit hR ho).node

/-! ### Loops -/

/-- A loop that takes the same turns.  It goes on, or ends, wherever a turn may end. -/
theorem retains_repeated {next : Input → Option Grammar} {bound : Nat} (hR : R s u)
    (hstop : ∀ t v, R t v → ¬ B t → next t = none → next v = none)
    (hend : ∀ t, B t → ∀ g, next t = some g → g.Rejects t)
    (hturn : ∀ t v, R t v → ∀ g, next t = some g →
      g.Rejects t ∨ next v = some g ∧ Retains M R B t.offset t v g) :
    Retains M R B s.offset s u (repeated next bound) := by
  induction bound generalizing s u with
  | zero => exact (rejects_fail _).retains
  | succ bound ih =>
    intro es t hrun hclears hB
    unfold repeated at hrun ⊢
    unfold peek at hrun ⊢
    dsimp only at hrun ⊢
    cases hnext : next s with
    | none =>
      rw [hnext] at hrun
      cases hrun
      rw [hstop s u hR hB hnext]
      exact ⟨u, rfl, hR, rfl⟩
    | some g =>
      rw [hnext] at hrun
      -- behind a turn the loop goes on, or ends where a turn may end
      rcases hturn s u hR g hnext with hrejects | ⟨hnext', hg⟩
      · exact absurd hrun (hrejects.append es t)
      · rw [hnext']
        exact hg.append_idle (fun t ht => idle_repeated (hend t ht)) (fun t v hR => ih hR) es t hrun
          hclears hB

/-- A loop that takes the same turns, each of which may end anywhere. -/
theorem retains_repeated_congr {next : Input → Option Grammar} {bound : Nat} (hR : R s u)
    (hnext : ∀ t v, R t v → next v = next t)
    (hturn : ∀ t v, R t v → ∀ g, next t = some g → Retains M R Never t.offset t v g) :
    Retains M R B s.offset s u (repeated next bound) := by
  refine (retains_repeated hR (fun t v hR _ hnone => (hnext t v hR).trans hnone) (fun _ => False.elim)
    fun t v hR g hsome => .inr ⟨(hnext t v hR).trans hsome, hturn t v hR g hsome⟩).anywhere

theorem retains_suffixes {next : Input → Element → Option (SyntaxKind × Grammar)} {bound : Nat} {e : Element}
    (hnodes : ∀ s e, ∀ p ∈ next s e, p.1.isNode = true ∧ Assembled [] p.2)
    (hstop : ∀ t v e, R t v → ¬ B t → next t e = none → next v e = none)
    (hnext : ∀ t v e p, R t v → next t e = some p → next v e = some p ∧ Retains M R Never t.offset t v p.2)
    (hR : R s u) (ho : s.offset = o + e.fullLen) : Retains M R B o s u (suffixes next bound e) := by
  induction bound generalizing e s u with
  | zero => exact (rejects_fail _).retains
  | succ bound ih =>
    intro es t hrun hclears hB
    unfold suffixes at hrun ⊢
    unfold peek at hrun ⊢
    dsimp only at hrun ⊢
    cases hleft : next s e with
    | none =>
      rw [hleft] at hrun
      cases hrun
      rw [hstop s u e hR hB hleft]
      exact ⟨u, rfl, hR, by rw [ho, fullLenAll_single]⟩
    | some p =>
      rw [hleft] at hrun
      obtain ⟨hright, hg⟩ := hnext s u e p hR hleft
      rw [hright]
      have hnode := hnodes s e p hleft
      refine hg.capture_of [e] (o := o) (by rw [ho, fullLenAll_single])
        (fun es => .wrap _ hnode.1 (.suffixes hnodes bound _)) (fun _ _ _ _ _ _ => id)
        (fun es t v hR ho' => ?_) es t hrun hclears hB
      refine ih hR ?_
      rw [ho', ho, Nat.add_assoc]
      rfl

theorem retains_withSuffixes {next : Input → Element → Option (SyntaxKind × Grammar)} {bound : Nat}
    (hnodes : ∀ s e, ∀ p ∈ next s e, p.1.isNode = true ∧ Assembled [] p.2)
    (hstop : ∀ t v e, R t v → ¬ B t → next t e = none → next v e = none)
    (hend : ∀ t e, B t → next t e = none)
    (hnext : ∀ t v e p, R t v → next t e = some p → next v e = some p ∧ Retains M R Never t.offset t v p.2)
    (hg : Retains M R B o s u g) : Retains M R B o s u (withSuffixes g bound next) := by
  refine hg.capture (fun es => ?_) (fun es t fs w hrun hB ht => hB ?_) fun es t v hR ho => ?_
  · split
    · exact .suffixes hnodes bound _
    · exact .emit _
  · split at hrun
    · rwa [(run_suffixes_of_none (hend t _ ht) hrun).2]
    · cases hrun
      exact ht
  · split
    · refine retains_suffixes hnodes hstop hnext hR ?_
      rw [ho, fullLenAll, fullLenAll, Nat.add_zero]
    · exact retains_emit hR ho

/-! ### Tokens -/

namespace ReadsOn

theorem isAt_eq (hon : ReadsOn M R) (h : R s u) (hk : k.isOperator = false) : u.isAt k = s.isAt k :=
  (hon.loosens h).isAt_eq hk

/-- The next token is read under the same kind, if another grammar gives it one. -/
theorem takeAs_of (hR : R s.behind u.behind) (h : s.Loosens M u) (k : SyntaxKind) :
    Retains M R B s.offset s u (takeAs k) := by
  intro es t hrun _ _
  obtain ⟨a, rest, hs, rfl, rfl⟩ := run_takeAs hrun
  have hu : ∃ b us, u.pending = b :: us ∧ ({ b with kind := k } : Token) = { a with kind := k } := by
    rcases h.cases with ⟨hnil, -⟩ | ⟨a', ts, us, hs', hu, -⟩ | ⟨a', j, ts, us, hs', hu, -⟩
    · rw [hs] at hnil
      cases hnil
    · rw [hs] at hs'
      cases hs'
      exact ⟨_, _, hu, rfl⟩
    · rw [hs] at hs'
      cases hs'
      exact ⟨_, _, hu, rfl⟩
  obtain ⟨b, us, hu, hsame⟩ := hu
  rw [Input.behind_eq hs] at hR
  refine ⟨u.behind, ?_, hR, ?_⟩
  · unfold takeAs
    simp only [hu, hsame, Input.behind_eq hu]
  · simp [fullLenAll, fullLen, Token.fullLen, Token.len]

theorem take (hon : ReadsOn M R) (h : R s u) (hcalm : ¬ s.MayLoosen M) :
    Retains M R B s.offset s u Grammar.take :=
  retains_peek (congrArg takeAs ((hon.loosens h).kind_eq hcalm))
    (takeAs_of (hon.behind h hcalm) (hon.loosens h) _)

theorem take_of_isAt (hon : ReadsOn M R) (h : R s u) (hk : k.isOperator = false) (hat : s.isAt k = true) :
    Retains M R B s.offset s u Grammar.take :=
  hon.take h (Input.not_mayLoosen_of_isAt hk hat)

/-- Behind an operator that loosens there is a colon. -/
theorem take_astray (hon : ReadsOn M R) (h : R s u) :
    Retains M R (·.IsAstray M) s.offset s u Grammar.take := by
  by_cases hloose : s.MayLoosen M
  · intro es t hrun _ hend
    obtain rfl := behind_of_take hrun
    exact absurd (.inr ((s.kindAt_succ 0).symm.trans hloose.2.1)) hend
  · exact hon.take h hloose

theorem expect (hon : ReadsOn M R) (h : R s u) (hk : k.isOperator = false) (what : String) :
    Retains M R B s.offset s u (Grammar.expect k what) :=
  retains_test (hon.isAt_eq h hk) (hon.take_of_isAt h hk) fun _ => (rejects_expected what).retains

theorem whenAt (hon : ReadsOn M R) (h : R s u) (hk : k.isOperator = false)
    (hg : s.isAt k = true → Retains M R B s.offset s u g) :
    Retains M R B s.offset s u (Grammar.whenAt k g) :=
  retains_onlyIf h (hon.isAt_eq h hk) hg

theorem eat (hon : ReadsOn M R) (h : R s u) (hk : k.isOperator = false) :
    Retains M R B s.offset s u (Grammar.eat k) :=
  hon.whenAt h hk (hon.take_of_isAt h hk)

theorem takeAny (hon : ReadsOn M R) (h : R s u) {ks : List SyntaxKind}
    (hks : ∀ k ∈ ks, k.isOperator = false) :
    Retains M R B s.offset s u (whenAtAny ks Grammar.take) := by
  refine retains_onlyIf h ((hon.loosens h).isAtAny_eq hks) fun hat => hon.take h ?_
  exact Input.not_mayLoosen_of_kind (hks _ (List.contains_iff_mem.mp hat)) rfl

/-- The next token is read, and then the grammar goes on behind it. -/
theorem take_append (hon : ReadsOn M R) (h : R s u) (hcalm : ¬ s.MayLoosen M)
    (hg : R s.behind u.behind → Retains M R B s.behind.offset s.behind u.behind g) :
    Retains M R B s.offset s u (Grammar.take ++ g) := by
  intro es t hrun hclears hB
  obtain ⟨fs, gs, w, hfs, hgs, rfl⟩ := run_append hrun
  obtain rfl := behind_of_take hfs
  rw [clearsAll_append] at hclears
  obtain ⟨v, hv, hR, hoffset⟩ := hon.take (B := Never) h hcalm fs _ hfs hclears.1 id
  obtain rfl := behind_of_take hv
  rw [← hoffset] at hclears
  obtain ⟨v', hv', hR', hoffset'⟩ := hg hR gs t hgs hclears.2 hB
  exact ⟨v', run_append_eq hv hv', hR', by rw [hoffset', hoffset, fullLenAll_append, Nat.add_assoc]⟩

/-- As many tokens, none of which loosens. -/
theorem takeN (hon : ReadsOn M R) (h : R s u) {n : Nat}
    (hcalm : ∀ i < n, ¬ (Input.behind^[i] s).MayLoosen M) :
    Retains M R B s.offset s u (Grammar.takeN n) := by
  induction n generalizing s u with
  | zero => exact retains_nothing h
  | succ n ih =>
    refine hon.take_append h (hcalm 0 n.succ_pos) fun h => ih h fun i hi => ?_
    exact hcalm (i + 1) (Nat.succ_lt_succ hi)

/-- A name and the colon behind it. -/
theorem takeTwo (hon : ReadsOn M R) (h : R s u) (hfirst : s.kind.isOperator = false)
    (hsecond : (s.kindAt 1).isOperator = false) : Retains M R B s.offset s u (Grammar.takeN 2) := by
  refine hon.take_append h (Input.not_mayLoosen_of_kind hfirst rfl) fun h => ?_
  refine hon.take_append h (Input.not_mayLoosen_of_kind hsecond (s.kindAt_succ 0).symm) fun h => ?_
  exact retains_nothing h

/-! ### Lists -/

/-- Items separated by commas, each of which ends where the list may end. -/
theorem commaList (hon : ReadsOn M R) {stop : Input → Bool} {item first : Grammar} {bound : Nat}
    (hk : k.isNode = true) (hitems : Assembled [] item) (hcomma : ∀ t, t.isAt .comma = true → ¬ B t)
    (hfirst : Retains M R B o s u first) (hplaced : ∀ t v, R t v → stop v = stop t)
    (hitem : ∀ t v, R t v → Retains M R B t.offset t v item) :
    Retains M R B o s u (Grammar.commaList k stop item bound first) := by
  induction bound generalizing first o s u with
  | zero => exact (rejects_fail _).retains
  | succ bound ih =>
    refine hfirst.capture (fun es => ?_) (fun es t fs w hrun hB ht => ?_) fun es t v h ho => ?_
    · refine .peek fun s => .ite ?_ (.node hk (.emit es))
      refine .append (.node hk (.append (.emit es) .take)) (.peek fun _ => .ite .nothing ?_)
      exact .commaList hk _ hitems _ hitems
    · -- without a comma behind it the last item ends where the list ends
      by_cases hat : t.isAt .comma = true
      · exact hcomma t hat ht
      · unfold peek at hrun
        dsimp only at hrun
        rw [if_neg hat] at hrun
        cases hrun
        exact hB ht
    · refine retains_test (hon.isAt_eq h rfl) (fun hat => ?_) fun _ => (retains_emit h ho).node
      refine ((hon.take_of_isAt h rfl hat).emit_append ho).node.append fun t v h => ?_
      exact retains_test (hplaced t v h) (fun _ => retains_nothing h) fun _ => ih (hitem t v h)

theorem commaSeparated (hon : ReadsOn M R) {item : Grammar} {bound : Nat} (hk : k.isNode = true)
    (hitems : Assembled [] item) (hcomma : ∀ t, t.isAt .comma = true → ¬ B t) (h : R s u)
    (hitem : ∀ t v, R t v → Retains M R B t.offset t v item) :
    Retains M R B s.offset s u (Grammar.commaSeparated k bound item) :=
  hon.commaList hk hitems hcomma (hitem s u h) (fun _ _ _ => rfl) hitem

theorem commaSeparatedUntil (hon : ReadsOn M R) {close : SyntaxKind} {item : Grammar} {bound : Nat}
    (hclose : close.isOperator = false) (hk : k.isNode = true) (hitems : Assembled [] item)
    (hcomma : ∀ t, t.isAt .comma = true → ¬ B t) (h : R s u)
    (hitem : ∀ t v, R t v → Retains M R B t.offset t v item) :
    Retains M R B s.offset s u (Grammar.commaSeparatedUntil close k bound item) := by
  refine retains_onlyIf h (by rw [hon.isAt_eq h hclose]) fun _ => ?_
  exact hon.commaList hk hitems hcomma (hitem s u h) (fun _ _ h => hon.isAt_eq h hclose) hitem

end ReadsOn

/-- Among tokens that are held as they come no operator loosens, if the last one is none. -/
theorem not_mayLoosen_of_spares {n i : Nat} (hrun : (takeN n).run s = .ok (es, t))
    (hspares : Spares M s.offset es) (hlast : ∀ m, n = m + 1 → (s.kindAt m).isOperator = false)
    (hi : i < n) : ¬ (Input.behind^[i] s).MayLoosen M := by
  induction n generalizing s es i with
  | zero => omega
  | succ n ih =>
    obtain ⟨fs, gs, w, hfs, hgs, rfl⟩ := run_append hrun
    obtain ⟨a, rest, hs, rfl, -⟩ := run_take hfs
    obtain rfl := behind_of_take hfs
    have hoffset : s.behind.offset = s.offset + fullLenAll [Element.token a] := by
      rw [Input.behind_eq hs, fullLenAll, fullLenAll, fullLen, Nat.add_zero]
    cases i with
    | zero =>
      intro (hloose : s.MayLoosen M)
      cases n with
      | zero =>
        have hkind : s.kind.isOperator = false := hlast 0 rfl
        rw [hloose.kind] at hkind
        cases hkind
      | succ n =>
        -- the colon behind the operator is held as it comes too
        obtain ⟨fs', gs', w', hfs', -, rfl⟩ := run_append hgs
        obtain ⟨c, rest', hbehind, rfl, -⟩ := run_take hfs'
        have hcolon : c.kind = .colon := by
          rw [← hloose.2.1, s.kindAt_succ, Input.kindAt, Input.nth, hbehind]
          rfl
        exact hspares [.token a] c gs' rfl hcolon (hoffset ▸ hloose.2.2)
    | succ i =>
      refine ih (s := s.behind) hgs (fun front c back hsplit => ?_) (fun m hm => ?_) (by omega)
      · rw [hoffset, Nat.add_assoc, ← fullLenAll_append]
        exact hspares (.token a :: front) c back (by rw [hsplit]; rfl)
      · rw [← s.kindAt_succ]
        exact hlast (m + 1) (by rw [hm])

end Grammar

end SwiftTidy
