import SwiftTidy.Proofs.Parse.Productions
import SwiftTidy.Proofs.Tree.Omission
import SwiftTidy.Proofs.Tree.Places

/-!
# Reading without some of the semicolons

A grammar `Follows` another when it reads, from tokens without the marked semicolons, what the other
reads with them: where that one answers, it answers too, with elements that differ from the others
by the leaves at marks and by trivia, and with an input that is again without the marked semicolons.
Only a bound may keep it from answering, because the two may have different bounds.

A grammar may come to its end in front of a semicolon that is left out, and then it must also end in
front of the token behind that.  `E` says of which kinds of tokens this is asked: of `Anywhere` for
what may end a statement, of `Nowhere` for what something is due behind.
-/

namespace SwiftTidy

open Element

namespace Grammar

/-- Where the grammar answers, `Q` holds of what it builds and of what is left; where it does not, a
bound was reached. -/
def Yields (g : Grammar) (s : Input) (Q : List Element → Input → Prop) : Prop :=
  match g.run s with
  | .error e => e.cause = .tooDeep
  | .ok (es, t) => Q es t

/-- The grammar rejects the input. -/
def Rejects (g : Grammar) (s : Input) : Prop := ∀ es t, g.run s ≠ .ok (es, t)

/-- What was built from byte `o` on, and what is left, with the marked semicolons and without. -/
structure BuiltAlike (M : Marks) (b : Bool) (o : Nat) (es : List Element) (t : Input)
    (es' : List Element) (v : Input) : Prop where
  inputs : t.Enters M b v
  offset : t.offset = o + fullLenAll es
  elements : Element.Omits M o es es'

/-- Behind a semicolon that is left out here stands a token of one of the kinds. -/
def EndsAt (M : Marks) (E : SyntaxKind → Prop) (t : Input) : Prop :=
  t.kind = .semicolon → ∀ next, M t.offset = some next → E next

/-- The grammar `h` reads from `u`, without the marked semicolons, what `g` reads from `s`. -/
def Follows (M : Marks) (E : SyntaxKind → Prop) (o : Nat) (s u : Input) (g h : Grammar) : Prop :=
  ∀ es t, g.run s = .ok (es, t) → FitsAll M o es → EndsAt M E t →
    h.Yields u (BuiltAlike M true o es t)

/-- What may end in front of any token that starts anew. -/
def Anywhere : SyntaxKind → Prop := fun _ => True

/-- What does not end in front of a semicolon that is left out. -/
def Nowhere : SyntaxKind → Prop := fun _ => False

variable {M : Marks} {b : Bool} {E E' : SyntaxKind → Prop} {o : Nat} {s t u v : Input}
  {g h g' h' : Grammar} {es es' fs fs' : List Element} {k : SyntaxKind} {Q R : List Element → Input → Prop}

/-! ### Runs that a bound may stop -/

theorem Yields.mono (hg : g.Yields s Q) (hQ : ∀ es t, Q es t → R es t) : g.Yields s R := by
  unfold Yields at hg ⊢
  split at hg
  · exact hg
  · exact hQ _ _ hg

theorem Yields.capture {k : List Element → Grammar} (hg : g.Yields s R)
    (hk : ∀ es t, R es t → (k es).Yields t Q) : (Grammar.capture g k).Yields s Q := by
  unfold Yields at hg
  unfold Yields Grammar.capture
  cases hrun : g.run s with
  | error e =>
    rw [hrun] at hg
    simpa only [hrun] using hg
  | ok p =>
    rw [hrun] at hg
    have hrest := hk p.1 p.2 hg
    unfold Yields at hrest
    simpa only [hrun] using hrest

theorem Yields.append (hg : g.Yields s R)
    (hh : ∀ es t, R es t → h.Yields t fun fs v => Q (es ++ fs) v) : (g ++ h).Yields s Q := by
  show (Grammar.append g h).Yields s Q
  unfold Yields at hg
  unfold Yields Grammar.append
  cases hrun : g.run s with
  | error e =>
    rw [hrun] at hg
    simpa only [hrun] using hg
  | ok p =>
    rw [hrun] at hg
    have hrest := hh p.1 p.2 hg
    unfold Yields at hrest
    cases hrun' : h.run p.2 with
    | error e =>
      rw [hrun'] at hrest
      simpa only [hrun, hrun'] using hrest
    | ok q =>
      rw [hrun'] at hrest
      simpa only [hrun, hrun'] using hrest

/-! ### Grammars that reject the input -/

theorem Rejects.follows (hg : g.Rejects s) : Follows M E o s u g h :=
  fun es t hrun => absurd hrun (hg es t)

theorem rejects_fail (e : Input → ParseError) : (fail e).Rejects s := fun _ _ hrun => by cases hrun

theorem rejects_expected (what : String) : (expected what).Rejects s := rejects_fail _

theorem rejects_peek {f : Input → Grammar} (hf : (f s).Rejects s) : (peek f).Rejects s := hf

theorem Rejects.append (hg : g.Rejects s) : (g ++ h).Rejects s := by
  intro es t hrun
  obtain ⟨fs, gs, v, hfs, -, -⟩ := run_append hrun
  exact hg fs v hfs

/-- What is due behind the first part is missing. -/
theorem Rejects.behind (hg : g.run s = .ok (fs, t)) (hh : h.Rejects t) : (g ++ h).Rejects s := by
  intro es v hrun
  obtain ⟨fs', gs, w, hfs, hgs, -⟩ := run_append hrun
  rw [hg] at hfs
  cases hfs
  exact hh gs v hgs

theorem Rejects.capture {k : List Element → Grammar} (hg : g.Rejects s) :
    (Grammar.capture g k).Rejects s := by
  intro es t hrun
  obtain ⟨fs, v, hfs, -⟩ := run_capture hrun
  exact hg fs v hfs

theorem Rejects.node (hg : g.Rejects s) : (Grammar.node k g).Rejects s := hg.capture

/-- What is due behind the next token is missing. -/
theorem Rejects.behind_next (hg : ∀ es t, g.run s = .ok (es, t) → t = s.behind)
    (hh : h.Rejects s.behind) : (g ++ h).Rejects s := by
  intro es v hrun
  obtain ⟨fs, gs, w, hfs, hgs, -⟩ := run_append hrun
  obtain rfl := hg fs w hfs
  exact hh gs v hgs

theorem behind_of_take (hrun : take.run s = .ok (es, t)) : t = s.behind := by
  obtain ⟨a, rest, hs, -, rfl⟩ := run_take hrun
  rw [Input.behind_eq hs]

theorem behind_of_expect {what : String} (hrun : (expect k what).run s = .ok (es, t)) :
    t = s.behind := by
  unfold expect peek at hrun
  dsimp only at hrun
  split at hrun
  · exact behind_of_take hrun
  · cases hrun

theorem rejects_onlyIf {test : Input → Bool} (htest : test s = true) (hg : g.Rejects s) :
    (onlyIf test g).Rejects s := by
  refine rejects_peek ?_
  rw [if_pos htest]
  exact hg

theorem rejects_expect (what : String) (hs : s.isAt k = false) : (expect k what).Rejects s := by
  refine rejects_peek ?_
  rw [hs]
  exact rejects_expected what

/-! ### What is built -/

namespace BuiltAlike

theorem append (h : BuiltAlike M b o es s es' u) (h' : BuiltAlike M true s.offset fs t fs' v) :
    BuiltAlike M true o (es ++ fs) t (es' ++ fs') v where
  inputs := h'.inputs
  offset := by rw [h'.offset, h.offset, fullLenAll_append, Nat.add_assoc]
  elements := h.elements.append (h.offset ▸ h'.elements)

theorem node (h : BuiltAlike M b o es t es' v) :
    BuiltAlike M b o [.node k es] t [.node k es'] v where
  inputs := h.inputs
  offset := by rw [h.offset, fullLenAll, fullLen, fullLenAll, Nat.add_zero]
  elements := h.elements.node

/-- Where nothing is read, nothing is built. -/
theorem nil (h : s.Enters M b u) : BuiltAlike M b s.offset [] s [] u := ⟨h, rfl, .nil⟩

theorem weaken (h : BuiltAlike M true o es t es' v) : BuiltAlike M b o es t es' v where
  inputs := ⟨h.inputs.pending.weaken, h.inputs.kind_endOfFile, h.inputs.kind_endOfFile',
    h.inputs.text_endOfFile⟩
  offset := h.offset
  elements := h.elements

end BuiltAlike

/-! ### Basic steps -/

theorem Follows.mono (hg : Follows M E o s u g h) (hE : ∀ next, E' next → E next) :
    Follows M E' o s u g h :=
  fun es t hrun hfits hend =>
    hg es t hrun hfits fun hkind next hnext => hE next (hend hkind next hnext)

/-- What may end anywhere may end there. -/
theorem Follows.of_anywhere (hg : Follows M Anywhere o s u g h) : Follows M E o s u g h :=
  hg.mono fun _ _ => trivial

theorem follows_emit (h : BuiltAlike M true o es s es' u) : Follows M E o s u (emit es) (emit es') := by
  intro fs t hrun _ _
  cases hrun
  exact h

theorem follows_nothing (h : s.Omits M u) : Follows M E s.offset s u nothing nothing :=
  follows_emit (.nil h)

theorem follows_peek {f f' : Input → Grammar} (hf : Follows M E o s u (f s) (f' u)) :
    Follows M E o s u (peek f) (peek f') :=
  hf

theorem Follows.ite {p p' : Prop} [Decidable p] [Decidable p'] (hp : p' ↔ p)
    (hg : p → Follows M E o s u g g') (hh : ¬ p → Follows M E o s u h h') :
    Follows M E o s u (if p then g else h) (if p' then g' else h') := by
  by_cases hcase : p
  · rw [if_pos hcase, if_pos (hp.mpr hcase)]
    exact hg hcase
  · rw [if_neg hcase, if_neg (mt hp.mp hcase)]
    exact hh hcase

/-- A test that comes out the same chooses alike. -/
theorem Follows.test {b b' : Bool} (hb : b' = b) (hg : b = true → Follows M E o s u g g')
    (hh : b = false → Follows M E o s u h h') :
    Follows M E o s u (if b then g else h) (if b' then g' else h') := by
  subst hb
  exact Follows.ite Iff.rfl hg fun hcase => hh (Bool.eq_false_iff.mpr hcase)

/-- A token that is kept is read under the same kind. -/
theorem follows_takeAs (k : SyntaxKind) (h : s.Enters M b u) (hmark : M s.offset = none) :
    Follows M E s.offset s u (takeAs k) (takeAs k) := by
  intro es t hrun _ _
  obtain ⟨a, rest, hs, rfl, rfl⟩ := run_takeAs hrun
  have hbehind := h.behind hmark
  rcases h.cases with ⟨-, hnil, -⟩ | ⟨a', b, ts, us, -, hs', hu, halike, -⟩ | ⟨a', ts, hsome, -⟩
  · rw [hs] at hnil
    cases hnil
  · rw [hs] at hs'
    cases hs'
    unfold Yields takeAs
    simp only [hu]
    rw [Input.behind_eq hs, Input.behind_eq hu] at hbehind
    refine ⟨hbehind, by simp [fullLenAll, fullLen, Token.fullLen, Token.len], ?_⟩
    exact .of_single (by simp [halike.text]) (isMarked_of_none hmark _)
  · rw [hmark] at hsome
    cases hsome

theorem follows_take (h : s.Enters M b u) (hmark : M s.offset = none) :
    Follows M E s.offset s u take take := by
  refine follows_peek ?_
  rw [h.kind_eq hmark]
  exact follows_takeAs _ h hmark

/-- In front of a token of another kind than a semicolon nothing is left out. -/
theorem mark_of_kind (h : s.Enters M b u) (hkind : s.kind ≠ .semicolon) : M s.offset = none := by
  cases hmark : M s.offset with
  | none => rfl
  | some next => exact absurd (h.kind_of_mark hmark) hkind

theorem mark_of_isAt (h : s.Enters M b u) (hat : s.isAt k = true)
    (hk : k ≠ .semicolon) : M s.offset = none :=
  mark_of_kind h (by rw [eq_of_beq hat]; exact hk)

/-- A token is expected at the same place. -/
theorem follows_expect (k : SyntaxKind) (what : String) (hk : k ≠ .semicolon)
    (h : s.Enters M b u) :
    Follows M E s.offset s u (expect k what) (expect k what) := by
  by_cases hat : s.isAt k = true
  · have hmark := mark_of_isAt h hat hk
    refine follows_peek (Follows.test ?_ (fun _ => follows_take h hmark) fun hnot => ?_)
    · rw [Input.isAt, Input.isAt, h.kind_eq hmark]
    · rw [hat] at hnot
      cases hnot
  · exact (rejects_expect what (Bool.eq_false_iff.mpr hat)).follows

/-! ### One after another -/

theorem endsAt_anywhere : EndsAt M Anywhere t := fun _ _ _ => trivial

theorem endsAt_of_kind (hkind : t.kind ≠ .semicolon) : EndsAt M E t :=
  fun hsemicolon => absurd hsemicolon hkind

/-- The second part decides where the first may end. -/
theorem Follows.append_of (hg : Follows M E' o s u g g')
    (hend : ∀ t gs w, h.run t = .ok (gs, w) → EndsAt M E w → EndsAt M E' t)
    (hh : ∀ fs t v, g.run s = .ok (fs, t) → t.Omits M v → Follows M E t.offset t v h h') :
    Follows M E o s u (g ++ h) (g' ++ h') := by
  intro es t hrun hfits hends
  obtain ⟨fs, gs, w, hfs, hgs, rfl⟩ := run_append hrun
  rw [fitsAll_append] at hfits
  refine Yields.append (hg fs w hfs hfits.1 (hend w gs t hgs hends)) fun fs' v hbuilt => ?_
  have hrest := hh fs w v hfs hbuilt.inputs gs t hgs
  rw [hbuilt.offset] at hrest
  refine (hrest hfits.2 hends).mono fun gs' v' hbuilt' => hbuilt.append ?_
  rwa [hbuilt.offset]

/-- What may end anywhere comes first. -/
theorem Follows.append (hg : Follows M Anywhere o s u g g')
    (hh : ∀ t v, t.Omits M v → Follows M E t.offset t v h h') :
    Follows M E o s u (g ++ h) (g' ++ h') :=
  hg.append_of (fun _ _ _ _ _ => endsAt_anywhere) fun _ t v _ => hh t v

/-- Something that is not a semicolon is due behind the first part. -/
theorem Follows.append_due (hg : Follows M Nowhere o s u g g')
    (hdue : ∀ t, t.kind = .semicolon → h.Rejects t)
    (hh : ∀ t v, t.Omits M v → Follows M E t.offset t v h h') :
    Follows M E o s u (g ++ h) (g' ++ h') :=
  hg.append_of (fun t gs w hgs _ => endsAt_of_kind fun hkind => hdue t hkind gs w hgs)
    fun _ t v _ => hh t v

/-- An option is not read where its test fails. -/
theorem run_onlyIf_eq {test : Input → Bool} (htest : test s = false) :
    (onlyIf test g).run s = .ok ([], s) := by
  unfold onlyIf peek
  dsimp only
  rw [htest]
  rfl

theorem run_onlyIf_of_test {test : Input → Bool} (htest : test s = true) :
    (onlyIf test g).run s = g.run s := by
  unfold onlyIf peek
  dsimp only
  rw [if_pos htest]

/-- Nothing need be read behind the first part. -/
theorem Follows.append_optional {test test' : Input → Bool} (hg : Follows M E o s u g g')
    (hstops : ∀ t, t.kind = .semicolon → test t = false)
    (hh : ∀ t v, t.Omits M v → Follows M E t.offset t v (onlyIf test h) (onlyIf test' h')) :
    Follows M E o s u (g ++ onlyIf test h) (g' ++ onlyIf test' h') := by
  refine hg.append_of (fun t gs w hgs hends hkind => ?_) fun _ t v _ => hh t v
  rw [run_onlyIf_eq (hstops t hkind)] at hgs
  cases hgs
  exact hends hkind

/-- Elements that were read before come first. -/
theorem Follows.emit_append (hemit : Element.Omits M o es es')
    (hg : Follows M E (o + fullLenAll es) s u g g') :
    Follows M E o s u (Grammar.emit es ++ g) (Grammar.emit es' ++ g') := by
  intro fs t hrun hfits hends
  obtain ⟨gs, hgs, rfl⟩ := run_emit_append hrun
  rw [fitsAll_append] at hfits
  refine Yields.append (R := fun fs v => fs = es' ∧ v = u) ⟨rfl, rfl⟩ ?_
  rintro _ _ ⟨rfl, rfl⟩
  refine (hg gs t hgs hfits.2 hends).mono fun gs' v hbuilt => ⟨hbuilt.inputs, ?_, ?_⟩
  · rw [hbuilt.offset, fullLenAll_append, Nat.add_assoc]
  · exact hemit.append hbuilt.elements

/-- What was read just before comes first. -/
theorem BuiltAlike.emit_append (hbuilt : BuiltAlike M b o es s es' u)
    (hg : Follows M E s.offset s u g g') :
    Follows M E o s u (emit es ++ g) (emit es' ++ g') := by
  rw [hbuilt.offset] at hg
  exact hg.emit_append hbuilt.elements

theorem Follows.node (hg : Follows M E o s u g g') :
    Follows M E o s u (Grammar.node k g) (Grammar.node k g') := by
  intro es t hrun hfits hends
  obtain ⟨fs, w, hfs, hemit⟩ := run_capture hrun
  cases hemit
  exact Yields.capture (hg fs _ hfs hfits.of_node hends) fun fs' v hbuilt => hbuilt.node

/-! ### What was read before -/

/-- What is held is placed, so that it fits the marks where the result does. -/
theorem Assembled.fitsAll_held {held : List Element} (hg : Assembled held g)
    (hrun : g.run s = .ok (es, t)) (hfits : FitsAll M o es) : FitsAll M o held :=
  hg.of_held (fun _ => trivial) (fun _ es fs => fitsAll_append es fs) (fun _ _ _ h => h.of_node) hrun hfits

/-- The input is as many bytes further as what was built is longer than what was held. -/
theorem Assembled.offset_eq {held : List Element} (hg : Assembled held g)
    (hrun : g.run s = .ok (es, t)) : t.offset + fullLenAll held = s.offset + fullLenAll es := by
  induction hg generalizing s es t with
  | emit fs =>
    cases hrun
    rfl
  | wrap k hk hg ih => simpa [fullLenAll, fullLen] using ih hrun
  | emitFront fs hg ih =>
    obtain ⟨gs, hgs, rfl⟩ := run_emit_append hrun
    have hrest := ih hgs
    rw [fullLenAll_append, fullLenAll_append]
    omega
  | fail held e he => cases hrun
  | peek hf ih => exact ih s hrun
  | append hg hh ihg ihh =>
    obtain ⟨fs, gs, w, hfs, hgs, rfl⟩ := run_append hrun
    have hfront := ihg hfs
    have hrest := ihh hgs
    rw [fullLenAll, Nat.add_zero] at hrest
    rw [fullLenAll_append]
    omega
  | capture front hg hk ihg ihk =>
    obtain ⟨fs, w, hfs, hes⟩ := run_capture hrun
    have hfront := ihg hfs
    have hrest := ihk fs hes
    rw [fullLenAll_append] at hrest ⊢
    omega
  | take =>
    obtain ⟨a, rest, hs, rfl, rfl⟩ := run_take hrun
    simp [fullLenAll, fullLen]
  | takeAs k hk _ =>
    obtain ⟨a, rest, hs, rfl, rfl⟩ := run_takeAs hrun
    simp [fullLenAll, fullLen, Token.fullLen, Token.len]
  | splitRightAngle =>
    cases hrun
    rw [s.offset_splitRightAngle]

/-- What is captured is placed behind what is held already. -/
theorem Follows.capture_of {k k' : List Element → Grammar} (front : List Element) {o' : Nat}
    (ho : o' = o + fullLenAll front) (hg : Follows M E' o' s u g g')
    (hplaced : ∀ es, Assembled (front ++ es) (k es))
    (hend : ∀ es t fs w, (k es).run t = .ok (fs, w) → EndsAt M E w → EndsAt M E' t)
    (hk : ∀ es t es' v, BuiltAlike M true o' es t es' v → Follows M E o t v (k es) (k' es')) :
    Follows M E o s u (Grammar.capture g k) (Grammar.capture g' k') := by
  intro es t hrun hfits hends
  obtain ⟨fs, w, hfs, hes⟩ := run_capture hrun
  have hheld := ((fitsAll_append _ _).mp ((hplaced fs).fitsAll_held hes hfits)).2
  rw [← ho] at hheld
  exact Yields.capture (hg fs w hfs hheld (hend fs w es t hes hends)) fun fs' v hbuilt =>
    hk fs w fs' v hbuilt es t hes hfits hends

/-- What is captured is placed first. -/
theorem Follows.capture {k k' : List Element → Grammar} (hg : Follows M Anywhere o s u g g')
    (hplaced : ∀ es, Assembled es (k es))
    (hk : ∀ es t es' v, BuiltAlike M true o es t es' v → Follows M E o t v (k es) (k' es')) :
    Follows M E o s u (Grammar.capture g k) (Grammar.capture g' k') :=
  hg.capture_of [] rfl hplaced (fun _ _ _ _ _ _ => endsAt_anywhere) hk

/-! ### Choices -/

theorem follows_onlyIf {test test' : Input → Bool} (h : s.Omits M u) (htest : test' u = test s)
    (hg : test s = true → Follows M E s.offset s u g g') :
    Follows M E s.offset s u (onlyIf test g) (onlyIf test' g') :=
  follows_peek (Follows.test htest hg fun _ => follows_nothing h)

/-- An option that would go on with what stands in front of a semicolon. -/
theorem follows_whenAt (k : SyntaxKind) (hk : k.goesOn = true) (hsemicolon : k ≠ .semicolon)
    (h : s.Omits M u)
    (hg : M s.offset = none → s.kind = k → Follows M E s.offset s u g g') :
    Follows M E s.offset s u (whenAt k g) (whenAt k g') := by
  refine follows_onlyIf h (h.isAt_eq hk hsemicolon) fun hat => ?_
  exact hg (mark_of_isAt h hat hsemicolon) (eq_of_beq hat)

theorem follows_whenAtAny (ks : List SyntaxKind)
    (hks : ∀ k ∈ ks, k.goesOn = true ∧ k ≠ .semicolon) (h : s.Omits M u)
    (hg : M s.offset = none → Follows M E s.offset s u g g') :
    Follows M E s.offset s u (whenAtAny ks g) (whenAtAny ks g') := by
  refine follows_onlyIf h (h.isAtAny_eq hks) fun hat => hg (mark_of_kind h fun hkind => ?_)
  rw [Input.isAtAny, hkind] at hat
  exact (hks .semicolon (by simpa using hat)).2 rfl

theorem follows_eat (k : SyntaxKind) (hk : k.goesOn = true) (hsemicolon : k ≠ .semicolon)
    (h : s.Omits M u) :
    Follows M E s.offset s u (eat k) (eat k) :=
  follows_whenAt k hk hsemicolon h fun hmark _ => follows_take h hmark

/-- An option where something is due behind it: in front of a semicolon it need not be the same. -/
theorem follows_onlyIf_due {test test' : Input → Bool} (h : s.Omits M u)
    (htest : M s.offset = none → test' u = test s) (hstops : s.kind = .semicolon → test s = false)
    (hg : M s.offset = none → test s = true → Follows M Nowhere s.offset s u g g') :
    Follows M Nowhere s.offset s u (onlyIf test g) (onlyIf test' g') := by
  cases hmark : M s.offset with
  | none => exact follows_onlyIf h (htest hmark) (hg hmark)
  | some next =>
    intro es t hrun _ hends
    have hkind := h.kind_of_mark hmark
    rw [run_onlyIf_eq (hstops hkind)] at hrun
    cases hrun
    exact absurd (hends hkind next hmark) id

/-- An option that may start another statement: it is asked that none of these starts there. -/
theorem follows_whenAt_end (k : SyntaxKind) (hsemicolon : k ≠ .semicolon) (h : s.Omits M u)
    (hg : M s.offset = none → Follows M (· ≠ k) s.offset s u g g') :
    Follows M (· ≠ k) s.offset s u (whenAt k g) (whenAt k g') := by
  cases hmark : M s.offset with
  | none =>
    refine follows_onlyIf h ?_ fun _ => hg hmark
    rw [Input.isAt, Input.isAt, h.kind_eq hmark]
  | some next =>
    intro es t hrun _ hends
    have hkind := h.kind_of_mark hmark
    unfold whenAt at hrun ⊢
    rw [run_onlyIf_eq (by rw [Input.isAt, hkind, beq_eq_false_iff_ne.mpr hsemicolon.symm])] at hrun
    cases hrun
    have hnext : next ≠ k := hends hkind next hmark
    unfold Yields
    rw [run_onlyIf_eq (by rw [Input.isAt, h.kind_of_mark' hmark, beq_eq_false_iff_ne.mpr hnext])]
    exact .nil h

/-! ### Loops -/

theorem yields_tooDeep : (fail fun s => ⟨s.position, .tooDeep⟩).Yields u Q := rfl

/-- A loop that takes the same turns, and ends where the other one ends. -/
theorem follows_repeated {next next' : Input → Option Grammar} {bound bound' : Nat}
    (h : s.Omits M u)
    (hstop : ∀ t v, t.Omits M v → EndsAt M E t → next t = none → next' v = none)
    (hturn : ∀ t v, t.Omits M v → ∀ g, next t = some g → g.Rejects t ∨
      ∃ g', next' v = some g' ∧ Follows M Anywhere t.offset t v g g') :
    Follows M E s.offset s u (repeated next bound) (repeated next' bound') := by
  induction bound generalizing bound' s u with
  | zero => exact (rejects_fail _).follows
  | succ bound ih =>
    cases bound' with
    | zero => exact fun _ _ _ _ _ => yields_tooDeep
    | succ bound' =>
      refine follows_peek ?_
      cases hnext : next s with
      | none =>
        intro es t hrun _ hends
        cases hrun
        rw [hstop s u h hends hnext]
        exact .nil h
      | some g =>
        rcases hturn s u h g hnext with hrejects | ⟨g', hnext', hg⟩
        · exact hrejects.append.follows
        · rw [hnext']
          exact hg.append fun t v htv => ih htv

/-- The same for a loop that may be entered at the start of the file. -/
theorem yields_repeated {next next' : Input → Option Grammar} {bound bound' : Nat}
    (h : s.Enters M b u)
    (hstop : ∀ {c : Bool} t v, t.Enters M c v → EndsAt M E t → next t = none → next' v = none)
    (hturn : ∀ {c : Bool} t v, t.Enters M c v → ∀ g, next t = some g → g.Rejects t ∨
      ∃ g', next' v = some g' ∧ Follows M Anywhere t.offset t v g g')
    (hrun : (repeated next bound).run s = .ok (es, t)) (hfits : FitsAll M s.offset es)
    (hends : EndsAt M E t) :
    (repeated next' bound').Yields u (BuiltAlike M b s.offset es t) := by
  cases bound with
  | zero => cases hrun
  | succ bound =>
    cases bound' with
    | zero => exact yields_tooDeep
    | succ bound' =>
      unfold repeated peek at hrun ⊢
      dsimp only at hrun
      unfold Yields
      dsimp only
      cases hnext : next s with
      | none =>
        rw [hnext] at hrun
        cases hrun
        rw [hstop s u h hends hnext]
        exact .nil h
      | some g =>
        rw [hnext] at hrun
        rcases hturn s u h g hnext with hrejects | ⟨g', hnext', hg⟩
        · exact absurd hrun (hrejects.append es t)
        · rw [hnext']
          have hrest : Follows M E s.offset s u (g ++ repeated next bound)
              (g' ++ repeated next' bound') :=
            hg.append fun t v htv => follows_repeated htv hstop hturn
          exact (hrest es t hrun hfits hends).mono fun _ _ => BuiltAlike.weaken

/-- What follows an item of a list takes a comma before it goes on. -/
theorem follows_behindItem {stop stop' : Input → Bool} {item item' : Grammar} {bound bound' : Nat}
    (hbuilt : BuiltAlike M true o es s es' u)
    (hstop : ∀ t v, t.Omits M v → stop' v = stop t)
    (hrest : ∀ t v, t.Omits M v → Follows M E t.offset t v (commaList k stop item bound item)
      (commaList k stop' item' bound' item')) :
    Follows M E o s u
      (peek fun s =>
        if s.isAt .comma then
          Grammar.node k (emit es ++ take) ++
            peek fun s' => if stop s' then nothing else commaList k stop item bound item
        else Grammar.node k (emit es))
      (peek fun s =>
        if s.isAt .comma then
          Grammar.node k (emit es' ++ take) ++
            peek fun s' => if stop' s' then nothing else commaList k stop' item' bound' item'
        else Grammar.node k (emit es')) := by
  have h := hbuilt.inputs
  refine follows_peek (Follows.test (h.isAt_eq rfl (by decide)) (fun hat => ?_) fun _ => ?_)
  · have htake : Follows M Anywhere s.offset s u take take := follows_take h
      (mark_of_isAt h hat (by decide))
    refine (hbuilt.emit_append htake).node.append fun t v htv => ?_
    refine follows_peek (Follows.test (hstop t v htv) (fun _ => ?_) fun _ => hrest t v htv)
    exact follows_nothing htv
  · exact (follows_emit hbuilt).node

/-- Items separated by commas, each of which may end where the list may end. -/
theorem follows_commaList {stop stop' : Input → Bool} {item item' first first' : Grammar}
    {bound bound' : Nat} (hk : k.isNode = true) (hitems : Assembled [] item)
    (hfirst : Follows M E o s u first first')
    (hstop : ∀ t v, t.Omits M v → stop' v = stop t)
    (hitem : ∀ t v, t.Omits M v → Follows M E t.offset t v item item') :
    Follows M E o s u (commaList k stop item bound first)
      (commaList k stop' item' bound' first') := by
  induction bound generalizing bound' first first' o s u with
  | zero => exact (rejects_fail _).follows
  | succ bound ih =>
    cases bound' with
    | zero => exact fun _ _ _ _ _ => yields_tooDeep
    | succ bound' =>
      refine hfirst.capture_of [] rfl (fun es => ?_) (fun es t fs w hrun hends => ?_) ?_
      · refine .peek fun s => .ite ?_ (.node hk (.emit es))
        refine .append (.node hk (.append (.emit es) .take)) (.peek fun _ => .ite .nothing ?_)
        exact .commaList hk _ hitems _ hitems
      · -- without a comma behind it the last item ends where the list ends
        intro hkind
        have hcomma : t.isAt .comma = false := by
          rw [Input.isAt, hkind]
          rfl
        unfold peek at hrun
        dsimp only at hrun
        rw [hcomma] at hrun
        cases hrun
        exact hends hkind
      · intro es t es' v hbuilt
        exact follows_behindItem hbuilt hstop fun t v htv => ih (hitem t v htv)

theorem follows_commaSeparated {item item' : Grammar} {bound bound' : Nat} (hk : k.isNode = true)
    (hitems : Assembled [] item) (h : s.Omits M u)
    (hitem : ∀ t v, t.Omits M v → Follows M E t.offset t v item item') :
    Follows M E s.offset s u (commaSeparated k bound item) (commaSeparated k bound' item') :=
  follows_commaList hk hitems (hitem s u h) (fun _ _ _ => rfl) hitem

theorem follows_commaSeparatedUntil {close : SyntaxKind} {item item' : Grammar} {bound bound' : Nat}
    (hclose : close.goesOn = true) (hsemicolon : close ≠ .semicolon) (hk : k.isNode = true)
    (hitems : Assembled [] item) (h : s.Omits M u)
    (hitem : ∀ t v, t.Omits M v → Follows M E t.offset t v item item') :
    Follows M E s.offset s u (commaSeparatedUntil close k bound item)
      (commaSeparatedUntil close k bound' item') := by
  have hat : ∀ t v : Input, t.Omits M v → v.isAt close = t.isAt close := fun t v htv =>
    htv.isAt_eq hclose hsemicolon
  refine follows_onlyIf h (by rw [hat s u h]) fun _ => ?_
  exact follows_commaList hk hitems (hitem s u h) hat hitem

/-- What is found behind an element alike: nothing for both, or a suffix of the same kind. -/
def SuffixFollows (M : Marks) (s u : Input) :
    Option (SyntaxKind × Grammar) → Option (SyntaxKind × Grammar) → Prop
  | none, none => True
  | some (k, g), some (k', g') => k' = k ∧ Follows M Anywhere s.offset s u g g'
  | _, _ => False

/-- Without a suffix behind it an element stands alone. -/
theorem run_suffixes_of_none {next : Input → Element → Option (SyntaxKind × Grammar)} {bound : Nat}
    {e : Element} (hnone : next s e = none) (hrun : (suffixes next bound e).run s = .ok (es, t)) :
    es = [e] ∧ t = s := by
  cases bound with
  | zero => cases hrun
  | succ bound =>
    unfold suffixes peek at hrun
    dsimp only at hrun
    rw [hnone] at hrun
    cases hrun
    exact ⟨rfl, rfl⟩

theorem follows_suffixes {next next' : Input → Element → Option (SyntaxKind × Grammar)}
    {bound bound' : Nat} {e e' : Element}
    (hnodes : ∀ s e, ∀ p ∈ next s e, p.1.isNode = true ∧ Assembled [] p.2)
    (hnext : ∀ t v e e', t.Omits M v → e'.kind = e.kind →
      SuffixFollows M t v (next t e) (next' v e'))
    (hbuilt : BuiltAlike M true o [e] s [e'] u) :
    Follows M E o s u (suffixes next bound e) (suffixes next' bound' e') := by
  induction bound generalizing bound' e e' s u with
  | zero => exact (rejects_fail _).follows
  | succ bound ih =>
    cases bound' with
    | zero => exact fun _ _ _ _ _ => yields_tooDeep
    | succ bound' =>
      refine follows_peek ?_
      have hstep := hnext s u e e' hbuilt.inputs hbuilt.elements.kind_eq
      cases hleft : next s e with
      | none =>
        cases hright : next' u e' with
        | none => exact follows_emit hbuilt
        | some p =>
          rw [hleft, hright] at hstep
          exact hstep.elim
      | some p =>
        cases hright : next' u e' with
        | none =>
          rw [hleft, hright] at hstep
          exact hstep.elim
        | some p' =>
          rw [hleft, hright] at hstep
          obtain ⟨hkind, hg⟩ := hstep
          have hnode := hnodes s e p hleft
          dsimp only
          rw [hkind]
          refine hg.capture_of [e] hbuilt.offset (fun es => ?_)
            (fun _ _ _ _ _ _ => endsAt_anywhere) fun es t es' v hbuilt' => ?_
          · exact .wrap _ hnode.1 (.suffixes hnodes bound _)
          · exact ih (hbuilt.append hbuilt').node

theorem follows_withSuffixes {next next' : Input → Element → Option (SyntaxKind × Grammar)}
    {bound bound' : Nat}
    (hnodes : ∀ s e, ∀ p ∈ next s e, p.1.isNode = true ∧ Assembled [] p.2)
    (hnext : ∀ t v e e', t.Omits M v → e'.kind = e.kind →
      SuffixFollows M t v (next t e) (next' v e'))
    (hg : Follows M Anywhere s.offset s u g g') :
    Follows M E s.offset s u (withSuffixes g bound next) (withSuffixes g' bound' next') := by
  refine hg.capture (fun es => ?_) fun es t es' v hbuilt => ?_
  · split
    · exact .suffixes hnodes bound _
    · exact .emit _
  · have hlength := hbuilt.elements.length
    match es, es', hlength with
    | [], [], _ => exact follows_emit hbuilt
    | [e], [e'], _ => exact follows_suffixes hnodes hnext hbuilt
    | _ :: _ :: _, _ :: _ :: _, _ => exact follows_emit hbuilt

theorem follows_nodeUnlessSingle (hk : k.isNode = true) (hg : Follows M Anywhere s.offset s u g g') :
    Follows M E s.offset s u (nodeUnlessSingle k g) (nodeUnlessSingle k g') := by
  refine hg.capture (fun es => ?_) fun es t es' v hbuilt => ?_
  · split
    · exact .emit _
    · exact .wrap k hk (.emit _)
  · have hlength := hbuilt.elements.length
    match es, es', hlength with
    | [], [], _ => exact follows_emit hbuilt.node
    | [e], [e'], _ => exact follows_emit hbuilt
    | _ :: _ :: _, _ :: _ :: _, _ => exact follows_emit hbuilt.node

/-! ### Several tokens -/

theorem run_take_eq {a : Token} {rest : List Token} (hs : s.pending = a :: rest) :
    take.run s = .ok ([.token a], s.behind) := by
  have hkind : s.kind = a.kind := by
    unfold Input.kind Input.kindAt Input.nth
    rw [hs]
    rfl
  show (takeAs s.kind).run s = _
  unfold takeAs
  simp only [hs, hkind, Input.behind_eq hs]

/-- A token that is kept is read, and then the grammar goes on behind it. -/
theorem follows_take_append (hinputs : s.Enters M b u) (hmark : M s.offset = none)
    (hh : s.behind.Omits M u.behind → Follows M E s.behind.offset s.behind u.behind h h') :
    Follows M E s.offset s u (take ++ h) (take ++ h') := by
  intro es t hrun hfits hends
  obtain ⟨fs, gs, w, hfs, hgs, rfl⟩ := run_append hrun
  obtain ⟨a, rest, hs, -, -⟩ := run_take hfs
  rw [run_take_eq hs] at hfs
  cases hfs
  rw [fitsAll_append] at hfits
  have hoffset : s.offset + fullLenAll [Element.token a] = s.behind.offset := by
    rw [Input.behind_eq hs, fullLenAll, fullLen, fullLenAll, Nat.add_zero]
  rw [hoffset] at hfits
  have htaken := follows_take (E := Anywhere) hinputs hmark _ _ (run_take_eq hs) hfits.1
    endsAt_anywhere
  obtain ⟨b, us, hu⟩ : ∃ b us, u.pending = b :: us := by
    rcases hinputs.cases with ⟨-, hnil, -⟩ | ⟨_, b, _, us, -, -, hu, -⟩ | ⟨_, _, hsome, -⟩
    · rw [hs] at hnil
      cases hnil
    · exact ⟨b, us, hu⟩
    · rw [hmark] at hsome
      cases hsome
  unfold Yields at htaken
  rw [run_take_eq hu] at htaken
  refine Yields.append (R := fun fs v => fs = [.token b] ∧ v = u.behind) ?_ ?_
  · unfold Yields
    rw [run_take_eq hu]
    exact ⟨rfl, rfl⟩
  rintro _ _ ⟨rfl, rfl⟩
  exact (hh htaken.inputs gs t hgs hfits.2 hends).mono fun gs' v hbuilt => htaken.append hbuilt

/-- A run of tokens without semicolons is read as it is. -/
theorem follows_takeN {n : Nat} (hinputs : s.Omits M u)
    (hkinds : ∀ i, i < n → s.kindAt i ≠ .semicolon) :
    Follows M E s.offset s u (takeN n) (takeN n) := by
  induction n generalizing s u with
  | zero => exact follows_nothing hinputs
  | succ n ih =>
    have hmark := mark_of_kind hinputs (hkinds 0 (Nat.succ_pos n))
    refine follows_take_append hinputs hmark fun hbehind => ih hbehind fun i hi => ?_
    rw [← Input.kindAt_succ]
    exact hkinds (i + 1) (Nat.succ_lt_succ hi)

/-! ### Operators that close a generic clause -/

/-- A generic clause ends at a `>`, so it does not end in front of a semicolon that is left out. -/
theorem follows_splitRightAngle (hinputs : s.Omits M u) :
    Follows M Nowhere s.offset s u splitRightAngle splitRightAngle := by
  intro es t hrun _ hends
  cases hrun
  cases hmark : M s.offset with
  | none => exact ⟨hinputs.splitRightAngle hmark, s.offset_splitRightAngle, .nil⟩
  | some next =>
    have hkind := hinputs.kind_of_mark hmark
    rw [Input.splitRightAngle_of_kind (by rw [hkind]; rfl)] at hends
    exact absurd (hends hkind next hmark) id

theorem rejects_rightAngle (hkind : s.kind = .semicolon) : rightAngle.Rejects s := by
  intro es t hrun
  obtain ⟨fs, gs, w, hfs, hgs, -⟩ := run_append hrun
  cases hfs
  rw [Input.splitRightAngle_of_kind (by rw [hkind]; rfl)] at hgs
  refine rejects_peek (f := fun s => if s.isAtOperator ">" then takeAs .rightAngle else expected "`>`")
    ?_ gs t hgs
  rw [Input.isAtOperator, hkind]
  exact rejects_expected _

theorem follows_rightAngle (hinputs : s.Omits M u) :
    Follows M E s.offset s u rightAngle rightAngle := by
  refine (follows_splitRightAngle hinputs).append_due (fun t hkind => ?_) fun t v htv => ?_
  · refine rejects_peek ?_
    rw [Input.isAtOperator, hkind]
    exact rejects_expected _
  · by_cases hkind : t.kind = .semicolon
    · refine Rejects.follows (rejects_peek ?_)
      rw [Input.isAtOperator, hkind]
      exact rejects_expected _
    · have hmark := mark_of_kind htv hkind
      refine follows_peek (Follows.test ?_ (fun _ => follows_takeAs _ htv hmark) fun _ => ?_)
      · rw [Input.isAtOperator, Input.isAtOperator, htv.kind_eq hmark, htv.text_eq hmark]
      · exact (rejects_expected _).follows

/-! ### Statements -/

/-- The grammar `h` reads what `g` reads as far as a semicolon that is left out stands behind a
statement that is at its end there. -/
def FollowsToEnd (M : Marks) (o : Nat) (s u : Input) (g h : Grammar) : Prop :=
  ∀ es t, g.run s = .ok (es, t) → FitsAll M o es →
    EndsAt M (fun next => ∀ e ∈ es, e.kind.endsBefore next = true) t →
    h.Yields u (BuiltAlike M true o es t)

theorem Follows.toEnd (hg : Follows M Anywhere o s u g h) : FollowsToEnd M o s u g h :=
  fun es t hrun hfits _ => hg es t hrun hfits endsAt_anywhere

theorem followsToEnd_peek {f f' : Input → Grammar} (hf : FollowsToEnd M o s u (f s) (f' u)) :
    FollowsToEnd M o s u (peek f) (peek f') :=
  hf

/-- Where a node is at its end is told by its kind. -/
theorem Follows.node_toEnd (hg : Follows M (fun next => k.endsBefore next = true) o s u g g') :
    FollowsToEnd M o s u (Grammar.node k g) (Grammar.node k g') := by
  intro es t hrun hfits hends
  obtain ⟨fs, w, -, hemit⟩ := run_capture hrun
  cases hemit
  refine hg.node _ _ hrun hfits fun hkind next hnext => ?_
  exact hends hkind next hnext (.node k fs) List.mem_cons_self

theorem FollowsToEnd.capture {k k' : List Element → Grammar}
    (hg : ∀ es t, g.run s = .ok (es, t) → FitsAll M o es → EndsAt M E' t →
      g'.Yields u (BuiltAlike M b o es t))
    (hplaced : ∀ es, Assembled es (k es))
    (hend : ∀ es t, t.kind = .semicolon → (k es).Rejects t)
    (hk : ∀ es t es' v, BuiltAlike M b o es t es' v → FollowsToEnd M o t v (k es) (k' es')) :
    FollowsToEnd M o s u (Grammar.capture g k) (Grammar.capture g' k') := by
  intro es t hrun hfits hends
  obtain ⟨fs, w, hfs, hes⟩ := run_capture hrun
  have hheld := (hplaced fs).fitsAll_held hes hfits
  refine Yields.capture (hg fs w hfs hheld (endsAt_of_kind fun hkind => ?_)) fun fs' v hbuilt => ?_
  · exact hend fs w hkind es t hes
  · exact hk fs w fs' v hbuilt es t hes hfits hends

/-! ### Nodes from which semicolons are left out -/

/-- Like `Follows`, but leaves at marks may be left out of the elements themselves. -/
def FollowsLoosely (M : Marks) (E : SyntaxKind → Prop) (o : Nat) (s u : Input) (g h : Grammar) :
    Prop :=
  ∀ es t, g.run s = .ok (es, t) → FitsAll M o es → EndsAt M E t →
    h.Yields u fun es' v => t.Omits M v ∧ t.offset = o + fullLenAll es ∧
      strippedAll es' = strippedAll (withoutAll M o es)

theorem Follows.loosely (hg : Follows M E o s u g h) : FollowsLoosely M E o s u g h :=
  fun es t hrun hfits hends => (hg es t hrun hfits hends).mono fun _ _ hbuilt =>
    ⟨hbuilt.inputs, hbuilt.offset, hbuilt.elements.stripped⟩

theorem FollowsLoosely.node (hg : FollowsLoosely M E o s u g g') :
    Follows M E o s u (Grammar.node k g) (Grammar.node k g') := by
  intro es t hrun hfits hends
  obtain ⟨fs, w, hfs, hemit⟩ := run_capture hrun
  cases hemit
  refine Yields.capture (hg fs _ hfs hfits.of_node hends) fun fs' v hbuilt => ?_
  obtain ⟨hinputs, hoffset, hstripped⟩ := hbuilt
  refine ⟨hinputs, ?_, rfl, ?_⟩
  · rw [hoffset, fullLenAll, fullLen, fullLenAll, Nat.add_zero]
  · simp [hstripped]

theorem FollowsLoosely.append_behind (hg : Follows M Anywhere o s u g g')
    (hh : ∀ t v, t.Omits M v → FollowsLoosely M E t.offset t v h h') :
    FollowsLoosely M E o s u (g ++ h) (g' ++ h') := by
  intro es t hrun hfits hends
  obtain ⟨fs, gs, w, hfs, hgs, rfl⟩ := run_append hrun
  rw [fitsAll_append] at hfits
  refine Yields.append (hg fs w hfs hfits.1 endsAt_anywhere) fun fs' v hbuilt => ?_
  have hrest := hh w v hbuilt.inputs gs t hgs
  rw [hbuilt.offset] at hrest
  refine (hrest hfits.2 hends).mono fun gs' v' hbuilt' => ?_
  obtain ⟨hinputs, hoffset, hstripped⟩ := hbuilt'
  refine ⟨hinputs, ?_, ?_⟩
  · rw [hoffset, fullLenAll_append, Nat.add_assoc]
  · rw [strippedAll_append, hbuilt.elements.stripped, hstripped, withoutAll_append, strippedAll_append]

/-! ### Parentheses -/

/-- One token of a parenthesised run: it closes the outermost parenthesis, or the run goes on. -/
theorem balancedLength?_cons (depth : Nat) (k : SyntaxKind) :
    (∀ t ts, t.kind = k → balancedLength? depth (t :: ts) = some 1) ∨
    ∃ depth', ∀ t ts, t.kind = k →
      balancedLength? depth (t :: ts) = (balancedLength? depth' ts).map (· + 1) := by
  by_cases hleft : k = .leftParen
  · refine .inr ⟨depth + 1, fun t ts ht => ?_⟩
    rw [balancedLength?, ht, hleft]
    rfl
  · by_cases hright : k = .rightParen
    · by_cases hlast : depth ≤ 1
      · refine .inl fun t ts ht => ?_
        rw [balancedLength?, ht, hright]
        simp [hlast]
      · refine .inr ⟨depth - 1, fun t ts ht => ?_⟩
        rw [balancedLength?, ht, hright]
        simp [hlast]
    · refine .inr ⟨depth, fun t ts ht => ?_⟩
      rw [balancedLength?, ht]
      simp [hleft, hright]

theorem run_takeN_succ {a : Token} {rest : List Token} {n p : Nat} {e : Token}
    (hrun : (takeN n).run ⟨p + a.fullLen, rest, e⟩ = .ok (es, t)) :
    (takeN (n + 1)).run ⟨p, a :: rest, e⟩ = .ok (.token a :: es, t) := by
  show (Grammar.append take (takeN n)).run _ = _
  have htake := run_take_eq (s := ⟨p, a :: rest, e⟩) rfl
  rw [Input.behind_eq rfl] at htake
  unfold Grammar.append
  simp only [htake, hrun, List.singleton_append]

/-- Parentheses are closed at the same token, whatever is left out between them. -/
theorem exists_balanced {ts us : List Token} {depth n : Nat} (o' : Nat) (e e' : Token)
    (homits : Token.Enters M b o ts us) (hn : balancedLength? depth ts = some n) :
    ∃ m es rest es' rest' p, balancedLength? depth us = some m ∧
      (takeN n).run ⟨o, ts, e⟩ = .ok (es, ⟨o + fullLenAll es, rest, e⟩) ∧
      (takeN m).run ⟨o', us, e'⟩ = .ok (es', ⟨p, rest', e'⟩) ∧
      Token.Omits M (o + fullLenAll es) rest rest' ∧
      strippedAll es' = strippedAll (withoutAll M o es) := by
  have htoken : ∀ (a : Token) (es : List Element),
      fullLenAll (.token a :: es) = a.fullLen + fullLenAll es := fun a es => by
    rw [fullLenAll, fullLen]
  induction homits generalizing depth n o' with
  | nil => cases hn
  | @keep _ o a c ts us hmark halike _ _ _ hrest ih =>
    have hunmarked : isMarked M o (.token a) = false := isMarked_of_none (by simpa using hmark 0) _
    -- the token closes the last parenthesis, or the search goes on at the same depth on both sides
    rcases balancedLength?_cons depth a.kind with hlast | ⟨depth', hgoes⟩
    · rw [hlast a ts rfl] at hn
      cases hn
      refine ⟨1, [.token a], ts, [.token c], us, o' + c.fullLen, hlast c us halike.kind, ?_,
        run_takeN_succ rfl, ?_, ?_⟩
      · rw [htoken, fullLenAll, Nat.add_zero]
        exact run_takeN_succ rfl
      · rwa [htoken, fullLenAll, Nat.add_zero]
      · simp [withoutAll_cons hunmarked, halike.kind, halike.text]
    · rw [hgoes a ts rfl, Option.map_eq_some_iff] at hn
      obtain ⟨n, hn, rfl⟩ := hn
      obtain ⟨m, es, rest, es', rest', p, hm, hes, hes', homits, hstripped⟩ :=
        ih (o' + c.fullLen) hn
      refine ⟨m + 1, .token a :: es, rest, .token c :: es', rest', p, ?_, ?_, run_takeN_succ hes',
        ?_, ?_⟩
      · rw [hgoes c us halike.kind, hm]
        rfl
      · rw [htoken, ← Nat.add_assoc]
        exact run_takeN_succ hes
      · rwa [htoken, ← Nat.add_assoc]
      · simp [withoutAll_cons hunmarked, halike.kind, halike.text, hstripped, fullLen]
  | @drop _ o a ts us hmark hkind _ _ hrest ih =>
    have hmarked : isMarked M o (.token a) = true := by
      rw [isMarked, hmark]
      rfl
    -- a token that is left out is no parenthesis, so the depth stays
    have hgoes : balancedLength? depth (a :: ts) = (balancedLength? depth ts).map (· + 1) := by
      rw [balancedLength?, hkind]
      rfl
    rw [hgoes, Option.map_eq_some_iff] at hn
    obtain ⟨n, hn, rfl⟩ := hn
    obtain ⟨m, es, rest, es', rest', p, hm, hes, hes', homits, hstripped⟩ := ih o' hn
    refine ⟨m, .token a :: es, rest, es', rest', p, hm, ?_, hes', ?_, ?_⟩
    · rw [htoken, ← Nat.add_assoc]
      exact run_takeN_succ hes
    · rwa [htoken, ← Nat.add_assoc]
    · rw [withoutAll_marked hmarked, hstripped, fullLen]

theorem follows_balancedParens (hinputs : s.Omits M u) :
    FollowsLoosely M E s.offset s u balancedParens balancedParens := by
  intro es t hrun _ _
  unfold balancedParens peek at hrun
  dsimp only at hrun
  split at hrun
  · next n hn =>
    obtain ⟨m, es', rest, fs, rest', p, hm, hes, hfs, homits, hstripped⟩ :=
      exists_balanced u.offset s.endOfFile u.endOfFile hinputs.pending hn
    have hsame := hes.symm.trans hrun
    cases hsame
    unfold Yields balancedParens peek
    dsimp only
    rw [hm]
    dsimp only
    rw [hfs]
    exact ⟨⟨homits, hinputs.kind_endOfFile, hinputs.kind_endOfFile', hinputs.text_endOfFile⟩, rfl,
      hstripped⟩
  · cases hrun

/-! ### Whether a declaration starts -/

section Words

variable {f : Token → Token}

/-- A change of tokens that keeps their text, and their kind if it is not that of an operator. -/
def KeepsWords (f : Token → Token) : Prop :=
  ∀ t, (f t).text = t.text ∧
    ((f t).kind = t.kind ∨ (f t).kind.isOperator = true ∧ t.kind.isOperator = true)

theorem KeepsWords.kind_eq_of {α : Type} (hf : KeepsWords f) (p : SyntaxKind → α)
    (hpre : p .prefixOperator = p .binaryOperator) (hpost : p .postfixOperator = p .binaryOperator)
    (t : Token) : p (f t).kind = p t.kind := by
  have hoperator : ∀ k : SyntaxKind, k.isOperator = true → p k = p .binaryOperator := by
    intro k hk
    unfold SyntaxKind.isOperator at hk
    split at hk <;> trivial
  rcases (hf t).2 with heq | ⟨hleft, hright⟩
  · rw [heq]
  · rw [hoperator _ hleft, hoperator _ hright]

theorem KeepsWords.headKind_eq_of {α : Type} (hf : KeepsWords f) (p : SyntaxKind → α)
    (hpre : p .prefixOperator = p .binaryOperator) (hpost : p .postfixOperator = p .binaryOperator)
    (ts : List Token) : p (headKind (ts.map f)) = p (headKind ts) := by
  cases ts with
  | nil => rfl
  | cons t ts => exact hf.kind_eq_of p hpre hpost t

theorem startsWithModifier_map (hf : KeepsWords f) (ts : List Token) :
    startsWithModifier (ts.map f) = startsWithModifier ts := by
  cases ts with
  | nil => rfl
  | cons t ts =>
    have hclass := hf.headKind_eq_of (fun k => (k == .funcKw || k == .varKw || k == .letKw : Bool))
      rfl rfl ts
    have htext := (hf t).1
    rw [List.map_cons, startsWithModifier, startsWithModifier, htext, hclass]
    exact hf.kind_eq_of (fun k => startsWithModifier ({ t with kind := k } :: ts)) rfl rfl t

theorem startsWithDetail_map (hf : KeepsWords f) (ts : List Token) :
    startsWithDetail (ts.map f) = startsWithDetail ts := by
  rw [startsWithDetail, startsWithDetail, ← List.map_drop, hf.headKind_eq_of (· == .leftParen) rfl rfl,
    hf.headKind_eq_of (· == .rightParen) rfl rfl]

theorem skipParens_map (hf : KeepsWords f) (depth : Nat) (ts : List Token) :
    skipParens depth (ts.map f) = (skipParens depth ts).map f := by
  induction ts generalizing depth with
  | nil => rw [List.map_nil, skipParens, List.map_nil]
  | cons t ts ih =>
    rw [List.map_cons, skipParens, skipParens, hf.kind_eq_of (· == .leftParen) rfl rfl,
      hf.kind_eq_of (· == .rightParen) rfl rfl]
    simp only [ih]
    split_ifs <;> rfl

theorem startsDecl_map (hf : KeepsWords f) (fuel : Nat) (ts : List Token) :
    startsDecl fuel (ts.map f) = startsDecl fuel ts := by
  induction fuel generalizing ts with
  | zero => exact hf.headKind_eq_of isDeclKeyword rfl rfl ts
  | succ fuel ih =>
    rw [startsDecl, startsDecl]
    simp only [← List.map_drop, hf.headKind_eq_of (· == .atSign) rfl rfl,
      hf.headKind_eq_of (· == .leftParen) rfl rfl, hf.headKind_eq_of isDeclKeyword rfl rfl,
      startsWithModifier_map hf, startsWithDetail_map hf, skipParens_map hf]
    split_ifs <;> simp only [ih]

end Words

end Grammar

end SwiftTidy
