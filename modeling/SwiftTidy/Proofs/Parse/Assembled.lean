import SwiftTidy.Parse.Grammar
import SwiftTidy.Proofs.Parse.Lexer

/-!
# Grammars put together from basic steps

`Assembled held g` says that `g` is put together from the basic steps in such a way that it places
the elements `held`, which were read before, in front of what it reads itself: every element that
was captured is emitted again, once and in its place.  It is a statement about how a grammar is
written, and not about what it reads, so it is shown once for every production; whatever the basic
steps keep is then kept by all of them.

`Assembled.kept` is the first such fact: the elements that a grammar builds, and the tokens it
leaves, spell the elements that were held and the tokens it found.
-/

namespace SwiftTidy

namespace Grammar

/-- The grammars that place the elements `held` and then whatever they read. -/
inductive Assembled : List Element → Grammar → Prop where
  | emit (es : List Element) : Assembled es (emit es)
  /-- A node may take the place of what is held. -/
  | wrap {es : List Element} {g : Grammar} (k : SyntaxKind) (hk : k.isNode = true)
      (hg : Assembled [.node k es] g) : Assembled es g
  /-- Elements held for longer come first. -/
  | emitFront {held : List Element} {g : Grammar} (es : List Element) (hg : Assembled held g) :
      Assembled (es ++ held) (Grammar.emit es ++ g)
  /-- A rejection points at the next token or at the end of the file. -/
  | fail (held : List Element) (e : Input → ParseError)
      (he : ∀ s, (e s).offset = s.position ∨ (e s).offset = s.atEnd.position) :
      Assembled held (fail e)
  | peek {held : List Element} {f : Input → Grammar} (hf : ∀ s, Assembled held (f s)) :
      Assembled held (peek f)
  | append {held : List Element} {g h : Grammar} (hg : Assembled held g) (hh : Assembled [] h) :
      Assembled held (g ++ h)
  /-- What was captured is held next, behind what is held already. -/
  | capture {held : List Element} {g : Grammar} {k : List Element → Grammar}
      (front : List Element) (hg : Assembled held g) (hk : ∀ es, Assembled (front ++ es) (k es)) :
      Assembled (front ++ held) (capture g k)
  | take : Assembled [] take
  | takeAs (k : SyntaxKind) (hk : k.IsWord) (hgiven : k.IsGiven) : Assembled [] (takeAs k)
  | splitRightAngle : Assembled [] splitRightAngle

/-! ### Runs taken apart -/

variable {g h : Grammar} {s s' : Input} {es : List Element}

theorem run_append (hrun : (g ++ h).run s = .ok (es, s')) :
    ∃ fs gs t, g.run s = .ok (fs, t) ∧ h.run t = .ok (gs, s') ∧ es = fs ++ gs := by
  change (append g h).run s = _ at hrun
  unfold append at hrun
  dsimp only at hrun
  split at hrun
  · cases hrun
  · rename_i fs t hg
    split at hrun
    · cases hrun
    · rename_i gs u hh
      cases hrun
      exact ⟨fs, gs, t, hg, hh, rfl⟩

theorem run_emit_append {fs : List Element} (hrun : (emit fs ++ g).run s = .ok (es, s')) :
    ∃ gs, g.run s = .ok (gs, s') ∧ es = fs ++ gs := by
  obtain ⟨fs', gs, t, hfs, hgs, rfl⟩ := run_append hrun
  cases hfs
  exact ⟨gs, hgs, rfl⟩

theorem run_capture {k : List Element → Grammar} (hrun : (capture g k).run s = .ok (es, s')) :
    ∃ fs t, g.run s = .ok (fs, t) ∧ (k fs).run t = .ok (es, s') := by
  unfold capture at hrun
  dsimp only at hrun
  split at hrun
  · cases hrun
  · rename_i fs t hg
    exact ⟨fs, t, hg, hrun⟩

theorem run_takeAs {k : SyntaxKind} (hrun : (takeAs k).run s = .ok (es, s')) :
    ∃ t rest, s.pending = t :: rest ∧ es = [.token { t with kind := k }] ∧
      s' = ⟨s.offset + t.fullLen, rest, s.endOfFile⟩ := by
  unfold takeAs at hrun
  dsimp only at hrun
  split at hrun
  · cases hrun
  · rename_i t rest hs
    cases hrun
    exact ⟨t, rest, hs, rfl, rfl⟩

/-- A token that is read as it is keeps its kind. -/
theorem run_take (hrun : take.run s = .ok (es, s')) :
    ∃ t rest, s.pending = t :: rest ∧ es = [.token { t with kind := t.kind }] ∧
      s' = ⟨s.offset + t.fullLen, rest, s.endOfFile⟩ := by
  obtain ⟨t, rest, hs, rfl, rfl⟩ := run_takeAs (s := s) (k := s.kind) hrun
  have hkind : s.kind = t.kind := by
    unfold Input.kind Input.kindAt Input.nth
    rw [hs]
    rfl
  exact ⟨t, rest, hs, by rw [hkind], rfl⟩

/-! ### Runs put together -/

theorem run_append_eq {g h : Grammar} {s t u : Input} {es fs : List Element} (hg : g.run s = .ok (es, t))
    (hh : h.run t = .ok (fs, u)) : (g ++ h).run s = .ok (es ++ fs, u) := by
  show (Grammar.append g h).run s = _
  unfold Grammar.append
  simp only [hg, hh]

theorem run_capture_eq {g : Grammar} {k : List Element → Grammar} {s t u : Input} {es fs : List Element}
    (hg : g.run s = .ok (es, t)) (hk : (k es).run t = .ok (fs, u)) :
    (Grammar.capture g k).run s = .ok (fs, u) := by
  unfold Grammar.capture
  simp only [hg, hk]

theorem append_assoc (g h i : Grammar) : g ++ h ++ i = g ++ (h ++ i) := by
  show Grammar.append (Grammar.append g h) i = Grammar.append g (Grammar.append h i)
  unfold Grammar.append
  congr 1
  funext s
  dsimp only
  cases g.run s with
  | error e => rfl
  | ok p =>
    dsimp only
    cases h.run p.2 with
    | error e => rfl
    | ok q =>
      dsimp only
      cases i.run q.2 with
      | error e => rfl
      | ok x => simp

end Grammar

/-- Every nonterminal of the level is put together from basic steps. -/
def Level.Assembled (r : Level) : Prop := ∀ p, Grammar.Assembled [] (r.read p)

namespace Grammar.Assembled

variable {held : List Element} {g : Grammar}

/-! ### The combinators -/

theorem nothing : Assembled [] nothing := emit []

theorem captured {k : List Element → Grammar} (hg : Assembled held g)
    (hk : ∀ es, Assembled es (k es)) : Assembled held (Grammar.capture g k) :=
  capture [] hg hk

/-- What is held waits while something else is captured. -/
theorem capturedBehind {k : List Element → Grammar} (hg : Assembled [] g)
    (hk : ∀ es, Assembled (held ++ es) (k es)) : Assembled held (Grammar.capture g k) := by
  have h := capture held hg hk
  rwa [List.append_nil] at h

theorem node {k : SyntaxKind} (hk : k.isNode = true) (hg : Assembled held g) :
    Assembled held (Grammar.node k g) :=
  captured hg fun _ => wrap k hk (emit _)

theorem ite {g h : Grammar} {p : Prop} [Decidable p] (hg : Assembled held g)
    (hh : Assembled held h) : Assembled held (if p then g else h) := by
  split
  · exact hg
  · exact hh

theorem expected (held : List Element) (what : String) :
    Assembled held (Grammar.expected what) :=
  fail held _ fun _ => Or.inl rfl

theorem tooDeep (held : List Element) :
    Assembled held (Grammar.fail fun s => ⟨s.position, .tooDeep⟩) :=
  fail held _ fun _ => Or.inl rfl

theorem takeN (n : Nat) : Assembled [] (Grammar.takeN n) := by
  induction n with
  | zero => exact nothing
  | succ n ih => exact append take ih

theorem expect (k : SyntaxKind) (what : String) : Assembled [] (Grammar.expect k what) :=
  peek fun _ => ite take (expected [] what)

theorem onlyIf (test : Input → Bool) (hg : Assembled [] g) :
    Assembled [] (Grammar.onlyIf test g) :=
  peek fun _ => ite hg nothing

theorem whenAt (k : SyntaxKind) (hg : Assembled [] g) : Assembled [] (Grammar.whenAt k g) :=
  onlyIf _ hg

theorem whenAtAny (ks : List SyntaxKind) (hg : Assembled [] g) :
    Assembled [] (Grammar.whenAtAny ks g) :=
  onlyIf _ hg

theorem eat (k : SyntaxKind) : Assembled [] (Grammar.eat k) := whenAt k take

/-- A loop is put together from basic steps if each of its turns is. -/
theorem repeated {next : Input → Option Grammar} (hnext : ∀ s, ∀ g ∈ next s, Assembled [] g)
    (bound : Nat) : Assembled [] (Grammar.repeated next bound) := by
  induction bound with
  | zero => exact tooDeep []
  | succ bound ih =>
    refine peek fun s => ?_
    split
    · exact nothing
    · rename_i g hg
      exact append (hnext s g hg) ih

theorem commaList {k : SyntaxKind} (hk : k.isNode = true) (stop : Input → Bool) {item : Grammar}
    (hitem : Assembled [] item) (bound : Nat) {first : Grammar} (hfirst : Assembled held first) :
    Assembled held (Grammar.commaList k stop item bound first) := by
  induction bound generalizing held first with
  | zero => exact tooDeep held
  | succ bound ih =>
    refine captured hfirst fun es => peek fun s => ite ?_ (node hk (emit es))
    exact append (node hk (append (emit es) take)) (peek fun _ => ite nothing (ih hitem))

theorem commaSeparated {k : SyntaxKind} (hk : k.isNode = true) (bound : Nat) {item : Grammar}
    (hitem : Assembled [] item) : Assembled [] (Grammar.commaSeparated k bound item) :=
  commaList hk _ hitem bound hitem

theorem commaSeparatedUntil (close : SyntaxKind) {k : SyntaxKind} (hk : k.isNode = true)
    (bound : Nat) {item : Grammar} (hitem : Assembled [] item) :
    Assembled [] (Grammar.commaSeparatedUntil close k bound item) :=
  onlyIf _ (commaList hk _ hitem bound hitem)

/-- The element in front is held while each suffix is read, and becomes part of its node. -/
theorem suffixes {next : Input → Element → Option (SyntaxKind × Grammar)}
    (hnext : ∀ s e, ∀ p ∈ next s e, p.1.isNode = true ∧ Assembled [] p.2) (bound : Nat)
    (e : Element) : Assembled [e] (Grammar.suffixes next bound e) := by
  induction bound generalizing e with
  | zero => exact tooDeep [e]
  | succ bound ih =>
    refine peek fun s => ?_
    split
    · exact emit [e]
    · rename_i k g hg
      obtain ⟨hk, hg⟩ := hnext s e (k, g) hg
      exact capturedBehind hg fun es => wrap k hk (ih _)

theorem withSuffixes (hg : Assembled [] g) (bound : Nat)
    {next : Input → Element → Option (SyntaxKind × Grammar)}
    (hnext : ∀ s e, ∀ p ∈ next s e, p.1.isNode = true ∧ Assembled [] p.2) :
    Assembled [] (Grammar.withSuffixes g bound next) := by
  refine captured hg fun es => ?_
  split
  · exact suffixes hnext bound _
  · exact emit _

theorem nodeUnlessSingle {k : SyntaxKind} (hk : k.isNode = true) (hg : Assembled [] g) :
    Assembled [] (Grammar.nodeUnlessSingle k g) := by
  refine captured hg fun es => ?_
  split
  · exact emit _
  · exact wrap k hk (emit _)

/-- What is held is placed: what holds of the result, and passes to parts of a list and to the children of a
node, holds of it. -/
theorem of_held {P : Nat → List Element → Prop} (hg : Assembled held g) {s t : Input} {es : List Element}
    {o : Nat} (hnil : ∀ o, P o [])
    (happend : ∀ o es fs, P o (es ++ fs) ↔ P o es ∧ P (o + Element.fullLenAll es) fs)
    (hnode : ∀ o k es, P o [.node k es] → P o es) (hrun : g.run s = .ok (es, t)) (hall : P o es) :
    P o held := by
  induction hg generalizing o s es t with
  | emit fs =>
    cases hrun
    exact hall
  | wrap k hk hg ih => exact hnode _ _ _ (ih hrun hall)
  | emitFront fs hg ih =>
    obtain ⟨gs, hgs, rfl⟩ := run_emit_append hrun
    rw [happend] at hall ⊢
    exact ⟨hall.1, ih hgs hall.2⟩
  | fail held e he => cases hrun
  | peek hf ih => exact ih s hrun hall
  | append hg hh ihg ihh =>
    obtain ⟨fs, gs, w, hfs, hgs, rfl⟩ := run_append hrun
    exact ihg hfs ((happend _ _ _).mp hall).1
  | capture front hg hk ihg ihk =>
    obtain ⟨fs, w, hfs, hes⟩ := run_capture hrun
    have hplaced := ihk fs hes hall
    rw [happend] at hplaced ⊢
    exact ⟨hplaced.1, ihg hfs hplaced.2⟩
  | take => exact hnil _
  | takeAs k hk _ => exact hnil _
  | splitRightAngle => exact hnil _

/-! ### What the basic steps keep -/

/-- What a grammar keeps when it goes from `s`, with `held` read before, to `s'` and builds `es`:
the text, the end-of-file token, and that no other token has its kind. -/
structure Kept (held : List Element) (s : Input) (es : List Element) (s' : Input) : Prop where
  spell : Token.spell (Element.leavesAll es ++ s'.pending)
    = Token.spell (Element.leavesAll held ++ s.pending)
  isWord : (∀ t ∈ Element.leavesAll held ++ s.pending, t.kind.IsWord) →
    ∀ t ∈ Element.leavesAll es ++ s'.pending, t.kind.IsWord
  endOfFile : s'.endOfFile = s.endOfFile

namespace Kept

variable {front es fs : List Element} {s s' s'' : Input}

theorem refl (es : List Element) (s : Input) : Kept es s es s := ⟨rfl, id, rfl⟩

theorem trans (h : Kept held s es s') (h' : Kept es s' fs s'') : Kept held s fs s'' :=
  ⟨h'.spell.trans h.spell, fun hw => h'.isWord (h.isWord hw), h'.endOfFile.trans h.endOfFile⟩

/-- Elements held for longer stay in front. -/
theorem append_left (front : List Element) (h : Kept held s es s') :
    Kept (front ++ held) s (front ++ es) s' where
  spell := by
    have hs := h.spell
    simp only [Token.spell_append] at hs
    simp only [Element.leavesAll_append, Token.spell_append, List.append_assoc, hs]
  isWord hw t ht := by
    rw [Element.leavesAll_append, List.append_assoc] at hw ht
    rcases List.mem_append.mp ht with ht | ht
    · exact hw t (List.mem_append_left _ ht)
    · exact h.isWord (fun u hu => hw u (List.mem_append_right _ hu)) t ht
  endOfFile := h.endOfFile

/-- A node has the leaves of its children. -/
theorem of_node {k : SyntaxKind} (h : Kept [.node k held] s es s') : Kept held s es s' where
  spell := by simpa using h.spell
  isWord hw := h.isWord (by simpa using hw)
  endOfFile := h.endOfFile

/-- Reading a token, under its own kind or another. -/
theorem read {t : Token} {rest : List Token} {k : SyntaxKind} {offset : Nat}
    (hs : s.pending = t :: rest) (hk : t.kind.IsWord → k.IsWord) :
    Kept [] s [.token { t with kind := k }] ⟨offset, rest, s.endOfFile⟩ where
  spell := by
    rw [hs]
    rfl
  isWord hw u hu := by
    rw [hs] at hw
    simp only [Element.leavesAll_cons, Element.leaves_token, Element.leavesAll_nil,
      List.append_nil, List.singleton_append, List.mem_cons] at hu
    rcases hu with rfl | hu
    · exact hk (hw t (by simp))
    · exact hw u (by simp [hu])
  endOfFile := rfl

/-- Cutting `>` off an operator splits its text and gives the trivia to the two sides. -/
theorem splitRightAngle (s : Input) : Kept [] s [] s.splitRightAngle := by
  unfold Input.splitRightAngle
  split
  · exact refl [] s
  · rename_i t rest hs
    split
    · rename_i c cs htext
      split
      · refine ⟨?_, ?_, rfl⟩
        · rw [hs]
          simp [Token.toList_fullText, htext]
        · intro hw u hu
          rw [hs] at hw
          simp only [Element.leavesAll_nil, List.nil_append, List.mem_cons] at hw hu
          rcases hu with rfl | rfl | hu
          · show SyntaxKind.binaryOperator.IsWord
            decide
          · exact Lexer.classifyOperator_isWord _ _ _
          · exact hw u (Or.inr hu)
      · exact refl [] s
    · exact refl [] s

end Kept

/-- A grammar put together from basic steps keeps the text and the kinds of tokens. -/
theorem kept (hg : Assembled held g) {s s' : Input} {es : List Element}
    (h : g.run s = .ok (es, s')) : Kept held s es s' := by
  induction hg generalizing s es s' with
  | emit fs =>
    cases h
    exact Kept.refl fs s
  | wrap k hk hg ih => exact (ih h).of_node
  | emitFront fs hg ih =>
    obtain ⟨gs, hgs, rfl⟩ := run_emit_append h
    exact (ih hgs).append_left fs
  | fail held e he => cases h
  | peek hf ih => exact ih s h
  | append hg hh ihg ihh =>
    obtain ⟨fs, gs, t, hfs, hgs, rfl⟩ := run_append h
    have hrest := (ihh hgs).append_left fs
    rw [List.append_nil] at hrest
    exact (ihg hfs).trans hrest
  | capture front hg hk ihg ihk =>
    obtain ⟨fs, t, hfs, hes⟩ := run_capture h
    exact ((ihg hfs).append_left front).trans (ihk fs hes)
  | take =>
    obtain ⟨t, rest, hs, rfl, rfl⟩ := run_take h
    exact Kept.read hs id
  | takeAs k hk _ =>
    obtain ⟨t, rest, hs, rfl, rfl⟩ := run_takeAs h
    exact Kept.read hs fun _ => hk
  | splitRightAngle =>
    cases h
    exact Kept.splitRightAngle s

end Grammar.Assembled

end SwiftTidy
