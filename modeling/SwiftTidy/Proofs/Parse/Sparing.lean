import SwiftTidy.Proofs.Parse.Shedding
import SwiftTidy.Proofs.Tree.Meeting

/-!
# Trees without some of their semicolons

A tree without the semicolons at some positions is the tree of its own text, trivia ignored, where each
of them may be left out of the tokens and of the tree (`exists_parse_of_sheds`).

A tree has its semicolons from the tokens (`semicolon_mem_tokens`), so the marks of the tokens are marks
of the tree (`isSome_marks`) and none is inside a token that is cut behind a `>`; what is left of the
leaves is then spelled as what is left of the tokens (`Token.Sheds.exists_of_refines`).
-/

namespace SwiftTidy

namespace Token

variable {ps : List Nat} {M : Marks} {o i : Nat} {ts us vs : List Token}

/-! ### Where tokens stand -/

theorem snd_mem_of_mem_placed {p : Nat × Token} (hp : p ∈ placed o ts) : p.2 ∈ ts := by
  rw [← map_snd_placed o ts]
  exact List.mem_map_of_mem hp

theorem mem_placed_concat {p : Nat × Token} (hp : p ∈ placed o ts) (t : Token) :
    p ∈ placed o (ts ++ [t]) := by
  rw [placed_append]
  exact List.mem_append_left _ hp

/-- The lexeme of a token that is not empty starts in front of its end. -/
theorem position_lt_of_mem_placed (hts : ∀ t ∈ ts, t.IsCut) :
    ∀ p ∈ placed o ts, p.1 + p.2.leading.len < p.1 + p.2.fullLen := by
  intro p hp
  have hlen := (hts p.2 (snd_mem_of_mem_placed hp)).len_pos
  rw [fullLen]
  omega

theorem start_lt_of_mem_placed (hts : ∀ t ∈ ts, t.IsCut) :
    ∀ p ∈ placed o ts, p.1 < p.1 + p.2.fullLen := by
  intro p hp
  have hposition := position_lt_of_mem_placed hts p hp
  omega

/-- Of two tokens in a list one stands behind the other, unless they are one. -/
theorem eq_or_behind {p q : Nat × Token} (hp : p ∈ placed o ts) (hq : q ∈ placed o ts) :
    p = q ∨ p.1 + p.2.fullLen ≤ q.1 ∨ q.1 + q.2.fullLen ≤ p.1 := by
  induction ts generalizing o with
  | nil => cases hp
  | cons t ts ih =>
    rw [placed, List.mem_cons] at hp hq
    rcases hp with rfl | hp
    · rcases hq with rfl | hq
      · exact .inl rfl
      · exact .inr (.inl (Cursor.bounds_of_mem_placed hq).1)
    · rcases hq with rfl | hq
      · exact .inr (.inr (Cursor.bounds_of_mem_placed hp).1)
      · exact ih hp hq

/-- A token is told by one of its bytes; of the last one, which may be empty, there need not be one. -/
theorem eq_of_placed {t : Token} {f : Nat × Token → Nat} (hfrom : ∀ p, p.1 ≤ f p)
    (hto : ∀ p ∈ placed o ts, f p < p.1 + p.2.fullLen) {p q : Nat × Token}
    (hp : p ∈ placed o (ts ++ [t])) (hq : q ∈ placed o (ts ++ [t])) (h : f p = f q) : p = q := by
  have hlast : ∀ p ∈ placed o ts, f p ≠ f (o + fullLenAll ts, t) := by
    intro p hp hsame
    have hend := (Cursor.bounds_of_mem_placed hp).2.1
    have hbyte := hto p hp
    have hstart : o + fullLenAll ts ≤ _ := hfrom (o + fullLenAll ts, t)
    omega
  rw [placed_append, List.mem_append, placed, placed, List.mem_singleton] at hp hq
  rcases hp with hp | rfl
  · rcases hq with hq | rfl
    · have hstart := hfrom p
      have hstart' := hfrom q
      have hend := hto p hp
      have hend' := hto q hq
      rcases eq_or_behind hp hq with heq | hbehind | hbehind
      · exact heq
      · omega
      · omega
    · exact absurd h (hlast p hp)
  · rcases hq with hq | rfl
    · exact absurd h.symm (hlast q hq)
    · rfl

/-- The marks are where the tokens at the positions start. -/
theorem isSome_marks_iff (hpos : ∀ t ∈ ts, 0 < t.fullLen) :
    (marks ps o ts i).isSome = true ↔ ∃ p ∈ placed o ts, p.1 = i ∧ p.2.startsAt ps p.1 = true := by
  induction ts generalizing o with
  | nil => simp [marks, placed]
  | cons t ts ih =>
    rw [List.forall_mem_cons] at hpos
    rw [placed, marks]
    by_cases hi : i = o
    · subst hi
      rw [if_pos rfl]
      constructor
      · intro h
        refine ⟨(i, t), List.mem_cons_self, rfl, ?_⟩
        by_contra hnot
        rw [if_neg hnot] at h
        cases h
      · rintro ⟨p, hp, hpi, hstarts⟩
        rcases List.mem_cons.mp hp with rfl | hp
        · rw [if_pos hstarts]
          rfl
        · have hbehind := (Cursor.bounds_of_mem_placed hp).1
          have := hpos.1
          omega
    · rw [if_neg hi, ih hpos.2]
      constructor
      · rintro ⟨p, hp, h⟩
        exact ⟨p, List.mem_cons_of_mem _ hp, h⟩
      · rintro ⟨p, hp, hpi, hstarts⟩
        rcases List.mem_cons.mp hp with rfl | hp
        · exact absurd hpi.symm hi
        · exact ⟨p, hp, hpi, hstarts⟩

/-- A semicolon that may be left out is followed by no other one that is. -/
theorem marks_behind_eq_none (hpos : ∀ t ∈ ts, 0 < t.fullLen)
    (hkinds : ∀ p ∈ placed o ts, p.2.startsAt ps p.1 = true → p.2.kind = .semicolon)
    (hspare : maySpare ps o ts = true) {p : Nat × Token} (hp : p ∈ placed o ts)
    (hstarts : p.2.startsAt ps p.1 = true) : marks ps o ts (p.1 + p.2.fullLen) = none := by
  induction ts generalizing o with
  | nil => cases hp
  | cons t ts ih =>
    rw [placed, List.forall_mem_cons] at hkinds
    rw [List.forall_mem_cons] at hpos
    rw [maySpare, Bool.and_eq_true] at hspare
    rw [placed, List.mem_cons] at hp
    rcases hp with rfl | hp
    · dsimp only at hstarts ⊢
      rw [if_pos hstarts, Bool.and_eq_true] at hspare
      rw [marks_cons_of_lt (by omega)]
      cases ts with
      | nil => rfl
      | cons s ts =>
        rw [marks_self, if_neg]
        intro hs
        -- a semicolon starts nothing anew
        have hkind : s.kind = .semicolon := hkinds.2 (o + t.fullLen, s) (by rw [placed]; simp) hs
        have hgoes := headKind_of_startAnew hspare.1.1
        rw [Grammar.headKind, hkind] at hgoes
        cases hgoes
    · have hbehind := (Cursor.bounds_of_mem_placed hp).1
      rw [marks_cons_of_lt (by have := hpos.1; omega)]
      exact ih hpos.2 hkinds.2 hspare.2 hp

/-- Every mark on the tokens, the first of which starts at byte `o`, is at the start of a semicolon. -/
def MarksSemicolons (M : Marks) (o : Nat) (ts : List Token) : Prop :=
  ∀ p ∈ placed o ts, ((M p.1).isSome = true → p.2.text = ";") ∧
    ∀ i, 0 < i → i < p.2.fullLen → M (p.1 + i) = none

theorem marksSemicolons_cons {t : Token} : MarksSemicolons M o (t :: ts) ↔
    (((M o).isSome = true → t.text = ";") ∧ ∀ i, 0 < i → i < t.fullLen → M (o + i) = none) ∧
      MarksSemicolons M (o + t.fullLen) ts := by
  rw [MarksSemicolons, placed, List.forall_mem_cons]
  rfl

section Split

variable {t : Token} {c : Char} {cs : List Char}

/-- A token that is cut in two is no semicolon. -/
theorem text_ne_of_split (htext : t.text.toList = '>' :: c :: cs) : t.text ≠ ";" := by
  intro hsemicolon
  rw [hsemicolon] at htext
  cases htext

/-- There is no mark inside a token that is cut in two. -/
theorem MarksSemicolons.split (h : MarksSemicolons M o (t :: ts)) (k k' : SyntaxKind)
    (htext : t.text.toList = '>' :: c :: cs) :
    M (o + (⟨k, ">", t.leading, []⟩ : Token).fullLen) = none ∧
      MarksSemicolons M (o + (⟨k, ">", t.leading, []⟩ : Token).fullLen)
        (⟨k', String.ofList (c :: cs), [], t.trailing⟩ :: ts) := by
  have hlen := fullLen_split k k' htext
  have hfront : 0 < (⟨k, ">", t.leading, []⟩ : Token).fullLen := by
    have hone : (">" : String).utf8ByteSize = 1 := rfl
    rw [fullLen, len, hone]
    omega
  have hback : 0 < (⟨k', String.ofList (c :: cs), [], t.trailing⟩ : Token).fullLen := by
    have hc := c.utf8Size_pos
    rw [fullLen, len, String.utf8ByteSize_ofList, String.utf8Len_cons]
    omega
  obtain ⟨⟨-, hinside⟩, hrest⟩ := marksSemicolons_cons.mp h
  have hmiddle := hinside _ hfront (by omega)
  refine ⟨hmiddle, marksSemicolons_cons.mpr ⟨⟨fun hsome => ?_, fun i hi hlt => ?_⟩, ?_⟩⟩
  · rw [hmiddle] at hsome
    cases hsome
  · rw [Nat.add_assoc]
    exact hinside _ (by omega) (by omega)
  · rwa [Nat.add_assoc, hlen]

end Split

/-! ### What is left of tokens -/

namespace Sheds

theorem append (h : Sheds M o ts us) {ts' us' : List Token}
    (h' : Sheds M (o + fullLenAll ts) ts' us') : Sheds M o (ts ++ ts') (us ++ us') := by
  induction h with
  | nil => simpa using h'
  | keep hmark _ ih =>
    rw [fullLenAll_cons, ← Nat.add_assoc] at h'
    exact .keep hmark (ih h')
  | drop hmark hdrop _ ih =>
    rw [fullLenAll_cons, fullLenAll_cons, ← Nat.add_assoc, ← Nat.add_assoc] at h'
    exact .drop hmark hdrop (ih h')

/-- The semicolon behind the last token is left out too. -/
theorem concat {t s : Token} {xs : List Token} (h : Sheds M o xs us) (hxs : xs = ts ++ [t])
    (hlast : M (o + fullLenAll ts) = none) (hdrop : (M (o + fullLenAll xs)).isSome = true) :
    ∃ front u, us = front ++ [u] ∧
      Sheds M o (xs ++ [s]) (front ++ [{ u with trailing := trailingWithout u s }]) := by
  induction h generalizing ts with
  | nil => simp at hxs
  | @keep o a xs us hmark hrest ih =>
    rw [fullLenAll_cons, ← Nat.add_assoc] at hdrop
    cases ts with
    | nil =>
      obtain ⟨rfl, rfl⟩ := List.cons.inj hxs
      cases hrest
      exact ⟨[], a, rfl, .drop hmark hdrop .nil⟩
    | cons b ts =>
      obtain ⟨rfl, rfl⟩ := List.cons.inj hxs
      rw [fullLenAll_cons, ← Nat.add_assoc] at hlast
      obtain ⟨front, u, rfl, hsheds⟩ := ih rfl hlast hdrop
      exact ⟨a :: front, u, rfl, .keep hmark hsheds⟩
  | @drop o a b xs us hmark hdropped _ ih =>
    rw [fullLenAll_cons, fullLenAll_cons, ← Nat.add_assoc, ← Nat.add_assoc] at hdrop
    rcases ts with _ | ⟨c, _ | ⟨d, ts⟩⟩
    · cases hxs
    · -- the last token is not left out
      obtain ⟨rfl, -⟩ := List.cons.inj hxs
      rw [fullLenAll_cons, fullLenAll_nil, Nat.add_zero] at hlast
      rw [hlast] at hdropped
      cases hdropped
    · obtain ⟨rfl, hrest⟩ := List.cons.inj hxs
      obtain ⟨rfl, rfl⟩ := List.cons.inj hrest
      rw [fullLenAll_cons, fullLenAll_cons, ← Nat.add_assoc, ← Nat.add_assoc] at hlast
      obtain ⟨front, u, rfl, hsheds⟩ := ih rfl hlast hdrop
      exact ⟨_ :: front, u, rfl, .drop hmark hdropped hsheds⟩

/-- What is left is no longer than what was there. -/
theorem utf8Len_le (h : Sheds M o ts us) :
    String.utf8Len (spell us) ≤ String.utf8Len (spell ts) := by
  induction h with
  | nil => exact Nat.le_refl _
  | keep _ _ ih =>
    rw [spell_cons, spell_cons, String.utf8Len_append, String.utf8Len_append]
    exact Nat.add_le_add_left ih _
  | @drop _ t s _ _ _ _ _ ih =>
    have hlen : (trailingWithout t s).len ≤ t.trailing.len + s.leading.len + s.trailing.len := by
      unfold trailingWithout gap
      split_ifs
      · exact Nat.zero_le _
      · rw [Trivia.len_append, Trivia.len_append]
    simp only [spell_cons, String.utf8Len_append, utf8Len_fullText, fullLen, len]
    omega

/-- **The same spelling**: what is left of tokens that are cut in two is spelled as what is left of the
tokens, if every mark is at the start of a semicolon. -/
theorem exists_of_refines {ls : List Token} (h : Sheds M o us ls) (hrefines : Refines ts us)
    (hmarks : MarksSemicolons M o ts) : ∃ vs, Sheds M o ts vs ∧ spell vs = spell ls := by
  -- on what is left: a token that is cut in two goes on as its second part
  induction h generalizing ts with
  | nil =>
    cases hrefines
    exact ⟨[], .nil, rfl⟩
  | @keep o u us ls hmark _ ih =>
    cases hrefines with
    | @keep ts _ t k hrefines =>
      obtain ⟨vs, hsheds, hspell⟩ := ih hrefines (marksSemicolons_cons.mp hmarks).2
      refine ⟨t :: vs, .keep hmark hsheds, ?_⟩
      rw [spell_cons, spell_cons, hspell, toList_fullText, toList_fullText]
    | @split t ts _ c cs k k' htext hrefines =>
      have hlen := fullLen_split k k' htext
      obtain ⟨vs, hsheds, hspell⟩ := ih hrefines (hmarks.split k k' htext).2
      -- the semicolon that is left out stands behind the second part, if there is one
      cases hsheds with
      | @keep _ _ _ vs _ hsheds =>
        rw [Nat.add_assoc, hlen] at hsheds
        refine ⟨t :: vs, .keep hmark hsheds, ?_⟩
        rw [spell_cons _ ls, ← hspell]
        simp [toList_fullText, htext]
      | @drop _ _ s ts vs _ hdrop hsheds =>
        rw [Nat.add_assoc o, hlen] at hdrop hsheds
        refine ⟨_, .drop hmark hdrop hsheds, ?_⟩
        rw [spell_cons _ ls, ← hspell]
        simp [toList_fullText, htext, trailingWithout, gap]
  | @drop o u s us ls hmark hdrop _ ih =>
    cases hrefines with
    | @keep ts _ t k hrefines =>
      have hrest := (marksSemicolons_cons.mp hmarks).2
      cases hrefines with
      | @keep ts _ s j hrefines =>
        obtain ⟨vs, hsheds, hspell⟩ := ih hrefines (marksSemicolons_cons.mp hrest).2
        refine ⟨_, .drop hmark hdrop hsheds, ?_⟩
        rw [spell_cons, spell_cons, hspell, toList_fullText, toList_fullText]
        rfl
      | split j j' htext _ =>
        exact absurd ((marksSemicolons_cons.mp hrest).1.1 hdrop) (text_ne_of_split htext)
    | @split t ts _ c cs k k' htext hrefines =>
      rw [(hmarks.split k k' htext).1] at hdrop
      cases hdrop

end Sheds

end Token

/-! ### The semicolons of a tree -/

namespace Grammar.Assembled

variable {held es : List Element} {g : Grammar} {s s' : Input}

/-- A semicolon that a grammar places is one of the tokens, and stands where it stood. -/
theorem semicolon_mem (hg : Assembled held g) (h : g.run s = .ok (es, s')) {o : Nat} {p : Nat × Token}
    (hp : p ∈ Token.placed o (Element.leavesAll es ++ s'.pending)) (hkind : p.2.kind = .semicolon) :
    p ∈ Token.placed o (Element.leavesAll held ++ s.pending) := by
  induction hg generalizing s es s' o with
  | emit fs =>
    cases h
    exact hp
  | wrap k hk hg ih => simpa using ih h hp
  | emitFront fs hg ih =>
    obtain ⟨gs, hgs, rfl⟩ := run_emit_append h
    rw [Element.leavesAll_append, List.append_assoc, Token.placed_append, List.mem_append] at hp ⊢
    exact hp.imp_right (ih hgs)
  | fail held e he => cases h
  | peek hf ih => exact ih s h hp
  | append hg hh ihg ihh =>
    obtain ⟨fs, gs, t, hfs, hgs, rfl⟩ := run_append h
    refine ihg hfs ?_
    rw [Element.leavesAll_append, List.append_assoc, Token.placed_append, List.mem_append] at hp
    rw [Token.placed_append, List.mem_append]
    exact hp.imp_right (ihh hgs)
  | capture front hg hk ihg ihk =>
    obtain ⟨fs, t, hfs, hes⟩ := run_capture h
    have hp := ihk fs hes hp
    rw [Element.leavesAll_append, List.append_assoc, Token.placed_append, List.mem_append] at hp ⊢
    exact hp.imp_right (ihg hfs)
  | take =>
    obtain ⟨t, rest, hs, rfl, rfl⟩ := run_take h
    rw [hs]
    simpa using hp
  | takeAs k _ hgiven =>
    obtain ⟨t, rest, hs, rfl, rfl⟩ := run_takeAs h
    rw [Element.leavesAll_cons, Element.leaves_token, Element.leavesAll_nil, List.append_nil,
      List.singleton_append, Token.placed, List.mem_cons] at hp
    rw [hs]
    -- only a semicolon is read as one
    rcases hp with rfl | hp
    · exact absurd hkind hgiven.1
    · exact List.mem_cons_of_mem _ hp
  | splitRightAngle =>
    cases h
    unfold Input.splitRightAngle at hp
    split at hp
    · exact hp
    · next t rest hs =>
      split at hp
      · next c cs htext =>
        split at hp
        · rw [Element.leavesAll_nil, List.nil_append, Token.placed, Token.placed, List.mem_cons,
            List.mem_cons, Nat.add_assoc, Token.fullLen_split _ _ htext] at hp
          rw [hs]
          -- both parts are operators
          rcases hp with rfl | rfl | hp
          · cases hkind
          · exact absurd hkind (Lexer.isGiven_classifyOperator _ _ _).1
          · exact List.mem_cons_of_mem _ hp
        · exact hp
      · exact hp

end Grammar.Assembled

variable {source : String} {tree : Element} {ts : Lexer.Tokens}

/-- The semicolons of a tree are tokens of its text. -/
theorem semicolon_mem_tokens (h : parse source = .ok tree) (hts : Lexer.tokens source = .ok ts)
    {p : Nat × Token} (hp : p ∈ Token.placed 0 tree.leaves) (hkind : p.2.kind = .semicolon) :
    p ∈ Token.placed 0 ts.pending := by
  obtain ⟨ts', items, s, hts', hitems, rfl⟩ := parse_eq_ok h
  obtain rfl : ts = ts' := Except.ok.inj (hts.symm.trans hts')
  obtain ⟨hwords, hend⟩ := Lexer.tokens_isWord hts
  have hlevel := Grammar.assembled_level (depthFor source.utf8ByteSize)
  have hnil : s.pending = [] := Grammar.run_fileItems hlevel hwords hitems
  have hassembled := Grammar.assembled_fileItems hlevel
  have hendOfFile : s.endOfFile = ts.endOfFile := (hassembled.kept hitems).endOfFile
  rw [Element.leaves_node, Element.leavesAll_append, Element.leavesAll_cons, Element.leaves_token,
    Element.leavesAll_nil, List.append_nil, Token.placed_append, List.mem_append] at hp
  rcases hp with hp | hp
  · have hmem := hassembled.semicolon_mem hitems (o := 0) (p := p) (by rwa [hnil, List.append_nil]) hkind
    rwa [Element.leavesAll_nil, List.nil_append] at hmem
  · rw [Token.placed, Token.placed, List.mem_singleton] at hp
    rw [hp, hendOfFile, hend] at hkind
    cases hkind

/-! ### Sources -/

/-- The tokens of a source are not empty. -/
theorem fullLen_pos_of_tokens (hts : Lexer.tokens source = .ok ts) :
    ∀ t ∈ ts.pending, 0 < t.fullLen := by
  intro t ht
  have hlen := ((Lexer.tokens_isCut hts).1 t ht).len_pos
  rw [Token.fullLen]
  omega

section Positions

variable {ps : List Nat} (h : parse source = .ok tree) (hts : Lexer.tokens source = .ok ts)
  (hps : ∀ x ∈ ps, ∃ q ∈ Token.placed 0 tree.leaves, q.2.kind = .semicolon ∧ q.1 + q.2.leading.len = x)

include h hts hps

/-- The tokens at positions of semicolons of the tree are these semicolons. -/
theorem semicolon_of_startsAt {p : Nat × Token} (hp : p ∈ Token.placed 0 ts.pending)
    (hstarts : p.2.startsAt ps p.1 = true) :
    p.2.kind = .semicolon ∧ p ∈ Token.placed 0 tree.leaves := by
  rw [Token.startsAt_iff] at hstarts
  obtain ⟨q, hq, hkind, hsame⟩ := hps _ hstarts
  obtain rfl := Token.eq_of_placed (f := fun p => p.1 + p.2.leading.len)
    (fun p => Nat.le_add_right _ _) (Token.position_lt_of_mem_placed (Lexer.tokens_isCut hts).1)
    (Token.mem_placed_concat (semicolon_mem_tokens h hts hq hkind) ts.endOfFile)
    (Token.mem_placed_concat hp _) hsame
  exact ⟨hkind, hq⟩

/-- A mark is at the start of a semicolon, of the tokens as of the tree. -/
theorem exists_of_isSome_marks {i : Nat} (hmark : (Token.marks ps 0 ts.pending i).isSome = true) :
    ∃ p ∈ Token.placed 0 ts.pending, p.1 = i ∧ p ∈ Token.placed 0 tree.leaves ∧
      p.2.kind = .semicolon ∧ p.1 + p.2.leading.len ∈ ps := by
  obtain ⟨p, hp, hpi, hstarts⟩ := (Token.isSome_marks_iff (fullLen_pos_of_tokens hts)).mp hmark
  obtain ⟨hkind, hleaf⟩ := semicolon_of_startsAt h hts hps hp hstarts
  rw [Token.startsAt_iff] at hstarts
  exact ⟨p, hp, hpi, hleaf, hkind, hstarts⟩

/-- A leaf of the tree that is marked is one of the tokens. -/
theorem mem_pending_of_isSome_marks {q : Nat × Token} (hq : q ∈ Token.placed 0 tree.leaves)
    (hmark : (Token.marks ps 0 ts.pending q.1).isSome = true) :
    q ∈ Token.placed 0 ts.pending ∧ q.1 + q.2.leading.len ∈ ps := by
  obtain ⟨p, hpending, hpq, hp, -, hmem⟩ := exists_of_isSome_marks h hts hps hmark
  obtain ⟨us, u, hleaves, hcut, -⟩ := leaves_isCut h
  rw [hleaves] at hp hq
  obtain rfl := Token.eq_of_placed (f := Prod.fst) (fun _ => Nat.le_refl _)
    (Token.start_lt_of_mem_placed hcut) hp hq hpq
  exact ⟨hpending, hmem⟩

/-- A leaf of the tree is marked where its position is one of those. -/
theorem isSome_marks_iff_mem {q : Nat × Token} (hq : q ∈ Token.placed 0 tree.leaves) :
    (Token.marks ps 0 ts.pending q.1).isSome = true ↔ q.1 + q.2.leading.len ∈ ps := by
  constructor
  · intro hmark
    exact (mem_pending_of_isSome_marks h hts hps hq hmark).2
  · intro hmem
    obtain ⟨p, hp, hkind, hsame⟩ := hps _ hmem
    have hpending := semicolon_mem_tokens h hts hp hkind
    obtain ⟨us, u, hleaves, hcut, -⟩ := leaves_isCut h
    rw [hleaves] at hp hq
    obtain rfl := Token.eq_of_placed (f := fun p => p.1 + p.2.leading.len)
      (fun p => Nat.le_add_right _ _) (Token.position_lt_of_mem_placed hcut) hp hq hsame
    refine (Token.isSome_marks_iff (fullLen_pos_of_tokens hts)).mpr ⟨p, hpending, rfl,
      Token.startsAt_iff.mpr hmem⟩

/-- Behind a leaf that is marked there is none that is. -/
theorem marks_behind_leaf (hspare : Token.maySpare ps 0 ts.pending = true) {q : Nat × Token}
    (hq : q ∈ Token.placed 0 tree.leaves)
    (hmark : (Token.marks ps 0 ts.pending q.1).isSome = true) :
    Token.marks ps 0 ts.pending (q.1 + q.2.fullLen) = none := by
  obtain ⟨hpending, hmem⟩ := mem_pending_of_isSome_marks h hts hps hq hmark
  refine Token.marks_behind_eq_none (fullLen_pos_of_tokens hts)
    (fun p hp hstarts => (semicolon_of_startsAt h hts hps hp hstarts).1) hspare hpending
    (Token.startsAt_iff.mpr hmem)

/-- Every mark is at the start of a semicolon. -/
theorem marksSemicolons_marks :
    Token.MarksSemicolons (Token.marks ps 0 ts.pending) 0 (ts.pending ++ [ts.endOfFile]) := by
  have hpos := Token.start_lt_of_mem_placed (o := 0) (Lexer.tokens_isCut hts).1
  intro p hp
  constructor
  · intro hmark
    obtain ⟨q, hq, hqp, -, hkind, -⟩ := exists_of_isSome_marks h hts hps hmark
    obtain rfl := Token.eq_of_placed (f := Prod.fst) (fun _ => Nat.le_refl _) hpos
      (Token.mem_placed_concat hq _) hp hqp
    obtain ⟨_, _, -, -, -, hcuts⟩ := Lexer.exists_cuts_of_tokens hts
    exact hcuts.text_of_semicolon (Token.snd_mem_of_mem_placed hq) hkind
  · intro i hi hlt
    rw [← Option.not_isSome_iff_eq_none]
    intro hmark
    obtain ⟨q, hq, hqi, -⟩ := exists_of_isSome_marks h hts hps hmark
    have hqlen := hpos q hq
    rcases Token.eq_or_behind hp (Token.mem_placed_concat hq _) with rfl | hbehind | hbehind <;> omega

/-- **Semicolons left out of a tree**: where they may be left out of the tokens, and each stands behind
a statement that is at its end, the text of what is left is read into what is left. -/
theorem exists_parse_of_sheds {tree' : Element}
    (hspare : Token.maySpare ps 0 ts.pending = true)
    (hfits : tree.Fits (Token.marks ps 0 ts.pending) 0)
    (hsheds : Token.Sheds (Token.marks ps 0 ts.pending) 0 tree.leaves tree'.leaves)
    (hstripped : tree'.stripped = (tree.without (Token.marks ps 0 ts.pending) 0).stripped) :
    ∃ tree'', parse tree'.fullText = .ok tree'' ∧ tree''.stripped = tree'.stripped := by
  -- the text is that of the tokens that are left, and no grammar tells those of the text from them
  obtain ⟨vs, hvs, hspell⟩ := hsheds.exists_of_refines (leaves_refine h hts)
    (marksSemicolons_marks h hts hps)
  have hsource : tree'.fullText.toList = Token.spell vs := by
    rw [Element.toList_fullText, hspell]
  obtain ⟨us, hus, henters⟩ := Lexer.exists_tokens hts
    (fun p hp hstarts => (semicolon_of_startsAt h hts hps hp hstarts).1) hspare hvs hsource
  have hsize : tree'.fullText.utf8ByteSize ≤ maxSourceLength := by
    have hle := hvs.utf8Len_le
    rw [← hsource, Lexer.spell_tokens hts, ← Text.utf8ByteSize_eq,
      ← Text.utf8ByteSize_eq] at hle
    exact hle.trans (utf8ByteSize_le_of_parse h)
  -- so what is read of them is what was read, without the semicolons
  obtain ⟨s, hrun⟩ := exists_run_of_parse h hts
  have hfollows := Grammar.level_follows (Token.marks ps 0 ts.pending) (depthFor source.utf8ByteSize)
    (depthFor tree'.fullText.utf8ByteSize)
  have hall : Element.FitsAll (Token.marks ps 0 ts.pending) 0 [tree] := by
    rw [Element.FitsAll, Element.FitsAll]
    exact ⟨hfits, trivial⟩
  obtain ⟨tree'', -, hread, homits⟩ := exists_parse_of_yields hsize hus
    (Grammar.yields_sourceFile hfollows henters hrun hall)
  obtain ⟨e, heq, hshape, -⟩ := homits.single
  obtain rfl := List.singleton_inj.mp heq
  exact ⟨tree'', hread, hshape.trans hstripped.symm⟩

end Positions

end SwiftTidy
