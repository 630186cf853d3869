import SwiftTidy.Proofs.Parse.Lexemes
import SwiftTidy.Proofs.Rules.EmptyLines
import SwiftTidy.Proofs.Rules.Statements
import SwiftTidy.Proofs.Rules.TokenSpacing

/-!
# What the rules about whitespace leave alone

The rules about colons, return arrows, semicolons and empty lines change the trivia between tokens
and drop semicolons, whatever is disabled.

* Spacing edits keep every token, and all trivia but whitespace (`SpacingEdit.keeps_run`).
* A pass over the semicolons thins the tokens out (`TrailingSemicolon.Thinned`): every token is kept
  with its text, or it is a semicolon whose position is recorded.  Its comments and line breaks go
  to the token in front of it, so their sequence stays.
* A pass over the empty lines drops lines that hold nothing but whitespace and a line break
  (`VerticalWhitespace.pieces_dropLines`).

`pass_keeps_lexemes` puts them together.
-/

namespace SwiftTidy

variable {source : String} {tree : Element}

/-! ### Semicolons -/

namespace TrailingSemicolon

/-- Tokens, what is left of them, and the positions of those that were dropped: every token is kept
with its kind and text, or it is a semicolon. -/
inductive Thinned : List Cursor → List Token → List Nat → Prop
  | nil : Thinned [] [] []
  | keep {x : Cursor} {t u : Token} {xs : List Cursor} {us : List Token} {ps : List Nat} :
      x.element = .token t → u.lexeme = t.lexeme → Thinned xs us ps → Thinned (x :: xs) (u :: us) ps
  | drop {x : Cursor} {xs : List Cursor} {us : List Token} {ps : List Nat} :
      x.kind = .semicolon → Thinned xs us ps → Thinned (x :: xs) us (x.position :: ps)

namespace Thinned

variable {xs ys : List Cursor} {us vs : List Token} {ps qs : List Nat}

theorem append (h : Thinned xs us ps) (h' : Thinned ys vs qs) :
    Thinned (xs ++ ys) (us ++ vs) (ps ++ qs) := by
  induction h with
  | nil => exact h'
  | keep hx hu _ ih => exact .keep hx hu ih
  | drop hx _ ih => exact .drop hx ih

theorem of_forall₂ (h : List.Forall₂ (fun x t => x.element = .token t) xs us) :
    Thinned xs us [] := by
  induction h with
  | nil => exact .nil
  | cons hx _ ih => exact .keep hx rfl ih

/-- Other trivia around what is left changes nothing. -/
theorem congr (h : Thinned xs us ps) (hsame : vs.map Token.lexeme = us.map Token.lexeme) :
    Thinned xs vs ps := by
  induction h generalizing vs with
  | nil =>
    obtain rfl := List.map_eq_nil_iff.mp hsame
    exact .nil
  | keep hx hu _ ih =>
    obtain ⟨v, vs, rfl, hv, hvs⟩ := List.map_eq_cons_iff.mp hsame
    exact .keep hx (hv.trans hu) (ih hvs)
  | drop hx _ ih => exact .drop hx (ih hsame)

/-- What is recorded are positions of semicolons. -/
theorem exists_of_mem (h : Thinned xs us ps) {p : Nat} (hp : p ∈ ps) :
    ∃ x ∈ xs, x.kind = .semicolon ∧ x.position = p := by
  induction h with
  | nil => cases hp
  | keep hx hu _ ih =>
    obtain ⟨x, hmem, hkind⟩ := ih hp
    exact ⟨x, List.mem_cons_of_mem _ hmem, hkind⟩
  | @drop y _ _ _ hy _ ih =>
    rw [List.mem_cons] at hp
    rcases hp with rfl | hp
    · exact ⟨y, List.mem_cons_self, hy, rfl⟩
    · obtain ⟨x, hmem, hkind⟩ := ih hp
      exact ⟨x, List.mem_cons_of_mem _ hmem, hkind⟩

/-- What is left are the tokens at positions that are not recorded. -/
theorem lexemes_eq (h : Thinned xs us ps) (hxs : xs.Pairwise fun x y => x.position < y.position) :
    us.map Token.lexeme =
      (xs.filter fun x => !ps.contains x.position).filterMap fun x => x.token?.map Token.lexeme := by
  induction h with
  | nil => rfl
  | @keep x t u xs us ps hx hu htail ih =>
    obtain ⟨hbehind, hxs⟩ := List.pairwise_cons.mp hxs
    have hkept : (!ps.contains x.position) = true := by
      rw [Bool.not_eq_true', List.contains_eq_mem, decide_eq_false_iff_not]
      intro hmem
      obtain ⟨y, hy, -, hposition⟩ := htail.exists_of_mem hmem
      have := hbehind y hy
      omega
    have htoken : x.token? = some t := by rw [Cursor.token?, hx]; rfl
    rw [List.filter_cons, if_pos hkept, List.filterMap_cons, htoken, List.map_cons, hu, ih hxs]
    rfl
  | @drop x xs us ps hx htail ih =>
    obtain ⟨hbehind, hxs⟩ := List.pairwise_cons.mp hxs
    rw [List.filter_cons_of_neg (by simp), ih hxs]
    refine congrArg _ (List.filter_congr fun y hy => ?_)
    have hne : y.position ≠ x.position := by
      have := hbehind y hy
      omega
    rw [List.contains_cons, beq_false_of_ne hne, Bool.false_or]

end Thinned

/-- What becomes of a place: its tokens are thinned out, and all trivia but whitespace stays in
sequence. -/
structure Made (c : Cursor) (e' : Element) (recorded : List Nat) : Prop where
  token : ∀ t, c.element = .token t → e' = .token t ∧ recorded = []
  node : c.element.token? = none → e'.token? = none
  thinned : Thinned c.tokens e'.leaves recorded
  pieces : Token.pieces (!·.isWhitespace) e'.leaves =
    Token.pieces (!·.isWhitespace) c.element.leaves
  leaves : c.element.leaves ≠ [] → e'.leaves ≠ []

theorem made_self {c : Cursor} (hc : c.element.WellKinded) : Made c c.element [] where
  token t ht := ⟨ht, rfl⟩
  node h := h
  thinned := by
    have hsame : List.Forall₂ Eq (c.tokens.map Cursor.element) (c.element.leaves.map .token) := by
      rw [Cursor.tokens_eq, Cursor.map_element_tokensOf hc rfl]
      exact List.forall₂_refl _
    rw [List.forall₂_map_left_iff, List.forall₂_map_right_iff] at hsame
    exact .of_forall₂ hsame
  pieces := rfl
  leaves h := h

variable {k : SyntaxKind} {es : List Element} {ms : List (Element × List Nat)} {c : Cursor}

theorem thinned_of_made {ys : List Cursor} (hms : List.Forall₂ (fun y m => Made y m.1 m.2) ys ms) :
    Thinned (ys.flatMap Cursor.tokens) (Element.leavesAll (ms.map Prod.fst)) (ms.flatMap Prod.snd) := by
  induction hms with
  | nil =>
    rw [List.map_nil, Element.leavesAll_nil]
    exact .nil
  | cons hmade _ ih =>
    rw [List.flatMap_cons, List.map_cons, Element.leavesAll_cons, List.flatMap_cons]
    exact hmade.thinned.append ih

theorem pieces_of_made {ys : List Cursor} (hms : List.Forall₂ (fun y m => Made y m.1 m.2) ys ms) :
    Token.pieces (!·.isWhitespace) (Element.leavesAll (ms.map Prod.fst)) =
      Token.pieces (!·.isWhitespace) (Element.leavesAll (ys.map Cursor.element)) := by
  induction hms with
  | nil => rfl
  | cons hmade _ ih =>
    rw [List.map_cons, List.map_cons, Element.leavesAll_cons, Element.leavesAll_cons,
      Token.pieces_append, Token.pieces_append, hmade.pieces, ih]

theorem leaves_of_made {ys : List Cursor} (hms : List.Forall₂ (fun y m => Made y m.1 m.2) ys ms)
    (h : Element.leavesAll (ys.map Cursor.element) ≠ []) :
    Element.leavesAll (ms.map Prod.fst) ≠ [] := by
  induction hms with
  | nil => exact absurd Element.leavesAll_nil h
  | cons hmade _ ih =>
    rw [List.map_cons, Element.leavesAll_cons, Ne, List.append_eq_nil_iff, not_and_or] at h ⊢
    rcases h with h | h
    · exact .inl (hmade.leaves h)
    · exact .inr (ih h)

/-- What was made of the children, taken together. -/
theorem made_node (hkinded : c.element.WellKinded) (hc : c.element = .node k es)
    (hms : List.Forall₂ (fun y m => Made y m.1 m.2) c.children ms) :
    Made c (.node k (ms.map Prod.fst)) (ms.flatMap Prod.snd) := by
  have hes : c.children.map Cursor.element = es := by
    rw [Cursor.children, Cursor.map_element_childrenFrom, hc]
    rfl
  constructor
  · intro t ht
    cases hc.symm.trans ht
  · exact fun _ => rfl
  · rw [Cursor.tokens_of_node hkinded hc, Element.leaves_node]
    exact thinned_of_made hms
  · rw [hc, Element.leaves_node, Element.leaves_node, pieces_of_made hms, hes]
  · rw [hc, Element.leaves_node, Element.leaves_node, ← hes]
    exact leaves_of_made hms

/-- Trivia of which nothing is kept if all of it is whitespace. -/
def spare (t : Trivia) : Trivia := if t.isWhitespaceOnly then [] else t

theorem filter_spare (t : Trivia) :
    (spare t).filter (!·.isWhitespace) = t.filter (!·.isWhitespace) := by
  rw [spare]
  split_ifs with hwhite
  · exact (Trivia.withoutWhitespace_eq_nil_iff.mpr hwhite).symm
  · rfl

/-- A statement without its semicolon, whose trivia follows that of the statement. -/
theorem dropSemicolon_pair (k : SyntaxKind) (t : Token) (m e : Element) :
    dropSemicolon t (.node k [m, e]) =
      some (.node k [m.withTrailing (spare (m.trailingTrivia ++ t.leading ++ t.trailing))]) := rfl

/-- A statement without its semicolon, which is recorded. -/
theorem made_dropSemicolon {j : SyntaxKind} {cs : List Element} {t : Token} {m : Element}
    {ps : List Nat} (hkinded : c.element.WellKinded)
    (hc : c.element = .node .codeBlockItem [.node j cs, .token t]) (hcs : Element.leavesAll cs ≠ [])
    (hsemicolon : t.kind = .semicolon)
    (hm : Made (.child c 0 c.offset (.node j cs)) m ps) :
    Made c (.node .codeBlockItem
        [m.withTrailing (spare (m.trailingTrivia ++ t.leading ++ t.trailing))])
      (ps ++ [(Cursor.child c 1 (c.offset + (Element.node j cs).fullLen) (.token t)).position]) := by
  obtain ⟨ts, l, hleaves⟩ : ∃ ts l, m.leaves = ts ++ [l] := by
    refine (List.eq_nil_or_concat' m.leaves).resolve_left (hm.leaves ?_)
    show (Element.node j cs).leaves ≠ []
    rwa [Element.leaves_node]
  have htrailing : m.trailingTrivia = l.trailing := by
    rw [Element.trailingTrivia_eq, hleaves, List.getLast?_concat]
    rfl
  -- the last token of the statement takes the trivia of the semicolon
  have hmoved : (Element.node .codeBlockItem
      [m.withTrailing (spare (m.trailingTrivia ++ t.leading ++ t.trailing))]).leaves =
      ts ++ [{ l with trailing := spare (l.trailing ++ t.leading ++ t.trailing) }] := by
    rw [Element.leaves_node, Element.leavesAll_cons, Element.leavesAll_nil, List.append_nil,
      Element.withTrailing, Element.leaves_mapLastToken hleaves, htrailing]
  have htokens : c.tokens = (Cursor.child c 0 c.offset (.node j cs)).tokens ++
      [.child c 1 (c.offset + (Element.node j cs).fullLen) (.token t)] := by
    have hsemi : (Element.token t).WellKinded := by
      rw [hc, Element.wellKinded_node, Element.wellKindedAll_cons, Element.wellKindedAll_cons] at hkinded
      exact hkinded.2.2.1
    rw [Cursor.tokens_of_node hkinded hc, Cursor.children, hc]
    show _ ++ (Cursor.tokensOf (.token t) _ ++ []) = _
    rw [Cursor.tokensOf_token hsemi rfl, List.append_nil]
  constructor
  · intro u hu
    cases hc.symm.trans hu
  · exact fun _ => rfl
  · rw [htokens, hmoved, ← List.append_nil (ts ++ _)]
    refine Thinned.append (hm.thinned.congr ?_) (.drop hsemicolon .nil)
    rw [hleaves, List.map_append, List.map_append]
    rfl
  · have hpieces : Token.pieces (!·.isWhitespace) m.leaves =
        Token.pieces (!·.isWhitespace) (Element.node j cs).leaves := hm.pieces
    rw [hleaves] at hpieces
    rw [hmoved, hc, Element.leaves_node, Element.leavesAll_cons, Element.leavesAll_cons,
      Element.leavesAll_nil, Element.leaves_token, List.append_nil,
      Token.pieces_append _ (Element.node j cs).leaves, ← hpieces]
    simp only [Token.pieces_append, Token.pieces_cons, Token.pieces_nil, filter_spare,
      List.filter_append, List.append_nil, List.append_assoc]
  · rw [hmoved]
    simp

/-- At every place the tokens are thinned out, whatever is disabled. -/
theorem makes_fixer (h : parse source = .ok tree) (disabled : DisabledRegions)
    (hc : c ∈ (Cursor.root tree).descendants) : Fixer.Makes fixer disabled Made c where
  token t ht := by
    refine ⟨none, rfl, ?_⟩
    have hself := made_self (wellKinded_of_mem_descendants h hc)
    rw [ht] at hself
    exact hself
  visit k es _ := rfl
  node k es ms hnode hms := by
    have hkinded := wellKinded_of_mem_descendants h hc
    have hmade := made_node hkinded hnode hms
    cases hfound : semicolon? c with
    | none =>
      refine ⟨none, ?_, ?_⟩
      · simp only [fixer, hfound]
        rfl
      · rw [Fixer.accept, List.append_nil]
        exact hmade
    | some semicolon =>
      -- a statement with a semicolon has two children, and the second one makes nothing
      obtain ⟨j, cs, t, hitem, hcs, hkind, rfl⟩ :=
        exists_of_semicolon? (shaped_of_mem_descendants h hc) hkinded hfound
      obtain ⟨rfl, rfl⟩ := Element.node.inj (hnode.symm.trans hitem)
      have hchildren : c.children = [.child c 0 c.offset (.node j cs),
          .child c 1 (c.offset + (Element.node j cs).fullLen) (.token t)] := by
        rw [Cursor.children, hitem]
        rfl
      rw [hchildren] at hms
      obtain ⟨⟨m, ps⟩, rest, hm, hrest, rfl⟩ := List.forall₂_cons_left_iff.mp hms
      obtain ⟨⟨m', ps'⟩, rest', hm', hrest', rfl⟩ := List.forall₂_cons_left_iff.mp hrest
      obtain rfl := List.forall₂_nil_left_iff.mp hrest'
      obtain ⟨-, hnone⟩ := hm'.token t rfl
      refine ⟨some ⟨.node .codeBlockItem
          [m.withTrailing (spare (m.trailingTrivia ++ t.leading ++ t.trailing))],
        (Cursor.child c 1 (c.offset + (Element.node j cs).fullLen) (.token t)).position, [], none⟩,
        ?_, ?_⟩
      · simp only [fixer, hfound, Cursor.token?, List.map_cons, List.map_nil, dropSemicolon_pair]
        rfl
      · have hbelow : [(m, ps), (m', ps')].flatMap Prod.snd = ps := by
          have hnone : ps' = [] := hnone
          rw [List.flatMap_cons, List.flatMap_singleton, hnone, List.append_nil]
        rw [Fixer.accept]
        split_ifs
        · rw [hbelow]
          exact made_dropSemicolon hkinded hitem hcs hkind hm
        · rw [List.append_nil]
          exact hmade

/-- **A pass over the semicolons**: the tokens are thinned out, and all trivia but whitespace stays
in sequence. -/
theorem keeps_run (h : parse source = .ok tree) (disabled : DisabledRegions) :
    ∃ outcome, fixer.run () disabled tree = .ok outcome ∧
      (∀ p ∈ outcome.corrections, ∃ x ∈ (Cursor.root tree).tokens,
        x.kind = .semicolon ∧ x.position = p) ∧
      outcome.tree.leaves.map Token.lexeme =
        ((Cursor.root tree).tokens.filter fun x => !outcome.corrections.contains x.position).filterMap
          (fun x => x.token?.map Token.lexeme) ∧
      Token.pieces (!·.isWhitespace) outcome.tree.leaves =
        Token.pieces (!·.isWhitespace) tree.leaves := by
  obtain ⟨ps, outcome, hrun, hmade, hcorrections⟩ :=
    Fixer.made_run_of_not_token (fun c hc => makes_fixer h disabled hc) fun t ps hmade => by
      -- the file is a node, and so is what becomes of it
      obtain ⟨-, items, u, rfl, -⟩ := shaped_parse h
      cases hmade.node rfl
  have hmem : ∀ p, outcome.corrections.contains p = ps.contains p := by
    intro p
    rw [hcorrections]
    simp only [List.contains_eq_mem, List.mem_mergeSort]
  refine ⟨outcome, hrun, fun p hp => ?_, ?_, ?_⟩
  · rw [hcorrections, List.mem_mergeSort] at hp
    exact hmade.thinned.exists_of_mem hp
  · simp only [hmem]
    exact hmade.thinned.lexemes_eq (tokens_pairwise_position h)
  · exact hmade.pieces

end TrailingSemicolon

/-! ### Empty lines -/

namespace VerticalWhitespace

/-- Between its first piece and its line break a line has no comment. -/
def Line.IsClear (leading : Trivia) (l : Line) : Prop :=
  ∀ i p, l.contains i = true → leading[i]? = some p → p.isComment = false

variable {leading : Trivia}

/-- The lines of a run have no comments, apart from the first one. -/
theorem isClear_of_mem_drop {index offset first start : Nat} {lines run : List Line} {ps : Trivia}
    {l : Line} (hps : leading.drop index = ps) (hlines : ∀ l ∈ lines.drop 1, l.IsClear leading)
    (hcurrent : lines ≠ [] → ∀ i p, first ≤ i → i < index → leading[i]? = some p →
      p.isComment = false)
    (hrun : run ∈ lineRuns index offset first start lines ps) (hl : l ∈ run.drop 1) :
    l.IsClear leading := by
  induction ps generalizing index offset first start lines with
  | nil =>
    rw [lineRuns, List.mem_singleton] at hrun
    exact hlines l (hrun ▸ hl)
  | cons p ps ih =>
    have hp : leading[index]? = some p := by rw [← List.head?_drop, hps]; rfl
    have hrest : leading.drop (index + 1) = ps := by rw [← List.tail_drop, hps]; rfl
    rw [lineRuns] at hrun
    split_ifs at hrun with hnewline hcomment
    · -- the line that ends here is clear unless it is the first one
      refine ih hrest ?_ (fun _ i q hfrom hto => by omega) hrun
      cases lines with
      | nil => simp
      | cons l' lines =>
        intro x hx
        rw [List.cons_append, List.drop_succ_cons, List.drop_zero, List.mem_append,
          List.mem_singleton] at hx
        rcases hx with hx | rfl
        · exact hlines x hx
        · intro i q hi hq
          rw [Line.contains, Bool.and_eq_true, decide_eq_true_eq, decide_eq_true_eq] at hi
          rcases Nat.lt_or_eq_of_le hi.2 with hlt | rfl
          · exact hcurrent (List.cons_ne_nil _ _) i q hi.1 hlt hq
          · obtain rfl : p = q := Option.some.inj (hp.symm.trans hq)
            rw [TriviaPiece.isNewline, beq_iff_eq] at hnewline
            rw [TriviaPiece.isComment, hnewline]
            rfl
    · rw [List.mem_cons] at hrun
      rcases hrun with rfl | hrun
      · exact hlines l hl
      · exact ih hrest (by simp) (fun hne => absurd rfl hne) hrun
    · refine ih hrest hlines (fun hne i q hfrom hto hq => ?_) hrun
      rcases Nat.lt_or_eq_of_le (Nat.lt_succ_iff.mp hto) with hlt | rfl
      · exact hcurrent hne i q hfrom hlt hq
      · obtain rfl : p = q := Option.some.inj (hp.symm.trans hq)
        exact Bool.not_eq_true _ ▸ hcomment

/-- In front of the first comment the first line has none either. -/
theorem isClear_of_mem_head {index offset first start : Nat} {lines run : List Line} {ps : Trivia}
    {runs : List (List Line)} {l : Line} (hps : leading.drop index = ps)
    (hlines : ∀ l ∈ lines, l.IsClear leading)
    (hcurrent : ∀ i p, first ≤ i → i < index → leading[i]? = some p → p.isComment = false)
    (hrun : lineRuns index offset first start lines ps = run :: runs) (hl : l ∈ run) :
    l.IsClear leading := by
  induction ps generalizing index offset first start lines with
  | nil =>
    cases hrun
    exact hlines l hl
  | cons p ps ih =>
    have hp : leading[index]? = some p := by rw [← List.head?_drop, hps]; rfl
    have hrest : leading.drop (index + 1) = ps := by rw [← List.tail_drop, hps]; rfl
    have hnext : p.isComment = false → ∀ i q, first ≤ i → i ≤ index → leading[i]? = some q →
        q.isComment = false := by
      intro hclear i q hfrom hto hq
      rcases Nat.lt_or_eq_of_le hto with hlt | rfl
      · exact hcurrent i q hfrom hlt hq
      · obtain rfl : p = q := Option.some.inj (hp.symm.trans hq)
        exact hclear
    rw [lineRuns] at hrun
    split_ifs at hrun with hnewline hcomment
    · refine ih hrest ?_ (fun i q hfrom hto => by omega) hrun
      rw [List.forall_mem_append, List.forall_mem_singleton]
      refine ⟨hlines, fun i q hi => ?_⟩
      rw [Line.contains, Bool.and_eq_true, decide_eq_true_eq, decide_eq_true_eq] at hi
      refine hnext ?_ i q hi.1 hi.2
      rw [TriviaPiece.isNewline, beq_iff_eq] at hnewline
      rw [TriviaPiece.isComment, hnewline]
      rfl
    · cases hrun
      exact hlines l hl
    · refine ih hrest hlines (fun i q hfrom hto => ?_) hrun
      exact hnext (Bool.not_eq_true _ ▸ hcomment) i q hfrom (Nat.lt_succ_iff.mp hto)

/-- Empty lines have no comments. -/
theorem isClear_of_mem_emptyRuns {offset : Nat} {run : List Line} {l : Line}
    (hrun : run ∈ emptyRuns offset leading) (hl : l ∈ run) : l.IsClear leading := by
  rw [emptyRuns] at hrun
  split at hrun
  · cases hrun
  · rename_i first rest hlines
    have hdrop : ∀ run ∈ first :: rest, ∀ l ∈ run.drop 1, l.IsClear leading := by
      intro run hrun l hl
      rw [← hlines] at hrun
      exact isClear_of_mem_drop (List.drop_zero) (by simp) (fun hne => absurd rfl hne) hrun hl
    rw [List.mem_cons, List.mem_map] at hrun
    rcases hrun with rfl | ⟨run', hrun', rfl⟩
    · split_ifs at hl
      · exact isClear_of_mem_head List.drop_zero (by simp) (fun i p _ hi => by omega) hlines hl
      · exact hdrop first List.mem_cons_self l hl
    · exact hdrop run' (List.mem_cons_of_mem _ hrun') l hl

/-- Dropping lines without comments keeps the comments. -/
theorem filter_dropLines {lines : List Line} (hlines : ∀ l ∈ lines, l.IsClear leading) {index : Nat}
    {ps : Trivia} (hps : leading.drop index = ps) :
    (dropLines lines index ps).filter (·.isComment) = ps.filter (·.isComment) := by
  induction ps generalizing index with
  | nil => rfl
  | cons p ps ih =>
    have hp : leading[index]? = some p := by rw [← List.head?_drop, hps]; rfl
    have hdrop : leading.drop (index + 1) = ps := by rw [← List.tail_drop, hps]; rfl
    have hrest := ih hdrop
    rw [dropLines]
    split_ifs with hdropped
    · obtain ⟨l, hl, hcontains⟩ := List.any_eq_true.mp hdropped
      have hclear := hlines l hl index p hcontains hp
      rw [hrest, List.filter_cons_of_neg (by simp [hclear])]
    · rw [List.filter_cons, List.filter_cons, hrest]

/-- What becomes of a place: tokens keep all but empty lines in front of them. -/
def Keeps (e e' : Element) : Prop :=
  e'.leaves.map Token.lexeme = e.leaves.map Token.lexeme ∧
    Token.pieces (·.isComment) e'.leaves = Token.pieces (·.isComment) e.leaves

theorem keeps_leavesAll {es es' : List Element} (h : List.Forall₂ Keeps es es') :
    (Element.leavesAll es').map Token.lexeme = (Element.leavesAll es).map Token.lexeme ∧
      Token.pieces (·.isComment) (Element.leavesAll es') =
        Token.pieces (·.isComment) (Element.leavesAll es) := by
  induction h with
  | nil => exact ⟨rfl, rfl⟩
  | cons hhead _ ih =>
    rw [Element.leavesAll_cons, Element.leavesAll_cons, List.map_append, List.map_append,
      Token.pieces_append, Token.pieces_append, hhead.1, hhead.2, ih.1, ih.2]
    exact ⟨rfl, rfl⟩

/-- Shortening runs in front of a token keeps the token and its comments. -/
theorem keeps_accept {limit : Nat} {disabled : DisabledRegions} {c : Cursor} {t : Token}
    (hc : c.element = .token t) (hleading : c.leadingTrivia = t.leading) :
    Keeps (.token t) (Fixer.accept disabled c (.token t) (fix? limit disabled c)).1 := by
  have htoken : c.token? = some t := by rw [Cursor.token?, hc]; rfl
  cases hfilter : (excesses limit c).filter (!disabled.isSuppressed ·.position) with
  | nil =>
    have hnone : fix? limit disabled c = none := by
      simp only [fix?, htoken, hfilter, bind, Option.bind]
    rw [hnone]
    exact ⟨rfl, rfl⟩
  | cons run runs =>
    obtain ⟨kept, hkept⟩ : ∃ kept, dropLines ((run :: runs).flatMap (·.surplus)) 0 t.leading = kept :=
      ⟨_, rfl⟩
    have hsome : fix? limit disabled c = some ⟨.token { t with leading := kept }, run.position,
        runs.map (·.position), some c.fullRange⟩ := by
      simp only [fix?, htoken, hfilter, bind, Option.bind, hkept]
      rfl
    rw [hsome, Fixer.accept]
    split_ifs
    · have hclear : ∀ l ∈ (run :: runs).flatMap (·.surplus), l.IsClear t.leading := by
        intro l hl
        obtain ⟨e, he, hl⟩ := List.mem_flatMap.mp hl
        rw [← hfilter] at he
        obtain ⟨lines, hlines, hexcess⟩ := List.mem_filterMap.mp (List.mem_filter.mp he).1
        rw [excess?, Option.ite_none_right_eq_some] at hexcess
        obtain ⟨last, -, rfl⟩ := Option.map_eq_some_iff.mp hexcess.2
        rw [hleading] at hlines
        exact isClear_of_mem_emptyRuns hlines (List.mem_of_mem_take hl)
      refine ⟨rfl, ?_⟩
      rw [Element.leaves_token, Element.leaves_token, Token.pieces_cons, Token.pieces_cons, ← hkept,
        filter_dropLines hclear List.drop_zero]
    · exact ⟨rfl, rfl⟩

theorem makes_fixer (h : parse source = .ok tree) (limit : Nat) (disabled : DisabledRegions)
    {c : Cursor} (hc : c ∈ (Cursor.root tree).descendants) :
    Fixer.Makes { token := fun c _ => .ok (fix? limit disabled c, ()) } disabled
      (fun c e' _ => Keeps c.element e') c where
  token t ht := by
    have hkinded := ht ▸ wellKinded_of_mem_descendants h hc
    refine ⟨_, rfl, ?_⟩
    rw [ht]
    exact keeps_accept ht (Cursor.leadingTrivia_token hkinded ht)
  visit _ _ _ := rfl
  node k es ms hnode hms := by
    refine ⟨none, rfl, ?_⟩
    have hes : es = c.children.map Cursor.element := by
      rw [Cursor.children, Cursor.map_element_childrenFrom, hnode]
      rfl
    have hkeeps : List.Forall₂ Keeps es (ms.map Prod.fst) := by
      rw [hes, List.forall₂_map_left_iff, List.forall₂_map_right_iff]
      exact hms
    have hall := keeps_leavesAll hkeeps
    rw [hnode, Fixer.accept, Keeps, Element.leaves_node, Element.leaves_node]
    exact hall

/-- **A pass over the empty lines**: tokens and comments stay. -/
theorem keeps_run (h : parse source = .ok tree) (limit : Nat) (disabled : DisabledRegions) :
    ∃ outcome, Fixer.run { token := fun c _ => .ok (fix? limit disabled c, ()) } () disabled tree =
        .ok outcome ∧ Keeps tree outcome.tree := by
  obtain ⟨e', ps, outcome, hrun, hmade, -, htree⟩ :=
    Fixer.made_run fun c hc => makes_fixer h limit disabled hc
  refine ⟨outcome, hrun, ?_⟩
  rcases htree with htree | ⟨-, htree⟩
  · rw [htree]
    exact hmade
  · rw [htree]
    exact ⟨rfl, rfl⟩

end VerticalWhitespace

/-! ### All four rules -/

/-- The tokens have the same kinds and texts in the same order, and the same comments around them. -/
structure SameLexemes (before after : List Token) : Prop where
  lexemes : after.map Token.lexeme = before.map Token.lexeme
  comments : Token.pieces (·.isComment) after = Token.pieces (·.isComment) before

theorem isWhitespace_of_isComment (p : TriviaPiece) (h : p.isComment = true) :
    p.isWhitespace = false := by
  rcases p with ⟨kind, text⟩
  cases kind <;> first | rfl | cases h

theorem isWhitespace_of_isNewline (p : TriviaPiece) (h : p.isNewline = true) :
    p.isWhitespace = false := by
  rcases p with ⟨kind, text⟩
  cases kind <;> first | rfl | cases h

/-- Where all trivia but whitespace is the same, so is what a test finds that no whitespace passes. -/
theorem pieces_of_pieces {test : TriviaPiece → Bool}
    (htest : ∀ p, test p = true → p.isWhitespace = false) {ts us : List Token}
    (h : Token.pieces (!·.isWhitespace) us = Token.pieces (!·.isWhitespace) ts) :
    Token.pieces test us = Token.pieces test ts := by
  have hall : ∀ ts, (Token.pieces (!·.isWhitespace) ts).filter test = Token.pieces test ts := by
    intro ts
    rw [Token.pieces, List.filter_flatMap]
    exact List.flatMap_congr fun t _ => Trivia.filter_withoutWhitespace htest _
  rw [← hall, ← hall, h]

/-- Tokens that are kept up to the whitespace behind them. -/
theorem sameLexemes_of_keeps (h : parse source = .ok tree) {ts : List Token}
    (hts : List.Forall₂ Cursor.Keeps (Cursor.root tree).tokens ts) :
    SameLexemes tree.leaves ts ∧
      Token.pieces (·.isNewline) ts = Token.pieces (·.isNewline) tree.leaves := by
  have hleaves : (Cursor.root tree).tokens.map Cursor.element = tree.leaves.map .token :=
    Cursor.map_element_tokensOf (wellKinded_parse h) rfl
  have hall : ts.map Token.lexeme = tree.leaves.map Token.lexeme ∧
      Token.pieces (!·.isWhitespace) ts = Token.pieces (!·.isWhitespace) tree.leaves := by
    generalize tree.leaves = us at hleaves ⊢
    generalize (Cursor.root tree).tokens = xs at hleaves hts
    induction hts generalizing us with
    | nil =>
      obtain rfl := List.map_eq_nil_iff.mp hleaves.symm
      exact ⟨rfl, rfl⟩
    | cons hkeeps _ ih =>
      obtain ⟨u, us, rfl, hu, hus⟩ := List.map_eq_cons_iff.mp hleaves.symm
      obtain ⟨s, hs, hlexeme, hleading, htrailing⟩ := hkeeps
      obtain rfl : u = s := Element.token.inj (hu.trans hs)
      obtain ⟨hlexemes, hpieces⟩ := ih us hus.symm
      rw [List.map_cons, List.map_cons, hlexeme, hlexemes, Token.pieces_cons, Token.pieces_cons, hpieces,
        hleading]
      refine ⟨rfl, ?_⟩
      simp only [Trivia.withoutWhitespace] at htrailing
      rw [htrailing]
  exact ⟨⟨hall.1, pieces_of_pieces isWhitespace_of_isComment hall.2⟩,
    pieces_of_pieces isWhitespace_of_isNewline hall.2⟩

/-- **What a pass leaves alone**: whatever is disabled, a pass over the colons, the return arrows or
the empty lines of a file keeps its tokens, and one over the semicolons all but the semicolons that
it corrects.  All four keep the comments, and the first three the line breaks. -/
theorem pass_keeps_lexemes (h : parse source = .ok tree) (disabled : DisabledRegions) :
    (∀ o, ∃ outcome, (SpacingEdit.fixer (Colon.edits o (.root tree))).run () disabled tree =
        .ok outcome ∧ SameLexemes tree.leaves outcome.tree.leaves ∧
      Token.pieces (·.isNewline) outcome.tree.leaves = Token.pieces (·.isNewline) tree.leaves) ∧
    (∃ outcome, (SpacingEdit.fixer (ReturnArrowWhitespace.edits (.root tree))).run () disabled tree =
        .ok outcome ∧ SameLexemes tree.leaves outcome.tree.leaves ∧
      Token.pieces (·.isNewline) outcome.tree.leaves = Token.pieces (·.isNewline) tree.leaves) ∧
    (∃ outcome, TrailingSemicolon.fixer.run () disabled tree = .ok outcome ∧
      (∀ p ∈ outcome.corrections, ∃ x ∈ (Cursor.root tree).tokens,
        x.kind = .semicolon ∧ x.position = p) ∧
      outcome.tree.leaves.map Token.lexeme =
        ((Cursor.root tree).tokens.filter fun x => !outcome.corrections.contains x.position).filterMap
          (fun x => x.token?.map Token.lexeme) ∧
      Token.pieces (·.isComment) outcome.tree.leaves = Token.pieces (·.isComment) tree.leaves ∧
      Token.pieces (·.isNewline) outcome.tree.leaves = Token.pieces (·.isNewline) tree.leaves) ∧
    ∀ limit, ∃ outcome, Fixer.run
        { token := fun c _ => .ok (VerticalWhitespace.fix? limit disabled c, ()) } () disabled tree =
        .ok outcome ∧ SameLexemes tree.leaves outcome.tree.leaves := by
  refine ⟨fun o => ?_, ?_, ?_, fun limit => ?_⟩
  · obtain ⟨outcome, hrun, hkeeps, -⟩ := SpacingEdit.keeps_run h disabled
      fun e he => ⟨Colon.isBetween_of_mem_edits h he, Colon.isBlank_of_mem_edits h he⟩
    exact ⟨outcome, hrun, sameLexemes_of_keeps h hkeeps⟩
  · obtain ⟨outcome, hrun, hkeeps, -⟩ := SpacingEdit.keeps_run h disabled
      fun e he => ⟨ReturnArrowWhitespace.isBetween_of_mem_edits h he,
        ReturnArrowWhitespace.isBlank_of_mem_edits h he⟩
    exact ⟨outcome, hrun, sameLexemes_of_keeps h hkeeps⟩
  · obtain ⟨outcome, hrun, hpositions, hlexemes, hpieces⟩ := TrailingSemicolon.keeps_run h disabled
    exact ⟨outcome, hrun, hpositions, hlexemes, pieces_of_pieces isWhitespace_of_isComment hpieces,
      pieces_of_pieces isWhitespace_of_isNewline hpieces⟩
  · obtain ⟨outcome, hrun, hlexemes, hcomments⟩ := VerticalWhitespace.keeps_run h limit disabled
    exact ⟨outcome, hrun, hlexemes, hcomments⟩

/-- A semicolon between two comments is dropped, and both comments stay. -/
theorem pass_keeps_lexemes_semicolon :
    ∃ tree outcome, parse "a /* b */; // c\n\n\nd\n" = .ok tree ∧
      TrailingSemicolon.fixer.run () .none tree = .ok outcome ∧ outcome.corrections = [9] ∧
      outcome.tree.fullText = "a /* b */ // c\n\n\nd\n" ∧
      Token.pieces (·.isComment) outcome.tree.leaves = Token.pieces (·.isComment) tree.leaves ∧
      outcome.tree.leaves.map Token.lexeme =
        [(.identifier, "a"), (.identifier, "d"), (.endOfFile, "")] := by
  have hfacts : (parse "a /* b */; // c\n\n\nd\n").toOption.map (fun tree =>
      ((TrailingSemicolon.fixer.run () .none tree).toOption.map fun o =>
          (o.corrections, o.tree.fullText, o.tree.leaves.map Token.lexeme))) =
      some (some ([9], "a /* b */ // c\n\n\nd\n",
        [(.identifier, "a"), (.identifier, "d"), (.endOfFile, "")])) := by
    decide +kernel
  obtain ⟨tree, htree, hpass⟩ := Option.map_eq_some_iff.mp hfacts
  have h : parse "a /* b */; // c\n\n\nd\n" = .ok tree := Except.toOption_eq_some.mp htree
  obtain ⟨-, -, ⟨outcome, hrun, -, -, hcomments, -⟩, -⟩ := pass_keeps_lexemes h .none
  rw [hrun] at hpass
  obtain ⟨hcorrections, hrest⟩ := Prod.mk.inj (Option.some.inj hpass)
  obtain ⟨htext, hlexemes⟩ := Prod.mk.inj hrest
  exact ⟨tree, outcome, h, hrun, hcorrections, htext, hcomments, hlexemes⟩

end SwiftTidy
