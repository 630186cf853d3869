import SwiftTidy.Proofs.Parse.Sparing
import SwiftTidy.Proofs.Rules.KeptLexemes
import SwiftTidy.Proofs.Tree.EdgeEdits

/-!
# What is read without the semicolons

A pass over the semicolons leaves the file without those that it records, whose trivia has gone to the
token in front of them (`Left`).  Whether the text that is left is read into the tree that is left, trivia
ignored, is not decided by the line break behind each semicolon: what follows may go on with the
statement on whatever line it stands.  `Needless` says of what is recorded that nothing does, and then it
is (`parse_run_of_needless`).
-/

namespace SwiftTidy

namespace TrailingSemicolon

variable {source : String} {tree : Element} {disabled : DisabledRegions} {M : Marks} {c : Cursor}

/-! ### What is recorded -/

/-- A semicolon at the end of a statement that is dropped, because the rule is not disabled there. -/
def IsDropped (disabled : DisabledRegions) (item semicolon : Cursor) : Prop :=
  semicolon? item = some semicolon ∧ disabled.isSuppressed semicolon.position = false

theorem mem_tokens_of_semicolon? {x : Cursor} (hc : c ∈ (Cursor.root tree).descendants)
    (hfound : semicolon? c = some x) : x ∈ c.children ∧ x ∈ (Cursor.root tree).tokens := by
  obtain ⟨-, hlast, hkind⟩ := semicolon?_eq_some hfound
  have hmem := List.mem_of_getLast? hlast
  refine ⟨hmem, List.mem_filter.mpr ⟨?_, ?_⟩⟩
  · exact Cursor.mem_descendants_trans hc (Cursor.mem_descendants_of_mem_children hmem)
  · rw [Cursor.isToken, hkind]
    rfl

/-- What is recorded are the positions of the semicolons that are dropped. -/
theorem mem_corrections_iff (h : parse source = .ok tree) (hdisabled : disabled.IsSeparated) :
    ∃ outcome, fixer.run () disabled tree = .ok outcome ∧ ∀ p, p ∈ outcome.corrections ↔
      ∃ c ∈ (Cursor.root tree).descendants, ∃ x, IsDropped disabled c x ∧ x.position = p := by
  obtain ⟨fixed, hrun⟩ := Fixer.run_eq fun c hc => behaves_fixer h hdisabled hc
  refine ⟨_, hrun, fun p => ?_⟩
  rw [Fixer.recordedOf_nodes, List.mem_mergeSort, List.mem_flatMap]
  constructor
  · rintro ⟨c, hc, hp⟩
    rw [recordedAt, List.mem_filter, Option.mem_toList, Option.map_eq_some_iff, Bool.not_eq_true'] at hp
    obtain ⟨⟨x, hx, rfl⟩, hsuppressed⟩ := hp
    exact ⟨c, (Cursor.mem_postorder_iff.mp hc).1, x, ⟨hx, hsuppressed⟩, rfl⟩
  · rintro ⟨c, hc, x, ⟨hx, hsuppressed⟩, rfl⟩
    refine ⟨c, Cursor.mem_postorder_iff.mpr ⟨hc, ?_⟩, ?_⟩
    · have hmem := (mem_tokens_of_semicolon? hc hx).1
      cases hitem : c.element with
      | token t =>
        rw [Cursor.children, hitem] at hmem
        cases hmem
      | node k es =>
        rw [Cursor.token?, hitem]
        rfl
    · rw [recordedAt, List.mem_filter, Option.mem_toList, Option.map_eq_some_iff, Bool.not_eq_true']
      exact ⟨⟨x, hx, rfl⟩, hsuppressed⟩

/-- What is recorded are positions of leaves that are semicolons. -/
theorem exists_leaf_of_isDropped (h : parse source = .ok tree) {x : Cursor}
    (hc : c ∈ (Cursor.root tree).descendants) (hdropped : IsDropped disabled c x) :
    ∃ q ∈ Token.placed 0 tree.leaves, q.2.kind = .semicolon ∧ q.1 + q.2.leading.len = x.position := by
  obtain ⟨-, hx⟩ := mem_tokens_of_semicolon? hc hdropped.1
  obtain ⟨t, ht, hplaced⟩ := Cursor.exists_mem_placed (p := .root tree) (wellKinded_parse h) hx
  obtain ⟨-, -, hkind⟩ := semicolon?_eq_some hdropped.1
  rw [Cursor.kind, ht] at hkind
  refine ⟨_, hplaced, hkind, ?_⟩
  rw [Cursor.position, ht]
  rfl

/-- Marks of the semicolons that are dropped, none of which stands behind another. -/
structure MarksDropped (M : Marks) (disabled : DisabledRegions) (tree : Element) : Prop where
  isSome_iff : ∀ x ∈ (Cursor.root tree).tokens, (M x.offset).isSome = true ↔
    ∃ c ∈ (Cursor.root tree).descendants, IsDropped disabled c x
  behind : ∀ q ∈ Token.placed 0 tree.leaves, (M q.1).isSome = true → M (q.1 + q.2.fullLen) = none

/-- The marks of what is recorded are those of the semicolons that are dropped. -/
theorem marksDropped {ts : Lexer.Tokens} {ps : List Nat} (h : parse source = .ok tree)
    (hts : Lexer.tokens source = .ok ts)
    (hps : ∀ p, p ∈ ps ↔ ∃ c ∈ (Cursor.root tree).descendants, ∃ x,
      IsDropped disabled c x ∧ x.position = p)
    (hspare : Token.maySpare ps 0 ts.pending = true) :
    MarksDropped (Token.marks ps 0 ts.pending) disabled tree := by
  have hleaves : ∀ p ∈ ps, ∃ q ∈ Token.placed 0 tree.leaves, q.2.kind = .semicolon ∧
      q.1 + q.2.leading.len = p := by
    intro p hp
    obtain ⟨c, hc, x, hdropped, rfl⟩ := (hps p).mp hp
    exact exists_leaf_of_isDropped h hc hdropped
  constructor
  · intro x hx
    obtain ⟨t, ht, hplaced⟩ := Cursor.exists_mem_placed (p := .root tree) (wellKinded_parse h) hx
    have hposition : x.offset + t.leading.len = x.position := by
      rw [Cursor.position, ht]
      rfl
    rw [isSome_marks_iff_mem h hts hleaves hplaced, hposition, hps]
    constructor
    · -- the semicolon at the position is the token itself
      rintro ⟨c, hc, y, hdropped, hsame⟩
      obtain rfl := token_eq_of_position h (mem_tokens_of_semicolon? hc hdropped.1).2 hx hsame
      exact ⟨c, hc, hdropped⟩
    · rintro ⟨c, hc, hdropped⟩
      exact ⟨c, hc, x, hdropped, rfl⟩
  · exact fun q hq => marks_behind_leaf h hts hleaves hspare hq

/-! ### What is left -/

/-- What becomes of a place: it is what it was without the leaves at the marks, trivia ignored, and each of
these leaves its trivia to the token in front of it. -/
structure Left (M : Marks) (c : Cursor) (e' : Element) : Prop where
  stripped : e'.stripped = (c.element.without M c.offset).stripped
  sheds : c.element.isMarked M c.offset = false → Token.Sheds M c.offset c.element.leaves e'.leaves

theorem left_token {t : Token} (ht : c.element = .token t) : Left M c (.token t) where
  stripped := by rw [ht, Element.without_token]
  sheds hmarked := by
    rw [ht, Element.isMarked, Element.token?, Option.isSome_some, Bool.true_and,
      Option.isSome_eq_false_iff, Option.isNone_iff_eq_none] at hmarked
    rw [ht, Element.leaves_token]
    exact .keep hmarked .nil

/-- What is left of children none of which is a leaf at a mark. -/
theorem left_childrenFrom {p : Cursor} {i o : Nat} {es : List Element} {ms : List (Element × List Nat)}
    (h : List.Forall₂ (fun y m => Left M y m.1) (Cursor.childrenFrom p i o es) ms)
    (hmarked : ∀ y ∈ Cursor.childrenFrom p i o es, y.element.isMarked M y.offset = false) :
    Element.strippedAll (ms.map Prod.fst) = Element.strippedAll (Element.withoutAll M o es) ∧
      Token.Sheds M o (Element.leavesAll es) (Element.leavesAll (ms.map Prod.fst)) := by
  induction es generalizing i o ms with
  | nil =>
    rw [Cursor.childrenFrom, List.forall₂_nil_left_iff] at h
    rw [h]
    exact ⟨rfl, .nil⟩
  | cons e es ih =>
    rw [Cursor.childrenFrom, List.forall₂_cons_left_iff] at h
    obtain ⟨m, ms, hleft, hms, rfl⟩ := h
    rw [Cursor.childrenFrom, List.forall_mem_cons] at hmarked
    obtain ⟨hhead, hmarked⟩ := hmarked
    obtain ⟨hstripped, hsheds⟩ := ih hms hmarked
    have hunmarked : e.isMarked M o = false := hhead
    have hhead : m.1.stripped = (e.without M o).stripped := hleft.stripped
    have hheadSheds : Token.Sheds M o e.leaves m.1.leaves := hleft.sheds hunmarked
    rw [Element.fullLen_eq] at hsheds
    constructor
    · rw [List.map_cons, Element.strippedAll_cons, Element.withoutAll_cons hunmarked,
        Element.strippedAll_cons, hhead, hstripped]
    · rw [List.map_cons, Element.leavesAll_cons, Element.leavesAll_cons]
      exact hheadSheds.append hsheds

theorem left_node {k : SyntaxKind} {es : List Element} {ms : List (Element × List Nat)}
    (hc : c.element = .node k es) (hms : List.Forall₂ (fun y m => Left M y m.1) c.children ms)
    (hmarked : ∀ y ∈ c.children, y.element.isMarked M y.offset = false) :
    Left M c (.node k (ms.map Prod.fst)) := by
  have hchildren : c.children = Cursor.childrenFrom c 0 c.offset es := by
    rw [Cursor.children, hc]
    rfl
  rw [hchildren] at hms hmarked
  obtain ⟨hstripped, hsheds⟩ := left_childrenFrom hms hmarked
  constructor
  · rw [hc, Element.without_node, Element.stripped_node, Element.stripped_node, hstripped]
  · intro _
    rw [hc, Element.leaves_node, Element.leaves_node]
    exact hsheds

/-- Where no semicolon of a statement is dropped, none of its children is a leaf at a mark. -/
theorem isMarked_eq_false (h : parse source = .ok tree) (hM : MarksDropped M disabled tree)
    (hc : c ∈ (Cursor.root tree).descendants) (hnone : ∀ x, ¬ IsDropped disabled c x) {y : Cursor}
    (hy : y ∈ c.children) : y.element.isMarked M y.offset = false := by
  rw [← Bool.not_eq_true, Element.isMarked, Bool.and_eq_true]
  rintro ⟨htoken, hmark⟩
  have hdescendant := Cursor.mem_descendants_trans hc (Cursor.mem_descendants_of_mem_children hy)
  have hkinded := wellKinded_of_mem_descendants h hdescendant
  have hmem : y ∈ (Cursor.root tree).tokens := by
    refine List.mem_filter.mpr ⟨hdescendant, ?_⟩
    cases helement : y.element with
    | token t =>
      rw [helement, Element.wellKinded_token] at hkinded
      rw [Cursor.isToken, Cursor.kind, helement]
      exact hkinded
    | node k es =>
      rw [helement] at htoken
      cases htoken
  obtain ⟨c', hc', hdropped⟩ := (hM.isSome_iff y hmem).mp hmark
  -- both are the place above the token
  obtain ⟨_, _, _, -, rfl⟩ := Cursor.exists_of_mem_children hy
  obtain ⟨_, _, _, -, hsame⟩ :=
    Cursor.exists_of_mem_children (mem_tokens_of_semicolon? hc' hdropped.1).1
  obtain ⟨rfl, -⟩ := Cursor.child.inj hsame
  exact hnone _ hdropped

/-- What is left of a statement without its semicolon. -/
theorem left_dropSemicolon (hM : MarksDropped M disabled tree)
    (hc : c ∈ (Cursor.root tree).descendants) {j : SyntaxKind} {cs : List Element} {t : Token}
    {m : Element} (hitem : c.element = .node .codeBlockItem [.node j cs, .token t])
    (hcs : Element.leavesAll cs ≠ [])
    (hmark : (M (c.offset + (Element.node j cs).fullLen)).isSome = true)
    (hm : Left M (.child c 0 c.offset (.node j cs)) m) :
    Left M c (.node .codeBlockItem
      [m.withTrailing (spare (m.trailingTrivia ++ t.leading ++ t.trailing))]) := by
  have hstripped : m.stripped = ((Element.node j cs).without M c.offset).stripped := hm.stripped
  have hsheds : Token.Sheds M c.offset (Element.leavesAll cs) m.leaves := by
    have hbelow : Token.Sheds M c.offset (Element.node j cs).leaves m.leaves := hm.sheds rfl
    rwa [Element.leaves_node] at hbelow
  have hmarked : (Element.token t).isMarked M (c.offset + (Element.node j cs).fullLen) = true := hmark
  rw [Element.fullLen_eq, Element.leaves_node] at hmark
  obtain ⟨front, last, hlast⟩ := (List.eq_nil_or_concat' _).resolve_left hcs
  -- the last token of the statement is left, because a semicolon stands behind it
  have hnone : M (c.offset + Token.fullLenAll front) = none := by
    rw [← Option.not_isSome_iff_eq_none]
    intro hsome
    obtain ⟨hplaced, hroot⟩ := Cursor.isPlaced_of_mem_descendants hc
    obtain ⟨before, behind, hleaves, hoffset⟩ := hplaced.exists_leaves
    have hmem : (c.offset + Token.fullLenAll front, last) ∈ Token.placed 0 tree.leaves := by
      rw [hroot, hitem, Element.leaves_node, Element.leavesAll_cons, Element.leaves_node, hlast] at hleaves
      rw [hleaves, hoffset]
      simp [Token.placed]
    have hbehind := hM.behind _ hmem hsome
    rw [hlast, Token.fullLenAll_append, Token.fullLenAll_cons, Token.fullLenAll_nil, Nat.add_zero,
      ← Nat.add_assoc, hbehind] at hmark
    cases hmark
  obtain ⟨us, u, hleaves, hleft⟩ := hsheds.concat (s := t) hlast hnone hmark
  have htrailing : m.trailingTrivia = u.trailing := by
    rw [Element.trailingTrivia_eq, hleaves, List.getLast?_concat]
    rfl
  constructor
  · rw [hitem, Element.without_node, Element.withoutAll_cons (Element.isMarked_node j cs),
      Element.withoutAll_marked hmarked, Element.withoutAll_nil]
    simp [Element.stripped_withTrailing, hstripped]
  · intro _
    rw [hitem, Element.leaves_node, Element.leaves_node, Element.leavesAll_cons, Element.leavesAll_cons,
      Element.leavesAll_cons, Element.leavesAll_nil, Element.leaves_node, Element.leaves_token,
      List.append_nil, List.append_nil, Element.withTrailing, Element.leaves_mapLastToken hleaves,
      htrailing]
    exact hleft

/-- At every place there is left what was there without the semicolons that are dropped. -/
theorem makes_left (h : parse source = .ok tree) (hdisabled : disabled.IsSeparated)
    (hM : MarksDropped M disabled tree) (hc : c ∈ (Cursor.root tree).descendants) :
    Fixer.Makes fixer disabled (fun c e' _ => Left M c e') c where
  token t ht := ⟨none, rfl, left_token ht⟩
  visit k es _ := rfl
  node k es ms hnode hms := by
    cases hfound : semicolon? c with
    | none =>
      refine ⟨none, ?_, left_node hnode hms fun y hy => isMarked_eq_false h hM hc (fun x hx => ?_) hy⟩
      · simp only [fixer, hfound]
        rfl
      · cases hfound.symm.trans hx.1
    | some semicolon =>
      obtain ⟨u, hu, hrange⟩ := semicolon_mem_range h hc hfound
      obtain ⟨j, cs, t, hitem, hcs, hkind, heq⟩ := exists_of_semicolon? (shaped_of_mem_descendants h hc)
        (wellKinded_of_mem_descendants h hc) hfound
      obtain ⟨rfl, rfl⟩ := Element.node.inj (hnode.symm.trans hitem)
      have hchildren : c.children = [.child c 0 c.offset (.node j cs),
          .child c 1 (c.offset + (Element.node j cs).fullLen) (.token t)] := by
        rw [Cursor.children, hitem]
        rfl
      obtain ⟨⟨m, ps⟩, ⟨m', ps'⟩, rfl⟩ : ∃ m m', ms = [m, m'] := by
        rw [hchildren] at hms
        exact List.length_eq_two.mp hms.length_eq.symm
      refine ⟨some ⟨.node .codeBlockItem
          [m.withTrailing (spare (m.trailingTrivia ++ t.leading ++ t.trailing))],
        semicolon.position, [], none⟩, ?_, ?_⟩
      · simp only [fixer, hfound, heq, Cursor.token?, List.map_cons, List.map_nil, dropSemicolon_pair]
        rfl
      · rw [Fixer.accept_eq _ _ hdisabled hrange]
        split_ifs with hsuppressed
        · -- where the rule is disabled the statement stays as its children are
          refine left_node hnode hms fun y hy => isMarked_eq_false h hM hc (fun x hx => ?_) hy
          obtain rfl := Option.some.inj (hfound.symm.trans hx.1)
          exact absurd (hsuppressed.symm.trans hx.2) (by decide)
        · have hdropped : IsDropped disabled c semicolon :=
            ⟨hfound, Bool.eq_false_of_not_eq_true hsuppressed⟩
          have hmark := (hM.isSome_iff semicolon (mem_tokens_of_semicolon? hc hfound).2).mpr
            ⟨c, hc, hdropped⟩
          rw [heq] at hmark
          rw [hchildren] at hms
          exact left_dropSemicolon hM hc hitem hcs hmark (List.forall₂_cons.mp hms).1

/-! ### Reading what is left -/

/-- Of the tokens and the tree of a file, the semicolons at the positions may be left out: what follows each
of them starts anew, what stands in front of it may end a statement and stays the lexeme that it is, and
the statement is at its end. -/
structure Needless (ps : List Nat) (ts : List Token) (tree : Element) : Prop where
  spare : Token.maySpare ps 0 ts = true
  fits : tree.Fits (Token.marks ps 0 ts) 0

instance (ps : List Nat) (ts : List Token) (tree : Element) : Decidable (Needless ps ts tree) :=
  decidable_of_iff (Token.maySpare ps 0 ts = true ∧ tree.Fits (Token.marks ps 0 ts) 0)
    ⟨fun h => ⟨h.1, h.2⟩, fun h => ⟨h.spare, h.fits⟩⟩

/-- **What a pass leaves is read as it stands**: whatever is disabled, if the semicolons that a pass
records are needless, then the text that it leaves is read into the tree that it leaves, trivia ignored. -/
theorem parse_run_of_needless {ts : Lexer.Tokens} (h : parse source = .ok tree)
    (hts : Lexer.tokens source = .ok ts) (hdisabled : disabled.IsSeparated) :
    ∃ outcome, fixer.run () disabled tree = .ok outcome ∧
      (Needless outcome.corrections ts.pending tree →
        ∃ tree', parse outcome.tree.fullText = .ok tree' ∧ tree'.stripped = outcome.tree.stripped) := by
  obtain ⟨outcome, hrun, hcorrections⟩ := mem_corrections_iff h hdisabled
  refine ⟨outcome, hrun, fun hneedless => ?_⟩
  have hM := marksDropped h hts hcorrections hneedless.spare
  obtain ⟨-, items, last, hitems, -⟩ := shaped_parse h
  obtain ⟨ps, outcome', hrun', hleft, -⟩ :=
    Fixer.made_run_of_not_token (fun c hc => makes_left h hdisabled hM hc) fun t ps hleft => by
      -- the file is a node, and so is what is left of it
      have hstripped : _ = (tree.without _ 0).stripped := hleft.stripped
      rw [hitems, Element.without_node, Element.stripped_node, Element.stripped_token] at hstripped
      cases hstripped
  obtain rfl := Except.ok.inj (hrun.symm.trans hrun')
  have hsheds : Token.Sheds _ 0 tree.leaves outcome.tree.leaves := hleft.sheds (by
    show Element.isMarked _ 0 tree = false
    rw [hitems]
    rfl)
  refine exists_parse_of_sheds h hts (fun p hp => ?_) hneedless.spare hneedless.fits hsheds
    hleft.stripped
  obtain ⟨c, hc, x, hdropped, rfl⟩ := (hcorrections p).mp hp
  exact exists_leaf_of_isDropped h hc hdropped

/-- The comment behind the semicolon that is dropped goes to the call; the other semicolon does not end
its line. -/
theorem parse_run_of_needless_comment : ∃ tree ts outcome,
    parse "let a = 1; b(); // one\nc()\n" = .ok tree ∧
      Lexer.tokens "let a = 1; b(); // one\nc()\n" = .ok ts ∧ DisabledRegions.none.IsSeparated ∧
      fixer.run () .none tree = .ok outcome ∧ outcome.corrections = [14] ∧
      outcome.tree.fullText = "let a = 1; b() // one\nc()\n" ∧
      Needless outcome.corrections ts.pending tree ∧
      ∃ tree', parse outcome.tree.fullText = .ok tree' ∧ tree'.stripped = outcome.tree.stripped := by
  have hpass : ((parse "let a = 1; b(); // one\nc()\n").toOption.bind fun tree =>
      (Lexer.tokens "let a = 1; b(); // one\nc()\n").toOption.bind fun ts =>
        (fixer.run () .none tree).toOption.map fun o => (o.corrections, o.tree.fullText,
          decide (Needless o.corrections ts.pending tree))) =
      some ([14], "let a = 1; b() // one\nc()\n", true) := by
    decide +kernel
  have hdisabled : DisabledRegions.none.IsSeparated := ⟨nofun, .nil⟩
  obtain ⟨tree, htree, hpass⟩ := Option.bind_eq_some_iff.mp hpass
  obtain ⟨ts, hts, hpass⟩ := Option.bind_eq_some_iff.mp hpass
  have h := Except.toOption_eq_some.mp htree
  have hts := Except.toOption_eq_some.mp hts
  obtain ⟨outcome, hrun, hread⟩ := parse_run_of_needless h hts hdisabled
  rw [hrun] at hpass
  obtain ⟨hcorrections, hrest⟩ := Prod.mk.inj (Option.some.inj hpass)
  obtain ⟨htext, hneedless⟩ := Prod.mk.inj hrest
  have hneedless := of_decide_eq_true hneedless
  exact ⟨tree, ts, outcome, h, hts, hdisabled, hrun, hcorrections, htext, hneedless, hread hneedless⟩

/-- Without its semicolon an enum case takes the parenthesis on the next line. -/
example : ((parse "case a;\n(1)\n").toOption.bind fun tree =>
    (fixer.run () .none tree).toOption.map fun o => (o.tree.fullText, (parse o.tree.fullText).isOk)) =
    some ("case a\n(1)\n", false) := by
  decide +kernel

end TrailingSemicolon

end SwiftTidy
