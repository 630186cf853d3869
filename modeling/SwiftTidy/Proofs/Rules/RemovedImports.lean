import SwiftTidy.Proofs.Rules.KeptLexemes
import SwiftTidy.Proofs.Tree.Unspaced

/-!
# What goes with an import

A pass over the imports removes the first statement that is an unused import and at which the rule
is not disabled (`IsRemovable`).  What stood in front of the statement goes to whatever follows it,
so of the comments only those go that stand behind the beginning of its first token: between its
tokens, and behind it on its line (`Removal`).

`removal_run` says so of the whole pass: it corrects something exactly when there is such a
statement, and then it removes the tokens of one such statement and no others.  A directive behind
an import goes with it (`removal_loses_directive`).
-/

namespace SwiftTidy

variable {source : String} {tree : Element}

namespace Element

/-- New trivia in front of an element changes none of its tokens. -/
theorem lexemes_withLeading (e : Element) (trivia : Trivia) :
    (e.withLeading trivia).lexemes = e.lexemes := by
  cases hleaves : e.leaves with
  | nil => rw [withLeading, mapFirstToken_of_leaves_eq_nil hleaves]
  | cons t ts =>
    rw [lexemes, withLeading, leaves_mapFirstToken hleaves, lexemes, hleaves]
    rfl

/-- Trivia that is put in front of an element, with the same comments as before behind some
others. -/
theorem comments_withLeading {e : Element} {front trivia : Trivia} (hleaves : e.leaves ≠ [])
    (h : trivia.filter (·.isComment) = e.leadingTrivia.filter (·.isComment)) :
    (e.withLeading (front ++ trivia)).comments = front.filter (·.isComment) ++ e.comments := by
  obtain ⟨t, ts, hleaves⟩ := List.exists_cons_of_ne_nil hleaves
  have hleading : e.leadingTrivia = t.leading := by rw [leadingTrivia_eq, hleaves]; rfl
  rw [hleading] at h
  rw [comments, withLeading, leaves_mapFirstToken hleaves, comments, hleaves, Token.pieces_cons,
    Token.pieces_cons, List.filter_append, h, List.append_assoc, List.append_assoc,
    List.append_assoc]

end Element

namespace UnusedImport

variable {ctx : Context} {disabled : DisabledRegions}

/-- Line breaks are no comments. -/
theorem filter_dropFirstNewline (t : Trivia) :
    (dropFirstNewline t).filter (·.isComment) = t.filter (·.isComment) := by
  induction t with
  | nil => rfl
  | cons p ps ih =>
    rw [dropFirstNewline, List.eraseP_cons]
    cases hp : p.isNewline with
    | true =>
      have hcomment : p.isComment = false := by
        rw [TriviaPiece.isNewline, beq_iff_eq] at hp
        rw [TriviaPiece.isComment, hp]
        rfl
      rw [cond_true, List.filter_cons_of_neg (by simp [hcomment])]
    | false =>
      rw [dropFirstNewline] at ih
      rw [cond_false, List.filter_cons, List.filter_cons, ih]

theorem removeAt?_append (front : List Element) (e next : Element) (back : List Element) :
    removeAt? (front ++ e :: next :: back) front.length =
      some (front ++ next.withLeading (e.leadingTrivia ++ dropFirstNewline next.leadingTrivia) ::
        back) := by
  have hremoved : (front ++ e :: next :: back)[front.length]? = some e := by simp
  have hnext : (front ++ e :: next :: back)[front.length + 1]? = some next := by
    rw [List.getElem?_append_right (by omega), Nat.add_sub_cancel_left]
    rfl
  simp only [removeAt?, hremoved, hnext, bind, Option.bind]
  rw [List.set_append_right _ _ (by omega), Nat.add_sub_cancel_left, List.set_cons_succ,
    List.set_cons_zero, List.eraseIdx_append_of_length_le (Nat.le_refl _), Nat.sub_self,
    List.eraseIdx_cons_zero]
  rfl

/-- A statement whose import can be removed: it is unused, and the rule is not disabled there. -/
structure IsRemovable (ctx : Context) (disabled : DisabledRegions) (item decl : Cursor) : Prop where
  first : item.child? 0 = some decl
  isImport : decl.kind = .importDecl
  isUnused : isUnused ctx decl = true
  isEnabled : disabled.isSuppressed decl.position = false

theorem isRemovable_iff {item decl : Cursor} : IsRemovable ctx disabled item decl ↔
    (((item.child? 0).filter (·.kind == .importDecl)).bind fun decl =>
      if UnusedImport.isUnused ctx decl && !disabled.isSuppressed decl.position then
        some (item.index, decl) else none) = some (item.index, decl) := by
  rw [Option.bind_eq_some_iff]
  constructor
  · intro h
    refine ⟨decl, Option.filter_eq_some_iff.mpr ⟨h.first, beq_iff_eq.mpr h.isImport⟩, ?_⟩
    rw [h.isUnused, h.isEnabled]
    rfl
  · rintro ⟨decl', hfilter, h⟩
    obtain ⟨htest, heq⟩ := Option.ite_none_right_eq_some.mp h
    cases heq
    rw [Bool.and_eq_true, Bool.not_eq_true'] at htest
    obtain ⟨hfirst, hkind⟩ := Option.filter_eq_some_iff.mp hfilter
    exact ⟨hfirst, beq_iff_eq.mp hkind, htest.1, htest.2⟩

/-- An import that is found is that of a statement which can be removed. -/
theorem isRemovable_of_removable? {c decl : Cursor} {index : Nat}
    (h : removable? ctx disabled c = some (index, decl)) :
    ∃ item ∈ c.children, index = item.index ∧ IsRemovable ctx disabled item decl := by
  obtain ⟨item, hitem, h⟩ := List.exists_of_findSome?_eq_some h
  have hindex : index = item.index := by
    obtain ⟨decl', -, h⟩ := Option.bind_eq_some_iff.mp h
    exact (Prod.mk.inj (Option.some.inj (Option.ite_none_right_eq_some.mp h).2)).1.symm
  exact ⟨item, hitem, hindex, isRemovable_iff.mpr (hindex ▸ h)⟩

theorem not_isRemovable_of_removable? {c item decl : Cursor}
    (h : removable? ctx disabled c = none) (hitem : item ∈ c.children) :
    ¬ IsRemovable ctx disabled item decl := by
  intro hremovable
  have hnone := List.findSome?_eq_none_iff.mp h item hitem
  cases hnone.symm.trans (isRemovable_iff.mp hremovable)

/-- The statement of an import is not the last child of the file. -/
theorem exists_next {items front back : List Element} {e : Element} {last : Token} {decl : Cursor}
    (hitems : items ++ [.token last] = front ++ e :: back)
    (hfirst : (Cursor.child (.root tree) front.length (Element.fullLenAll front) e).child? 0 =
      some decl) :
    ∃ inner, back = inner ++ [.token last] ∧ items = front ++ e :: inner := by
  rcases List.eq_nil_or_concat' back with rfl | ⟨inner, e', rfl⟩
  · -- the end of the file has no children
    obtain ⟨-, heq⟩ := List.append_inj' hitems rfl
    rw [← List.head_eq_of_cons_eq heq] at hfirst
    cases hfirst
  · rw [← List.cons_append, ← List.append_assoc] at hitems
    obtain ⟨hfront, heq⟩ := List.append_inj' hitems rfl
    exact ⟨inner, by rw [List.head_eq_of_cons_eq heq], hfront⟩

/-- The statement of an import starts with a token of the import, at a position in the file; all
that follows it has tokens too. -/
theorem exists_first_token (hparse : parse source = .ok tree) {front back : List Element}
    {e : Element} (htree : tree = .node .sourceFile (front ++ e :: back)) {decl : Cursor}
    (h : IsRemovable ctx disabled (.child (.root tree) front.length (Element.fullLenAll front) e)
      decl) :
    ∃ first inside next rest, e.leaves = first :: inside ∧ back = next :: rest ∧
      next.leaves ≠ [] ∧ (Cursor.root tree).position ≤ decl.position ∧
      decl.position < (Cursor.root tree).endPosition := by
  obtain ⟨hshaped, items, last, hitems, hblocks⟩ := shaped_parse hparse
  obtain ⟨inner, rfl, rfl⟩ :=
    exists_next (Element.node.inj (hitems.symm.trans htree)).2 h.first
  have hleaves : ∀ f ∈ front ++ e :: inner, ∃ j cs rest, f = .node .codeBlockItem (.node j cs :: rest) ∧
      Element.leavesAll cs ≠ [] := by
    intro f hf
    obtain ⟨es, rfl⟩ := hblocks f hf
    rw [hitems, Element.shaped_node, Element.shapedAll_iff] at hshaped
    have hf := hshaped.2 _ (List.mem_append_left _ hf)
    obtain ⟨j, cs, rest, rfl, hcs, -⟩ := ((Element.shaped_node _ es).mp hf).1.statement rfl
    exact ⟨j, cs, rest, rfl, hcs⟩
  obtain ⟨j, cs, rest, rfl, hcs⟩ := hleaves e (by simp)
  obtain ⟨first, inside, hfirst⟩ := List.exists_cons_of_ne_nil hcs
  have hinside : (Element.node .codeBlockItem (.node j cs :: rest)).leaves =
      first :: (inside ++ Element.leavesAll rest) := by
    rw [Element.leaves_node, Element.leavesAll_cons, Element.leaves_node, hfirst, List.cons_append]
  -- the import is the first child of the statement
  have hdecl := Option.some.inj (h.first : some _ = some decl)
  have hbelow : decl ∈ (Cursor.root tree).descendants := by
    refine Cursor.mem_descendants_trans (Cursor.mem_descendants_of_mem_children ?_)
      (Cursor.mem_descendants_of_mem_children (List.mem_of_getElem? h.first))
    rw [← Nat.zero_add (Element.fullLenAll front)]
    exact Cursor.child_mem_children (p := .root tree) (by rw [htree]; rfl)
  have hfirstDecl : decl.element.leaves = first :: inside := by
    rw [← hdecl]
    exact (Element.leaves_node j cs).trans hfirst
  have hcut : first.IsCut := by
    refine isCut_of_mem_statement hparse hbelow ?_ ?_ first (by rw [hfirstDecl]; simp)
    · rw [← hdecl]
      rfl
    · rw [h.isImport]
      decide
  obtain ⟨hfrom, hto⟩ := Cursor.position_bounds (wellKinded_parse hparse)
    (wellKinded_of_mem_descendants hparse hbelow) hbelow
    hfirstDecl hcut.len_pos
  cases inner with
  | nil => exact ⟨first, _, _, [], hinside, rfl, by simp, hfrom, hto⟩
  | cons next inner =>
    obtain ⟨j', cs', rest', rfl, hcs'⟩ := hleaves next (by simp)
    refine ⟨first, _, _, _, hinside, rfl, ?_, hfrom, hto⟩
    rw [Element.leaves_node, Element.leavesAll_cons, Element.leaves_node]
    simp [hcs']

/-- The outcome of a pass that removes the statement `item` between `front` and `back` because of
the import `decl`: its tokens go, and of the comments of the file those that stand behind the
beginning of its first token. -/
structure Removal (ctx : Context) (disabled : DisabledRegions) (tree : Element)
    (outcome : FixOutcome) (front : List Element) (item : Element) (back : List Element)
    (decl : Cursor) (first : Token) (inside : List Token) : Prop where
  tree_eq : tree = .node .sourceFile (front ++ item :: back)
  isRemovable : IsRemovable ctx disabled
    (.child (.root tree) front.length (Element.fullLenAll front) item) decl
  corrections : outcome.corrections = [decl.position]
  leaves : item.leaves = first :: inside
  lexemes : outcome.tree.lexemes = front.flatMap Element.lexemes ++ back.flatMap Element.lexemes
  comments : outcome.tree.comments = front.flatMap Element.comments ++
    (first.leading.filter (·.isComment) ++ back.flatMap Element.comments)

/-- What the fixer proposes for the root of a file. -/
theorem node_fixer (ctx : Context) {es : List Element} (htree : tree = .node .sourceFile es) :
    (fixer ctx).node (.root tree) tree () =
      .ok ((removable? ctx (ctx.unit.disabledRegions description) (.root tree)).bind fun found =>
        (removeAt? es found.1).bind fun es' =>
          some ⟨.node .sourceFile es', found.2.position, [], none⟩, ()) := by
  rw [htree]
  rfl

/-- What is left without the statement of an import. -/
theorem removal_of_isRemovable {front rest : List Element}
    {e next : Element} (htree : tree = .node .sourceFile (front ++ e :: next :: rest))
    {decl : Cursor} {first : Token} {inside : List Token}
    (h : IsRemovable ctx disabled (.child (.root tree) front.length (Element.fullLenAll front) e)
      decl)
    (hleaves : e.leaves = first :: inside) (hnext : next.leaves ≠ []) :
    Removal ctx disabled tree
      ⟨.node .sourceFile (front ++
        next.withLeading (e.leadingTrivia ++ dropFirstNewline next.leadingTrivia) :: rest),
        [decl.position]⟩ front e (next :: rest) decl first inside where
  tree_eq := htree
  isRemovable := h
  corrections := rfl
  leaves := hleaves
  lexemes := by
    rw [Element.lexemes_node, List.flatMap_append, List.flatMap_cons, List.flatMap_cons,
      Element.lexemes_withLeading]
  comments := by
    have hleading : e.leadingTrivia = first.leading := by
      rw [Element.leadingTrivia_eq, hleaves]
      rfl
    rw [Element.comments_node, List.flatMap_append, List.flatMap_cons, List.flatMap_cons,
      Element.comments_withLeading hnext (filter_dropFirstNewline _), hleading, List.append_assoc]

/-- **A pass over the imports**: either no import can be removed, and nothing changes, or the
statement of one is removed with its tokens and the comments behind the beginning of the first. -/
theorem removal_run (h : SourceUnit.ofText source = .ok ctx.unit) :
    ∃ outcome, (fixer ctx).run () (ctx.unit.disabledRegions description) ctx.unit.tree =
        .ok outcome ∧
      ((outcome.corrections = [] ∧ outcome.tree = ctx.unit.tree ∧
          ∀ item ∈ ctx.unit.root.children, ∀ decl,
            ¬ IsRemovable ctx (ctx.unit.disabledRegions description) item decl) ∨
        ∃ front item back decl first inside,
          Removal ctx (ctx.unit.disabledRegions description) ctx.unit.tree outcome front item back
            decl first inside) := by
  have hparse := SourceUnit.parse_of_ofText h
  have hseparated := SourceUnit.disabledRegions_isSeparated h description
  obtain ⟨-, items, t, htree, -⟩ := shaped_parse hparse
  have hnode := node_fixer ctx htree
  obtain ⟨fixed, hrun, hfixed⟩ := Fixer.run_of_visit_eq_false (x := fixer ctx)
    (ctx.unit.disabledRegions description) rfl (htree ▸ hnode)
  rw [← htree] at hrun hfixed
  refine ⟨_, hrun, ?_⟩
  cases hfound : removable? ctx (ctx.unit.disabledRegions description) (.root ctx.unit.tree) with
  | none =>
    rw [hfound] at hfixed
    refine .inl ⟨?_, (hfixed _ _ htree).trans htree.symm, ?_⟩
    · rw [Option.bind_none, Fixer.accept]
      exact List.mergeSort_nil
    · exact fun item hitem decl => not_isRemovable_of_removable? hfound hitem
  | some found =>
    obtain ⟨index, decl⟩ := found
    obtain ⟨item, hitem, rfl, hremovable⟩ := isRemovable_of_removable? hfound
    obtain ⟨front, e, back, hchildren, rfl⟩ := Cursor.exists_of_mem_children hitem
    have hzero : (Cursor.root ctx.unit.tree).offset + Element.fullLenAll front =
        Element.fullLenAll front := Nat.zero_add _
    rw [hzero] at hremovable
    have hsplit : ctx.unit.tree = .node .sourceFile (front ++ e :: back) := by
      rw [← hchildren, Cursor.element, htree]
      rfl
    obtain ⟨first, inside, next, rest, hleaves, rfl, hnext, hrange⟩ :=
      exists_first_token hparse hsplit hremovable
    -- the statement that is found is one of the children of the file
    have hes : items ++ [.token t] = front ++ e :: next :: rest :=
      (Element.node.inj (htree.symm.trans hsplit)).2
    rw [hfound] at hfixed
    rw [Option.bind_some, hes, Cursor.index, removeAt?_append, Option.bind_some,
      Fixer.accept_eq _ _ hseparated hrange, hremovable.isEnabled, if_neg Bool.false_ne_true]
      at hfixed ⊢
    rw [hfixed _ _ rfl, List.filter_cons_of_pos (by rw [hremovable.isEnabled]; rfl),
      List.filter_nil, List.mergeSort_singleton]
    exact .inr ⟨front, e, next :: rest, decl, first, inside,
      removal_of_isRemovable hsplit hremovable hleaves hnext⟩

/-- Knows that one module is not needed. -/
def unneeded (module : String) (name : String) : Option Bool :=
  if name = module then some false else none

/-- The comments in front of an import, in front of the next statement and behind it stay; the one
between the tokens of the import and the one behind it go. -/
theorem removal_run_comments : ∃ ctx outcome front item back decl first inside,
    SourceUnit.ofText "// a\nimport /* b */ A // c\n/* d */ x // e\n" = .ok ctx.unit ∧
    (fixer ctx).run () (ctx.unit.disabledRegions description) ctx.unit.tree = .ok outcome ∧
    outcome.tree.fullText = "// a\n/* d */ x // e\n" ∧ decl.position = 5 ∧
    Removal ctx (ctx.unit.disabledRegions description) ctx.unit.tree outcome front item back decl
      first inside := by
  have hmap : (SourceUnit.ofText "// a\nimport /* b */ A // c\n/* d */ x // e\n").toOption.map
      (fun u => ((fixer ⟨u, unneeded "A"⟩).run () (u.disabledRegions description)
        u.tree).toOption.map fun o => (o.corrections, o.tree.fullText)) =
      some (some ([5], "// a\n/* d */ x // e\n")) := by
    decide +kernel
  obtain ⟨u, hu, hpass⟩ := Option.map_eq_some_iff.mp hmap
  obtain ⟨outcome', hrun', hvalues⟩ := Option.map_eq_some_iff.mp hpass
  obtain ⟨hcorrections, htext⟩ := Prod.mk.inj hvalues
  have h : SourceUnit.ofText "// a\nimport /* b */ A // c\n/* d */ x // e\n" = .ok u :=
    Except.toOption_eq_some.mp hu
  obtain ⟨outcome, hrun, hcases⟩ := @removal_run _ ⟨u, unneeded "A"⟩ h
  obtain rfl : outcome = outcome' :=
    Except.ok.inj (hrun.symm.trans (Except.toOption_eq_some.mp hrun'))
  rcases hcases with ⟨hnone, -⟩ | ⟨front, item, back, decl, first, inside, hremoval⟩
  · cases hcorrections.symm.trans hnone
  · exact ⟨_, outcome, front, item, back, decl, first, inside, h, hrun, htext,
      List.head_eq_of_cons_eq (hremoval.corrections.symm.trans hcorrections), hremoval⟩

/-- A directive behind an import goes with it. -/
theorem removal_loses_directive : ∃ ctx outcome,
    SourceUnit.ofText "import A // swiftlint:disable colon\nlet a:Int = 1\n" = .ok ctx.unit ∧
    (fixer ctx).run () (ctx.unit.disabledRegions description) ctx.unit.tree = .ok outcome ∧
    outcome.corrections = [0] ∧ outcome.tree.comments ≠ ctx.unit.tree.comments := by
  have hmap : (SourceUnit.ofText "import A // swiftlint:disable colon\nlet a:Int = 1\n").toOption.map
      (fun u => (u.tree.comments, ((fixer ⟨u, unneeded "A"⟩).run ()
        (u.disabledRegions description) u.tree).toOption.map fun o =>
          (o.corrections, o.tree.comments))) =
      some ([⟨.lineComment, "// swiftlint:disable colon"⟩], some ([0], [])) := by
    decide +kernel
  obtain ⟨u, hu, hpass⟩ := Option.map_eq_some_iff.mp hmap
  obtain ⟨hbefore, hpass⟩ := Prod.mk.inj hpass
  obtain ⟨outcome, hrun, hvalues⟩ := Option.map_eq_some_iff.mp hpass
  obtain ⟨hcorrections, hafter⟩ := Prod.mk.inj hvalues
  refine ⟨⟨u, unneeded "A"⟩, outcome, Except.toOption_eq_some.mp hu,
    Except.toOption_eq_some.mp hrun, hcorrections, ?_⟩
  rw [hafter, hbefore]
  exact (List.cons_ne_nil _ _).symm

end UnusedImport

end SwiftTidy
