import SwiftTidy.Proofs.Lint.Spacing
import SwiftTidy.Proofs.Tree.CommonAncestor

/-!
# Edits of two neighbouring tokens

An edit at a place goes by the children alone: it changes the first leaf of the child that holds the
token, and the last leaf of the children in front of this one.  At the lowest common ancestor of a
token and the one in front of it these are the two tokens, whatever has become of the children
(`edit_at_commonAncestor`).

Whether the token is the first one of the child is not asked.  So there are places further up where
two leaves are found too, and they are other tokens: those that meet there (`edit_eq_none_iff`).
-/

namespace SwiftTidy

variable {source : String} {tree : Element} {p q x z c : Cursor} {front back : List Element}
  {e : Element}

namespace Cursor

/-- The place where a token of a parsed tree meets the one in front of it is the one that is looked
up. -/
theorem MeetsAt.commonAncestorWithPrevious?_eq (hmeets : z.MeetsAt c front e back)
    (h : parse source = .ok tree) (hc : c ∈ (root tree).descendants) :
    z.commonAncestorWithPrevious? = some c := by
  have hkinded := wellKinded_of_mem_descendants h hc
  have hz : z ∈ (root tree).tokens := by
    obtain ⟨hbelow, htoken⟩ := List.mem_filter.mp (hmeets.mem_tokensOf hkinded)
    exact List.mem_filter.mpr ⟨mem_descendants_trans hc hbelow, htoken⟩
  obtain ⟨q, hprev, hq⟩ := hmeets.exists_prevToken? hkinded
  obtain ⟨p, front', e', back', hmeets', hcommon, hp, hq'⟩ := exists_meeting_of_parse h hz hprev
  -- both places are the lowest common ancestor of the two tokens
  have hlca := hmeets.isLowestCommonAncestor hkinded (List.mem_of_getLast? hq)
  have hlca' := hmeets'.isLowestCommonAncestor (wellKinded_of_mem_descendants h hp)
    (List.mem_of_getLast? hq')
  rw [hcommon, hlca'.unique hlca]

end Cursor

namespace TokenPair

/-! ### Where the two tokens meet -/

/-- **At the lowest common ancestor**: a token of a parsed tree with one in front of it has a lowest
common ancestor `p` with it, which is the one that is looked up.  An edit there, when the children
have become any that have leaves where those of `p` have, answers, and of all leaves it changes two:
the last one in front of the child that holds the token, and the first one from this child on.  If
the children have as many leaves as those of `p` the two stand where the tokens do, and if nothing
has changed yet they are the tokens. -/
theorem edit_at_commonAncestor (h : parse source = .ok tree) (hx : x ∈ (Cursor.root tree).tokens)
    (hq : x.prevToken? = some q) :
    ∃ p y xs ys, x.commonAncestorWithPrevious? = some p ∧ p.IsLowestCommonAncestor q x ∧
      y ∈ x :: x.ancestors ∧ y.parent? = some p ∧ p.tokens = xs ++ q :: x :: ys ∧
      ∀ current : Element, List.Forall₂ Element.SameSlot p.element.children current.children →
        ∃ ts t u us, current.leaves = ts ++ t :: u :: us ∧
          Element.leavesAll (current.children.take y.index) = ts ++ [t] ∧
          (∀ f g, ∃ r, edit p current x f g = .ok (some r) ∧ r.leaves = ts ++ f t :: g u :: us) ∧
          (List.Forall₂ Element.SameLeafCount p.element.children current.children →
            ts.length = xs.length ∧ us.length = ys.length) ∧
          (current = p.element → q.element = .token t ∧ x.element = .token u) := by
  obtain ⟨p, front, e, back, hmeets, hcommon, hp, hlast⟩ := Cursor.exists_meeting_of_parse h hx hq
  have hkinded := wellKinded_of_mem_descendants h hp
  obtain ⟨xs, hxs⟩ := List.getLast?_eq_some_iff.mp hlast
  obtain ⟨ys, htokens⟩ : ∃ ys, Cursor.tokensOf p.element p = xs ++ q :: x :: ys := by
    obtain ⟨ys, hys⟩ := hmeets.exists_tokensOf_eq hkinded
    exact ⟨ys, by rw [hys, hxs, List.append_assoc]; rfl⟩
  refine ⟨p, _, xs, ys, hcommon, hmeets.isLowestCommonAncestor hkinded (List.mem_of_getLast? hlast),
    hmeets.below, rfl, htokens, fun current hslots => ?_⟩
  rw [hmeets.children] at hslots
  obtain ⟨ts, t, u, us, hfront, hback, hedit⟩ := edit_eq hmeets hkinded hslots
  obtain ⟨k, es, rfl⟩ : ∃ k es, current = .node k es := by
    cases current with
    | token t =>
      have hlength := hslots.length_eq
      simp [Element.children] at hlength
    | node k es => exact ⟨k, es, rfl⟩
  have hleaves : (Element.node k es).leaves = ts ++ t :: u :: us := by
    rw [Element.leaves_node, ← List.take_append_drop front.length es, Element.leavesAll_append]
    exact (congrArg₂ (· ++ ·) hfront hback).trans (by simp)
  have hcount : List.Forall₂ Element.SameLeafCount p.element.children es →
      ts.length = xs.length ∧ us.length = ys.length := by
    intro hsame
    rw [hmeets.children] at hsame
    -- as many tokens in the slots: the pair stands at the same index
    obtain ⟨hbefore, hall⟩ := length_leavesAll_of_meetsAt hmeets hkinded hsame
    rw [htokens, ← Element.leaves_node k es, hleaves] at hall
    rw [hxs] at hbefore
    have hbefore : (ts ++ [t]).length = (xs ++ [q]).length := hfront ▸ hbefore
    simp only [List.length_append, List.length_cons, List.length_nil] at hbefore hall
    omega
  refine ⟨ts, t, u, us, hleaves, hfront, fun f g => hedit k f g, hcount, fun hcurrent => ?_⟩
  have hlength := (hcount (by rw [← hcurrent]; exact List.forall₂_same.mpr fun _ _ => rfl)).1
  have hown := Cursor.map_element_tokensOf hkinded (c := p) rfl
  rw [htokens, ← hcurrent, hleaves, List.map_append, List.map_append] at hown
  obtain ⟨-, hrest⟩ := List.append_inj hown (by rw [List.length_map, List.length_map, hlength])
  obtain ⟨hqt, hrest⟩ := List.cons_eq_cons.mp hrest
  exact ⟨hqt, (List.cons_eq_cons.mp hrest).1⟩

/-- In a call without arguments the empty list of arguments stands between the parentheses.  They
are found nevertheless, also when the called expression has become another one. -/
theorem edit_at_commonAncestor_call :
    let called : Element := .node .memberAccessExpr [.token ⟨.identifier, "g", [], []⟩,
      .token ⟨.period, ".", [], []⟩, .token ⟨.identifier, "h", [], []⟩]
    let current : Element := .node .functionCallExpr [called, .token ⟨.leftParen, "(", [], []⟩,
      .node .argumentList [], .token ⟨.rightParen, ")", [], []⟩]
    let spaced (t : Token) : Token := { t with trailing := [TriviaPiece.spaces 1] }
    ∃ tree x q p r, parse "f()\n" = .ok tree ∧ x ∈ (Cursor.root tree).tokens ∧
      x.prevToken? = some q ∧ q.text = "(" ∧ x.text = ")" ∧ p.kind = .functionCallExpr ∧
      x.commonAncestorWithPrevious? = some p ∧ p.IsLowestCommonAncestor q x ∧
      edit p current x spaced id = .ok (some r) ∧ r.fullText = "g.h( )" := by
  intro called current spaced
  let callee : Element := .node .identifierExpr [.token ⟨.identifier, "f", [], []⟩]
  have heval : ((parse "f()\n").toOption.bind fun tree => (Cursor.root tree).tokens[2]?.bind fun x =>
      x.prevToken?.bind fun q => x.commonAncestorWithPrevious?.map fun p =>
        (q.text, x.text, p.element, (edit p current x spaced id).toOption.map (·.map (·.fullText)))) =
      some ("(", ")", .node .functionCallExpr [callee, .token ⟨.leftParen, "(", [], []⟩,
        .node .argumentList [], .token ⟨.rightParen, ")", [], []⟩], some (some "g.h( )")) := by
    decide +kernel
  obtain ⟨tree, htree, heval⟩ := Option.bind_eq_some_iff.mp heval
  obtain ⟨x, hx, heval⟩ := Option.bind_eq_some_iff.mp heval
  obtain ⟨q, hq, heval⟩ := Option.bind_eq_some_iff.mp heval
  obtain ⟨p, hp, heval⟩ := Option.map_eq_some_iff.mp heval
  simp only [Prod.mk.injEq] at heval
  obtain ⟨hqtext, hxtext, helement, hedited⟩ := heval
  have htree := Except.toOption_eq_some.mp htree
  have hx := List.mem_of_getElem? hx
  obtain ⟨p', y, xs, ys, hcommon, hlca, -, -, -, hcurrent⟩ := edit_at_commonAncestor htree hx hq
  obtain rfl : p = p' := Option.some.inj (hp.symm.trans hcommon)
  obtain ⟨ts, t, u, us, -, -, hedit, -⟩ := hcurrent current (by
    rw [helement]
    simp [Element.children, Element.SameSlot, current, called, callee])
  obtain ⟨r, hr, -⟩ := hedit spaced id
  rw [hr] at hedited
  refine ⟨tree, x, q, p, r, htree, hx, hq, hqtext, hxtext, by rw [Cursor.kind, helement]; rfl, hcommon,
    hlca, hr, ?_⟩
  exact Option.some.inj (Option.some.inj hedited)

/-! ### At other places -/

/-- Where a place does not hold the token there is nothing to edit. -/
theorem edit_of_not_mem (hx : x ∈ (Cursor.root tree).descendants)
    (hc : c ∈ (Cursor.root tree).descendants) (h : c ∉ x.ancestors) (current : Element)
    (f g : Token → Token) : edit c current x f g = .ok none := by
  have hfind : (x :: x.ancestors).find? (fun y => y.parent?.any (·.samePlace c)) = none := by
    refine List.find?_eq_none.mpr fun y hy hparent => ?_
    cases y with
    | root e => cases hparent
    | child p i o e =>
      have hp := Cursor.mem_ancestors_of_child hy
      have hpath : p.path = c.path := by simpa [Cursor.parent?, Cursor.samePlace] using hparent
      obtain rfl : p = c :=
        Cursor.eq_of_mem_descendants (Cursor.mem_descendants_of_mem_ancestors hx hp) hc hpath
      exact h hp
  rw [edit, hfind]
  rfl

/-- Where the children in front of the one that holds the token have no leaves there is nothing to
edit. -/
theorem edit_of_front_eq_nil {n o : Nat} {current : Element}
    (hbelow : Cursor.child c n o e ∈ x :: x.ancestors) (hn : n ≤ current.children.length)
    (h : Element.leavesAll (current.children.take n) = []) (f g : Token → Token) :
    edit c current x f g = .ok none := by
  rw [edit, Cursor.find?_parent_samePlace hbelow]
  simp only [Cursor.index, lastWithLeaf_eq_none hn h, bind, Except.bind]
  rfl

/-- Which token a child holds makes no difference. -/
theorem edit_congr {n o : Nat} (hx : Cursor.child c n o e ∈ x :: x.ancestors)
    (hz : Cursor.child c n o e ∈ z :: z.ancestors) (current : Element) (f g : Token → Token) :
    edit c current x f g = edit c current z f g := by
  rw [edit, edit, Cursor.find?_parent_samePlace hx, Cursor.find?_parent_samePlace hz]

/-- A place above a token starts with the same token as the child that holds it, and then nothing is
edited there; or the first token of this child meets another one there, and they are edited. -/
theorem edit_none_or_meets (h : parse source = .ok tree) (hx : x ∈ (Cursor.root tree).tokens)
    {y : Cursor} (hy : y ∈ x :: x.ancestors) (hparent : y.parent? = some c) (f g : Token → Token) :
    ∃ z, y.firstToken? = some z ∧
      (c.firstToken? = some z ∧ edit c c.element x f g = .ok none ∨
        c.firstToken? ≠ some z ∧ (∃ front e back, z.MeetsAt c front e back ∧
          y = .child c front.length (c.offset + Element.fullLenAll front) e) ∧
          ∃ r, edit c c.element x f g = .ok (some r) ∧ edit c c.element z f g = .ok (some r)) := by
  obtain ⟨hdescendant, htoken⟩ := List.mem_filter.mp hx
  obtain ⟨hplaced, -⟩ := Cursor.isPlaced_of_mem_descendants hdescendant
  obtain ⟨hc, front, e, back, hchildren, rfl⟩ := (hplaced.of_mem_ancestors hy).eq_child hparent
  have hkinded := wellKinded_of_mem_descendants h
    (Cursor.mem_descendants_of_mem_ancestors hdescendant (Cursor.mem_ancestors_of_child hy))
  have he : e.leaves ≠ [] := by
    obtain ⟨t, -, ht⟩ := Cursor.exists_token_of_mem_tokensOf
      (Cursor.wellKinded_children hkinded hchildren).2.1 rfl
      (List.mem_filter.mpr ⟨hplaced.mem_descendants hy, htoken⟩)
    exact List.ne_nil_of_mem ht
  obtain ⟨z, hz, ⟨hfront, hfirst⟩ | ⟨hfirst, hmeets⟩⟩ :=
    Cursor.firstToken?_child_or_meets hc hkinded hchildren he
  · refine ⟨z, hz, .inl ⟨hfirst, edit_of_front_eq_nil hy ?_ ?_ f g⟩⟩
    · simp [hchildren]
    · rwa [hchildren, List.take_left]
  · obtain ⟨k, hnode⟩ : ∃ k, c.element = .node k c.element.children := by
      cases hce : c.element with
      | token t => rw [hce] at hchildren; simp [Element.children] at hchildren
      | node k es => exact ⟨k, rfl⟩
    obtain ⟨ts, t, u, us, -, -, hedit⟩ := edit_eq hmeets hkinded
      (List.forall₂_same.mpr fun _ _ => Iff.rfl)
    obtain ⟨r, hr, -⟩ := hedit k f g
    rw [← hchildren, ← hnode] at hr
    exact ⟨z, hz, .inr ⟨hfirst, ⟨front, e, back, hmeets, rfl⟩, r,
      (edit_congr hy hmeets.below c.element f g).trans hr, hr⟩⟩

/-- **At any place**: an edit of a token does nothing exactly where no child holds the token, or
where the child that does starts with the first token of the place.  Elsewhere it changes the first
token of this child and the one in front of it, which meet there.  So nothing is done at places that
are not at or above the lowest common ancestor of the token and the one in front of it. -/
theorem edit_eq_none_iff (h : parse source = .ok tree) (hx : x ∈ (Cursor.root tree).tokens)
    (hc : c ∈ (Cursor.root tree).descendants) (f g : Token → Token) :
    (edit c c.element x f g = .ok none ↔
      ∀ y ∈ x :: x.ancestors, y.parent? = some c → y.firstToken? = c.firstToken?) ∧
    (∀ y ∈ x :: x.ancestors, y.parent? = some c → y.firstToken? ≠ c.firstToken? →
      ∃ z r, y.firstToken? = some z ∧ z.commonAncestorWithPrevious? = some c ∧
        edit c c.element x f g = .ok (some r) ∧ edit c c.element z f g = .ok (some r)) ∧
    ∀ q p, x.prevToken? = some q → p.IsLowestCommonAncestor q x → c ∉ p :: p.ancestors →
      edit c c.element x f g = .ok none := by
  obtain ⟨hdescendant, htoken⟩ := List.mem_filter.mp hx
  obtain ⟨hplaced, -⟩ := Cursor.isPlaced_of_mem_descendants hdescendant
  refine ⟨⟨fun hnone y hy hparent => ?_, fun hsame => ?_⟩, fun y hy hparent hne => ?_,
    fun q p hq hp hnot => ?_⟩
  · obtain ⟨z, hz, ⟨hfirst, -⟩ | ⟨-, -, r, hr, -⟩⟩ := edit_none_or_meets h hx hy hparent f g
    · rw [hz, hfirst]
    · cases hnone.symm.trans hr
  · by_cases habove : c ∈ x.ancestors
    · obtain ⟨front, e, back, -, hy⟩ := hplaced.exists_child habove
      obtain ⟨z, hz, ⟨-, hnone⟩ | ⟨hne, -⟩⟩ := edit_none_or_meets h hx hy rfl f g
      · exact hnone
      · exact absurd ((hsame _ hy rfl).symm.trans hz) hne
    · exact edit_of_not_mem hdescendant hc habove c.element f g
  · obtain ⟨z, hz, ⟨hfirst, -⟩ | ⟨-, ⟨front, e, back, hmeets, -⟩, r, hr, hr'⟩⟩ :=
      edit_none_or_meets h hx hy hparent f g
    · exact absurd (hz.trans hfirst.symm) hne
    · exact ⟨z, r, hz, hmeets.commonAncestorWithPrevious?_eq h hc, hr, hr'⟩
  · by_cases habove : c ∈ x.ancestors
    · obtain ⟨front, e, back, -, hy⟩ := hplaced.exists_child habove
      obtain ⟨z, -, ⟨-, hnone⟩ | ⟨-, ⟨front, e, back, hmeets, hchild⟩, -⟩⟩ :=
        edit_none_or_meets h hx hy rfl f g
      · exact hnone
      · rw [hchild] at hy
        exact absurd (hmeets.mem_of_isLowestCommonAncestor (wellKinded_of_mem_descendants h hc)
          (List.mem_filter.mpr ⟨hplaced.mem_descendants hy, htoken⟩) hq hp) hnot
    · exact edit_of_not_mem hdescendant hc habove c.element f g

/-- The colon meets the name in front of it at the binding.  At the declaration further up an edit
of the colon goes to the name and the keyword. -/
theorem edit_eq_none_iff_declaration :
    let spaces (n : Nat) (t : Token) : Token := { t with trailing := [TriviaPiece.spaces n] }
    ∃ tree x q p c z r, parse "let abc :Void\n" = .ok tree ∧ x ∈ (Cursor.root tree).tokens ∧
      x.text = ":" ∧ x.prevToken? = some q ∧ q.text = "abc" ∧
      x.commonAncestorWithPrevious? = some p ∧ p.kind = .patternBinding ∧
      c ∈ (Cursor.root tree).descendants ∧ c.kind = .variableDecl ∧
      z.text = "abc" ∧ z.commonAncestorWithPrevious? = some c ∧
      edit c c.element z (spaces 1) (spaces 2) = .ok (some r) ∧
      edit c c.element x (spaces 1) (spaces 2) = .ok (some r) ∧ r.fullText = "let abc  :Void" := by
  intro spaces
  have heval : ((parse "let abc :Void\n").toOption.bind fun tree =>
      (Cursor.root tree).tokens[2]?.bind fun x => x.prevToken?.bind fun q =>
        x.commonAncestorWithPrevious?.bind fun p => x.ancestors[1]?.bind fun y =>
          y.parent?.map fun c => ([x.text, q.text], [p.kind, c.kind],
            [y.firstToken?.map (·.text), c.firstToken?.map (·.text)],
            (edit c c.element x (spaces 1) (spaces 2)).toOption.map (·.map (·.fullText)))) =
      some ([":", "abc"], [.patternBinding, .variableDecl], [some "abc", some "let"],
        some (some "let abc  :Void")) := by
    decide +kernel
  obtain ⟨tree, htree, heval⟩ := Option.bind_eq_some_iff.mp heval
  obtain ⟨x, hx, heval⟩ := Option.bind_eq_some_iff.mp heval
  obtain ⟨q, hq, heval⟩ := Option.bind_eq_some_iff.mp heval
  obtain ⟨p, hp, heval⟩ := Option.bind_eq_some_iff.mp heval
  obtain ⟨y, hy, heval⟩ := Option.bind_eq_some_iff.mp heval
  obtain ⟨c, hc, heval⟩ := Option.map_eq_some_iff.mp heval
  simp only [Prod.mk.injEq, List.cons.injEq, and_true] at heval
  obtain ⟨⟨hxtext, hqtext⟩, ⟨hpkind, hckind⟩, ⟨hyfirst, hcfirst⟩, hedited⟩ := heval
  have htree := Except.toOption_eq_some.mp htree
  have hx := List.mem_of_getElem? hx
  have hy := List.mem_of_getElem? hy
  have hyx := Cursor.mem_descendants_of_mem_ancestors (List.mem_filter.mp hx).1 hy
  have hcx : c ∈ (Cursor.root tree).descendants := by
    refine Cursor.mem_descendants_of_mem_ancestors hyx ?_
    cases y with
    | root e => cases hc
    | child p i o e =>
      cases hc
      exact List.mem_cons_self
  have hne : y.firstToken? ≠ c.firstToken? := by
    intro heq
    rw [heq, hcfirst] at hyfirst
    exact absurd hyfirst (by decide)
  obtain ⟨z, r, hz, hcommon, hr, hr'⟩ := (edit_eq_none_iff htree hx hcx (spaces 1) (spaces 2)).2.1 y
    (List.mem_cons_of_mem x hy) hc hne
  rw [hz] at hyfirst
  rw [hr] at hedited
  exact ⟨tree, x, q, p, c, z, r, htree, hx, hxtext, hq, hqtext, hp, hpkind, hcx, hckind,
    Option.some.inj hyfirst, hcommon, hr', hr, Option.some.inj (Option.some.inj hedited)⟩

end TokenPair

end SwiftTidy
