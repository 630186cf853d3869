import SwiftTidy.Proofs.Tree.Meeting

/-!
# Lowest common ancestors

The place where a token meets the one in front of it (`MeetsAt`) is the lowest place above both
(`MeetsAt.isLowestCommonAncestor`).  A token below one child and a token below another have nothing
in common but what is above both children, because no two places of a tree have the same path.
-/

namespace SwiftTidy

namespace Cursor

/-- A place above two others, with every place above both at or above it. -/
structure IsLowestCommonAncestor (p x y : Cursor) : Prop where
  left : p ∈ x.ancestors
  right : p ∈ y.ancestors
  lowest : ∀ r ∈ x.ancestors, r ∈ y.ancestors → r ∈ p :: p.ancestors

variable {p q x y z c : Cursor} {front back : List Element} {e : Element}

/-- Two places have no more than one lowest common ancestor. -/
theorem IsLowestCommonAncestor.unique (hp : p.IsLowestCommonAncestor x y)
    (hq : q.IsLowestCommonAncestor x y) : p = q := by
  have hpq := hq.lowest p hp.left hp.right
  have hqp := hp.lowest q hq.left hq.right
  rcases List.mem_cons.mp hpq with heq | hpq
  · exact heq
  · have hle := length_path_le hqp
    have hlt := length_path_lt hpq
    omega

/-! ### Places above and below -/

/-- A place is below all that is above it. -/
theorem IsPlaced.mem_descendants : ∀ {x : Cursor}, x.IsPlaced → y ∈ x :: x.ancestors →
    x ∈ y.descendants
  | root e, _, h => by
    rw [ancestors, List.mem_singleton] at h
    exact h ▸ mem_descendants_self _
  | child p i o e, hx, h => by
    rcases List.mem_cons.mp h with rfl | h
    · exact mem_descendants_self _
    · obtain ⟨hp, front, back, hchildren, rfl, rfl⟩ := hx
      exact mem_descendants_trans (hp.mem_descendants h)
        (mem_descendants_of_mem_children (child_mem_children hchildren))

theorem IsPlaced.of_mem_ancestors : ∀ {x : Cursor}, x.IsPlaced → y ∈ x :: x.ancestors → y.IsPlaced
  | root e, hx, h => by
    rw [ancestors, List.mem_singleton] at h
    exact h ▸ hx
  | child p i o e, hx, h => by
    rcases List.mem_cons.mp h with rfl | h
    · exact hx
    · exact hx.1.of_mem_ancestors h

/-- A place with a parent is one of its children. -/
theorem IsPlaced.eq_child (hy : y.IsPlaced) (h : y.parent? = some c) : c.IsPlaced ∧
    ∃ front e back, c.element.children = front ++ e :: back ∧
      y = child c front.length (c.offset + Element.fullLenAll front) e := by
  cases y with
  | root e => cases h
  | child p i o e =>
    cases h
    obtain ⟨hc, front, back, hchildren, rfl, rfl⟩ := hy
    exact ⟨hc, front, e, back, hchildren, rfl⟩

/-- A place above another holds it below one of its children. -/
theorem IsPlaced.exists_child : ∀ {x : Cursor}, x.IsPlaced → c ∈ x.ancestors →
    ∃ front e back, c.element.children = front ++ e :: back ∧
      child c front.length (c.offset + Element.fullLenAll front) e ∈ x :: x.ancestors
  | root e, _, h => nomatch h
  | child p i o e, hx, h => by
    obtain ⟨hp, front, back, hchildren, rfl, rfl⟩ := hx
    rcases List.mem_cons.mp h with rfl | h
    · exact ⟨front, e, back, hchildren, List.mem_cons_self⟩
    · obtain ⟨front, e, back, hchildren, hbelow⟩ := hp.exists_child h
      exact ⟨front, e, back, hchildren, List.mem_cons_of_mem _ hbelow⟩

/-- What is below some children is not below the next one. -/
theorem not_mem_descendantsOf {i o : Nat} (hx : x ∈ descendantsOfAll front p i o) :
    x ∉ descendantsOf e (child p (i + front.length) (o + Element.fullLenAll front) e) := by
  intro hmem
  have hnodup := descendantsOfAll_nodup (front ++ [e]) p i o
  rw [descendantsOfAll_append, List.map_append, List.nodup_append] at hnodup
  refine hnodup.2.2 _ (List.mem_map_of_mem hx) _ (List.mem_map_of_mem ?_) rfl
  rw [descendantsOfAll]
  exact List.mem_append_left _ hmem

/-! ### Neighbours -/

/-- The token in front of one of a list of neighbours is the one in front of it in the list. -/
theorem Linked.prevToken?_eq {before behind : Option Cursor} {xs ys : List Cursor}
    (h : Linked before (xs ++ x :: ys) behind) : x.prevToken? = xs.getLast?.or before := by
  induction xs generalizing before with
  | nil => exact h.1
  | cons z xs ih =>
    rw [ih h.2.2, List.getLast?_cons]
    cases xs.getLast? <;> rfl

/-- A token that meets another at a place has it in front. -/
theorem MeetsAt.exists_prevToken? (h : MeetsAt x p front e back) (hp : p.element.WellKinded) :
    ∃ q, x.prevToken? = some q ∧ (tokensOfAll front p 0 p.offset).getLast? = some q := by
  obtain ⟨q, hq⟩ : ∃ q, (tokensOfAll front p 0 p.offset).getLast? = some q := by
    rw [← Option.isSome_iff_exists, List.getLast?_isSome]
    exact mt (tokensOfAll_eq_nil_iff (wellKinded_children hp h.children).1 p 0 p.offset).mp h.leaves
  obtain ⟨xs, hxs⟩ := h.exists_tokensOf_eq hp
  have hlinked := linked_tokensOf p.element p hp rfl
  rw [hxs] at hlinked
  exact ⟨q, by rw [hlinked.prevToken?_eq, hq, Option.some_or], hq⟩

/-- **Lowest common ancestors**: a token meets the tokens of the children in front of it at the
lowest place above both. -/
theorem MeetsAt.isLowestCommonAncestor (h : MeetsAt x p front e back) (hp : p.element.WellKinded)
    (hq : q ∈ tokensOfAll front p 0 p.offset) : p.IsLowestCommonAncestor q x where
  left := mem_ancestors_of_mem_descendantsOfAll (List.mem_filter.mp hq).1
  right := mem_ancestors_of_child h.below
  lowest r hrq hrx := by
    have hkinds := wellKinded_children hp h.children
    have hx : x ∈ tokensOf e (child p front.length (p.offset + Element.fullLenAll front) e) := by
      refine List.mem_of_mem_head? ?_
      rw [← firstTokenOf?_eq e _ hkinds.2.1 rfl]
      exact h.first
    rcases mem_of_mem_ancestors_all (List.mem_filter.mp hq).1 hrq with hfront | hr
    · have hnot := not_mem_descendantsOf (e := e) hfront
      rw [Nat.zero_add] at hnot
      rcases mem_of_mem_ancestors (List.mem_filter.mp hx).1 hrx with hback | hr
      · exact absurd hback hnot
      · exact hr
    · exact List.mem_cons.mpr hr

/-- A place starts with the same token as a child in front of which there are no leaves.  The first
token of another child meets the tokens in front of it there. -/
theorem firstToken?_child_or_meets (hc : c.IsPlaced) (hkinded : c.element.WellKinded)
    (hchildren : c.element.children = front ++ e :: back) (he : e.leaves ≠ []) :
    ∃ z, (child c front.length (c.offset + Element.fullLenAll front) e).firstToken? = some z ∧
      (Element.leavesAll front = [] ∧ c.firstToken? = some z ∨
        c.firstToken? ≠ some z ∧ z.MeetsAt c front e back) := by
  have hkinds := wellKinded_children hkinded hchildren
  have hhead := firstTokenOf?_eq e (child c front.length (c.offset + Element.fullLenAll front) e)
    hkinds.2.1 rfl
  obtain ⟨z, hz⟩ : ∃ z,
      firstTokenOf? e (child c front.length (c.offset + Element.fullLenAll front) e) = some z :=
    Option.ne_none_iff_exists'.mp (mt (firstTokenOf?_eq_none_iff hkinds.2.1 rfl).mp he)
  rw [hz] at hhead
  have hfirst : c.firstToken? = ((tokensOfAll front c 0 c.offset).head?.or (some z)) := by
    rw [firstToken?, firstTokenOf?_eq _ _ hkinded rfl, tokensOf_eq_children hkinded hchildren,
      tokensOfAll_append, tokensOfAll_cons, List.head?_append, List.head?_append, Nat.zero_add,
      ← hhead, Option.some_or]
  refine ⟨z, hz, ?_⟩
  by_cases hfront : Element.leavesAll front = []
  · rw [(tokensOfAll_eq_nil_iff hkinds.1 c 0 c.offset).mpr hfront] at hfirst
    exact .inl ⟨hfront, hfirst⟩
  · have hbelow := (List.mem_filter.mp (List.mem_of_mem_head? hhead.symm)).1
    refine .inr ⟨fun heq => ?_, hc, hchildren, hfront, mem_ancestors_of_mem_descendantsOf hbelow, hz⟩
    -- the place starts with a token of the children in front, which is not below this child
    obtain ⟨w, ws, hws⟩ := List.exists_cons_of_ne_nil
      (mt (tokensOfAll_eq_nil_iff hkinds.1 c 0 c.offset).mp hfront)
    rw [hws, List.head?_cons, Option.some_or, heq] at hfirst
    have hmem : z ∈ tokensOfAll front c 0 c.offset := by
      rw [hws, Option.some.inj hfirst]
      exact List.mem_cons_self
    refine not_mem_descendantsOf (e := e) (List.mem_filter.mp hmem).1 ?_
    rwa [Nat.zero_add]

/-- A token at or below a place is the first one there, or the one in front of it is there too. -/
theorem firstToken?_or_prevToken? (hc : c.element.WellKinded) (hx : x ∈ c.tokens) :
    c.firstToken? = some x ∨ ∃ q ∈ c.tokens, x.prevToken? = some q := by
  obtain ⟨xs, ys, htokens⟩ := List.append_of_mem hx
  have hlinked := linked_tokensOf c.element c hc rfl
  rw [← tokens_eq, htokens] at hlinked
  rcases List.eq_nil_or_concat xs with rfl | ⟨xs, q, rfl⟩
  · left
    rw [firstToken?, firstTokenOf?_eq _ _ hc rfl, ← tokens_eq, htokens]
    rfl
  · refine .inr ⟨q, ?_, ?_⟩
    · rw [htokens, List.concat_eq_append]
      simp
    · rw [hlinked.prevToken?_eq, List.concat_eq_append, List.getLast?_concat, Option.some_or]

/-- Where the first token of a child meets another one, no token of this child has its lowest common
ancestor with the one in front of it further up. -/
theorem MeetsAt.mem_of_isLowestCommonAncestor (h : MeetsAt z c front e back)
    (hc : c.element.WellKinded)
    (hx : x ∈ (child c front.length (c.offset + Element.fullLenAll front) e).tokens)
    (hq : x.prevToken? = some q) (hp : p.IsLowestCommonAncestor q x) : c ∈ p :: p.ancestors := by
  have hkinded : (child c front.length (c.offset + Element.fullLenAll front) e).element.WellKinded :=
    (wellKinded_children hc h.children).2.1
  rcases firstToken?_or_prevToken? hkinded hx with hfirst | ⟨q', hq', hprev⟩
  · -- the token is the one that meets the other
    obtain rfl : z = x := Option.some.inj (h.first.symm.trans hfirst)
    obtain ⟨q', hprev, hlast⟩ := h.exists_prevToken? hc
    obtain rfl : q = q' := Option.some.inj (hq.symm.trans hprev)
    rw [(h.isLowestCommonAncestor hc (List.mem_of_getLast? hlast)).unique hp]
    exact List.mem_cons_self
  · -- the one in front of the token is below the child too
    obtain rfl : q = q' := Option.some.inj (hq.symm.trans hprev)
    exact hp.lowest c
      (mem_ancestors_of_child (mem_ancestors_of_mem_descendantsOf (List.mem_filter.mp hq').1))
      (mem_ancestors_of_child (mem_ancestors_of_mem_descendantsOf (List.mem_filter.mp hx).1))

end Cursor

end SwiftTidy
