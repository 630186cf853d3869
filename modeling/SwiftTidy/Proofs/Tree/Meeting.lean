import SwiftTidy.Lint.TokenPair
import SwiftTidy.Proofs.Tree.Descent

/-!
# Where neighbouring tokens meet

A token that is not the first of the tree meets the one in front of it at the lowest place that
holds both.  There it is the first token of a child, and the children in front of this one are not
empty of leaves (`exists_meeting`).
-/

namespace SwiftTidy

namespace Cursor

/-! ### The extent of a place -/

section Extent

variable {ts : List Token} {o : Nat}

/-- Tokens that lie one behind the other lie between the ends of their trivia. -/
theorem bounds_of_mem_placed {x : Nat × Token} (hx : x ∈ Token.placed o ts) :
    o ≤ x.1 ∧ x.1 + x.2.fullLen ≤ o + Token.fullLenAll ts ∧
      (∀ t ∈ ts.head?, o + t.leading.len ≤ x.1 + x.2.leading.len) ∧
      ∀ t ∈ ts.getLast?, x.1 + x.2.leading.len + x.2.len + t.trailing.len ≤
        o + Token.fullLenAll ts := by
  induction ts generalizing o with
  | nil => cases hx
  | cons t ts ih =>
    rw [Token.placed, List.mem_cons] at hx
    rw [Token.fullLenAll_cons, List.head?_cons, List.getLast?_cons]
    have hfull : t.fullLen = t.leading.len + t.len + t.trailing.len := rfl
    rcases hx with rfl | hx
    · refine ⟨Nat.le_refl _, by dsimp only; omega, by simp, fun u hu => ?_⟩
      dsimp only
      cases hlast : ts.getLast? with
      | none =>
        rw [hlast, Option.getD_none] at hu
        cases hu
        omega
      | some v =>
        rw [hlast, Option.getD_some] at hu
        cases hu
        obtain ⟨front, rfl⟩ := List.getLast?_eq_some_iff.mp hlast
        have hu : u.fullLen = u.leading.len + u.len + u.trailing.len := rfl
        rw [Token.fullLenAll_append, Token.fullLenAll_cons, Token.fullLenAll_nil]
        omega
    · obtain ⟨hle, hend, -, hlast⟩ := ih hx
      refine ⟨by omega, by omega, fun u hu => ?_, fun u hu => ?_⟩
      · cases hu
        omega
      · -- the last token of all is the last one behind the first
        have hne : ts.getLast? = some u := by
          cases ts with
          | nil => cases hx
          | cons v ts =>
            rw [List.getLast?_cons, Option.getD_some] at hu
            rw [List.getLast?_cons]
            exact hu
        have hbound := hlast u hne
        omega

theorem getLast?_placed {x : Nat × Token} (hx : (Token.placed o ts).getLast? = some x) :
    x.1 + x.2.fullLen = o + Token.fullLenAll ts := by
  induction ts generalizing o with
  | nil => cases hx
  | cons t ts ih =>
    rw [Token.placed, List.getLast?_cons] at hx
    rw [Token.fullLenAll_cons]
    cases hlast : (Token.placed (o + t.fullLen) ts).getLast? with
    | none =>
      have hnil : ts = [] := by
        cases ts with
        | nil => rfl
        | cons u us =>
          rw [Token.placed, List.getLast?_cons] at hlast
          cases hlast
      rw [hlast, Option.getD_none] at hx
      cases hx
      rw [hnil, Token.fullLenAll_nil, Nat.add_zero]
    | some y =>
      rw [hlast, Option.getD_some] at hx
      cases hx
      rw [ih hlast, Nat.add_assoc]

end Extent

/-- A token of a place is a leaf that lies among the others. -/
theorem exists_mem_placed {p x : Cursor} (hp : p.element.WellKinded)
    (hx : x ∈ tokensOf p.element p) :
    ∃ t, x.element = .token t ∧ (x.offset, t) ∈ Token.placed p.offset p.element.leaves := by
  have hmem := List.mem_map_of_mem (f := fun x : Cursor => (x.offset, x.element)) hx
  rw [map_tokensOf p.element p hp rfl] at hmem
  obtain ⟨⟨o, t⟩, hplaced, heq⟩ := List.mem_map.mp hmem
  obtain ⟨rfl, helement⟩ := Prod.mk.inj heq
  exact ⟨t, helement.symm, hplaced⟩

/-- A token below a place lies within it, and within its range. -/
theorem bounds_of_mem_tokensOf {p x : Cursor} (hp : p.element.WellKinded)
    (hx : x ∈ tokensOf p.element p) :
    p.offset ≤ x.offset ∧ x.fullEnd ≤ p.fullEnd ∧ p.position ≤ x.position ∧
      x.endPosition ≤ p.endPosition := by
  obtain ⟨t, ht, hplaced⟩ := exists_mem_placed hp hx
  obtain ⟨hstart, hend, hleading, htrailing⟩ := bounds_of_mem_placed hplaced
  obtain ⟨first, hfirst⟩ : ∃ first, p.element.leaves.head? = some first := by
    cases hleaves : p.element.leaves with
    | nil => rw [hleaves] at hplaced; cases hplaced
    | cons u us => exact ⟨u, rfl⟩
  obtain ⟨last, hlast⟩ : ∃ last, p.element.leaves.getLast? = some last := by
    cases hleaves : p.element.leaves with
    | nil => rw [hleaves] at hplaced; cases hplaced
    | cons u us => exact ⟨_, List.getLast?_cons⟩
  have hleading := hleading first hfirst
  have htrailing := htrailing last hlast
  have hfull : x.element.fullLen = t.fullLen := by rw [ht, Element.fullLen]
  have hxleading : x.element.leadingTrivia = t.leading := by
    rw [ht, Element.leadingTrivia_eq, Element.leaves_token]; rfl
  have hxlen : x.element.len = t.len := by rw [ht, Element.len_token]
  have hpleading : p.element.leadingTrivia = first.leading := by
    rw [Element.leadingTrivia_eq, hfirst]; rfl
  have hptrailing : p.element.trailingTrivia = last.trailing := by
    rw [Element.trailingTrivia_eq, hlast]; rfl
  dsimp only at hstart hend hleading htrailing
  rw [← Element.fullLen_eq] at hend htrailing
  have hplen : p.element.len = p.element.fullLen - (first.leading.len + last.trailing.len) := by
    rw [Element.len, hpleading, hptrailing]
  simp only [fullEnd, endPosition, position, hfull, hxleading, hxlen, hpleading, hplen]
  have htfull : t.fullLen = t.leading.len + t.len + t.trailing.len := rfl
  omega

/-- A leaf of an element is part of its text. -/
theorem len_le_of_mem_leaves {e : Element} {t : Token} (he : e.WellKinded) (ht : t ∈ e.leaves) :
    t.len ≤ e.len := by
  have hmem := List.mem_map_of_mem (f := Element.token) ht
  rw [← map_element_tokensOf (c := root e) he rfl] at hmem
  obtain ⟨x, hx, hxt⟩ := List.mem_map.mp hmem
  obtain ⟨-, -, hfrom, hto⟩ := bounds_of_mem_tokensOf (p := root e) he hx
  have hend : x.endPosition = x.position + t.len := by
    rw [endPosition, hxt, Element.len_token]
  have hroot : (root e).endPosition = (root e).position + e.len := rfl
  omega

theorem child_mem_children {p : Cursor} {front back : List Element} {e : Element}
    (h : p.element.children = front ++ e :: back) :
    child p front.length (p.offset + Element.fullLenAll front) e ∈ p.children := by
  rw [children, h, childrenFrom_append, Nat.zero_add, childrenFrom]
  exact List.mem_append_right _ List.mem_cons_self

/-- The first token below a place starts where the place does, and thus in the range of all places
above. -/
theorem position_bounds {p x : Cursor} {t : Token} {ts : List Token}
    (hp : p.element.WellKinded) (hkinded : x.element.WellKinded) (hx : x ∈ p.descendants)
    (hleaves : x.element.leaves = t :: ts) (hpos : 0 < t.len) :
    p.position ≤ x.position ∧ x.position < p.endPosition := by
  have hplaced := map_tokensOf x.element x hkinded rfl
  rw [hleaves, Token.placed, List.map_cons] at hplaced
  obtain ⟨y, ys, htokens, hy, -⟩ := List.map_eq_cons_iff.mp hplaced
  obtain ⟨hoffset, helement⟩ := Prod.mk.inj hy
  have hmem : y ∈ tokensOf p.element p := by
    have hmem : y ∈ tokensOf x.element x := by rw [htokens]; exact List.mem_cons_self
    obtain ⟨hbelow, htoken⟩ := List.mem_filter.mp hmem
    exact List.mem_filter.mpr ⟨mem_descendants_trans hx hbelow, htoken⟩
  obtain ⟨-, -, hfrom, hto⟩ := bounds_of_mem_tokensOf hp hmem
  have hsame : y.position = x.position := by
    rw [position, position, hoffset, helement, Element.leadingTrivia_eq, Element.leadingTrivia_eq,
      hleaves, Element.leaves_token]
    rfl
  have hend : y.endPosition = y.position + t.len := by
    rw [endPosition, helement, Element.len_token]
  omega

/-! ### The lowest place that holds two tokens -/

section Meeting

variable {p x q : Cursor} {front back : List Element} {e : Element}

theorem tokensOfAll_eq_nil_iff (hes : Element.WellKindedAll front) (p : Cursor) (i o : Nat) :
    tokensOfAll front p i o = [] ↔ Element.leavesAll front = [] := by
  have hmap := map_tokensOfAll front p i o hes
  constructor
  · intro hnil
    rw [hnil, List.map_nil] at hmap
    cases hleaves : Element.leavesAll front with
    | nil => rfl
    | cons t ts => rw [hleaves] at hmap; cases hmap
  · intro hnil
    rw [hnil] at hmap
    exact List.map_eq_nil_iff.mp hmap

theorem wellKindedAll_children (hp : p.element.WellKinded) :
    Element.WellKindedAll p.element.children := by
  cases hpe : p.element with
  | token t => exact Element.wellKindedAll_nil
  | node k es =>
    rw [hpe] at hp
    exact ((Element.wellKinded_node k es).mp hp).2

/-- The children around one of them are well kinded, and so is this one. -/
theorem wellKinded_children (hp : p.element.WellKinded)
    (h : p.element.children = front ++ e :: back) :
    Element.WellKindedAll front ∧ e.WellKinded ∧ Element.WellKindedAll back := by
  have hkinds := wellKindedAll_children hp
  rwa [h, Element.wellKindedAll_append, Element.wellKindedAll_cons] at hkinds

theorem wellKinded_of_mem_children {x : Cursor} (hp : p.element.WellKinded) (hx : x ∈ p.children) :
    x.element.WellKinded := by
  obtain ⟨front, e, back, hchildren, rfl⟩ := exists_of_mem_children hx
  exact (wellKinded_children hp hchildren).2.1

/-- The last of the tokens in front of a child ends where the child starts. -/
theorem fullEnd_of_getLast? (hes : Element.WellKindedAll front) {i o : Nat}
    (h : (tokensOfAll front p i o).getLast? = some q) :
    o ≤ q.offset ∧ q.fullEnd = o + Element.fullLenAll front := by
  have hmap := map_tokensOfAll front p i o hes
  have hlast := congrArg List.getLast? hmap
  rw [List.getLast?_map, List.getLast?_map, h, Option.map_some] at hlast
  obtain ⟨⟨o', t⟩, hplaced, heq⟩ := Option.map_eq_some_iff.mp hlast.symm
  obtain ⟨rfl, helement⟩ := Prod.mk.inj heq
  have hend := getLast?_placed hplaced
  have hbounds := bounds_of_mem_placed (List.mem_of_getLast? hplaced)
  rw [Element.fullLenAll_eq]
  refine ⟨hbounds.1, ?_⟩
  rw [fullEnd, ← helement, Element.fullLen]
  exact hend

/-- The token in front of a place ends where the place starts. -/
theorem fullEnd_of_prevToken? : ∀ {c : Cursor}, c.IsPlaced → c.rootElement.WellKinded →
    c.prevToken? = some q → q.fullEnd = c.offset
  | root e, _, _, h => by cases h
  | child p i o e, hc, hroot, h => by
    obtain ⟨hp, front, back, hchildren, rfl, rfl⟩ := hc
    have hkinds := wellKindedAll_children (hp.wellKinded hroot)
    rw [prevToken?_child hchildren hkinds] at h
    rw [hchildren, Element.wellKindedAll_append] at hkinds
    show q.fullEnd = p.offset + Element.fullLenAll front
    cases hlast : (tokensOfAll front p 0 p.offset).getLast? with
    | some y =>
      rw [hlast, Option.some_or] at h
      cases h
      exact (fullEnd_of_getLast? hkinds.1 hlast).2
    | none =>
      rw [hlast, Option.none_or] at h
      have hnil := (tokensOfAll_eq_nil_iff hkinds.1 p 0 p.offset).mp (List.getLast?_eq_none_iff.mp hlast)
      rw [fullEnd_of_prevToken? hp hroot h, Element.fullLenAll_eq, hnil, Token.fullLenAll_nil,
        Nat.add_zero]

/-- The tokens of a place with children are those of its children. -/
theorem tokensOf_eq_children {es : List Element} (hp : p.element.WellKinded)
    (hchildren : p.element.children = front ++ e :: es) :
    tokensOf p.element p = tokensOfAll (front ++ e :: es) p 0 p.offset := by
  cases hpe : p.element with
  | token t =>
    rw [hpe] at hchildren
    have hnil : [] = front ++ e :: es := hchildren
    simp at hnil
  | node k cs =>
    have hcs : cs = front ++ e :: es := by rw [hpe] at hchildren; exact hchildren
    rw [tokensOf_node (hpe ▸ hp) hpe, hcs]

/-- The place at which a token meets the one in front of it: the token is the first one of a child,
and the children in front of it are not empty of leaves. -/
structure MeetsAt (x p : Cursor) (front : List Element) (e : Element) (back : List Element) :
    Prop where
  placed : p.IsPlaced
  children : p.element.children = front ++ e :: back
  leaves : Element.leavesAll front ≠ []
  below : child p front.length (p.offset + Element.fullLenAll front) e ∈ x :: x.ancestors
  first : (child p front.length (p.offset + Element.fullLenAll front) e).firstToken? = some x

theorem MeetsAt.mem_tokensOf_of_front (h : MeetsAt x p front e back) (hp : p.element.WellKinded)
    (hq : q ∈ tokensOfAll front p 0 p.offset) : q ∈ tokensOf p.element p := by
  rw [tokensOf_eq_children hp h.children, tokensOfAll_append]
  exact List.mem_append_left _ hq

/-- The token follows the tokens of the children in front of it. -/
theorem MeetsAt.exists_tokensOf_eq (h : MeetsAt x p front e back) (hp : p.element.WellKinded) :
    ∃ xs, tokensOf p.element p = tokensOfAll front p 0 p.offset ++ x :: xs := by
  have hkinds := wellKinded_children hp h.children
  have hfirst : (tokensOf e (child p front.length (p.offset + Element.fullLenAll front) e)).head? =
      some x := by
    rw [← firstTokenOf?_eq e _ hkinds.2.1 rfl]
    exact h.first
  obtain ⟨xs, hxs⟩ := List.head?_eq_some_iff.mp hfirst
  rw [tokensOf_eq_children hp h.children, tokensOfAll_append, tokensOfAll_cons, Nat.zero_add, hxs]
  exact ⟨_, rfl⟩

theorem MeetsAt.mem_tokensOf (h : MeetsAt x p front e back) (hp : p.element.WellKinded) :
    x ∈ tokensOf p.element p := by
  obtain ⟨xs, hxs⟩ := h.exists_tokensOf_eq hp
  rw [hxs]
  exact List.mem_append_right _ List.mem_cons_self

/-- The child that starts with the token has leaves. -/
theorem MeetsAt.leaves_ne_nil (h : MeetsAt x p front e back) (hp : p.element.WellKinded) :
    e.leaves ≠ [] := by
  have hkinds := wellKinded_children hp h.children
  intro hnil
  have hnone : (child p front.length (p.offset + Element.fullLenAll front) e).firstToken? = none :=
    (firstTokenOf?_eq_none_iff hkinds.2.1 rfl).mpr hnil
  cases h.first.symm.trans hnone

/-- The first token of a place meets the one in front of it above the place, or is the first of
all. -/
theorem exists_meeting_above : ∀ {c : Cursor}, c.IsPlaced → c.rootElement.WellKinded →
    c ∈ x :: x.ancestors → c.firstToken? = some x → c.prevToken? = some q →
    0 < q.element.fullLen → ∃ p front e back, MeetsAt x p front e back ∧
      c.ancestors.find? (·.fullRange.containsRange q.fullRange) = some p ∧
      (tokensOfAll front p 0 p.offset).getLast? = some q
  | root e, _, _, _, _, h, _ => by cases h
  | child p i o e, hc, hroot, hbelow, hfirst, hprev, hpos => by
    have hplaced := hc
    obtain ⟨hp, front, back, hchildren, rfl, rfl⟩ := hc
    have hpkinded := hp.wellKinded hroot
    have hkinds := wellKindedAll_children hpkinded
    have hprev' := hprev
    rw [prevToken?_child hchildren hkinds] at hprev'
    rw [hchildren, Element.wellKindedAll_append, Element.wellKindedAll_cons] at hkinds
    rw [ancestors, List.find?_cons]
    have hqend : q.fullEnd = p.offset + Element.fullLenAll front :=
      fullEnd_of_prevToken? hplaced hroot hprev
    cases hlast : (tokensOfAll front p 0 p.offset).getLast? with
    | some y =>
      -- a sibling in front holds the other token
      rw [hlast, Option.some_or] at hprev'
      cases hprev'
      have hstart := (fullEnd_of_getLast? hkinds.1 hlast).1
      have hleaves : Element.leavesAll front ≠ [] := by
        intro hnil
        rw [(tokensOfAll_eq_nil_iff hkinds.1 p 0 p.offset).mpr hnil] at hlast
        cases hlast
      have hpend : p.offset + Element.fullLenAll front ≤ p.fullEnd := by
        have hfull : p.element.fullLen = Element.fullLenAll p.element.children := by
          cases hpe : p.element with
          | token t =>
            rw [hpe] at hchildren
            have hnil : [] = front ++ e :: back := hchildren
            simp at hnil
          | node k es => rw [Element.fullLen]; rfl
        rw [fullEnd, hfull, hchildren, Element.fullLenAll_append]
        omega
      have hcontains : p.fullRange.containsRange q.fullRange = true := by
        show (decide (p.offset ≤ q.offset) && decide (q.fullEnd ≤ p.fullEnd)) = true
        rw [Bool.and_eq_true, decide_eq_true_eq, decide_eq_true_eq]
        omega
      rw [hcontains]
      exact ⟨p, front, e, back, ⟨hp, hchildren, hleaves, hbelow, hfirst⟩, rfl, hlast⟩
    | none =>
      -- nothing stands in front below the parent, which starts with the same token
      rw [hlast, Option.none_or] at hprev'
      have hnil := List.getLast?_eq_none_iff.mp hlast
      have hempty := (tokensOfAll_eq_nil_iff hkinds.1 p 0 p.offset).mp hnil
      have hcontains : p.fullRange.containsRange q.fullRange = false := by
        rw [Element.fullLenAll_eq, hempty, Token.fullLenAll_nil, Nat.add_zero, fullEnd] at hqend
        have hnot : ¬ p.offset ≤ q.offset := by omega
        simp only [TextRange.containsRange, fullRange, hnot, decide_false, Bool.false_and]
      rw [hcontains]
      refine exists_meeting_above hp hroot (List.mem_cons_of_mem _ (mem_ancestors_of_child hbelow))
        ?_ hprev' hpos
      have hhead : (tokensOf e (child p front.length (p.offset + Element.fullLenAll front) e)).head? =
          some x := by
        rw [← hfirst]
        exact (firstTokenOf?_eq e _ hkinds.2.1 rfl).symm
      rw [firstToken?, firstTokenOf?_eq _ _ hpkinded rfl, tokensOf_eq_children hpkinded hchildren,
        tokensOfAll_append, hnil, List.nil_append, tokensOfAll_cons, List.head?_append]
      rw [Nat.zero_add, hhead, Option.some_or]

/-- **Where neighbouring tokens meet**: the lowest place that holds a token and the one in front of
it has a child of which the token is the first. -/
theorem exists_meeting (hx : x.IsPlaced) (hroot : x.rootElement.WellKinded)
    (htoken : x.isToken = true) (hprev : x.prevToken? = some q) (hpos : 0 < q.element.fullLen) :
    ∃ p front e back, MeetsAt x p front e back ∧ x.commonAncestorWithPrevious? = some p ∧
      (tokensOfAll front p 0 p.offset).getLast? = some q := by
  have hkinded := hx.wellKinded hroot
  obtain ⟨t, ht⟩ : ∃ t, x.element = .token t := by
    cases hxe : x.element with
    | token t => exact ⟨t, rfl⟩
    | node k es =>
      rw [hxe] at hkinded
      rw [isToken, kind, hxe, Element.kind, hkinded.isToken_eq_false] at htoken
      cases htoken
  have hfirst : x.firstToken? = some x := by
    rw [firstToken?, firstTokenOf?_eq _ _ hkinded rfl]
    rw [ht] at hkinded ⊢
    rw [tokensOf_token hkinded ht, List.head?_cons]
  obtain ⟨p, front, e, back, hmeets, hfind, hq⟩ :=
    exists_meeting_above hx hroot List.mem_cons_self hfirst hprev hpos
  exact ⟨p, front, e, back, hmeets, by rw [commonAncestorWithPrevious?, hprev]; exact hfind, hq⟩

end Meeting

end Cursor

end SwiftTidy
