import Mathlib.Data.List.Forall2
import Mathlib.Data.List.Nodup
import Mathlib.Logic.Function.Basic
import SwiftTidy.Proofs.Rules.SwitchCases
import SwiftTidy.Proofs.Tree.Places
import SwiftTidy.Proofs.Tree.Unspaced

/-!
# Names in sorted switches

The children of a place are told apart by their index, so elements that stand for them one by one are
the values of a function on them (`exists_map_children`).  Exchanging the elements at the indices of
some children changes this function there and nowhere else (`foldl_set_map_children`).

What is left of a place when the switches below it were sorted: its tokens one by one, but those of a
sorted switch only as a whole (`Intact`).  Spaces do not count, so what moves into another slot is
intact too (`Intact.of_unspaced`).

The names of expressions and patterns are those of tokens that sorting leaves in their place: the last
token of a member access, and the first one of anything else (`patternName_eq`).
-/

namespace SwiftTidy

/-- What stands for the members of a list without repetition is a function of them. -/
theorem exists_map_of_forall₂ {α β : Type} [Inhabited β] {R : α → β → Prop} {xs : List α}
    {ys : List β} (hxs : xs.Nodup) (h : List.Forall₂ R xs ys) :
    ∃ f : α → β, ys = xs.map f ∧ ∀ x ∈ xs, R x (f x) := by
  classical
  induction h with
  | nil => exact ⟨fun _ => default, rfl, by simp⟩
  | @cons x y xs ys hxy hrest ih =>
    obtain ⟨hx, hxs⟩ := List.nodup_cons.mp hxs
    obtain ⟨f, rfl, hf⟩ := ih hxs
    have hsame : ∀ z ∈ xs, Function.update f x y z = f z := fun z hz =>
      Function.update_of_ne (ne_of_mem_of_not_mem hz hx) _ _
    refine ⟨Function.update f x y, ?_, ?_⟩
    · rw [List.map_cons, Function.update_self, List.map_congr_left hsame]
    · rw [List.forall_mem_cons, Function.update_self]
      exact ⟨hxy, fun z hz => hsame z hz ▸ hf z hz⟩

/-- A map that depends on a test is one map where the test holds and another where it does not. -/
theorem flatMap_ite_perm {α β : Type} (p : α → Bool) (f g : α → List β) (xs : List α) :
    (xs.flatMap fun x => if p x then f x else g x).Perm
      ((xs.filter p).flatMap f ++ (xs.filter (!p ·)).flatMap g) := by
  induction xs with
  | nil => exact .nil
  | cons x xs ih =>
    rw [List.flatMap_cons, List.filter_cons, List.filter_cons]
    cases p x with
    | true =>
      rw [if_pos rfl, if_pos rfl, if_neg (by simp), List.flatMap_cons, List.append_assoc]
      exact ih.append_left _
    | false =>
      rw [if_neg (by simp), if_neg (by simp), if_pos (by simp), List.flatMap_cons]
      refine (ih.append_left _).trans ?_
      rw [← List.append_assoc, ← List.append_assoc]
      exact List.perm_append_comm.append_right _

/-- Where a test holds the values of another map are those of the first in another order. -/
theorem flatMap_exchange_perm {α β : Type} {p : α → Bool} {f g : α → List β} {xs : List α}
    (h : ((xs.filter p).flatMap g).Perm ((xs.filter p).flatMap f)) :
    (xs.flatMap fun x => if p x then g x else f x).Perm (xs.flatMap f) := by
  have hsplit := (List.filter_append_perm p xs).flatMap_right f
  rw [List.flatMap_append] at hsplit
  exact ((flatMap_ite_perm p g f xs).trans (h.append_right _)).trans hsplit

/-- What follows for members follows one by one. -/
theorem forall₂_imp_of_mem {α β : Type} {R S : α → β → Prop} {xs : List α} {ys : List β}
    (h : List.Forall₂ R xs ys) (himp : ∀ x ∈ xs, ∀ y ∈ ys, R x y → S x y) : List.Forall₂ S xs ys := by
  obtain ⟨hlength, hzip⟩ := List.forall₂_iff_zip.mp h
  refine List.forall₂_iff_zip.mpr ⟨hlength, fun hxy => ?_⟩
  obtain ⟨hx, hy⟩ := List.of_mem_zip hxy
  exact himp _ hx _ hy (hzip hxy)

theorem forall_mem_of_forall₂ {α β : Type} {P : β → Prop} {xs : List α} {ys : List β}
    (h : List.Forall₂ (fun _ y => P y) xs ys) : ∀ y ∈ ys, P y := by
  induction h with
  | nil => simp
  | cons hy _ ih => exact List.forall_mem_cons.mpr ⟨hy, ih⟩

namespace Cursor

variable {α : Type} {c x : Cursor}

theorem children_nodup (c : Cursor) : c.children.Nodup :=
  List.Nodup.of_map _ c.map_index_children_nodup

theorem index_getElem_children {i : Nat} (hi : i < c.children.length) : c.children[i].index = i := by
  have hlength : i < c.element.children.length := by
    rwa [children, length_childrenFrom] at hi
  have hindex : (c.children.map index)[i]? = some i := by
    rw [children, map_index_childrenFrom, List.getElem?_range' hlength, Nat.zero_add, Nat.one_mul]
  rw [List.getElem?_map, List.getElem?_eq_getElem hi, Option.map_some, Option.some.injEq] at hindex
  exact hindex

/-- A child stands at its index. -/
theorem getElem?_index (hx : x ∈ c.children) : c.children[x.index]? = some x := by
  obtain ⟨i, hi, rfl⟩ := List.getElem_of_mem hx
  rw [index_getElem_children, List.getElem?_eq_getElem hi]

/-- What becomes of the children one by one is a function of them. -/
theorem exists_map_children [Inhabited α] {R : Cursor → α → Prop} {es : List α}
    (h : List.Forall₂ R c.children es) :
    ∃ f : Cursor → α, es = c.children.map f ∧ ∀ y ∈ c.children, R y (f y) :=
  exists_map_of_forall₂ c.children_nodup h

theorem getElem?_map_children (f : Cursor → α) (hx : x ∈ c.children) :
    (c.children.map f)[x.index]? = some (f x) := by
  rw [List.getElem?_map, getElem?_index hx, Option.map_some]

open Classical in
/-- Exchanging what stands for one child. -/
theorem set_map_children (f : Cursor → α) (hx : x ∈ c.children) (a : α) :
    (c.children.map f).set x.index a = c.children.map (Function.update f x a) := by
  refine List.ext_getElem? fun i => ?_
  rw [List.getElem?_set, List.getElem?_map, List.getElem?_map]
  have hlt := (List.getElem?_eq_some_iff.mp (getElem?_index hx)).1
  split_ifs with hi hlength
  · rw [← hi, getElem?_index hx, Option.map_some, Function.update_self]
  · rw [List.length_map] at hlength
    exact absurd hlt hlength
  · cases hy : c.children[i]? with
    | none => rfl
    | some y =>
      have hne : y ≠ x := by
        rintro rfl
        obtain ⟨hlt, heq⟩ := List.getElem?_eq_some_iff.mp hy
        exact hi (by rw [← heq, index_getElem_children])
      rw [Option.map_some, Option.map_some, Function.update_of_ne hne]

/-- Exchanging what stands for some children, one after the other. -/
theorem foldl_set_map_children (p : Cursor → Bool) (f g : Cursor → α) (c : Cursor) :
    ((c.children.filter p).map fun y => (y.index, g y)).foldl (fun es s => es.set s.1 s.2)
        (c.children.map f) =
      c.children.map fun y => if p y then g y else f y := by
  classical
  -- of the children exchanged so far the function has changed
  have hall : ∀ (ys : List Cursor) (f : Cursor → α), (∀ y ∈ ys, y ∈ c.children) →
      (ys.map fun y => (y.index, g y)).foldl (fun es s => es.set s.1 s.2) (c.children.map f) =
        c.children.map fun y => if y ∈ ys then g y else f y := by
    intro ys
    induction ys with
    | nil => intro f _; simp
    | cons y ys ih =>
      intro f hys
      rw [List.forall_mem_cons] at hys
      rw [List.map_cons, List.foldl_cons, set_map_children f hys.1, ih _ hys.2]
      refine List.map_congr_left fun z _ => ?_
      by_cases hz : z ∈ ys
      · rw [if_pos hz, if_pos (List.mem_cons_of_mem y hz)]
      by_cases hzy : z = y
      · rw [if_neg hz, hzy, Function.update_self, if_pos List.mem_cons_self]
      · rw [if_neg hz, Function.update_of_ne hzy, if_neg (by simp [hz, hzy])]
  rw [hall _ f fun y hy => (List.mem_filter.mp hy).1]
  refine List.map_congr_left fun y hy => ?_
  simp only [List.mem_filter, hy, true_and]

end Cursor

namespace SortedSwitchCases

variable {disabled : DisabledRegions} {c : Cursor} {e e' : Element}

/-- What has become of a place: the same tokens with the same comments around them, spaces aside; but
the tokens and comments of a switch that was sorted are the same only as a whole, and of their order no
more is said than that the first token has stayed. -/
inductive Intact (disabled : DisabledRegions) : Cursor → Element → Prop where
  | token {c : Cursor} {s t : Token} (hc : c.element = .token s) (h : t.unspaced = s.unspaced) :
    Intact disabled c (.token t)
  | node {c : Cursor} {k : SyntaxKind} {es es' : List Element} (hc : c.element = .node k es)
    (h : List.Forall₂ (Intact disabled) c.children es') : Intact disabled c (.node k es')
  | sorted {c : Cursor} {es es' : List Element} (hc : c.element = .node .switchExpr es)
    (h : recordedAt disabled c ≠ [])
    (hlexemes : (es'.flatMap Element.lexemes).Perm (es.flatMap Element.lexemes))
    (hcomments : (es'.flatMap Element.comments).Perm (es.flatMap Element.comments))
    (hfirst : (es'.flatMap Element.lexemes).head? = (es.flatMap Element.lexemes).head?) :
    Intact disabled c (.node .switchExpr es')

namespace Intact

theorem kind_eq (h : Intact disabled c e') : e'.kind = c.kind := by
  rw [Cursor.kind]
  cases h with
  | token hc h =>
    have hkind := congrArg Token.kind h
    rw [hc]
    exact hkind
  | node hc _ => rw [hc]; rfl
  | sorted hc _ _ _ _ => rw [hc]; rfl

mutual
/-- Spaces do not count. -/
theorem of_unspaced : ∀ {c : Cursor} {e e' : Element}, Intact disabled c e →
    e'.unspaced = e.unspaced → Intact disabled c e'
  | c, .token t, e', h, heq => by
    cases h with
    | token hc ht =>
      rw [Element.unspaced_token] at heq
      cases e' with
      | node k es => rw [Element.unspaced_node] at heq; cases heq
      | token u =>
        rw [Element.unspaced_token, Element.token.injEq] at heq
        exact .token hc (heq.trans ht)
  | c, .node k es, e', h, heq => by
    rw [Element.unspaced_node] at heq
    cases e' with
    | token t => rw [Element.unspaced_token] at heq; cases heq
    | node j es' =>
      rw [Element.unspaced_node, Element.node.injEq] at heq
      obtain ⟨rfl, hes⟩ := heq
      cases h with
      | node hc hall => exact .node hc (forall₂_of_unspaced hall hes)
      | sorted hc hrecorded hlexemes hcomments hfirst =>
        have hlexemesEq : es'.flatMap Element.lexemes = es.flatMap Element.lexemes := by
          have hmap := congrArg (List.flatMap Element.lexemes) hes
          simpa only [List.flatMap_map, Element.lexemes_unspaced] using hmap
        have hcommentsEq : es'.flatMap Element.comments = es.flatMap Element.comments := by
          have hmap := congrArg (List.flatMap Element.comments) hes
          simpa only [List.flatMap_map, Element.comments_unspaced] using hmap
        exact .sorted hc hrecorded (hlexemesEq ▸ hlexemes) (hcommentsEq ▸ hcomments)
          (hlexemesEq ▸ hfirst)
theorem forall₂_of_unspaced : ∀ {cs : List Cursor} {es es' : List Element},
    List.Forall₂ (Intact disabled) cs es → es'.map Element.unspaced = es.map Element.unspaced →
    List.Forall₂ (Intact disabled) cs es'
  | cs, [], es', h, heq => by
    rw [List.map_nil, List.map_eq_nil_iff] at heq
    rw [heq]
    exact h
  | cs, e :: es, es', h, heq => by
    cases h with
    | cons hhead htail =>
      rw [List.map_cons, List.map_eq_cons_iff] at heq
      obtain ⟨e', rest, rfl, he, hrest⟩ := heq
      exact .cons (of_unspaced hhead he) (forall₂_of_unspaced htail hrest)
end

mutual
/-- The tokens stay, in some order, and the first of them in its place. -/
theorem lexemes : ∀ {c : Cursor} {e' : Element}, Intact disabled c e' →
    e'.lexemes.Perm c.element.lexemes ∧ e'.lexemes.head? = c.element.lexemes.head?
  | c, .token t, h => by
    cases h with
    | token hc ht =>
      rw [hc, ← Element.lexemes_unspaced, ← Element.lexemes_unspaced (.token _),
        Element.unspaced_token, Element.unspaced_token, ht]
      exact ⟨.refl _, rfl⟩
  | c, .node k es, h => by
    cases h with
    | node hc hall =>
      have hes := forall₂_lexemes hall
      rw [← List.flatMap_map Cursor.element, Cursor.map_element_children, hc] at hes
      rwa [hc, Element.lexemes_node, Element.lexemes_node]
    | sorted hc _ hlexemes _ hfirst =>
      rw [hc, Element.lexemes_node, Element.lexemes_node]
      exact ⟨hlexemes, hfirst⟩
theorem forall₂_lexemes : ∀ {cs : List Cursor} {es : List Element},
    List.Forall₂ (Intact disabled) cs es →
    (es.flatMap Element.lexemes).Perm (cs.flatMap fun y => y.element.lexemes) ∧
      (es.flatMap Element.lexemes).head? = (cs.flatMap fun y => y.element.lexemes).head?
  | cs, [], h => by
    cases h
    exact ⟨.nil, rfl⟩
  | cs, e :: es, h => by
    cases h with
    | cons hhead htail =>
      obtain ⟨hperm, hfirst⟩ := lexemes hhead
      obtain ⟨hperms, hfirsts⟩ := forall₂_lexemes htail
      rw [List.flatMap_cons, List.flatMap_cons, List.head?_append, List.head?_append, hfirst, hfirsts]
      exact ⟨hperm.append hperms, rfl⟩
end

mutual
/-- The comments stay, in some order. -/
theorem comments : ∀ {c : Cursor} {e' : Element}, Intact disabled c e' →
    e'.comments.Perm c.element.comments
  | c, .token t, h => by
    cases h with
    | token hc ht =>
      rw [hc, ← Element.comments_unspaced, ← Element.comments_unspaced (.token _),
        Element.unspaced_token, Element.unspaced_token, ht]
  | c, .node k es, h => by
    cases h with
    | node hc hall =>
      have hes := forall₂_comments hall
      rw [← List.flatMap_map Cursor.element, Cursor.map_element_children, hc] at hes
      rwa [hc, Element.comments_node, Element.comments_node]
    | sorted hc _ _ hcomments _ =>
      rwa [hc, Element.comments_node, Element.comments_node]
theorem forall₂_comments : ∀ {cs : List Cursor} {es : List Element},
    List.Forall₂ (Intact disabled) cs es →
    (es.flatMap Element.comments).Perm (cs.flatMap fun y => y.element.comments)
  | cs, [], h => by
    cases h
    exact .nil
  | cs, e :: es, h => by
    cases h with
    | cons hhead htail =>
      rw [List.flatMap_cons, List.flatMap_cons]
      exact (comments hhead).append (forall₂_comments htail)
end

/-- The children of what has become of a node, unless it is a switch. -/
theorem exists_children {k : SyntaxKind} {es : List Element} (h : Intact disabled c e')
    (hc : c.element = .node k es) (hk : k ≠ .switchExpr) :
    ∃ es', e' = .node k es' ∧ List.Forall₂ (Intact disabled) c.children es' := by
  cases h with
  | token ht _ => rw [hc] at ht; cases ht
  | node hnode hall =>
    rw [hc] at hnode
    cases hnode
    exact ⟨_, rfl, hall⟩
  | sorted hswitch _ _ _ _ =>
    rw [hc] at hswitch
    cases hswitch
    exact absurd rfl hk

end Intact

/-! ### Names -/

/-- The text of a token without what is around it. -/
theorem text_token (t : Token) : (Element.token t).text = t.text := by
  rw [Element.text, Element.withLeading, Element.mapFirstToken, Element.mapFirstToken?,
    Option.getD_some, Element.withTrailing, Element.mapLastToken, Element.mapLastToken?,
    Option.getD_some, Element.fullText, Element.leaves_token]
  simp [Token.fullText, Trivia.text, String.join]

theorem expressionName_of_ne {k : SyntaxKind} (es : List Element) (hmember : k ≠ .memberAccessExpr)
    (hcall : k ≠ .functionCallExpr) (hidentifier : k ≠ .identifierExpr) (hliteral : k ≠ .literalExpr) :
    expressionName (.node k es) = "" := by
  cases k <;> first | rfl | contradiction

/-- The first token of what has become of a node is the same up to spaces. -/
theorem firstTokenOf?_eq {k : SyntaxKind} {es es' : List Element}
    (h : Intact disabled c (.node k es')) (hc : c.element = .node k es) :
    (Element.firstTokenOf? es').map Token.lexeme = (Element.firstTokenOf? es).map Token.lexeme := by
  have hhead := h.lexemes.2
  rw [hc] at hhead
  rw [Element.firstTokenOf?_eq, Element.firstTokenOf?_eq, ← List.head?_map, ← List.head?_map]
  rwa [Element.lexemes, Element.lexemes, Element.leaves_node, Element.leaves_node] at hhead

/-- What has become of the last of some places. -/
theorem exists_getLast? {α β : Type} {R : α → β → Prop} {xs : List α} {ys : List β}
    (h : List.Forall₂ R xs ys) {x : α} (hx : xs.getLast? = some x) :
    ∃ y, ys.getLast? = some y ∧ R x y := by
  induction h with
  | nil => cases hx
  | @cons a b as bs hab hrest ih =>
    cases hrest with
    | nil =>
      cases hx
      exact ⟨b, rfl, hab⟩
    | cons _ _ =>
      rw [List.getLast?_cons_cons] at hx
      obtain ⟨y, hy, hxy⟩ := ih hx
      exact ⟨y, by rwa [List.getLast?_cons_cons], hxy⟩

/-- Sorting does not change the name of an expression. -/
theorem expressionName_eq : ∀ (e : Element) {c : Cursor} {e' : Element}, c.element = e → e.Shaped →
    Intact disabled c e' → expressionName e' = expressionName e
  | .token t, c, e', hc, _, h => by
    cases h with
    | token _ _ => rfl
    | node hnode _ => rw [hc] at hnode; cases hnode
    | sorted hnode _ _ _ _ => rw [hc] at hnode; cases hnode
  | .node k es, c, e', hc, hshaped, h => by
    by_cases hswitch : k = .switchExpr
    · have hkind := h.kind_eq
      rw [Cursor.kind, hc] at hkind
      cases h with
      | token ht _ => rw [hc] at ht; cases ht
      | node _ _ =>
        cases hkind
        subst hswitch
        rfl
      | sorted _ _ _ _ _ =>
        subst hswitch
        rfl
    -- any other node keeps its children in their places, and each child that gives a name keeps it
    obtain ⟨es', rfl, hall⟩ := h.exists_children hc hswitch
    have hcs : c.children.map Cursor.element = es := by rw [Cursor.map_element_children, hc]; rfl
    obtain ⟨hshape, hes⟩ := (Element.shaped_node k es).mp hshaped
    by_cases hmember : k = .memberAccessExpr
    · -- the last child of a member access is a token
      obtain ⟨t, ht⟩ := hshape.member hmember
      rw [← hcs, List.getLast?_map] at ht
      obtain ⟨y, hy, hyt⟩ := Option.map_eq_some_iff.mp ht
      obtain ⟨f, hf, hintact⟩ := exists_getLast? hall hy
      have hlast : es.getLast? = some (.token t) := by rw [← hcs, List.getLast?_map, hy, ← hyt]; rfl
      rw [hmember, expressionName, expressionName, hf, hlast, Option.map_some, Option.map_some]
      cases hintact with
      | token hs hu =>
        rw [hyt, Element.token.injEq] at hs
        have htext := congrArg Token.text hu
        rw [text_token, text_token, hs]
        exact htext
      | node hnode _ => rw [hyt] at hnode; cases hnode
      | sorted hnode _ _ _ _ => rw [hyt] at hnode; cases hnode
    by_cases hcall : k = .functionCallExpr
    · cases es with
      | nil =>
        rw [List.map_eq_nil_iff] at hcs
        rw [hcs, List.forall₂_nil_left_iff] at hall
        rw [hall]
      | cons f rest =>
        rw [List.map_eq_cons_iff] at hcs
        obtain ⟨y, ys, hchildren, hy, -⟩ := hcs
        rw [hchildren, List.forall₂_cons_left_iff] at hall
        obtain ⟨f', rest', hf, -, rfl⟩ := hall
        rw [hcall, expressionName, expressionName]
        exact expressionName_eq f hy ((Element.shapedAll_iff _).mp hes f List.mem_cons_self) hf
    -- the other names are read off the first token, which no sort moves out of an expression
    have hfirst := firstTokenOf?_eq h hc
    by_cases hidentifier : k = .identifierExpr
    · have htext := congrArg (Option.map Prod.snd) hfirst
      rw [Option.map_map, Option.map_map] at htext
      rw [hidentifier, expressionName, expressionName]
      exact congrArg (Option.getD · "") htext
    by_cases hliteral : k = .literalExpr
    · rw [hliteral, expressionName, expressionName]
      cases hes' : Element.firstTokenOf? es' with
      | none =>
        rw [hes', Option.map_none, eq_comm, Option.map_eq_none_iff] at hfirst
        rw [hfirst]
      | some u =>
        rw [hes', Option.map_some, eq_comm] at hfirst
        obtain ⟨t, ht, hlexeme⟩ := Option.map_eq_some_iff.mp hfirst
        obtain ⟨hkind, htext⟩ := Prod.mk.inj hlexeme
        rw [ht]
        dsimp only
        rw [hkind, htext]
    · rw [expressionName_of_ne es' hmember hcall hidentifier hliteral,
        expressionName_of_ne es hmember hcall hidentifier hliteral]

mutual
/-- Sorting does not change the name of a pattern. -/
theorem patternName_eq : ∀ (e : Element) {c : Cursor} {e' : Element}, c.element = e → e.Shaped →
    Intact disabled c e' → patternName e' = patternName e
  | .token t, c, e', hc, _, h => by
    cases h with
    | token _ _ => rfl
    | node hnode _ => rw [hc] at hnode; cases hnode
    | sorted hnode _ _ _ _ => rw [hc] at hnode; cases hnode
  | .node k es, c, e', hc, hshaped, h => by
    have hcs : c.children.map Cursor.element = es := by rw [Cursor.map_element_children, hc]; rfl
    have hes := (Element.shapedAll_iff es).mp ((Element.shaped_node k es).mp hshaped).2
    by_cases hbinding : k = .valueBindingPattern
    · obtain ⟨es', rfl, hall⟩ := h.exists_children hc (by rw [hbinding]; decide)
      rw [hbinding, patternName, patternName]
      exact lastPatternName_eq es hcs hes hall
    by_cases hexpression : k = .expressionPattern
    · obtain ⟨es', rfl, hall⟩ := h.exists_children hc (by rw [hexpression]; decide)
      rw [hexpression, patternName, patternName]
      cases es with
      | nil =>
        rw [List.map_eq_nil_iff] at hcs
        rw [hcs, List.forall₂_nil_left_iff] at hall
        rw [hall]
      | cons f rest =>
        rw [List.map_eq_cons_iff] at hcs
        obtain ⟨y, ys, hchildren, hy, -⟩ := hcs
        rw [hchildren, List.forall₂_cons_left_iff] at hall
        obtain ⟨f', rest', hf, -, rfl⟩ := hall
        exact expressionName_eq f hy (hes f List.mem_cons_self) hf
    · have hother : ∀ es, patternName (.node k es) = "" := by
        intro es
        cases k <;> first | rfl | contradiction
      have hkind := h.kind_eq
      rw [Cursor.kind, hc] at hkind
      rw [hother]
      cases e' with
      | token t => rfl
      | node j es' =>
        cases hkind
        exact hother es'
theorem lastPatternName_eq : ∀ (es : List Element) {cs : List Cursor} {es' : List Element},
    cs.map Cursor.element = es → (∀ e ∈ es, e.Shaped) → List.Forall₂ (Intact disabled) cs es' →
    lastPatternName es' = lastPatternName es
  | [], cs, es', hcs, _, h => by
    rw [List.map_eq_nil_iff] at hcs
    rw [hcs, List.forall₂_nil_left_iff] at h
    rw [h]
  | e :: es, cs, es', hcs, hshaped, h => by
    rw [List.map_eq_cons_iff] at hcs
    obtain ⟨y, ys, rfl, hy, hys⟩ := hcs
    rw [List.forall₂_cons_left_iff] at h
    obtain ⟨e', rest', he, hrest, rfl⟩ := h
    rw [List.forall_mem_cons] at hshaped
    cases es with
    | nil =>
      rw [List.map_eq_nil_iff] at hys
      rw [hys, List.forall₂_nil_left_iff] at hrest
      rw [hrest, lastPatternName, lastPatternName]
      exact patternName_eq e hy hshaped.1 he
    | cons f rest =>
      have hlast := lastPatternName_eq (f :: rest) hys hshaped.2 hrest
      rw [List.map_eq_cons_iff] at hys
      obtain ⟨z, zs, rfl, -, -⟩ := hys
      rw [List.forall₂_cons_left_iff] at hrest
      obtain ⟨f', rest'', -, -, rfl⟩ := hrest
      rw [lastPatternName, lastPatternName]
      exact hlast
end

end SortedSwitchCases

end SwiftTidy
