import Mathlib
import SwiftTidy.Proofs.Rules.SortedSwitches

/-!
# A pass that sorts switches

The switches of a tree are followed through a pass from the inside out: what becomes of a place has
the same switches as the place, each looking as the pass has left it (`Made`).  Moving a case or a
pattern only changes spaces at its edges, so what a switch looks like is told without its spaces
(`switchesOf`), and later moves do not change it any more.

`switches_correspond` is the statement about a whole pass: the switches of the tree and those of its
result correspond one by one, and each one that was sorted is sorted in the result.
-/

namespace SwiftTidy

/-- The switches at and below a place, outer ones first. -/
def Cursor.switches (c : Cursor) : List Cursor := c.descendants.filter (·.kind == .switchExpr)

namespace SortedSwitchCases

variable {source : String} {tree : Element} {disabled : DisabledRegions} {c d : Cursor}
  {e e' : Element}

/-! ### The switches of an element -/

mutual
/-- The switches at and below an element without their spaces, outer ones first. -/
def switchesOf : Element → List Element
  | .token t => if t.kind = .switchExpr then [(Element.token t).unspaced] else []
  | .node k es =>
    (if k = .switchExpr then [(Element.node k es).unspaced] else []) ++ switchesOfAll es
/-- The switches at and below some elements. -/
def switchesOfAll : List Element → List Element
  | [] => []
  | e :: es => switchesOf e ++ switchesOfAll es
end

theorem switchesOfAll_eq_flatMap (es : List Element) : switchesOfAll es = es.flatMap switchesOf := by
  induction es with
  | nil => rw [switchesOfAll, List.flatMap_nil]
  | cons e es ih => rw [switchesOfAll, ih, List.flatMap_cons]

theorem switchesOf_node (k : SyntaxKind) (es : List Element) : switchesOf (.node k es) =
    (if k = .switchExpr then [(Element.node k es).unspaced] else []) ++ es.flatMap switchesOf := by
  rw [switchesOf, switchesOfAll_eq_flatMap]

mutual
theorem switchesOf_unspaced : ∀ e : Element, switchesOf e.unspaced = switchesOf e
  | .token t => by
    rw [Element.unspaced_token, switchesOf, switchesOf, Element.unspaced_token, Element.unspaced_token,
      Token.unspaced_unspaced]
    rfl
  | .node k es => by
    have hnode : (Element.node k (es.map Element.unspaced)).unspaced = (Element.node k es).unspaced := by
      rw [Element.unspaced_node, Element.unspaced_node, List.map_map]
      exact congrArg _ (List.map_congr_left fun e _ => Element.unspaced_unspaced e)
    rw [Element.unspaced_node, switchesOf, switchesOf, hnode, switchesOfAll_unspaced es]
theorem switchesOfAll_unspaced : ∀ es : List Element,
    switchesOfAll (es.map Element.unspaced) = switchesOfAll es
  | [] => rfl
  | e :: es => by
    rw [List.map_cons, switchesOfAll, switchesOfAll, switchesOf_unspaced e, switchesOfAll_unspaced es]
end

theorem isTally_switchesOf : IsTally switchesOf where
  node es hk := by rw [switchesOf_node, if_neg hk, List.nil_append]
  unspaced h := by rw [← switchesOf_unspaced, h, switchesOf_unspaced]

/-- The switches of a node: the node itself, if it is one, and those of its children. -/
theorem switches_of_node {k : SyntaxKind} {es : List Element} (hc : c.element = .node k es) :
    c.switches = (if k = .switchExpr then [c] else []) ++ c.children.flatMap Cursor.switches := by
  have hkind : (c.kind == .switchExpr) = decide (k = .switchExpr) := by
    rw [Cursor.kind, hc, Bool.beq_eq_decide_eq]
    rfl
  rw [Cursor.switches, Cursor.descendants_eq, List.filter_cons, hkind, List.filter_flatMap]
  by_cases hk : k = .switchExpr
  · rw [if_pos (by simpa using hk), if_pos hk]
    rfl
  · rw [if_neg (by simpa using hk), if_neg hk]
    rfl

mutual
/-- The switches of a place are those of its element. -/
theorem map_switches : ∀ (e : Element) {c : Cursor}, c.element = e →
    c.switches.map (·.element.unspaced) = switchesOf e
  | .token t, c, hc => by
    have hkind : (c.kind == .switchExpr) = decide (t.kind = .switchExpr) := by
      rw [Cursor.kind, hc, Bool.beq_eq_decide_eq]
      rfl
    rw [Cursor.switches, Cursor.descendants, hc, Cursor.descendantsOf, List.filter_singleton, hkind,
      switchesOf]
    by_cases ht : t.kind = .switchExpr
    · simp only [ht, decide_true, if_true, cond_true, List.map_singleton, hc]
    · simp only [ht, decide_false, if_false, cond_false, List.map_nil]
  | .node k es, c, hc => by
    have hchildren : c.children.map Cursor.element = es := by
      rw [Cursor.map_element_children, hc]
      rfl
    rw [switches_of_node hc, switchesOf, List.map_append, map_flatMap_switches es hchildren]
    by_cases hk : k = .switchExpr
    · rw [if_pos hk, if_pos hk, List.map_singleton, hc]
    · rw [if_neg hk, if_neg hk, List.map_nil]
theorem map_flatMap_switches : ∀ (es : List Element) {cs : List Cursor}, cs.map Cursor.element = es →
    (cs.flatMap Cursor.switches).map (·.element.unspaced) = switchesOfAll es
  | [], cs, hcs => by
    rw [List.map_eq_nil_iff.mp hcs]
    rfl
  | e :: es, cs, hcs => by
    obtain ⟨y, ys, rfl, hy, hys⟩ := List.map_eq_cons_iff.mp hcs
    rw [List.flatMap_cons, List.map_append, switchesOfAll, map_switches e hy, map_flatMap_switches es hys]
end

/-! ### What becomes of a place -/

/-- The place `d` shows what has become of the switch `c`: it is intact, and sorted if it was. -/
structure Shows (disabled : DisabledRegions) (c d : Cursor) : Prop where
  intact : Intact disabled c d.element
  sorted : recordedAt disabled c ≠ [] → IsSortedSwitch disabled c d

/-- What becomes of a place: it keeps its edges, and of every switch at or below it there is one that
shows what has become of it. -/
structure Made (disabled : DisabledRegions) (c : Cursor) (e' : Element) : Prop where
  becomes : Becomes disabled c e'
  switches : ∃ shown : List (Cursor × Element), shown.map Prod.fst = c.switches ∧
    (shown.map Prod.snd).Perm (switchesOf e') ∧
    ∀ p ∈ shown, ∀ d : Cursor, d.element.unspaced = p.2 → Shows disabled p.1 d

theorem made_token {t : Token} (hkinded : c.element.WellKinded) (hc : c.element = .token t) :
    Made disabled c (.token t) := by
  have hne : t.kind ≠ .switchExpr := by
    intro hkind
    rw [hc, Element.wellKinded_token, hkind] at hkinded
    cases hkinded
  have hnone := map_switches (.token t) hc
  rw [switchesOf, if_neg hne, List.map_eq_nil_iff] at hnone
  refine ⟨⟨.token hc rfl, by rw [hc]; exact .refl _⟩, [], ?_, ?_, nofun⟩
  · rw [hnone, List.map_nil]
  · rw [switchesOf, if_neg hne, List.map_nil]

/-- The switches below a place, by those of its children. -/
theorem exists_shown {cur : Cursor → Element} (hcur : ∀ y ∈ c.children, Made disabled y (cur y)) :
    ∃ shown : List (Cursor × Element), shown.map Prod.fst = c.children.flatMap Cursor.switches ∧
      (shown.map Prod.snd).Perm ((c.children.map cur).flatMap switchesOf) ∧
      ∀ p ∈ shown, ∀ d : Cursor, d.element.unspaced = p.2 → Shows disabled p.1 d := by
  have hchild := fun y hy => (hcur y hy).switches
  choose! shown hfst hsnd hshows using hchild
  refine ⟨c.children.flatMap shown, ?_, ?_, fun p hp => ?_⟩
  · rw [List.map_flatMap]
    exact List.flatMap_congr hfst
  · rw [List.map_flatMap, List.flatMap_map]
    exact List.Perm.flatMap_left _ hsnd
  · obtain ⟨y, hy, hp⟩ := List.mem_flatMap.mp hp
    exact hshows y hy p hp

/-- A node that was not sorted becomes what its children become. -/
theorem becomes_node {k : SyntaxKind} {es : List Element} {cur : Cursor → Element}
    (hc : c.element = .node k es) (hcur : ∀ y ∈ c.children, Becomes disabled y (cur y)) :
    Becomes disabled c (.node k (c.children.map cur)) where
  intact := by
    refine .node hc ?_
    rw [List.forall₂_map_right_iff, List.forall₂_same]
    exact fun y hy => (hcur y hy).intact
  edges := by
    rw [hc, show es = c.children.map Cursor.element by rw [Cursor.map_element_children, hc]; rfl]
    refine .node k ?_
    rw [List.forall₂_map_left_iff, List.forall₂_map_right_iff, List.forall₂_same]
    exact fun y hy => (hcur y hy).edges

/-- A node in which nothing but its children has changed. -/
theorem made_node {k : SyntaxKind} {es : List Element} {cur : Cursor → Element}
    (hc : c.element = .node k es) (hunsorted : recordedAt disabled c = [])
    (hcur : ∀ y ∈ c.children, Made disabled y (cur y)) :
    Made disabled c (.node k (c.children.map cur)) := by
  have hbecomes := becomes_node hc fun y hy => (hcur y hy).becomes
  obtain ⟨shown, hfst, hsnd, hshows⟩ := exists_shown hcur
  refine ⟨hbecomes, ?_⟩
  rw [switches_of_node hc, switchesOf_node]
  by_cases hk : k = .switchExpr
  · rw [if_pos hk, if_pos hk]
    refine ⟨(c, _) :: shown, congrArg (c :: ·) hfst, hsnd.cons _, ?_⟩
    rw [List.forall_mem_cons]
    exact ⟨fun d hd => ⟨hbecomes.intact.of_unspaced hd, fun h => absurd hunsorted h⟩, hshows⟩
  · rw [if_neg hk, if_neg hk]
    exact ⟨shown, hfst, hsnd, hshows⟩

/-- The first child of a switch is a token, and it stays in front when the cases are sorted. -/
theorem head?_lexemes_exchange {es : List Element} {cur moved : Cursor → Element}
    (hkinded : c.element.WellKinded) (hshaped : c.element.Shaped)
    (hc : c.element = .node .switchExpr es) (hcur : ∀ y ∈ c.children, Intact disabled y (cur y)) :
    ((c.children.map (exchange .switchCase cur moved)).flatMap Element.lexemes).head? =
      ((c.children.map cur).flatMap Element.lexemes).head? := by
  have hchildren : c.children.map Cursor.element = es := by
    rw [Cursor.map_element_children, hc]
    rfl
  rw [hc] at hshaped
  obtain ⟨t, ht⟩ := (((Element.shaped_node _ es).mp hshaped).1.switch rfl).1
  rw [← hchildren, List.head?_map] at ht
  obtain ⟨y, hy, hyt⟩ := Option.map_eq_some_iff.mp ht
  obtain ⟨ys, hys⟩ := List.head?_eq_some_iff.mp hy
  have hmem : y ∈ c.children := List.mem_of_head? hy
  have hkind : y.kind ≠ .switchCase := by
    intro hkind
    have htoken := Cursor.wellKinded_of_mem_children hkinded hmem
    rw [Cursor.kind, hyt] at hkind
    rw [hyt, Element.wellKinded_token, show t.kind = .switchCase from hkind] at htoken
    cases htoken
  have hfirst : exchange .switchCase cur moved y = cur y := if_neg (by simpa using hkind)
  have hlexemes : (cur y).lexemes ≠ [] := by
    intro hnil
    have hhead := (hcur y hmem).lexemes.2
    rw [hnil, hyt, Element.lexemes, Element.leaves_token] at hhead
    cases hhead
  obtain ⟨l, ls, hls⟩ := List.exists_cons_of_ne_nil hlexemes
  rw [hys, List.map_cons, List.map_cons, List.flatMap_cons, List.flatMap_cons, hfirst, hls]
  rfl

/-- What a switch that was sorted becomes. -/
theorem becomes_of_sortCases {es : List Element} {cur : Cursor → Element}
    (hkinded : c.element.WellKinded) (hshaped : c.element.Shaped)
    (hc : c.element = .node .switchExpr es) (hreorder : canReorder (cases c) = true)
    (hsorted : recordedAt disabled c ≠ []) (hcur : ∀ y ∈ c.children, Becomes disabled y (cur y))
    (hsort : sortCases (cases c) (.node .switchExpr (c.children.map cur)) = .ok e') :
    Becomes disabled c e' := by
  have hckind : c.kind = .switchExpr := by
    rw [Cursor.kind, hc]
    rfl
  have hchildren : c.children.map Cursor.element = es := by
    rw [Cursor.map_element_children, hc]
    rfl
  have hall : List.Forall₂ (Intact disabled) c.children (c.children.map cur) := by
    rw [List.forall₂_map_right_iff, List.forall₂_same]
    exact fun y hy => (hcur y hy).intact
  obtain ⟨moved, hmoved, hedges, htally, -⟩ := exists_sortCases_map hkinded hshaped hckind hreorder hcur
  obtain rfl := Except.ok.inj (hsort.symm.trans hmoved)
  have hlexemes := Intact.forall₂_lexemes hall
  have hcomments := Intact.forall₂_comments hall
  rw [← List.flatMap_map Cursor.element, hchildren] at hlexemes hcomments
  constructor
  · refine .sorted hc hsorted ?_ ?_ ?_
    · exact (tally_exchange (htally isTally_lexemes)).trans hlexemes.1
    · exact (tally_exchange (htally isTally_comments)).trans hcomments
    · rw [head?_lexemes_exchange hkinded hshaped hc fun y hy => (hcur y hy).intact, hlexemes.2]
  · exact (becomes_node hc hcur).edges.trans (.node _ (sameEdges_exchange hedges))

/-- A switch that was sorted, with all below it. -/
theorem exists_made_switch {es : List Element} {cur : Cursor → Element}
    (hkinded : c.element.WellKinded) (hshaped : c.element.Shaped)
    (hc : c.element = .node .switchExpr es) (hreorder : canReorder (cases c) = true)
    (hcur : ∀ y ∈ c.children, Made disabled y (cur y)) :
    ∃ e', sortCases (cases c) (.node .switchExpr (c.children.map cur)) = .ok e' ∧
      (recordedAt disabled c ≠ [] → Made disabled c e') := by
  have hckind : c.kind = .switchExpr := by
    rw [Cursor.kind, hc]
    rfl
  have hbecomes : ∀ y ∈ c.children, Becomes disabled y (cur y) := fun y hy => (hcur y hy).becomes
  obtain ⟨moved, hsort, -, htally, hcases⟩ := exists_sortCases_map hkinded hshaped hckind hreorder hbecomes
  refine ⟨_, hsort, fun hsorted => ?_⟩
  have hsame := becomes_of_sortCases hkinded hshaped hc hreorder hsorted hbecomes hsort
  obtain ⟨shown, hfst, hsnd, hshows⟩ := exists_shown hcur
  obtain ⟨fs, hfs⟩ : ∃ fs, c.children.map (exchange .switchCase cur moved) = fs := ⟨_, rfl⟩
  rw [hfs] at hsame ⊢
  refine ⟨hsame, (c, (Element.node .switchExpr fs).unspaced) :: shown, ?_, ?_, ?_⟩
  · rw [switches_of_node hc, if_pos rfl]
    exact congrArg (c :: ·) hfst
  · rw [switchesOf_node, if_pos rfl]
    exact (hsnd.trans (hfs ▸ (tally_exchange (htally isTally_switchesOf)).symm)).cons _
  · rw [List.forall_mem_cons]
    refine ⟨fun d hd => ?_, hshows⟩
    have hintact' := hsame.intact.of_unspaced hd
    exact ⟨hintact', fun _ => isSortedSwitch_of_intact hshaped hreorder (hfs ▸ hcases) hd hintact'⟩

/-! ### The pass -/

/-- What the fixer proposes for a switch whose cases can be moved: its cases in order, accepted exactly
when something is recorded. -/
theorem exists_fix {current sorted : Element} (hkind : c.kind = .switchExpr)
    (hreorder : canReorder (cases c) = true) (hsort : sortCases (cases c) current = .ok sorted) :
    ∃ f, fixer.node c current () = .ok (f, ()) ∧
      (Fixer.accept disabled c current f).1 = if recordedAt disabled c = [] then current else sorted := by
  have hrecorded : recordedAt disabled c = (disorder? c (cases c)).toList.filter
      fun p => Fix.isAllowed ⟨c.element, p, [], none⟩ disabled c := if_pos ⟨hkind, hreorder⟩
  cases hdisorder : disorder? c (cases c) with
  | none =>
    rw [hdisorder, Option.toList_none, List.filter_nil] at hrecorded
    refine ⟨none, ?_, by rw [if_pos hrecorded]; rfl⟩
    simp only [fixer, hkind, hdisorder]
    rfl
  | some position =>
    rw [hdisorder, Option.toList_some, List.filter_singleton] at hrecorded
    refine ⟨some ⟨sorted, position, [], none⟩, ?_, ?_⟩
    · simp only [fixer, hkind, hdisorder, hreorder, hsort, bind, Except.bind]
      rfl
    · -- whether it is allowed does not depend on the replacement
      have hsame : Fix.isAllowed ⟨sorted, position, [], none⟩ disabled c =
        Fix.isAllowed ⟨c.element, position, [], none⟩ disabled c := rfl
      rw [Fixer.accept, hsame, hrecorded]
      cases Fix.isAllowed ⟨c.element, position, [], none⟩ disabled c <;> rfl

theorem exists_fix_none (disabled : DisabledRegions) {current : Element}
    (hcan : ¬ (c.kind = .switchExpr ∧ canReorder (cases c) = true)) :
    fixer.node c current () = .ok (none, ()) ∧ recordedAt disabled c = [] := by
  refine ⟨?_, if_neg hcan⟩
  by_cases hkind : c.kind = .switchExpr
  · have hreorder : canReorder (cases c) = false := by simpa [hkind] using hcan
    simp only [fixer, hkind, hreorder]
    cases disorder? c (cases c) <;> rfl
  · have hother : (c.kind != .switchExpr) = true := by simpa using hkind
    simp only [fixer, hother]
    rfl

theorem makes_fixer (h : parse source = .ok tree) (disabled : DisabledRegions)
    (hc : c ∈ (Cursor.root tree).descendants) :
    Fixer.Makes fixer disabled (fun c e' _ => Made disabled c e') c where
  token t ht := ⟨none, rfl, made_token (wellKinded_of_mem_descendants h hc) ht⟩
  visit _ _ _ := rfl
  node k es ms hnode hms := by
    have hkinded := wellKinded_of_mem_descendants h hc
    have hshaped := shaped_of_mem_descendants h hc
    obtain ⟨cur, hcur, hmade⟩ := Cursor.exists_map_children
      (List.forall₂_map_right_iff.mpr hms : List.Forall₂ (Made disabled) c.children (ms.map Prod.fst))
    rw [hcur]
    by_cases hcan : c.kind = .switchExpr ∧ canReorder (cases c) = true
    · obtain ⟨hkind, hreorder⟩ := hcan
      have hk : k = .switchExpr := by
        rw [Cursor.kind, hnode] at hkind
        exact hkind
      subst hk
      obtain ⟨e', hsort, hsorted⟩ := exists_made_switch hkinded hshaped hnode hreorder hmade
      obtain ⟨f, hf, haccept⟩ := exists_fix hkind hreorder hsort
      refine ⟨f, hf, ?_⟩
      rw [haccept]
      split_ifs with hrecorded
      · exact made_node hnode hrecorded hmade
      · exact hsorted hrecorded
    · obtain ⟨hnone, hrecorded⟩ := exists_fix_none disabled hcan
      exact ⟨none, hnone, made_node hnode hrecorded hmade⟩

/-- Lists that are the same under two maps, up to order, correspond in an order of one of them. -/
theorem exists_perm_forall₂ {α β γ : Type} {f : α → γ} {g : β → γ} {xs : List α} {ys : List β}
    (h : (xs.map f).Perm (ys.map g)) :
    ∃ zs : List β, zs.Perm ys ∧ List.Forall₂ (fun x z => f x = g z) xs zs := by
  have hsame : List.Forall₂ (fun a y => a = g y) (ys.map g) ys := by
    rw [List.forall₂_map_left_iff, List.forall₂_same]
    exact fun _ _ => rfl
  have hcomp : Relation.Comp List.Perm (List.Forall₂ fun a y => a = g y) (xs.map f) ys :=
    ⟨_, h, hsame⟩
  rw [← List.forall₂_comp_perm_eq_perm_comp_forall₂] at hcomp
  obtain ⟨zs, hzs, hperm⟩ := hcomp
  exact ⟨zs, hperm, List.forall₂_map_left_iff.mp hzs⟩

/-- **A pass that sorts switches**: it records what `recordedAt` says, and the switches of its result
are those of the tree, one for one in some order.  Each has the tokens and comments it had, and one
where something is recorded is sorted, so nothing is found there any more. -/
theorem switches_correspond (h : parse source = .ok tree) (disabled : DisabledRegions) :
    ∃ outcome, fixer.run () disabled tree = .ok outcome ∧
      outcome.corrections =
        ((Cursor.root tree).postorder.flatMap (recordedAt disabled)).mergeSort (· ≤ ·) ∧
      ∃ pairs : List (Cursor × Cursor), pairs.map Prod.fst = (Cursor.root tree).switches ∧
        (pairs.map Prod.snd).Perm (Cursor.root outcome.tree).switches ∧
        ∀ p ∈ pairs, Intact disabled p.1 p.2.element ∧
          (recordedAt disabled p.1 ≠ [] → IsSortedSwitch disabled p.1 p.2 ∧ check p.2 = []) := by
  obtain ⟨e', ps, outcome, hrun, hmade, -, htree⟩ :=
    Fixer.made_run fun c hc => makes_fixer h disabled hc
  obtain ⟨fixed, hrun'⟩ := Fixer.run_eq fun c hc => behaves_fixer disabled h hc
  rw [Fixer.recordedOf_nodes, hrun, Except.ok.injEq] at hrun'
  refine ⟨outcome, hrun, by rw [hrun']; rfl, ?_⟩
  have hresult : (Cursor.root outcome.tree).switches.map (·.element.unspaced) = switchesOf e' := by
    rw [map_switches outcome.tree rfl]
    rcases htree with htree | ⟨⟨t, ht⟩, htree⟩
    · rw [htree]
    · -- a root that is a token has at most lost spaces
      have hintact := hmade.becomes.intact
      rw [ht] at hintact ⊢
      cases hintact with
      | @token _ s _ hroot hunspaced =>
        have hroot : tree = .token s := hroot
        have hsame : (Element.token t).unspaced = (Element.token s).unspaced := by
          rw [Element.unspaced_token, Element.unspaced_token, hunspaced]
        rw [htree, hroot, isTally_switchesOf.unspaced hsame]
  obtain ⟨shown, hfst, hsnd, hshows⟩ := hmade.switches
  rw [← hresult] at hsnd
  obtain ⟨zs, hzs, hpairs⟩ := exists_perm_forall₂ hsnd
  have hlength := hpairs.length_eq
  refine ⟨(shown.map Prod.fst).zip zs, ?_, ?_, fun p hp => ?_⟩
  · rw [List.map_fst_zip (by rw [List.length_map, hlength]), hfst]
  · rwa [List.map_snd_zip (by rw [List.length_map, hlength])]
  · rw [List.zip_map_left] at hp
    obtain ⟨⟨q, z⟩, hq, rfl⟩ := List.mem_map.mp hp
    have hshown := hshows q (List.of_mem_zip hq).1 z (List.forall₂_zip hpairs hq).symm
    exact ⟨hshown.intact, fun hsorted => ⟨hshown.sorted hsorted, (hshown.sorted hsorted).check_eq_nil⟩⟩

/-- A switch in a case of another one: the items of the inner one and the cases of the outer one are
out of order. -/
def nestedSwitches : String :=
  "switch x \x7b\ncase .b:\n  switch y \x7b\n  case .d, .c: g()\n  \x7d\ncase .a: f()\n\x7d\n"

/-- The same switches in order. -/
def nestedSwitchesSorted : String :=
  "switch x \x7b\ncase .a: f()\ncase .b:\n  switch y \x7b\n  case .c, .d: g()\n  \x7d\n\x7d\n"

set_option maxRecDepth 100000 in
/-- What a pass records and leaves of them, whose tokens are the leaves of the tree that it leaves. -/
theorem pass_nestedSwitches :
    ((parse nestedSwitches).toOption.bind fun tree =>
      (Lexer.tokens nestedSwitchesSorted).toOption.bind fun us =>
        (fixer.run () .none tree).toOption.map fun o =>
          (o.corrections, o.tree.fullText, decide (us.pending ++ [us.endOfFile] = o.tree.leaves))) =
      some ([0, 35], nestedSwitchesSorted, true) := by
  cbv

/-- Both switches are sorted in one pass, the inner one while it moves with its case. -/
theorem switches_correspond_nested :
    ∃ (tree : Element) (outcome : FixOutcome) (pairs : List (Cursor × Cursor)),
      parse nestedSwitches = .ok tree ∧ fixer.run () .none tree = .ok outcome ∧
      outcome.corrections = [0, 35] ∧ outcome.tree.fullText = nestedSwitchesSorted ∧
      pairs.map Prod.fst = (Cursor.root tree).switches ∧
      (pairs.map Prod.snd).Perm (Cursor.root outcome.tree).switches ∧ pairs.length = 2 ∧
      ∀ p ∈ pairs, recordedAt .none p.1 ≠ [] ∧ IsSortedSwitch .none p.1 p.2 ∧ check p.2 = [] := by
  have hrecorded : (parse nestedSwitches).toOption.map (fun tree =>
      (Cursor.root tree).switches.map fun c => (recordedAt .none c).isEmpty) = some [false, false] := by
    decide +kernel
  obtain ⟨tree, htree, hpass⟩ := Option.bind_eq_some_iff.mp pass_nestedSwitches
  obtain ⟨us, -, hpass⟩ := Option.bind_eq_some_iff.mp hpass
  have h : parse nestedSwitches = .ok tree := Except.toOption_eq_some.mp htree
  obtain ⟨outcome, hrun, -, pairs, hfst, hsnd, hpairs⟩ := switches_correspond h .none
  rw [hrun] at hpass
  obtain ⟨hcorrections, hpass⟩ := Prod.mk.inj (Option.some.inj hpass)
  obtain ⟨htext, -⟩ := Prod.mk.inj hpass
  rw [htree, Option.map_some, Option.some.injEq, ← hfst, List.map_map] at hrecorded
  refine ⟨tree, outcome, pairs, h, hrun, hcorrections, htext, hfst, hsnd, ?_, fun p hp => ?_⟩
  · have hlength := congrArg List.length hrecorded
    rwa [List.length_map] at hlength
  · have hmem := List.mem_map_of_mem (f := (fun c => (recordedAt .none c).isEmpty) ∘ Prod.fst) hp
    rw [hrecorded] at hmem
    have hne : recordedAt .none p.1 ≠ [] := by
      intro hnil
      rw [Function.comp, hnil] at hmem
      exact absurd hmem (by decide)
    exact ⟨hne, (hpairs p hp).2 hne⟩

end SortedSwitchCases

end SwiftTidy
