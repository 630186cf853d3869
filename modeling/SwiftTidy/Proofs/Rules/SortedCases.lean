import SwiftTidy.Proofs.Rules.SortedLabels

/-!
# Cases with their items in order

A case whose items are sorted has the patterns of its label in the order of their names, and all that
is behind the label stays (`exists_sortItems_map`).  This does not depend on spaces, so it can be read
off the case after it has moved (`IsSortedCase.of_unspaced`), by names (`names_eq`) and by keys
(`SameCase.key`).
-/

namespace SwiftTidy

namespace SortedSwitchCases

variable {disabled : DisabledRegions} {c : Cursor} {e e' : Element}

/-! ### What a sorted case is -/

/-- The patterns of the items of a case. -/
def Case.patterns (x : Case) : List Cursor := (x.label.toList.flatMap items).filterMap pattern?

/-- What is in a case beside its label. -/
def Case.body (x : Case) : List Cursor := x.node.children.filter (·.kind != .switchCaseLabel)

/-- What has become of a case when its items were sorted: the label has the same patterns in the order
of their names, and what is beside the label is intact. -/
structure IsSortedCase (disabled : DisabledRegions) (x : Case) (e : Element) : Prop where
  kind : e.kind = .switchCase
  body : List.Forall₂ (Intact disabled) x.body (e.children.filter (·.kind != .switchCaseLabel))
  default : x.label = none → e.children.find? (·.kind == .switchCaseLabel) = none
  label : ∀ l, x.label = some l → ∃ f ps,
    e.children.find? (·.kind == .switchCaseLabel) = some f ∧
      ps.Perm ((items l).filterMap pattern?) ∧
      (ps.map fun p => patternName p.element).Pairwise (· ≤ ·) ∧ HasPatterns disabled ps f

/-- What holds of elements one by one holds of elements that are the same up to spaces. -/
theorem forall₂_of_map_unspaced {α : Type} {R : α → Element → Prop} {xs : List α}
    {es es' : List Element} (h : List.Forall₂ R xs es)
    (heq : es'.map Element.unspaced = es.map Element.unspaced)
    (hR : ∀ x e e', R x e → e'.unspaced = e.unspaced → R x e') : List.Forall₂ R xs es' := by
  induction h generalizing es' with
  | nil =>
    rw [List.map_nil, List.map_eq_nil_iff] at heq
    rw [heq]
    exact .nil
  | cons hx _ ih =>
    rw [List.map_cons, List.map_eq_cons_iff] at heq
    obtain ⟨e', rest, rfl, he, hrest⟩ := heq
    exact .cons (hR _ _ _ hx he) (ih hrest)

/-- Elements that are the same up to spaces have the same children of every kind, up to spaces. -/
theorem map_filter_unspaced {es es' : List Element} (test : SyntaxKind → Bool)
    (h : es'.map Element.unspaced = es.map Element.unspaced) :
    (es'.filter (test ·.kind)).map Element.unspaced = (es.filter (test ·.kind)).map Element.unspaced := by
  have hfilter := congrArg (List.filter (test ·.kind)) h
  rw [List.filter_map, List.filter_map] at hfilter
  simpa only [Function.comp_def, Element.kind_unspaced] using hfilter

theorem map_children_unspaced (h : e'.unspaced = e.unspaced) :
    e'.children.map Element.unspaced = e.children.map Element.unspaced := by
  rw [← Element.children_unspaced, h, Element.children_unspaced]

theorem HasPatterns.of_unspaced {ps : List Cursor} (h : HasPatterns disabled ps e)
    (heq : e'.unspaced = e.unspaced) : HasPatterns disabled ps e' := by
  refine forall₂_of_map_unspaced h
    (map_filter_unspaced (· == .switchCaseItem) (map_children_unspaced heq)) ?_
  rintro p item item' ⟨q, hq, hintact⟩ hitem
  have hhead := congrArg List.head? (map_children_unspaced hitem)
  rw [List.head?_map, List.head?_map, hq, Option.map_some] at hhead
  obtain ⟨q', hq', hunspaced⟩ := Option.map_eq_some_iff.mp hhead
  exact ⟨q', hq', hintact.of_unspaced hunspaced⟩

theorem IsSortedCase.of_unspaced {x : Case} (h : IsSortedCase disabled x e)
    (heq : e'.unspaced = e.unspaced) : IsSortedCase disabled x e' := by
  have hchildren := map_children_unspaced heq
  have hfind : (e'.children.find? (·.kind == .switchCaseLabel)).map Element.unspaced =
      (e.children.find? (·.kind == .switchCaseLabel)).map Element.unspaced := by
    have hfind := congrArg (List.find? (·.kind == .switchCaseLabel)) hchildren
    rw [List.find?_map, List.find?_map] at hfind
    simpa only [Function.comp_def, Element.kind_unspaced] using hfind
  constructor
  · rw [← Element.kind_unspaced, heq, Element.kind_unspaced, h.kind]
  · exact forall₂_of_map_unspaced h.body (map_filter_unspaced (· != .switchCaseLabel) hchildren)
      fun _ _ _ => Intact.of_unspaced
  · intro hnone
    rwa [h.default hnone, Option.map_none, Option.map_eq_none_iff] at hfind
  · intro l hl
    obtain ⟨f, ps, hf, hperm, hpairwise, hpatterns⟩ := h.label l hl
    rw [hf, Option.map_some] at hfind
    obtain ⟨f', hf', hunspaced⟩ := Option.map_eq_some_iff.mp hfind
    exact ⟨f', ps, hf', hperm, hpairwise, hpatterns.of_unspaced hunspaced⟩

/-! ### Names -/

/-- The name of an item is that of its pattern. -/
theorem itemName_eq {item p : Cursor} (h : pattern? item = some p) :
    itemName item.element = patternName p.element := by
  have hhead := congrArg List.head? item.map_element_children
  rw [List.head?_map, show item.children.head? = some p from h, Option.map_some] at hhead
  rw [itemName, ← hhead]
  rfl

theorem itemName_of_head? {item q : Element} (h : item.children.head? = some q) :
    itemName item = patternName q := by
  rw [itemName, h]
  rfl

/-- Items with names have patterns, and these have their names. -/
theorem map_patternName_patterns {xs : List Cursor}
    (h : ∀ item ∈ xs, itemName item.element ≠ "") :
    (xs.filterMap pattern?).map (fun p => patternName p.element) =
      xs.map fun item => itemName item.element := by
  have hpattern : ∀ item ∈ xs, ∃ p, pattern? item = some p := by
    intro item hitem
    refine Option.isSome_iff_exists.mp (Option.isSome_iff_ne_none.mpr fun hnone => h item hitem ?_)
    have hhead := congrArg List.head? item.map_element_children
    rw [List.head?_map, show item.children.head? = none from hnone, Option.map_none] at hhead
    rw [itemName, ← hhead]
    rfl
  choose! p hp using hpattern
  rw [filterMap_pattern? hp, List.map_map]
  exact List.map_congr_left fun item hitem => (itemName_eq (hp item hitem)).symm

theorem pairwise_of_isSorted : ∀ {names : List String}, Case.itemsSorted.isSorted names = true →
    names.Pairwise (· ≤ ·)
  | [], _ => .nil
  | [_], _ => List.pairwise_singleton _ _
  | a :: b :: rest, h => by
    rw [Case.itemsSorted.isSorted, Bool.and_eq_true, decide_eq_true_eq] at h
    have hrest := pairwise_of_isSorted h.2
    refine List.pairwise_cons.mpr ⟨fun n hn => ?_, hrest⟩
    rcases List.mem_cons.mp hn with rfl | hn
    · exact h.1
    · exact h.1.trans (List.rel_of_pairwise_cons hrest hn)

theorem isSorted_of_pairwise : ∀ {names : List String}, names.Pairwise (· ≤ ·) →
    Case.itemsSorted.isSorted names = true
  | [], _ => rfl
  | [_], _ => rfl
  | a :: b :: rest, h => by
    rw [Case.itemsSorted.isSorted, Bool.and_eq_true, decide_eq_true_eq]
    exact ⟨List.rel_of_pairwise_cons h List.mem_cons_self, isSorted_of_pairwise (List.Pairwise.of_cons h)⟩

/-- In the order of the items their names ascend. -/
theorem pairwise_sortedItems (xs : List Cursor) :
    ((sortedItems xs).map fun item => itemName item.element).Pairwise (· ≤ ·) := by
  have hsorted : (sortedItems xs).Pairwise fun a b =>
      decide (itemName a.element ≤ itemName b.element) = true := by
    refine List.pairwise_mergeSort (fun a b d hab hbd => ?_) (fun a b => ?_) xs
    · rw [decide_eq_true_eq] at hab hbd ⊢
      exact hab.trans hbd
    · simpa using String.le_total _ _
  exact List.pairwise_map.mpr (hsorted.imp fun h => by simpa using h)

/-! ### Comments -/

theorem filter_isComment_of_containsComment {t : Trivia} (h : t.containsComment = false) :
    t.filter (·.isComment) = [] := by
  rw [Trivia.containsComment, List.any_eq_false] at h
  exact List.filter_eq_nil_iff.mpr h

/-- The comments of a place are looked for token by token. -/
theorem comments_eq_nil_of_containsComments (hkinded : c.element.WellKinded)
    (h : c.containsComments = false) : c.element.comments = [] := by
  rw [Cursor.containsComments, List.any_eq_false] at h
  refine List.flatMap_eq_nil_iff.mpr fun t ht => ?_
  have htoken : Element.token t ∈ c.tokens.map Cursor.element := by
    rw [Cursor.tokens_eq, Cursor.map_element_tokensOf hkinded rfl]
    exact List.mem_map_of_mem ht
  obtain ⟨x, hx, hxt⟩ := List.mem_map.mp htoken
  have hnone := h x hx
  rw [Cursor.token?, hxt, Element.token?, Option.any_some, Bool.or_eq_true, not_or,
    Bool.not_eq_true, Bool.not_eq_true] at hnone
  rw [List.filter_append, filter_isComment_of_containsComment hnone.1,
    filter_isComment_of_containsComment hnone.2]
  rfl

theorem comments_label_eq_nil {x : Case} {l : Cursor} (hmovable : isMovable x = true)
    (hl : x.label = some l) (hkinded : l.element.WellKinded) : l.element.comments = [] := by
  simp only [isMovable, hl, Option.all_some, Bool.and_eq_true, Bool.not_eq_true'] at hmovable
  exact comments_eq_nil_of_containsComments hkinded hmovable.1.2.1

/-- There is no comment at the edges of a case that can be moved. -/
theorem clearEdges_of_isMovable {x : Case} (hmovable : isMovable x = true)
    (hkinded : x.node.element.WellKinded) : x.node.element.ClearEdges := by
  simp only [isMovable, Bool.and_eq_true, Bool.not_eq_true'] at hmovable
  obtain ⟨⟨⟨⟨-, hleading⟩, htrailing⟩, -⟩, -⟩ := hmovable
  constructor
  · rw [← Cursor.leadingTrivia_eq hkinded]
    exact filter_isComment_of_containsComment hleading
  · rw [← Cursor.trailingTrivia_eq hkinded]
    exact filter_isComment_of_containsComment htrailing

/-! ### Sorting the items of a case -/

theorem exists_node_of_kind {k : SyntaxKind} (hkinded : c.element.WellKinded) (hc : c.kind = k)
    (hk : k.isToken = false) : ∃ es, c.element = .node k es := by
  rw [Cursor.kind] at hc
  cases hel : c.element with
  | token t =>
    rw [hel] at hc hkinded
    rw [Element.wellKinded_token, show t.kind = k from hc, hk] at hkinded
    cases hkinded
  | node j es =>
    rw [hel] at hc
    exact ⟨es, by rw [show j = k from hc]⟩

theorem find?_map_children {k : SyntaxKind} {cur : Cursor → Element}
    (hcur : ∀ y ∈ c.children, (cur y).kind = y.kind) :
    (c.children.map cur).find? (·.kind == k) = (c.childOfKind? k).map cur := by
  rw [← List.head?_filter, filter_map_children hcur, List.head?_map, Cursor.childrenOfKind,
    List.head?_filter, Cursor.childOfKind?]

theorem label_of_mem_cases {switch : Cursor} {x : Case} (h : x ∈ cases switch) :
    x.label = x.node.childOfKind? .switchCaseLabel := by
  obtain ⟨node, -, rfl⟩ := List.mem_map.mp h
  rfl

/-- What is beside the label of a case is intact when nothing else has changed. -/
theorem forall₂_body {x : Case} {cur new : Cursor → Element}
    (hcur : ∀ y ∈ x.node.children, Intact disabled y (cur y))
    (hkind : ∀ y ∈ x.node.children, (new y).kind = y.kind)
    (hnew : ∀ y ∈ x.body, new y = cur y) :
    List.Forall₂ (Intact disabled) x.body
      ((x.node.children.map new).filter (·.kind != .switchCaseLabel)) := by
  have hfilter : (x.node.children.map new).filter (·.kind != .switchCaseLabel) = x.body.map new := by
    rw [List.filter_map, Case.body]
    refine congrArg (List.map new) (List.filter_congr fun y hy => ?_)
    rw [Function.comp, hkind y hy]
  rw [hfilter, List.forall₂_map_right_iff, List.forall₂_same]
  intro y hy
  rw [hnew y hy]
  exact hcur y (List.mem_filter.mp hy).1

/-- A case is sorted when its label has the patterns in order and nothing else has changed. -/
theorem isSortedCase_of_hasPatterns {switch l : Cursor} {x : Case} {ps : List Cursor}
    {cur new : Cursor → Element} (hx : x ∈ cases switch) (hl : x.label = some l)
    (hcur : ∀ y ∈ x.node.children, Intact disabled y (cur y))
    (hkind : ∀ y ∈ x.node.children, (new y).kind = y.kind) (hnew : ∀ y ∈ x.body, new y = cur y)
    (hperm : ps.Perm ((items l).filterMap pattern?))
    (hpairwise : (ps.map fun p => patternName p.element).Pairwise (· ≤ ·))
    (hpatterns : HasPatterns disabled ps (new l)) :
    IsSortedCase disabled x (.node .switchCase (x.node.children.map new)) where
  kind := rfl
  body := forall₂_body hcur hkind hnew
  default hnone := by
    rw [hl] at hnone
    cases hnone
  label l' hl' := by
    rw [hl, Option.some.injEq] at hl'
    subst hl'
    refine ⟨new l, ps, ?_, hperm, hpairwise, hpatterns⟩
    rw [Element.children, find?_map_children hkind, ← label_of_mem_cases hx, hl, Option.map_some]

open Classical in
/-- A node in which one child is resorted. -/
theorem Resorted.update {k : SyntaxKind} {y : Cursor} {cur : Cursor → Element} {f : Element}
    (hk : k ≠ .switchExpr) (h : Resorted (cur y) f) :
    Resorted (.node k (c.children.map cur)) (.node k (c.children.map (Function.update cur y f))) where
  edges := by
    refine .node k ?_
    rw [List.forall₂_map_left_iff, List.forall₂_map_right_iff, List.forall₂_same]
    intro z _
    by_cases hz : z = y
    · rw [hz, Function.update_self]
      exact h.edges
    · rw [Function.update_of_ne hz]
      exact .refl _
  tally htally := by
    rw [htally.node _ hk, htally.node _ hk, List.flatMap_map, List.flatMap_map]
    refine List.Perm.flatMap_left _ fun z _ => ?_
    by_cases hz : z = y
    · rw [hz, Function.update_self]
      exact h.tally htally
    · rw [Function.update_of_ne hz]

open Classical in
/-- A case whose label is exchanged for what it is with its items in order. -/
theorem sortItems_eq {switch l : Cursor} {x : Case} {cur curl new : Cursor → Element}
    {found sorted : List (Nat × Element)} (hx : x ∈ cases switch) (hl : x.label = some l)
    (hunsorted : x.itemsSorted = false)
    (hcurl : cur l = .node .switchCaseLabel (l.children.map curl))
    (hfound : ((items l).mapM fun item => do
      return (item.index, ← childAt (.node .switchCaseLabel (l.children.map curl)) item.index) :
        Except Fault _) = .ok found)
    (hpatterns : sortPatterns ((items l).map fun item => itemName item.element)
      (found.filter (·.2.token?.isNone)) = .ok sorted)
    (hfold : sorted.foldl (fun es x => es.set x.1 x.2) (l.children.map curl) = l.children.map new) :
    sortItems x (.node .switchCase (x.node.children.map cur)) =
      .ok (.node .switchCase (x.node.children.map
        (Function.update cur l (.node .switchCaseLabel (l.children.map new))))) := by
  have hmem := ((mem_cases hx).2.2 l hl).1
  have hlt : l.index < (x.node.children.map cur).length :=
    (List.getElem?_eq_some_iff.mp (Cursor.getElem?_map_children cur hmem)).1
  have hchild := childAt_map_children .switchCase cur hmem
  rw [hcurl] at hchild
  simp only [bind, Except.bind] at hfound
  simp only [sortItems, hl, hunsorted, hchild, bind, Except.bind, hfound, names_of_mem_cases hx hl, hpatterns,
    hfold, withChild_eq_ok _ hlt, Cursor.set_map_children cur hmem]
  rfl

/-- **Sorting the items of a case**: its patterns come into order, and nothing else changes. -/
theorem exists_isSortedCase {switch : Cursor} {x : Case} (hx : x ∈ cases switch)
    (hnames : ∀ n ∈ x.names, n ≠ "") (hmovable : isMovable x = true)
    (hkinded : x.node.element.WellKinded) (hshaped : x.node.element.Shaped)
    (h : Intact disabled x.node e) :
    ∃ r, sortItems x e = .ok r ∧ Resorted e r ∧ IsSortedCase disabled x r := by
  obtain ⟨-, hkind, hlabel⟩ := mem_cases hx
  obtain ⟨es, hnode⟩ := exists_node_of_kind hkinded hkind rfl
  obtain ⟨es', rfl, hall⟩ := h.exists_children hnode (by decide)
  obtain ⟨cur, rfl, hcur⟩ := Cursor.exists_map_children hall
  have hcurKind : ∀ y ∈ x.node.children, (cur y).kind = y.kind := fun y hy => (hcur y hy).kind_eq
  cases hl : x.label with
  | none =>
    refine ⟨_, by simp only [sortItems, hl]; rfl, .refl _, rfl, forall₂_body hcur hcurKind
      fun _ _ => rfl, fun _ => ?_, fun l hsome => ?_⟩
    · rw [Element.children, find?_map_children hcurKind, ← label_of_mem_cases hx, hl, Option.map_none]
    · rw [hl] at hsome
      cases hsome
  | some l =>
    obtain ⟨hmem, hlKind⟩ := hlabel l hl
    have hlKinded := Cursor.wellKinded_of_mem_children hkinded hmem
    have hlShaped := shaped_of_mem_children hshaped hmem
    obtain ⟨fs, hlNode⟩ := exists_node_of_kind hlKinded hlKind rfl
    obtain ⟨fs', hcurl, hlAll⟩ := (hcur l hmem).exists_children hlNode (by decide)
    obtain ⟨curl, rfl, hcurls⟩ := Cursor.exists_map_children hlAll
    have hclear : (cur l).comments = [] := by
      have hperm := (hcur l hmem).comments
      rw [comments_label_eq_nil hmovable hl hlKinded] at hperm
      exact hperm.eq_nil
    have hitems := names_of_mem_cases hx hl
    have hitemNames : ∀ item ∈ items l, itemName item.element ≠ "" := fun item hitem =>
      hnames _ (hitems ▸ List.mem_map_of_mem hitem)
    -- items in order stay as they are; others are put into the label, and only there
    by_cases hsorted : x.itemsSorted = true
    · refine ⟨.node .switchCase (x.node.children.map cur), ?_, .refl _,
        isSortedCase_of_hasPatterns hx hl hcur hcurKind (fun _ _ => rfl) (.refl _) ?_ ?_⟩
      · simp only [sortItems, hl, hsorted]
        rfl
      · rw [map_patternName_patterns hitemNames, ← hitems]
        exact pairwise_of_isSorted hsorted
      · rw [hcurl]
        exact hasPatterns_of_intact hlShaped hitemNames hcurls
    · obtain ⟨found, sorted, new, hfound, hpatterns, hfold, hresorted, hhas⟩ :=
        exists_sortLabel_map hlShaped hitemNames hcurls (hcurl ▸ hclear)
      have hsort := sortItems_eq hx hl (Bool.eq_false_of_not_eq_true hsorted) hcurl hfound hpatterns hfold
      rw [← hcurl] at hresorted
      classical
      refine ⟨_, hsort, hresorted.update (by decide), isSortedCase_of_hasPatterns hx hl hcur
        (fun y hy => ?_) (fun y hy => Function.update_of_ne (fun hyl => ?_) _ _)
        ((sortedItems_perm (items l)).filterMap _) ?_ (by rwa [Function.update_self])⟩
      · by_cases hyl : y = l
        · rw [hyl, Function.update_self, hlKind]
          rfl
        · rw [Function.update_of_ne hyl, hcurKind y hy]
      · have hother := (List.mem_filter.mp hy).2
        rw [hyl, hlKind] at hother
        cases hother
      · rw [map_patternName_patterns fun item hitem =>
          hitemNames item ((sortedItems_perm _).mem_iff.mp hitem)]
        exact pairwise_sortedItems (items l)

end SortedSwitchCases

end SwiftTidy
