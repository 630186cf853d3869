import SwiftTidy.Proofs.Rules.CheckedSwitchCases
import SwiftTidy.Proofs.Rules.SwitchNames

/-!
# Labels with their items in order

Sorting the items of a label gives every item the pattern of another one: the patterns of the label
come in another order, and the names of this order ascend (`exists_sortPatterns_map`).

What is gathered from an element token by token, with no regard to spaces and the order of items and
cases (`IsTally`), is gathered from a sorted label too, in some order.
-/

namespace SwiftTidy

namespace SortedSwitchCases

variable {disabled : DisabledRegions} {c : Cursor} {e e' : Element}

/-! ### What is gathered from an element -/

/-- Something gathered from the children of a node one by one, with no regard to spaces. -/
structure IsTally {β : Type} (tally : Element → List β) : Prop where
  node : ∀ {k : SyntaxKind} (es : List Element), k ≠ .switchExpr →
    tally (.node k es) = es.flatMap tally
  unspaced : ∀ {e e' : Element}, e'.unspaced = e.unspaced → tally e' = tally e

theorem isTally_lexemes : IsTally Element.lexemes where
  node es _ := Element.lexemes_node _ es
  unspaced := Element.lexemes_eq_of_unspaced

theorem isTally_comments : IsTally Element.comments where
  node es _ := Element.comments_node _ es
  unspaced := Element.comments_eq_of_unspaced

/-- What sorting keeps of an element: its edges, and all that is gathered from it, in some order. -/
structure Resorted (e e' : Element) : Prop where
  edges : Element.SameEdges e e'
  tally : ∀ {β : Type} {tally : Element → List β}, IsTally tally → (tally e').Perm (tally e)

theorem Resorted.refl (e : Element) : Resorted e e := ⟨.refl e, fun _ => .refl _⟩

theorem childAt_map_children (k : SyntaxKind) {x : Cursor} (cur : Cursor → Element)
    (hx : x ∈ c.children) : childAt (.node k (c.children.map cur)) x.index = .ok (cur x) := by
  rw [childAt, Element.children, Cursor.getElem?_map_children cur hx]

/-! ### Children of one kind that are exchanged -/

/-- What stands for the children of one kind is exchanged. -/
def exchange (k : SyntaxKind) (cur moved : Cursor → Element) (y : Cursor) : Element :=
  if y.kind == k then moved y else cur y

section Exchange

variable {k : SyntaxKind} {cur moved : Cursor → Element}

/-- Where every child keeps its kind those of one kind are still the same ones. -/
theorem filter_map_children (hcur : ∀ y ∈ c.children, (cur y).kind = y.kind) :
    (c.children.map cur).filter (·.kind == k) = (c.childrenOfKind k).map cur := by
  rw [List.filter_map, Cursor.childrenOfKind]
  refine congrArg (List.map cur) (List.filter_congr fun y hy => ?_)
  rw [Function.comp, hcur y hy]

/-- The children of one kind are still of that kind when they are exchanged for such. -/
theorem filter_map_exchange (hcur : ∀ y ∈ c.children, (cur y).kind = y.kind)
    (hmoved : ∀ y ∈ c.childrenOfKind k, (moved y).kind = k) :
    (c.children.map (exchange k cur moved)).filter (·.kind == k) =
      (c.childrenOfKind k).map moved := by
  have hkind : ∀ y ∈ c.children, (exchange k cur moved y).kind = y.kind := by
    intro y hy
    rw [exchange]
    split_ifs with h
    · exact (hmoved y (List.mem_filter.mpr ⟨hy, h⟩)).trans (beq_iff_eq.mp h).symm
    · exact hcur y hy
  rw [filter_map_children hkind]
  exact List.map_congr_left fun y hy => if_pos (List.mem_filter.mp hy).2

theorem sameEdges_exchange
    (h : ∀ y ∈ c.childrenOfKind k, Element.SameEdges (cur y) (moved y)) :
    List.Forall₂ Element.SameEdges (c.children.map cur) (c.children.map (exchange k cur moved)) := by
  rw [List.forall₂_map_left_iff, List.forall₂_map_right_iff, List.forall₂_same]
  intro y hy
  rw [exchange]
  split_ifs with hkind
  · exact h y (List.mem_filter.mpr ⟨hy, hkind⟩)
  · exact .refl _

theorem tally_exchange {β : Type} {tally : Element → List β}
    (h : ((c.childrenOfKind k).flatMap fun y => tally (moved y)).Perm
      ((c.childrenOfKind k).flatMap fun y => tally (cur y))) :
    ((c.children.map (exchange k cur moved)).flatMap tally).Perm
      ((c.children.map cur).flatMap tally) := by
  have hnew : ∀ y, tally (exchange k cur moved y) =
      if y.kind == k then tally (moved y) else tally (cur y) := fun y => apply_ite tally _ _ _
  rw [List.flatMap_map, List.flatMap_map]
  simp only [hnew]
  exact flatMap_exchange_perm h

end Exchange

/-! ### Items -/

/-- The pattern of an item. -/
def pattern? (item : Cursor) : Option Cursor := item.children.head?

/-- What has become of an item with a name: its pattern, and what else is in it. -/
structure IsItem (disabled : DisabledRegions) (item : Cursor) (e : Element) (p : Cursor)
    (q : Element) (rest : List Element) : Prop where
  element : e = .node .switchCaseItem (q :: rest)
  pattern : pattern? item = some p
  intact : Intact disabled p q
  name : patternName q = itemName item.element
  leaves : q.leaves ≠ []

/-- An item with a name still has its pattern when the switches below it were sorted. -/
theorem exists_isItem {item : Cursor} (hshaped : item.element.Shaped)
    (hkind : item.kind = .switchCaseItem) (hname : itemName item.element ≠ "")
    (h : Intact disabled item e) : ∃ p q rest, IsItem disabled item e p q rest := by
  cases hitem : item.element with
  | token t => rw [hitem] at hname; exact absurd rfl hname
  | node k es =>
    rw [Cursor.kind, hitem] at hkind
    have hk : k = .switchCaseItem := hkind
    obtain ⟨es', rfl, hall⟩ := h.exists_children hitem (by rw [hk]; decide)
    rw [hitem] at hname hshaped
    have hchildren := item.map_element_children
    rw [hitem] at hchildren
    cases es with
    | nil => exact absurd rfl hname
    | cons f fs =>
      obtain ⟨p, ps, hp, hpf, -⟩ := List.map_eq_cons_iff.mp hchildren
      rw [hp, List.forall₂_cons_left_iff] at hall
      obtain ⟨q, rest, hq, -, rfl⟩ := hall
      have hpShaped := (Element.shapedAll_iff _).mp ((Element.shaped_node k _).mp hshaped).2 f
        List.mem_cons_self
      have hpName : patternName q = patternName f := patternName_eq f hpf hpShaped hq
      refine ⟨p, q, rest, ⟨by rw [hk], by rw [pattern?, hp]; rfl, hq, hpName.trans (by rw [hitem]; rfl),
        leaves_ne_nil_of_patternName q ?_⟩⟩
      rw [hpName]
      exact hname

/-- The order of the items of a label by their names. -/
def sortedItems (items : List Cursor) : List Cursor :=
  items.mergeSort fun a b => itemName a.element ≤ itemName b.element

theorem sortedItems_perm (items : List Cursor) : (sortedItems items).Perm items :=
  List.mergeSort_perm items _

/-- Every item gets the pattern that comes into its place when the names are in order. -/
theorem exists_sortPatterns_map (items : List Cursor) (slot : Cursor → Nat) (q : Cursor → Element)
    (rest : Cursor → List Element) (hnodup : items.Nodup) :
    ∃ source : Cursor → Cursor, items.map source = sortedItems items ∧
      sortPatterns (items.map fun item => itemName item.element)
          (items.map fun item => (slot item, .node .switchCaseItem (q item :: rest item))) =
        .ok (items.map fun item => (slot item, .node .switchCaseItem
          ((q (source item)).transplantTrivia (q item) :: rest item))) := by
  have hlength : items.length = (sortedItems items).length := (sortedItems_perm items).length_eq.symm
  obtain ⟨source, hsource, -⟩ := exists_map_of_forall₂ hnodup
    (List.forall₂_iff_zip.mpr ⟨hlength, fun _ => trivial⟩ :
      List.Forall₂ (fun _ _ => True) items (sortedItems items))
  refine ⟨source, hsource.symm, ?_⟩
  have hpatterns : (items.map fun item => (slot item, Element.node .switchCaseItem
      (q item :: rest item))).mapM (fun x => childAt x.2 0) = .ok (items.map q) := by
    rw [List.mapM_map]
    exact Except.mapM_eq_ok fun item _ => rfl
  have hsorted : (((items.map fun item => itemName item.element).zip (items.map q)).mergeSort
      fun a b => a.1 ≤ b.1).map (·.2) = items.map fun item => q (source item) := by
    rw [List.zip_map', ← List.map_mergeSort (r := fun a b => itemName a.element ≤ itemName b.element)
      fun a _ b _ => rfl, List.map_map]
    have hmap := congrArg (List.map q) hsource
    rw [List.map_map] at hmap
    exact hmap
  simp only [sortPatterns, hpatterns, bind, Except.bind, hsorted]
  rw [List.zip_map', List.zip_map', List.mapM_map]
  exact Except.mapM_eq_ok fun item _ => rfl

/-! ### Labels -/

/-- The items of a label, which is the element `e` now, have the patterns `ps`. -/
def HasPatterns (disabled : DisabledRegions) (ps : List Cursor) (e : Element) : Prop :=
  List.Forall₂ (fun p item => ∃ q, item.children.head? = some q ∧ Intact disabled p q) ps
    (e.children.filter (·.kind == .switchCaseItem))

section Label

variable {label : Cursor} {cur : Cursor → Element}

/-- What has become of the items of a label with names. -/
theorem exists_isItem_of_intact (hshaped : label.element.Shaped)
    (hnames : ∀ item ∈ items label, itemName item.element ≠ "")
    (hcur : ∀ y ∈ label.children, Intact disabled y (cur y)) :
    ∃ (p : Cursor → Cursor) (q : Cursor → Element) (rest : Cursor → List Element),
      ∀ item ∈ items label, IsItem disabled item (cur item) (p item) (q item) (rest item) := by
  have hitem : ∀ item ∈ items label, ∃ p q rest, IsItem disabled item (cur item) p q rest := by
    intro item hitem
    obtain ⟨hmem, hkind⟩ := List.mem_filter.mp hitem
    exact exists_isItem (shaped_of_mem_children hshaped hmem) (by simpa using hkind)
      (hnames item hitem) (hcur item hmem)
  choose! p q rest hitem using hitem
  exact ⟨p, q, rest, hitem⟩

theorem filterMap_pattern? {xs : List Cursor} {p : Cursor → Cursor}
    (h : ∀ item ∈ xs, pattern? item = some (p item)) : xs.filterMap pattern? = xs.map p := by
  rw [List.filterMap_congr h, List.filterMap_eq_map']

/-- The items of a label have their own patterns before they are sorted. -/
theorem hasPatterns_of_intact (hshaped : label.element.Shaped)
    (hnames : ∀ item ∈ items label, itemName item.element ≠ "")
    (hcur : ∀ y ∈ label.children, Intact disabled y (cur y)) :
    HasPatterns disabled ((items label).filterMap pattern?)
      (.node .switchCaseLabel (label.children.map cur)) := by
  obtain ⟨p, q, rest, hitem⟩ := exists_isItem_of_intact hshaped hnames hcur
  rw [HasPatterns, Element.children, filter_map_children fun y hy => (hcur y hy).kind_eq,
    filterMap_pattern? fun item h => (hitem item h).pattern]
  show List.Forall₂ _ ((items label).map _) ((items label).map _)
  rw [List.forall₂_map_left_iff, List.forall₂_map_right_iff, List.forall₂_same]
  intro item h
  exact ⟨q item, by rw [(hitem item h).element]; rfl, (hitem item h).intact⟩

/-- Items that exchange their patterns yield together what they did before. -/
theorem tally_rotate {β : Type} {tally : Element → List β} (htally : IsTally tally)
    {source : Cursor → Cursor} {q moved : Cursor → Element} {rest : Cursor → List Element}
    (hsource : (items label).map source = sortedItems (items label))
    (hmoved : ∀ item, moved item = .node .switchCaseItem
      ((q (source item)).transplantTrivia (q item) :: rest item))
    (hcur : ∀ item ∈ items label, cur item = .node .switchCaseItem (q item :: rest item))
    (hpattern : ∀ item ∈ items label,
      ((q (source item)).transplantTrivia (q item)).unspaced = (q (source item)).unspaced) :
    ((items label).flatMap fun item => tally (moved item)).Perm
      ((items label).flatMap fun item => tally (cur item)) := by
  have hbefore : (items label).flatMap (fun item => tally (cur item)) =
      (items label).flatMap fun item => tally (q item) ++ (rest item).flatMap tally := by
    refine List.flatMap_congr fun item h => ?_
    rw [hcur item h, htally.node _ (by decide), List.flatMap_cons]
  have hafter : (items label).flatMap (fun item => tally (moved item)) =
      (items label).flatMap fun item => tally (q (source item)) ++ (rest item).flatMap tally := by
    refine List.flatMap_congr fun item h => ?_
    rw [hmoved, htally.node _ (by decide), List.flatMap_cons, htally.unspaced (hpattern item h)]
  have hrotate : ((items label).flatMap fun item => tally (q (source item))).Perm
      ((items label).flatMap fun item => tally (q item)) := by
    rw [← List.flatMap_map source fun item => tally (q item), hsource]
    exact (sortedItems_perm _).flatMap_right _
  rw [hbefore, hafter]
  have hsplit := List.flatMap_append_perm (items label) (fun item => tally (q (source item)))
    fun item => (rest item).flatMap tally
  have hjoin := List.flatMap_append_perm (items label) (fun item => tally (q item))
    fun item => (rest item).flatMap tally
  exact (hsplit.symm.trans (hrotate.append_right _)).trans hjoin

/-- What comes into the place of an item is an item. -/
theorem mem_items_of_sorted {source : Cursor → Cursor}
    (hsource : (items label).map source = sortedItems (items label)) :
    ∀ item ∈ items label, source item ∈ items label := by
  intro item h
  have hmap := List.mem_map_of_mem (f := source) h
  rw [hsource] at hmap
  exact (sortedItems_perm _).mem_iff.mp hmap

/-- The items of a label with the pattern of another one in each of them. -/
theorem exists_sortLabel_source {p : Cursor → Cursor} {q : Cursor → Element}
    {rest : Cursor → List Element}
    (hitem : ∀ item ∈ items label, IsItem disabled item (cur item) (p item) (q item) (rest item)) :
    ∃ source : Cursor → Cursor, (items label).map source = sortedItems (items label) ∧
      ∃ found sorted, ((items label).mapM fun item => do
          return (item.index, ← childAt (.node .switchCaseLabel (label.children.map cur)) item.index) :
            Except Fault _) = .ok found ∧
        sortPatterns ((items label).map fun item => itemName item.element)
          (found.filter (·.2.token?.isNone)) = .ok sorted ∧
        sorted.foldl (fun es x => es.set x.1 x.2) (label.children.map cur) =
          label.children.map (exchange .switchCaseItem cur fun item =>
            .node .switchCaseItem ((q (source item)).transplantTrivia (q item) :: rest item)) := by
  have hfound : ((items label).mapM fun item => do
      return (item.index, ← childAt (.node .switchCaseLabel (label.children.map cur)) item.index) :
        Except Fault _) =
      .ok ((items label).map fun item => (item.index, .node .switchCaseItem (q item :: rest item))) := by
    refine Except.mapM_eq_ok fun item h => ?_
    rw [childAt_map_children _ cur (List.mem_filter.mp h).1, (hitem item h).element]
    rfl
  have hfilter : ((items label).map fun item => (item.index, Element.node .switchCaseItem
      (q item :: rest item))).filter (·.2.token?.isNone) =
      (items label).map fun item => (item.index, .node .switchCaseItem (q item :: rest item)) := by
    refine List.filter_eq_self.mpr fun x hx => ?_
    obtain ⟨item, -, rfl⟩ := List.mem_map.mp hx
    rfl
  obtain ⟨source, hsource, hsorted⟩ := exists_sortPatterns_map (items label) Cursor.index q rest
    (label.children_nodup.filter _)
  refine ⟨source, hsource, _, _, hfound, hfilter ▸ hsorted, ?_⟩
  exact Cursor.foldl_set_map_children ..

/-- **Sorting the items of a label**: every item gets the pattern that comes into its place, and all
else stays. -/
theorem exists_sortLabel_map (hshaped : label.element.Shaped)
    (hnames : ∀ item ∈ items label, itemName item.element ≠ "")
    (hcur : ∀ y ∈ label.children, Intact disabled y (cur y))
    (hclear : (Element.node .switchCaseLabel (label.children.map cur)).comments = []) :
    ∃ found sorted new, ((items label).mapM fun item => do
        return (item.index, ← childAt (.node .switchCaseLabel (label.children.map cur)) item.index) :
          Except Fault _) = .ok found ∧
      sortPatterns ((items label).map fun item => itemName item.element)
        (found.filter (·.2.token?.isNone)) = .ok sorted ∧
      sorted.foldl (fun es x => es.set x.1 x.2) (label.children.map cur) = label.children.map new ∧
      Resorted (.node .switchCaseLabel (label.children.map cur))
        (.node .switchCaseLabel (label.children.map new)) ∧
      HasPatterns disabled ((sortedItems (items label)).filterMap pattern?)
        (.node .switchCaseLabel (label.children.map new)) := by
  obtain ⟨p, q, rest, hitem⟩ := exists_isItem_of_intact hshaped hnames hcur
  obtain ⟨source, hsource, found, sorted, hfound, hsorted, hfold⟩ := exists_sortLabel_source hitem
  have hmem : ∀ item ∈ items label, source item ∈ items label := mem_items_of_sorted hsource
  -- the label has no comments, so none is at the edges of its patterns
  have hedges : ∀ item ∈ items label, (q item).ClearEdges := by
    intro item h
    have hcomments : (cur item).comments = [] := Element.comments_eq_nil_of_mem hclear
      (List.mem_map_of_mem (List.mem_filter.mp h).1)
    rw [(hitem item h).element] at hcomments
    exact .of_comments (Element.comments_eq_nil_of_mem hcomments List.mem_cons_self)
  have hpattern : ∀ item ∈ items label,
      ((q (source item)).transplantTrivia (q item)).unspaced = (q (source item)).unspaced :=
    fun item h => Element.unspaced_transplantTrivia (hedges _ (hmem item h)) (hedges item h)
  refine ⟨found, sorted, _, hfound, hsorted, hfold, ⟨?_, ?_⟩, ?_⟩
  · refine .node _ (sameEdges_exchange fun item h => ?_)
    rw [(hitem item h).element]
    exact .node _ (.cons (Element.sameEdges_transplantTrivia (hitem _ (hmem item h)).leaves
      (hitem item h).leaves) (List.forall₂_same.mpr fun e _ => .refl e))
  · intro β tally htally
    rw [htally.node _ (by decide), htally.node _ (by decide)]
    exact tally_exchange (tally_rotate htally hsource (fun _ => rfl)
      (fun item h => (hitem item h).element) hpattern)
  · rw [HasPatterns, Element.children, filter_map_exchange
      (fun y hy => (hcur y hy).kind_eq) (fun item _ => by rfl),
      filterMap_pattern? fun item h => (hitem item ((sortedItems_perm _).mem_iff.mp h)).pattern,
      ← hsource, List.map_map]
    show List.Forall₂ _ ((items label).map _) ((items label).map _)
    rw [List.forall₂_map_left_iff, List.forall₂_map_right_iff, List.forall₂_same]
    intro item h
    exact ⟨(q (source item)).transplantTrivia (q item), rfl,
      (hitem _ (hmem item h)).intact.of_unspaced (hpattern item h)⟩

end Label

end SortedSwitchCases

end SwiftTidy
