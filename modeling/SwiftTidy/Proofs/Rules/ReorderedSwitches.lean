import SwiftTidy.Proofs.Rules.SortedTrees
import SwiftTidy.Proofs.Rules.SwitchBlocks
import SwiftTidy.Proofs.Tree.EdgeEdits

/-!
# Reading what a pass over switches leaves

What a pass leaves of a file is its tree with the parts in the order of the plan, trivia apart
(`exists_run`): by induction along the pass, at every place but a label, whose patterns come into order with
the cases of the switch above (`Settled`).  As every part takes over the trivia of its place, tokens meet that
did not before.  Where they stay `Apart`, the text that is left is read into the tree that is left
(`parse_run_of_apart`).
-/

namespace SwiftTidy

namespace SortedSwitchCases

variable {source : String} {tree : Element} {disabled : DisabledRegions} {P : Plan} {c x y : Cursor}
  {e e' : Element} {k : SyntaxKind} {cur : Cursor → Element}

/-! ### What the plan makes of a place -/

/-- The element at a place with the parts of all blocks in order. -/
def planned (P : Plan) (c : Cursor) : Element := c.element.moved P c.offset

theorem movedAll_eq_map (P : Plan) (c : Cursor) (i o : Nat) (es : List Element) :
    Element.movedAll P o es = (Cursor.childrenFrom c i o es).map (planned P) := by
  induction es generalizing i o with
  | nil => simp [Cursor.childrenFrom]
  | cons e es ih =>
    rw [Element.movedAll_cons, Cursor.childrenFrom, List.map_cons, ih]
    rfl

/-- No block stands behind the children of a place at which nothing is sorted. -/
theorem block?_eq_none (hrecorded : recordedAt disabled c = [])
    (hlabel : c.kind = .switchCaseLabel → isSortedLabel disabled c = false) (hy : y ∈ c.children) :
    block? disabled y = none := by
  obtain ⟨front, e, back, -, rfl⟩ := Cursor.exists_of_mem_children hy
  by_cases hkind : c.kind = .switchCaseLabel
  · simp [block?, hrecorded, hlabel hkind]
  · by_cases hswitch : c.kind = .switchExpr
    · simp [block?, hrecorded, hswitch]
    · refine block?_of_ne (.inl (Element.opens_eq_false ?_ e))
      rw [SyntaxKind.hasParts, beq_eq_false_iff_ne.mpr hswitch, beq_eq_false_iff_ne.mpr hkind]
      rfl

/-- The children of such a place stay where they are. -/
theorem planned_of_block?_eq_none (h : parse source = .ok tree) (hc : c ∈ (Cursor.root tree).descendants)
    {es : List Element} (hnode : c.element = .node k es)
    (hnone : ∀ y ∈ c.children, block? disabled y = none) :
    planned (plan disabled tree) c = .node k (c.children.map (planned (plan disabled tree))) := by
  have htells : Tells _ disabled c c.children := tells_plan h hc
  have hkind : c.kind = k := congrArg Element.kind hnode
  have hes : c.element.children = es := congrArg Element.children hnode
  rw [Cursor.children, hes] at htells hnone
  rw [planned, hnode, Element.moved_node, ← hkind, Element.movedIn_of_shut (shut_childrenFrom htells hnone),
    movedAll_eq_map _ c 0, Cursor.children, hes]

theorem stripped_node_map {new : Cursor → Element} (k : SyntaxKind)
    (h : ∀ y ∈ c.children, (cur y).stripped = (new y).stripped) :
    (Element.node k (c.children.map cur)).stripped = (Element.node k (c.children.map new)).stripped := by
  rw [Element.stripped_node, Element.stripped_node, Element.strippedAll_eq_map, Element.strippedAll_eq_map,
    List.map_map, List.map_map]
  exact congrArg _ (List.map_congr_left h)

theorem fullLen_node_children {es : List Element} (hnode : c.element = .node k es)
    (h : ∀ y ∈ c.children, (cur y).fullLen = y.element.fullLen) :
    (Element.node k (c.children.map cur)).fullLen = c.element.fullLen := by
  rw [hnode, Cursor.eq_map_element_children hnode, Element.fullLen, Element.fullLen,
    ← Element.sum_map_fullLen, ← Element.sum_map_fullLen, List.map_map, List.map_map]
  exact congrArg _ (List.map_congr_left h)

/-! ### What is left to the switch above -/

/-- What the pass has made of a place, as far as the place itself decides it: all parts below it are in
their order, but the patterns of a label, also of that of a case, are left to the switch above. -/
inductive Settled (disabled : DisabledRegions) (P : Plan) : Cursor → Element → Prop where
  | done {c : Cursor} {e' : Element} (hcase : c.kind ≠ .switchCase) (hlabel : c.kind ≠ .switchCaseLabel)
      (hbecomes : Becomes disabled c e') (hstripped : e'.stripped = (planned P c).stripped)
      (hlength : e'.fullLen = c.element.fullLen) : Settled disabled P c e'
  | left {c : Cursor} {k : SyntaxKind} {es : List Element} {cur : Cursor → Element}
      (hkind : k = .switchCase ∨ k = .switchCaseLabel) (hc : c.element = .node k es)
      (hcur : ∀ y ∈ c.children, Settled disabled P y (cur y)) :
      Settled disabled P c (.node k (c.children.map cur))

namespace Settled

theorem becomes (h : Settled disabled P c e') : Becomes disabled c e' := by
  induction h with
  | done _ _ hbecomes => exact hbecomes
  | left _ hc _ ih => exact becomes_node hc ih

theorem fullLen (h : Settled disabled P c e') : e'.fullLen = c.element.fullLen := by
  induction h with
  | done _ _ _ _ hlength => exact hlength
  | left _ hc _ ih => exact fullLen_node_children hc ih

/-- What has become of a case or a label. -/
theorem exists_children (h : Settled disabled P c e')
    (hkind : c.kind = .switchCase ∨ c.kind = .switchCaseLabel) :
    ∃ cur, e' = .node c.kind (c.children.map cur) ∧ ∀ y ∈ c.children, Settled disabled P y (cur y) := by
  cases h with
  | done hcase hlabel => exact absurd hkind (not_or.mpr ⟨hcase, hlabel⟩)
  | left _ hc hcur =>
    refine ⟨_, ?_, hcur⟩
    rw [Cursor.kind, hc]
    rfl

theorem stripped_of_ne (h : Settled disabled P c e') (hcase : c.kind ≠ .switchCase)
    (hlabel : c.kind ≠ .switchCaseLabel) : e'.stripped = (planned P c).stripped := by
  cases h with
  | done _ _ _ hstripped => exact hstripped
  | left hkind hc =>
    rw [Cursor.kind, hc] at hcase hlabel
    exact absurd hkind (not_or.mpr ⟨hcase, hlabel⟩)

end Settled

/-- No patterns are sorted in a place that is a label, or in the labels of a place that is a case. -/
structure Still (disabled : DisabledRegions) (c : Cursor) : Prop where
  label : c.kind = .switchCaseLabel → isSortedLabel disabled c = false
  case : c.kind = .switchCase → ∀ l ∈ c.children, isSortedLabel disabled l = false

/-- Patterns are sorted in the labels of cases only. -/
theorem isSortedLabel_of_kind (hkind : c.kind ≠ .switchCase) (hy : y ∈ c.children) :
    isSortedLabel disabled y = false := by
  obtain ⟨front, e, back, -, rfl⟩ := Cursor.exists_of_mem_children hy
  cases c with
  | root e => rfl
  | child p i o e =>
    have hne : (e.kind == .switchCase) = false := beq_eq_false_iff_ne.mpr hkind
    rw [isSortedLabel, hne, Bool.and_false]
    rfl

/-- Patterns are sorted in the cases of a switch that is sorted only. -/
theorem isSortedLabel_of_recordedAt (hrecorded : recordedAt disabled c = []) (hx : x ∈ c.children)
    (hy : y ∈ x.children) : isSortedLabel disabled y = false := by
  obtain ⟨front, e, back, -, rfl⟩ := Cursor.exists_of_mem_children hx
  obtain ⟨front', e', back', -, rfl⟩ := Cursor.exists_of_mem_children hy
  rw [isSortedLabel, hrecorded]
  rfl

theorem Still.of_mem_children (hrecorded : recordedAt disabled c = [])
    (hcase : c.kind = .switchCase → ∀ l ∈ c.children, isSortedLabel disabled l = false)
    (hy : y ∈ c.children) : Still disabled y where
  label _ := by
    by_cases hkind : c.kind = .switchCase
    · exact hcase hkind y hy
    · exact isSortedLabel_of_kind hkind hy
  case _ l hl := isSortedLabel_of_recordedAt hrecorded hy hl

theorem recordedAt_of_kind (hkind : c.kind ≠ .switchExpr) : recordedAt disabled c = [] :=
  if_neg fun h => hkind h.1

/-- Where no patterns are left to the switch above, all parts are in their order. -/
theorem Settled.stripped (h : parse source = .ok tree) (hc : c ∈ (Cursor.root tree).descendants)
    (hsettled : Settled disabled (plan disabled tree) c e') (hstill : Still disabled c) :
    e'.stripped = (planned (plan disabled tree) c).stripped := by
  induction hsettled with
  | done _ _ _ hstripped => exact hstripped
  | @left c k es cur hkind hnode _ ih =>
    have hckind : c.kind = k := congrArg Element.kind hnode
    have hrecorded : recordedAt disabled c = [] := by
      refine recordedAt_of_kind ?_
      rw [hckind]
      rcases hkind with rfl | rfl <;> decide
    rw [planned_of_block?_eq_none h hc hnode fun y hy => block?_eq_none hrecorded hstill.label hy]
    exact stripped_node_map k fun y hy =>
      ih y hy (Cursor.mem_descendants_trans hc (Cursor.mem_descendants_of_mem_children hy))
        (.of_mem_children hrecorded hstill.case hy)

/-- A place at which nothing is sorted. -/
theorem Settled.node (h : parse source = .ok tree) (hc : c ∈ (Cursor.root tree).descendants)
    {es : List Element} (hnode : c.element = .node k es) (hrecorded : recordedAt disabled c = [])
    (hcur : ∀ y ∈ c.children, Settled disabled (plan disabled tree) y (cur y)) :
    Settled disabled (plan disabled tree) c (.node k (c.children.map cur)) := by
  have hckind : c.kind = k := congrArg Element.kind hnode
  by_cases hkind : k = .switchCase ∨ k = .switchCaseLabel
  · exact .left hkind hnode hcur
  · obtain ⟨hcase, hlabel⟩ := not_or.mp hkind
    refine .done (hckind ▸ hcase) (hckind ▸ hlabel) (becomes_node hnode fun y hy => (hcur y hy).becomes) ?_
      (fullLen_node_children hnode fun y hy => (hcur y hy).fullLen)
    rw [planned_of_block?_eq_none h hc hnode fun y hy =>
      block?_eq_none hrecorded (fun hl => absurd (hckind ▸ hl) hlabel) hy]
    exact stripped_node_map k fun y hy => (hcur y hy).stripped h
      (Cursor.mem_descendants_trans hc (Cursor.mem_descendants_of_mem_children hy))
      (.of_mem_children hrecorded (fun hl => absurd (hckind ▸ hl) hcase) hy)

/-! ### Parts that take over the trivia of their places -/

/-- Parts that come into each other's places and take over the outer trivia there are as long as before
together. -/
theorem sum_fullLen_transplantTrivia {α : Type} {xs : List α} {slot part source : α → Element}
    (hperm : (xs.map source).Perm (xs.map part)) (hleaves : ∀ x ∈ xs, (source x).leaves ≠ [])
    (hlen : ∀ x ∈ xs, (part x).len = (slot x).len) :
    (xs.map fun x => ((source x).transplantTrivia (slot x)).fullLen).sum =
      (xs.map fun x => (slot x).fullLen).sum := by
  have hsum : (xs.map fun x => (source x).len).sum = (xs.map fun x => (slot x).len).sum := by
    have hlens := (hperm.map Element.len).sum_eq
    rw [List.map_map, List.map_map] at hlens
    exact hlens.trans (congrArg _ (List.map_congr_left hlen))
  have hmoved : (xs.map fun x => ((source x).transplantTrivia (slot x)).fullLen) =
      xs.map fun x => ((slot x).leadingTrivia.len + (slot x).trailingTrivia.len) + (source x).len := by
    refine List.map_congr_left fun x hx => ?_
    rw [Element.fullLen_transplantTrivia (hleaves x hx)]
    omega
  have hslots : (xs.map fun x => (slot x).fullLen) =
      xs.map fun x => ((slot x).leadingTrivia.len + (slot x).trailingTrivia.len) + (slot x).len := by
    refine List.map_congr_left fun x _ => ?_
    have := ((slot x).len_add).1
    omega
  rw [hmoved, hslots, List.sum_map_add, hsum, ← List.sum_map_add]

/-- Children of one kind that are as long as before together. -/
theorem fullLen_node_exchange {new : Cursor → Element} (k j : SyntaxKind)
    (h : ((c.childrenOfKind j).map fun y => (new y).fullLen).sum =
      ((c.childrenOfKind j).map fun y => (cur y).fullLen).sum) :
    (Element.node k (c.children.map (exchange j cur new))).fullLen =
      (Element.node k (c.children.map cur)).fullLen := by
  have hnew : (c.children.map fun y => (exchange j cur new y).fullLen) =
      c.children.map fun y => if y.kind == j then (new y).fullLen else (cur y).fullLen :=
    List.map_congr_left fun y _ => apply_ite Element.fullLen _ _ _
  have hcur : (c.children.map fun y => (cur y).fullLen) =
      c.children.map fun y => if y.kind == j then (cur y).fullLen else (cur y).fullLen :=
    List.map_congr_left fun y _ => (ite_self _).symm
  rw [Element.fullLen, Element.fullLen, ← Element.sum_map_fullLen, ← Element.sum_map_fullLen, List.map_map,
    List.map_map, Function.comp_def, Function.comp_def, hnew, hcur, List.sum_map_ite, List.sum_map_ite]
  simp only [Bool.decide_eq_true]
  exact congrArg (· + _) h

/-! ### Parts in the order of their block -/

namespace Encloses

variable {front parts : List Element} {opener close : Token}

/-- The parts of a block are brought into its order, and all else stays. -/
theorem planned_of_block {b : Block} (h : Encloses disabled c front opener parts close)
    (htells : Tells P disabled c c.children)
    (hb : block? disabled (openerAt c front opener) = some b) :
    planned P c = .node c.kind ((Cursor.childrenFrom c 0 c.offset front).map (planned P) ++
      .token opener :: Element.arranged c.kind b
        ((placesBehind c front opener parts).map (planned P) ++
            [.token close])) := by
  obtain ⟨es, hnode⟩ : ∃ es, c.element = .node c.kind es := by
    have hchildren := h.children
    rw [Cursor.kind]
    cases hel : c.element with
    | token t =>
      rw [hel] at hchildren
      exact absurd hchildren.symm (by simp [Element.children])
    | node k es => exact ⟨es, rfl⟩
  have hes : es = c.element.children := (congrArg Element.children hnode).symm
  rw [h.children_eq] at htells
  obtain ⟨hfrontTells, htells⟩ := List.forall_mem_append.mp htells
  have hblock : Element.block? P c.kind
      (c.offset + Element.fullLenAll front + (Element.token opener).fullLen) (.token opener) = some b :=
    (htells _ List.mem_cons_self).trans hb
  rw [planned, hnode, Element.moved_node, hes, h.children,
    Element.movedIn_append (shut_childrenFrom hfrontTells h.ahead), Element.movedIn_of_block hblock,
    Element.moved_token, Element.movedAll_append, movedAll_eq_map P c 0,
    movedAll_eq_map P c (front.length + 1), Element.movedAll_cons, Element.moved_token, Element.movedAll_nil]

/-- A node whose parts of kind `j` are those of its block in order, and whose other children are in order. -/
theorem stripped_of_arranged {b : Block} {new : Cursor → Element} {j : SyntaxKind}
    (h : Encloses disabled c front opener parts close) (htells : Tells P disabled c c.children)
    (hb : block? disabled (openerAt c front opener) = some b) (hkinded : c.element.WellKinded)
    (hj : j.isToken = false) (hfront : ∀ e ∈ front, e.kind ≠ j)
    (hother : ∀ y ∈ c.children, y.kind ≠ j → (new y).stripped = (planned P y).stripped)
    (hparts : Element.strippedAll (Element.arranged c.kind b
        ((placesBehind c front opener parts).map (planned P) ++ [.token close])) =
      (placesBehind c front opener parts).map (fun y => (new y).stripped) ++
        [(Element.token close).stripped]) :
    (Element.node c.kind (c.children.map new)).stripped = (planned P c).stripped := by
  obtain ⟨z, hz, hchildren⟩ := h.exists_children_eq
  have htoken : ∀ y ∈ c.children, ∀ t, y.element = .token t →
      (new y).stripped = (Element.token t).stripped := by
    intro y hy t ht
    rw [hother y hy (kind_ne_of_token (Cursor.wellKinded_of_mem_children hkinded hy) ht hj), planned, ht,
      Element.moved_token]
  have hahead : (Cursor.childrenFrom c 0 c.offset front).map (fun y => (new y).stripped) =
      (Cursor.childrenFrom c 0 c.offset front).map fun y => (planned P y).stripped := by
    refine List.map_congr_left fun y hy => hother y ?_ ?_
    · rw [hchildren]
      exact List.mem_append_left _ hy
    · obtain ⟨before, e, behind, hsplit, rfl⟩ := Cursor.exists_of_mem_childrenFrom hy
      exact hfront e (hsplit ▸ List.mem_append_right _ List.mem_cons_self)
  have hopener : (new (openerAt c front opener)).stripped = (Element.token opener).stripped :=
    htoken _ (by rw [hchildren]; simp) opener rfl
  have hclose : (new z).stripped = (Element.token close).stripped :=
    htoken z (by rw [hchildren]; simp) close hz
  rw [h.planned_of_block htells hb, Element.stripped_node, Element.stripped_node,
    Element.strippedAll_append, Element.strippedAll_cons, hparts, hchildren, Element.strippedAll_eq_map,
    Element.strippedAll_eq_map]
  simp only [List.map_append, List.map_cons, List.map_map, List.map_nil, Function.comp_def, hahead, hopener,
    hclose]

end Encloses

/-- The patterns of a label whose items come into order. -/
theorem stripped_sortedLabel {l : Cursor} {source' p : Cursor → Cursor} {q : Cursor → Element}
    {rest : Cursor → List Element} (h : parse source = .ok tree)
    (hl : l ∈ (Cursor.root tree).descendants) (hkind : l.kind = .switchCaseLabel)
    (hsorted : isSortedLabel disabled l = true)
    (hcur : ∀ y ∈ l.children, Settled disabled (plan disabled tree) y (cur y))
    (hitem : ∀ item ∈ items l, IsItem disabled item (cur item) (p item) (q item) (rest item))
    (hsource : (items l).map source' = sortedItems (items l)) :
    (Element.node .switchCaseLabel (l.children.map (exchange .switchCaseItem cur fun item =>
      .node .switchCaseItem ((q (source' item)).transplantTrivia (q item) :: rest item)))).stripped =
      (planned (plan disabled tree) l).stripped := by
  have hkinded := wellKinded_of_mem_descendants h hl
  obtain ⟨keyword, fs, colon, hencloses, -, hitems⟩ := exists_encloses_of_label disabled
    (filled_of_mem_descendants h hl) hkinded hkind
  have htells : Tells (plan disabled tree) disabled l l.children := tells_plan h hl
  have hblock : block? disabled (openerAt l [] keyword) = some (itemBlock l) :=
    (block?_of_label hkind hencloses.opens).trans (if_pos hsorted)
  -- what the label holds is in order already
  have hstripped : ∀ y ∈ l.children, (cur y).stripped = (planned (plan disabled tree) y).stripped :=
    fun y hy => (hcur y hy).stripped h
      (Cursor.mem_descendants_trans hl (Cursor.mem_descendants_of_mem_children hy))
      (.of_mem_children (recordedAt_of_kind (by rw [hkind]; decide))
        (fun hcase => by rw [hkind] at hcase; cases hcase) hy)
  generalize plan disabled tree = P at htells hstripped ⊢
  have hmem : ∀ item ∈ items l, source' item ∈ items l := mem_items_of_sorted hsource
  have hchild : ∀ item ∈ items l, item ∈ l.children := fun item h => (List.mem_filter.mp h).1
  have harranged : (itemBlock l).arrange (((items l).map (planned P)).map (Element.part .switchCaseLabel)) =
      (items l).map fun item => Element.part .switchCaseLabel (planned P (source' item)) := by
    rw [List.map_map, arrange_itemBlock, ← hsource, List.map_map]
    rfl
  -- every item has the pattern that comes into its place
  have hmoved : ∀ item ∈ items l, (Element.withPart .switchCaseLabel (planned P item)
      (Element.part .switchCaseLabel (planned P (source' item)))).stripped =
        (exchange .switchCaseItem cur (fun item => .node .switchCaseItem
          ((q (source' item)).transplantTrivia (q item) :: rest item)) item).stripped := by
    intro item h
    rw [exchange, if_pos (List.mem_filter.mp h).2, Element.stripped_withPart, Element.stripped_part,
      ← hstripped item (hchild item h), ← hstripped _ (hchild _ (hmem item h)), ← Element.stripped_part,
      ← Element.stripped_withPart, (hitem item h).element, (hitem _ (hmem item h)).element]
    show (Element.node .switchCaseItem (q (source' item) :: rest item)).stripped = _
    rw [Element.stripped_node, Element.stripped_node, Element.strippedAll_cons, Element.strippedAll_cons,
      Element.stripped_transplantTrivia]
  rw [← hkind]
  refine hencloses.stripped_of_arranged (j := .switchCaseItem) htells hblock hkinded rfl
    (fun _ he => absurd he List.not_mem_nil) (fun y hy hykind => ?_) ?_
  · rw [exchange, if_neg (by rwa [beq_iff_eq]), hstripped y hy]
  · rw [hkind, ← hitems, Element.arranged, List.dropLast_concat, List.getLast?_concat, harranged,
      List.zipWith_map, List.zipWith_self, Element.strippedAll_append, Element.strippedAll_eq_map,
      List.map_map, ← List.map_congr_left hmoved]
    simp [Function.comp_def]

/-! ### The items of a case -/

/-- Patterns are sorted in the label of a case with its items out of order. -/
theorem isSortedLabel_iff {x : Case} (hrecorded : recordedAt disabled c ≠ []) (hx : x ∈ cases c)
    (hy : y ∈ x.node.children) :
    isSortedLabel disabled y = true ↔ x.label = some y ∧ x.itemsSorted = false := by
  obtain ⟨hnode, hkind, -⟩ := mem_cases hx
  obtain ⟨front, e, back, -, hchild⟩ := Cursor.exists_of_mem_children hnode
  obtain ⟨front', f, back', -, hplace⟩ := Cursor.exists_of_mem_children hy
  have hswitch : (recordedAt disabled c).isEmpty = false := by
    rwa [List.isEmpty_eq_false_iff]
  have hcase : (e.kind == .switchCase) = true := by
    rw [hchild] at hkind
    exact beq_iff_eq.mpr hkind
  have hnames : (f.children.filter (·.kind == .switchCaseItem)).map itemName =
      (items y).map fun item => itemName item.element := by
    rw [items, Cursor.childrenOfKind, ← Function.comp_def itemName Cursor.element, ← List.map_map,
      map_element_filter (· == .switchCaseItem), hplace]
    rfl
  have hindex : y.index = front'.length := by
    rw [hplace]
    rfl
  have hunfold : isSortedLabel disabled y = (x.label.any (·.index == y.index) &&
      !Case.itemsSorted.isSorted ((items y).map fun item => itemName item.element)) := by
    rw [label_of_mem_cases hx, hindex, ← hnames, hplace, hchild, isSortedLabel, hswitch, hcase]
    rfl
  rw [hunfold, Bool.and_eq_true, Option.any_eq_true, Bool.not_eq_true']
  constructor
  · rintro ⟨⟨l, hl, hsame⟩, hunsorted⟩
    have hmem := ((mem_cases hx).2.2 l hl).1
    obtain rfl : l = y := Option.some.inj ((Cursor.getElem?_index hmem).symm.trans
      (eq_of_beq hsame ▸ Cursor.getElem?_index hy))
    exact ⟨hl, by rw [Case.itemsSorted, names_of_mem_cases hx hl, hunsorted]⟩
  · rintro ⟨hl, hunsorted⟩
    rw [Case.itemsSorted, names_of_mem_cases hx hl] at hunsorted
    exact ⟨⟨y, hl, beq_self_eq_true _⟩, hunsorted⟩

/-- A label whose items are sorted is as long as before. -/
theorem fullLen_sortedLabel {l : Cursor} {source' p : Cursor → Cursor} {q : Cursor → Element}
    {rest : Cursor → List Element}
    (hitem : ∀ item ∈ items l, IsItem disabled item (cur item) (p item) (q item) (rest item))
    (hsource : (items l).map source' = sortedItems (items l)) :
    (Element.node .switchCaseLabel (l.children.map (exchange .switchCaseItem cur fun item =>
      .node .switchCaseItem ((q (source' item)).transplantTrivia (q item) :: rest item)))).fullLen =
      (Element.node .switchCaseLabel (l.children.map cur)).fullLen := by
  have hmem : ∀ item ∈ items l, source' item ∈ items l := mem_items_of_sorted hsource
  have hperm : ((items l).map fun item => q (source' item)).Perm ((items l).map q) := by
    have hmap := (sortedItems_perm (items l)).map q
    rwa [← hsource, List.map_map] at hmap
  have hsum := sum_fullLen_transplantTrivia hperm (fun item h => (hitem _ (hmem item h)).leaves)
    fun _ _ => rfl
  have hnode : ∀ (e : Element) (es : List Element),
      (Element.node .switchCaseItem (e :: es)).fullLen = e.fullLen + Element.fullLenAll es := fun e es => by
    rw [Element.fullLen, Element.fullLenAll]
  refine fullLen_node_exchange _ _ ?_
  show ((items l).map _).sum = ((items l).map _).sum
  rw [List.map_congr_left fun item h => show (cur item).fullLen = (q item).fullLen +
    Element.fullLenAll (rest item) by rw [(hitem item h).element, hnode]]
  simp only [hnode]
  rw [List.sum_map_add, List.sum_map_add, hsum]

/-- A case with its items in order has all its parts in their order. -/
theorem stripped_sortItems {x : Case} (h : parse source = .ok tree) (hc : c ∈ (Cursor.root tree).descendants)
    (hrecorded : recordedAt disabled c ≠ []) (hx : x ∈ cases c) (hnames : ∀ n ∈ x.names, n ≠ "")
    (hsettled : Settled disabled (plan disabled tree) x.node e) (hsort : sortItems x e = .ok e') :
    e'.stripped = (planned (plan disabled tree) x.node).stripped ∧ e'.fullLen = x.node.element.fullLen := by
  obtain ⟨hnode, hkind, hlabel⟩ := mem_cases hx
  have hdescendant := Cursor.mem_descendants_trans hc (Cursor.mem_descendants_of_mem_children hnode)
  have hdescendants : ∀ y ∈ x.node.children, y ∈ (Cursor.root tree).descendants := fun y hy =>
    Cursor.mem_descendants_trans hdescendant (Cursor.mem_descendants_of_mem_children hy)
  have hunrecorded : recordedAt disabled x.node = [] := recordedAt_of_kind (by rw [hkind]; decide)
  obtain ⟨cur, rfl, hcur⟩ := hsettled.exists_children (.inl hkind)
  obtain ⟨es, hes⟩ := exists_node_of_kind (wellKinded_of_mem_descendants h hdescendant) hkind rfl
  have hplanned : planned (plan disabled tree) x.node = _ := planned_of_block?_eq_none h hdescendant hes
    fun y hy => block?_eq_none hunrecorded (fun hl => by rw [hkind] at hl; cases hl) hy
  -- it is as its children are, and all but the label that is sorted are in their order already
  have hstill : ∀ y ∈ x.node.children, ¬ (x.label = some y ∧ x.itemsSorted = false) →
      (cur y).stripped = (planned (plan disabled tree) y).stripped := by
    intro y hy hne
    refine (hcur y hy).stripped h (hdescendants y hy) ⟨fun _ => ?_, fun _ l hl =>
      isSortedLabel_of_recordedAt hunrecorded hy hl⟩
    exact Bool.eq_false_of_not_eq_true fun hsorted => hne ((isSortedLabel_iff hrecorded hx hy).mp hsorted)
  rw [hkind] at hsort
  by_cases hsorted : ∃ l, x.label = some l ∧ x.itemsSorted = false
  · obtain ⟨l, hl, hunsorted⟩ := hsorted
    obtain ⟨hmem, hlKind⟩ := hlabel l hl
    obtain ⟨curl, hcurl, hcurls⟩ := (hcur l hmem).exists_children (.inr hlKind)
    rw [hlKind] at hcurl
    have hitems := names_of_mem_cases hx hl
    obtain ⟨p, q, rest, hitem⟩ := exists_isItem_of_intact (shaped_of_mem_descendants h (hdescendants l hmem))
      (fun item hitem => hnames _ (hitems ▸ List.mem_map_of_mem hitem))
      fun y hy => (hcurls y hy).becomes.intact
    obtain ⟨source', hsource, found, sorted, hfound, hpatterns, hfold⟩ := exists_sortLabel_source hitem
    rw [sortItems_eq hx hl hunsorted hcurl hfound hpatterns hfold, Except.ok.injEq] at hsort
    subst hsort
    have hstripped := stripped_sortedLabel h (hdescendants l hmem) hlKind
      ((isSortedLabel_iff hrecorded hx hmem).mpr ⟨hl, hunsorted⟩) hcurls hitem hsource
    have hlength := fullLen_sortedLabel hitem hsource
    rw [← hcurl] at hlength
    classical
    constructor
    · rw [hplanned]
      refine stripped_node_map _ fun y hy => ?_
      by_cases hyl : y = l
      · rw [hyl, Function.update_self, hstripped]
      · rw [Function.update_of_ne hyl]
        exact hstill y hy fun hlabel => hyl (Option.some.inj (hlabel.1.symm.trans hl))
    · refine fullLen_node_children hes fun y hy => ?_
      by_cases hyl : y = l
      · rw [hyl, Function.update_self, hlength, (hcur l hmem).fullLen]
      · rw [Function.update_of_ne hyl, (hcur y hy).fullLen]
  · have hsame : sortItems x (.node .switchCase (x.node.children.map cur)) =
        .ok (.node .switchCase (x.node.children.map cur)) := by
      cases hl : x.label with
      | none =>
        simp only [sortItems, hl]
        rfl
      | some l =>
        have hitemsSorted : x.itemsSorted = true := by
          rw [← Bool.not_eq_false]
          exact fun hunsorted => hsorted ⟨l, hl, hunsorted⟩
        simp only [sortItems, hl, hitemsSorted]
        rfl
    obtain rfl := Except.ok.inj (hsame.symm.trans hsort)
    constructor
    · rw [hplanned]
      exact stripped_node_map _ fun y hy => hstill y hy fun hlabel => hsorted ⟨y, hlabel⟩
    · exact fullLen_node_children hes fun y hy => (hcur y hy).fullLen

/-! ### The pass -/

/-- The cases of a switch that come into order. -/
theorem stripped_sortedSwitch {g : Case → Element} {source' : Cursor → Element}
    (h : parse source = .ok tree) (hc : c ∈ (Cursor.root tree).descendants) (hkind : c.kind = .switchExpr)
    (hrecorded : recordedAt disabled c ≠ [])
    (hcur : ∀ y ∈ c.children, Settled disabled (plan disabled tree) y (cur y))
    (hg : ∀ x ∈ cases c, (g x).stripped = (planned (plan disabled tree) x.node).stripped)
    (hsource : (c.childrenOfKind .switchCase).map source' = (sortedCases (cases c)).map g) :
    (Element.node .switchExpr (c.children.map (exchange .switchCase cur fun y =>
      (source' y).transplantTrivia (cur y)))).stripped = (planned (plan disabled tree) c).stripped := by
  have hkinded := wellKinded_of_mem_descendants h hc
  obtain ⟨front, brace, fs, close, hencloses, hlength, hfront, hcases⟩ := exists_encloses_of_switch disabled
    (filled_of_mem_descendants h hc) hkinded hkind
  have htells : Tells (plan disabled tree) disabled c c.children := tells_plan h hc
  have hblock : block? disabled (openerAt c front brace) = some (caseBlock c) :=
    (block?_of_switch hkind hlength hencloses.opens).trans (if_neg hrecorded)
  -- what is no case stays where it is
  have hother : ∀ y ∈ c.children, y.kind ≠ .switchCase →
      (cur y).stripped = (planned (plan disabled tree) y).stripped := fun y hy hykind =>
    (hcur y hy).stripped h (Cursor.mem_descendants_trans hc (Cursor.mem_descendants_of_mem_children hy))
      ⟨fun _ => isSortedLabel_of_kind (by rw [hkind]; decide) hy, fun hcase => absurd hcase hykind⟩
  generalize plan disabled tree = P at htells hother hg ⊢
  have hnodes : placesBehind c front brace fs = (cases c).map Case.node := by
    rw [map_node_cases, hcases]
  have harranged : (caseBlock c).arrange (((cases c).map Case.node).map (planned P)) =
      (sortedCases (cases c)).map fun x => planned P x.node := by
    rw [List.map_map, arrange_caseBlock]
    rfl
  -- into the place of every case comes the one that the order says
  have hmoved : ((cases c).map Case.node).map (fun y => (exchange .switchCase cur
      (fun y => (source' y).transplantTrivia (cur y)) y).stripped) =
        (sortedCases (cases c)).map fun x => (planned P x.node).stripped := by
    have hstripped := congrArg (List.map Element.stripped) hsource
    rw [List.map_map, List.map_map, ← map_node_cases] at hstripped
    rw [List.map_congr_left fun y hy => ?_, hstripped]
    · exact List.map_congr_left fun x hx => hg x ((sortedCases_perm _).mem_iff.mp hx)
    · rw [map_node_cases] at hy
      rw [Function.comp, exchange, if_pos (List.mem_filter.mp hy).2, Element.stripped_transplantTrivia]
  have hcount : ((placesBehind c front brace fs).map (planned P)).length = (caseBlock c).lens.length := by
    rw [List.length_map, hnodes, List.length_map, caseBlock, Block.sorting, List.length_map]
  rw [← hkind]
  refine hencloses.stripped_of_arranged htells hblock hkinded rfl hfront (fun y hy hykind => ?_) ?_
  · rw [exchange, if_neg (by rwa [beq_iff_eq]), hother y hy hykind]
  · rw [hkind, Element.arranged_switchExpr (isProper_caseBlock c) hcount, hnodes, harranged, hmoved,
      Element.strippedAll_append, Element.strippedAll_eq_map, List.map_map]
    simp [Function.comp_def]

/-- A switch whose cases come into order is as long as before. -/
theorem fullLen_sortedSwitch {g : Case → Element} {source' : Cursor → Element}
    (hleaves : ∀ x ∈ cases c, (g x).leaves ≠ []) (hlen : ∀ x ∈ cases c, (g x).len = (cur x.node).len)
    (hsource : (c.childrenOfKind .switchCase).map source' = (sortedCases (cases c)).map g) :
    (Element.node .switchExpr (c.children.map (exchange .switchCase cur fun y =>
      (source' y).transplantTrivia (cur y)))).fullLen =
      (Element.node .switchExpr (c.children.map cur)).fullLen := by
  have hnodes := map_node_cases c
  rw [← hnodes, List.map_map] at hsource
  have hmem : ∀ x ∈ cases c, ∃ x' ∈ cases c, source' x.node = g x' := by
    intro x hx
    have hx := List.mem_map_of_mem (f := source' ∘ Case.node) hx
    rw [hsource] at hx
    obtain ⟨x', hx', heq⟩ := List.mem_map.mp hx
    exact ⟨x', (sortedCases_perm _).mem_iff.mp hx', heq.symm⟩
  have hperm : ((cases c).map fun x => source' x.node).Perm ((cases c).map g) := by
    have hmap := (sortedCases_perm (cases c)).map g
    rwa [← hsource] at hmap
  refine fullLen_node_exchange _ _ ?_
  rw [← hnodes, List.map_map, List.map_map]
  show _ = ((cases c).map fun x => (cur x.node).fullLen).sum
  refine sum_fullLen_transplantTrivia hperm (fun x hx => ?_) hlen
  obtain ⟨x', hx', heq⟩ := hmem x hx
  rw [heq]
  exact hleaves x' hx'

/-- A switch with its cases in order has all its parts in their order. -/
theorem settled_sortCases {es : List Element} (h : parse source = .ok tree)
    (hc : c ∈ (Cursor.root tree).descendants) (hnode : c.element = .node .switchExpr es)
    (hreorder : canReorder (cases c) = true) (hrecorded : recordedAt disabled c ≠ [])
    (hcur : ∀ y ∈ c.children, Settled disabled (plan disabled tree) y (cur y))
    (hsort : sortCases (cases c) (.node .switchExpr (c.children.map cur)) = .ok e') :
    Settled disabled (plan disabled tree) c e' := by
  have hkinded := wellKinded_of_mem_descendants h hc
  have hshaped := shaped_of_mem_descendants h hc
  have hkind : c.kind = .switchExpr := congrArg Element.kind hnode
  have hbecomes : ∀ y ∈ c.children, Becomes disabled y (cur y) := fun y hy => (hcur y hy).becomes
  have hdistinct := (Bool.and_eq_true_iff.mp hreorder).2
  obtain ⟨g, hg⟩ := exists_areSorted hkinded hshaped hkind hreorder hbecomes
  obtain ⟨source', hsource, hsorted⟩ := hg.exists_source
  have hitems : ∀ x ∈ cases c, (g x).stripped = (planned (plan disabled tree) x.node).stripped ∧
      (g x).fullLen = x.node.element.fullLen := fun x hx =>
    stripped_sortItems h hc hrecorded hx
      (fun n hn => ne_empty_of_namesDistinct hdistinct n (List.mem_flatMap.mpr ⟨x, hx, hn⟩))
      (hcur _ (mem_cases hx).1) (hg.items x hx)
  have hbecome := becomes_of_sortCases hkinded hshaped hnode hreorder hrecorded hbecomes hsort
  obtain rfl := Except.ok.inj (hsorted.symm.trans hsort)
  have hlengths : ∀ x ∈ cases c, (g x).len = (cur x.node).len := fun x hx =>
    (hg.resorted x hx).edges.len_eq ((hitems x hx).2.trans (hcur _ (mem_cases hx).1).fullLen.symm)
  refine .done (by rw [hkind]; decide) (by rw [hkind]; decide) hbecome ?_ ?_
  · exact stripped_sortedSwitch h hc hkind hrecorded hcur (fun x hx => (hitems x hx).1) hsource
  · rw [fullLen_sortedSwitch (fun x hx => leaves_ne_nil_of_sameEdges (hg.resorted x hx).edges
      (hg.leaves x hx)) hlengths hsource]
    exact fullLen_node_children hnode fun y hy => (hcur y hy).fullLen

theorem settled_token {t : Token} (hkinded : c.element.WellKinded) (hc : c.element = .token t) :
    Settled disabled P c (.token t) := by
  exact .done (kind_ne_of_token hkinded hc rfl) (kind_ne_of_token hkinded hc rfl)
    (made_token hkinded hc).becomes (by rw [planned, hc, Element.moved_token]) (by rw [hc])

/-- At every place the pass settles what is there. -/
theorem makes_settled (h : parse source = .ok tree) (disabled : DisabledRegions)
    (hc : c ∈ (Cursor.root tree).descendants) :
    Fixer.Makes fixer disabled (fun c e' _ => Settled disabled (plan disabled tree) c e') c where
  token t ht := ⟨none, rfl, settled_token (wellKinded_of_mem_descendants h hc) ht⟩
  visit _ _ _ := rfl
  node k es ms hnode hms := by
    obtain ⟨cur, hcur, hsettled⟩ := Cursor.exists_map_children
      (List.forall₂_map_right_iff.mpr hms : List.Forall₂ (Settled disabled (plan disabled tree)) c.children
        (ms.map Prod.fst))
    rw [hcur]
    by_cases hcan : c.kind = .switchExpr ∧ canReorder (cases c) = true
    · obtain ⟨hkind, hreorder⟩ := hcan
      obtain rfl : k = .switchExpr := by
        rwa [Cursor.kind, hnode] at hkind
      obtain ⟨e', hsort, -⟩ := exists_sortCases_map (wellKinded_of_mem_descendants h hc)
        (shaped_of_mem_descendants h hc) hkind hreorder fun y hy => (hsettled y hy).becomes
      obtain ⟨f, hf, haccept⟩ := exists_fix hkind hreorder hsort
      refine ⟨f, hf, ?_⟩
      rw [haccept]
      split_ifs with hrecorded
      · exact .node h hc hnode hrecorded hsettled
      · exact settled_sortCases h hc hnode hreorder hrecorded hsettled hsort
    · obtain ⟨hnone, hrecorded⟩ := exists_fix_none disabled hcan
      exact ⟨none, hnone, .node h hc hnode hrecorded hsettled⟩

/-- **What a pass leaves**: the tree with the cases of the switches that are sorted and the patterns of their
labels in order, trivia apart, and as long as before. -/
theorem exists_run (h : parse source = .ok tree) (disabled : DisabledRegions) :
    ∃ outcome, fixer.run () disabled tree = .ok outcome ∧
      outcome.tree.stripped = (tree.moved (plan disabled tree) 0).stripped ∧
      outcome.tree.fullLen = tree.fullLen := by
  obtain ⟨-, items, last, hitems, -⟩ := shaped_parse h
  have hkind : (Cursor.root tree).kind = .sourceFile := by
    rw [hitems]
    rfl
  have hstripped : ∀ e', Settled disabled (plan disabled tree) (.root tree) e' →
      e'.stripped = (tree.moved (plan disabled tree) 0).stripped := fun e' hsettled =>
    hsettled.stripped_of_ne (by rw [hkind]; decide) (by rw [hkind]; decide)
  obtain ⟨ps, outcome, hrun, hsettled, -⟩ :=
    Fixer.made_run_of_not_token (fun c hc => makes_settled h disabled hc) fun t ps hsettled => by
      -- the file is a node, and so is what becomes of it
      have heq := hstripped _ hsettled
      rw [hitems, Element.moved_node, Element.stripped_node, Element.stripped_token] at heq
      cases heq
  exact ⟨outcome, hrun, hstripped _ hsettled, hsettled.fullLen⟩

/-! ### Reading what is left -/

/-- The tokens of a file and of what a pass leaves of it stay apart: the text that is left is cut into the
leaves of the tree that is left, and from each of them on it looks as it did before. -/
structure Apart (disabled : DisabledRegions) (tree tree' : Element) (ts us : Lexer.Tokens) : Prop where
  refines : Token.Refines (us.pending ++ [us.endOfFile]) tree'.leaves
  moves : Token.Moves (plan disabled tree) ⟨.file, Token.fullLenAll ts.pending, [], []⟩ true 0 ts.pending
    us.pending

/-- **What a pass leaves is read as it stands**: whatever is disabled, if the tokens stay apart when the
cases of switches and the items of their labels come into order, then the text that the pass leaves is read
into the very tree that it leaves. -/
theorem parse_run_of_apart {ts : Lexer.Tokens} (h : parse source = .ok tree)
    (hts : Lexer.tokens source = .ok ts) (disabled : DisabledRegions) :
    ∃ outcome, fixer.run () disabled tree = .ok outcome ∧
      ∀ us, Lexer.tokens outcome.tree.fullText = .ok us → Apart disabled tree outcome.tree ts us →
        parse outcome.tree.fullText = .ok outcome.tree := by
  obtain ⟨outcome, hrun, hstripped, hlength⟩ := exists_run h disabled
  exact ⟨outcome, hrun, fun us hus hapart => parse_of_moves h hts hlength hstripped
    (fun items t htree => conforms_items h htree) hus hapart.refines hapart.moves⟩

/-- The tokens of both switches stay apart when these are sorted. -/
theorem parse_run_of_apart_nested : ∃ tree ts outcome us,
    parse nestedSwitches = .ok tree ∧ Lexer.tokens nestedSwitches = .ok ts ∧
      fixer.run () .none tree = .ok outcome ∧ outcome.tree.fullText = nestedSwitchesSorted ∧
      Lexer.tokens outcome.tree.fullText = .ok us ∧ Apart .none tree outcome.tree ts us ∧
      parse outcome.tree.fullText = .ok outcome.tree := by
  have hmoves : ((parse nestedSwitches).toOption.bind fun tree =>
      (Lexer.tokens nestedSwitches).toOption.bind fun ts =>
        (Lexer.tokens nestedSwitchesSorted).toOption.map fun us =>
          Token.movesFrom (plan .none tree) (ts.pending.length + 1)
            ⟨.file, Token.fullLenAll ts.pending, [], []⟩ true 0 ts.pending us.pending) = some true := by
    decide +kernel
  obtain ⟨tree, htree, hmoves⟩ := Option.bind_eq_some_iff.mp hmoves
  obtain ⟨ts, hts, hmoves⟩ := Option.bind_eq_some_iff.mp hmoves
  obtain ⟨us, hus, hmoves⟩ := Option.map_eq_some_iff.mp hmoves
  have h := Except.toOption_eq_some.mp htree
  have hts := Except.toOption_eq_some.mp hts
  obtain ⟨outcome, hrun, hread⟩ := parse_run_of_apart h hts .none
  have hpass := pass_nestedSwitches
  rw [htree, hus, Option.bind_some, Option.bind_some, hrun] at hpass
  obtain ⟨-, hpass⟩ := Prod.mk.inj (Option.some.inj hpass)
  obtain ⟨htext, hleaves⟩ := Prod.mk.inj hpass
  have hus : Lexer.tokens outcome.tree.fullText = .ok us := htext ▸ Except.toOption_eq_some.mp hus
  have hapart : Apart .none tree outcome.tree ts us :=
    ⟨of_decide_eq_true hleaves ▸ .refl _, Token.moves_of_movesFrom hmoves⟩
  exact ⟨tree, ts, outcome, us, h, hts, hrun, htext, hus, hapart, hread us hus hapart⟩

end SortedSwitchCases

end SwiftTidy
