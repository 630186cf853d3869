import SwiftTidy.Proofs.Rules.SortedTrees
import SwiftTidy.Proofs.Rules.Statements

/-!
# Labels whose items stay in order

A switch that is corrected gets all of its labels sorted, and whether it is corrected is asked at one
position: that of the switch if its cases are out of order, else that of the first label with items out
of order (`disorder?`).  So the items of a label stay as they are exactly when they are in order anyway,
or when the rule is disabled at that position, or when the switch cannot be corrected at all
(`items_stay_iff`).  That the rule is disabled at the label itself does not count unless this is the
position that is asked for (`items_stay_iff_disabled`).
-/

namespace SwiftTidy

namespace SortedSwitchCases

variable {source : String} {tree : Element} {disabled : DisabledRegions} {c d switch : Cursor}

/-! ### Where a switch is corrected -/

theorem leaves_ne_nil_of_mem_children {p x : Cursor} (hx : x ∈ p.children)
    (h : x.element.leaves ≠ []) : p.element.leaves ≠ [] := by
  obtain ⟨front, e, back, hchildren, rfl⟩ := Cursor.exists_of_mem_children hx
  cases hp : p.element with
  | token t => rw [hp] at hchildren; simp [Element.children] at hchildren
  | node k es =>
    have hes : es = front ++ e :: back := by rw [← hchildren, hp]; rfl
    have he : e.leaves ≠ [] := h
    rw [Element.leaves_node, hes, Element.leavesAll_append, Element.leavesAll_cons]
    simp [he]

theorem leaves_ne_nil_of_itemName {item : Element} (h : itemName item ≠ "") : item.leaves ≠ [] := by
  cases item with
  | token t => simp
  | node k es =>
    cases es with
    | nil => exact absurd rfl h
    | cons q rest =>
      have hq : q.leaves ≠ [] := leaves_ne_nil_of_patternName q h
      rw [Element.leaves_node, Element.leavesAll_cons]
      simp [hq]

/-- A place in a file that is not empty starts within the range of every node above it. -/
theorem position_mem_range (hparse : parse source = .ok tree) {x : Cursor} {k : SyntaxKind}
    (hc : c ∈ (Cursor.root tree).descendants) (hx : x ∈ c.descendants) (hkind : x.kind = k)
    (hk : k.isToken = false ∧ k ≠ .sourceFile) (hleaves : x.element.leaves ≠ []) :
    c.position ≤ x.position ∧ x.position < c.endPosition := by
  have hbelow := Cursor.mem_descendants_trans hc hx
  have hkinded := wellKinded_of_mem_descendants hparse hbelow
  obtain ⟨es, hnode⟩ := exists_node_of_kind hkinded hkind hk.1
  obtain ⟨t, ts, hfirst⟩ := List.exists_cons_of_ne_nil hleaves
  have hcut := isCut_of_mem_statement hparse hbelow (by rw [hnode]; rfl) (hkind ▸ hk.2) t
    (by rw [hfirst]; exact List.mem_cons_self)
  exact Cursor.position_bounds (wellKinded_of_mem_descendants hparse hc) hkinded hx hfirst hcut.len_pos

/-- The disorder of a switch that can be sorted lies in its range. -/
theorem disorder?_mem_range (hparse : parse source = .ok tree)
    (hc : c ∈ (Cursor.root tree).descendants) (hkind : c.kind = .switchExpr)
    (hreorder : canReorder (cases c) = true) {p : Nat} (h : disorder? c (cases c) = some p) :
    c.position ≤ p ∧ p < c.endPosition := by
  rw [disorder?] at h
  split_ifs at h with hsorted
  · obtain ⟨l, hl, rfl⟩ := Option.map_eq_some_iff.mp h
    obtain ⟨x, hx, hl⟩ := List.exists_of_findSome?_eq_some hl
    obtain ⟨hx, hunsorted⟩ := List.mem_filter.mp hx
    obtain ⟨hnode, -, hlabel⟩ := mem_cases hx
    obtain ⟨hmem, hlKind⟩ := hlabel l hl
    refine position_mem_range hparse hc (Cursor.mem_descendants_trans
      (Cursor.mem_descendants_of_mem_children hnode) (Cursor.mem_descendants_of_mem_children hmem))
      hlKind ⟨rfl, by decide⟩ ?_
    -- items that are out of order are not empty, since they have names
    have hnames := names_of_mem_cases hx hl
    cases hitems : items l with
    | nil =>
      rw [hitems, List.map_nil] at hnames
      rw [Case.itemsSorted, hnames] at hunsorted
      exact absurd hunsorted (by decide)
    | cons item rest =>
      have hitem : item ∈ items l := by rw [hitems]; exact List.mem_cons_self
      have hname : itemName item.element ∈ x.names := hnames ▸ List.mem_map_of_mem hitem
      have hdistinct := (Bool.and_eq_true_iff.mp hreorder).2
      exact leaves_ne_nil_of_mem_children (List.mem_filter.mp hitem).1 (leaves_ne_nil_of_itemName
        (ne_empty_of_namesDistinct hdistinct _ (List.mem_flatMap.mpr ⟨x, hx, hname⟩)))
  · cases h
    refine position_mem_range hparse hc (Cursor.mem_descendants_self c) hkind ⟨rfl, by decide⟩ ?_
    obtain ⟨es, hnode⟩ := exists_node_of_kind (wellKinded_of_mem_descendants hparse hc) hkind rfl
    have hshaped := shaped_of_mem_descendants hparse hc
    rw [hnode] at hshaped ⊢
    obtain ⟨t, ht⟩ := (((Element.shaped_node _ es).mp hshaped).1.switch rfl).1
    obtain ⟨rest, rfl⟩ := List.head?_eq_some_iff.mp ht
    rw [Element.leaves_node, Element.leavesAll_cons, Element.leaves_token]
    simp

/-- Nothing is corrected at a switch that cannot be sorted, or whose disorder lies where the rule is
disabled. -/
theorem recordedAt_eq_nil_iff (hparse : parse source = .ok tree) (hdisabled : disabled.IsSeparated)
    (hc : c ∈ (Cursor.root tree).descendants) (hkind : c.kind = .switchExpr) :
    recordedAt disabled c = [] ↔ (canReorder (cases c) = true →
      ∀ p, disorder? c (cases c) = some p → disabled.isSuppressed p = true) := by
  by_cases hreorder : canReorder (cases c) = true
  · have hrecorded : recordedAt disabled c = (disorder? c (cases c)).toList.filter
        fun p => Fix.isAllowed ⟨c.element, p, [], none⟩ disabled c := if_pos ⟨hkind, hreorder⟩
    rw [hrecorded, List.filter_eq_nil_iff]
    simp only [hreorder, forall_const, Option.mem_toList]
    refine forall_congr' fun p => forall_congr' fun hp => ?_
    rw [Fix.isAllowed_eq hdisabled (disorder?_mem_range hparse hc hkind hreorder hp),
      Bool.not_eq_true', Bool.not_eq_false]
  · rw [recordedAt, if_neg fun h => hreorder h.2]
    simp [hreorder]

/-! ### Switches that are left alone -/

/-- The place `d` shows what has become of the place `c`. -/
def Follows (disabled : DisabledRegions) (c d : Cursor) : Prop := Intact disabled c d.element

/-- The items of a case have the patterns that they had before, in the same order. -/
def ItemsStay (disabled : DisabledRegions) (x y : Case) : Prop :=
  List.Forall₂ (Follows disabled) x.patterns y.patterns

theorem Follows.kind_eq (h : Follows disabled c d) : d.kind = c.kind := Intact.kind_eq h

/-- Below a place that was not sorted the children follow one by one. -/
theorem Follows.children (h : Follows disabled c d)
    (hc : c.kind = .switchExpr → recordedAt disabled c = []) :
    List.Forall₂ (Follows disabled) c.children d.children := by
  have hall : ∀ es, d.element.children = es → List.Forall₂ (Intact disabled) c.children es →
      List.Forall₂ (Follows disabled) c.children d.children := fun es hes h =>
    forall₂_of_map_element h (by rw [Cursor.map_element_children, hes])
  have hintact : Intact disabled c d.element := h
  cases hd : d.element with
  | token t =>
    rw [hd] at hintact
    cases hintact with
    | token hs _ =>
      refine hall [] (by rw [hd]; rfl) ?_
      rw [Cursor.children, hs]
      exact .nil
  | node k es =>
    refine hall es (by rw [hd]; rfl) ?_
    rw [hd] at hintact
    cases hintact with
    | node _ hes => exact hes
    | sorted hs hrecorded _ _ _ =>
      refine absurd (hc ?_) hrecorded
      rw [Cursor.kind, hs]
      rfl

/-- Children of some kinds follow one by one. -/
theorem forall₂_filter_kind (test : SyntaxKind → Bool) {xs ys : List Cursor}
    (h : List.Forall₂ (Follows disabled) xs ys) :
    List.Forall₂ (Follows disabled) (xs.filter (test ·.kind)) (ys.filter (test ·.kind)) :=
  List.rel_filter (fun x y hxy => by
    show test x.kind = true ↔ test y.kind = true
    rw [hxy.kind_eq]) h

theorem rel_head? {xs ys : List Cursor} (h : List.Forall₂ (Follows disabled) xs ys) :
    Option.Rel (Follows disabled) xs.head? ys.head? := by
  cases h with
  | nil => exact .none
  | cons hxy _ => exact .some hxy

theorem rel_filterMap_pattern? {xs ys : List Cursor}
    (h : List.Forall₂ (fun i j => Option.Rel (Follows disabled) (pattern? i) (pattern? j)) xs ys) :
    List.Forall₂ (Follows disabled) (xs.filterMap pattern?) (ys.filterMap pattern?) := by
  induction h with
  | nil => exact .nil
  | @cons i j _ _ hij _ ih =>
    rw [List.filterMap_cons, List.filterMap_cons]
    generalize pattern? i = p at hij ⊢
    generalize pattern? j = q at hij ⊢
    cases hij with
    | none => exact ih
    | some hpq => exact .cons hpq ih

/-- The patterns of an item and its name follow the item. -/
theorem Follows.item (h : Follows disabled c d) (hkind : c.kind = .switchCaseItem)
    (hshaped : c.element.Shaped) :
    Option.Rel (Follows disabled) (pattern? c) (pattern? d) ∧
      itemName d.element = itemName c.element := by
  have hhead := rel_head? (h.children fun hswitch => by rw [hkind] at hswitch; cases hswitch)
  refine ⟨hhead, ?_⟩
  rw [itemName, itemName, ← Cursor.map_element_children, ← Cursor.map_element_children,
    List.head?_map, List.head?_map]
  have hname : ∀ {p q : Option Cursor}, Option.Rel (Follows disabled) p q →
      (∀ x ∈ p, x.element.Shaped) →
      ((q.map Cursor.element).map patternName).getD "" =
        ((p.map Cursor.element).map patternName).getD "" := by
    intro p q hpq hp
    cases hpq with
    | none => rfl
    | some hfollows => exact patternName_eq _ rfl (hp _ rfl) hfollows
  exact hname hhead fun x hx => shaped_of_mem_children hshaped (List.mem_of_head? hx)

/-- A case of a switch that was not sorted has its items in the order in which they were. -/
theorem sameCase_of_follows {x y : Case} (hx : x ∈ cases c) (hy : y ∈ cases d)
    (hshaped : x.node.element.Shaped) (h : Follows disabled x.node y.node) :
    SameCase disabled x y ∧ ItemsStay disabled x y := by
  have hchildren := h.children fun hswitch => by rw [(mem_cases hx).2.1] at hswitch; cases hswitch
  have hbody := forall₂_filter_kind (· != .switchCaseLabel) hchildren
  have hlabel := rel_head? (forall₂_filter_kind (· == .switchCaseLabel) hchildren)
  rw [List.head?_filter, List.head?_filter] at hlabel
  have hlabel : Option.Rel (Follows disabled) x.label y.label := by
    rw [label_of_mem_cases hx, label_of_mem_cases hy]
    exact hlabel
  cases hl : x.label with
  | none =>
    cases hl' : y.label with
    | some l' => rw [hl, hl'] at hlabel; cases hlabel
    | none =>
      have hstay : ItemsStay disabled x y := by
        rw [ItemsStay, (patterns_of_default hx hl).1, (patterns_of_default hy hl').1]
        exact .nil
      refine ⟨⟨?_, ⟨_, .refl _, hstay⟩, hbody⟩, hstay⟩
      rw [Case.key, Case.key, hl, hl']
      rfl
  | some l =>
    cases hl' : y.label with
    | none => rw [hl, hl'] at hlabel; cases hlabel
    | some l' =>
      rw [hl, hl'] at hlabel
      cases hlabel with
      | some hfollows =>
        -- both have a label, and the items of these correspond one by one
        obtain ⟨hmem, hlKind⟩ := (mem_cases hx).2.2 l hl
        have hlShaped := shaped_of_mem_children hshaped hmem
        have hitems : List.Forall₂ (Follows disabled) (items l) (items l') :=
          forall₂_filter_kind (· == .switchCaseItem)
            (hfollows.children fun hswitch => by rw [hlKind] at hswitch; cases hswitch)
        have hitem : List.Forall₂ (fun i j => Option.Rel (Follows disabled) (pattern? i) (pattern? j) ∧
            itemName j.element = itemName i.element) (items l) (items l') :=
          forall₂_imp_of_mem hitems fun i hi j _ hij => by
            obtain ⟨hi, hkind⟩ := List.mem_filter.mp hi
            exact hij.item (by simpa using hkind) (shaped_of_mem_children hlShaped hi)
        have hnames : y.names = x.names := by
          rw [names_of_mem_cases hx hl, names_of_mem_cases hy hl', eq_comm,
            ← List.forall₂_eq_eq_eq, List.forall₂_map_left_iff, List.forall₂_map_right_iff]
          exact hitem.imp fun _ _ h => h.2.symm
        have hstay : ItemsStay disabled x y := by
          rw [ItemsStay, patterns_of_label hl, patterns_of_label hl']
          exact rel_filterMap_pattern? (hitem.imp fun _ _ h => h.1)
        refine ⟨⟨?_, ⟨_, .refl _, hstay⟩, hbody⟩, hstay⟩
        rw [Case.key, Case.key, hl, hl', hnames]
        rfl

/-- In a switch that was not sorted all items stay. -/
theorem itemsStay_of_follows (hshaped : c.element.Shaped) (h : Follows disabled c d)
    (hc : recordedAt disabled c = []) :
    List.Forall₂ (fun x y => SameCase disabled x y ∧ ItemsStay disabled x y) (cases c) (cases d) := by
  have hnodes := forall₂_filter_kind (· == .switchCase) (h.children fun _ => hc)
  rw [show c.children.filter (·.kind == .switchCase) = (cases c).map Case.node from
      (map_node_cases c).symm,
    show d.children.filter (·.kind == .switchCase) = (cases d).map Case.node from
      (map_node_cases d).symm, List.forall₂_map_left_iff, List.forall₂_map_right_iff] at hnodes
  exact forall₂_imp_of_mem hnodes fun x hx y hy hxy =>
    sameCase_of_follows hx hy (shaped_of_mem_children hshaped (mem_cases hx).1) hxy

/-! ### Switches that are sorted -/

theorem nodup_of_namesDistinct : ∀ {names : List String}, namesDistinct names = true → names.Nodup
  | [], _ => .nil
  | n :: names, h => by
    rw [namesDistinct, Bool.and_eq_true, Bool.and_eq_true, Bool.not_eq_true', List.contains_eq_mem,
      decide_eq_false_iff_not] at h
    exact List.nodup_cons.mpr ⟨h.1.2, nodup_of_namesDistinct h.2⟩

/-- The patterns of a case with names have these names. -/
theorem map_patternName_of_names {x : Case} (hx : x ∈ cases c) (hnames : ∀ n ∈ x.names, n ≠ "") :
    x.patterns.map (fun p => patternName p.element) = x.names := by
  cases hl : x.label with
  | none =>
    obtain ⟨hpatterns, hnone⟩ := patterns_of_default hx hl
    rw [hpatterns, hnone, List.map_nil]
  | some l =>
    rw [names_of_mem_cases hx hl] at hnames ⊢
    rw [patterns_of_label hl]
    exact map_patternName_patterns fun item hitem => hnames _ (List.mem_map_of_mem hitem)

/-- The names of the patterns of a case are names of the case. -/
theorem map_patternName_sublist {x : Case} (hx : x ∈ cases c) :
    (x.patterns.map fun p => patternName p.element).Sublist x.names := by
  cases hl : x.label with
  | none =>
    rw [(patterns_of_default hx hl).1]
    exact List.nil_sublist _
  | some l =>
    rw [names_of_mem_cases hx hl, patterns_of_label hl]
    generalize items l = xs
    induction xs with
    | nil => exact List.nil_sublist _
    | cons item xs ih =>
      rw [List.filterMap_cons, List.map_cons]
      cases hp : pattern? item with
      | none => exact ih.cons _
      | some p =>
        rw [itemName_eq hp]
        exact ih.cons_cons _

/-- What follows a pattern has its name. -/
theorem map_patternName_of_follows {ps qs : List Cursor} (hshaped : ∀ p ∈ ps, p.element.Shaped)
    (h : List.Forall₂ (Follows disabled) ps qs) :
    qs.map (fun p => patternName p.element) = ps.map (fun p => patternName p.element) := by
  rw [eq_comm, ← List.forall₂_eq_eq_eq, List.forall₂_map_left_iff, List.forall₂_map_right_iff]
  exact forall₂_imp_of_mem h fun p hp q _ hpq => (patternName_eq p.element rfl (hshaped p hp) hpq).symm

/-- In a switch that was sorted the items of a case stay exactly when they were in order. -/
theorem itemsStay_iff_itemsSorted {x y : Case} (hshaped : c.element.Shaped)
    (hreorder : canReorder (cases c) = true) (hx : x ∈ cases c) (hy : y ∈ cases d)
    (h : SameCase disabled x y) (hsorted : y.names.Pairwise (· ≤ ·)) :
    ItemsStay disabled x y ↔ x.itemsSorted = true := by
  have hdistinct := (Bool.and_eq_true_iff.mp hreorder).2
  have hxShaped := shaped_of_mem_children hshaped (mem_cases hx).1
  have hnames := map_patternName_of_names hx fun n hn =>
    ne_empty_of_namesDistinct hdistinct n (List.mem_flatMap.mpr ⟨x, hx, hn⟩)
  have hpatterns : (y.patterns.map fun p => patternName p.element).Pairwise (· ≤ ·) :=
    hsorted.sublist (map_patternName_sublist hy)
  constructor
  · intro hstay
    rw [map_patternName_of_follows (fun p hp => shaped_of_mem_patterns hx hxShaped hp) hstay,
      hnames] at hpatterns
    exact isSorted_of_pairwise hpatterns
  · intro hitems
    obtain ⟨ps, hperm, hps⟩ := h.patterns
    have hps : List.Forall₂ (Follows disabled) ps y.patterns := hps
    rw [map_patternName_of_follows (fun p hp => shaped_of_mem_patterns hx hxShaped
      (hperm.mem_iff.mp hp)) hps, List.pairwise_map] at hpatterns
    have hbefore := pairwise_of_isSorted hitems
    rw [← hnames, List.pairwise_map] at hbefore
    -- no two patterns have the same name, so there is one order in which the names ascend
    have hinj : ∀ p ∈ x.patterns, ∀ q ∈ x.patterns, patternName p.element = patternName q.element →
        p = q := by
      have hnodup : (x.patterns.map fun p => patternName p.element).Nodup :=
        hnames ▸ (nodup_of_namesDistinct hdistinct).sublist
          (List.sublist_flatten_of_mem (List.mem_map_of_mem hx))
      exact fun p hp q hq heq => List.inj_on_of_nodup_map hnodup hp hq heq
    have hsame : ps = x.patterns := hperm.eq_of_pairwise (fun p q hp hq hpq hqp =>
      hinj p (hperm.mem_iff.mp hp) q hq (le_antisymm hpq hqp)) hpatterns hbefore
    rw [ItemsStay, ← hsame]
    exact hps

/-! ### The pass -/

theorem exists_of_mem_forall₂ {α β : Type} {R : α → β → Prop} {xs : List α} {ys : List β}
    (h : List.Forall₂ R xs ys) {x : α} (hx : x ∈ xs) : ∃ y ∈ ys, R x y := by
  induction h with
  | nil => cases hx
  | @cons a b _ _ hab _ ih =>
    rcases List.mem_cons.mp hx with rfl | hx
    · exact ⟨b, List.mem_cons_self, hab⟩
    · obtain ⟨y, hy, hxy⟩ := ih hx
      exact ⟨y, List.mem_cons_of_mem _ hy, hxy⟩

/-- **Which labels keep their items**: the cases of the switches of a file are those of the switches of
the result, one for one, and the items of a case stay in their order exactly when they are in order
already, or the switch cannot be sorted, or the rule is disabled at the one position at which the
disorder of the switch is corrected. -/
theorem items_stay_iff {u : SourceUnit} (h : SourceUnit.ofText source = .ok u) :
    ∃ outcome, fixer.run () (u.disabledRegions description) u.tree = .ok outcome ∧
      ∃ pairs : List (Cursor × Cursor), pairs.map Prod.fst = u.root.switches ∧
        (pairs.map Prod.snd).Perm (Cursor.root outcome.tree).switches ∧
        ∀ p ∈ pairs, ∃ xs : List Case, xs.Perm (cases p.1) ∧
          List.Forall₂ (fun x y => SameCase (u.disabledRegions description) x y ∧
            (ItemsStay (u.disabledRegions description) x y ↔ x.itemsSorted = true ∨
              canReorder (cases p.1) = false ∨ ∀ position, disorder? p.1 (cases p.1) = some position →
                (u.disabledRegions description).isSuppressed position = true)) xs (cases p.2) := by
  have hparse := SourceUnit.parse_of_ofText h
  obtain ⟨outcome, hrun, -, pairs, hfst, hsnd, hpairs⟩ :=
    switches_correspond hparse (u.disabledRegions description)
  refine ⟨outcome, hrun, pairs, hfst, hsnd, fun p hp => ?_⟩
  obtain ⟨hintact, hsorted⟩ := hpairs p hp
  have hswitch : p.1 ∈ (Cursor.root u.tree).switches := hfst ▸ List.mem_map_of_mem hp
  obtain ⟨hmem, hkind⟩ := List.mem_filter.mp hswitch
  have hshaped := shaped_of_mem_descendants hparse hmem
  have hrecorded : recordedAt (u.disabledRegions description) p.1 = [] ↔
      canReorder (cases p.1) = false ∨ ∀ position, disorder? p.1 (cases p.1) = some position →
        (u.disabledRegions description).isSuppressed position = true := by
    rw [recordedAt_eq_nil_iff hparse (SourceUnit.disabledRegions_isSeparated h description) hmem
      (by simpa using hkind), imp_iff_not_or, Bool.not_eq_true]
  by_cases hnone : recordedAt (u.disabledRegions description) p.1 = []
  · exact ⟨cases p.1, .refl _, (itemsStay_of_follows hshaped hintact hnone).imp fun x y hxy =>
      ⟨hxy.1, iff_of_true hxy.2 (.inr (hrecorded.mp hnone))⟩⟩
  · obtain ⟨hswitch, -⟩ := hsorted hnone
    obtain ⟨xs, hperm, hcases⟩ := hswitch.cases
    have hreorder : canReorder (cases p.1) = true := by
      by_contra hreorder
      exact hnone (hrecorded.mpr (.inl (Bool.not_eq_true _ ▸ hreorder)))
    refine ⟨xs, hperm, forall₂_imp_of_mem hcases fun x hx y hy hxy => ⟨hxy, ?_⟩⟩
    rw [← hrecorded, or_iff_left hnone]
    exact itemsStay_iff_itemsSorted hshaped hreorder (hperm.mem_iff.mp hx) hy hxy
      (hswitch.names y hy)

/-- A switch with two labels whose items are out of order, and the rule disabled at the second. -/
def disabledLabel : String :=
  "switch x \x7b\ncase .b, .a:\n  // swiftlint:disable sorted_switch_cases\n  f()\ncase .d, .c:\n  // swiftlint:enable sorted_switch_cases\n  g()\n\x7d\n"

/-- What decides over the items of a switch: whether it is sorted, and the names of each case with
whether the rule is disabled at its label. -/
def overview (disabled : DisabledRegions) (c : Cursor) : Bool × List (List String × Option Bool) :=
  (canReorder (cases c) && (disorder? c (cases c)).any (!disabled.isSuppressed ·),
    (cases c).map fun x => (x.names, x.label.map fun l => disabled.isSuppressed l.position))

/-- The items of a label at which the rule is disabled do not stay: the disorder of the switch is
corrected at the other label. -/
theorem items_stay_iff_disabled : ∃ u outcome, SourceUnit.ofText disabledLabel = .ok u ∧
    fixer.run () (u.disabledRegions description) u.tree = .ok outcome ∧
    ∃ c ∈ u.root.switches, ∃ d ∈ (Cursor.root outcome.tree).switches,
      ∃ x ∈ cases c, ∃ y ∈ cases d, x.names = ["d", "c"] ∧
        x.label.map (fun l => (u.disabledRegions description).isSuppressed l.position) = some true ∧
        SameCase (u.disabledRegions description) x y ∧
        ¬ ItemsStay (u.disabledRegions description) x y := by
  have hmap : (SourceUnit.ofText disabledLabel).toOption.map (fun u =>
      u.root.switches.map (overview ((Regions.ofCommands (Command.expandAll u.commands
        u.lineIndex)).disabledRegions description.identifiers))) =
      some [(true, [(["b", "a"], some false), (["d", "c"], some true)])] := by
    simp only [Command.expandAll_eq_insertionSort]
    decide +kernel
  obtain ⟨u, hu, hswitches⟩ := Option.map_eq_some_iff.mp hmap
  have h : SourceUnit.ofText disabledLabel = .ok u := Except.toOption_eq_some.mp hu
  rw [← (SourceUnit.regions_eq h).2] at hswitches
  obtain ⟨c, rest, hc, hoverview, -⟩ := List.map_eq_cons_iff.mp hswitches
  have hoverview : overview (u.disabledRegions description) c = _ := hoverview
  obtain ⟨hsorted, hcases⟩ := Prod.mk.inj hoverview
  obtain ⟨x, hx, hnames⟩ : ∃ x ∈ cases c, (x.names, x.label.map fun l =>
      (u.disabledRegions description).isSuppressed l.position) = (["d", "c"], some true) := by
    refine List.mem_map.mp (?_ : _ ∈ (cases c).map _)
    rw [hcases]
    exact List.mem_cons_of_mem _ List.mem_cons_self
  obtain ⟨hnames, hlabel⟩ := Prod.mk.inj hnames
  obtain ⟨outcome, hrun, pairs, hfst, hsnd, hpairs⟩ := items_stay_iff h
  obtain ⟨p, hp, hpc⟩ : ∃ p ∈ pairs, p.1 = c := by
    refine List.mem_map.mp (?_ : c ∈ pairs.map Prod.fst)
    rw [hfst, hc]
    exact List.mem_cons_self
  subst hpc
  obtain ⟨xs, hperm, hxs⟩ := hpairs p hp
  obtain ⟨y, hy, hsame, hstay⟩ := exists_of_mem_forall₂ hxs (hperm.mem_iff.mpr hx)
  refine ⟨u, outcome, h, hrun, p.1, hc ▸ List.mem_cons_self, p.2,
    hsnd.mem_iff.mp (List.mem_map_of_mem hp), x, hx, y, hy, hnames, hlabel, hsame, ?_⟩
  rw [hstay, not_or, not_or]
  rw [Bool.and_eq_true, Option.any_eq_true] at hsorted
  obtain ⟨hreorder, position, hposition, hsuppressed⟩ := hsorted
  refine ⟨by rw [Case.itemsSorted, hnames]; decide, by rw [hreorder]; decide, fun hall => ?_⟩
  rw [hall position hposition] at hsuppressed
  cases hsuppressed

end SortedSwitchCases

end SwiftTidy
