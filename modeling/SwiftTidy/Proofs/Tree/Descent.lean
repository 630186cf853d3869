import Mathlib.Data.List.Nodup
import SwiftTidy.Proofs.Tree.Places
import SwiftTidy.Tree.Walk

/-!
# Going down a tree

Cursors that were reached from a root by going down (`IsPlaced`) are told apart by their paths
(`eq_of_path_eq`), and no two places of a tree have the same one (`descendantsOf_nodup`).  The nodes
that a walk leaves one after another are the nodes of the tree (`postorderOf_perm`), and what every
step of a visitor keeps a walk keeps (`Visitor.walk_invariant`).
-/

namespace SwiftTidy

namespace Cursor

/-! ### Places -/

/-- Whether a cursor was reached from a root by going down to children. -/
def IsPlaced : Cursor → Prop
  | root _ => True
  | child p i o e => p.IsPlaced ∧ ∃ front back, p.element.children = front ++ e :: back ∧
      i = front.length ∧ o = p.offset + Element.fullLenAll front

theorem isPlaced_child {p : Cursor} {front back : List Element} {e : Element} (hp : p.IsPlaced)
    (h : p.element.children = front ++ e :: back) :
    (child p front.length (p.offset + Element.fullLenAll front) e).IsPlaced :=
  ⟨hp, front, back, h, rfl, rfl⟩

/-- Cursors into one tree with the same path are the same. -/
theorem eq_of_path_eq : ∀ {a b : Cursor}, a.IsPlaced → b.IsPlaced → a.rootElement = b.rootElement →
    a.path = b.path → a = b
  | root e, root f, _, _, hroot, _ => by
    rw [rootElement, rootElement] at hroot
    rw [hroot]
  | root e, child q j o f, _, _, _, hpath => by simp [path] at hpath
  | child p i o e, root f, _, _, _, hpath => by simp [path] at hpath
  | child p i o e, child q j o' f, ha, hb, hroot, hpath => by
    rw [path, path] at hpath
    obtain ⟨habove, hindex⟩ := List.append_inj' hpath rfl
    obtain ⟨hp, front, back, hfront, rfl, rfl⟩ := ha
    obtain ⟨hq, front', back', hfront', rfl, rfl⟩ := hb
    have hparent : p = q := eq_of_path_eq hp hq hroot habove
    subst hparent
    have hlength : front.length = front'.length := List.cons.inj hindex |>.1
    obtain ⟨rfl, hrest⟩ := List.append_inj (hfront.symm.trans hfront') hlength
    cases hrest
    rfl

mutual
theorem isPlaced_of_mem_descendantsOf : ∀ {e : Element} {c x : Cursor}, c.IsPlaced →
    c.element = e → x ∈ descendantsOf e c → x.IsPlaced ∧ x.rootElement = c.rootElement
  | .token t, c, x, hc, _, hx => by
    rw [descendantsOf, List.mem_singleton] at hx
    subst hx
    exact ⟨hc, rfl⟩
  | .node k es, c, x, hc, he, hx => by
    rw [descendantsOf, List.mem_cons] at hx
    rcases hx with rfl | hx
    · exact ⟨hc, rfl⟩
    · refine isPlaced_of_mem_descendantsOfAll es [] hc ?_ ?_
      · rw [he]; rfl
      · rwa [Element.fullLenAll]
theorem isPlaced_of_mem_descendantsOfAll : ∀ (es front : List Element) {p x : Cursor}, p.IsPlaced →
    p.element.children = front ++ es →
    x ∈ descendantsOfAll es p front.length (p.offset + Element.fullLenAll front) →
    x.IsPlaced ∧ x.rootElement = p.rootElement
  | [], front, p, x, _, _, hx => by
    rw [descendantsOfAll] at hx
    cases hx
  | e :: es, front, p, x, hp, hes, hx => by
    rw [descendantsOfAll, List.mem_append] at hx
    rcases hx with hx | hx
    · exact isPlaced_of_mem_descendantsOf
        (c := child p front.length (p.offset + Element.fullLenAll front) e)
        (isPlaced_child hp hes) rfl hx
    · refine isPlaced_of_mem_descendantsOfAll es (front ++ [e]) hp ?_ ?_
      · rw [hes, List.append_assoc]; rfl
      · rwa [List.length_append, Element.fullLenAll_append, Element.fullLenAll_singleton,
          ← Nat.add_assoc]
end

/-- The places of a tree were reached from its root. -/
theorem isPlaced_of_mem_descendants {tree : Element} {x : Cursor}
    (hx : x ∈ (root tree).descendants) : x.IsPlaced ∧ x.rootElement = tree :=
  isPlaced_of_mem_descendantsOf (c := root tree) trivial rfl hx

theorem eq_of_mem_descendants {tree : Element} {x y : Cursor} (hx : x ∈ (root tree).descendants)
    (hy : y ∈ (root tree).descendants) (hpath : x.path = y.path) : x = y := by
  obtain ⟨hx, hxroot⟩ := isPlaced_of_mem_descendants hx
  obtain ⟨hy, hyroot⟩ := isPlaced_of_mem_descendants hy
  exact eq_of_path_eq hx hy (hxroot.trans hyroot.symm) hpath

theorem exists_of_mem_childrenFrom {p x : Cursor} {i o : Nat} {es : List Element}
    (hx : x ∈ childrenFrom p i o es) : ∃ front e back, es = front ++ e :: back ∧
      x = child p (i + front.length) (o + Element.fullLenAll front) e := by
  induction es generalizing i o with
  | nil => cases hx
  | cons e es ih =>
    rw [childrenFrom, List.mem_cons] at hx
    rcases hx with rfl | hx
    · exact ⟨[], e, es, rfl, by rw [Element.fullLenAll]; rfl⟩
    · obtain ⟨front, f, back, rfl, rfl⟩ := ih hx
      refine ⟨e :: front, f, back, rfl, ?_⟩
      rw [List.length_cons, Element.fullLenAll, Nat.add_assoc i, Nat.add_comm 1, Nat.add_assoc o]

/-- A child of a place is one of the children of its element. -/
theorem exists_of_mem_children {c x : Cursor} (hx : x ∈ c.children) :
    ∃ front e back, c.element.children = front ++ e :: back ∧
      x = child c front.length (c.offset + Element.fullLenAll front) e := by
  obtain ⟨front, e, back, heq, rfl⟩ := exists_of_mem_childrenFrom hx
  exact ⟨front, e, back, heq, by rw [Nat.zero_add]⟩

theorem ancestors_of_mem_children {c x : Cursor} (hx : x ∈ c.children) :
    x.ancestors = c :: c.ancestors := by
  obtain ⟨front, e, back, -, rfl⟩ := exists_of_mem_children hx
  rw [ancestors]

theorem descendantsOfAll_append (es fs : List Element) (p : Cursor) (i o : Nat) :
    descendantsOfAll (es ++ fs) p i o = descendantsOfAll es p i o ++
      descendantsOfAll fs p (i + es.length) (o + Element.fullLenAll es) := by
  induction es generalizing i o with
  | nil => rw [List.nil_append, descendantsOfAll, Element.fullLenAll]; rfl
  | cons e es ih =>
    rw [List.cons_append, descendantsOfAll, descendantsOfAll, ih, List.append_assoc,
      List.length_cons, Element.fullLenAll, Nat.add_assoc o, Nat.add_assoc i, Nat.add_comm 1]

/-- What is below some children is what is below each of them. -/
theorem descendantsOfAll_eq_flatMap (p : Cursor) (i o : Nat) (es : List Element) :
    descendantsOfAll es p i o = (childrenFrom p i o es).flatMap descendants := by
  induction es generalizing i o with
  | nil => rw [descendantsOfAll, childrenFrom, List.flatMap_nil]
  | cons e es ih =>
    rw [descendantsOfAll, childrenFrom, List.flatMap_cons, ih]
    rfl

/-- A place, and what is below it child by child. -/
theorem descendants_eq (c : Cursor) : c.descendants = c :: c.children.flatMap descendants := by
  rw [children, ← descendantsOfAll_eq_flatMap, descendants]
  cases c.element with
  | token t => rw [descendantsOf]; rfl
  | node k es => rw [descendantsOf]; rfl

theorem mem_descendants_self (c : Cursor) : c ∈ c.descendants := by
  rw [descendants]
  cases c.element <;> rw [descendantsOf] <;> exact List.mem_cons_self

mutual
/-- What is below a place that is below `c` is below `c`. -/
theorem mem_descendantsOf_trans : ∀ {e : Element} {c x y : Cursor}, c.element = e →
    x ∈ descendantsOf e c → y ∈ x.descendants → y ∈ descendantsOf e c
  | .token t, c, x, y, hc, hx, hy => by
    rw [descendantsOf, List.mem_singleton] at hx
    rw [hx, descendants, hc] at hy
    exact hy
  | .node k es, c, x, y, hc, hx, hy => by
    rw [descendantsOf, List.mem_cons] at hx
    rcases hx with rfl | hx
    · rw [descendants, hc] at hy
      exact hy
    · rw [descendantsOf]
      exact List.mem_cons_of_mem c (mem_descendantsOfAll_trans hx hy)
theorem mem_descendantsOfAll_trans : ∀ {es : List Element} {p x y : Cursor} {i o : Nat},
    x ∈ descendantsOfAll es p i o → y ∈ x.descendants → y ∈ descendantsOfAll es p i o
  | [], p, x, y, i, o, hx, _ => by
    rw [descendantsOfAll] at hx
    cases hx
  | e :: es, p, x, y, i, o, hx, hy => by
    rw [descendantsOfAll, List.mem_append] at hx ⊢
    exact hx.imp (fun hx => mem_descendantsOf_trans rfl hx hy)
      fun hx => mem_descendantsOfAll_trans hx hy
end

theorem mem_descendants_trans {c x y : Cursor} (hx : x ∈ c.descendants) (hy : y ∈ x.descendants) :
    y ∈ c.descendants :=
  mem_descendantsOf_trans rfl hx hy

/-- A child of a place is below the place. -/
theorem mem_descendants_of_mem_children {c x : Cursor} (hx : x ∈ c.children) :
    x ∈ c.descendants := by
  obtain ⟨front, e, back, heq, rfl⟩ := exists_of_mem_children hx
  rw [descendants]
  cases hc : c.element with
  | token t => rw [hc] at heq; simp [Element.children] at heq
  | node k es =>
    rw [hc] at heq
    have heq : es = front ++ e :: back := heq
    rw [descendantsOf, heq, descendantsOfAll_append, descendantsOfAll, Nat.zero_add]
    exact List.mem_cons_of_mem _
      (List.mem_append_right _ (List.mem_append_left _ (mem_descendants_self (child c _ _ e))))

mutual
/-- What is below a place has a path that goes on from there. -/
theorem path_prefix_of_mem_descendantsOf : ∀ {e : Element} {c x : Cursor}, x ∈ descendantsOf e c →
    c.path <+: x.path
  | .token t, c, x, hx => by
    rw [descendantsOf, List.mem_singleton] at hx
    exact hx ▸ List.prefix_rfl
  | .node k es, c, x, hx => by
    rw [descendantsOf, List.mem_cons] at hx
    rcases hx with rfl | hx
    · exact List.prefix_rfl
    · obtain ⟨j, -, hj⟩ := path_prefix_of_mem_descendantsOfAll hx
      exact (List.prefix_append _ _).trans hj
theorem path_prefix_of_mem_descendantsOfAll : ∀ {es : List Element} {p x : Cursor} {i o : Nat},
    x ∈ descendantsOfAll es p i o → ∃ j, i ≤ j ∧ p.path ++ [j] <+: x.path
  | [], p, x, i, o, hx => by
    rw [descendantsOfAll] at hx
    cases hx
  | e :: es, p, x, i, o, hx => by
    rw [descendantsOfAll, List.mem_append] at hx
    rcases hx with hx | hx
    · exact ⟨i, Nat.le_refl i, path_prefix_of_mem_descendantsOf hx⟩
    · obtain ⟨j, hj, hpath⟩ := path_prefix_of_mem_descendantsOfAll hx
      exact ⟨j, by omega, hpath⟩
end

mutual
/-- The places of a tree have different paths. -/
theorem descendantsOf_nodup : ∀ (e : Element) (c : Cursor), ((descendantsOf e c).map path).Nodup
  | .token t, c => by
    rw [descendantsOf]
    exact List.pairwise_singleton _ _
  | .node k es, c => by
    rw [descendantsOf, List.map_cons, List.nodup_cons]
    refine ⟨fun hmem => ?_, descendantsOfAll_nodup es c 0 c.offset⟩
    -- what is below has a longer path
    obtain ⟨x, hx, hxpath⟩ := List.mem_map.mp hmem
    obtain ⟨j, -, hj⟩ := path_prefix_of_mem_descendantsOfAll hx
    have hlength := hj.length_le
    rw [hxpath, List.length_append, List.length_singleton] at hlength
    omega
theorem descendantsOfAll_nodup : ∀ (es : List Element) (p : Cursor) (i o : Nat),
    ((descendantsOfAll es p i o).map path).Nodup
  | [], p, i, o => by
    rw [descendantsOfAll]
    exact List.nodup_nil
  | e :: es, p, i, o => by
    rw [descendantsOfAll, List.map_append, List.nodup_append]
    refine ⟨descendantsOf_nodup e _, descendantsOfAll_nodup es p _ _, ?_⟩
    rintro a ha b hb rfl
    -- what is below different children differs at the index of the child
    obtain ⟨x, hx, hxpath⟩ := List.mem_map.mp ha
    obtain ⟨y, hy, hypath⟩ := List.mem_map.mp hb
    have hx := path_prefix_of_mem_descendantsOf hx
    obtain ⟨j, hj, hy⟩ := path_prefix_of_mem_descendantsOfAll hy
    rw [hxpath, path] at hx
    rw [hypath] at hy
    have hlength : (p.path ++ [i]).length = (p.path ++ [j]).length := by simp
    have heq := List.append_cancel_left
      ((List.prefix_of_prefix_length_le hx hy (Nat.le_of_eq hlength)).eq_of_length hlength)
    cases heq
    omega
end

mutual
/-- The nodes that a walk leaves are those of the tree, in another order. -/
theorem postorderOf_perm : ∀ (e : Element) (c : Cursor), c.element = e →
    (postorderOf e c).Perm ((descendantsOf e c).filter (·.token?.isNone))
  | .token t, c, hc => by
    rw [postorderOf, descendantsOf, List.filter_cons_of_neg (by simp [token?, hc, Element.token?])]
    exact List.Perm.nil
  | .node k es, c, hc => by
    rw [postorderOf, descendantsOf, List.filter_cons_of_pos (by simp [token?, hc, Element.token?])]
    exact (List.perm_append_singleton c _).trans ((postorderOfAll_perm es c 0 c.offset).cons c)
theorem postorderOfAll_perm : ∀ (es : List Element) (p : Cursor) (i o : Nat),
    (postorderOfAll es p i o).Perm ((descendantsOfAll es p i o).filter (·.token?.isNone))
  | [], p, i, o => by
    rw [postorderOfAll, descendantsOfAll]
    exact List.Perm.nil
  | e :: es, p, i, o => by
    rw [postorderOfAll, descendantsOfAll, List.filter_append]
    exact (postorderOf_perm e _ rfl).append (postorderOfAll_perm es p _ _)
end

theorem mem_postorder_iff {c x : Cursor} :
    x ∈ c.postorder ↔ x ∈ c.descendants ∧ x.token? = none := by
  rw [postorder, (postorderOf_perm c.element c rfl).mem_iff, List.mem_filter, Option.isNone_iff_eq_none]
  rfl

theorem postorder_nodup (c : Cursor) : (c.postorder.map path).Nodup :=
  (((postorderOf_perm c.element c rfl).map path).nodup_iff).mpr
    ((descendantsOf_nodup c.element c).sublist (List.filter_sublist.map path))

/-- No place is below two children. -/
theorem eq_of_mem_children {c x y y' : Cursor} (hy : y ∈ c.children) (hy' : y' ∈ c.children)
    (hx : x ∈ y.descendants) (hx' : x ∈ y'.descendants) : y = y' := by
  have hnodup := descendantsOf_nodup c.element c
  rw [← descendants, descendants_eq, List.map_cons, List.nodup_cons, List.map_flatMap,
    List.nodup_flatMap] at hnodup
  obtain ⟨i, hi, rfl⟩ := List.getElem_of_mem hy
  obtain ⟨j, hj, rfl⟩ := List.getElem_of_mem hy'
  have hdisjoint := List.pairwise_iff_getElem.mp hnodup.2.2
  rcases Nat.lt_trichotomy i j with hlt | rfl | hlt
  · exact (hdisjoint i j hi hj hlt (List.mem_map_of_mem hx) (List.mem_map_of_mem hx')).elim
  · rfl
  · exact (hdisjoint j i hj hi hlt (List.mem_map_of_mem hx') (List.mem_map_of_mem hx)).elim

theorem tokens_nodup (c : Cursor) : (c.tokens.map path).Nodup :=
  (descendantsOf_nodup c.element c).sublist (List.filter_sublist.map path)

mutual
/-- What is above a place below `c` is below or above `c`. -/
theorem mem_of_mem_ancestors : ∀ {e : Element} {c x y : Cursor}, x ∈ descendantsOf e c →
    y ∈ x.ancestors → y ∈ descendantsOf e c ∨ y ∈ c.ancestors
  | .token t, c, x, y, hx, hy => by
    rw [descendantsOf, List.mem_singleton] at hx
    exact .inr (hx ▸ hy)
  | .node k es, c, x, y, hx, hy => by
    rw [descendantsOf, List.mem_cons] at hx ⊢
    rcases hx with rfl | hx
    · exact .inr hy
    · rcases mem_of_mem_ancestors_all hx hy with hy | rfl | hy
      · exact .inl (.inr hy)
      · exact .inl (.inl rfl)
      · exact .inr hy
theorem mem_of_mem_ancestors_all : ∀ {es : List Element} {p x y : Cursor} {i o : Nat},
    x ∈ descendantsOfAll es p i o → y ∈ x.ancestors →
    y ∈ descendantsOfAll es p i o ∨ y = p ∨ y ∈ p.ancestors
  | [], p, x, y, i, o, hx, _ => by
    rw [descendantsOfAll] at hx
    cases hx
  | e :: es, p, x, y, i, o, hx, hy => by
    rw [descendantsOfAll, List.mem_append] at hx ⊢
    rcases hx with hx | hx
    · rcases mem_of_mem_ancestors hx hy with hy | hy
      · exact .inl (.inl hy)
      · rw [ancestors, List.mem_cons] at hy
        exact .inr hy
    · exact (mem_of_mem_ancestors_all hx hy).imp .inr id
end

theorem mem_ancestors_of_child {p : Cursor} {i o : Nat} {e : Element} :
    ∀ {x : Cursor}, child p i o e ∈ x :: x.ancestors → p ∈ x.ancestors
  | root f, h => by simp [ancestors] at h
  | child p' j o' f, h => by
    rw [ancestors, List.mem_cons] at h ⊢
    rcases h with h | h
    · cases h
      exact .inl rfl
    · exact .inr (mem_ancestors_of_child h)

theorem length_path_le : ∀ {x y : Cursor}, y ∈ x :: x.ancestors → y.path.length ≤ x.path.length
  | root e, y, h => by
    rw [ancestors, List.mem_singleton] at h
    exact Nat.le_of_eq (h ▸ rfl)
  | child p i o e, y, h => by
    rw [List.mem_cons] at h
    rcases h with rfl | h
    · exact Nat.le_refl _
    · have hle := length_path_le (x := p) h
      rw [path, List.length_append]
      omega

theorem length_path_lt {x y : Cursor} (h : y ∈ x.ancestors) : y.path.length < x.path.length := by
  cases x with
  | root e => cases h
  | child p i o e =>
    have hle := length_path_le (x := p) h
    rw [path, List.length_append, List.length_singleton]
    omega

mutual
/-- A place is above all that is below it. -/
theorem mem_ancestors_of_mem_descendantsOf : ∀ {e : Element} {c x : Cursor},
    x ∈ descendantsOf e c → c ∈ x :: x.ancestors
  | .token t, c, x, hx => by
    rw [descendantsOf, List.mem_singleton] at hx
    exact hx ▸ List.mem_cons_self
  | .node k es, c, x, hx => by
    rw [descendantsOf, List.mem_cons] at hx
    rcases hx with rfl | hx
    · exact List.mem_cons_self
    · exact List.mem_cons_of_mem x (mem_ancestors_of_mem_descendantsOfAll hx)
theorem mem_ancestors_of_mem_descendantsOfAll : ∀ {es : List Element} {p x : Cursor} {i o : Nat},
    x ∈ descendantsOfAll es p i o → p ∈ x.ancestors
  | [], p, x, i, o, hx => by
    rw [descendantsOfAll] at hx
    cases hx
  | e :: es, p, x, i, o, hx => by
    rw [descendantsOfAll, List.mem_append] at hx
    exact hx.elim (fun hx => mem_ancestors_of_child (mem_ancestors_of_mem_descendantsOf hx))
      fun hx => mem_ancestors_of_mem_descendantsOfAll hx
end

/-- What is above a place of a tree belongs to the tree. -/
theorem mem_descendants_of_mem_ancestors {tree : Element} {x y : Cursor}
    (hx : x ∈ (root tree).descendants) (hy : y ∈ x.ancestors) : y ∈ (root tree).descendants :=
  (mem_of_mem_ancestors hx hy).resolve_right List.not_mem_nil

/-- What holds of a root and passes on to children holds everywhere below the root. -/
theorem IsPlaced.of_rootElement {P : Element → Prop}
    (hchild : ∀ k es, P (.node k es) → ∀ e ∈ es, P e) :
    ∀ {c : Cursor}, c.IsPlaced → P c.rootElement → P c.element
  | root e, _, hroot => hroot
  | child p i o e, h, hroot => by
    obtain ⟨hp, front, back, hchildren, -, -⟩ := h
    have hparent := hp.of_rootElement hchild hroot
    cases hpe : p.element with
    | token t =>
      rw [hpe] at hchildren
      have hnil : [] = front ++ e :: back := hchildren
      simp at hnil
    | node k es =>
      rw [hpe] at hparent hchildren
      have hes : es = front ++ e :: back := hchildren
      exact hchild k es hparent e (hes ▸ List.mem_append_right front List.mem_cons_self)

/-- Below a well-kinded root everything is well kinded. -/
theorem IsPlaced.wellKinded {c : Cursor} (hc : c.IsPlaced) (hroot : c.rootElement.WellKinded) :
    c.element.WellKinded := by
  refine hc.of_rootElement (fun k es h e he => ?_) hroot
  obtain ⟨front, back, rfl⟩ := List.append_of_mem he
  rw [Element.wellKinded_node, Element.wellKindedAll_append, Element.wellKindedAll_cons] at h
  exact h.2.2.1

end Cursor

/-! ### Walks -/

namespace Visitor

variable {σ : Type} {v : Visitor σ} {I : σ → Prop}

mutual
theorem walkOf_invariant : ∀ {e : Element} {c : Cursor} {s : σ},
    (∀ x ∈ Cursor.descendantsOf e c, ∀ s, I s →
      I (v.enter x s).2 ∧ I (v.leave x s) ∧ I (v.token x s)) →
    I s → I (v.walkOf e c s)
  | .token t, c, s, h, hs => by
    have hc := h c (by rw [Cursor.descendantsOf]; exact List.mem_cons_self)
    rw [walkOf]
    split
    · exact (hc s hs).2.2
    · exact (hc _ (hc s hs).1).2.1
  | .node k es, c, s, h, hs => by
    rw [Cursor.descendantsOf, List.forall_mem_cons] at h
    obtain ⟨hc, hes⟩ := h
    have henter := (hc s hs).1
    rw [walkOf]
    split
    · exact (hc s hs).2.2
    · split <;> rename_i s' heq <;> rw [heq] at henter
      · exact (hc _ (walkOfAll_invariant hes henter)).2.1
      · exact (hc _ henter).2.1
theorem walkOfAll_invariant : ∀ {es : List Element} {p : Cursor} {i o : Nat} {s : σ},
    (∀ x ∈ Cursor.descendantsOfAll es p i o, ∀ s, I s →
      I (v.enter x s).2 ∧ I (v.leave x s) ∧ I (v.token x s)) →
    I s → I (v.walkOfAll es p i o s)
  | [], p, i, o, s, _, hs => by
    rw [walkOfAll]
    exact hs
  | e :: es, p, i, o, s, h, hs => by
    rw [Cursor.descendantsOfAll, List.forall_mem_append] at h
    rw [walkOfAll]
    exact walkOfAll_invariant h.2 (walkOf_invariant h.1 hs)
end

/-- What every step of a visitor keeps at the places of a tree, a walk over the tree keeps. -/
theorem walk_invariant {c : Cursor} {s : σ}
    (h : ∀ x ∈ c.descendants, ∀ s, I s → I (v.enter x s).2 ∧ I (v.leave x s) ∧ I (v.token x s))
    (hs : I s) : I (v.walk c s) :=
  walkOf_invariant h hs

end Visitor

end SwiftTidy
