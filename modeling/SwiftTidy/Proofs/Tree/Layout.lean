import Mathlib.Data.List.Nodup
import SwiftTidy.Proofs.Text.Offset
import SwiftTidy.Proofs.Tree.Ranges
import SwiftTidy.Tree.Layout

/-!
# The layout of a tree holds the tree

`ofElement_faithful`: in the layout of a tree every entry knows its place, every entry but the root
is listed once, by its parent, and going down from the root gives the tree back.

The loop that lays out a tree reads entries from the front of the list to whose end it adds.
`IsGrown tree done l` says what holds when the children of the first `done` entries are laid out:
these entries list their children, all entries are listed by one of these, and the entries that are
there with all that is below those still to be read are as many as the tree has elements.
-/

namespace SwiftTidy

namespace Layout

/-! ### The children of one entry -/

@[simp] theorem length_childEntries (parent i o : Nat) (es : List Element) :
    (childEntries parent i o es).length = es.length := by
  induction es generalizing i o with
  | nil => rfl
  | cons e es ih => rw [childEntries, List.length_cons, ih, List.length_cons]

theorem getElem?_childEntries (parent i o : Nat) (front back : List Element) (e : Element) :
    (childEntries parent i o (front ++ e :: back))[front.length]? =
      some ⟨e, some parent, o + Element.fullLenAll front, i + front.length, 0⟩ := by
  induction front generalizing i o with
  | nil => rw [Element.fullLenAll]; rfl
  | cons f front ih =>
    rw [List.cons_append, childEntries, List.length_cons, List.getElem?_cons_succ, ih,
      Element.fullLenAll, Nat.add_assoc o, Nat.add_assoc i, Nat.add_comm 1]

theorem exists_eq_append_of_lt {es : List Element} {n : Nat} (h : n < es.length) :
    ∃ front e back, es = front ++ e :: back ∧ front.length = n := by
  refine ⟨es.take n, es[n], es.drop (n + 1), ?_, List.length_take_of_le (Nat.le_of_lt h)⟩
  rw [← List.drop_eq_getElem_cons h, List.take_append_drop]

/-- The number of elements below an element. -/
def below (e : Element) : Nat := Element.sizeAll e.children

theorem size_eq_below_add_one (e : Element) : e.size = below e + 1 := by
  cases e with
  | token t => rw [Element.size]; rfl
  | node k es => rw [Element.size]; rfl

/-- The number of elements below the elements of some entries. -/
def pending (entries : List LayoutEntry) : Nat := (entries.map fun x => below x.element).sum

@[simp] theorem pending_append (xs ys : List LayoutEntry) :
    pending (xs ++ ys) = pending xs + pending ys := by
  rw [pending, List.map_append, List.sum_append, pending, pending]

theorem pending_childEntries (parent i o : Nat) (es : List Element) :
    es.length + pending (childEntries parent i o es) = Element.sizeAll es := by
  induction es generalizing i o with
  | nil => rw [Element.sizeAll]; rfl
  | cons e es ih =>
    have hrest := ih (i + 1) (o + e.fullLen)
    have hcons : pending (childEntries parent i o (e :: es)) =
        below e + pending (childEntries parent (i + 1) (o + e.fullLen) es) := by
      rw [childEntries, pending, List.map_cons, List.sum_cons, pending]
    rw [hcons, Element.sizeAll, size_eq_below_add_one, List.length_cons]
    omega

/-! ### One step -/

/-- The layout after the children of entry `i`, which is `e`, are laid out. -/
def extend (l : Layout) (i : Nat) (e : LayoutEntry) : Layout :=
  l.setIfInBounds i { e with firstChild := l.size } ++
    (childEntries i 0 e.offset e.element.children).toArray

variable {l : Layout} {i id : Nat} {e entry : LayoutEntry} {tree : Element}

theorem size_extend : (l.extend i e).size = l.size + e.childCount := by
  simp [extend, LayoutEntry.childCount]

theorem getElem?_extend_self (hi : i < l.size) :
    (l.extend i e)[i]? = some { e with firstChild := l.size } := by
  rw [extend, Array.getElem?_append_left (by simpa using hi)]
  simp [hi]

theorem getElem?_extend_of_ne (hid : id < l.size) (hne : id ≠ i) : (l.extend i e)[id]? = l[id]? := by
  rw [extend, Array.getElem?_append_left (by simpa using hid)]
  exact Array.getElem?_setIfInBounds_ne (Ne.symm hne)

theorem getElem?_extend_add (n : Nat) : (l.extend i e)[l.size + n]? =
    (childEntries i 0 e.offset e.element.children)[n]? := by
  rw [extend, Array.getElem?_append_right (by simp)]
  simp

/-- Entries that were there keep their element and their place. -/
theorem exists_getElem?_extend (hid : l[id]? = some entry) (he : l[i]? = some e) :
    ∃ first, (l.extend i e)[id]? = some { entry with firstChild := first } := by
  have hlt : id < l.size := (Array.getElem?_eq_some_iff.mp hid).1
  by_cases heq : id = i
  · subst heq
    obtain rfl : entry = e := Option.some.inj (hid.symm.trans he)
    exact ⟨l.size, getElem?_extend_self hlt⟩
  · exact ⟨entry.firstChild, by rw [getElem?_extend_of_ne hlt heq, hid]⟩

/-! ### All steps -/

/-- What holds of a layout when the children of its first `done` entries are laid out. -/
structure IsGrown (tree : Element) (done : Nat) (l : Layout) : Prop where
  done_le : done ≤ l.size
  /-- The first entry is the root. -/
  root : ∃ first, l[0]? = some ⟨tree, none, 0, 0, first⟩
  /-- An entry that was read lists its children in order, each at its place. -/
  lists : ∀ {id : Nat} {entry : LayoutEntry}, l[id]? = some entry → id < done →
    ∀ {front back : List Element} {e : Element}, entry.element.children = front ++ e :: back →
    ∃ first, l[entry.firstChild + front.length]? =
      some ⟨e, some id, entry.offset + Element.fullLenAll front, front.length, first⟩
  /-- Every other entry is listed by an entry that was read before. -/
  listed : ∀ {id : Nat} {entry : LayoutEntry}, l[id]? = some entry → 0 < id →
    ∃ p above, entry.parent = some p ∧ p < id ∧ p < done ∧ l[p]? = some above ∧
      entry.index < above.childCount ∧ id = above.firstChild + entry.index
  /-- Nothing is missing. -/
  size_add : l.size + pending (l.toList.drop done) = tree.size

/-- The layout that has only a root. -/
theorem isGrown_root (tree : Element) : IsGrown tree 0 #[⟨tree, none, 0, 0, 0⟩] where
  done_le := Nat.zero_le _
  root := ⟨0, rfl⟩
  lists _ hlt := absurd hlt (Nat.not_lt_zero _)
  listed {id entry} hid hpos := by
    have hlt : id < 1 := (Array.getElem?_eq_some_iff.mp hid).1
    omega
  size_add := by
    rw [size_eq_below_add_one, Nat.add_comm]
    rfl

/-- One step keeps what holds of a layout. -/
theorem IsGrown.extend (h : IsGrown tree i l) (he : l[i]? = some e) :
    IsGrown tree (i + 1) (l.extend i e) where
  done_le := by
    have hlt : i < l.size := (Array.getElem?_eq_some_iff.mp he).1
    rw [size_extend]
    omega
  root := by
    obtain ⟨first, hroot⟩ := h.root
    obtain ⟨first', hroot'⟩ := exists_getElem?_extend hroot he
    exact ⟨first', hroot'⟩
  lists := by
    intro id entry hid hlt front back f hchildren
    have hi : i < l.size := (Array.getElem?_eq_some_iff.mp he).1
    by_cases heq : id = i
    · -- the entry that is read now lists the entries that are added
      subst heq
      rw [getElem?_extend_self hi, Option.some.injEq] at hid
      subst hid
      have hchildren : e.element.children = front ++ f :: back := hchildren
      refine ⟨0, ?_⟩
      rw [getElem?_extend_add, hchildren, getElem?_childEntries, Nat.zero_add]
    · have hdone : id < i := by omega
      rw [getElem?_extend_of_ne (by omega) heq] at hid
      obtain ⟨first, hchild⟩ := h.lists hid hdone hchildren
      exact exists_getElem?_extend hchild he
  listed := by
    intro id entry hid hpos
    have hi : i < l.size := (Array.getElem?_eq_some_iff.mp he).1
    by_cases hlt : id < l.size
    · -- an entry that was there keeps its parent, whose children stay where they are
      obtain ⟨old, hold⟩ : ∃ old, l[id]? = some old := ⟨l[id], Array.getElem?_eq_getElem hlt⟩
      obtain ⟨first, hnew⟩ := exists_getElem?_extend hold he
      obtain rfl : { old with firstChild := first } = entry :=
        Option.some.inj (hnew.symm.trans hid)
      obtain ⟨p, above, hparent, hp, hdone, habove, hindex, hid⟩ := h.listed hold hpos
      have hkept : (l.extend i e)[p]? = some above := by
        rw [getElem?_extend_of_ne (by omega) (by omega), habove]
      exact ⟨p, above, hparent, hp, by omega, hkept, hindex, hid⟩
    · -- an entry that is added is listed by the one that is read now
      obtain ⟨n, rfl⟩ : ∃ n, id = l.size + n := ⟨id - l.size, by omega⟩
      rw [getElem?_extend_add] at hid
      have hn : n < e.element.children.length := by
        simpa using (List.getElem?_eq_some_iff.mp hid).1
      obtain ⟨front, f, back, hchildren, rfl⟩ := exists_eq_append_of_lt hn
      rw [hchildren, getElem?_childEntries, Option.some.injEq] at hid
      subst hid
      refine ⟨i, { e with firstChild := l.size }, rfl, by omega, by omega, getElem?_extend_self hi,
        ?_, ?_⟩
      · rw [Nat.zero_add]
        exact hn
      · rw [Nat.zero_add]
  size_add := by
    -- the entry that is read now leaves the pending ones, and its children come to them
    obtain ⟨hi, hget⟩ := Array.getElem?_eq_some_iff.mp he
    have hhere : l.toList.drop i = e :: l.toList.drop (i + 1) := by
      rw [List.drop_eq_getElem_cons (by simpa using hi)]
      exact congrArg (· :: _) hget
    have hrest : (l.extend i e).toList.drop (i + 1) =
        l.toList.drop (i + 1) ++ childEntries i 0 e.offset e.element.children := by
      rw [Layout.extend, Array.toList_append, Array.toList_setIfInBounds,
        List.drop_append_of_le_length (by simpa using Nat.succ_le_of_lt hi),
        List.drop_set_of_lt (Nat.lt_succ_self i)]
    have hadded := pending_childEntries i 0 e.offset e.element.children
    have htotal := h.size_add
    rw [hhere, pending, List.map_cons, List.sum_cons, ← pending] at htotal
    rw [hrest, pending_append, size_extend]
    unfold below at htotal
    unfold LayoutEntry.childCount
    omega

/-- The loop ends when every entry was read. -/
theorem IsGrown.grow {fuel : Nat} (h : IsGrown tree i l) (hfuel : tree.size ≤ fuel + i) :
    IsGrown tree (grow fuel i l).size (grow fuel i l) := by
  induction fuel generalizing i l with
  | zero =>
    rw [Layout.grow]
    obtain rfl : i = l.size := by
      have hle := h.done_le
      have htotal := h.size_add
      omega
    exact h
  | succ fuel ih =>
    rw [Layout.grow]
    cases he : l[i]? with
    | none =>
      obtain rfl : i = l.size := by
        have hle := h.done_le
        have hge := Array.getElem?_eq_none_iff.mp he
        omega
      exact h
    | some e => exact ih (h.extend he) (by omega)

theorem isGrown_ofElement (tree : Element) :
    IsGrown tree (ofElement tree).size (ofElement tree) :=
  (isGrown_root tree).grow (Nat.le_refl _)

/-! ### Entries and places -/

section Complete

variable (h : IsGrown tree l.size l)
include h

/-- The layout has as many entries as the tree has elements. -/
theorem IsGrown.size_eq : l.size = tree.size := by
  have htotal := h.size_add
  rw [List.drop_of_length_le (by simp)] at htotal
  exact htotal

/-- An entry behind the first one is a child of another entry. -/
theorem IsGrown.exists_parent (hid : l[id]? = some entry) (hpos : 0 < id) :
    ∃ p above front back, l[p]? = some above ∧ p < id ∧ entry.parent = some p ∧
      above.element.children = front ++ entry.element :: back ∧ entry.index = front.length ∧
      entry.offset = above.offset + Element.fullLenAll front ∧
      id = above.firstChild + front.length := by
  obtain ⟨p, above, hparent, hp, hdone, habove, hindex, hsum⟩ := h.listed hid hpos
  obtain ⟨front, f, back, hchildren, hfront⟩ := exists_eq_append_of_lt hindex
  obtain ⟨first, hchild⟩ := h.lists habove hdone hchildren
  rw [hfront, ← hsum, hid, Option.some.injEq] at hchild
  refine ⟨p, above, front, back, habove, hp, hparent, ?_, ?_, ?_, by omega⟩
  · rw [hchildren, hchild]
  · rw [hchild, hfront]
  · rw [hchild]

/-- An entry is a place of the tree. -/
theorem IsGrown.exists_cursor (hid : l[id]? = some entry) : ∃ c : Cursor, c.IsPlaced ∧
    c.rootElement = tree ∧ c.element = entry.element ∧ c.offset = entry.offset := by
  induction id using Nat.strong_induction_on generalizing entry with
  | _ id ih =>
    rcases Nat.eq_zero_or_pos id with rfl | hpos
    · obtain ⟨first, hroot⟩ := h.root
      obtain rfl := Option.some.inj (hid.symm.trans hroot)
      exact ⟨.root tree, trivial, rfl, rfl, rfl⟩
    · obtain ⟨p, above, front, back, habove, hp, -, hchildren, -, hoffset, -⟩ :=
        h.exists_parent hid hpos
      obtain ⟨c, hc, hroot, helement, hstart⟩ := ih p hp habove
      rw [← helement] at hchildren
      rw [← hstart] at hoffset
      exact ⟨_, Cursor.isPlaced_child hc hchildren, hroot, rfl, hoffset.symm⟩

/-- A place of the tree is an entry. -/
theorem IsGrown.getElem?_idOf : ∀ {c : Cursor}, c.IsPlaced → c.rootElement = tree →
    ∃ entry, l[l.idOf c]? = some entry ∧ entry.element = c.element ∧ entry.offset = c.offset
  | .root e, _, hroot => by
    obtain ⟨first, hentry⟩ := h.root
    exact ⟨_, hentry, hroot.symm, rfl⟩
  | .child p i o e, hc, hroot => by
    obtain ⟨hp, front, back, hchildren, rfl, rfl⟩ := hc
    obtain ⟨above, habove, helement, hoffset⟩ := IsGrown.getElem?_idOf hp hroot
    have hlt : l.idOf p < l.size := (Array.getElem?_eq_some_iff.mp habove).1
    rw [← helement] at hchildren
    obtain ⟨first, hentry⟩ := h.lists habove hlt hchildren
    have hid : l.idOf (.child p front.length (p.offset + Element.fullLenAll front) e) =
        above.firstChild + front.length := by
      rw [idOf, Array.getD_eq_getD_getElem?, habove, Option.getD_some]
    rw [hid, hentry, hoffset]
    exact ⟨_, rfl, rfl, rfl⟩

/-- The children of an entry are the entries that name it as their parent. -/
theorem IsGrown.parent_of_mem_children {p : Nat} {above : LayoutEntry} (habove : l[p]? = some above)
    (hid : l[id]? = some entry) (hmem : id ∈ above.children) : entry.parent = some p := by
  have hp : p < l.size := (Array.getElem?_eq_some_iff.mp habove).1
  obtain ⟨n, hn, rfl⟩ := List.mem_range'.mp hmem
  obtain ⟨front, f, back, hchildren, rfl⟩ := exists_eq_append_of_lt hn
  obtain ⟨first, hchild⟩ := h.lists habove hp hchildren
  rw [Nat.one_mul, hchild, Option.some.injEq] at hid
  rw [← hid]

theorem IsGrown.lt_size_of_mem_children {p : Nat} {above : LayoutEntry}
    (habove : l[p]? = some above) (hmem : id ∈ above.children) : id < l.size := by
  have hp : p < l.size := (Array.getElem?_eq_some_iff.mp habove).1
  obtain ⟨n, hn, rfl⟩ := List.mem_range'.mp hmem
  obtain ⟨front, f, back, hchildren, rfl⟩ := exists_eq_append_of_lt hn
  obtain ⟨first, hchild⟩ := h.lists habove hp hchildren
  rw [Nat.one_mul]
  exact (Array.getElem?_eq_some_iff.mp hchild).1

/-- An entry behind the first one is listed once by its parent, and by no other entry. -/
theorem IsGrown.listed_once (hid : l[id]? = some entry) (hpos : 0 < id) :
    ∃ p above, entry.parent = some p ∧ p < id ∧ l[p]? = some above ∧
      above.children[entry.index]? = some id ∧ above.children.count id = 1 ∧
      ∀ q other, l[q]? = some other → id ∈ other.children → q = p := by
  obtain ⟨p, above, front, back, habove, hp, hparent, hchildren, hindex, -, hsum⟩ :=
    h.exists_parent hid hpos
  have hlt : front.length < above.childCount := by
    rw [LayoutEntry.childCount, hchildren, List.length_append, List.length_cons]
    omega
  have hget : above.children[front.length]? = some id := by
    rw [LayoutEntry.children, List.getElem?_range' hlt, Nat.one_mul, ← hsum]
  refine ⟨p, above, hparent, hp, habove, hindex ▸ hget, ?_, ?_⟩
  · exact List.count_eq_one_of_mem (List.nodup_range' _) (List.mem_of_getElem? hget)
  · intro q other hother hmem
    have hq := h.parent_of_mem_children hother hid hmem
    rw [hparent, Option.some.injEq] at hq
    exact hq.symm

end Complete

/-! ### The tree of a layout -/

/-- The element of an entry, built from the entries it lists; `fuel` bounds the depth. -/
def rebuild (l : Layout) : (fuel id : Nat) → Option Element
  | 0, _ => none
  | fuel + 1, id =>
    match l[id]? with
    | none => none
    | some entry =>
      match entry.element with
      | .token t => some (.token t)
      | .node k _ => (entry.children.mapM (l.rebuild fuel)).map (.node k)

theorem mapM_range'_eq_some {f : Nat → Option Element} {first : Nat} {es : List Element}
    (hf : ∀ front e back, es = front ++ e :: back → f (first + front.length) = some e) :
    (List.range' first es.length).mapM f = some es := by
  induction es generalizing first with
  | nil => rfl
  | cons e es ih =>
    have hrest : (List.range' (first + 1) es.length).mapM f = some es := by
      refine ih fun front d back hsplit => ?_
      have hd := hf (e :: front) d back (by rw [hsplit]; rfl)
      rwa [List.length_cons, Nat.add_comm _ 1, ← Nat.add_assoc] at hd
    have he : f first = some e := hf [] e es rfl
    rw [List.length_cons, List.range'_succ, List.mapM_cons, he, hrest]
    rfl

theorem size_le_sizeAll {e : Element} {es : List Element} (he : e ∈ es) :
    e.size ≤ Element.sizeAll es := by
  induction es with
  | nil => cases he
  | cons d es ih =>
    rw [Element.sizeAll]
    rcases List.mem_cons.mp he with rfl | he
    · omega
    · have hle := ih he
      omega

/-- Going down from an entry gives its element back. -/
theorem IsGrown.rebuild_eq {fuel : Nat} (h : IsGrown tree l.size l) (hid : l[id]? = some entry)
    (hfuel : entry.element.size ≤ fuel) : l.rebuild fuel id = some entry.element := by
  induction fuel generalizing id entry with
  | zero =>
    rw [size_eq_below_add_one] at hfuel
    omega
  | succ fuel ih =>
    have hlt : id < l.size := (Array.getElem?_eq_some_iff.mp hid).1
    simp only [rebuild, hid]
    cases helement : entry.element with
    | token t => rfl
    | node k es =>
      have hchildren : entry.element.children = es := by rw [helement]; rfl
      rw [helement, Element.size] at hfuel
      have hall : entry.children.mapM (l.rebuild fuel) = some es := by
        rw [LayoutEntry.children, LayoutEntry.childCount, hchildren]
        refine mapM_range'_eq_some fun front e back hsplit => ?_
        obtain ⟨first, hchild⟩ := h.lists hid hlt (hchildren.trans hsplit)
        have hsize : e.size ≤ Element.sizeAll es := size_le_sizeAll (by rw [hsplit]; simp)
        exact ih hchild (show e.size ≤ fuel by omega)
      rw [hall]
      rfl

end Layout

/-! ### Ranges -/

/-- The range of an entry is that of the place with its element and its offset. -/
theorem LayoutEntry.range_eq {entry : LayoutEntry} {c : Cursor} (helement : c.element = entry.element)
    (hoffset : c.offset = entry.offset) (hend : c.fullEnd < Offset.limit) :
    entry.range = .ok c.range := by
  have hend : c.offset + c.element.fullLen < Offset.limit := hend
  have hlen := (Element.len_add c.element).1
  rw [range, ← helement, ← hoffset, TextRange.ofLength_eq_ok hend, Element.firstToken?_eq,
    Element.lastToken?_eq]
  rw [Element.leadingTrivia_eq, Element.trailingTrivia_eq] at hlen
  cases hleaves : c.element.leaves with
  | nil =>
    -- without tokens the full range is the range
    rw [hleaves] at hlen
    have hlen : 0 + c.element.len + 0 = c.element.fullLen := hlen
    have hposition : c.position = c.offset := by
      rw [Cursor.position, Element.leadingTrivia_eq, hleaves]
      rfl
    have hrange : c.range = ⟨c.offset, c.offset + c.element.fullLen, Nat.le_add_right _ _⟩ := by
      unfold Cursor.range
      congr 1
      rw [Cursor.endPosition, hposition]
      omega
    rw [hrange]
    rfl
  | cons t ts =>
    obtain ⟨u, hu⟩ : ∃ u, (t :: ts).getLast? = some u :=
      ⟨_, List.getLast?_eq_some_getLast (List.cons_ne_nil t ts)⟩
    rw [hleaves, List.head?_cons, hu] at hlen
    have hlen : t.leading.len + c.element.len + u.trailing.len = c.element.fullLen := hlen
    have hposition : c.position = c.offset + t.leading.len := by
      rw [Cursor.position, Element.leadingTrivia_eq, hleaves]
      rfl
    have hstop : c.offset + c.element.fullLen - u.trailing.len = c.endPosition := by
      rw [Cursor.endPosition, hposition]
      omega
    rw [List.head?_cons, hu]
    show (Offset.add c.offset t.leading.len >>= fun start =>
      Offset.sub (c.offset + c.element.fullLen) u.trailing.len >>= fun stop =>
        TextRange.between start stop) = _
    rw [Offset.add_eq_ok (by omega), Offset.sub_eq_ok (by omega), hstop, ← hposition]
    exact TextRange.between_eq_ok (Nat.le_add_right _ _)

/-! ### The layout of a tree -/

namespace Layout

/-- **A layout holds its tree**: when the elements and the bytes of a tree can be counted in 32
bits, its layout has one entry for every element.  The full range of an entry cuts its rendering
out of the text, and its range cuts out the rendering without the outer trivia.  Every entry but
the root is listed once, by its parent at its index, and going down from the root gives the tree
back. -/
theorem ofElement_faithful {tree : Element} (hsize : tree.size < Offset.limit)
    (hlen : tree.fullLen < Offset.limit) :
    (ofElement tree).size = tree.size ∧
    (∃ first, (ofElement tree)[0]? = some ⟨tree, none, 0, 0, first⟩) ∧
    (∀ (id : Nat) (entry : LayoutEntry), (ofElement tree)[id]? = some entry →
      (∀ j ∈ entry.children, j < Offset.limit) ∧
      TextRange.ofLength entry.offset entry.element.fullLen = .ok entry.fullRange ∧
      Text.slice tree.fullText entry.fullRange = .ok entry.element.fullText ∧
      ∃ r, entry.range = .ok r ∧ Text.slice tree.fullText r = .ok entry.element.text ∧
        entry.element.fullText = entry.element.leadingTrivia.text ++ entry.element.text ++
          entry.element.trailingTrivia.text) ∧
    (∀ (id : Nat) (entry : LayoutEntry), (ofElement tree)[id]? = some entry → 0 < id →
      ∃ p above, entry.parent = some p ∧ p < id ∧ (ofElement tree)[p]? = some above ∧
        above.children[entry.index]? = some id ∧ above.children.count id = 1 ∧
        ∀ (q : Nat) (other : LayoutEntry),
          (ofElement tree)[q]? = some other → id ∈ other.children → q = p) ∧
    (ofElement tree).rebuild tree.size 0 = some tree := by
  have hgrown := isGrown_ofElement tree
  generalize ofElement tree = l at hgrown
  obtain ⟨first, hroot⟩ := hgrown.root
  refine ⟨hgrown.size_eq, ⟨first, hroot⟩, ?_, fun id entry hid hpos => hgrown.listed_once hid hpos,
    hgrown.rebuild_eq hroot (Nat.le_refl _)⟩
  intro id entry hid
  -- an entry is a place of the tree, whose slices are known
  obtain ⟨c, hc, rfl, helement, hoffset⟩ := hgrown.exists_cursor hid
  have hend : c.fullEnd < Offset.limit := Nat.lt_of_le_of_lt hc.fullEnd_le hlen
  have hfull : entry.fullRange = c.fullRange := by
    unfold LayoutEntry.fullRange Cursor.fullRange Cursor.fullEnd
    simp only [helement, hoffset]
  refine ⟨?_, ?_, ?_, c.range, LayoutEntry.range_eq helement hoffset hend, ?_, ?_⟩
  · intro j hj
    have hlt : j < l.size := hgrown.lt_size_of_mem_children hid hj
    have hcount := hgrown.size_eq
    omega
  · rw [← helement, ← hoffset, hfull]
    exact TextRange.ofLength_eq_ok hend
  · rw [hfull, ← helement]
    exact hc.slice_fullRange
  · rw [← helement]
    exact hc.slice_range
  · rw [← String.toList_inj, String.toList_append, String.toList_append]
    exact Element.toList_fullText_eq _

/-- A node without tokens and a token without text stand between two commas with trivia. -/
theorem ofElement_faithful_empty :
    let comma : Element := .token ⟨.comma, ",", [.spaces 1], [.spaces 2]⟩
    let tree : Element := .node .sourceFile
      [comma, .node .parameterClause [], .token ⟨.endOfFile, "", [], []⟩, .node .codeBlock [comma]]
    tree.size < Offset.limit ∧ tree.fullLen < Offset.limit ∧
    (ofElement tree).size = 6 ∧ (ofElement tree).rebuild 6 0 = some tree := by
  intro comma tree
  have hsize : tree.size < Offset.limit := by decide
  have hlen : tree.fullLen < Offset.limit := by decide
  obtain ⟨hcount, -, -, -, hrebuild⟩ := ofElement_faithful hsize hlen
  exact ⟨hsize, hlen, hcount, hrebuild⟩

end Layout

end SwiftTidy
