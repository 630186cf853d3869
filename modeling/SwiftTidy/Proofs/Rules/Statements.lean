import SwiftTidy.Proofs.Lint.Fixes
import SwiftTidy.Proofs.Lint.Reports
import SwiftTidy.Proofs.Parse.Lexemes
import SwiftTidy.Proofs.Parse.Phrases
import SwiftTidy.Proofs.Tree.Meeting
import SwiftTidy.Rules.TrailingSemicolon
import SwiftTidy.Rules.UnusedImport

/-!
# Semicolons and imports

Both rules look at the statements of a file.  A semicolon at the end of a statement has something in
front of it, because no statement is a mere token (`Element.Shape`), so there is always something
that its trivia can go to, and all semicolons that are found are dropped.  Of the unused imports
one is removed at a time.
-/

namespace SwiftTidy

variable {source : String} {tree : Element}

/-- All tokens below a statement are cut off the source, since the end of the file is below none. -/
theorem isCut_of_mem_statement (hparse : parse source = .ok tree) {c : Cursor}
    (hc : c ∈ (Cursor.root tree).descendants) (hnode : c.element.token? = none)
    (hkind : c.kind ≠ .sourceFile) : ∀ t ∈ c.element.leaves, t.IsCut := by
  obtain ⟨-, items, last, htree, -⟩ := shaped_parse hparse
  have hbelow : c ∈ Cursor.descendantsOfAll items (.root tree) 0 0 := by
    have hroot : (Cursor.root tree).element = .node .sourceFile (items ++ [.token last]) := htree
    rw [Cursor.descendants, hroot, Cursor.descendantsOf, List.mem_cons,
      Cursor.descendantsOfAll_append, List.mem_append, Cursor.descendantsOfAll,
      Cursor.descendantsOf] at hc
    rcases hc with rfl | hc | hc
    · exact absurd (by rw [htree]; rfl) hkind
    · exact hc
    · rw [Cursor.descendantsOfAll, List.append_nil, List.mem_singleton] at hc
      rw [hc] at hnode
      cases hnode
  obtain ⟨ts, l, hleaves, hcut, -⟩ := leaves_isCut hparse
  have hts : Element.leavesAll items = ts := by
    rw [htree, Element.leaves_node, Element.leavesAll_append, Element.leavesAll_cons,
      Element.leavesAll_nil, Element.leaves_token, List.append_nil] at hleaves
    exact (List.append_inj' hleaves rfl).1
  have hkinds : Element.WellKindedAll items := by
    have hroot := wellKinded_parse hparse
    rw [htree, Element.wellKinded_node, Element.wellKindedAll_append] at hroot
    exact hroot.2.1
  intro t ht
  have hmem := List.mem_map_of_mem (f := Element.token) ht
  rw [← Cursor.map_element_tokensOf (wellKinded_of_mem_descendants hparse hc) rfl] at hmem
  obtain ⟨x, hx, hxt⟩ := List.mem_map.mp hmem
  obtain ⟨hx, htoken⟩ := List.mem_filter.mp hx
  have hx : x ∈ Cursor.tokensOfAll items (.root tree) 0 0 :=
    List.mem_filter.mpr ⟨Cursor.mem_descendantsOfAll_trans hbelow hx, htoken⟩
  have hplaced := List.mem_map_of_mem (f := fun x : Cursor => (x.offset, x.element)) hx
  rw [Cursor.map_tokensOfAll _ _ _ _ hkinds] at hplaced
  obtain ⟨q, hq, heq⟩ := List.mem_map.mp hplaced
  have hsame : q.2 = t := Element.token.inj ((Prod.mk.inj heq).2.trans hxt)
  have hleaf := List.mem_map_of_mem (f := Prod.snd) hq
  rw [Token.map_snd_placed, hts, hsame] at hleaf
  exact hcut t hleaf

namespace TrailingSemicolon

/-- A semicolon that is found is the last child of a statement. -/
theorem semicolon?_eq_some {item semicolon : Cursor} (h : semicolon? item = some semicolon) :
    item.kind = .codeBlockItem ∧ item.children.getLast? = some semicolon ∧
      semicolon.kind = .semicolon := by
  rw [semicolon?, Option.ite_none_right_eq_some, beq_iff_eq] at h
  obtain ⟨hkind, h⟩ := h
  obtain ⟨h, -⟩ := Option.filter_eq_some_iff.mp h
  obtain ⟨hlast, hsemicolon⟩ := Option.filter_eq_some_iff.mp h
  exact ⟨hkind, hlast, by simpa using hsemicolon⟩

/-- Where a semicolon is found it follows a node with leaves, and both make up the statement. -/
theorem exists_of_semicolon? {item semicolon : Cursor} (hshaped : item.element.Shaped)
    (hkinded : item.element.WellKinded) (h : semicolon? item = some semicolon) :
    ∃ j cs t, item.element = .node .codeBlockItem [.node j cs, .token t] ∧
      Element.leavesAll cs ≠ [] ∧ t.kind = .semicolon ∧
      semicolon = .child item 1 (item.offset + (Element.node j cs).fullLen) (.token t) := by
  obtain ⟨hkind, hlast, hsemicolon⟩ := semicolon?_eq_some h
  cases hitem : item.element with
  | token t =>
    rw [Cursor.children, hitem] at hlast
    cases hlast
  | node k es =>
    rw [hitem] at hshaped hkinded
    obtain rfl : k = .codeBlockItem := by
      rw [Cursor.kind, hitem] at hkind
      exact hkind
    obtain ⟨j, cs, rest, rfl, hleaves, hrest⟩ :=
      ((Element.shaped_node _ es).mp hshaped).1.statement rfl
    have hkinds := ((Element.wellKinded_node _ _).mp hkinded).2
    rw [Element.wellKindedAll_cons] at hkinds
    rw [Cursor.children, hitem] at hlast
    -- the node in front is no semicolon, so there is one behind it
    cases rest with
    | nil =>
      cases hlast
      have hj : j = .semicolon := hsemicolon
      rw [hj] at hkinds
      exact absurd hkinds.1.isToken_eq_false (by decide)
    | cons e rest =>
      obtain rfl : rest = [] := List.length_eq_zero_iff.mp (by simpa using hrest)
      cases hlast
      rw [Element.wellKindedAll_cons] at hkinds
      cases e with
      | token t => exact ⟨j, cs, t, rfl, hleaves, hsemicolon, rfl⟩
      | node i fs =>
        have hi : i = .semicolon := hsemicolon
        rw [hi] at hkinds
        exact absurd hkinds.2.1.isToken_eq_false (by decide)

/-- A semicolon that is found lies in the range of its statement. -/
theorem semicolon_mem_range {item semicolon : Cursor} (hparse : parse source = .ok tree)
    (hitem : item ∈ (Cursor.root tree).descendants) (h : semicolon? item = some semicolon) :
    ∃ t, semicolon.element = .token t ∧ item.position ≤ semicolon.position ∧
      semicolon.position < item.endPosition := by
  obtain ⟨-, hlast, hkind⟩ := semicolon?_eq_some h
  have hbelow := Cursor.mem_descendants_of_mem_children (List.mem_of_getLast? hlast)
  have htoken : semicolon.isToken = true := by rw [Cursor.isToken, hkind]; rfl
  obtain ⟨t, ht, hcut⟩ := isCut_of_mem_tokens hparse
    (List.mem_filter.mpr ⟨Cursor.mem_descendants_trans hitem hbelow, htoken⟩)
    (by rw [hkind]; decide)
  obtain ⟨-, -, hfrom, hto⟩ := Cursor.bounds_of_mem_tokensOf
    (wellKinded_of_mem_descendants hparse hitem) (List.mem_filter.mpr ⟨hbelow, htoken⟩)
  refine ⟨t, ht, hfrom, ?_⟩
  have hlen : semicolon.endPosition = semicolon.position + t.len := by
    rw [Cursor.endPosition, ht, Element.len_token]
  have := hcut.len_pos
  omega

/-- What is recorded at a statement: the semicolon at its end, where the rule is not disabled. -/
def recordedAt (disabled : DisabledRegions) (c : Cursor) : List Nat :=
  ((semicolon? c).map (·.position)).toList.filter (!disabled.isSuppressed ·)

theorem behaves_fixer {disabled : DisabledRegions} (hparse : parse source = .ok tree)
    (hdisabled : disabled.IsSeparated) {c : Cursor} (hc : c ∈ (Cursor.root tree).descendants) :
    Fixer.Behaves fixer disabled (fun _ _ => True) (fun _ => []) (recordedAt disabled) c where
  token t _ := ⟨none, rfl, rfl, trivial⟩
  visit k es _ := rfl
  node k es es' hnode hes := by
    cases hfound : semicolon? c with
    | none =>
      refine ⟨none, ?_, ?_, trivial⟩
      · simp only [fixer, hfound]
        rfl
      · rw [recordedAt, hfound]
        rfl
    | some semicolon =>
      obtain ⟨t, ht, hrange⟩ := semicolon_mem_range hparse hc hfound
      obtain ⟨j, cs, u, hitem, -⟩ := exists_of_semicolon? (shaped_of_mem_descendants hparse hc)
        (wellKinded_of_mem_descendants hparse hc) hfound
      obtain ⟨r, hr⟩ : ∃ r, dropSemicolon t (.node k es') = some r := by
        obtain ⟨rfl, rfl⟩ := Element.node.inj (hnode.symm.trans hitem)
        obtain ⟨a, b, rfl⟩ := List.length_eq_two.mp hes.length_eq.symm
        exact ⟨_, rfl⟩
      have htoken : semicolon.token? = some t := by rw [Cursor.token?, ht]; rfl
      refine ⟨some ⟨r, semicolon.position, [], none⟩, ?_, ?_, trivial⟩
      · simp only [fixer, hfound, htoken, hr, bind, Option.bind]
        rfl
      · rw [Fixer.accept_eq _ _ hdisabled hrange, recordedAt, hfound]
        rfl

/-- The rule about semicolons corrects all that it finds. -/
theorem rule_correctsAll {ctx : Context} (h : SourceUnit.ofText source = .ok ctx.unit)
    (severity : Severity) : (rule severity).CorrectsAll ctx := by
  obtain ⟨fixed, hrun⟩ := Fixer.run_eq fun c hc => behaves_fixer (SourceUnit.parse_of_ofText h)
    (SourceUnit.disabledRegions_isSeparated h description) hc
  rw [Fixer.recordedOf_nodes] at hrun
  refine ⟨_, _, rfl, congrArg some hrun, ?_⟩
  dsimp only
  congr 1
  rw [Rule.unsuppressed, List.map_map, List.map_filterMap, List.filterMap_eq_flatMap_toList,
    List.filter_flatMap]
  rfl

end TrailingSemicolon

namespace UnusedImport

variable {ctx : Context} {v : Violation}

theorem mem_enter (c : Cursor) {found : List Violation} (h : v ∈ found) :
    v ∈ ((visitor ctx).enter c found).2 := by
  simp only [visitor]
  split
  · exact h
  · exact h
  · split_ifs
    · exact List.mem_append_left _ h
    · exact h
  · exact h

mutual
/-- What was found stays found. -/
theorem mem_walkOf : ∀ {e : Element} {c : Cursor} {found : List Violation}, v ∈ found →
    v ∈ (visitor ctx).walkOf e c found
  | .token t, c, found, h => by
    rw [Visitor.walkOf]
    split
    · exact h
    · exact mem_enter c h
  | .node k es, c, found, h => by
    rw [Visitor.walkOf]
    split
    · exact h
    · have henter : v ∈ ((visitor ctx).enter c found).2 := mem_enter c h
      split
      · next found' heq =>
        rw [heq] at henter
        exact mem_walkOfAll henter
      · next found' heq =>
        rw [heq] at henter
        exact henter
theorem mem_walkOfAll : ∀ {es : List Element} {p : Cursor} {i o : Nat} {found : List Violation},
    v ∈ found → v ∈ (visitor ctx).walkOfAll es p i o found
  | [], p, i, o, found, h => by rw [Visitor.walkOfAll]; exact h
  | e :: es, p, i, o, found, h => by
    rw [Visitor.walkOfAll]
    exact mem_walkOfAll (mem_walkOf h)
end

/-- What is found at a child whenever it is walked over is found on a walk over all children. -/
theorem mem_walkOfAll_of_child {front back : List Element} {e : Element} {p : Cursor} {i o : Nat}
    {found : List Violation}
    (h : ∀ found, v ∈ (visitor ctx).walkOf e
      (.child p (i + front.length) (o + Element.fullLenAll front) e) found) :
    v ∈ (visitor ctx).walkOfAll (front ++ e :: back) p i o found := by
  induction front generalizing i o found with
  | nil =>
    rw [List.nil_append, Visitor.walkOfAll]
    rw [Element.fullLenAll] at h
    exact mem_walkOfAll (h found)
  | cons f front ih =>
    rw [List.cons_append, Visitor.walkOfAll]
    refine ih ?_
    rwa [List.length_cons, Element.fullLenAll, Nat.add_comm front.length, ← Nat.add_assoc,
      ← Nat.add_assoc] at h

theorem mem_walkOf_block {c : Cursor} {k : SyntaxKind} {es front back : List Element} {e : Element}
    (hc : c.element = .node k es) (hes : es = front ++ e :: back)
    (hk : k = .sourceFile ∨ k = .codeBlockItem)
    (h : ∀ found, v ∈ (visitor ctx).walkOf e
      (.child c front.length (c.offset + Element.fullLenAll front) e) found)
    (found : List Violation) : v ∈ (visitor ctx).walkOf (.node k es) c found := by
  have hkind : c.kind = k := by rw [Cursor.kind, hc]; rfl
  have henter : (visitor ctx).enter c found = (true, found) := by
    rcases hk with rfl | rfl <;> simp only [visitor, hkind]
  have hnode : ¬ k.isToken = true := by rcases hk with rfl | rfl <;> decide
  rw [Visitor.walkOf, if_neg hnode, henter, hes]
  refine mem_walkOfAll_of_child ?_
  rwa [Nat.zero_add]

theorem mem_walkOf_import {c : Cursor} {e : Element} (hc : c.element = e)
    (hkind : c.kind = .importDecl) (hunused : isUnused ctx c = true) (found : List Violation) :
    .plain c.position ∈ (visitor ctx).walkOf e c found := by
  have henter : (visitor ctx).enter c found = (false, found ++ [.plain c.position]) := by
    simp only [visitor, hkind, hunused, if_true]
  rw [Cursor.kind, hc] at hkind
  cases e with
  | token t =>
    have hkind : t.kind = .importDecl := hkind
    rw [Visitor.walkOf, hkind, if_neg (by decide), henter]
    exact List.mem_append_right _ List.mem_cons_self
  | node k es =>
    have hkind : k = .importDecl := hkind
    rw [Visitor.walkOf, hkind, if_neg (by decide), henter]
    exact List.mem_append_right _ List.mem_cons_self

/-- An import that is removed is found, and the rule is not disabled there. -/
theorem mem_walk_of_removable? {disabled : DisabledRegions} {index : Nat} {decl : Cursor}
    (hparse : parse source = .ok tree)
    (h : removable? ctx disabled (.root tree) = some (index, decl)) :
    .plain decl.position ∈ (visitor ctx).walk (.root tree) [] ∧
      disabled.isSuppressed decl.position = false := by
  obtain ⟨item, hitem, h⟩ := List.exists_of_findSome?_eq_some h
  simp only [bind, Option.bind_eq_some_iff, Option.ite_none_right_eq_some] at h
  obtain ⟨decl', hfilter, hunused, heq⟩ := h
  cases heq
  rw [Bool.and_eq_true, Bool.not_eq_true'] at hunused
  refine ⟨?_, hunused.2⟩
  obtain ⟨hdecl, hkind⟩ := Option.filter_eq_some_iff.mp hfilter
  obtain ⟨-, items, t, rfl, hitems⟩ := shaped_parse hparse
  obtain ⟨front, e, back, hes, rfl⟩ := Cursor.exists_of_mem_children hitem
  obtain ⟨front', e', back', hfs, rfl⟩ := Cursor.exists_of_mem_children (List.mem_of_getElem? hdecl)
  have hes : items ++ [.token t] = front ++ e :: back := hes
  have hfs : e.children = front' ++ e' :: back' := hfs
  -- the end of the file has no children, so the import is in a statement
  obtain ⟨fs, rfl⟩ : ∃ fs, e = .node .codeBlockItem fs := by
    have hmem : e ∈ items ++ [.token t] := by rw [hes]; simp
    rw [List.mem_append, List.mem_singleton] at hmem
    rcases hmem with hmem | rfl
    · exact hitems e hmem
    · simp [Element.children] at hfs
  refine mem_walkOf_block rfl hes (.inl rfl) (fun found => ?_) []
  refine mem_walkOf_block rfl hfs (.inr rfl) (fun found => ?_) found
  exact mem_walkOf_import rfl (by simpa using hkind) hunused.1 found

/-- The rule about imports corrects nothing but what it finds. -/
theorem rule_correctsOnly (h : SourceUnit.ofText source = .ok ctx.unit) (severity : Severity) :
    (rule severity).CorrectsOnly ctx := by
  have hparse := SourceUnit.parse_of_ofText h
  obtain ⟨-, items, t, htree, -⟩ := shaped_parse hparse
  obtain ⟨fix, hnode⟩ : ∃ fix,
      (fixer ctx).node (.root ctx.unit.tree) ctx.unit.tree () = .ok (fix, ()) := ⟨_, rfl⟩
  obtain ⟨fixed, hrun, -⟩ := Fixer.run_of_visit_eq_false (x := fixer ctx)
    (ctx.unit.disabledRegions description) rfl (htree ▸ hnode)
  rw [← htree] at hrun
  refine ⟨_, _, rfl, congrArg some hrun, fun p hp => ?_⟩
  rw [List.mem_mergeSort] at hp
  cases fix with
  | none => cases hp
  | some f =>
    have hf := congrArg Prod.fst (Except.ok.inj hnode)
    simp only [bind, Option.ite_none_left_eq_some, Option.bind_eq_some_iff] at hf
    obtain ⟨-, ⟨index, decl⟩, hremovable, es, -, heq⟩ := hf
    cases heq
    obtain ⟨hfound, hsuppressed⟩ := mem_walk_of_removable? hparse hremovable
    rw [Fixer.accept] at hp
    split_ifs at hp
    · rw [List.mem_singleton.mp hp, Rule.unsuppressed, List.mem_filter, Bool.not_eq_true']
      exact ⟨List.mem_map_of_mem (f := Violation.position) hfound, hsuppressed⟩
    · cases hp

end UnusedImport

end SwiftTidy
