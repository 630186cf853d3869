import SwiftTidy.Proofs.Lint.KeptTokens
import SwiftTidy.Proofs.Lint.Reports
import SwiftTidy.Proofs.Parse.Phrases
import SwiftTidy.Rules.Colon
import SwiftTidy.Rules.ReturnArrowWhitespace

/-!
# Colons and return arrows

Both rules edit the spacing around a token, and correct nothing but what they find.  The colons
that are looked at meet the tokens in front of them at different places, because no node has two
children that start with such a colon (`Element.Shape`), so their rule corrects all that it finds.
-/

namespace SwiftTidy

variable {source : String} {tree : Element}

/-! ### Edits around a token -/

theorem endPosition_le_of_prevToken? {x q : Cursor} (h : parse source = .ok tree)
    (hx : x ∈ (Cursor.root tree).tokens) (hq : x.prevToken? = some q) :
    q.endPosition ≤ x.position := by
  obtain ⟨hplaced, hroot⟩ := Cursor.isPlaced_of_mem_descendants (List.mem_filter.mp hx).1
  have hend : q.fullEnd = x.offset :=
    Cursor.fullEnd_of_prevToken? hplaced (by rw [hroot]; exact wellKinded_parse h) hq
  have hqend := q.endPosition_le_fullEnd
  have hx : x.offset ≤ x.position := Nat.le_add_right _ _
  omega

namespace SpacingEdit

/-- An edit for a violation at the token, or right behind the token in front of it. -/
theorem isBetween {e : SpacingEdit} {prev next : Cursor} (h : parse source = .ok tree)
    (hmem : e.token ∈ (Cursor.root tree).tokens) (hprev : e.token.prevToken? = some prev)
    (hnext : e.token.nextToken? = some next)
    (hposition : e.position = prev.endPosition ∨ e.position = e.token.position) :
    e.IsBetween (.root tree) := by
  have hle := endPosition_le_of_prevToken? h hmem hprev
  exact ⟨hmem, ⟨next, hnext⟩, prev, hprev, by omega, by omega⟩

/-- No comment is behind a token and no line break either, so there is only whitespace. -/
theorem withoutWhitespace_trailingTrivia {x : Cursor} {t : Token} (h : parse source = .ok tree)
    (hx : x ∈ (Cursor.root tree).tokens) (ht : x.element = .token t)
    (hcomment : x.trailingTrivia.containsComment = false) :
    t.trailing.withoutWhitespace = [] := by
  obtain ⟨u, hu, hleaf⟩ := Cursor.exists_token_of_mem_tokensOf (wellKinded_parse h) rfl hx
  obtain rfl : t = u := Element.token.inj (ht.symm.trans hu)
  have hkinded := wellKinded_of_mem_descendants h (List.mem_filter.mp hx).1
  rw [Cursor.trailingTrivia_token (ht ▸ hkinded) ht] at hcomment
  rw [Trivia.withoutWhitespace_eq_nil_iff]
  exact Trivia.isWhitespaceOnly_of hcomment (containsNewline_trailing h hleaf)

/-- An edit that sets whitespace between tokens without comments exchanges nothing else. -/
theorem isBlank {e : SpacingEdit} {prev : Cursor} (h : parse source = .ok tree)
    (hmem : e.token ∈ (Cursor.root tree).tokens) (hprev : e.token.prevToken? = some prev)
    (hbefore : prev.trailingTrivia.containsComment = false)
    (hafter : e.token.trailingTrivia.containsComment = false)
    (hset : ∀ v, e.before = some v ∨ e.after = some v → v.withoutWhitespace = []) : e.IsBlank where
  before v hv := by
    have hlinked : Cursor.Linked none (Cursor.root tree).tokens none :=
      Cursor.linked_tokensOf tree (.root tree) (wellKinded_parse h) rfl
    have hfront := (hlinked.mem_dropLast_of_prevToken? hmem hprev).resolve_left nofun
    refine ⟨hset v (.inl hv), fun prev' t hprev' ht => ?_⟩
    obtain rfl : prev = prev' := Option.some.inj (hprev.symm.trans hprev')
    exact withoutWhitespace_trailingTrivia h (List.dropLast_subset _ hfront) ht hbefore
  after v hv :=
    ⟨hset v (.inr hv), fun t ht => withoutWhitespace_trailingTrivia h hmem ht hafter⟩

section Rule

variable {r : Rule} {ctx : Context} {edits : List SpacingEdit}

/-- A rule that makes edits corrects nothing but the violations that they are for. -/
theorem correctsOnly (h : SourceUnit.ofText source = .ok ctx.unit)
    (hfind : r.find ctx = .ok (edits.map fun e => .plain e.position))
    (hfix : r.fix? ctx =
      some ((fixer edits).run () (ctx.unit.disabledRegions r.description) ctx.unit.tree))
    (hedits : ∀ e ∈ edits, e.IsBetween ctx.root) : r.CorrectsOnly ctx := by
  obtain ⟨fixed, hrun⟩ := run_fixer_eq (SourceUnit.parse_of_ofText h)
    (SourceUnit.disabledRegions_isSeparated h r.description) hedits
  refine ⟨_, _, hfind, by rw [hfix, hrun], fun p hp => ?_⟩
  rw [List.mem_mergeSort, List.mem_flatMap] at hp
  obtain ⟨c, -, hp⟩ := hp
  obtain ⟨⟨e, he, hposition⟩, hsuppressed⟩ := exists_of_mem_recordedAt hp
  rw [Rule.unsuppressed, List.map_map, List.mem_filter, List.mem_map, Bool.not_eq_true']
  exact ⟨⟨e, he, hposition⟩, hsuppressed⟩

/-- A rule that makes edits at different places corrects all violations that they are for. -/
theorem correctsAll (h : SourceUnit.ofText source = .ok ctx.unit)
    (hfind : r.find ctx = .ok (edits.map fun e => .plain e.position))
    (hfix : r.fix? ctx =
      some ((fixer edits).run () (ctx.unit.disabledRegions r.description) ctx.unit.tree))
    (hedits : ∀ e ∈ edits, e.IsBetween ctx.root) (hfull : ∀ e ∈ edits, e.isEmpty = false)
    (hapart : edits.Pairwise fun a b =>
      a.token.commonAncestorWithPrevious? ≠ b.token.commonAncestorWithPrevious?) :
    r.CorrectsAll ctx := by
  obtain ⟨fixed, hrun⟩ := run_fixer_eq (SourceUnit.parse_of_ofText h)
    (SourceUnit.disabledRegions_isSeparated h r.description) hedits
  refine ⟨_, _, hfind, by rw [hfix, hrun], ?_⟩
  have hperm := flatMap_recordedAt_perm (ctx.unit.disabledRegions r.description)
    (SourceUnit.parse_of_ofText h) hedits hfull hapart
  refine eq_mergeSort_of_perm (List.pairwise_mergeSort' (· ≤ ·) _) ?_
  rw [Rule.unsuppressed, List.map_map]
  exact (List.mergeSort_perm _ _).trans hperm

end Rule

end SpacingEdit

/-! ### Return arrows -/

namespace ReturnArrowWhitespace

theorem edit?_eq_some {arrow : Cursor} {e : SpacingEdit} (h : edit? arrow = some e) :
    ∃ prev next, arrow.prevToken? = some prev ∧ arrow.nextToken? = some next ∧ e.token = arrow ∧
      (e.position = prev.endPosition ∨ e.position = arrow.position) := by
  simp only [edit?, bind, Option.bind_eq_some_iff, Option.ite_none_left_eq_some] at h
  obtain ⟨prev, hprev, next, hnext, -, -, heq⟩ := h
  cases heq
  refine ⟨prev, next, hprev, hnext, rfl, ?_⟩
  dsimp only
  split_ifs
  · exact .inr rfl
  · exact .inl rfl

theorem isBetween_of_mem_edits {e : SpacingEdit} (h : parse source = .ok tree)
    (he : e ∈ edits (.root tree)) : e.IsBetween (.root tree) := by
  rw [edits, List.mem_filterMap] at he
  obtain ⟨arrow, harrow, hedit⟩ := he
  obtain ⟨prev, next, hprev, hnext, rfl, hposition⟩ := edit?_eq_some hedit
  exact SpacingEdit.isBetween h (List.mem_filter.mp harrow).1 hprev hnext hposition

theorem isBlank_of_mem_edits {e : SpacingEdit} (h : parse source = .ok tree)
    (he : e ∈ edits (.root tree)) : e.IsBlank := by
  rw [edits, List.mem_filterMap] at he
  obtain ⟨arrow, harrow, hedit⟩ := he
  simp only [edit?, bind, Option.bind_eq_some_iff, Option.ite_none_left_eq_some] at hedit
  obtain ⟨prev, hprev, next, hnext, hcomments, -, heq⟩ := hedit
  cases heq
  simp only [List.any_cons, List.any_nil, Bool.or_eq_true, not_or, Bool.not_eq_true] at hcomments
  refine SpacingEdit.isBlank h (List.mem_filter.mp harrow).1 hprev hcomments.1 hcomments.2.2.1 ?_
  rintro v (hv | hv)
  · cases (Option.ite_none_left_eq_some.mp hv).2
    rfl
  · cases (Option.ite_none_left_eq_some.mp hv).2
    rfl

theorem rule_correctsOnly {ctx : Context} (h : SourceUnit.ofText source = .ok ctx.unit)
    (severity : Severity) : (rule severity).CorrectsOnly ctx :=
  SpacingEdit.correctsOnly h rfl rfl fun _ he =>
    isBetween_of_mem_edits (SourceUnit.parse_of_ofText h) he

end ReturnArrowWhitespace

/-! ### Colons -/

namespace Colon

variable {o : Options} {x : Cursor}

/-- A token that stands in a node in which the spacing around colons matters. -/
def IsHosted (x : Cursor) : Prop := ∃ p, x.parent? = some p ∧ p.kind.isColonHost = true

/-- A colon that is looked at stands in a node in which the spacing around it matters. -/
theorem isHosted_of_sides? {sides : Sides} (h : sides? o x = some sides) : IsHosted x := by
  rw [sides?, Option.bind_eq_some_iff] at h
  obtain ⟨p, hp, hsides⟩ := h
  refine ⟨p, hp, ?_⟩
  split at hsides
  all_goals first
    | next hkind => rw [hkind]; rfl
    | cases hsides

theorem edit?_eq_some {e : SpacingEdit} (h : edit? o x = some e) :
    ∃ prev next, x.prevToken? = some prev ∧ x.nextToken? = some next ∧ e.token = x ∧
      e.position = prev.endPosition ∧ e.isEmpty = false ∧ IsHosted x := by
  simp only [edit?, bind, Option.bind_eq_some_iff, Option.ite_none_left_eq_some] at h
  obtain ⟨sides, hsides, prev, hprev, next, hnext, -, hfull, heq⟩ := h
  cases heq
  exact ⟨prev, next, hprev, hnext, rfl, rfl, Bool.not_eq_true _ ▸ hfull, isHosted_of_sides? hsides⟩

mutual
/-- An element whose first token is a colon that is looked at opens with a colon. -/
theorem opensAtColon_of_firstToken? (hkind : x.kind = .colon) (hhost : IsHosted x) :
    ∀ (e : Element) (p : Cursor) (i o : Nat), e.WellKinded →
    Cursor.firstTokenOf? e (.child p i o e) = some x → Element.opensAtColon p.kind e = true
  | .token t, p, i, o, he, hfirst => by
    rw [Cursor.firstTokenOf?, if_pos ((Element.wellKinded_token t).mp he)] at hfirst
    cases hfirst
    obtain ⟨q, hparent, hq⟩ := hhost
    cases hparent
    have hcolon : t.kind = .colon := hkind
    rw [Element.opensAtColon_token, hcolon, hq]
    rfl
  | .node k es, p, i, o, he, hfirst => by
    rw [Cursor.firstTokenOf?, if_neg (by simp [he.isToken_eq_false])] at hfirst
    rw [Element.opensAtColon_node]
    exact frontOpensAtColon_of_firstToken? hkind hhost es (.child p i o (.node k es)) 0 _
      ((Element.wellKinded_node k es).mp he).2 hfirst
theorem frontOpensAtColon_of_firstToken? (hkind : x.kind = .colon) (hhost : IsHosted x) :
    ∀ (es : List Element) (p : Cursor) (i o : Nat), Element.WellKindedAll es →
    Cursor.firstTokenOfAll? es p i o = some x → Element.frontOpensAtColon p.kind es = true
  | [], p, i, o, _, hfirst => by
    rw [Cursor.firstTokenOfAll?] at hfirst
    cases hfirst
  | e :: es, p, i, o, hes, hfirst => by
    obtain ⟨he, hes⟩ := (Element.wellKindedAll_cons e es).mp hes
    rw [Cursor.firstTokenOfAll?] at hfirst
    rw [Element.frontOpensAtColon]
    cases hhead : Cursor.firstTokenOf? e (.child p i o e) with
    | some y =>
      rw [hhead] at hfirst
      cases hfirst
      have hleaves : e.leaves ≠ [] := fun hnil => by
        rw [(Cursor.firstTokenOf?_eq_none_iff he rfl).mpr hnil] at hhead
        cases hhead
      rw [if_neg (by simpa using hleaves)]
      exact opensAtColon_of_firstToken? hkind hhost e p i o he hhead
    | none =>
      rw [hhead] at hfirst
      rw [if_pos (by simpa using (Cursor.firstTokenOf?_eq_none_iff he rfl).mp hhead)]
      exact frontOpensAtColon_of_firstToken? hkind hhost es p _ _ hes hfirst
end

/-- A colon with spacing on both of its sides that matters. -/
def IsTwoSided (x : Cursor) : Prop := ∃ p, x.parent? = some p ∧ p.kind.isTwoSided = true

mutual
/-- An element whose last token is a colon that is looked at on both sides ends with a colon. -/
theorem endsAtColon_of_getLast? (hkind : x.kind = .colon) (hsides : IsTwoSided x) :
    ∀ (e : Element) (p : Cursor) (i o : Nat), e.WellKinded →
    (Cursor.tokensOf e (.child p i o e)).getLast? = some x → Element.endsAtColon p.kind e = true
  | .token t, p, i, o, he, hlast => by
    rw [Cursor.tokensOf_token he rfl, List.getLast?_singleton] at hlast
    cases hlast
    obtain ⟨q, hparent, hq⟩ := hsides
    cases hparent
    have hcolon : t.kind = .colon := hkind
    rw [Element.endsAtColon_token, hcolon, hq]
    rfl
  | .node k es, p, i, o, he, hlast => by
    rw [Cursor.tokensOf_node he rfl] at hlast
    rw [Element.endsAtColon_node]
    exact backEndsAtColon_of_getLast? hkind hsides es (.child p i o (.node k es)) 0 _
      ((Element.wellKinded_node k es).mp he).2 hlast
theorem backEndsAtColon_of_getLast? (hkind : x.kind = .colon) (hsides : IsTwoSided x) :
    ∀ (es : List Element) (p : Cursor) (i o : Nat), Element.WellKindedAll es →
    (Cursor.tokensOfAll es p i o).getLast? = some x → Element.backEndsAtColon p.kind es = true
  | [], p, i, o, _, hlast => by
    rw [Cursor.tokensOfAll_nil] at hlast
    cases hlast
  | e :: es, p, i, o, hes, hlast => by
    obtain ⟨he, hes⟩ := (Element.wellKindedAll_cons e es).mp hes
    have hnil := Cursor.tokensOfAll_eq_nil_iff hes p (i + 1) (o + e.fullLen)
    rw [Cursor.tokensOfAll_cons, List.getLast?_append] at hlast
    rw [Element.backEndsAtColon]
    split_ifs with hempty
    · rw [hnil.mpr (by simpa using hempty), List.getLast?_nil, Option.none_or] at hlast
      exact endsAtColon_of_getLast? hkind hsides e p i o he hlast
    · cases hrest : (Cursor.tokensOfAll es p (i + 1) (o + e.fullLen)).getLast? with
      | none =>
        exact absurd (hnil.mp (List.getLast?_eq_none_iff.mp hrest)) (by simpa using hempty)
      | some y =>
        rw [hrest, Option.some_or] at hlast
        exact backEndsAtColon_of_getLast? hkind hsides es p _ _ hes (hrest.trans hlast)
end

/-- Of two members that pass a test which at most one of a list does, both are the same. -/
theorem front_eq_of_countP_le_one {α : Type} {test : α → Bool} {front front' back back' : List α}
    {a b : α} (h : front ++ a :: back = front' ++ b :: back') (ha : test a = true)
    (hb : test b = true) (hcount : (front ++ a :: back).countP test ≤ 1) : front = front' := by
  induction front generalizing front' with
  | nil =>
    cases front' with
    | nil => rfl
    | cons c front' =>
      obtain ⟨rfl, rfl⟩ := List.cons.inj h
      have hpos : 0 < (front' ++ b :: back').countP test :=
        List.countP_pos_iff.mpr ⟨b, by simp, hb⟩
      rw [List.nil_append, List.countP_cons_of_pos ha] at hcount
      have hcount : (front' ++ b :: back').countP test + 1 ≤ 1 := hcount
      omega
  | cons c front ih =>
    cases front' with
    | nil =>
      obtain ⟨rfl, -⟩ := List.cons.inj h
      rw [List.cons_append, List.countP_cons_of_pos hb, List.countP_append,
        List.countP_cons_of_pos ha] at hcount
      omega
    | cons d front' =>
      obtain ⟨rfl, hrest⟩ := List.cons.inj h
      rw [List.cons_append, List.countP_cons] at hcount
      rw [ih hrest (by omega)]

/-- A child whose first token is a colon that is looked at opens with a colon. -/
theorem opensAtColon_of_meetsAt {p : Cursor} {front back : List Element} {e : Element}
    (hkinded : p.element.WellKinded) (hmeets : x.MeetsAt p front e back) (hkind : x.kind = .colon)
    (hhost : IsHosted x) : Element.opensAtColon p.kind e = true := by
  have he := (Cursor.wellKinded_children hkinded hmeets.children).2.1
  exact opensAtColon_of_firstToken? hkind hhost e p _ _ he hmeets.first

/-- Colons that are looked at meet the tokens in front of them at different places. -/
theorem eq_of_meetsAt {p y : Cursor} {front front' back back' : List Element} {e e' : Element}
    (hshaped : p.element.Shaped) (hkinded : p.element.WellKinded)
    (hx : x.MeetsAt p front e back) (hy : y.MeetsAt p front' e' back') (hxkind : x.kind = .colon)
    (hykind : y.kind = .colon) (hxhost : IsHosted x) (hyhost : IsHosted y) : x = y := by
  have hcount : (front ++ e :: back).countP (Element.opensAtColon p.kind) ≤ 1 := by
    have hchildren := hx.children
    rw [Cursor.kind]
    cases hp : p.element with
    | token t => rw [hp] at hchildren; simp [Element.children] at hchildren
    | node k es =>
      rw [hp] at hshaped hchildren
      have hes : es = front ++ e :: back := hchildren
      exact hes ▸ ((Element.shaped_node k es).mp hshaped).1.colons.count
  have hchildren := hx.children.symm.trans hy.children
  obtain rfl := front_eq_of_countP_le_one hchildren
    (opensAtColon_of_meetsAt hkinded hx hxkind hxhost)
    (opensAtColon_of_meetsAt hkinded hy hykind hyhost) hcount
  obtain ⟨rfl, -⟩ := List.cons.inj (List.append_cancel_left hchildren)
  exact Option.some.inj (hx.first.symm.trans hy.first)

/-- Directly behind a colon that is looked at on both sides there is none that is looked at. -/
theorem not_isHosted_of_prevToken? {y : Cursor} (h : parse source = .ok tree)
    (hy : y ∈ (Cursor.root tree).tokens) (hprev : y.prevToken? = some x) (hxkind : x.kind = .colon)
    (hykind : y.kind = .colon) (hsides : IsTwoSided x) : ¬ IsHosted y := by
  intro hhost
  obtain ⟨p, front, e, back, hmeets, -, hp, hlast⟩ := Cursor.exists_meeting_of_parse h hy hprev
  have hkinded := wellKinded_of_mem_descendants h hp
  have hshaped := shaped_of_mem_descendants h hp
  have hends := backEndsAtColon_of_getLast? hxkind hsides front p 0 p.offset
    (Cursor.wellKinded_children hkinded hmeets.children).1 hlast
  have hopens := opensAtColon_of_meetsAt hkinded hmeets hykind hhost
  cases hnode : p.element with
  | token t =>
    have hchildren := hmeets.children
    rw [hnode] at hchildren
    simp [Element.children] at hchildren
  | node k es =>
    have hchildren := hmeets.children
    rw [hnode, Element.shaped_node] at hshaped
    rw [hnode] at hchildren
    have hcolons : Element.Colons k (front ++ e :: back) := hchildren ▸ hshaped.1.colons
    rw [Cursor.kind, hnode] at hends hopens
    cases hopens.symm.trans (hcolons.opensAtColon_eq_false hends (hmeets.leaves_ne_nil hkinded))

theorem isBetween_of_mem_edits {e : SpacingEdit} (h : parse source = .ok tree)
    (he : e ∈ edits o (.root tree)) : e.IsBetween (.root tree) := by
  rw [edits, List.mem_filterMap] at he
  obtain ⟨colon, hcolon, hedit⟩ := he
  obtain ⟨prev, next, hprev, hnext, rfl, hposition, -⟩ := edit?_eq_some hedit
  exact SpacingEdit.isBetween h (List.mem_filter.mp hcolon).1 hprev hnext (.inl hposition)

theorem isBlank_of_mem_edits {e : SpacingEdit} (h : parse source = .ok tree)
    (he : e ∈ edits o (.root tree)) : e.IsBlank := by
  rw [edits, List.mem_filterMap] at he
  obtain ⟨colon, hcolon, hedit⟩ := he
  simp only [edit?, bind, Option.bind_eq_some_iff, Option.ite_none_left_eq_some] at hedit
  obtain ⟨sides, -, prev, hprev, next, -, hcomments, -, heq⟩ := hedit
  cases heq
  simp only [List.any_cons, List.any_nil, Bool.or_eq_true, not_or, Bool.not_eq_true] at hcomments
  refine SpacingEdit.isBlank h (List.mem_filter.mp hcolon).1 hprev hcomments.1 hcomments.2.2.1 ?_
  rintro v (hv | hv)
  · cases (Option.ite_none_left_eq_some.mp hv).2
    rfl
  · cases (Option.ite_none_left_eq_some.mp hv).2
    rfl

theorem edits_apart (h : parse source = .ok tree) (o : Options) :
    (edits o (.root tree)).Pairwise fun a b =>
      a.token.commonAncestorWithPrevious? ≠ b.token.commonAncestorWithPrevious? := by
  have htokens : ((Cursor.root tree).tokens.filter (·.kind == .colon)).Pairwise
      fun x y => x.path ≠ y.path :=
    (List.pairwise_map.mp (Cursor.tokens_nodup (.root tree))).sublist List.filter_sublist
  rw [edits, List.pairwise_filterMap]
  refine htokens.imp_of_mem fun {x y} hx hy hne a ha b hb heq => hne ?_
  have hmemA : a ∈ edits o (.root tree) := List.mem_filterMap.mpr ⟨x, hx, ha⟩
  have hmemB : b ∈ edits o (.root tree) := List.mem_filterMap.mpr ⟨y, hy, hb⟩
  obtain ⟨p, front, e, back, hmeets, hp, hdescendant, -⟩ :=
    (isBetween_of_mem_edits h hmemA).exists_meeting h
  obtain ⟨q, front', e', back', hmeets', hq, -⟩ :=
    (isBetween_of_mem_edits h hmemB).exists_meeting h
  obtain rfl : p = q := Option.some.inj (hp.symm.trans (heq.trans hq))
  obtain ⟨-, -, -, -, rfl, -, -, hhost⟩ := edit?_eq_some ha
  obtain ⟨-, -, -, -, rfl, -, -, hhost'⟩ := edit?_eq_some hb
  rw [eq_of_meetsAt (shaped_of_mem_descendants h hdescendant)
    (wellKinded_of_mem_descendants h hdescendant) hmeets hmeets'
    (by simpa using (List.mem_filter.mp hx).2) (by simpa using (List.mem_filter.mp hy).2) hhost
    hhost']

/-- The rule about colons corrects all that it finds. -/
theorem rule_correctsAll {ctx : Context} (h : SourceUnit.ofText source = .ok ctx.unit)
    (o : Options) : (rule o).CorrectsAll ctx := by
  have hparse := SourceUnit.parse_of_ofText h
  refine SpacingEdit.correctsAll h rfl rfl (fun e he => isBetween_of_mem_edits hparse he) ?_
    (edits_apart hparse o)
  intro e he
  obtain ⟨colon, -, hedit⟩ := List.mem_filterMap.mp he
  obtain ⟨-, -, -, -, -, -, hfull, -⟩ := edit?_eq_some hedit
  exact hfull

end Colon

end SwiftTidy
