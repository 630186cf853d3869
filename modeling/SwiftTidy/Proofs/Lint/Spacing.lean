import SwiftTidy.Lint.TokenPair
import SwiftTidy.Proofs.Lint.Fixes
import SwiftTidy.Proofs.Parse.Lexemes
import SwiftTidy.Proofs.Parse.WellKinded
import SwiftTidy.Proofs.Tree.Meeting
import SwiftTidy.Proofs.Tree.Ranges

/-!
# Edits of the spacing between tokens

An edit is made at the place where its token meets the one in front of it (`MeetsAt`).  By then the
children of the place may have been edited too, but they have as many leaves as before, so both
tokens are still found (`edit_eq`).  So all that stops an edit is a disabled region, or another edit
that is made at the same place: `run_fixer_eq` says what is recorded.
-/

namespace SwiftTidy

/-- Relations that hold of the members of lists one by one are taken together. -/
theorem forall₂_trans {α β γ : Type} {R : α → β → Prop} {S : β → γ → Prop} {T : α → γ → Prop} {xs : List α}
    {ys : List β} {zs : List γ} (h : List.Forall₂ R xs ys) (h' : List.Forall₂ S ys zs)
    (hT : ∀ x y z, R x y → S y z → T x z) : List.Forall₂ T xs zs := by
  induction h generalizing zs with
  | nil =>
    cases h'
    exact .nil
  | cons hhead _ ih =>
    cases h' with
    | cons hhead' htail' => exact .cons (hT _ _ _ hhead hhead') (ih htail')

/-! ### The number of leaves -/

namespace Element

/-- One element has as many leaves as another. -/
def SameLeafCount (e e' : Element) : Prop := e'.leaves.length = e.leaves.length

/-- One element has leaves where another has. -/
def SameSlot (e e' : Element) : Prop := e'.leaves = [] ↔ e.leaves = []

theorem SameLeafCount.sameSlot {e e' : Element} (h : e.SameLeafCount e') : e.SameSlot e' := by
  rw [SameSlot, ← List.length_eq_zero_iff, ← List.length_eq_zero_iff, h]

theorem leavesAll_eq_nil_of_sameSlot {es es' : List Element} (h : List.Forall₂ SameSlot es es') :
    leavesAll es' = [] ↔ leavesAll es = [] := by
  induction h with
  | nil => rfl
  | cons hhead htail ih =>
    rw [SameSlot] at hhead
    rw [leavesAll_cons, leavesAll_cons, List.append_eq_nil_iff, List.append_eq_nil_iff, ih, hhead]

theorem length_leavesAll_of_sameLeafCount {es es' : List Element}
    (h : List.Forall₂ SameLeafCount es es') : (leavesAll es').length = (leavesAll es).length := by
  induction h with
  | nil => rfl
  | cons hhead htail ih =>
    rw [leavesAll_cons, leavesAll_cons, List.length_append, List.length_append, ih, hhead]

theorem length_leavesAll_set {es : List Element} {i : Nat} {e e' : Element} (hi : es[i]? = some e)
    (h : e.SameLeafCount e') : (leavesAll (es.set i e')).length = (leavesAll es).length := by
  induction es generalizing i with
  | nil => rfl
  | cons f es ih =>
    cases i with
    | zero =>
      cases hi
      rw [List.set_cons_zero, leavesAll_cons, leavesAll_cons, List.length_append,
        List.length_append, h]
    | succ i =>
      rw [List.set_cons_succ, leavesAll_cons, leavesAll_cons, List.length_append,
        List.length_append, ih hi]

/-- The leaves around a child. -/
theorem leavesAll_of_getElem? {es : List Element} {i : Nat} {e : Element} (hi : es[i]? = some e) :
    leavesAll es = leavesAll (es.take i) ++ e.leaves ++ leavesAll (es.drop (i + 1)) := by
  obtain ⟨hlt, rfl⟩ := List.getElem?_eq_some_iff.mp hi
  conv_lhs => rw [← List.take_append_drop i es, List.drop_eq_getElem_cons hlt]
  rw [leavesAll_append, leavesAll_cons, List.append_assoc]

/-- The leaves after a child was exchanged. -/
theorem leavesAll_set {es : List Element} {i : Nat} {e e' : Element} (hi : es[i]? = some e) :
    leavesAll (es.set i e') =
      leavesAll (es.take i) ++ e'.leaves ++ leavesAll (es.drop (i + 1)) := by
  obtain ⟨hlt, -⟩ := List.getElem?_eq_some_iff.mp hi
  rw [List.set_eq_take_append_cons_drop, if_pos hlt, leavesAll_append, leavesAll_cons,
    List.append_assoc]

theorem sameLeafCount_mapFirstToken (f : Token → Token) (e : Element) :
    e.SameLeafCount (e.mapFirstToken f) := by
  rw [SameLeafCount]
  cases hleaves : e.leaves with
  | nil => rw [mapFirstToken_of_leaves_eq_nil hleaves, hleaves]
  | cons t ts => rw [leaves_mapFirstToken hleaves, List.length_cons, List.length_cons]

theorem sameLeafCount_mapLastToken (f : Token → Token) (e : Element) :
    e.SameLeafCount (e.mapLastToken f) := by
  rw [SameLeafCount]
  rcases List.eq_nil_or_concat e.leaves with hleaves | ⟨ts, t, hleaves⟩
  · rw [mapLastToken_of_leaves_eq_nil hleaves]
  · rw [List.concat_eq_append] at hleaves
    rw [leaves_mapLastToken hleaves, hleaves, List.length_append, List.length_append]
    rfl

end Element

/-! ### One edit -/

namespace Cursor

/-- On the way up from a place, a child of `p` is the first place whose parent is where `p` is. -/
theorem find?_parent_samePlace {p : Cursor} {i o : Nat} {e : Element} :
    ∀ {x : Cursor}, child p i o e ∈ x :: x.ancestors →
    ((x :: x.ancestors).find? fun y => y.parent?.any (·.samePlace p)) = some (child p i o e)
  | root f, h => by simp [ancestors] at h
  | child q j o' f, h => by
    rw [List.mem_cons] at h
    rcases h with h | h
    · cases h
      simp [parent?, samePlace]
    · -- what is above `q` or `q` itself is a child of `p`, so `q` is not where `p` is
      have hle := length_path_le (x := q) h
      have hne : q.samePlace p = false := by
        rw [samePlace, beq_eq_false_iff_ne]
        intro heq
        rw [path, heq, List.length_append, List.length_singleton] at hle
        omega
      rw [List.find?_cons_of_neg (by simp [parent?, hne]), ancestors]
      exact find?_parent_samePlace (x := q) h

/-- In a parsed tree every token meets the one in front of it. -/
theorem exists_meeting_of_parse {source : String} {tree : Element} {x q : Cursor}
    (h : parse source = .ok tree) (hx : x ∈ (root tree).tokens) (hq : x.prevToken? = some q) :
    ∃ p front e back, MeetsAt x p front e back ∧ x.commonAncestorWithPrevious? = some p ∧
      p ∈ (root tree).descendants ∧ (tokensOfAll front p 0 p.offset).getLast? = some q := by
  have hkinded := wellKinded_parse h
  have hlinked : Linked none (root tree).tokens none := linked_tokensOf tree (root tree) hkinded rfl
  obtain ⟨s, hs, hcut⟩ := isCut_of_mem_dropLast h
    ((hlinked.mem_dropLast_of_prevToken? hx hq).resolve_left nofun)
  obtain ⟨hdescendant, htoken⟩ := List.mem_filter.mp hx
  obtain ⟨hplaced, hroot⟩ := isPlaced_of_mem_descendants hdescendant
  have hpos : 0 < q.element.fullLen := by
    have := hcut.len_pos
    rw [hs, Element.fullLen, Token.fullLen]
    omega
  obtain ⟨p, front, e, back, hmeets, hcommon, hlast⟩ :=
    exists_meeting hplaced (by rw [hroot]; exact hkinded) htoken hq hpos
  exact ⟨p, front, e, back, hmeets, hcommon,
    mem_descendants_of_mem_ancestors hdescendant (mem_ancestors_of_child hmeets.below), hlast⟩

end Cursor

namespace TokenPair

/-- Where some of the first elements has a leaf, the last one that has any is found. -/
theorem lastWithLeaf_eq {es : List Element} {n : Nat} (hn : n ≤ es.length)
    (h : Element.leavesAll (es.take n) ≠ []) : ∃ i e, i < n ∧ lastWithLeaf es n = .ok (some i) ∧
      es[i]? = some e ∧ e.leaves ≠ [] ∧
      Element.leavesAll (es.take n) = Element.leavesAll (es.take i) ++ e.leaves := by
  induction n with
  | zero => exact absurd Element.leavesAll_nil h
  | succ n ih =>
    obtain ⟨e, he⟩ : ∃ e, es[n]? = some e := ⟨es[n], List.getElem?_eq_getElem hn⟩
    have htake : Element.leavesAll (es.take (n + 1)) = Element.leavesAll (es.take n) ++ e.leaves := by
      rw [List.take_add_one, he, Option.toList_some, Element.leavesAll_append,
        Element.leavesAll_cons, Element.leavesAll_nil, List.append_nil]
    rw [lastWithLeaf, he, htake]
    rw [htake] at h
    dsimp only
    rw [Element.lastToken?_eq]
    split_ifs with hlast
    · refine ⟨n, e, Nat.lt_succ_self n, rfl, he, ?_, rfl⟩
      intro hnil
      rw [hnil] at hlast
      cases hlast
    · have hnone : e.leaves = [] := by simpa using hlast
      rw [hnone, List.append_nil] at h ⊢
      obtain ⟨i, e', hi, heq, he', hleaves, htake'⟩ := ih (by omega) h
      exact ⟨i, e', by omega, heq, he', hleaves, htake'⟩

/-- Where none of the first elements has a leaf, none is found. -/
theorem lastWithLeaf_eq_none {es : List Element} {n : Nat} (hn : n ≤ es.length)
    (h : Element.leavesAll (es.take n) = []) : lastWithLeaf es n = .ok none := by
  induction n with
  | zero => rfl
  | succ n ih =>
    obtain ⟨e, he⟩ : ∃ e, es[n]? = some e := ⟨es[n], List.getElem?_eq_getElem hn⟩
    rw [List.take_add_one, he, Option.toList_some, Element.leavesAll_append, Element.leavesAll_cons,
      Element.leavesAll_nil, List.append_nil, List.append_eq_nil_iff] at h
    rw [lastWithLeaf, he]
    dsimp only
    rw [Element.lastToken?_eq, h.2, if_neg (by simp), ih (by omega) h.1]

theorem lt_of_lastWithLeaf {es : List Element} {n i : Nat}
    (h : lastWithLeaf es n = .ok (some i)) : i < n := by
  induction n with
  | zero =>
    rw [lastWithLeaf] at h
    cases h
  | succ n ih =>
    rw [lastWithLeaf] at h
    split at h
    · cases h
    · split_ifs at h
      · cases h
        exact Nat.lt_succ_self i
      · exact Nat.lt_succ_of_lt (ih h)

/-- Where some child holds the token and has leaves, and so have the children in front of it, the
edit changes the last leaf of these and the first one of the others. -/
theorem edit_child_eq {x p : Cursor} {n o : Nat} {e r : Element} {k : SyntaxKind} {es : List Element}
    {ts us : List Token} {t u : Token} (hbelow : Cursor.child p n o e ∈ x :: x.ancestors)
    (hr : es[n]? = some r) (hleaves : r.leaves ≠ [])
    (hfront : Element.leavesAll (es.take n) = ts ++ [t])
    (hback : Element.leavesAll (es.drop n) = u :: us) (f g : Token → Token) :
    ∃ e', edit p (.node k es) x f g = .ok (some e') ∧ e'.leaves = ts ++ f t :: g u :: us := by
  obtain ⟨hlt, hget⟩ := List.getElem?_eq_some_iff.mp hr
  obtain ⟨i, l, hi, hlast, hl, hlne, htake⟩ := lastWithLeaf_eq (Nat.le_of_lt hlt)
    (show Element.leavesAll (es.take n) ≠ [] by rw [hfront]; simp)
  obtain ⟨ts', t', hts⟩ := (List.eq_nil_or_concat l.leaves).resolve_left hlne
  rw [List.concat_eq_append] at hts
  rw [hfront, hts, ← List.append_assoc] at htake
  obtain ⟨rfl, htt⟩ := List.append_inj' htake rfl
  obtain rfl := List.singleton_inj.mp htt
  obtain ⟨v, vs, hvs⟩ := List.exists_cons_of_ne_nil hleaves
  have hdrop : es.drop n = r :: es.drop (n + 1) := by rw [List.drop_eq_getElem_cons hlt, hget]
  rw [hdrop, Element.leavesAll_cons, hvs] at hback
  obtain ⟨rfl, rfl⟩ := List.cons_eq_cons.mp hback
  refine ⟨.node k ((es.set i (l.mapLastToken f)).set n (r.mapFirstToken g)), ?_, ?_⟩
  · rw [edit, Cursor.find?_parent_samePlace hbelow]
    simp only [Element.children, Element.kind, Cursor.index, hlast, hl, hr, bind, Except.bind]
    rfl
  · have hedited : Element.leavesAll ((es.set i (l.mapLastToken f)).take n) =
        Element.leavesAll (es.take i) ++ ts' ++ [f t] := by
      have hset : (es.take n)[i]? = some l := by rw [List.getElem?_take_of_lt hi, hl]
      have hsplit := Element.leavesAll_of_getElem? hset
      rw [List.take_take, Nat.min_eq_left (by omega), hfront, hts, ← List.append_assoc,
        List.self_eq_append_right] at hsplit
      rw [List.take_set, Element.leavesAll_set hset, List.take_take, Nat.min_eq_left (by omega),
        Element.leaves_mapLastToken hts, hsplit, List.append_nil, List.append_assoc]
    rw [Element.leaves_node, List.set_eq_take_append_cons_drop, if_pos (by rwa [List.length_set]),
      Element.leavesAll_append, Element.leavesAll_cons, hedited, Element.leaves_mapFirstToken hvs,
      List.drop_set_of_lt (by omega)]
    simp

/-- Children that have as many leaves as those of a place where two tokens meet have as many as there
are tokens, and so have those in front. -/
theorem length_leavesAll_of_meetsAt {x p : Cursor} {front back : List Element} {e : Element}
    {es : List Element} (hmeets : x.MeetsAt p front e back)
    (hp : p.element.WellKinded) (hes : List.Forall₂ Element.SameLeafCount (front ++ e :: back) es) :
    (Element.leavesAll (es.take front.length)).length =
        (Cursor.tokensOfAll front p 0 p.offset).length ∧
      (Element.leavesAll es).length = (Cursor.tokensOf p.element p).length := by
  have hkinds := Cursor.wellKindedAll_children hp
  rw [hmeets.children] at hkinds
  have hfront := Element.length_leavesAll_of_sameLeafCount (List.forall₂_take front.length hes)
  rw [List.take_left] at hfront
  rw [Cursor.length_tokensOfAll ((Element.wellKindedAll_append _ _).mp hkinds).1,
    Cursor.tokensOf_eq_children hp hmeets.children, Cursor.length_tokensOfAll hkinds]
  exact ⟨hfront, Element.length_leavesAll_of_sameLeafCount hes⟩

/-- Where a token meets the one in front of it both are found, whatever became of the children as
long as the same ones have leaves.  The edit changes the last leaf of the children in front and the
first one of the others. -/
theorem edit_eq {x p : Cursor} {front back : List Element} {e : Element} {es : List Element}
    (hmeets : x.MeetsAt p front e back) (hp : p.element.WellKinded)
    (hes : List.Forall₂ Element.SameSlot (front ++ e :: back) es) :
    ∃ ts t u us, Element.leavesAll (es.take front.length) = ts ++ [t] ∧
      Element.leavesAll (es.drop front.length) = u :: us ∧
      ∀ k f g, ∃ r, edit p (.node k es) x f g = .ok (some r) ∧ r.leaves = ts ++ f t :: g u :: us := by
  have htake := List.forall₂_take front.length hes
  have hdrop := List.forall₂_drop front.length hes
  rw [List.take_left] at htake
  rw [List.drop_left] at hdrop
  obtain ⟨ts, t, hfront⟩ := (List.eq_nil_or_concat (Element.leavesAll (es.take front.length))).resolve_left
    (mt (Element.leavesAll_eq_nil_of_sameSlot htake).mp hmeets.leaves)
  rw [List.concat_eq_append] at hfront
  -- the child that starts with the token still has leaves
  obtain ⟨r, rs, hr, -, hrs⟩ := List.forall₂_cons_left_iff.mp hdrop
  have hleaves : r.leaves ≠ [] := mt hr.mp (hmeets.leaves_ne_nil hp)
  obtain ⟨u, us, hback⟩ : ∃ u us, Element.leavesAll (es.drop front.length) = u :: us := by
    refine List.exists_cons_of_ne_nil ?_
    rw [hrs, Element.leavesAll_cons]
    exact List.append_ne_nil_of_left_ne_nil hleaves _
  refine ⟨ts, t, u, us, hfront, hback, fun k f g => ?_⟩
  refine edit_child_eq hmeets.below ?_ hleaves hfront hback f g
  rw [← List.head?_drop, hrs]
  rfl

end TokenPair

/-! ### All edits -/

namespace SpacingEdit

variable {source : String} {tree : Element} {edits : List SpacingEdit} {e : SpacingEdit}
  {disabled : DisabledRegions}

/-- An edit around a token that has neighbours, for a violation between it and the one in front. -/
structure IsBetween (root : Cursor) (e : SpacingEdit) : Prop where
  mem : e.token ∈ root.tokens
  next : ∃ next, e.token.nextToken? = some next
  prev : ∃ prev, e.token.prevToken? = some prev ∧
    prev.endPosition ≤ e.position ∧ e.position ≤ e.token.position

/-- The violation of an edit lies in the range of the place at which it is made, where the token in
front is the last one of the children in front. -/
theorem IsBetween.exists_meeting (h : parse source = .ok tree) (he : e.IsBetween (.root tree)) :
    ∃ p front child back, e.token.MeetsAt p front child back ∧
      e.token.commonAncestorWithPrevious? = some p ∧ p ∈ (Cursor.root tree).descendants ∧
      p.position ≤ e.position ∧ e.position < p.endPosition ∧
      (Cursor.tokensOfAll front p 0 p.offset).getLast? = e.token.prevToken? := by
  have hlinked : Cursor.Linked none (Cursor.root tree).tokens none :=
    Cursor.linked_tokensOf tree (.root tree) (wellKinded_parse h) rfl
  obtain ⟨next, hnext⟩ := he.next
  obtain ⟨prev, hprev, hfrom, hto⟩ := he.prev
  obtain ⟨t, ht, hcut⟩ := isCut_of_mem_dropLast h
    ((hlinked.mem_dropLast_of_nextToken? he.mem hnext).resolve_left nofun)
  obtain ⟨p, front, child, back, hmeets, hcommon, hp, hq⟩ :=
    Cursor.exists_meeting_of_parse h he.mem hprev
  have hpkinded := wellKinded_of_mem_descendants h hp
  have hprevBounds := Cursor.bounds_of_mem_tokensOf hpkinded (hmeets.mem_tokensOf_of_front hpkinded
    (List.mem_of_getLast? hq))
  have hbounds := Cursor.bounds_of_mem_tokensOf hpkinded (hmeets.mem_tokensOf hpkinded)
  refine ⟨p, front, child, back, hmeets, hcommon, hp, ?_, ?_, hq.trans hprev.symm⟩
  · have : prev.position ≤ prev.endPosition := Nat.le_add_right _ _
    omega
  · have hlen : e.token.endPosition = e.token.position + t.len := by
      rw [Cursor.endPosition, ht, Element.len_token]
    have := hcut.len_pos
    omega

/-- What is recorded at a place: the violation of the first edit that is made there. -/
def recordedAt (edits : List SpacingEdit) (disabled : DisabledRegions) (c : Cursor) : List Nat :=
  ((located edits).lookup c.path).toList.flatMap fun e =>
    [e.position].filter (!disabled.isSuppressed ·)

theorem mem_located {path : List Nat} (h : (path, e) ∈ located edits) :
    e ∈ edits ∧ ∃ c, e.token.commonAncestorWithPrevious? = some c ∧ c.path = path := by
  rw [located, List.mem_filterMap] at h
  obtain ⟨f, hf, hmap⟩ := h
  obtain ⟨c, hc, heq⟩ := Option.map_eq_some_iff.mp hmap
  obtain ⟨rfl, rfl⟩ := Prod.mk.inj heq
  exact ⟨(List.mem_filter.mp hf).1, c, hc, rfl⟩

theorem mem_located_of_lookup {path : List Nat} (h : (located edits).lookup path = some e) :
    (path, e) ∈ located edits := by
  obtain ⟨front, back, heq, -⟩ := List.lookup_eq_some_iff.mp h
  exact heq ▸ List.mem_append_right front List.mem_cons_self

/-- At every place the edits go through, unless the rule is disabled. -/
theorem behaves_fixer (h : parse source = .ok tree) (hdisabled : disabled.IsSeparated)
    (hedits : ∀ e ∈ edits, e.IsBetween (.root tree)) {c : Cursor}
    (hc : c ∈ (Cursor.root tree).descendants) :
    Fixer.Behaves (fixer edits) disabled Element.SameLeafCount (fun _ => [])
      (recordedAt edits disabled) c where
  token t _ := ⟨none, rfl, rfl, rfl⟩
  visit k es _ := rfl
  node k es es' hnode hes := by
    have hsame : Element.SameLeafCount (.node k es) (.node k es') := by
      rw [Element.SameLeafCount, Element.leaves_node, Element.leaves_node,
        Element.length_leavesAll_of_sameLeafCount hes]
    cases hlookup : (located edits).lookup c.path with
    | none =>
      refine ⟨none, ?_, ?_, hsame⟩
      · simp only [fixer, hlookup]
        rfl
      · rw [recordedAt, hlookup]
        rfl
    | some e =>
      obtain ⟨hmem, p, hcommon, hpath⟩ := mem_located (mem_located_of_lookup hlookup)
      obtain ⟨q, front, child, back, hmeets, hq, hdescendant, hfrom, hto, -⟩ :=
        (hedits e hmem).exists_meeting h
      -- the place of the edit is the one with its path
      obtain rfl : q = p := Option.some.inj (hq.symm.trans hcommon)
      obtain rfl : q = c := Cursor.eq_of_mem_descendants hdescendant hc hpath
      have hchildren : es = front ++ child :: back := by
        have hchildren := hmeets.children
        rw [hnode] at hchildren
        exact hchildren
      rw [hchildren] at hes
      obtain ⟨ts, t, u, us, hfront, hback, hedit⟩ := TokenPair.edit_eq hmeets
        (wellKinded_of_mem_descendants h hc) (hes.imp fun _ _ => Element.SameLeafCount.sameSlot)
      obtain ⟨r, hr, hleaves⟩ := hedit k (setTrailing e.before) (setTrailing e.after)
      have hcount : r.leaves.length = (Element.leavesAll es').length := by
        rw [← List.take_append_drop front.length es', Element.leavesAll_append, hfront, hback, hleaves]
        simp
      refine ⟨some ⟨r, e.position, [], none⟩, ?_, ?_, ?_⟩
      · simp only [fixer, hlookup, apply, hr]
        rfl
      · rw [Fixer.accept_eq _ _ hdisabled ⟨hfrom, hto⟩, recordedAt, hlookup, Option.toList_some,
          List.flatMap_singleton]
      · rw [Fixer.accept_eq _ _ hdisabled ⟨hfrom, hto⟩]
        split_ifs
        · exact hsame
        · rw [Element.SameLeafCount, hcount, ← Element.leaves_node k es']
          exact hsame

/-- **All edits**: the fixer answers, and records the violation of the first edit at every place
where the rule is not disabled. -/
theorem run_fixer_eq (h : parse source = .ok tree) (hdisabled : disabled.IsSeparated)
    (hedits : ∀ e ∈ edits, e.IsBetween (.root tree)) :
    ∃ fixed, (fixer edits).run () disabled tree = .ok ⟨fixed,
      ((Cursor.root tree).postorder.flatMap (recordedAt edits disabled)).mergeSort (· ≤ ·)⟩ := by
  obtain ⟨fixed, hrun⟩ := Fixer.run_eq fun c hc => behaves_fixer h hdisabled hedits hc
  rw [Fixer.recordedOf_nodes] at hrun
  exact ⟨fixed, hrun⟩

/-- Only violations of edits are recorded. -/
theorem exists_of_mem_recordedAt {c : Cursor} {position : Nat}
    (h : position ∈ recordedAt edits disabled c) :
    (∃ e ∈ edits, e.position = position) ∧ disabled.isSuppressed position = false := by
  rw [recordedAt, List.mem_flatMap] at h
  obtain ⟨e, he, hposition⟩ := h
  rw [List.mem_filter, List.mem_singleton, Bool.not_eq_true'] at hposition
  rw [Option.mem_toList] at he
  exact ⟨⟨e, (mem_located (mem_located_of_lookup he)).1, hposition.1.symm⟩, hposition.2⟩

/-- Looking all keys up gives every value, when no key comes twice. -/
theorem flatMap_lookup_perm {α β γ : Type} [BEq α] [LawfulBEq α] {table : List (α × β)}
    {keys : List α} (g : β → List γ) (htable : (table.map Prod.fst).Nodup) (hkeys : keys.Nodup)
    (hmem : ∀ x ∈ table, x.1 ∈ keys) :
    (keys.flatMap fun k => (table.lookup k).toList.flatMap g).Perm (table.flatMap fun x => g x.2) := by
  induction table generalizing keys with
  | nil => simp
  | cons x table ih =>
    obtain ⟨k, b⟩ := x
    rw [List.map_cons, List.nodup_cons] at htable
    rw [List.forall_mem_cons] at hmem
    obtain ⟨front, back, rfl⟩ := List.append_of_mem hmem.1
    have hperm : (front ++ k :: back).Perm (k :: (front ++ back)) := List.perm_middle
    have hnodup := hperm.nodup_iff.mp hkeys
    rw [List.nodup_cons] at hnodup
    have hrest := ih htable.2 hnodup.2 fun y hy => by
      have hkey : y.1 ∈ table.map Prod.fst := List.mem_map_of_mem hy
      refine (List.mem_cons.mp (hperm.subset (hmem.2 y hy))).resolve_left fun heq => ?_
      rw [heq] at hkey
      exact htable.1 hkey
    refine (hperm.flatMap_right _).trans ?_
    rw [List.flatMap_cons, List.flatMap_cons, List.lookup_cons_self, Option.toList_some,
      List.flatMap_singleton]
    refine List.Perm.append_left (g b) ?_
    -- the other keys are not found at the front of the table
    have hskip : ∀ j ∈ front ++ back, ((k, b) :: table).lookup j = table.lookup j := by
      intro j hj
      have hne : (j == k) = false := beq_false_of_ne fun heq => hnodup.1 (heq ▸ hj)
      rw [List.lookup_cons, hne]
    rw [List.flatMap_congr fun j hj => by rw [hskip j hj]]
    exact hrest

/-- Edits that are made at different places are looked up under different ways. -/
theorem nodup_map_fst_located (h : parse source = .ok tree) (hedits : ∀ e ∈ edits, e.IsBetween (.root tree))
    (hapart : edits.Pairwise fun a b =>
      a.token.commonAncestorWithPrevious? ≠ b.token.commonAncestorWithPrevious?) :
    ((located edits).map Prod.fst).Nodup := by
  rw [located, List.Nodup, List.pairwise_map, List.pairwise_filterMap]
  refine (hapart.filter _).imp_of_mem fun {a b} ha hb hne x hx y hy heq => hne ?_
  obtain ⟨p, -, -, -, -, hp, hpmem, -⟩ := (hedits a (List.mem_filter.mp ha).1).exists_meeting h
  obtain ⟨q, -, -, -, -, hq, hqmem, -⟩ := (hedits b (List.mem_filter.mp hb).1).exists_meeting h
  rw [hp] at hx
  rw [hq] at hy
  cases hx
  cases hy
  rw [hp, hq, Cursor.eq_of_mem_descendants hpmem hqmem heq]

/-- Such an edit is found where its tokens meet. -/
theorem lookup_located {c : Cursor} (h : parse source = .ok tree)
    (hedits : ∀ e ∈ edits, e.IsBetween (.root tree))
    (hapart : edits.Pairwise fun a b =>
      a.token.commonAncestorWithPrevious? ≠ b.token.commonAncestorWithPrevious?)
    (he : e ∈ edits) (hfull : e.isEmpty = false) (hc : e.token.commonAncestorWithPrevious? = some c) :
    (located edits).lookup c.path = some e := by
  have hmem : (c.path, e) ∈ located edits := by
    refine List.mem_filterMap.mpr ⟨e, List.mem_filter.mpr ⟨he, by rw [hfull]; rfl⟩, ?_⟩
    rw [hc]
    rfl
  have hkeys := nodup_map_fst_located h hedits hapart
  obtain ⟨front, back, hsplit⟩ := List.append_of_mem hmem
  rw [hsplit, List.map_append, List.map_cons, List.nodup_append] at hkeys
  refine List.lookup_eq_some_iff.mpr ⟨front, back, hsplit, fun x hx => ?_⟩
  exact bne_iff_ne.mpr (hkeys.2.2 x.1 (List.mem_map_of_mem hx) c.path List.mem_cons_self).symm

/-- When no two edits are made at the same place, all violations that are not suppressed are
recorded. -/
theorem flatMap_recordedAt_perm (disabled : DisabledRegions) (h : parse source = .ok tree)
    (hedits : ∀ e ∈ edits, e.IsBetween (.root tree)) (hfull : ∀ e ∈ edits, e.isEmpty = false)
    (hapart : edits.Pairwise fun a b =>
      a.token.commonAncestorWithPrevious? ≠ b.token.commonAncestorWithPrevious?) :
    ((Cursor.root tree).postorder.flatMap (recordedAt edits disabled)).Perm
      ((edits.map (·.position)).filter (!disabled.isSuppressed ·)) := by
  have hall : edits.filter (!·.isEmpty) = edits :=
    List.filter_eq_self.mpr fun e he => by rw [hfull e he]; rfl
  have hvalues : (located edits).map Prod.snd = edits := by
    rw [located, hall, List.map_filterMap]
    refine (List.filterMap_congr fun e he => ?_).trans List.filterMap_some
    obtain ⟨p, -, -, -, -, hp, -⟩ := (hedits e he).exists_meeting h
    rw [hp]
    rfl
  have hkeys := nodup_map_fst_located h hedits hapart
  have hmem : ∀ x ∈ located edits, x.1 ∈ (Cursor.root tree).postorder.map Cursor.path := by
    rintro ⟨path, e⟩ hx
    obtain ⟨he, c, hc, rfl⟩ := mem_located hx
    obtain ⟨p, front, child, back, hmeets, hp, hpmem, -⟩ := (hedits e he).exists_meeting h
    obtain rfl : p = c := Option.some.inj (hp.symm.trans hc)
    refine List.mem_map_of_mem (Cursor.mem_postorder_iff.mpr ⟨hpmem, ?_⟩)
    have hchildren := hmeets.children
    rw [Cursor.token?]
    cases hpe : p.element with
    | token t => rw [hpe] at hchildren; simp [Element.children] at hchildren
    | node k es => rfl
  have hlookup := flatMap_lookup_perm
    (fun e : SpacingEdit => [e.position].filter (!disabled.isSuppressed ·)) hkeys
    (Cursor.postorder_nodup (.root tree)) hmem
  rw [List.flatMap_map] at hlookup
  refine hlookup.trans (List.Perm.of_eq ?_)
  calc (located edits).flatMap (fun x => [x.2.position].filter (!disabled.isSuppressed ·))
    _ = ((located edits).map Prod.snd).flatMap fun e =>
        [e.position].filter (!disabled.isSuppressed ·) := by rw [List.flatMap_map]
    _ = edits.flatMap fun e => [e.position].filter (!disabled.isSuppressed ·) := by rw [hvalues]
    _ = (edits.map (·.position)).filter (!disabled.isSuppressed ·) := by
      rw [← List.filter_flatMap, List.map_eq_flatMap]

end SpacingEdit

end SwiftTidy
