import SwiftTidy.Proofs.Lint.Spacing
import SwiftTidy.Proofs.Tree.EdgeEdits

/-!
# What a pass of spacing edits makes of the tokens

A pass of spacing edits is followed leaf by leaf.  An edit is made where it is the first one at its place and
the rule is not disabled (`MadeBelow`), and it meets two tokens of the tree there, although the children
that hold them may have been edited before (`TokenPair.edit_eq`).  So every token keeps its kind, its text and
the trivia in front of it, and behind it stands what one of the edits that are made sets there, or what was
there if none does (`Becomes`).  `made_run` says this of a whole pass, and also that nothing else in the tree
changes, and nothing at all without corrections.

Edits that are made only where nothing but whitespace stands behind a token (`IsBlank`) keep of the trivia
all but the horizontal whitespace (`keeps_run`).
-/

namespace SwiftTidy

namespace Token

/-- What a token is apart from the trivia around it. -/
def lexeme (t : Token) : SyntaxKind × String := (t.kind, t.text)

/-- The pieces of trivia around some tokens that pass a test, in source order. -/
def pieces (test : TriviaPiece → Bool) (ts : List Token) : Trivia :=
  ts.flatMap fun t => (t.leading ++ t.trailing).filter test

variable (test : TriviaPiece → Bool)

@[simp] theorem pieces_nil : pieces test [] = [] := rfl

@[simp] theorem pieces_cons (t : Token) (ts : List Token) :
    pieces test (t :: ts) = t.leading.filter test ++ t.trailing.filter test ++ pieces test ts := by
  rw [pieces, List.flatMap_cons, List.filter_append, pieces]

@[simp] theorem pieces_append (ts us : List Token) :
    pieces test (ts ++ us) = pieces test ts ++ pieces test us := List.flatMap_append

end Token

namespace Trivia

theorem withoutWhitespace_eq_nil_iff {t : Trivia} :
    t.withoutWhitespace = [] ↔ t.isWhitespaceOnly = true := by
  simp [withoutWhitespace, isWhitespaceOnly]

/-- A test that no whitespace passes sees only what is no whitespace. -/
theorem filter_withoutWhitespace {test : TriviaPiece → Bool}
    (htest : ∀ p, test p = true → p.isWhitespace = false) (t : Trivia) :
    t.withoutWhitespace.filter test = t.filter test := by
  rw [withoutWhitespace, List.filter_filter]
  refine List.filter_congr fun p _ => ?_
  cases hp : test p with
  | false => rfl
  | true =>
    rw [htest p hp]
    rfl

/-- Without comments and line breaks there is only whitespace. -/
theorem isWhitespaceOnly_of {t : Trivia} (hcomment : t.containsComment = false)
    (hnewline : t.containsNewline = false) : t.isWhitespaceOnly = true := by
  rw [containsComment, List.any_eq_false] at hcomment
  rw [containsNewline, List.any_eq_false] at hnewline
  rw [isWhitespaceOnly, List.all_eq_true]
  intro p hp
  have hc := hcomment p hp
  have hn := hnewline p hp
  rcases p with ⟨kind, text⟩
  cases kind <;> first | rfl | exact absurd rfl hc | exact absurd rfl hn

end Trivia

namespace Cursor

/-- The tokens of a place are those of its children. -/
theorem tokensOfAll_eq_flatMap (p : Cursor) (i o : Nat) (es : List Element) :
    tokensOfAll es p i o = (childrenFrom p i o es).flatMap tokens := by
  induction es generalizing i o with
  | nil => rw [tokensOfAll_nil, childrenFrom, List.flatMap_nil]
  | cons e es ih =>
    rw [tokensOfAll_cons, childrenFrom, List.flatMap_cons, ih]
    rfl

theorem tokens_of_node {c : Cursor} {k : SyntaxKind} {es : List Element}
    (h : c.element.WellKinded) (hc : c.element = .node k es) : c.tokens = c.children.flatMap tokens := by
  rw [tokens_eq, children, ← tokensOfAll_eq_flatMap, hc, tokensOf_node (hc ▸ h) hc]
  rfl

/-- The token at a place has become `t`, which differs from it at most in the whitespace behind. -/
def Keeps (x : Cursor) (t : Token) : Prop :=
  ∃ s, x.element = .token s ∧ t.lexeme = s.lexeme ∧ t.leading = s.leading ∧
    t.trailing.withoutWhitespace = s.trailing.withoutWhitespace

end Cursor

/-- Leaves one behind the other. -/
theorem Element.leavesAll_map_fst (ms : List (Element × List Nat)) :
    leavesAll (ms.map Prod.fst) = ms.flatMap fun m => m.1.leaves := by
  induction ms with
  | nil => rw [List.map_nil, leavesAll_nil, List.flatMap_nil]
  | cons m ms ih => rw [List.map_cons, leavesAll_cons, List.flatMap_cons, ih]

theorem Element.strippedAll_set {es : List Element} {i : Nat} {e e' : Element} (h : es[i]? = some e)
    (he : e'.stripped = e.stripped) : strippedAll (es.set i e') = strippedAll es := by
  obtain ⟨hlt, rfl⟩ := List.getElem?_eq_some_iff.mp h
  rw [strippedAll_eq_map, strippedAll_eq_map, List.map_set, he, ← List.map_set, List.set_getElem_self]

/-- An edit of trivia is none of what is there without trivia. -/
theorem TokenPair.stripped_edit {c right : Cursor} {current r : Element} {f g : Token → Token}
    (hf : ∀ t, (Element.token (f t)).stripped = (Element.token t).stripped)
    (hg : ∀ t, (Element.token (g t)).stripped = (Element.token t).stripped)
    (h : edit c current right f g = .ok (some r)) :
    r.stripped = (Element.node current.kind current.children).stripped := by
  rw [edit] at h
  split at h
  · cases h
  next x hx =>
    obtain ⟨last, hlast, h⟩ := Except.bind_eq_ok.mp h
    cases last with
    | none => cases h
    | some i =>
      dsimp only at h
      split at h
      · next l m hl hm =>
        cases h
        have hm' : (current.children.set i (l.mapLastToken f))[x.index]? = some m := by
          rwa [List.getElem?_set_ne (Nat.ne_of_lt (lt_of_lastWithLeaf hlast))]
        have hl' : (l.mapLastToken f).stripped = l.stripped := Element.stripped_mapEdgeToken hf .last l
        have hg' : (m.mapFirstToken g).stripped = m.stripped := Element.stripped_mapEdgeToken hg .first m
        rw [Element.stripped_node, Element.stripped_node, Element.strippedAll_set hm' hg',
          Element.strippedAll_set hl hl']
      · cases h

namespace SpacingEdit

variable {source : String} {tree : Element} {edits : List SpacingEdit} {e : SpacingEdit}
  {disabled : DisabledRegions} {c : Cursor}

/-- An edit that exchanges nothing but whitespace: there is nothing else in what it sets, nor behind
the tokens that it is set behind. -/
structure IsBlank (e : SpacingEdit) : Prop where
  before : ∀ v, e.before = some v → v.withoutWhitespace = [] ∧
    ∀ prev t, e.token.prevToken? = some prev → prev.element = .token t →
      t.trailing.withoutWhitespace = []
  after : ∀ v, e.after = some v → v.withoutWhitespace = [] ∧
    ∀ t, e.token.element = .token t → t.trailing.withoutWhitespace = []

@[simp] theorem stripped_setTrailing (trivia : Option Trivia) (t : Token) :
    (Element.token (setTrailing trivia t)).stripped = (Element.token t).stripped := by
  rw [Element.stripped_token, Element.stripped_token]
  cases trivia <;> rfl

/-- The edit sets `v` behind the token `x`: behind its own token, or in front of it. -/
def Sets (e : SpacingEdit) (x : Cursor) (v : Trivia) : Prop :=
  e.token = x ∧ e.after = some v ∨ e.token.prevToken? = some x ∧ e.before = some v

/-- Whether the rule is not disabled for an edit at a place. -/
def isAllowed (e : SpacingEdit) (disabled : DisabledRegions) (c : Cursor) : Bool :=
  Fix.isAllowed ⟨c.element, e.position, [], none⟩ disabled c

/-- An edit that is made at the place `c` or below it: the first one at its place, and the rule is not
disabled there. -/
def MadeBelow (edits : List SpacingEdit) (disabled : DisabledRegions) (c : Cursor) (e : SpacingEdit) :
    Prop :=
  ∃ q ∈ c.descendants, (located edits).lookup q.path = some e ∧ e.isAllowed disabled q = true

/-- The token at a place has become `u`: only what is behind it may be another, and it is what one of
the edits sets there, or what it was if there is none. -/
def Becomes (P : SpacingEdit → Prop) (x : Cursor) (u : Token) : Prop :=
  ∃ s, x.element = .token s ∧ u.lexeme = s.lexeme ∧ u.leading = s.leading ∧
    ((u.trailing = s.trailing ∧ ∀ e v, P e → ¬ e.Sets x v) ∨ ∃ e, P e ∧ e.Sets x u.trailing)

variable {P Q : SpacingEdit → Prop} {x : Cursor} {t u : Token}

/-- Other edits that set the same say the same. -/
theorem Becomes.congr (h : Becomes P x u) (hPQ : ∀ e, P e → Q e) (hQP : ∀ e v, Q e → e.Sets x v → P e) :
    Becomes Q x u := by
  obtain ⟨s, hs, hlexeme, hleading, htrailing⟩ := h
  refine ⟨s, hs, hlexeme, hleading, htrailing.imp (fun ⟨hsame, hnone⟩ => ⟨hsame, fun e v he hsets => ?_⟩)
    fun ⟨e, he, hsets⟩ => ⟨e, hPQ e he, hsets⟩⟩
  exact hnone e v (hQP e v he hsets) hsets

/-- One more edit sets what it sets. -/
theorem Becomes.setTrailing {trivia : Option Trivia} (h : Becomes P x u)
    (htrivia : ∀ v, e.Sets x v ↔ trivia = some v) :
    Becomes (fun e' => P e' ∨ e' = e) x (setTrailing trivia u) := by
  obtain ⟨s, hs, hlexeme, hleading, htrailing⟩ := h
  cases trivia with
  | none =>
    have hother : ∀ v, ¬ e.Sets x v := fun v hsets => by cases (htrivia v).mp hsets
    refine Becomes.congr ⟨s, hs, hlexeme, hleading, htrailing⟩ (fun _ => .inl) fun e' v he' hsets =>
      he'.resolve_right ?_
    rintro rfl
    exact hother v hsets
  | some v => exact ⟨s, hs, hlexeme, hleading, .inr ⟨e, .inr rfl, (htrivia v).mpr rfl⟩⟩

/-- A token keeps all that counts when whitespace is set behind it in the place of whitespace. -/
theorem Becomes.keeps (h : Becomes P x u) (hP : ∀ e, P e → e.IsBlank) : x.Keeps u := by
  obtain ⟨s, hs, hlexeme, hleading, ⟨hsame, -⟩ | ⟨e, he, hsets⟩⟩ := h
  · exact ⟨s, hs, hlexeme, hleading, by rw [hsame]⟩
  · refine ⟨s, hs, hlexeme, hleading, ?_⟩
    rcases hsets with ⟨rfl, hafter⟩ | ⟨hprev, hbefore⟩
    · obtain ⟨hblank, hbehind⟩ := (hP e he).after _ hafter
      rw [hblank, hbehind s hs]
    · obtain ⟨hblank, hbehind⟩ := (hP e he).before _ hbefore
      rw [hblank, hbehind x s hprev hs]

/-! ### The places of edits -/

/-- The edit that is looked up at a place meets the token in front of it there. -/
theorem exists_meetsAt_of_lookup (h : parse source = .ok tree)
    (hedits : ∀ e ∈ edits, e.IsBetween (.root tree)) (hc : c ∈ (Cursor.root tree).descendants)
    (hlookup : (located edits).lookup c.path = some e) :
    ∃ front child back prev, e.token.MeetsAt c front child back ∧ e.token.prevToken? = some prev ∧
      (Cursor.tokensOfAll front c 0 c.offset).getLast? = some prev := by
  obtain ⟨hmem, p, hcommon, hpath⟩ := mem_located (mem_located_of_lookup hlookup)
  obtain ⟨q, front, child, back, hmeets, hq, hdescendant, -, -, hlast⟩ :=
    (hedits e hmem).exists_meeting h
  -- the place of the edit is the one with its path
  obtain rfl : q = p := Option.some.inj (hq.symm.trans hcommon)
  obtain rfl : q = c := Cursor.eq_of_mem_descendants hdescendant hc hpath
  obtain ⟨prev, hprev, -⟩ := (hedits e hmem).prev
  exact ⟨front, child, back, prev, hmeets, hprev, hlast.trans hprev⟩

/-- It sets something behind tokens of the place alone. -/
theorem Sets.mem_tokens {v : Trivia} (hsets : e.Sets x v) (h : parse source = .ok tree)
    (hedits : ∀ e ∈ edits, e.IsBetween (.root tree)) (hc : c ∈ (Cursor.root tree).descendants)
    (hlookup : (located edits).lookup c.path = some e) : x ∈ c.tokens := by
  obtain ⟨front, child, back, prev, hmeets, hprev, hlast⟩ := exists_meetsAt_of_lookup h hedits hc hlookup
  have hkinded := wellKinded_of_mem_descendants h hc
  rcases hsets with ⟨rfl, -⟩ | ⟨hx, -⟩
  · exact hmeets.mem_tokensOf hkinded
  · obtain rfl : prev = x := Option.some.inj (hprev.symm.trans hx)
    exact hmeets.mem_tokensOf_of_front hkinded (List.mem_of_getLast? hlast)

/-- What is made below a place is made there or below a child. -/
theorem madeBelow_iff : MadeBelow edits disabled c e ↔ (∃ y ∈ c.children, MadeBelow edits disabled y e) ∨
    (located edits).lookup c.path = some e ∧ e.isAllowed disabled c = true := by
  simp only [MadeBelow]
  rw [Cursor.descendants_eq]
  simp only [List.mem_cons, List.mem_flatMap, exists_eq_or_imp]
  constructor
  · rintro (hself | ⟨q, ⟨y, hy, hq⟩, hmade⟩)
    · exact .inr hself
    · exact .inl ⟨y, hy, q, hq, hmade⟩
  · rintro (⟨y, hy, q, hq, hmade⟩ | hself)
    · exact .inr ⟨q, ⟨y, hy, hq⟩, hmade⟩
    · exact .inl hself

/-- Of edits that are made at different places, one is made unless the rule is disabled for it. -/
theorem isSuppressed_of_not_madeBelow (h : parse source = .ok tree) (hdisabled : disabled.IsSeparated)
    (hedits : ∀ e ∈ edits, e.IsBetween (.root tree))
    (hapart : edits.Pairwise fun a b =>
      a.token.commonAncestorWithPrevious? ≠ b.token.commonAncestorWithPrevious?)
    (he : e ∈ edits) (hfull : e.isEmpty = false) (hnot : ¬ MadeBelow edits disabled (.root tree) e) :
    disabled.isSuppressed e.position = true := by
  obtain ⟨p, -, -, -, -, hcommon, hp, hfrom, hto, -⟩ := (hedits e he).exists_meeting h
  by_contra hfree
  refine hnot ⟨p, hp, lookup_located h hedits hapart he hfull hcommon, ?_⟩
  rw [isAllowed, Fix.isAllowed_eq hdisabled ⟨hfrom, hto⟩, Bool.not_eq_true', Bool.eq_false_iff]
  exact hfree

/-! ### What is made of a place -/

/-- What becomes of a place: its tokens are those that the edits make of them, all that is there without
trivia stays, and nothing changes where nothing is recorded. -/
structure Made (P : SpacingEdit → Prop) (c : Cursor) (e' : Element) (recorded : List Nat) : Prop where
  count : c.element.SameLeafCount e'
  tokens : List.Forall₂ (Becomes P) c.tokens e'.leaves
  stripped : e'.stripped = c.element.stripped
  unchanged : recorded = [] → e' = c.element

/-- Nothing is made of a token. -/
theorem made_token (h : parse source = .ok tree) (hedits : ∀ e ∈ edits, e.IsBetween (.root tree))
    (hc : c ∈ (Cursor.root tree).descendants) (ht : c.element = .token t) :
    Made (MadeBelow edits disabled c) c (.token t) [] := by
  have hkinded := wellKinded_of_mem_descendants h hc
  refine ⟨by rw [ht]; rfl, ?_, by rw [ht], fun _ => ht.symm⟩
  rw [Cursor.tokens_eq, ht, Element.leaves_token, Cursor.tokensOf_token (ht ▸ hkinded) ht]
  refine .cons ⟨t, ht, rfl, rfl, .inl ⟨rfl, ?_⟩⟩ .nil
  rintro e v ⟨q, hq, hlookup, -⟩ -
  rw [Cursor.descendants, ht, Cursor.descendantsOf, List.mem_singleton] at hq
  subst hq
  obtain ⟨front, child, back, -, hmeets, -⟩ := exists_meetsAt_of_lookup h hedits hc hlookup
  have hchildren := hmeets.children
  rw [ht] at hchildren
  simp [Element.children] at hchildren

section Node

variable {k : SyntaxKind} {es : List Element} {ms : List (Element × List Nat)}
  {P : Cursor → SpacingEdit → Prop}

/-- Where nothing is recorded below some places all of them stay as they are. -/
theorem map_fst_of_recorded_eq_nil {ys : List Cursor}
    (hms : List.Forall₂ (fun y m => Made (P y) y m.1 m.2) ys ms)
    (hnone : ms.flatMap Prod.snd = []) : ms.map Prod.fst = ys.map Cursor.element := by
  induction hms with
  | nil => rfl
  | cons hmade _ ih =>
    rw [List.flatMap_cons, List.append_eq_nil_iff] at hnone
    rw [List.map_cons, List.map_cons, hmade.unchanged hnone.1, ih hnone.2]

theorem stripped_map_fst {ys : List Cursor}
    (hms : List.Forall₂ (fun y m => Made (P y) y m.1 m.2) ys ms) :
    Element.strippedAll (ms.map Prod.fst) = Element.strippedAll (ys.map Cursor.element) := by
  induction hms with
  | nil => rfl
  | cons hmade _ ih =>
    rw [List.map_cons, List.map_cons, Element.strippedAll_cons, Element.strippedAll_cons, hmade.stripped, ih]

theorem sameLeafCount_of_made (hc : c.element = .node k es)
    (hms : List.Forall₂ (fun y m => Made (P y) y m.1 m.2) c.children ms) :
    List.Forall₂ Element.SameLeafCount es (ms.map Prod.fst) := by
  rw [Cursor.eq_map_element_children hc, List.forall₂_map_left_iff, List.forall₂_map_right_iff]
  exact hms.imp fun _ _ hmade => hmade.count

/-- What was made of the children, taken together. -/
theorem made_node (h : parse source = .ok tree) (hedits : ∀ e ∈ edits, e.IsBetween (.root tree))
    (hdescendant : c ∈ (Cursor.root tree).descendants) (hc : c.element = .node k es)
    (hms : List.Forall₂ (fun y m => Made (MadeBelow edits disabled y) y m.1 m.2) c.children ms) :
    Made (fun e => ∃ y ∈ c.children, MadeBelow edits disabled y e) c (.node k (ms.map Prod.fst))
      (ms.flatMap Prod.snd) := by
  have hkinded := wellKinded_of_mem_descendants h hdescendant
  have hbelow : ∀ {y}, y ∈ c.children → y ∈ (Cursor.root tree).descendants := fun hy =>
    Cursor.mem_descendants_trans hdescendant (Cursor.mem_descendants_of_mem_children hy)
  constructor
  · rw [Element.SameLeafCount, hc, Element.leaves_node, Element.leaves_node,
      Element.length_leavesAll_of_sameLeafCount (sameLeafCount_of_made hc hms)]
  · rw [Cursor.tokens_of_node hkinded hc, Element.leaves_node, Element.leavesAll_map_fst]
    refine List.rel_flatMap ((List.forall₂_and_left _ _).mpr ⟨fun _ hy => hy, hms⟩) fun y m hym => ?_
    obtain ⟨hy, hmade⟩ := hym
    have htokens := (List.forall₂_and_left _ _).mpr ⟨fun _ hx => hx, hmade.tokens⟩
    refine htokens.imp fun x u hxu => hxu.2.congr (fun e he => ⟨y, hy, he⟩) ?_
    -- what is made below another child sets nothing behind the tokens of this one
    rintro e v ⟨y', hy', q, hq, hlookup, hallowed⟩ hsets
    have hxq := hsets.mem_tokens h hedits (Cursor.mem_descendants_trans (hbelow hy') hq) hlookup
    obtain rfl : y = y' := Cursor.eq_of_mem_children hy hy' (List.mem_filter.mp hxu.1).1
      (Cursor.mem_descendants_trans hq (List.mem_filter.mp hxq).1)
    exact ⟨q, hq, hlookup, hallowed⟩
  · rw [hc, Element.stripped_node, Element.stripped_node, stripped_map_fst hms,
      ← Cursor.eq_map_element_children hc]
  · intro hnone
    rw [map_fst_of_recorded_eq_nil hms hnone, ← Cursor.eq_map_element_children hc, hc]

end Node

/-- An edit at a place sets what is behind two of its tokens: its own and the one in front of it. -/
theorem becomes_edit {front back : List Element} {child : Element} {prev : Cursor} {ts us : List Token}
    (hkinded : c.element.WellKinded) (hmeets : e.token.MeetsAt c front child back)
    (hprev : e.token.prevToken? = some prev)
    (hlast : (Cursor.tokensOfAll front c 0 c.offset).getLast? = some prev)
    (htokens : List.Forall₂ (Becomes P) c.tokens (ts ++ [t] ++ u :: us))
    (hlength : (ts ++ [t]).length = (Cursor.tokensOfAll front c 0 c.offset).length) :
    List.Forall₂ (Becomes fun e' => P e' ∨ e' = e) c.tokens
      (ts ++ setTrailing e.before t :: setTrailing e.after u :: us) := by
  obtain ⟨ys, hys⟩ := List.getLast?_eq_some_iff.mp hlast
  obtain ⟨xs, hxs⟩ := hmeets.exists_tokensOf_eq hkinded
  have hsplit : c.tokens = ys ++ prev :: e.token :: xs := by
    rw [Cursor.tokens_eq, hxs, hys, List.append_assoc]
    rfl
  have hnodup : (ys ++ prev :: e.token :: xs).Nodup := hsplit ▸ List.Nodup.of_map _ (Cursor.tokens_nodup c)
  rw [List.nodup_append, List.nodup_cons, List.nodup_cons] at hnodup
  obtain ⟨-, ⟨hprevBehind, htokenBehind, -⟩, hdisjoint⟩ := hnodup
  have hne : e.token ≠ prev := fun heq => hprevBehind (heq ▸ List.mem_cons_self)
  -- the edit is for two tokens only, each of which stands once in the list
  have hother : ∀ x, x ≠ prev → x ≠ e.token → ∀ v, e.Sets x v ↔ (none : Option Trivia) = some v := by
    refine fun x hx hx' v => iff_of_false ?_ (Option.some_ne_none v).symm
    rintro (⟨heq, -⟩ | ⟨heq, -⟩)
    · exact hx' heq.symm
    · exact hx (Option.some.inj (heq.symm.trans hprev))
  have hcount : ts.length = ys.length := by simpa [hys] using hlength
  rw [hsplit] at htokens ⊢
  rw [List.append_assoc, List.singleton_append] at htokens
  have hfront := List.forall₂_take_append _ _ _ htokens
  have hback := List.forall₂_drop_append _ _ _ htokens
  rw [hcount, List.take_left] at hfront
  rw [hcount, List.drop_left, List.forall₂_cons, List.forall₂_cons] at hback
  refine List.rel_append ?_
    (.cons (hback.1.setTrailing fun v => ?_) (.cons (hback.2.1.setTrailing fun v => ?_) ?_))
  · refine ((List.forall₂_and_left _ _).mpr ⟨fun _ hx => hx, hfront⟩).imp fun x s ⟨hx, hs⟩ => ?_
    exact hs.setTrailing (hother x (hdisjoint x hx prev List.mem_cons_self)
      (hdisjoint x hx e.token (List.mem_cons_of_mem _ List.mem_cons_self)))
  · simp [Sets, hprev, hne]
  · simp [Sets, hprev, hne.symm]
  · refine ((List.forall₂_and_left _ _).mpr ⟨fun _ hx => hx, hback.2.2⟩).imp fun x s ⟨hx, hs⟩ => ?_
    refine hs.setTrailing (hother x ?_ ?_)
    · rintro rfl
      exact hprevBehind (List.mem_cons_of_mem _ hx)
    · rintro rfl
      exact htokenBehind hx

/-- At every place the edits are made that the rule is not disabled for. -/
theorem makes_fixer (h : parse source = .ok tree) (disabled : DisabledRegions)
    (hedits : ∀ e ∈ edits, e.IsBetween (.root tree)) (hc : c ∈ (Cursor.root tree).descendants) :
    Fixer.Makes (fixer edits) disabled (fun c => Made (MadeBelow edits disabled c) c) c where
  token t ht := ⟨none, rfl, made_token h hedits hc ht⟩
  visit k es _ := rfl
  node k es ms hnode hms := by
    have hkinded := wellKinded_of_mem_descendants h hc
    have hmade := made_node h hedits hc hnode hms
    -- where no edit is made, what is made of the children is all
    have hnone : (∀ e, (located edits).lookup c.path = some e → e.isAllowed disabled c = false) →
        Made (MadeBelow edits disabled c) c (.node k (ms.map Prod.fst)) (ms.flatMap Prod.snd ++ []) := by
      intro hforbidden
      rw [List.append_nil]
      refine ⟨hmade.count, hmade.tokens.imp fun x u hx => hx.congr
        (fun e he => madeBelow_iff.mpr (.inl he)) fun e _ he _ => ?_, hmade.stripped, hmade.unchanged⟩
      refine (madeBelow_iff.mp he).resolve_right ?_
      rintro ⟨hlookup, hallowed⟩
      rw [hforbidden e hlookup] at hallowed
      cases hallowed
    cases hlookup : (located edits).lookup c.path with
    | none =>
      refine ⟨none, ?_, ?_⟩
      · simp only [fixer, hlookup]
        rfl
      · rw [Fixer.accept]
        exact hnone fun e he => by rw [hlookup] at he; cases he
    | some e =>
      obtain ⟨front, child, back, prev, hmeets, hprev, hlast⟩ :=
        exists_meetsAt_of_lookup h hedits hc hlookup
      have hchildren : es = front ++ child :: back := by
        have hchildren := hmeets.children
        rw [hnode] at hchildren
        exact hchildren
      have hcount := sameLeafCount_of_made hnode hms
      rw [hchildren] at hcount
      obtain ⟨ts, t, u, us, hfront, hback, hedit⟩ := TokenPair.edit_eq hmeets hkinded
        (hcount.imp fun _ _ => Element.SameLeafCount.sameSlot)
      obtain ⟨r, hr, hleaves⟩ := hedit k (setTrailing e.before) (setTrailing e.after)
      refine ⟨some ⟨r, e.position, [], none⟩, ?_, ?_⟩
      · simp only [fixer, hlookup, apply, hr]
        rfl
      · have hsplit : Element.leavesAll (ms.map Prod.fst) = ts ++ [t] ++ u :: us := by
          rw [← List.take_append_drop front.length (ms.map Prod.fst), Element.leavesAll_append, hfront,
            hback]
        rw [Fixer.accept]
        split_ifs with hallowed
        · have htokens := hmade.tokens
          rw [Element.leaves_node, hsplit] at htokens
          have hlength : (ts ++ [t]).length = (Cursor.tokensOfAll front c 0 c.offset).length := by
            rw [← hfront]
            exact (TokenPair.length_leavesAll_of_meetsAt hmeets hkinded hcount).1
          have hedited := becomes_edit hkinded hmeets hprev hlast htokens hlength
          constructor
          · have hcounted := hmade.count
            rw [Element.SameLeafCount] at hcounted ⊢
            rw [← hcounted, Element.leaves_node, hsplit, hleaves]
            simp
          · rw [hleaves]
            refine hedited.imp fun x u hx =>
              hx.congr (fun e' he' => madeBelow_iff.mpr ?_) fun e' _ he' _ => ?_
            · rcases he' with he' | rfl
              · exact .inl he'
              · exact .inr ⟨hlookup, hallowed⟩
            · refine (madeBelow_iff.mp he').imp_right fun hthere => ?_
              exact Option.some.inj (hthere.1.symm.trans hlookup)
          · exact (TokenPair.stripped_edit (stripped_setTrailing _) (stripped_setTrailing _) hr).trans
              hmade.stripped
          · simp [Fix.positions]
        · refine hnone fun e' he' => ?_
          obtain rfl : e = e' := Option.some.inj (hlookup.symm.trans he')
          exact Bool.eq_false_iff.mpr hallowed

/-- **A pass of spacing edits**: every token is what the edits make of it, all that is there without trivia
stays, and without corrections the whole tree does. -/
theorem made_run (h : parse source = .ok tree) (disabled : DisabledRegions)
    (hedits : ∀ e ∈ edits, e.IsBetween (.root tree)) :
    ∃ ps outcome, (fixer edits).run () disabled tree = .ok outcome ∧
      Made (MadeBelow edits disabled (.root tree)) (.root tree) outcome.tree ps ∧
      outcome.corrections = ps.mergeSort (· ≤ ·) := by
  refine @Fixer.made_run_of_not_token _ _ (fun c => Made (MadeBelow edits disabled c) c) tree
    (fun c hc => makes_fixer h disabled hedits hc) fun t ps hmade => ?_
  -- the tree is the node of the file, and so is what is left of it without trivia
  obtain ⟨-, items, s, -, -, rfl⟩ := parse_eq_ok h
  have hstripped := hmade.stripped
  simp [Cursor.element] at hstripped

/-- Every token is kept, and without corrections the whole tree. -/
theorem keeps_run (h : parse source = .ok tree) (disabled : DisabledRegions)
    (hedits : ∀ e ∈ edits, e.IsBetween (.root tree) ∧ e.IsBlank) :
    ∃ outcome, (fixer edits).run () disabled tree = .ok outcome ∧
      List.Forall₂ Cursor.Keeps (Cursor.root tree).tokens outcome.tree.leaves ∧
      (outcome.corrections = [] → outcome.tree = tree) := by
  obtain ⟨ps, outcome, hrun, hmade, hcorrections⟩ := made_run h disabled fun e he => (hedits e he).1
  have hblank : ∀ e, MadeBelow edits disabled (.root tree) e → e.IsBlank := by
    rintro e ⟨q, -, hlookup, -⟩
    exact (hedits e (mem_located (mem_located_of_lookup hlookup)).1).2
  refine ⟨outcome, hrun, hmade.tokens.imp fun x u hx => hx.keeps hblank, fun hnone => hmade.unchanged ?_⟩
  · have hsorted : ps.mergeSort (· ≤ ·) = [] := hcorrections.symm.trans hnone
    exact List.Perm.eq_nil (hsorted ▸ (List.mergeSort_perm ps _).symm)

end SpacingEdit

end SwiftTidy
