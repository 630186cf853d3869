import SwiftTidy.Proofs.Parse.Productions
import SwiftTidy.Proofs.Tree.Descent

/-!
# Syntax trees are well kinded

The leaves of the tree of a source have the kinds of tokens and its inner nodes have the kinds of
nodes (`wellKinded_parse`): this is kept by the basic steps of which every production is made,
because a node is built with the kind of a node.  Likewise what holds of all tokens, whatever their
kinds, holds of all leaves (`forall_leaves`), because a token is placed as it was cut, or under
another kind, or as the two parts of an operator.
-/

namespace SwiftTidy

namespace Grammar.Assembled

variable {held es : List Element} {g : Grammar} {s s' : Input}

/-- A grammar put together from basic steps builds nodes with the kinds of nodes. -/
theorem wellKindedAll (hg : Assembled held g) (h : g.run s = .ok (es, s'))
    (hwords : ∀ t ∈ Element.leavesAll held ++ s.pending, t.kind.IsWord)
    (hheld : Element.WellKindedAll held) : Element.WellKindedAll es := by
  induction hg generalizing s es s' with
  | emit fs =>
    cases h
    exact hheld
  | wrap k hk hg ih =>
    refine ih h (by simpa using hwords) ?_
    rw [Element.wellKindedAll_cons, Element.wellKinded_node]
    exact ⟨⟨hk, hheld⟩, Element.wellKindedAll_nil⟩
  | emitFront fs hg ih =>
    obtain ⟨gs, hgs, rfl⟩ := run_emit_append h
    obtain ⟨hfs, hheld⟩ := (Element.wellKindedAll_append _ _).mp hheld
    refine (Element.wellKindedAll_append _ _).mpr ⟨hfs, ih hgs (fun t ht => hwords t ?_) hheld⟩
    rw [Element.leavesAll_append, List.append_assoc]
    exact List.mem_append_right _ ht
  | fail held e he => cases h
  | peek hf ih => exact ih s h hwords hheld
  | append hg hh ihg ihh =>
    obtain ⟨fs, gs, t, hfs, hgs, rfl⟩ := run_append h
    have hnext := (hg.kept hfs).isWord hwords
    refine (Element.wellKindedAll_append _ _).mpr ⟨ihg hfs hwords hheld, ihh hgs ?_ ?_⟩
    · intro u hu
      rw [Element.leavesAll_nil, List.nil_append] at hu
      exact hnext u (List.mem_append_right _ hu)
    · exact Element.wellKindedAll_nil
  | @capture held g k front hg hk ihg ihk =>
    obtain ⟨fs, t, hfs, hes⟩ := run_capture h
    obtain ⟨hfront, hheld⟩ := (Element.wellKindedAll_append _ _).mp hheld
    rw [Element.leavesAll_append, List.append_assoc] at hwords
    have hrest := fun u hu => hwords u (List.mem_append_right _ hu)
    -- what is placed by the first part is held while the rest is read
    have hnext := (hg.kept hfs).isWord hrest
    refine ihk fs hes ?_ ((Element.wellKindedAll_append _ _).mpr ⟨hfront, ihg hfs hrest hheld⟩)
    intro u hu
    rw [Element.leavesAll_append, List.append_assoc] at hu
    rcases List.mem_append.mp hu with hu | hu
    · exact hwords u (List.mem_append_left _ hu)
    · exact hnext u hu
  | take =>
    obtain ⟨t, rest, hs, rfl, rfl⟩ := run_take h
    have hword := hwords t (by rw [hs]; simp)
    rw [Element.wellKindedAll_cons, Element.wellKinded_token]
    exact ⟨hword.1, Element.wellKindedAll_nil⟩
  | takeAs k hk _ =>
    obtain ⟨t, rest, hs, rfl, rfl⟩ := run_takeAs h
    rw [Element.wellKindedAll_cons, Element.wellKinded_token]
    exact ⟨hk.1, Element.wellKindedAll_nil⟩
  | splitRightAngle =>
    cases h
    exact Element.wellKindedAll_nil

/-- What holds of all tokens, whatever kinds they are given, and is kept when an operator is cut in two,
holds of all leaves that a grammar places and of all tokens that it leaves. -/
theorem forall_leaves {P : Token → Prop} (hkind : ∀ t k, k.IsGiven → P t → P { t with kind := k })
    (hcut : ∀ t c cs, t.text.toList = '>' :: c :: cs → P t → ∀ k, k.IsGiven →
      P ⟨k, ">", t.leading, []⟩ ∧ P ⟨k, String.ofList (c :: cs), [], t.trailing⟩)
    (hg : Assembled held g) (h : g.run s = .ok (es, s'))
    (hall : ∀ t ∈ Element.leavesAll held ++ s.pending, P t) :
    ∀ t ∈ Element.leavesAll es ++ s'.pending, P t := by
  induction hg generalizing s es s' with
  | emit fs =>
    cases h
    exact hall
  | wrap k hk hg ih => exact ih h (by simpa using hall)
  | emitFront fs hg ih =>
    obtain ⟨gs, hgs, rfl⟩ := run_emit_append h
    rw [Element.leavesAll_append, List.append_assoc, List.forall_mem_append] at hall ⊢
    exact ⟨hall.1, ih hgs hall.2⟩
  | fail held e he => cases h
  | peek hf ih => exact ih s h hall
  | append hg hh ihg ihh =>
    obtain ⟨fs, gs, t, hfs, hgs, rfl⟩ := run_append h
    have hnext := List.forall_mem_append.mp (ihg hfs hall)
    rw [Element.leavesAll_append, List.append_assoc, List.forall_mem_append]
    exact ⟨hnext.1, ihh hgs (by simpa using hnext.2)⟩
  | capture front hg hk ihg ihk =>
    obtain ⟨fs, t, hfs, hes⟩ := run_capture h
    rw [Element.leavesAll_append, List.append_assoc, List.forall_mem_append] at hall
    refine ihk fs hes ?_
    rw [Element.leavesAll_append, List.append_assoc, List.forall_mem_append]
    exact ⟨hall.1, ihg hfs hall.2⟩
  | take =>
    obtain ⟨t, rest, hs, rfl, rfl⟩ := run_take h
    rw [hs] at hall
    simpa using hall
  | takeAs k _ hgiven =>
    obtain ⟨t, rest, hs, rfl, rfl⟩ := run_takeAs h
    rw [hs] at hall
    simp only [Element.leavesAll_nil, List.nil_append, List.forall_mem_cons] at hall
    simp only [Element.leavesAll_cons, Element.leaves_token, Element.leavesAll_nil, List.append_nil,
      List.singleton_append, List.forall_mem_cons]
    exact ⟨hkind t k hgiven hall.1, hall.2⟩
  -- the one grammar that changes the tokens ahead and places none
  | splitRightAngle =>
    cases h
    unfold Input.splitRightAngle
    split
    · exact hall
    · rename_i t rest hs
      split
      · rename_i c cs htext
        split
        · rw [hs] at hall
          simp only [Element.leavesAll_nil, List.nil_append, List.forall_mem_cons] at hall ⊢
          have hparts := hcut t c cs htext hall.1
          exact ⟨(hparts _ (by decide)).1, (hparts _ (Lexer.isGiven_classifyOperator _ _ _)).2, hall.2⟩
        · exact hall
      · exact hall

end Grammar.Assembled

variable {source : String} {tree : Element}

/-- **Kinds of a syntax tree**: leaves have the kinds of tokens and inner nodes those of nodes. -/
theorem wellKinded_parse (h : parse source = .ok tree) : tree.WellKinded := by
  obtain ⟨ts, items, s, hts, hitems, rfl⟩ := parse_eq_ok h
  obtain ⟨hwords, hend⟩ := Lexer.tokens_isWord hts
  have hassembled := Grammar.assembled_fileItems (Grammar.assembled_level (depthFor source.utf8ByteSize))
  have hkinds := hassembled.wellKindedAll hitems (by simpa using hwords) Element.wellKindedAll_nil
  have hendOfFile : s.endOfFile = ts.endOfFile := (hassembled.kept hitems).endOfFile
  rw [Element.wellKinded_node, Element.wellKindedAll_append, Element.wellKindedAll_cons,
    Element.wellKinded_token, hendOfFile, hend]
  exact ⟨by decide, hkinds, by decide, Element.wellKindedAll_nil⟩

theorem wellKinded_of_mem_descendants {x : Cursor} (h : parse source = .ok tree)
    (hx : x ∈ (Cursor.root tree).descendants) : x.element.WellKinded := by
  obtain ⟨hplaced, hroot⟩ := Cursor.isPlaced_of_mem_descendants hx
  exact hplaced.wellKinded (hroot ▸ wellKinded_parse h)

end SwiftTidy
