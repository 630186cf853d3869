import SwiftTidy.Proofs.Parse.WellKinded
import SwiftTidy.Proofs.Tree.Omission

/-!
# The leaves of a tree are the tokens of its text

`Token.Refines ts us` says that `us` are the tokens `ts`, under these or other kinds, some of them cut
behind a `>`.  The leaves of the tree of a source are its tokens in this sense (`leaves_refine`), and a
tree is told by what it is without its trivia together with its leaves (`Element.eq_of_stripped`).
-/

namespace SwiftTidy

namespace Token

/-- The second list holds the tokens of the first one, some of them cut in two behind a `>`. -/
inductive Refines : List Token → List Token → Prop where
  | nil : Refines [] []
  | keep {ts us : List Token} (t : Token) (k : SyntaxKind) (h : Refines ts us) :
      Refines (t :: ts) ({ t with kind := k } :: us)
  | split {t : Token} {ts us : List Token} {c : Char} {cs : List Char} (k k' : SyntaxKind)
      (htext : t.text.toList = '>' :: c :: cs)
      (h : Refines (⟨k', String.ofList (c :: cs), [], t.trailing⟩ :: ts) us) :
      Refines (t :: ts) (⟨k, ">", t.leading, []⟩ :: us)

namespace Refines

variable {t : Token} {ts us vs : List Token}

theorem refl (ts : List Token) : Refines ts ts := by
  induction ts with
  | nil => exact .nil
  | cons t ts ih => exact .keep t t.kind ih

/-- The kind of the first token does not matter. -/
theorem head (h : Refines (t :: ts) us) (k : SyntaxKind) : Refines ({ t with kind := k } :: ts) us := by
  cases h with
  | keep t j h => exact .keep { t with kind := k } j h
  | split j j' htext h => exact .split j j' htext h

theorem append_left (ws : List Token) (h : Refines ts us) : Refines (ws ++ ts) (ws ++ us) := by
  induction ws with
  | nil => exact h
  | cons w ws ih => exact .keep w w.kind ih

theorem append_right (h : Refines ts us) (ws : List Token) : Refines (ts ++ ws) (us ++ ws) := by
  induction h with
  | nil => exact refl ws
  | keep t k _ ih => exact .keep t k ih
  | split k k' htext _ ih => exact .split k k' htext ih

/-- In front of each token stands what stands in front of one of those that are cut, or nothing. -/
theorem leading_of_mem (h : Refines ts us) :
    ∀ u ∈ us, u.leading = [] ∨ ∃ t ∈ ts, u.leading = t.leading := by
  induction h with
  | nil => nofun
  | keep t k _ ih =>
    rw [List.forall_mem_cons]
    refine ⟨.inr ⟨t, List.mem_cons_self, rfl⟩, fun u hu => ?_⟩
    exact (ih u hu).imp_right fun ⟨w, hw, heq⟩ => ⟨w, List.mem_cons_of_mem _ hw, heq⟩
  | split k k' _ _ ih =>
    rw [List.forall_mem_cons]
    refine ⟨.inr ⟨_, List.mem_cons_self, rfl⟩, fun u hu => ?_⟩
    rcases ih u hu with hnil | ⟨w, hw, heq⟩
    · exact .inl hnil
    · rcases List.mem_cons.mp hw with rfl | hw
      · exact .inl heq
      · exact .inr ⟨w, List.mem_cons_of_mem _ hw, heq⟩

theorem trans (h : Refines ts us) (h' : Refines us vs) : Refines ts vs := by
  induction h generalizing vs with
  | nil => exact h'
  | @keep ts us t k h ih =>
    -- whatever is done to the first token, the others are refined
    have hcons : ∀ (t : Token) (vs : List Token), Refines (t :: us) vs → Refines (t :: ts) vs := by
      intro t vs h
      generalize hws : t :: us = ws at h
      induction h generalizing t with
      | nil => cases hws
      | keep w k h =>
        obtain ⟨rfl, rfl⟩ := List.cons.inj hws
        exact .keep t k (ih h)
      | split k k' htext _ ih' =>
        obtain ⟨rfl, rfl⟩ := List.cons.inj hws
        exact .split k k' htext (ih' _ rfl)
    exact (hcons _ vs h').head t.kind
  | split k k' htext _ ih =>
    cases h' with
    | keep _ j h' => exact .split j k' htext (ih h')
    | split _ _ htext' _ =>
      have hlength := congrArg List.length htext'
      have hangle : (">" : String).toList.length = 1 := by decide
      dsimp only at hlength
      rw [hangle, List.length_cons, List.length_cons] at hlength
      omega

end Refines

end Token

/-! ### What a grammar does to the tokens -/

namespace Grammar.Assembled

variable {held es : List Element} {g : Grammar} {s s' : Input}

/-- A grammar put together from basic steps places the tokens, or cuts them in two. -/
theorem refines (hg : Assembled held g) (h : g.run s = .ok (es, s')) :
    Token.Refines (Element.leavesAll held ++ s.pending) (Element.leavesAll es ++ s'.pending) := by
  induction hg generalizing s es s' with
  | emit fs =>
    cases h
    exact .refl _
  | wrap k hk hg ih => simpa using ih h
  | emitFront fs hg ih =>
    obtain ⟨gs, hgs, rfl⟩ := run_emit_append h
    rw [Element.leavesAll_append, Element.leavesAll_append, List.append_assoc, List.append_assoc]
    exact (ih hgs).append_left _
  | fail held e he => cases h
  | peek hf ih => exact ih s h
  | append hg hh ihg ihh =>
    obtain ⟨fs, gs, t, hfs, hgs, rfl⟩ := run_append h
    -- the first part refines the tokens, and the second one what is left of them
    have hrest := (ihh hgs).append_left (Element.leavesAll fs)
    rw [Element.leavesAll_nil, List.nil_append, ← List.append_assoc,
      ← Element.leavesAll_append] at hrest
    exact (ihg hfs).trans hrest
  | capture front hg hk ihg ihk =>
    obtain ⟨fs, t, hfs, hes⟩ := run_capture h
    have hfront := (ihg hfs).append_left (Element.leavesAll front)
    rw [← List.append_assoc, ← List.append_assoc, ← Element.leavesAll_append,
      ← Element.leavesAll_append] at hfront
    exact hfront.trans (ihk fs hes)
  | take =>
    obtain ⟨t, rest, hs, rfl, rfl⟩ := run_take h
    rw [hs]
    exact .keep t t.kind (.refl rest)
  | takeAs k hk _ =>
    obtain ⟨t, rest, hs, rfl, rfl⟩ := run_takeAs h
    rw [hs]
    exact .keep t k (.refl rest)
  | splitRightAngle =>
    cases h
    unfold Input.splitRightAngle
    split
    · exact .refl _
    · next t rest hs =>
      split
      · next c cs htext =>
        split
        · rw [hs]
          exact .split _ _ htext (.refl _)
        · exact .refl _
      · exact .refl _

end Grammar.Assembled

namespace Grammar

/-- The leaves of a file are the tokens, some of them cut in two. -/
theorem refines_of_run {depth : Nat} {s t : Input} {tree : Element} (hwords : ∀ u ∈ s.pending, u.kind.IsWord)
    (hrun : (sourceFile (level depth)).run s = .ok ([tree], t)) :
    Token.Refines (s.pending ++ [s.endOfFile]) tree.leaves := by
  obtain ⟨items, hitems, heq⟩ := run_sourceFile hrun
  obtain rfl := (List.cons.inj heq).1
  have hnil : t.pending = [] := run_fileItems (assembled_level depth) hwords hitems
  have hassembled := assembled_fileItems (assembled_level depth)
  have hrefines := hassembled.refines hitems
  have hendOfFile : t.endOfFile = s.endOfFile := (hassembled.kept hitems).endOfFile
  rw [Element.leavesAll_nil, List.nil_append, hnil, List.append_nil] at hrefines
  rw [Element.leaves_node, Element.leavesAll_append, Element.leavesAll_cons, Element.leaves_token,
    Element.leavesAll_nil, List.append_nil, hendOfFile]
  exact hrefines.append_right _

end Grammar

/-- The leaves of the tree of a source are its tokens, some of them cut in two. -/
theorem leaves_refine {source : String} {tree : Element} {ts : Lexer.Tokens}
    (h : parse source = .ok tree) (hts : Lexer.tokens source = .ok ts) :
    Token.Refines (ts.pending ++ [ts.endOfFile]) tree.leaves := by
  obtain ⟨s, hrun⟩ := exists_run_of_parse h hts
  exact Grammar.refines_of_run (Lexer.tokens_isWord hts).1 hrun

/-! ### Trees told by their leaves -/

/-- A token without its trivia. -/
def Token.stripped (t : Token) : Token := ⟨t.kind, t.text, [], []⟩

namespace Element

mutual
/-- The leaves of an element without its trivia. -/
theorem leaves_stripped : ∀ e : Element, e.stripped.leaves = e.leaves.map Token.stripped
  | token t => by
    rw [stripped_token, leaves_token, leaves_token]
    rfl
  | node k es => by rw [stripped_node, leaves_node, leaves_node, leavesAll_strippedAll es]
theorem leavesAll_strippedAll : ∀ es : List Element,
    leavesAll (strippedAll es) = (leavesAll es).map Token.stripped
  | [] => by rw [strippedAll_nil, leavesAll_nil, List.map_nil]
  | e :: es => by
    rw [strippedAll_cons, leavesAll_cons, leavesAll_cons, List.map_append, leaves_stripped e,
      leavesAll_strippedAll es]
end

theorem length_leaves_of_stripped {e e' : Element} (h : e.stripped = e'.stripped) :
    e.leaves.length = e'.leaves.length := by
  rw [← List.length_map (f := Token.stripped), ← leaves_stripped, h, leaves_stripped,
    List.length_map]

mutual
/-- **A tree is told by its leaves**, together with what it is without its trivia. -/
theorem eq_of_stripped : ∀ {e e' : Element}, e.stripped = e'.stripped → e.leaves = e'.leaves → e = e'
  | token t, token t', _, hleaves => by
    rw [leaves_token, leaves_token] at hleaves
    rw [List.singleton_inj.mp hleaves]
  | token t, node k es, h, _ => by
    rw [stripped_token, stripped_node] at h
    cases h
  | node k es, token t, h, _ => by
    rw [stripped_token, stripped_node] at h
    cases h
  | node k es, node k' es', h, hleaves => by
    rw [stripped_node, stripped_node] at h
    rw [leaves_node, leaves_node] at hleaves
    obtain ⟨rfl, hes⟩ := node.inj h
    rw [eqAll_of_strippedAll hes hleaves]
theorem eqAll_of_strippedAll : ∀ {es es' : List Element}, strippedAll es = strippedAll es' →
    leavesAll es = leavesAll es' → es = es'
  | [], [], _, _ => rfl
  | [], e :: es, h, _ => by
    rw [strippedAll_nil, strippedAll_cons] at h
    cases h
  | e :: es, [], h, _ => by
    rw [strippedAll_nil, strippedAll_cons] at h
    cases h
  | e :: es, e' :: es', h, hleaves => by
    rw [strippedAll_cons, strippedAll_cons] at h
    obtain ⟨hhead, htail⟩ := List.cons.inj h
    rw [leavesAll_cons, leavesAll_cons] at hleaves
    obtain ⟨hleaves, hrest⟩ := List.append_inj hleaves (length_leaves_of_stripped hhead)
    rw [eq_of_stripped hhead hleaves, eqAll_of_strippedAll htail hrest]
end

end Element

end SwiftTidy
