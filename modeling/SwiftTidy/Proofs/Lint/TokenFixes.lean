import SwiftTidy.Proofs.Lint.Untouched
import SwiftTidy.Proofs.Parse.WellKinded
import SwiftTidy.Proofs.Tree.Descent

/-!
# Fixers that exchange tokens alone

A fixer that never proposes anything for a node, and whose proposal for a token does not depend on
its state, is a map over the leaves: a run leaves the nodes as they are and puts in place of every
token what `elementFor` says (`run_maps_tokens`).

Which children are visited may still depend on the state, so the nodes whose children were skipped
are known only from the run itself.  `noting` is the same fixer with a state that also keeps the
paths of these nodes; it runs as the fixer does (`fixOf_noting`).  The induction goes over runs of
it: what is noted below a place are paths of nodes there, and as no two places of a tree have the
same path, whether a token is below a skipped node can be read off the notes of the whole run.
-/

namespace SwiftTidy

namespace Element

mutual
/-- Whether the nodes of one element are those of another, with their kinds and their numbers of
children.  In place of a token there may be anything. -/
def SameNodes : Element → Element → Prop
  | .token _, _ => True
  | .node k es, .node j fs => k = j ∧ SameNodesAll es fs
  | .node _ _, .token _ => False
/-- Whether two lists of elements have the same nodes, one by one. -/
def SameNodesAll : List Element → List Element → Prop
  | [], [] => True
  | e :: es, f :: fs => SameNodes e f ∧ SameNodesAll es fs
  | [], _ :: _ => False
  | _ :: _, [] => False
end

mutual
theorem sameNodes_refl : ∀ e : Element, SameNodes e e
  | .token t => by rw [SameNodes]; trivial
  | .node k es => by rw [SameNodes]; exact ⟨rfl, sameNodesAll_refl es⟩
theorem sameNodesAll_refl : ∀ es : List Element, SameNodesAll es es
  | [] => by rw [SameNodesAll]; trivial
  | e :: es => by rw [SameNodesAll]; exact ⟨sameNodes_refl e, sameNodesAll_refl es⟩
end

end Element

namespace Cursor

/-- Whether a place is below one of the places with the given paths. -/
def isBelow (c : Cursor) (paths : List (List Nat)) : Bool :=
  c.ancestors.any fun a => paths.contains a.path

theorem isBelow_eq_false_iff {c : Cursor} {paths : List (List Nat)} :
    c.isBelow paths = false ↔ ∀ a ∈ c.ancestors, a.path ∉ paths := by
  simp [isBelow]

/-- The leaves of the tokens of a place are those of its element. -/
theorem flatMap_leaves_tokensOfAll (es : List Element) (p : Cursor) (i o : Nat)
    (h : Element.WellKindedAll es) :
    (tokensOfAll es p i o).flatMap (·.element.leaves) = Element.leavesAll es := by
  have hmap := congrArg (List.flatMap fun x : Nat × Element => x.2.leaves) (map_tokensOfAll es p i o h)
  rw [List.flatMap_map, List.flatMap_map] at hmap
  calc (tokensOfAll es p i o).flatMap (·.element.leaves)
    _ = (Token.placed o (Element.leavesAll es)).flatMap fun x => [x.2] := by
      rw [hmap]
      exact List.flatMap_congr fun x _ => Element.leaves_token x.2
    _ = Element.leavesAll es := by rw [← List.map_eq_flatMap, Token.map_snd_placed]

end Cursor

namespace Fixer

variable {σ : Type} {x : Fixer σ} {d : DisabledRegions} {c : Cursor} {s : σ}

/-! ### The nodes whose children are skipped -/

/-- The fixer with a state in which also the paths of the nodes are kept whose children it skips. -/
def noting (x : Fixer σ) : Fixer (σ × List (List Nat)) where
  visit c s := do
    let (descend, t) ← x.visit c s.1
    return (descend, (t, if descend then s.2 else s.2 ++ [c.path]))
  node c e s := do
    let (fix, t) ← x.node c e s.1
    return (fix, (t, s.2))
  token c s := do
    let (fix, t) ← x.token c s.1
    return (fix, (t, s.2))

/-- The paths of the nodes whose children are skipped in a run. -/
def skips (x : Fixer σ) (start : σ) (d : DisabledRegions) (tree : Element) :
    Except Fault (List (List Nat)) := do
  let (_, _, paths) ← fixOf x.noting d tree (.root tree) (start, [])
  return paths

theorem visit_noting_eq_ok {l : List (List Nat)} {r : Bool × σ × List (List Nat)} :
    x.noting.visit c (s, l) = .ok r ↔ ∃ descend s', x.visit c s = .ok (descend, s') ∧
      r = (descend, (s', if descend then l else l ++ [c.path])) := by
  rw [noting, Except.bind_eq_ok]
  constructor
  · rintro ⟨⟨descend, s'⟩, hvisit, hr⟩
    exact ⟨descend, s', hvisit, (Except.ok.inj hr).symm⟩
  · rintro ⟨descend, s', hvisit, rfl⟩
    exact ⟨(descend, s'), hvisit, rfl⟩

theorem node_noting_eq_ok {e : Element} {l : List (List Nat)}
    {r : Option Fix × σ × List (List Nat)} :
    x.noting.node c e (s, l) = .ok r ↔
      ∃ fix s', x.node c e s = .ok (fix, s') ∧ r = (fix, (s', l)) := by
  rw [noting, Except.bind_eq_ok]
  constructor
  · rintro ⟨⟨fix, s'⟩, hnode, hr⟩
    exact ⟨fix, s', hnode, (Except.ok.inj hr).symm⟩
  · rintro ⟨fix, s', hnode, rfl⟩
    exact ⟨(fix, s'), hnode, rfl⟩

theorem token_noting_eq_ok {l : List (List Nat)} {r : Option Fix × σ × List (List Nat)} :
    x.noting.token c (s, l) = .ok r ↔
      ∃ fix s', x.token c s = .ok (fix, s') ∧ r = (fix, (s', l)) := by
  rw [noting, Except.bind_eq_ok]
  constructor
  · rintro ⟨⟨fix, s'⟩, htoken, hr⟩
    exact ⟨fix, s', htoken, (Except.ok.inj hr).symm⟩
  · rintro ⟨fix, s', htoken, rfl⟩
    exact ⟨(fix, s'), htoken, rfl⟩

mutual
/-- Noting what is skipped changes nothing else. -/
theorem fixOf_noting : ∀ {e : Element} {c : Cursor} {s s' : σ} {r : Element × List Nat}
    (l : List (List Nat)), fixOf x d e c s = .ok (r, s') →
    ∃ l', fixOf x.noting d e c (s, l) = .ok (r, (s', l'))
  | .token t, c, s, s', r, l, h => by
    obtain ⟨fix, s₁, htoken, hr⟩ := fixOf_token_eq_ok.mp h
    cases hr
    exact ⟨l, fixOf_token_eq_ok.mpr ⟨fix, _, token_noting_eq_ok.mpr ⟨fix, s', htoken, rfl⟩, rfl⟩⟩
  | .node k es, c, s, s', r, l, h => by
    rcases fixOf_node_eq_ok.mp h with ⟨s₁, es', below, s₂, fix, s₃, hvisit, hes, hnode, hr⟩ |
      ⟨s₁, fix, s₂, hvisit, hnode, hr⟩
    · cases hr
      obtain ⟨l', hes'⟩ := fixOfAll_noting l hes
      exact ⟨l', fixOf_node_eq_ok.mpr (.inl ⟨_, es', below, _, fix, _,
        visit_noting_eq_ok.mpr ⟨true, s₁, hvisit, rfl⟩, hes',
        node_noting_eq_ok.mpr ⟨fix, s', hnode, rfl⟩, rfl⟩)⟩
    · cases hr
      exact ⟨l ++ [c.path], fixOf_node_eq_ok.mpr (.inr ⟨_, fix, _,
        visit_noting_eq_ok.mpr ⟨false, s₁, hvisit, rfl⟩,
        node_noting_eq_ok.mpr ⟨fix, s', hnode, rfl⟩, rfl⟩)⟩
theorem fixOfAll_noting : ∀ {es : List Element} {p : Cursor} {i o : Nat} {s s' : σ}
    {r : List Element × List Nat} (l : List (List Nat)), fixOfAll x d es p i o s = .ok (r, s') →
    ∃ l', fixOfAll x.noting d es p i o (s, l) = .ok (r, (s', l'))
  | [], p, i, o, s, s', r, l, h => by
    cases fixOfAll_nil_eq_ok.mp h
    exact ⟨l, fixOfAll_nil_eq_ok.mpr rfl⟩
  | e :: es, p, i, o, s, s', r, l, h => by
    obtain ⟨e', here, s₁, es', later, s₂, he, hes, hr⟩ := fixOfAll_cons_eq_ok.mp h
    cases hr
    obtain ⟨l₁, he'⟩ := fixOf_noting l he
    obtain ⟨l₂, hes'⟩ := fixOfAll_noting l₁ hes
    exact ⟨l₂, fixOfAll_cons_eq_ok.mpr ⟨e', here, _, es', later, _, he', hes', rfl⟩⟩
end

/-! ### What stands for a token -/

/-- A fixer that proposes nothing for nodes. -/
def LeavesNodes (x : Fixer σ) : Prop := ∀ c e s fix s', x.node c e s = .ok (fix, s') → fix = none

/-- What a fixer proposes for a token is known without its state. -/
def Decides (x : Fixer σ) (decision : Cursor → Option Fix) : Prop :=
  ∀ c s fix s', x.token c s = .ok (fix, s') → fix = decision c

/-- What stands for a token after a run in which the children of the given nodes were skipped: the
replacement, if it is reached and accepted, and else the token. -/
def elementFor (decision : Cursor → Option Fix) (d : DisabledRegions) (skipped : List (List Nat))
    (c : Cursor) : Element :=
  match decision c with
  | some f => if !c.isBelow skipped && f.isAllowed d c then f.replacement else c.element
  | none => c.element

variable {decision : Cursor → Option Fix} {skipped : List (List Nat)}

theorem elementFor_of_isBelow (h : c.isBelow skipped = true) :
    elementFor decision d skipped c = c.element := by
  rw [elementFor, h]
  cases decision c <;> rfl

theorem elementFor_eq_accept (h : c.isBelow skipped = false) :
    elementFor decision d skipped c = (accept d c c.element (decision c)).1 := by
  rw [elementFor]
  cases decision c with
  | none => rfl
  | some f =>
    rw [accept]
    simp only [h, Bool.not_false, Bool.true_and]
    cases f.isAllowed d c <;> rfl

/-- What a run of a noting fixer makes of the elements at the places `cs`, of which `ts` are the
tokens: it keeps their nodes and notes paths of these places alone.  Read against notes that say the
same of these places, and nothing of the places above, its leaves are those of what stands for the
tokens. -/
structure Maps (decision : Cursor → Option Fix) (d : DisabledRegions) (above cs ts : List Cursor)
    (noted : List (List Nat)) (leaves : List Token) : Prop where
  mem : ∀ path ∈ noted, ∃ a ∈ cs, a.path = path
  leaves : ∀ skipped : List (List Nat), (∀ a ∈ above, a.path ∉ skipped) →
    (∀ a ∈ cs, a.path ∈ skipped ↔ a.path ∈ noted) →
    leaves = ts.flatMap fun c => (elementFor decision d skipped c).leaves

mutual
/-- A run below a place maps its tokens. -/
theorem maps_fixOf (hnodes : x.LeavesNodes) (htokens : x.Decides decision) :
    ∀ {e : Element} {c : Cursor} {s s' : σ} {l l' : List (List Nat)} {e' : Element} {ps : List Nat},
    e.WellKinded → c.element = e → fixOf x.noting d e c (s, l) = .ok ((e', ps), (s', l')) →
    e.SameNodes e' ∧ ∃ noted, l' = l ++ noted ∧
      Maps decision d c.ancestors (Cursor.descendantsOf e c) (Cursor.tokensOf e c) noted e'.leaves
  | .token t, c, s, s', l, l', e', ps, he, hc, h => by
    obtain ⟨fix, t', htoken, hr⟩ := fixOf_token_eq_ok.mp h
    obtain ⟨fix', s₁, hdecision, heq⟩ := token_noting_eq_ok.mp htoken
    cases heq
    cases htokens c s fix s₁ hdecision
    obtain ⟨haccept, hstate⟩ := Prod.mk.inj hr
    cases hstate
    refine ⟨by rw [Element.SameNodes]; trivial, [], (List.append_nil l).symm, List.forall_mem_nil _, ?_⟩
    intro skipped habove _
    rw [Cursor.tokensOf_token he hc, List.flatMap_singleton,
      elementFor_eq_accept (Cursor.isBelow_eq_false_iff.mpr habove), hc, ← haccept]
  | .node k es, c, s, s', l, l', e', ps, he, hc, h => by
    have hkinds := ((Element.wellKinded_node k es).mp he).2
    rw [Cursor.tokensOf_node he hc, Cursor.descendantsOf]
    rcases fixOf_node_eq_ok.mp h with ⟨t₁, es', below, t₂, fix, t₃, hvisit, hes, hnode, hr⟩ |
      ⟨t₁, fix, t₂, hvisit, hnode, hr⟩
    · -- the children are visited and the node itself is not noted
      obtain ⟨descend, s₁, -, heq⟩ := visit_noting_eq_ok.mp hvisit
      obtain ⟨rfl, rfl⟩ := Prod.mk.inj heq
      obtain ⟨s₂, l₂⟩ := t₂
      obtain ⟨fix', s₃, hnone, heq⟩ := node_noting_eq_ok.mp hnode
      cases heq
      cases hnodes c _ _ fix s₃ hnone
      cases hr
      obtain ⟨hsame, noted, hl, hmaps⟩ := maps_fixOfAll hnodes htokens hkinds hes
      have hself : c.path ∉ noted := by
        intro hmem
        obtain ⟨a, ha, hpath⟩ := hmaps.mem _ hmem
        obtain ⟨j, -, hj⟩ := Cursor.path_prefix_of_mem_descendantsOfAll ha
        have hlength := hj.length_le
        rw [hpath, List.length_append, List.length_singleton] at hlength
        omega
      refine ⟨by rw [accept, Element.SameNodes]; exact ⟨rfl, hsame⟩, noted, hl, ?_, ?_⟩
      · intro path hpath
        obtain ⟨a, ha, hapath⟩ := hmaps.mem path hpath
        exact ⟨a, List.mem_cons_of_mem c ha, hapath⟩
      · intro skipped habove hskipped
        rw [List.forall_mem_cons] at hskipped
        rw [accept, Element.leaves_node]
        refine hmaps.leaves skipped (List.forall_mem_cons.mpr ⟨?_, habove⟩) hskipped.2
        exact mt hskipped.1.mp hself
    · -- the node is noted and all tokens are below it
      obtain ⟨descend, s₁, -, heq⟩ := visit_noting_eq_ok.mp hvisit
      obtain ⟨rfl, rfl⟩ := Prod.mk.inj heq
      obtain ⟨fix', s₂, hnone, heq⟩ := node_noting_eq_ok.mp hnode
      cases heq
      cases hnodes c _ _ fix s₂ hnone
      cases hr
      refine ⟨Element.sameNodes_refl _, [c.path], rfl, ?_, ?_⟩
      · intro path hpath
        exact ⟨c, List.mem_cons_self, (List.mem_singleton.mp hpath).symm⟩
      · intro skipped _ hskipped
        have hself : c.path ∈ skipped := (hskipped c List.mem_cons_self).mpr List.mem_cons_self
        rw [Element.leaves_node, ← Cursor.flatMap_leaves_tokensOfAll es c 0 c.offset hkinds]
        refine List.flatMap_congr fun y hy => ?_
        have hbelow : y.isBelow skipped = true := List.any_eq_true.mpr ⟨c,
          Cursor.mem_ancestors_of_mem_descendantsOfAll (List.mem_filter.mp hy).1, by simpa using hself⟩
        rw [elementFor_of_isBelow hbelow]
/-- A run below some children of a place maps their tokens. -/
theorem maps_fixOfAll (hnodes : x.LeavesNodes) (htokens : x.Decides decision) :
    ∀ {es : List Element} {p : Cursor} {i o : Nat} {s s' : σ} {l l' : List (List Nat)}
      {es' : List Element} {ps : List Nat}, Element.WellKindedAll es →
    fixOfAll x.noting d es p i o (s, l) = .ok ((es', ps), (s', l')) →
    Element.SameNodesAll es es' ∧ ∃ noted, l' = l ++ noted ∧
      Maps decision d (p :: p.ancestors) (Cursor.descendantsOfAll es p i o)
        (Cursor.tokensOfAll es p i o) noted (Element.leavesAll es')
  | [], p, i, o, s, s', l, l', es', ps, _, h => by
    cases fixOfAll_nil_eq_ok.mp h
    refine ⟨by rw [Element.SameNodesAll]; trivial, [], (List.append_nil l).symm, List.forall_mem_nil _, ?_⟩
    intro skipped _ _
    rw [Element.leavesAll_nil, Cursor.tokensOfAll_nil, List.flatMap_nil]
  | e :: es, p, i, o, s, s', l, l', es', ps, hkinds, h => by
    rw [Element.wellKindedAll_cons] at hkinds
    obtain ⟨f, here, ⟨s₁, l₁⟩, fs, later, t₂, he, hes, hr⟩ := fixOfAll_cons_eq_ok.mp h
    cases hr
    obtain ⟨hsame, noted, rfl, hmaps⟩ := maps_fixOf hnodes htokens hkinds.1 rfl he
    obtain ⟨hsames, noteds, rfl, hmapses⟩ := maps_fixOfAll hnodes htokens hkinds.2 hes
    refine ⟨by rw [Element.SameNodesAll]; exact ⟨hsame, hsames⟩, noted ++ noteds,
      List.append_assoc l noted noteds, ?_, ?_⟩
    · intro path hpath
      rw [Cursor.descendantsOfAll]
      rcases List.mem_append.mp hpath with hpath | hpath
      · obtain ⟨a, ha, hapath⟩ := hmaps.mem path hpath
        exact ⟨a, List.mem_append_left _ ha, hapath⟩
      · obtain ⟨a, ha, hapath⟩ := hmapses.mem path hpath
        exact ⟨a, List.mem_append_right _ ha, hapath⟩
    · intro skipped habove hskipped
      -- the head and the tail have no path in common, so each sees its own notes alone
      have hapart := Cursor.descendantsOfAll_nodup (e :: es) p i o
      rw [Cursor.descendantsOfAll, List.map_append, List.nodup_append] at hapart
      rw [Cursor.descendantsOfAll, List.forall_mem_append] at hskipped
      rw [Element.leavesAll_cons, Cursor.tokensOfAll_cons, List.flatMap_append,
        ← hmaps.leaves skipped habove, ← hmapses.leaves skipped habove]
      · intro a ha
        rw [hskipped.2 a ha, List.mem_append, or_iff_right]
        intro hmem
        obtain ⟨b, hb, hpath⟩ := hmaps.mem _ hmem
        exact hapart.2.2 _ (List.mem_map_of_mem hb) _ (List.mem_map_of_mem ha) hpath
      · intro a ha
        rw [hskipped.1 a ha, List.mem_append, or_iff_left]
        intro hmem
        obtain ⟨b, hb, hpath⟩ := hmapses.mem _ hmem
        exact hapart.2.2 _ (List.mem_map_of_mem ha) _ (List.mem_map_of_mem hb) hpath.symm
end

/-- **A run over tokens.**  A fixer that leaves nodes alone and decides on a token by its place is a
map over the leaves: unless one of its hooks fails, the fixed tree reads as what stands for the
tokens in turn, with the same nodes around them. -/
theorem run_maps_tokens (hnodes : x.LeavesNodes) (htokens : x.Decides decision) (start : σ)
    {k : SyntaxKind} {es : List Element} (hkinds : (Element.node k es).WellKinded) :
    (∀ fault, x.run start d (.node k es) = .error fault → x.FailsWith fault) ∧
    ∀ o, x.run start d (.node k es) = .ok o →
      ∃ skipped, x.skips start d (.node k es) = .ok skipped ∧
        o.tree.fullText = String.join ((Cursor.root (.node k es)).tokens.map fun c =>
          (elementFor decision d skipped c).fullText) ∧
        (Element.node k es).SameNodes o.tree := by
  refine ⟨fun fault h => failsWith_of_run h, fun o ho => ?_⟩
  obtain ⟨e', ps, s', hfix, rfl⟩ := run_eq_ok.mp ho
  obtain ⟨skipped, hnoting⟩ := fixOf_noting [] hfix
  obtain ⟨hsame, noted, hnoted, hmaps⟩ := maps_fixOf hnodes htokens hkinds rfl hnoting
  rw [List.nil_append] at hnoted
  subst hnoted
  cases e' with
  | token t =>
    rw [Element.SameNodes] at hsame
    exact hsame.elim
  | node j fs =>
    refine ⟨skipped, Except.bind_eq_ok.mpr ⟨_, hnoting, rfl⟩, ?_, hsame⟩
    have hleaves := hmaps.leaves skipped (List.forall_mem_nil _) fun a _ => Iff.rfl
    rw [← String.toList_inj, Element.toList_fullText, String.toList_join, List.flatMap_map, hleaves,
      Token.spell, List.flatMap_assoc]
    exact List.flatMap_congr fun c _ => (Element.toList_fullText _).symm

/-- What the exchange of one name by another proposes for a token. -/
def rename (c : Cursor) : Option Fix :=
  match c.element with
  | .token t =>
    if t.text = "foo" then some ⟨.token { t with text := "bar" }, c.position, [], none⟩ else none
  | .node _ _ => none

/-- Exchanges a name by another, but looks into every second function only. -/
def renamer : Fixer Nat where
  visit c n := .ok (if c.kind = .functionDecl then (n % 2 = 0, n + 1) else (true, n))
  token c n := .ok (rename c, n)

/-- Of four names the second stands in the function that is not looked into and the last in a
disabled region. -/
theorem run_maps_tokens_rename :
    let source := "func a() \x7b foo \x7d\nfunc b() \x7b foo \x7d\nfoo\nfoo\n"
    let regions : DisabledRegions := ⟨#[⟨RuleSet.empty, 38, none⟩]⟩
    ∃ tree o skipped, parse source = .ok tree ∧ tree.WellKinded ∧ renamer.LeavesNodes ∧
      renamer.Decides rename ∧ renamer.run 0 regions tree = .ok o ∧
      renamer.skips 0 regions tree = .ok skipped ∧ skipped.length = 1 ∧
      o.tree.fullText = "func a() \x7b bar \x7d\nfunc b() \x7b foo \x7d\nbar\nfoo\n" ∧
      o.tree.fullText = String.join ((Cursor.root tree).tokens.map fun c =>
        (elementFor rename regions skipped c).fullText) ∧
      tree.SameNodes o.tree := by
  intro source regions
  have heval : ((parse source).toOption.bind fun tree =>
      (renamer.run 0 regions tree).toOption.bind fun o =>
        (renamer.skips 0 regions tree).toOption.map fun skipped =>
          (tree.token?, skipped.length, o.tree.fullText)) =
      some (none, 1, "func a() \x7b bar \x7d\nfunc b() \x7b foo \x7d\nbar\nfoo\n") := by
    decide +kernel
  obtain ⟨tree, htree, heval⟩ := Option.bind_eq_some_iff.mp heval
  obtain ⟨o, ho, heval⟩ := Option.bind_eq_some_iff.mp heval
  obtain ⟨skipped, hskipped, heval⟩ := Option.map_eq_some_iff.mp heval
  obtain ⟨hnode, hlength, htext⟩ : tree.token? = none ∧ skipped.length = 1 ∧ o.tree.fullText = _ := by
    simpa only [Prod.mk.injEq] using heval
  rw [Except.toOption_eq_some] at htree ho hskipped
  have hkinds := wellKinded_parse htree
  have hnodes : renamer.LeavesNodes :=
    fun c e s fix s' h => (Prod.mk.inj (Except.ok.inj h)).1.symm
  have htokens : renamer.Decides rename :=
    fun c s fix s' h => (Prod.mk.inj (Except.ok.inj h)).1.symm
  cases tree with
  | token t => cases hnode
  | node k es =>
    obtain ⟨paths, hpaths, hmap, hsame⟩ := (run_maps_tokens hnodes htokens 0 hkinds).2 o ho
    cases Except.ok.inj (hskipped.symm.trans hpaths)
    exact ⟨_, o, skipped, htree, hkinds, hnodes, htokens, ho, hskipped, hlength, htext, hmap, hsame⟩

end Fixer

end SwiftTidy
