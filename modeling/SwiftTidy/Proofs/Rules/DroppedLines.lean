import Mathlib.Data.List.Pairwise
import SwiftTidy.Proofs.Parse.Releading
import SwiftTidy.Proofs.Rules.LineRuns

/-!
# What a pass over the empty lines leaves

A pass over the empty lines of a file leaves the same tree with other trivia in front of its tokens
(`made_run`): what is left there has lost whole lines of blanks.  So its text is read into the same
tree, unless a lone CR has come to stand in front of a lone LF, which are one line break together; and
every run of empty lines has the length that it should have (`parse_run_iff`).
-/

namespace SwiftTidy

namespace VerticalWhitespace

variable {source : String} {tree : Element} {leading : Trivia} {limit offset offset' : Nat}
  {disabled : DisabledRegions} {run : List Line} {l : Line}

/-! ### In front of one token -/

theorem shortened_nil : shortened limit disabled offset [] = [] := rfl

/-- The lines that are dropped are the first ones of a run. -/
theorem exists_eq_droppedOf_append (limit : Nat) (disabled : DisabledRegions) (run : List Line) :
    ∃ left, run = droppedOf limit disabled run ++ left ∧
      left.length = if isShortened limit disabled run then limit else run.length := by
  unfold droppedOf
  split_ifs with h
  · obtain ⟨e, hexcess, -⟩ := (Option.any_eq_true _ _).mp h
    have hlong : limit < run.length := by
      rw [excess?, Option.ite_none_right_eq_some] at hexcess
      exact hexcess.1
    refine ⟨run.drop (run.length - limit), (List.take_append_drop _ _).symm, ?_⟩
    rw [List.length_drop]
    omega
  · exact ⟨run, rfl, rfl⟩

theorem mem_of_mem_droppedOf (hl : l ∈ droppedOf limit disabled run) : l ∈ run := by
  obtain ⟨left, hrun, -⟩ := exists_eq_droppedOf_append limit disabled run
  rw [hrun]
  exact List.mem_append_left _ hl

theorem exists_of_mem_dropped
    (hl : l ∈ (emptyRuns offset leading).flatMap (droppedOf limit disabled)) :
    ∃ run ∈ emptyRuns offset leading, l ∈ run := by
  obtain ⟨run, hrun, hl⟩ := List.mem_flatMap.mp hl
  exact ⟨run, hrun, mem_of_mem_droppedOf hl⟩

/-- Whole lines of blanks are dropped. -/
theorem thins_shortened (limit : Nat) (disabled : DisabledRegions) (offset : Nat) (leading : Trivia) :
    Trivia.Thins (offset == 0) leading (shortened limit disabled offset leading) :=
  thins_dropLines_emptyRuns fun _ hl => exists_of_mem_dropped hl

/-- What is dropped of a run is what is dropped in its token. -/
theorem mem_dropped_iff (hrun : run ∈ emptyRuns offset leading) (hl : l ∈ run) :
    l ∈ (emptyRuns offset leading).flatMap (droppedOf limit disabled) ↔
      l ∈ droppedOf limit disabled run := by
  constructor
  · intro hmem
    obtain ⟨run', hrun', hl'⟩ := List.mem_flatMap.mp hmem
    -- no line is in two runs
    have hapart := (List.nodup_flatten.mp (nodup_flatten_emptyRuns offset leading)).2
    have hsymm : Std.Symm (@List.Disjoint Line) := ⟨fun _ _ => List.disjoint_symm⟩
    have hsame : run' = run := by
      by_contra hne
      exact hapart.forall hrun' hrun hne (mem_of_mem_droppedOf hl') hl
    rwa [← hsame]
  · intro hmem
    exact List.mem_flatMap.mpr ⟨run, hrun, hmem⟩

/-- Without the lines that are dropped a run has as many lines as it should have. -/
theorem length_filter_dropped (hrun : run ∈ emptyRuns offset leading) :
    (run.filter (· ∉ (emptyRuns offset leading).flatMap (droppedOf limit disabled))).length =
      if isShortened limit disabled run then limit else run.length := by
  have hnodup := (List.nodup_flatten.mp (nodup_flatten_emptyRuns offset leading)).1 run hrun
  obtain ⟨left, hsplit, hlength⟩ := exists_eq_droppedOf_append limit disabled run
  have hfilter : run.filter (· ∉ (emptyRuns offset leading).flatMap (droppedOf limit disabled)) =
      run.filter (· ∉ droppedOf limit disabled run) :=
    List.filter_congr fun l hl => decide_eq_decide.mpr (not_congr (mem_dropped_iff hrun hl))
  rw [hfilter, ← hlength]
  generalize droppedOf limit disabled run = front at hsplit
  subst hsplit
  obtain ⟨-, -, hdisjoint⟩ := List.nodup_append'.mp hnodup
  have hfront : front.filter (· ∉ front) = [] := by simp
  have hleft : left.filter (· ∉ front) = left := by
    rw [List.filter_eq_self]
    exact fun l hl => decide_eq_true fun hmem => hdisjoint hmem hl
  rw [List.filter_append, hfront, hleft, List.nil_append]

/-- **Lengths**: a run of too many empty lines is left with as many as are allowed where the rule is not
disabled, and every other run stays as long as it was. -/
theorem map_length_emptyRuns_shortened (hoffset : offset' = 0 ↔ offset = 0) :
    (emptyRuns offset' (shortened limit disabled offset leading)).map List.length =
      (emptyRuns offset leading).map fun run =>
        if isShortened limit disabled run then limit else run.length := by
  rw [shortened, map_length_emptyRuns_dropLines hoffset fun _ hl => exists_of_mem_dropped hl]
  exact List.map_congr_left fun run hrun => length_filter_dropped hrun

/-! ### In a tree -/

/-- What becomes of a place: it has the same shape, and runs are shortened in front of its tokens. -/
structure Made (limit : Nat) (disabled : DisabledRegions) (c : Cursor) (e' : Element) : Prop where
  stripped : e'.stripped = c.element.stripped
  leaves : e'.leaves = Token.relead (shortened limit disabled) c.offset c.element.leaves

theorem made_childrenFrom {p : Cursor} {i o : Nat} {es : List Element} {ms : List (Element × List Nat)}
    (h : List.Forall₂ (fun y m => Made limit disabled y m.1) (Cursor.childrenFrom p i o es) ms) :
    Element.strippedAll (ms.map Prod.fst) = Element.strippedAll es ∧
      Element.leavesAll (ms.map Prod.fst) =
        Token.relead (shortened limit disabled) o (Element.leavesAll es) := by
  induction es generalizing i o ms with
  | nil =>
    rw [Cursor.childrenFrom, List.forall₂_nil_left_iff] at h
    rw [h]
    exact ⟨rfl, rfl⟩
  | cons e es ih =>
    rw [Cursor.childrenFrom, List.forall₂_cons_left_iff] at h
    obtain ⟨m, ms, hmade, hms, rfl⟩ := h
    obtain ⟨hstripped, hleaves⟩ := ih hms
    have hhead : m.1.stripped = e.stripped := hmade.stripped
    have hheadLeaves : m.1.leaves = Token.relead (shortened limit disabled) o e.leaves := hmade.leaves
    rw [List.map_cons, Element.strippedAll_cons, Element.strippedAll_cons, hhead, hstripped,
      Element.leavesAll_cons, Element.leavesAll_cons, hheadLeaves, hleaves, Token.relead_append,
      ← Element.fullLen_eq]
    exact ⟨rfl, rfl⟩

theorem makes (h : parse source = .ok tree) (limit : Nat) (hdisabled : disabled.IsSeparated)
    {c : Cursor} (hc : c ∈ (Cursor.root tree).descendants) :
    Fixer.Makes { token := fun c _ => .ok (fix? limit disabled c, ()) } disabled
      (fun c e' _ => Made limit disabled c e') c where
  token t ht := by
    obtain ⟨hcut, hleading⟩ := leading_of_mem_descendants h hc ht
    refine ⟨_, rfl, ?_⟩
    rw [accept_fix? hdisabled ht hcut hleading]
    constructor
    · rw [ht, Element.stripped_token, Element.stripped_token]
    · rw [ht, Element.leaves_token, Element.leaves_token, Token.relead_cons, Token.relead_nil]
  visit _ _ _ := rfl
  node k es ms hnode hms := by
    refine ⟨none, rfl, ?_⟩
    have hchildren : c.children = Cursor.childrenFrom c 0 c.offset es := by
      rw [Cursor.children, hnode]
      rfl
    obtain ⟨hstripped, hleaves⟩ := made_childrenFrom (hchildren ▸ hms)
    rw [Fixer.accept]
    constructor
    · rw [hnode, Element.stripped_node, Element.stripped_node, hstripped]
    · rw [hnode, Element.leaves_node, Element.leaves_node, hleaves]

theorem made_run (h : parse source = .ok tree) (limit : Nat) (hdisabled : disabled.IsSeparated) :
    ∃ outcome, Fixer.run { token := fun c _ => .ok (fix? limit disabled c, ()) } () disabled tree =
      .ok outcome ∧ Made limit disabled (.root tree) outcome.tree := by
  obtain ⟨ps, outcome, hrun, hmade, -⟩ :=
    Fixer.made_run_of_not_token (fun c hc => makes h limit hdisabled hc) fun t ps hmade => by
      -- the file is a node, and so is what becomes of it
      obtain ⟨-, items, u, rfl, -⟩ := shaped_parse h
      have hstripped := hmade.stripped
      rw [Element.stripped_token] at hstripped
      cases hstripped
  exact ⟨outcome, hrun, hmade⟩

/-! ### What is left -/

/-- Tokens with other trivia in front of them stand at the front of the file where they did. -/
theorem forall₂_placed_relead {F : Nat → Trivia → Trivia} {o o' : Nat} {ts : List Token}
    (ho : o' = 0 ↔ o = 0) (hpos : ∀ t ∈ ts.dropLast, 0 < t.len) :
    List.Forall₂ (fun p q => (q.1 = 0 ↔ p.1 = 0) ∧ q.2.leading = F p.1 p.2.leading)
      (Token.placed o ts) (Token.placed o' (Token.relead F o ts)) := by
  induction ts generalizing o o' with
  | nil => exact .nil
  | cons t ts ih =>
    rw [Token.relead_cons, Token.placed, Token.placed]
    refine .cons ⟨ho, rfl⟩ ?_
    cases ts with
    | nil => exact .nil
    | cons u ts =>
      rw [List.dropLast_cons_cons, List.forall_mem_cons] at hpos
      refine ih ?_ hpos.2
      have hlen : 0 < t.text.utf8ByteSize := hpos.1
      simp only [Token.fullLen, Token.len]
      constructor
      · intro h
        omega
      · intro h
        omega

/-- The tree that is left is that of its text, if no lone CR has come to stand in front of a lone LF. -/
theorem parse_of_made {tree' : Element} (h : parse source = .ok tree)
    (hmade : Made limit disabled (.root tree) tree')
    (hapart : ∀ t ∈ tree'.leaves, Trivia.BreaksApart t.leading) : parse tree'.fullText = .ok tree' := by
  have hleaves : tree'.leaves = Token.relead (shortened limit disabled) 0 tree.leaves := hmade.leaves
  refine parse_of_thinned h (fun _ => shortened_nil) ?_ hmade.stripped hleaves
  constructor
  · intro p _
    exact thins_shortened limit disabled p.1 p.2.leading
  · intro p hp
    rw [hleaves, Token.relead, List.forall_mem_map] at hapart
    exact hapart p hp

/-- A file in which no line ends in a lone CR is left with a text that is read into the tree that is
left. -/
theorem parse_run_of_no_carriage_return (h : parse source = .ok tree) (limit : Nat)
    (hdisabled : disabled.IsSeparated) (hbreaks : ∀ t ∈ tree.leaves, ∀ p ∈ t.leading, p.text ≠ "\r") :
    ∃ outcome, Fixer.run { token := fun c _ => .ok (fix? limit disabled c, ()) } () disabled tree =
      .ok outcome ∧ parse outcome.tree.fullText = .ok outcome.tree := by
  obtain ⟨outcome, hrun, hmade⟩ := made_run h limit hdisabled
  refine ⟨outcome, hrun, parse_of_made h hmade ?_⟩
  rw [hmade.leaves, Token.relead, List.forall_mem_map]
  intro p hp
  have hleaf : p.2 ∈ tree.leaves := by
    rw [← Token.map_snd_placed 0 tree.leaves]
    exact List.mem_map_of_mem hp
  refine List.Pairwise.isChain (List.pairwise_of_forall_mem_list fun q hq _ _ hcr => ?_)
  exact hbreaks p.2 hleaf q ((dropLines_sublist _ _ _).subset hq) hcr.1

/-- **What a pass leaves**: whatever is disabled, the text that a pass over the empty lines of a file
leaves is read into the tree that it leaves, unless a lone CR has come to stand in front of a lone LF.
In front of each token of that tree a run of too many empty lines has the allowed number of them,
where the rule is not disabled, and every other run has as many as it had. -/
theorem parse_run_iff (h : parse source = .ok tree) (limit : Nat) (hdisabled : disabled.IsSeparated) :
    ∃ outcome, Fixer.run { token := fun c _ => .ok (fix? limit disabled c, ()) } () disabled tree =
        .ok outcome ∧
      (parse outcome.tree.fullText = .ok outcome.tree ↔
        ∀ t ∈ outcome.tree.leaves, Trivia.BreaksApart t.leading) ∧
      List.Forall₂
        (fun before after => (emptyRuns after.1 after.2.leading).map List.length =
          (emptyRuns before.1 before.2.leading).map fun run =>
            if isShortened limit disabled run then limit else run.length)
        (Token.placed 0 tree.leaves) (Token.placed 0 outcome.tree.leaves) := by
  obtain ⟨outcome, hrun, hmade⟩ := made_run h limit hdisabled
  have hleaves : outcome.tree.leaves = Token.relead (shortened limit disabled) 0 tree.leaves :=
    hmade.leaves
  refine ⟨outcome, hrun, ⟨breaksApart_of_parse, parse_of_made h hmade⟩, ?_⟩
  obtain ⟨ts, t, htree, hcut, -⟩ := leaves_isCut h
  have hpos : ∀ t ∈ tree.leaves.dropLast, 0 < t.len := by
    rw [htree, List.dropLast_concat]
    exact fun t ht => (hcut t ht).len_pos
  rw [hleaves]
  refine (forall₂_placed_relead Iff.rfl hpos).imp ?_
  rintro p q ⟨hoffset, hleading⟩
  rw [hleading]
  exact map_length_emptyRuns_shortened hoffset

/-- Where a lone CR ends the line, the LF of the empty line that is kept comes to stand behind it: the
text that is left has no empty line. -/
theorem parse_run_iff_lone_carriage_return :
    ∃ tree outcome, parse "a\r \n\nb\n" = .ok tree ∧ DisabledRegions.none.IsSeparated ∧
      Fixer.run { token := fun c _ => .ok (fix? 1 .none c, ()) } () .none tree = .ok outcome ∧
      outcome.tree.fullText = "a\r\nb\n" ∧ parse outcome.tree.fullText ≠ .ok outcome.tree ∧
      (Token.placed 0 tree.leaves).map (fun p => (emptyRuns p.1 p.2.leading).map List.length) =
        [[0], [2], [0]] ∧
      (Token.placed 0 outcome.tree.leaves).map (fun p => (emptyRuns p.1 p.2.leading).map List.length) =
        [[0], [1], [0]] := by
  have hcounts : (parse "a\r \n\nb\n").toOption.map (fun tree =>
      ((Token.placed 0 tree.leaves).map (fun p => (emptyRuns p.1 p.2.leading).map List.length),
        (Fixer.run { token := fun c _ => .ok (fix? 1 .none c, ()) } () .none tree).toOption.map fun o =>
          (Token.placed 0 o.tree.leaves).map fun p => (emptyRuns p.1 p.2.leading).map List.length)) =
      some ([[0], [2], [0]], some [[0], [1], [0]]) := by
    decide +kernel
  have hleft : (parse "a\r \n\nb\n").toOption.map (fun tree =>
      (Fixer.run { token := fun c _ => .ok (fix? 1 .none c, ()) } () .none tree).toOption.map fun o =>
        (o.tree.fullText, o.tree.leaves.map Token.leading)) =
      some (some ("a\r\nb\n",
        [[], [⟨.newline, "\r"⟩, ⟨.newline, "\n"⟩], [⟨.newline, "\n"⟩]])) := by
    decide +kernel
  have hdisabled : DisabledRegions.none.IsSeparated := ⟨nofun, .nil⟩
  obtain ⟨tree, htree, hcounts⟩ := Option.map_eq_some_iff.mp hcounts
  have h : parse "a\r \n\nb\n" = .ok tree := Except.toOption_eq_some.mp htree
  obtain ⟨outcome, hrun, hparse, -⟩ := parse_run_iff h 1 hdisabled
  rw [hrun] at hcounts
  rw [htree, Option.map_some, hrun] at hleft
  obtain ⟨hbefore, hafter⟩ := Prod.mk.inj hcounts
  obtain ⟨htext, hleading⟩ := Prod.mk.inj (Option.some.inj (Option.some.inj hleft))
  refine ⟨tree, outcome, h, hdisabled, hrun, htext, fun hsame => ?_, hbefore,
    Option.some.inj hafter⟩
  have hmem : [⟨.newline, "\r"⟩, ⟨.newline, "\n"⟩] ∈ outcome.tree.leaves.map Token.leading := by
    rw [hleading]
    exact List.mem_cons_of_mem _ List.mem_cons_self
  obtain ⟨t, ht, heq⟩ := List.mem_map.mp hmem
  have hapart := hparse.mp hsame t ht
  rw [heq] at hapart
  exact (List.isChain_cons_cons.mp hapart).1 ⟨rfl, rfl⟩

end VerticalWhitespace

end SwiftTidy
