import SwiftTidy.Proofs.Lint.Respacing
import SwiftTidy.Proofs.Parse.Lexemes
import SwiftTidy.Proofs.Rules.EmptyLines
import SwiftTidy.Proofs.Rules.Statements
import SwiftTidy.Proofs.Rules.TokenSpacing

/-!
# Edits of tokens and statements with checked steps

The rules that edit trivia, with every step checked that could leave 32 bits or a list: sums of
offsets, cuts of lists, and the length of every node that is built.  In a source of less than half
the bytes that 32 bits count no check fails.  An edit of the spacing adds at most one byte for each
leaf; an edit of the other rules does not make its element longer, because trivia that moves was
within the element before.
-/

namespace SwiftTidy

variable {source : String} {tree : Element} {ctx : Context}

/-! ### Spacing -/

theorem Trivia.len_spaces_one : Trivia.len (Trivia.spaces 1) = 1 := by decide

namespace SpacingEdit

/-- A rule that makes narrow edits runs through with every node built. -/
theorem runsAs {r q : Rule} {edits : List SpacingEdit}
    (h : SourceUnit.ofText source = .ok ctx.unit) (hlen : source.utf8ByteSize < 2 ^ 31)
    (hr : r.find ctx = .ok (edits.map fun e => .plain e.position))
    (hq : q.find ctx = .ok (edits.map fun e => .plain e.position))
    (hfix : r.fix? ctx =
      some ((fixer edits).run () (ctx.unit.disabledRegions r.description) ctx.unit.tree))
    (hbuild : q.buildFix? ctx =
      some ((buildFixer edits).buildRun () (ctx.unit.disabledRegions r.description) ctx.unit.tree))
    (hedits : ∀ e ∈ edits, e.IsBetween ctx.root) (hnarrow : ∀ e ∈ edits, e.IsNarrow) :
    r.RunsAs q ctx := by
  have hparse := SourceUnit.parse_of_ofText h
  obtain ⟨outcome, hrun, hchecked⟩ := Fixer.buildRun_eq
    (fun c hc => behaves_fixer hparse (SourceUnit.disabledRegions_isSeparated h r.description)
      hedits hc)
    (fun c hc => checks_buildFixer hnarrow (fullLen_add_length_lt hparse hlen hc))
  exact .of_find hq hr (.inr ⟨outcome, by rw [hbuild, hchecked], by rw [hfix, hrun]⟩)

end SpacingEdit

namespace Colon

/-- The rule with all nodes built. -/
def checkedRule (o : Options) : Rule :=
  { rule o with fixer? := some fun ctx => SpacingEdit.buildFixer (edits o ctx.root) }

/-- The rule with all nodes built, before it is configured. -/
def checkedEntry : RuleEntry :=
  ⟨description, fun v => (Options.reader.configure description.identifier {} v).map checkedRule⟩

theorem isNarrow_of_mem_edits {o : Options} {root : Cursor} {e : SpacingEdit}
    (he : e ∈ edits o root) : e.IsNarrow := by
  obtain ⟨colon, -, hedit⟩ := List.mem_filterMap.mp he
  simp only [edit?, bind, Option.bind_eq_some_iff, Option.ite_none_left_eq_some] at hedit
  obtain ⟨sides, -, prev, -, next, -, -, -, heq⟩ := hedit
  cases heq
  constructor
  · intro t ht
    dsimp only at ht
    split_ifs at ht
    · cases ht
    · cases ht
      exact Nat.zero_le _
  · intro t ht
    dsimp only at ht
    split_ifs at ht
    · cases ht
    · cases ht
      exact Nat.le_of_eq Trivia.len_spaces_one

theorem rule_runsAs (h : SourceUnit.ofText source = .ok ctx.unit)
    (hlen : source.utf8ByteSize < 2 ^ 31) (o : Options) : (rule o).RunsAs (checkedRule o) ctx :=
  SpacingEdit.runsAs h hlen rfl rfl rfl rfl
    (fun _ he => isBetween_of_mem_edits (SourceUnit.parse_of_ofText h) he)
    (fun _ he => isNarrow_of_mem_edits he)

end Colon

namespace ReturnArrowWhitespace

/-- The rule with all nodes built. -/
def checkedRule (severity : Severity) : Rule :=
  { rule severity with fixer? := some fun ctx => SpacingEdit.buildFixer (edits ctx.root) }

/-- The rule with all nodes built, before it is configured. -/
def checkedEntry : RuleEntry := .ofSeverity description checkedRule

theorem isNarrow_of_mem_edits {root : Cursor} {e : SpacingEdit} (he : e ∈ edits root) :
    e.IsNarrow := by
  obtain ⟨arrow, -, hedit⟩ := List.mem_filterMap.mp he
  simp only [edit?, bind, Option.bind_eq_some_iff, Option.ite_none_left_eq_some] at hedit
  obtain ⟨prev, -, next, -, -, -, heq⟩ := hedit
  cases heq
  constructor
  all_goals
    intro t ht
    dsimp only at ht
    split_ifs at ht
    · cases ht
    · cases ht
      exact Nat.le_of_eq Trivia.len_spaces_one

theorem rule_runsAs (h : SourceUnit.ofText source = .ok ctx.unit)
    (hlen : source.utf8ByteSize < 2 ^ 31) (severity : Severity) :
    (rule severity).RunsAs (checkedRule severity) ctx :=
  SpacingEdit.runsAs h hlen rfl rfl rfl rfl
    (fun _ he => isBetween_of_mem_edits (SourceUnit.parse_of_ofText h) he)
    (fun _ he => isNarrow_of_mem_edits he)

end ReturnArrowWhitespace

/-! ### Semicolons -/

namespace TrailingSemicolon

/-- A statement without its semicolon, with all nodes built. -/
def buildDropSemicolon (semicolon : Token) (current : Element) : Except Fault (Option Element) := do
  let statement := current.children.dropLast
  match statement.getLast? with
  | none => return none
  | some last =>
    let trivia := last.trailingTrivia ++ semicolon.leading ++ semicolon.trailing
    let trivia := if trivia.isWhitespaceOnly then [] else trivia
    let last ← last.buildWithTrailing trivia
    return some (← Element.build current.kind (statement.dropLast ++ [last]))

/-- Drops the semicolons at the end of lines and builds all nodes. -/
def buildFixer : Fixer Unit where
  node c current _ := do
    match semicolon? c with
    | none => return (none, ())
    | some semicolon =>
      match semicolon.token? with
      | none => return (none, ())
      | some t =>
        let replacement ← buildDropSemicolon t current
        return (replacement.map fun r => ⟨r, semicolon.position, [], none⟩, ())

/-- The rule with all nodes built. -/
def checkedRule (severity : Severity) : Rule :=
  { rule severity with fixer? := some fun _ => buildFixer }

/-- The rule with all nodes built, before it is configured. -/
def checkedEntry : RuleEntry := .ofSeverity description checkedRule

/-- What becomes of an element: tokens stay as they are, and no node gets longer. -/
structure Keeps (e e' : Element) : Prop where
  token : ∀ t, e = .token t → e' = .token t
  fullLen_le : e'.fullLen ≤ e.fullLen

/-- Where a statement ends in a semicolon, what is in front takes over its trivia and gets no longer
than both were. -/
theorem buildDropSemicolon_eq {k : SyntaxKind} {front : List Element} {t : Token}
    (hlen : Element.fullLenAll (front ++ [.token t]) + Element.fullLenAll (front ++ [.token t]) <
      Offset.limit) :
    buildDropSemicolon t (.node k (front ++ [.token t])) =
        .ok (dropSemicolon t (.node k (front ++ [.token t]))) ∧
      ∀ e ∈ dropSemicolon t (.node k (front ++ [.token t])),
        e.fullLen ≤ Element.fullLenAll (front ++ [.token t]) := by
  rw [Element.fullLenAll_append, Element.fullLenAll, Element.fullLenAll, Element.fullLen] at hlen ⊢
  rw [buildDropSemicolon, dropSemicolon]
  simp only [Element.children, Element.kind, List.dropLast_concat]
  rcases List.eq_nil_or_concat front with rfl | ⟨rest, last, rfl⟩
  · exact ⟨rfl, fun e he => by cases he⟩
  · rw [List.concat_eq_append] at hlen ⊢
    rw [List.getLast?_concat, List.dropLast_concat]
    rw [Element.fullLenAll_append, Element.fullLenAll, Element.fullLenAll] at hlen ⊢
    simp only [Option.map_some]
    generalize hpieces : last.trailingTrivia ++ t.leading ++ t.trailing = pieces
    obtain ⟨trivia, htrivia⟩ : ∃ trivia : Trivia,
        (if Trivia.isWhitespaceOnly pieces then [] else pieces) = trivia := ⟨_, rfl⟩
    rw [htrivia]
    have hlast := (Element.len_add last).1
    -- the trivia that moves was counted in both, so the sum does not grow
    have hmoved : trivia.len ≤ last.trailingTrivia.len + t.leading.len + t.trailing.len := by
      rw [← Trivia.len_append, ← Trivia.len_append, hpieces, ← htrivia]
      split_ifs
      · exact Nat.zero_le _
      · exact Nat.le_refl _
    have ht : t.fullLen = t.leading.len + t.len + t.trailing.len := rfl
    have hnew := Element.fullLen_withTrailing_le last trivia
    have hsum : Element.fullLenAll (rest ++ [last.withTrailing trivia]) ≤
        Element.fullLenAll rest + (last.fullLen + 0) + (t.fullLen + 0) := by
      rw [Element.fullLenAll_append, Element.fullLenAll, Element.fullLenAll]
      omega
    have hmove : last.buildWithTrailing trivia = .ok (last.withTrailing trivia) :=
      Element.buildWithTrailing_eq_ok (by omega)
    have hnode : Element.build k (rest ++ [last.withTrailing trivia]) =
        .ok (.node k (rest ++ [last.withTrailing trivia])) :=
      Element.build_eq_ok k (by omega)
    rw [hmove]
    simp only [bind, Except.bind, hnode]
    refine ⟨rfl, fun e he => ?_⟩
    cases he
    rw [Element.fullLen]
    exact hsum

/-- A semicolon that is found is the last of what has become of its statement. -/
theorem exists_eq_concat {item semicolon : Cursor} {k : SyntaxKind} {es es' : List Element}
    {t : Token} (hitem : item.element = .node k es) (hes : List.Forall₂ Keeps es es')
    (hfound : semicolon? item = some semicolon) (ht : semicolon.element = .token t) :
    ∃ front, es' = front ++ [.token t] := by
  obtain ⟨-, hlast, -⟩ := semicolon?_eq_some hfound
  have hmap : item.children.map Cursor.element = es := by
    rw [Cursor.children, Cursor.map_element_childrenFrom, hitem]
    rfl
  have hes' : es.getLast? = some (.token t) := by
    rw [← hmap, List.getLast?_map, hlast, Option.map_some, ht]
  obtain ⟨front, rfl⟩ := List.getLast?_eq_some_iff.mp hes'
  have hreverse := List.forall₂_reverse_iff.mpr hes
  rw [List.reverse_concat'] at hreverse
  obtain ⟨last, front', hlastKeeps, -, hes''⟩ := List.forall₂_cons_left_iff.mp hreverse
  refine ⟨front'.reverse, ?_⟩
  rw [← List.reverse_reverse es', hes'', List.reverse_cons, hlastKeeps.token t rfl]

theorem checks_buildFixer (disabled : DisabledRegions) (hparse : parse source = .ok tree)
    (hlen : source.utf8ByteSize < 2 ^ 31) {c : Cursor} (hc : c ∈ (Cursor.root tree).descendants) :
    Fixer.Checks buildFixer fixer disabled (fun _ _ => True) Keeps c where
  token t f _ hf := by
    cases hf
    exact ⟨rfl, fun _ h => h, Nat.le_refl _⟩
  visit := rfl
  node k es es' f hnode _ hes hf := by
    have hle := Element.fullLenAll_le_of_forall₂ (hes.imp fun _ _ h => h.fullLen_le)
    have htwice := two_mul_fullLen_lt hparse hlen hc
    rw [hnode, Element.fullLen] at htwice
    have hcurrent : Keeps (.node k es) (.node k es') :=
      ⟨nofun, by rw [Element.fullLen, Element.fullLen]; exact hle⟩
    refine ⟨by omega, ?_⟩
    cases hfound : semicolon? c with
    | none =>
      simp only [fixer, hfound] at hf
      cases hf
      exact ⟨by simp only [buildFixer, hfound]; rfl, hcurrent⟩
    | some semicolon =>
      obtain ⟨t, ht, -⟩ := semicolon_mem_range hparse hc hfound
      have htoken : semicolon.token? = some t := by rw [Cursor.token?, ht]; rfl
      obtain ⟨front, rfl⟩ := exists_eq_concat hnode hes hfound ht
      have hroom : Element.fullLenAll (front ++ [.token t]) +
          Element.fullLenAll (front ++ [.token t]) < Offset.limit := by omega
      obtain ⟨hbuild, hshort⟩ := buildDropSemicolon_eq (k := k) hroom
      have hfix : f = (dropSemicolon t (.node k (front ++ [.token t]))).map
          fun r => ⟨r, semicolon.position, [], none⟩ := by
        simp only [fixer, hfound, bind, Option.bind, htoken] at hf
        cases hf
        cases dropSemicolon t (.node k (front ++ [.token t])) <;> rfl
      subst hfix
      refine ⟨?_, Fixer.accept_of hcurrent fun f hf => ⟨nofun, ?_⟩⟩
      · simp only [buildFixer, hfound, htoken, hbuild]
        rfl
      · obtain ⟨r, hr, rfl⟩ := Option.map_eq_some_iff.mp hf
        have hrLen := hshort r hr
        rw [Element.fullLen]
        exact Nat.le_trans hrLen hle

theorem rule_runsAs (h : SourceUnit.ofText source = .ok ctx.unit)
    (hlen : source.utf8ByteSize < 2 ^ 31) (severity : Severity) :
    (rule severity).RunsAs (checkedRule severity) ctx := by
  have hparse := SourceUnit.parse_of_ofText h
  obtain ⟨outcome, hrun, hchecked⟩ := Fixer.buildRun_eq
    (fun c hc => behaves_fixer hparse (SourceUnit.disabledRegions_isSeparated h description) hc)
    (fun c hc => checks_buildFixer _ hparse hlen hc)
  exact .of_find rfl rfl (.inr ⟨outcome, congrArg some hchecked, congrArg some hrun⟩)

end TrailingSemicolon

/-! ### Imports -/

namespace UnusedImport

/-- The elements without the one at an index, which must exist, with all nodes built. -/
def buildRemoveAt (es : List Element) (index : Nat) : Except Fault (Option (List Element)) := do
  match es[index]? with
  | none => .error .missingChild
  | some removed =>
    match es[index + 1]? with
    | none => return none
    | some next =>
      let trivia := removed.leadingTrivia ++ dropFirstNewline next.leadingTrivia
      let next ← next.buildWithLeading trivia
      return some ((es.set (index + 1) next).eraseIdx index)

/-- Removes the first unused import and builds all nodes. -/
def buildFixer (ctx : Context) : Fixer Unit :=
  let disabled := ctx.unit.disabledRegions description
  { visit := fun _ s => .ok (false, s)
    node := fun c current _ => do
      if c.kind != .sourceFile then return (none, ())
      else
        match removable? ctx disabled c with
        | none => return (none, ())
        | some (index, decl) =>
          match ← buildRemoveAt current.children index with
          | none => return (none, ())
          | some es =>
            let replacement ← Element.build current.kind es
            return (some ⟨replacement, decl.position, [], none⟩, ()) }

/-- The rule with all nodes built. -/
def checkedRule (severity : Severity) : Rule :=
  { rule severity with fixer? := some buildFixer }

/-- The rule with all nodes built, before it is configured. -/
def checkedEntry : RuleEntry := .ofSeverity description checkedRule

/-- An element that exists can be removed, and the elements do not get longer: what moves is the
trivia in front of it. -/
theorem buildRemoveAt_eq {es : List Element} {index : Nat} (hindex : index < es.length)
    (hlen : 2 * Element.fullLenAll es < Offset.limit) :
    buildRemoveAt es index = .ok (removeAt? es index) ∧
      ∀ es' ∈ removeAt? es index, Element.fullLenAll es' ≤ Element.fullLenAll es := by
  rw [buildRemoveAt, removeAt?]
  have hremoved := List.getElem?_eq_getElem hindex
  rw [hremoved]
  generalize es[index] = removed at hremoved
  cases hnext : es[index + 1]? with
  | none => exact ⟨rfl, nofun⟩
  | some next =>
    simp only [bind, Option.bind]
    have hremovedLen := (Element.len_add removed).1
    have hnextLen := (Element.len_add next).1
    have hdrop : (dropFirstNewline next.leadingTrivia).len ≤ next.leadingTrivia.len :=
      Trivia.len_le_of_sublist List.eraseP_sublist
    obtain ⟨trivia, htrivia⟩ : ∃ trivia : Trivia,
        removed.leadingTrivia ++ dropFirstNewline next.leadingTrivia = trivia := ⟨_, rfl⟩
    have htriviaLen : trivia.len =
        removed.leadingTrivia.len + (dropFirstNewline next.leadingTrivia).len := by
      rw [← htrivia, Trivia.len_append]
    rw [htrivia]
    have hnew := Element.fullLen_withLeading_le next trivia
    have hset := Element.fullLenAll_set hnext (next.withLeading trivia)
    have hkept : (es.set (index + 1) (next.withLeading trivia))[index]? = some removed := by
      rwa [List.getElem?_set_ne (Nat.succ_ne_self index)]
    have herase := Element.fullLenAll_eraseIdx hkept
    have hrest := Element.fullLenAll_eraseIdx hremoved
    have hnextLe : next.fullLen ≤ Element.fullLenAll (es.eraseIdx index) :=
      Element.fullLen_le_of_mem (List.mem_of_getElem? (i := index)
        (by rwa [List.getElem?_eraseIdx_of_ge (Nat.le_refl _)]))
    have hmove : next.buildWithLeading trivia = .ok (next.withLeading trivia) :=
      Element.buildWithLeading_eq_ok (by omega)
    rw [hmove]
    refine ⟨rfl, fun es' hes' => ?_⟩
    cases hes'
    omega

/-- The statement of an import that is removed is one of those of the file. -/
theorem lt_length_of_removable? {disabled : DisabledRegions} {c decl : Cursor} {index : Nat}
    (h : removable? ctx disabled c = some (index, decl)) : index < c.element.children.length := by
  obtain ⟨item, hitem, h⟩ := List.exists_of_findSome?_eq_some h
  simp only [bind, Option.bind_eq_some_iff, Option.ite_none_right_eq_some] at h
  obtain ⟨decl', -, -, heq⟩ := h
  cases heq
  obtain ⟨front, e, back, hchildren, rfl⟩ := Cursor.exists_of_mem_children hitem
  rw [hchildren, List.length_append, List.length_cons]
  show front.length < _
  omega

/-- At the root the fixer answers with all nodes built. -/
theorem node_buildFixer (ctx : Context) {k : SyntaxKind} {es : List Element}
    (hlen : 2 * Element.fullLenAll es < Offset.limit) :
    ∃ fix, (fixer ctx).node (.root (.node k es)) (.node k es) () = .ok (fix, ()) ∧
      (buildFixer ctx).node (.root (.node k es)) (.node k es) () = .ok (fix, ()) := by
  refine ⟨_, rfl, ?_⟩
  simp only [buildFixer]
  by_cases hkind : ((Cursor.root (.node k es)).kind != .sourceFile) = true
  · rw [if_pos hkind, if_pos hkind]
    rfl
  · rw [if_neg hkind, if_neg hkind]
    cases hfound : removable? ctx (ctx.unit.disabledRegions description) (.root (.node k es)) with
    | none => rfl
    | some found =>
      obtain ⟨hremove, hshort⟩ := buildRemoveAt_eq (lt_length_of_removable? hfound) hlen
      have hremove : buildRemoveAt (Element.node k es).children found.1 =
          .ok (removeAt? (Element.node k es).children found.1) := hremove
      dsimp only
      rw [hremove]
      cases hes : removeAt? (Element.node k es).children found.1 with
      | none =>
        simp only [bind, Option.bind, hes]
        rfl
      | some es' =>
        have hle := hshort es' hes
        have hle : Element.fullLenAll es' ≤ Element.fullLenAll es := hle
        have hnode : Element.build (Element.node k es).kind es' = .ok (.node k es') :=
          Element.build_eq_ok k (by omega)
        simp only [bind, Option.bind, Except.bind, hes, hnode]
        rfl

theorem rule_runsAs (h : SourceUnit.ofText source = .ok ctx.unit)
    (hlen : source.utf8ByteSize < 2 ^ 31) (severity : Severity) :
    (rule severity).RunsAs (checkedRule severity) ctx := by
  have hparse := SourceUnit.parse_of_ofText h
  obtain ⟨-, items, t, htree, -⟩ := shaped_parse hparse
  have htwice := two_mul_fullLen_lt hparse hlen (Cursor.mem_descendants_self (.root ctx.unit.tree))
  have htwice : 2 * ctx.unit.tree.fullLen < Offset.limit := htwice
  rw [htree, Element.fullLen] at htwice
  obtain ⟨fix, hnode, hbuild⟩ := node_buildFixer ctx (k := .sourceFile) htwice
  obtain ⟨outcome, hrun, hchecked⟩ := Fixer.buildRun_of_visit_eq_false
    (ctx.unit.disabledRegions description) rfl hnode rfl hbuild
  rw [← htree] at hrun hchecked
  exact .of_find rfl rfl (.inr ⟨outcome, congrArg some hchecked, congrArg some hrun⟩)

end UnusedImport

/-! ### Empty lines -/

namespace VerticalWhitespace

/-- The lines that end in the pieces from index `index` and offset `offset` on, with the offsets
added up in 32 bits. -/
def checkedLineRuns : (index offset first start : Nat) → (lines : List Line) → Trivia →
    Except Fault (List (List Line))
  | _, _, _, _, lines, [] => .ok [lines]
  | index, offset, first, start, lines, p :: ps => do
    let next ← Offset.add offset p.len
    if p.isNewline then
      checkedLineRuns (index + 1) next (index + 1) next (lines ++ [⟨first, index, start⟩]) ps
    else if p.isComment then
      return lines :: (← checkedLineRuns (index + 1) next first start [] ps)
    else checkedLineRuns (index + 1) next first start lines ps

/-- The runs of empty lines in front of a token, with the offsets added up in 32 bits. -/
def checkedEmptyRuns (offset : Nat) (leading : Trivia) : Except Fault (List (List Line)) := do
  match ← checkedLineRuns 0 offset 0 offset [] leading with
  | [] => return []
  | run :: runs => return (if offset = 0 then run else run.drop 1) :: runs.map (·.drop 1)

/-- The first members of a list, which must have so many. -/
def front {α : Type} (n : Nat) (xs : List α) : Except Fault (List α) :=
  if n ≤ xs.length then .ok (xs.take n) else .error .missingChild

/-- What is too much in a run of empty lines, with checks that it has so many lines. -/
def checkedExcess? (limit : Nat) (run : List Line) : Except Fault (Option Excess) := do
  if limit < run.length then
    match run.getLast? with
    | none => return none
    | some last =>
      let surplus ← front (← Offset.sub run.length limit) run
      return some ⟨last.start, run.length, surplus⟩
  else return none

/-- The runs of too many empty lines in front of a token, with checked steps. -/
def checkedExcesses (limit : Nat) (token : Cursor) : Except Fault (List Excess) := do
  let runs ← checkedEmptyRuns token.offset token.leadingTrivia
  let found ← runs.mapM (checkedExcess? limit)
  return found.filterMap id

/-- Drops the empty lines that are too many in front of a token, with checked steps. -/
def checkedFix? (limit : Nat) (disabled : DisabledRegions) (c : Cursor) :
    Except Fault (Option Fix) := do
  match c.token? with
  | none => return none
  | some token =>
    match (← checkedExcesses limit c).filter (!disabled.isSuppressed ·.position) with
    | [] => return none
    | run :: runs =>
      let leading := dropLines ((run :: runs).flatMap (·.surplus)) 0 token.leading
      return some ⟨.token { token with leading := leading }, run.position, runs.map (·.position),
        some c.fullRange⟩

/-- The rule with checked steps. -/
def checkedRule (o : Options) : Rule :=
  { rule o with
    find := fun ctx => do
      let found ← ctx.root.tokens.mapM (checkedExcesses o.maxEmptyLines)
      return found.flatten.map fun e =>
        ⟨e.position, some (message o.maxEmptyLines e.count), none⟩
    fixer? := some fun ctx =>
      let disabled := ctx.unit.disabledRegions description
      { token := fun c _ => do return (← checkedFix? o.maxEmptyLines disabled c, ()) } }

/-- The rule with checked steps, before it is configured. -/
def checkedEntry : RuleEntry :=
  ⟨description, fun v => (Options.reader.configure description.identifier {} v).map checkedRule⟩

theorem checkedLineRuns_eq {ps : Trivia} {index offset first start : Nat} {lines : List Line}
    (h : offset + ps.len < Offset.limit) : checkedLineRuns index offset first start lines ps =
      .ok (lineRuns index offset first start lines ps) := by
  induction ps generalizing index offset first start lines with
  | nil => rw [checkedLineRuns, lineRuns]
  | cons p ps ih =>
    rw [Trivia.len_cons] at h
    rw [checkedLineRuns, lineRuns, Offset.add_eq_ok (by omega)]
    simp only [bind, Except.bind]
    split_ifs
    · exact ih (by omega)
    · rw [ih (by omega)]
      rfl
    · exact ih (by omega)

theorem checkedExcess?_eq (limit : Nat) (run : List Line) :
    checkedExcess? limit run = .ok (excess? limit run) := by
  rw [checkedExcess?, excess?]
  split_ifs with hlimit
  · cases run.getLast? with
    | none => rfl
    | some last =>
      have hfront : front (run.length - limit) run = .ok (run.take (run.length - limit)) :=
        if_pos (Nat.sub_le _ _)
      simp only [Offset.sub_eq_ok (Nat.le_of_lt hlimit), bind, Except.bind, hfront]
      rfl
  · rfl

/-- The empty lines in front of a token are found with checked steps if it starts in 32 bits. -/
theorem checkedExcesses_eq {limit : Nat} {c : Cursor}
    (h : c.offset + c.leadingTrivia.len < Offset.limit) :
    checkedExcesses limit c = .ok (excesses limit c) := by
  have hruns : checkedEmptyRuns c.offset c.leadingTrivia =
      .ok (emptyRuns c.offset c.leadingTrivia) := by
    rw [checkedEmptyRuns, emptyRuns, checkedLineRuns_eq h]
    simp only [bind, Except.bind]
    cases lineRuns 0 c.offset 0 c.offset [] c.leadingTrivia <;> rfl
  have hfound : (emptyRuns c.offset c.leadingTrivia).mapM (checkedExcess? limit) = _ :=
    Except.mapM_eq_ok fun run _ => checkedExcess?_eq limit run
  rw [checkedExcesses, excesses, hruns]
  simp only [bind, Except.bind, hfound]
  show Except.ok (List.filterMap id _) = _
  rw [List.filterMap_map]
  rfl

theorem checkedFix?_eq {limit : Nat} {disabled : DisabledRegions} {c : Cursor}
    (h : c.offset + c.leadingTrivia.len < Offset.limit) :
    checkedFix? limit disabled c = .ok (fix? limit disabled c) := by
  rw [checkedFix?, fix?]
  cases c.token? with
  | none => rfl
  | some t =>
    simp only [checkedExcesses_eq h, bind, Except.bind, Option.bind]
    cases (excesses limit c).filter (!disabled.isSuppressed ·.position) <;> rfl

/-- A token without some of the lines in front of it is not longer. -/
theorem fullLen_le_of_fix? {limit : Nat} {disabled : DisabledRegions} {c : Cursor} {t : Token}
    {f : Fix} (hc : c.element = .token t) (h : fix? limit disabled c = some f) :
    f.replacement.fullLen ≤ t.fullLen := by
  have htoken : c.token? = some t := by rw [Cursor.token?, hc]; rfl
  simp only [fix?, htoken, bind, Option.bind] at h
  split at h
  · cases h
  · next run runs _ =>
    cases h
    have hle := Trivia.len_le_of_sublist
      (dropLines_sublist ((run :: runs).flatMap (·.surplus)) 0 t.leading)
    rw [Element.fullLen, Token.fullLen, Token.fullLen]
    show (dropLines _ 0 t.leading).len + t.len + t.trailing.len ≤ _
    omega

/-- Every token of a source of 32 bits starts in 32 bits. -/
theorem offset_add_len_lt (hparse : parse source = .ok tree)
    (hlen : source.utf8ByteSize < Offset.limit) {c : Cursor} {t : Token}
    (hc : c ∈ (Cursor.root tree).descendants) (ht : c.element = .token t) :
    c.offset + c.leadingTrivia.len < Offset.limit := by
  have hend : c.offset + c.element.fullLen ≤ source.utf8ByteSize :=
    fullEnd_le_of_mem_descendants hparse hc
  have hkinded := ht ▸ wellKinded_of_mem_descendants hparse hc
  rw [ht, Element.fullLen, Token.fullLen, ← Cursor.leadingTrivia_token hkinded ht] at hend
  omega

theorem checks_fixer (limit : Nat) (disabled : DisabledRegions) (hparse : parse source = .ok tree)
    (hlen : source.utf8ByteSize < Offset.limit) {c : Cursor}
    (hc : c ∈ (Cursor.root tree).descendants) :
    Fixer.Checks { token := fun c _ => do return (← checkedFix? limit disabled c, ()) }
      { token := fun c _ => .ok (fix? limit disabled c, ()) } disabled (fun _ _ => True)
      (fun e e' => e'.fullLen ≤ e.fullLen) c where
  token t f ht hf := by
    cases hf
    refine ⟨?_, Fixer.accept_of (P := fun e => e.fullLen ≤ t.fullLen) (Nat.le_refl _)
      fun f hf => fullLen_le_of_fix? ht hf⟩
    simp only [checkedFix?_eq (offset_add_len_lt hparse hlen hc ht)]
    rfl
  visit := rfl
  node k es es' f hnode _ hes hf := by
    cases hf
    have hend : c.offset + c.element.fullLen ≤ source.utf8ByteSize :=
      fullEnd_le_of_mem_descendants hparse hc
    have hle := Element.fullLenAll_le_of_forall₂ hes
    rw [hnode, Element.fullLen] at hend
    exact ⟨by omega, rfl, by rw [Fixer.accept, Element.fullLen, Element.fullLen]; exact hle⟩

theorem rule_runsAs (h : SourceUnit.ofText source = .ok ctx.unit)
    (hlen : source.utf8ByteSize < Offset.limit) (o : Options) :
    (rule o).RunsAs (checkedRule o) ctx := by
  have hparse := SourceUnit.parse_of_ofText h
  obtain ⟨outcome, hrun, hchecked⟩ := Fixer.buildRun_eq
    (fun c hc => behaves_fixer o.maxEmptyLines hparse
      (SourceUnit.disabledRegions_isSeparated h description) hc)
    (fun c hc => checks_fixer o.maxEmptyLines _ hparse hlen hc)
  have hfound : ctx.root.tokens.mapM (checkedExcesses o.maxEmptyLines) =
      .ok (ctx.root.tokens.map (excesses o.maxEmptyLines)) := by
    refine Except.mapM_eq_ok fun c hc => ?_
    obtain ⟨t, ht, -⟩ := Cursor.exists_token_of_mem_tokensOf (wellKinded_parse hparse)
      (c := .root ctx.unit.tree) rfl hc
    exact checkedExcesses_eq (offset_add_len_lt hparse hlen (List.mem_filter.mp hc).1 ht)
  refine .of_find ?_ rfl (.inr ⟨outcome, congrArg some hchecked, congrArg some hrun⟩)
  simp only [checkedRule, rule, hfound, bind, Except.bind, ← List.flatMap_def, List.map_flatMap]
  rfl

end VerticalWhitespace

end SwiftTidy
