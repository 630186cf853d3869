import SwiftTidy.Proofs.Lint.Reports
import SwiftTidy.Proofs.Parse.WellKinded
import SwiftTidy.Proofs.Rules.EmptyLines
import SwiftTidy.Proofs.Rules.Statements
import SwiftTidy.Proofs.Rules.SuperfluousDirectives
import SwiftTidy.Proofs.Text.Location

/-!
# Where violations are reported

Most rules report at a place of the tree, where it starts or ends without its outer trivia.  The
others report where a line starts, where an empty line starts within trivia, or at a directive
within a comment.  All of these are boundaries between characters (`Rule.ReportsBoundaries`), so that
every diagnostic has a line and a column (`Linter.location_of_mem_analyze`).
-/

namespace SwiftTidy

namespace SourceUnit

variable {source : String} {u : SourceUnit} {x q : Cursor}

theorem source_eq_fullText (h : ofText source = .ok u) : u.source = u.tree.fullText := by
  obtain ⟨tree, -, rfl⟩ := Except.map_eq_ok.mp h
  rfl

theorem isBoundary_position (h : ofText source = .ok u) (hx : x ∈ u.root.descendants) :
    Text.isBoundary u.source x.position = true := by
  obtain ⟨hplaced, hroot⟩ := Cursor.isPlaced_of_mem_descendants hx
  rw [source_eq_fullText h, ← hroot]
  exact hplaced.isBoundary_position

theorem isBoundary_endPosition (h : ofText source = .ok u) (hx : x ∈ u.root.descendants) :
    Text.isBoundary u.source x.endPosition = true := by
  obtain ⟨hplaced, hroot⟩ := Cursor.isPlaced_of_mem_descendants hx
  rw [source_eq_fullText h, ← hroot]
  exact hplaced.isBoundary_endPosition

/-- The token in front of a token of a tree belongs to the tree. -/
theorem mem_descendants_of_prevToken? (h : ofText source = .ok u) (hx : x ∈ u.root.tokens)
    (hprev : x.prevToken? = some q) : q ∈ u.root.descendants := by
  have hlinked := Cursor.linked_tokensOf u.tree u.root (wellKinded_parse (parse_of_ofText h)) rfl
  rcases hlinked.mem_dropLast_of_prevToken? hx hprev with hnone | hq
  · cases hnone
  · exact (List.mem_filter.mp ((List.dropLast_sublist _).subset hq)).1

end SourceUnit

/-- Violations are at boundaries between the characters of a source. -/
def SourceUnit.HasOnBoundaries (u : SourceUnit) (vs : List Violation) : Prop :=
  ∀ v ∈ vs, Text.isBoundary u.source v.position = true

/-- A rule reports at nothing but boundaries between characters. -/
def Rule.ReportsBoundaries (r : Rule) (ctx : Context) : Prop :=
  ∀ vs, r.find ctx = .ok vs → ctx.unit.HasOnBoundaries vs

section Rules

variable {source : String} {ctx : Context} (h : SourceUnit.ofText source = .ok ctx.unit)

include h

/-! ### Spacing -/

theorem Colon.rule_reportsBoundaries (o : Colon.Options) :
    (Colon.rule o).ReportsBoundaries ctx := by
  rintro vs hfind v hv
  cases hfind
  obtain ⟨e, he, rfl⟩ := List.mem_map.mp hv
  obtain ⟨colon, hcolon, hedit⟩ := List.mem_filterMap.mp he
  unfold Colon.edit? at hedit
  simp only [bind, Option.bind_eq_some_iff, Option.ite_none_left_eq_some] at hedit
  obtain ⟨sides, -, prev, hprev, next, -, -, -, heq⟩ := hedit
  cases heq
  exact SourceUnit.isBoundary_endPosition h
    (SourceUnit.mem_descendants_of_prevToken? h (List.mem_filter.mp hcolon).1 hprev)

theorem ReturnArrowWhitespace.rule_reportsBoundaries (severity : Severity) :
    (ReturnArrowWhitespace.rule severity).ReportsBoundaries ctx := by
  rintro vs hfind v hv
  cases hfind
  obtain ⟨e, he, rfl⟩ := List.mem_map.mp hv
  obtain ⟨arrow, harrow, hedit⟩ := List.mem_filterMap.mp he
  have harrow := (List.mem_filter.mp harrow).1
  unfold ReturnArrowWhitespace.edit? at hedit
  simp only [bind, Option.bind_eq_some_iff, Option.ite_none_left_eq_some] at hedit
  obtain ⟨prev, hprev, next, -, -, -, heq⟩ := hedit
  cases heq
  show Text.isBoundary _ (if _ then _ else _) = true
  split
  · exact SourceUnit.isBoundary_position h (List.mem_filter.mp harrow).1
  · exact SourceUnit.isBoundary_endPosition h (SourceUnit.mem_descendants_of_prevToken? h harrow hprev)

/-! ### Nodes -/

theorem ForceUnwrapping.rule_reportsBoundaries (severity : Severity) :
    (ForceUnwrapping.rule severity).ReportsBoundaries ctx := by
  rintro vs hfind v hv
  cases hfind
  obtain ⟨c, hc, hcheck⟩ := List.mem_filterMap.mp hv
  rw [ForceUnwrapping.check, Option.ite_none_right_eq_some] at hcheck
  obtain ⟨mark, hmark, rfl⟩ := Option.map_eq_some_iff.mp hcheck.2
  have hmark := List.mem_of_getLast? (Option.filter_eq_some_iff.mp hmark).1
  exact SourceUnit.isBoundary_position h (Cursor.mem_descendants_trans
    (Cursor.mem_postorder_iff.mp hc).1 (Cursor.mem_descendants_of_mem_children hmark))

theorem SortedSwitchCases.rule_reportsBoundaries (severity : Severity) :
    (SortedSwitchCases.rule severity).ReportsBoundaries ctx := by
  rintro vs hfind v hv
  cases hfind
  obtain ⟨c, hc, hcheck⟩ := List.mem_flatMap.mp hv
  have hc := (Cursor.mem_postorder_iff.mp hc).1
  unfold SortedSwitchCases.check at hcheck
  split at hcheck
  · rcases List.mem_append.mp hcheck with hlabel | hswitch
    · -- a label is a child of a case, which is a child of the switch
      rw [List.mem_map] at hlabel
      obtain ⟨label, hlabel, rfl⟩ := hlabel
      obtain ⟨case, hcase, hlabel⟩ := List.mem_filterMap.mp hlabel
      obtain ⟨node, hnode, rfl⟩ := List.mem_map.mp (List.mem_filter.mp hcase).1
      have hnode := Cursor.mem_descendants_of_mem_children (List.mem_filter.mp hnode).1
      have hlabel := Cursor.mem_descendants_of_mem_children (List.mem_of_find?_eq_some hlabel)
      exact SourceUnit.isBoundary_position h
        (Cursor.mem_descendants_trans hc (Cursor.mem_descendants_trans hnode hlabel))
    · split at hswitch
      · cases hswitch
      · rw [List.mem_singleton.mp hswitch]
        exact SourceUnit.isBoundary_position h hc
  · cases hcheck

theorem TrailingSemicolon.rule_reportsBoundaries (severity : Severity) :
    (TrailingSemicolon.rule severity).ReportsBoundaries ctx := by
  rintro vs hfind v hv
  cases hfind
  obtain ⟨semicolon, hsemicolon, rfl⟩ := List.mem_map.mp hv
  obtain ⟨item, hitem, hsemicolon⟩ := List.mem_filterMap.mp hsemicolon
  have hlast := List.mem_of_getLast? (TrailingSemicolon.semicolon?_eq_some hsemicolon).2.1
  exact SourceUnit.isBoundary_position h (Cursor.mem_descendants_trans
    (Cursor.mem_postorder_iff.mp hitem).1 (Cursor.mem_descendants_of_mem_children hlast))

theorem UnusedImport.rule_reportsBoundaries (severity : Severity) :
    (UnusedImport.rule severity).ReportsBoundaries ctx := by
  rintro vs hfind
  cases hfind
  refine Visitor.walk_invariant (I := ctx.unit.HasOnBoundaries)
    (fun x hx found hfound => ⟨?_, hfound, hfound⟩) (fun v hv => absurd hv List.not_mem_nil)
  unfold UnusedImport.visitor
  dsimp only
  split
  · exact hfound
  · exact hfound
  · split
    · refine List.forall_mem_append.mpr ⟨hfound, List.forall_mem_singleton.mpr ?_⟩
      exact SourceUnit.isBoundary_position h hx
    · exact hfound
  · exact hfound

/-! ### Declarations -/

/-- A declaration is reported at one of its keywords or where it starts. -/
theorem Nesting.isBoundary_position {decl : Cursor} (hdecl : decl ∈ ctx.unit.root.descendants) :
    Text.isBoundary ctx.unit.source (Nesting.position decl) = true := by
  unfold Nesting.position
  split
  · rename_i keyword hkeyword
    exact SourceUnit.isBoundary_position h (Cursor.mem_descendants_trans hdecl
      (Cursor.mem_descendants_of_mem_children (List.mem_of_find?_eq_some hkeyword)))
  · exact SourceUnit.isBoundary_position h hdecl

theorem Nesting.hasOnBoundaries_open {o : Nesting.Options} {level : Nesting.Level} {decl : Cursor}
    {s : Nesting.State} (hdecl : decl ∈ ctx.unit.root.descendants)
    (hs : ctx.unit.HasOnBoundaries s.found) :
    ctx.unit.HasOnBoundaries (s.open o level decl).found := by
  refine List.forall_mem_append.mpr ⟨hs, fun v hv => ?_⟩
  rw [Option.mem_toList, Nesting.violation?, Option.ite_none_left_eq_some] at hv
  obtain ⟨_, -, rfl⟩ := Option.map_eq_some_iff.mp hv.2
  exact Nesting.isBoundary_position h hdecl

theorem Nesting.rule_reportsBoundaries (o : Nesting.Options) :
    (Nesting.rule o).ReportsBoundaries ctx := by
  rintro vs hfind
  cases hfind
  refine Visitor.walk_invariant (I := fun s : Nesting.State => ctx.unit.HasOnBoundaries s.found)
    (fun x hx s hs => ⟨?_, ?_, hs⟩) (fun v hv => absurd hv List.not_mem_nil)
  · unfold Nesting.visitor
    dsimp only
    split
    · exact Nesting.hasOnBoundaries_open h hx hs
    · exact hs
  · unfold Nesting.visitor
    dsimp only
    split
    · exact hs
    · split
      · exact Nesting.hasOnBoundaries_open h hx hs
      · exact hs

/-! ### Names -/

omit h in
theorem IdentifierName.mem_of_mem_closureParametersFrom {prev : Option SyntaxKind} {depth : Nat}
    {cs : List Cursor} {x : Cursor}
    (hx : x ∈ IdentifierName.closureParametersFrom prev depth cs) : x ∈ cs := by
  induction cs generalizing prev depth with
  | nil => exact hx
  | cons c cs ih =>
    unfold IdentifierName.closureParametersFrom at hx
    split at hx
    · exact List.mem_cons_of_mem c (ih hx)
    · exact List.mem_cons_of_mem c (ih hx)
    · exact List.mem_cons_of_mem c (ih hx)
    · exact List.mem_cons_of_mem c (ih hx)
    · cases hx
    · cases hx
    · -- a name is that of the token itself or of the one behind it
      rcases List.mem_append.mp hx with hhere | hx
      · split_ifs at hhere with hstarts
        · cases hhere
        · split at hhere
          · split_ifs at hhere
            · rw [List.mem_singleton.mp hhere]
              exact List.mem_cons_self
            · cases hhere
          · rename_i next hnext
            split_ifs at hhere
            · rw [List.mem_singleton.mp hhere]
              exact List.mem_cons_self
            · rw [List.mem_singleton.mp hhere]
              exact List.mem_cons_of_mem c (List.mem_of_head? hnext)
            · cases hhere
          · cases hhere
      · exact List.mem_cons_of_mem c (ih hx)
    · exact List.mem_cons_of_mem c (ih hx)

omit h in
theorem IdentifierName.position_of_checkVariable {o : IdentifierName.Options} {token : Cursor}
    {text : String} {decl : Option Cursor} {v : Violation}
    (hv : IdentifierName.checkVariable o token text decl = some v) : v.position = token.position := by
  rw [IdentifierName.checkVariable, Option.ite_none_left_eq_some] at hv
  obtain ⟨_, -, rfl⟩ := Option.map_eq_some_iff.mp hv.2
  rfl

omit h in
/-- A name is reported at the token that it is, which is a child of the node that introduces it. -/
theorem IdentifierName.exists_of_mem_check {o : IdentifierName.Options} {c : Cursor} {v : Violation}
    (hv : v ∈ IdentifierName.check o c) : ∃ token ∈ c.children, v.position = token.position := by
  unfold IdentifierName.check at hv
  split at hv
  · rw [Option.mem_toList, IdentifierName.checkFunction, Option.ite_none_left_eq_some] at hv
    obtain ⟨token, htoken, hv⟩ := Option.bind_eq_some_iff.mp hv.2
    obtain ⟨_, -, rfl⟩ := Option.map_eq_some_iff.mp hv
    have htoken := List.mem_of_head? (Option.filter_eq_some_iff.mp htoken).1
    exact ⟨token, (List.dropWhile_sublist _).subset (List.mem_of_mem_drop htoken), rfl⟩
  · obtain ⟨token, htoken, hv⟩ := Option.bind_eq_some_iff.mp (Option.mem_toList.mp hv)
    have htoken := (List.mem_filter.mp (List.mem_of_getLast? htoken)).1
    exact ⟨token, (List.takeWhile_sublist _).subset htoken,
      IdentifierName.position_of_checkVariable hv⟩
  · obtain ⟨token, htoken, hv⟩ := Option.bind_eq_some_iff.mp (Option.mem_toList.mp hv)
    exact ⟨token, List.mem_of_getElem? htoken, IdentifierName.position_of_checkVariable hv⟩
  · obtain ⟨token, htoken, hv⟩ := List.mem_filterMap.mp hv
    have htoken := IdentifierName.mem_of_mem_closureParametersFrom htoken
    exact ⟨token, (List.mem_filter.mp htoken).1, IdentifierName.position_of_checkVariable hv⟩
  · obtain ⟨token, htoken, hv⟩ := Option.bind_eq_some_iff.mp (Option.mem_toList.mp hv)
    obtain ⟨_, -, rfl⟩ := Option.map_eq_some_iff.mp hv
    exact ⟨token, List.mem_of_getElem? htoken, rfl⟩
  · cases hv

theorem IdentifierName.rule_reportsBoundaries (o : IdentifierName.Options) :
    (IdentifierName.rule o).ReportsBoundaries ctx := by
  rintro vs hfind v hv
  cases hfind
  obtain ⟨c, hc, hv⟩ := List.mem_flatMap.mp hv
  obtain ⟨token, htoken, hposition⟩ := IdentifierName.exists_of_mem_check hv
  rw [hposition]
  exact SourceUnit.isBoundary_position h (Cursor.mem_descendants_trans
    (Cursor.mem_postorder_iff.mp hc).1 (Cursor.mem_descendants_of_mem_children htoken))

/-! ### Lines -/

theorem LineLength.rule_reportsBoundaries (o : LineLength.Options) :
    (LineLength.rule o).ReportsBoundaries ctx := by
  rintro vs hfind v hv
  have hfind : LineLength.check o ctx.unit = .ok vs := hfind
  obtain ⟨ms, -, hfind⟩ := Except.bind_eq_ok.mp hfind
  obtain ⟨found, hfound, hfind⟩ := Except.bind_eq_ok.mp hfind
  cases hfind
  obtain ⟨v', hv', rfl⟩ := List.mem_filterMap.mp hv
  obtain ⟨line, -, hline⟩ := Except.exists_of_mapM_eq_ok hfound _ hv'
  obtain ⟨content, -, hline⟩ := Except.bind_eq_ok.mp hline
  split at hline
  · cases hline
  · have hmap := Except.ok.inj hline
    obtain ⟨_, -, rfl⟩ := Option.map_eq_some_iff.mp hmap
    dsimp only
    rw [(SourceUnit.regions_eq h).1]
    obtain ⟨front, rest, htext, hstart⟩ :=
      LineIndex.exists_getD_starts ctx.unit.source (OneIndexed.ofZeroBased line).toZeroBased
    exact Text.isBoundary_iff.mpr ⟨front, rest, htext, hstart⟩

omit h in
/-- A line starts where the trivia does or behind one of its pieces. -/
theorem VerticalWhitespace.of_mem_lineRuns {P : Nat → Prop} {index offset first start : Nat}
    {lines run : List VerticalWhitespace.Line} {ps : Trivia} {l : VerticalWhitespace.Line}
    (hlines : ∀ l ∈ lines, P l.start) (hstart : P start)
    (hps : ∀ before after, ps = before ++ after → P (offset + Trivia.len before))
    (hrun : run ∈ VerticalWhitespace.lineRuns index offset first start lines ps) (hl : l ∈ run) :
    P l.start := by
  induction ps generalizing index offset first start lines with
  | nil =>
    rw [VerticalWhitespace.lineRuns, List.mem_singleton] at hrun
    exact hlines l (hrun ▸ hl)
  | cons p ps ih =>
    have hlater : ∀ before after, ps = before ++ after →
        P (offset + p.len + Trivia.len before) := by
      rintro before after rfl
      have hp := hps (p :: before) after rfl
      rwa [Trivia.len_cons, ← Nat.add_assoc] at hp
    rw [VerticalWhitespace.lineRuns] at hrun
    split_ifs at hrun with hnewline hcomment
    · refine ih ?_ (hlater [] ps rfl) hlater hrun
      exact List.forall_mem_append.mpr ⟨hlines, List.forall_mem_singleton.mpr hstart⟩
    · rcases List.mem_cons.mp hrun with rfl | hrun
      · exact hlines l hl
      · exact ih (fun l hl => absurd hl List.not_mem_nil) hstart hlater hrun
    · exact ih hlines hstart hlater hrun

theorem VerticalWhitespace.rule_reportsBoundaries (o : VerticalWhitespace.Options) :
    (VerticalWhitespace.rule o).ReportsBoundaries ctx := by
  rintro vs hfind v hv
  cases hfind
  obtain ⟨token, htoken, hv⟩ := List.mem_flatMap.mp hv
  obtain ⟨e, he, rfl⟩ := List.mem_map.mp hv
  obtain ⟨run, hrun, hexcess⟩ := List.mem_filterMap.mp he
  obtain ⟨l, hl, hposition⟩ := VerticalWhitespace.exists_line_of_excess? hexcess
  obtain ⟨run', hrun', hl'⟩ := VerticalWhitespace.exists_mem_lineRuns hrun hl
  obtain ⟨hplaced, hroot⟩ := Cursor.isPlaced_of_mem_descendants (List.mem_filter.mp htoken).1
  -- the pieces in front of a token are the front of its text
  have hpieces : ∀ before after, token.leadingTrivia = before ++ after →
      Text.isBoundary ctx.unit.source (token.offset + Trivia.len before) = true := by
    intro before after hleading
    have hkinded := wellKinded_parse (SourceUnit.parse_of_ofText h)
    obtain ⟨t, ht, -⟩ := Cursor.exists_token_of_mem_tokensOf hkinded rfl htoken
    have htokenKinded := hplaced.wellKinded (hroot ▸ hkinded)
    rw [ht] at htokenKinded
    rw [Cursor.leadingTrivia_token htokenKinded ht] at hleading
    have htext := Element.toList_fullText_eq token.element
    have hfront : token.element.leadingTrivia = before ++ after := by rw [ht]; exact hleading
    rw [hfront, Trivia.toList_text_append, List.append_assoc, List.append_assoc] at htext
    rw [SourceUnit.source_eq_fullText h, ← hroot, ← Trivia.utf8Len_text]
    exact hplaced.isBoundary_of_append htext
  dsimp only
  rw [← hposition]
  exact VerticalWhitespace.of_mem_lineRuns (P := fun p => Text.isBoundary ctx.unit.source p = true)
    (fun l hl => absurd hl List.not_mem_nil) (hpieces [] _ rfl) hpieces hrun' hl'

omit h in
theorem SuperfluousDisableCommand.rule_reportsBoundaries (severity : Severity) :
    (SuperfluousDisableCommand.rule severity).ReportsBoundaries ctx := by
  rintro vs hfind v hv
  cases hfind
  cases hv

/-- However a rule of this project is configured, it reports at boundaries between characters. -/
theorem Registry.reportsBoundaries_of_mem_builtinEntries {e : RuleEntry} {options : Option Toml}
    {r : Rule} (hentry : e ∈ Registry.builtinEntries) (hcreate : e.create options = .ok r) :
    r.ReportsBoundaries ctx := by
  simp only [Registry.builtinEntries, List.mem_cons, List.not_mem_nil, or_false] at hentry
  rcases hentry with rfl | rfl | rfl | rfl | rfl | rfl | rfl | rfl | rfl | rfl | rfl <;>
    obtain ⟨o, -, rfl⟩ := Except.map_eq_ok.mp hcreate
  · exact Colon.rule_reportsBoundaries h o
  · exact ForceUnwrapping.rule_reportsBoundaries h o
  · exact IdentifierName.rule_reportsBoundaries h o
  · exact LineLength.rule_reportsBoundaries h o
  · exact Nesting.rule_reportsBoundaries h o
  · exact ReturnArrowWhitespace.rule_reportsBoundaries h o
  · exact SortedSwitchCases.rule_reportsBoundaries h o
  · exact SuperfluousDisableCommand.rule_reportsBoundaries o
  · exact TrailingSemicolon.rule_reportsBoundaries h o
  · exact UnusedImport.rule_reportsBoundaries h o
  · exact VerticalWhitespace.rule_reportsBoundaries h o

end Rules

/-! ### Diagnostics -/

namespace Linter

variable {source : String} {u : SourceUnit} {l : Linter} {d : Diagnostic}

/-- A diagnostic stands where some rule found a violation, or at a directive. -/
theorem exists_of_mem_analyze (h : SourceUnit.ofText source = .ok u) (hd : d ∈ l.analyze u) :
    (∃ r ∈ l.rules, ∃ v ∈ l.violations u r, d.position = v.position) ∨
      ∃ c ∈ u.commands, d.position = c.offset := by
  have hposition : ∀ {r : Rule} {vs : List Violation}, d ∈ diagnostics u r vs →
      ∃ v ∈ vs, d.position = v.position := by
    intro r vs hd
    obtain ⟨v, hv, rfl⟩ := List.mem_map.mp hd
    exact ⟨v, (List.mem_filter.mp hv).1, rfl⟩
  unfold analyze Diagnostic.sort at hd
  rw [List.mem_mergeSort, List.mem_append] at hd
  rcases hd with hplain | hsuperfluous
  · left
    obtain ⟨⟨r, vs⟩, hr, hd⟩ := List.mem_flatMap.mp hplain
    obtain ⟨r', hr', heq⟩ := List.mem_map.mp hr
    cases heq
    exact ⟨r, (List.mem_filter.mp hr').1, hposition hd⟩
  · right
    split at hsuperfluous
    · cases hsuperfluous
    · obtain ⟨v, hv, hd⟩ := hposition hsuperfluous
      obtain ⟨c, hc, hoffset, -⟩ := SuperfluousDisableCommand.exists_command_of_mem_find h hv
      exact ⟨c, hc, hd.trans hoffset⟩

/-- A diagnostic of rules of this project stands at a boundary between characters. -/
theorem isBoundary_of_mem_analyze (h : SourceUnit.ofText source = .ok u)
    (hl : ∀ r ∈ l.rules, ∃ e ∈ Registry.builtinEntries, ∃ options, e.create options = .ok r)
    (hd : d ∈ l.analyze u) : Text.isBoundary u.source d.position = true := by
  rcases exists_of_mem_analyze h hd with ⟨r, hr, v, hv, hposition⟩ | ⟨c, hc, hposition⟩
  · obtain ⟨e, hentry, options, hcreate⟩ := hl r hr
    have hreports : r.ReportsBoundaries (l.context u) :=
      Registry.reportsBoundaries_of_mem_builtinEntries h hentry hcreate
    unfold violations Rule.validate at hv
    cases hfind : r.find (l.context u) with
    | error f =>
      rw [hfind] at hv
      cases hv
    | ok vs =>
      rw [hfind] at hv
      rw [hposition]
      exact hreports vs hfind v (List.mem_mergeSort.mp hv)
  · obtain ⟨tree, -, rfl⟩ := Except.map_eq_ok.mp h
    rw [hposition]
    exact Command.isBoundary_of_mem_collect hc

/-- **Positions of diagnostics**: the diagnostics of a source are in order, and each is at the start
of one of its characters or at its end, so that it has a line and a column, and these are what
counting the characters in front of it gives. -/
theorem location_of_mem_analyze (h : SourceUnit.ofText source = .ok u)
    (hl : ∀ r ∈ l.rules, ∃ e ∈ Registry.builtinEntries, ∃ options, e.create options = .ok r) :
    ((l.analyze u).Pairwise fun a b =>
      a.position < b.position ∨ a.position = b.position ∧ a.rule ≤ b.rule) ∧
    ∀ d ∈ l.analyze u, ∃ front rest, source.toList = front ++ rest ∧
      d.position = String.utf8Len front ∧ d.position ≤ source.utf8ByteSize ∧
      u.lineIndex.location? d.position = some (u.location d.position) ∧
      ((u.location d.position).line.val, (u.location d.position).column.val) =
        Text.walk 1 1 front rest := by
  refine ⟨(List.pairwise_mergeSort Diagnostic.before_trans Diagnostic.before_total _).imp
    Diagnostic.before_iff.mp, fun d hd => ?_⟩
  have hparse := SourceUnit.parse_of_ofText h
  have hsource : u.source = source :=
    (SourceUnit.source_eq_fullText h).trans (fullText_parse hparse)
  obtain ⟨front, rest, htext, hposition⟩ :=
    Text.isBoundary_iff.mp (isBoundary_of_mem_analyze h hl hd)
  have hlen : u.source.utf8ByteSize < Offset.limit := by
    rw [hsource]
    exact utf8ByteSize_lt_of_parse hparse
  obtain ⟨loc, hloc, hwalk⟩ := LineIndex.location?_eq hlen htext
  rw [← hposition, ← (SourceUnit.regions_eq h).1] at hloc
  have hreported : u.location d.position = loc := LineIndex.location_of_location?_eq_some hloc
  refine ⟨front, rest, hsource ▸ htext, hposition, ?_, hreported ▸ hloc, hreported ▸ hwalk⟩
  rw [← hsource, hposition, Text.utf8ByteSize_eq, htext, String.utf8Len_append]
  exact Nat.le_add_right _ _

/-- A source in which a line ends with CR LF and characters take two bytes. -/
def accented : String := "//é\r\nlet é :Int = 1\r\n"

/-- The space in front of the colon is reported behind the name, which is behind twelve bytes and at
the sixth column of the second line. -/
theorem location_of_mem_analyze_accented : ∃ u, SourceUnit.ofText accented = .ok u ∧
    ∃ d ∈ (ofRules [Colon.rule {}]).analyze u, d.position = 12 ∧
      u.location d.position = ⟨⟨2, by decide⟩, ⟨6, by decide⟩⟩ := by
  have hmap : (SourceUnit.ofText accented).toOption.map (fun u =>
      (((Colon.edits {} u.root).map (·.position)).filter
          (!(u.disabledRegions Colon.description).isSuppressed ·), u.lineIndex.location? 12)) =
      some ([12], some ⟨⟨2, by decide⟩, ⟨6, by decide⟩⟩) := by
    decide +kernel
  obtain ⟨u, hu, hvalues⟩ := Option.map_eq_some_iff.mp hmap
  obtain ⟨hedits, hlocation⟩ := Prod.mk.inj hvalues
  have h : SourceUnit.ofText accented = .ok u := Except.toOption_eq_some.mp hu
  have hreported : (ofRules [Colon.rule {}]).reported u (Colon.rule {}) = [12] := by
    rw [reported_eq rfl rfl rfl, Rule.unsuppressed, List.map_map]
    exact (congrArg (List.mergeSort · (· ≤ ·)) hedits).trans (List.mergeSort_singleton _)
  have hmem : 12 ∈ (ofRules [Colon.rule {}]).reported u (Colon.rule {}) := by
    rw [hreported]
    exact List.mem_cons_self
  obtain ⟨d, hd, hposition⟩ := List.mem_map.mp hmem
  have hd := (List.mem_filter.mp hd).1
  obtain ⟨-, hall⟩ := location_of_mem_analyze (l := ofRules [Colon.rule {}]) h fun r hr =>
    ⟨Colon.entry, by simp [Registry.builtinEntries], none, by rw [List.mem_singleton.mp hr]; rfl⟩
  obtain ⟨front, rest, -, -, -, hexact, -⟩ := hall d hd
  rw [hposition, hlocation] at hexact
  exact ⟨u, h, d, hd, hposition, by rw [hposition]; exact (Option.some.inj hexact).symm⟩

end Linter

end SwiftTidy
