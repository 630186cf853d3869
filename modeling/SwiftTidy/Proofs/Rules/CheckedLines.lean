import SwiftTidy.Proofs.Directive.Collect
import SwiftTidy.Proofs.Lint.Building
import SwiftTidy.Proofs.Lint.Reports
import SwiftTidy.Proofs.Parse.Lexemes
import SwiftTidy.Proofs.Parse.Phrases
import SwiftTidy.Proofs.Text.Location
import SwiftTidy.Rules.LineLength

/-!
# The length of lines with checked steps

The rule about long lines adds offsets up where comments start, takes one from the end of what is
marked, and cuts the content of each line out of the source.  In a source of 32 bits none of this
fails: a comment ends within its token, only ranges that are not empty are shortened, and a line
starts and ends at boundaries.

The range of a signature is not inverted because the part of a function in front of its body holds
the keyword (`position_lt_endPosition`): the position of the function is that of its first token, and
what is last in front of the body ends behind the keyword.
-/

namespace SwiftTidy

variable {source : String} {tree : Element} {ctx : Context}

/-! ### Comments -/

namespace Trivia

/-- The comments of a run that starts at byte `start`, with the bytes added up in 32 bits. -/
def checkedCommentsFrom (start : Nat) : Trivia → Except Fault (List (Nat × TriviaPiece))
  | [] => .ok []
  | p :: t => do
    let next ← Offset.add start p.len
    let later ← checkedCommentsFrom next t
    return if p.isComment then (start, p) :: later else later

theorem checkedCommentsFrom_eq_ok {start : Nat} {t : Trivia} (h : start + t.len < Offset.limit) :
    checkedCommentsFrom start t = .ok (commentsFrom start t) := by
  induction t generalizing start with
  | nil => rfl
  | cons p t ih =>
    rw [len_cons, ← Nat.add_assoc] at h
    rw [checkedCommentsFrom, Offset.add_eq_ok (by omega), commentsFrom]
    simp only [bind, Except.bind, ih h]
    rfl

end Trivia

namespace LineLength

/-- The ranges of the comments in trivia that starts at an offset, in 32 bits. -/
def checkedCommentMarks (base : Nat) (t : Trivia) : Except Fault (List Mark) := do
  let comments ← t.checkedCommentsFrom 0
  comments.mapM fun (offset, piece) => do
    let start ← Offset.add base offset
    return ⟨.comment, ← TextRange.ofLength start piece.len⟩

/-- What a token puts on its lines, with all offsets in 32 bits. -/
def checkedTokenMarks (c : Cursor) : Except Fault (List Mark) := do
  let leading ← checkedCommentMarks c.offset c.leadingTrivia
  let trailing ← checkedCommentMarks c.endPosition c.trailingTrivia
  return leading ++ trailing ++
    if c.kind == .endOfFile then []
    else
      ⟨.code, c.range⟩ ::
        if c.kind == .stringLiteral && Words.containsText ['\\', '('] c.text.toList then
          [⟨.interpolation, c.range⟩]
        else []

/-- What is on the lines of a source, with all offsets in 32 bits. -/
def checkedMarks (root : Cursor) : Except Fault (List Mark) := do
  let declarations ← root.postorder.mapM nodeMarks
  let tokens ← root.tokens.mapM checkedTokenMarks
  return tokens.flatten ++ declarations.flatten

theorem checkedCommentMarks_eq {base : Nat} {t : Trivia} (h : base + t.len < Offset.limit) :
    checkedCommentMarks base t = .ok (commentMarks base t) := by
  rw [checkedCommentMarks, Trivia.checkedCommentsFrom_eq_ok (by omega), commentMarks]
  refine Except.mapM_eq_ok fun x hx => ?_
  have hbound := (Trivia.commentsFrom_bounds 0 t).1 x hx
  have hstart : Offset.add base x.1 = .ok (base + x.1) := Offset.add_eq_ok (by omega)
  have hrange : TextRange.ofLength (base + x.1) x.2.len = _ := TextRange.ofLength_eq_ok (by omega)
  simp only [hstart, hrange, bind, Except.bind]
  rfl

/-- A token of a parsed file is a leaf with its trivia around it. -/
theorem exists_leaf (hparse : parse source = .ok tree) {c : Cursor}
    (hc : c ∈ (Cursor.root tree).tokens) : ∃ t ∈ tree.leaves, c.leadingTrivia = t.leading ∧
      c.trailingTrivia = t.trailing ∧ c.endPosition = c.offset + t.leading.len + t.len ∧
      c.offset + t.leading.len + t.len + t.trailing.len ≤ source.utf8ByteSize := by
  obtain ⟨t, ht, hleaf⟩ := Cursor.exists_token_of_mem_tokensOf (wellKinded_parse hparse)
    (c := .root tree) rfl hc
  have hmem := (List.mem_filter.mp hc).1
  have hkinded := ht ▸ wellKinded_of_mem_descendants hparse hmem
  have hend : c.offset + c.element.fullLen ≤ source.utf8ByteSize :=
    fullEnd_le_of_mem_descendants hparse hmem
  refine ⟨t, hleaf, Cursor.leadingTrivia_token hkinded ht, Cursor.trailingTrivia_token hkinded ht, ?_, ?_⟩
  · rw [Cursor.endPosition, Cursor.position, ht, Element.len_token, Element.leadingTrivia_eq,
      Element.leaves_token]
    rfl
  · rw [ht, Element.fullLen, Token.fullLen] at hend
    omega

/-- The comments of a token are found with checked steps. -/
theorem checkedTokenMarks_eq (hparse : parse source = .ok tree) {c : Cursor}
    (hc : c ∈ (Cursor.root tree).tokens) : checkedTokenMarks c = .ok (tokenMarks c) := by
  have hlen := utf8ByteSize_lt_of_parse hparse
  obtain ⟨t, -, hleading, htrailing, hend, hwithin⟩ := exists_leaf hparse hc
  have hfront : checkedCommentMarks c.offset c.leadingTrivia = _ :=
    checkedCommentMarks_eq (by rw [hleading]; omega)
  have hback : checkedCommentMarks c.endPosition c.trailingTrivia = _ :=
    checkedCommentMarks_eq (by rw [htrailing, hend]; omega)
  simp only [checkedTokenMarks, hfront, hback, bind, Except.bind]
  rfl

/-! ### Signatures -/

/-- The last of the elements at the front of a node ends behind the position of the node, if one of
these elements holds a token that is not empty. -/
theorem position_lt_endPosition {c last : Cursor} {front back : List Element} {t : Token}
    (hkinded : c.element.WellKinded) (hc : c.element.children = front ++ back)
    (ht : t ∈ Element.leavesAll front) (hpos : 0 < t.len)
    (hlast : (Cursor.childrenFrom c 0 c.offset front).getLast? = some last) :
    c.position < last.endPosition := by
  have hleaves : Element.leavesAll front ≠ [] := List.ne_nil_of_mem ht
  obtain ⟨k, hnode⟩ : ∃ k, c.element = .node k (front ++ back) := by
    cases hce : c.element with
    | token t =>
      rw [hce, Element.children, List.nil_eq, List.append_eq_nil_iff] at hc
      rw [hc.1] at hleaves
      exact absurd Element.leavesAll_nil hleaves
    | node k es =>
      rw [hce] at hc
      exact ⟨k, congrArg _ hc⟩
  rcases List.eq_nil_or_concat front with rfl | ⟨init, e, rfl⟩
  · cases hlast
  · rw [List.concat_eq_append] at ht hleaves hlast hnode
    rw [Cursor.childrenFrom_append, Cursor.childrenFrom, Cursor.childrenFrom,
      List.getLast?_concat] at hlast
    obtain rfl := Option.some.inj hlast
    -- what is in front of the body, as an element of its own
    obtain ⟨part, hpart⟩ : ∃ part, Element.node k (init ++ [e]) = part := ⟨_, rfl⟩
    have hleading : c.element.leadingTrivia = part.leadingTrivia := by
      rw [Element.leadingTrivia_eq, Element.leadingTrivia_eq, hnode, ← hpart, Element.leaves_node,
        Element.leaves_node, Element.leavesAll_append _ back, List.head?_append_of_ne_nil _ hleaves]
    have htrailing : e.trailingTrivia.len ≤ part.trailingTrivia.len := by
      rw [Element.trailingTrivia_eq, Element.trailingTrivia_eq, ← hpart, Element.leaves_node,
        Element.leavesAll_append, Element.leavesAll_cons, Element.leavesAll_nil, List.append_nil,
        List.getLast?_append]
      cases e.leaves.getLast? with
      | none => exact Nat.zero_le _
      | some t => exact Nat.le_refl _
    have hinside : t.len ≤ part.len := by
      rw [hnode, Element.wellKinded_node, Element.wellKindedAll_append] at hkinded
      refine Cursor.len_le_of_mem_leaves ?_ ?_
      · rw [← hpart, Element.wellKinded_node]
        exact ⟨hkinded.1, hkinded.2.1⟩
      · rw [← hpart, Element.leaves_node]
        exact ht
    have hlen := (Element.len_add part).1
    have hlastLen := (Element.len_add e).1
    rw [← hpart, Element.fullLen, Element.fullLenAll_append, Element.fullLenAll_singleton,
      hpart] at hlen
    rw [Cursor.endPosition, Cursor.position, Cursor.position, hleading]
    simp only [Cursor.offset, Cursor.element]
    omega

/-- A function has a part in front of its body, which ends behind the position of the function. -/
theorem exists_signature (hparse : parse source = .ok tree) {c : Cursor}
    (hc : c ∈ (Cursor.root tree).descendants) (hkind : c.kind.hasSignature = true) :
    ∃ last, (c.children.takeWhile (·.kind != .codeBlock)).getLast? = some last ∧
      c.position < last.endPosition := by
  have hkinded := wellKinded_of_mem_descendants hparse hc
  have hshaped := shaped_of_mem_descendants hparse hc
  obtain ⟨hplaced, hroot⟩ := Cursor.isPlaced_of_mem_descendants hc
  obtain ⟨k, es, hnode⟩ : ∃ k es, c.element = .node k es := by
    cases hce : c.element with
    | node k es => exact ⟨k, es, rfl⟩
    | token t =>
      rw [hce, Element.wellKinded_token] at hkinded
      rw [Cursor.kind, hce, Element.kind, SyntaxKind.hasSignature, Bool.or_eq_true, beq_iff_eq,
        beq_iff_eq] at hkind
      rcases hkind with hkind | hkind <;> rw [hkind] at hkinded <;> cases hkinded
  rw [hnode, Element.shaped_node] at hshaped
  rw [Cursor.kind, hnode] at hkind
  obtain ⟨t, ht, hend⟩ := hshaped.1.signature hkind
  obtain ⟨front, back, hes, hfront⟩ : ∃ front back, es = front ++ back ∧
      es.takeWhile (·.kind != .codeBlock) = front :=
    ⟨_, _, List.takeWhile_append_dropWhile.symm, rfl⟩
  rw [hfront] at ht
  -- the signature holds a token of the text, so it is not empty
  have hcut : t.IsCut := by
    obtain ⟨before, after, hleaves, -⟩ := hplaced.exists_leaves
    refine isCut_of_mem_leaves hparse ?_ hend
    rw [← hroot, hleaves, hnode, Element.leaves_node, hes, Element.leavesAll_append]
    simp [ht]
  have hchildren : c.children.takeWhile (·.kind != .codeBlock) =
      Cursor.childrenFrom c 0 c.offset front := by
    rw [Cursor.children, hnode, ← hfront]
    exact Cursor.takeWhile_childrenFrom (·.kind != .codeBlock) c 0 c.offset es
  rw [hchildren]
  cases hlast : (Cursor.childrenFrom c 0 c.offset front).getLast? with
  | none =>
    cases front with
    | nil => cases Element.leavesAll_nil ▸ ht
    | cons e front =>
      rw [Cursor.childrenFrom, List.getLast?_cons] at hlast
      cases hlast
  | some last =>
    have hparts : c.element.children = front ++ back := by
      rw [hnode]
      exact hes
    exact ⟨last, rfl, position_lt_endPosition hkinded hparts ht hcut.len_pos hlast⟩

/-- The signature of a function is found. -/
theorem exists_nodeMarks (hparse : parse source = .ok tree) {c : Cursor}
    (hc : c ∈ (Cursor.root tree).descendants) : ∃ ms, nodeMarks c = .ok ms := by
  rw [nodeMarks]
  split_ifs with hkind
  · obtain ⟨last, hlast, hlt⟩ := exists_signature hparse hc hkind
    rw [signatureRange?, hlast, Option.map_some]
    show ∃ ms, Except.map _ (TextRange.between _ _) = _
    rw [TextRange.between_eq_ok (Nat.le_of_lt hlt)]
    exact ⟨_, rfl⟩
  · exact ⟨[], rfl⟩

/-- What is on the lines is found with checked steps. -/
theorem exists_marks (hparse : parse source = .ok tree) :
    ∃ ms, checkedMarks (.root tree) = .ok ms ∧ marks (.root tree) = .ok ms := by
  have hnodes : ∀ c ∈ (Cursor.root tree).postorder, ∃ ms, nodeMarks c = .ok ms ∧ True :=
    fun c hc => (exists_nodeMarks hparse (Cursor.mem_postorder_iff.mp hc).1).imp
      fun _ h => ⟨h, trivial⟩
  obtain ⟨declarations, hdeclarations, -⟩ := Except.exists_mapM_eq_ok hnodes
  have htokens : (Cursor.root tree).tokens.mapM checkedTokenMarks = _ :=
    Except.mapM_eq_ok fun c hc => checkedTokenMarks_eq hparse hc
  refine ⟨(Cursor.root tree).tokens.flatMap tokenMarks ++ declarations.flatten, ?_, ?_⟩
  · simp only [checkedMarks, hdeclarations, htokens, bind, Except.bind, List.flatMap_def]
    rfl
  · rw [marks, hdeclarations]
    rfl

/-! ### Lines -/

/-- The lines that something is on. -/
structure MarkedLines where
  fact : Fact
  first : Nat
  last : Nat

/-- The lines that a mark is on; the end of its range is not shortened below zero. -/
def Mark.checkedLines (ix : LineIndex) (m : Mark) : Except Fault MarkedLines := do
  let first := (ix.lineOf m.range.start).toZeroBased
  if m.range.isEmpty then return ⟨m.fact, first, first⟩
  else
    let stop ← Offset.sub m.range.stop 1
    return ⟨m.fact, first, (ix.lineOf stop).toZeroBased⟩

/-- Whether something is on a line. -/
def isMarked (ls : List MarkedLines) (line : Nat) (f : Fact) : Bool :=
  ls.any fun l => l.fact == f && (l.first ≤ line && line ≤ l.last)

/-- Whether a line is left out. -/
def isSkipped (o : Options) (ls : List MarkedLines) (line : Nat) : Bool :=
  (o.ignoresComments && isMarked ls line .comment && !isMarked ls line .code) ||
    (o.ignoresFunctionDeclarations && isMarked ls line .declaration) ||
    (o.ignoresInterpolatedStrings && isMarked ls line .interpolation)

/-- The violation of a line, counted from zero, whose content is cut out of the text. -/
def checkedLine (o : Options) (ls : List MarkedLines) (ix : LineIndex) (line : Nat) :
    Except Fault (Option Violation) := do
  let range ← ix.contentRange (.ofZeroBased line)
  if range.len ≤ o.shortest || isSkipped o ls line then return none
  else
    let length := measure o (← Text.slice ix.text range)
    return (o.length.exceededBy length).map fun (severity, limit) =>
      ⟨range.start, some (message limit length), some severity⟩

/-- The violations of all lines, found with checked steps. -/
def checkedCheck (o : Options) (u : SourceUnit) : Except Fault (List Violation) := do
  let ms ← checkedMarks u.root
  let ls ← ms.mapM (Mark.checkedLines u.lineIndex)
  let found ← (List.range u.lineIndex.lineCount).mapM (checkedLine o ls u.lineIndex)
  return found.filterMap id

/-- The rule with checked steps. -/
def checkedRule (o : Options) : Rule := { rule o with find := fun ctx => checkedCheck o ctx.unit }

/-- The rule with checked steps, before it is configured. -/
def checkedEntry : RuleEntry := ⟨description, fun v => (Options.configure v).map checkedRule⟩

/-- The lines that a mark is on. -/
def Mark.lines (ix : LineIndex) (m : Mark) : MarkedLines :=
  let first := (ix.lineOf m.range.start).toZeroBased
  ⟨m.fact, first, if m.range.isEmpty then first else (ix.lineOf (m.range.stop - 1)).toZeroBased⟩

theorem Mark.checkedLines_eq (ix : LineIndex) (m : Mark) :
    m.checkedLines ix = .ok (m.lines ix) := by
  rw [checkedLines, lines]
  cases hempty : m.range.isEmpty with
  | true => rfl
  | false =>
    have hpos : 1 ≤ m.range.stop := by
      have hle := m.range.start_le_stop
      rw [TextRange.isEmpty, beq_eq_false_iff_ne] at hempty
      omega
    rw [Offset.sub_eq_ok hpos]
    rfl

theorem isMarked_map_lines (ms : List Mark) (ix : LineIndex) (line : Nat) (f : Fact) :
    isMarked (ms.map (Mark.lines ix)) line f = hasFact ms ix line f := by
  rw [isMarked, hasFact, List.any_map]
  rfl

theorem isSkipped_map_lines (o : Options) (ms : List Mark) (ix : LineIndex) (line : Nat) :
    isSkipped o (ms.map (Mark.lines ix)) line = isIgnored o ms ix line := by
  simp only [isSkipped, isIgnored, isMarked_map_lines]

/-- A line that exists is measured, and with checked steps it is measured alike. -/
theorem exists_checkLine {text : String} (hlen : text.utf8ByteSize < Offset.limit) (o : Options)
    (ms : List Mark) {line : Nat} (hline : line < (LineIndex.ofText text).lineCount) :
    ∃ v, checkedLine o (ms.map (Mark.lines (.ofText text))) (.ofText text) line = .ok v ∧
      checkLine o ms (.ofText text) line = .ok v := by
  have hcount := LineIndex.lineCount_le text
  have hnumber : (OneIndexed.ofZeroBased line).toZeroBased = line := by
    simp only [OneIndexed.ofZeroBased, OneIndexed.toZeroBased, OneIndexed.greatest]
    rw [Offset.limit] at hlen
    omega
  obtain ⟨range, content, hrange, hcontent, hslice, hstart, hsize⟩ :=
    LineIndex.exists_contentRange hlen (hnumber.symm ▸ hline)
  have hcut : Text.slice (LineIndex.ofText text).text range = .ok content := hslice
  simp only [checkedLine, checkLine, hrange, hcontent, isSkipped_map_lines, hcut, bind,
    Except.bind, hsize, hstart]
  by_cases hskip : (content.utf8ByteSize ≤ o.shortest ||
      isIgnored o ms (.ofText text) line : Bool) = true
  · rw [if_pos hskip]
    exact ⟨none, rfl, rfl⟩
  · rw [if_neg hskip]
    exact ⟨_, rfl, rfl⟩

theorem rule_runsAs (h : SourceUnit.ofText source = .ok ctx.unit)
    (hlen : source.utf8ByteSize < Offset.limit) (o : Options) :
    (rule o).RunsAs (checkedRule o) ctx := by
  have hparse := SourceUnit.parse_of_ofText h
  obtain ⟨ms, hchecked, hmarks⟩ := exists_marks hparse
  have hindex := SourceUnit.lineIndex_eq h
  have hlines : ms.mapM (Mark.checkedLines (.ofText source)) = _ :=
    Except.mapM_eq_ok fun m _ => m.checkedLines_eq (.ofText source)
  have hcount : ∀ line ∈ List.range (LineIndex.ofText source).lineCount, _ := fun line hline =>
    exists_checkLine hlen o ms (List.mem_range.mp hline)
  obtain ⟨found, hfound, hplain⟩ := Except.exists_mapM_eq_mapM hcount
  have hfind : checkedCheck o ctx.unit = .ok (found.filterMap id) := by
    rw [checkedCheck, hindex, SourceUnit.root, hchecked]
    simp only [bind, Except.bind, hlines, hfound]
    rfl
  have hfindPlain : check o ctx.unit = .ok (found.filterMap id) := by
    rw [check, hindex, SourceUnit.root, hmarks]
    simp only [bind, Except.bind, hplain]
    rfl
  exact .of_find hfind hfindPlain (.inl ⟨rfl, rfl⟩)

end LineLength

end SwiftTidy
