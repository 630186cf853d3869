import SwiftTidy.Proofs.Parse.Phrases
import SwiftTidy.Proofs.Parse.Without.Declaration

/-!
# Statements and files without some of the semicolons

A statement takes the semicolon behind it into its item, so an item is where a semicolon is left out.
With that every production is read alike, and so is a whole file (`follows_sourceFile`).
-/

namespace SwiftTidy

open Element

namespace Grammar

variable {M : Marks} {b : Bool} {E : SyntaxKind → Prop} {r r' : Level} {s t u v : Input}
  {k next : SyntaxKind}

/-! ### Statements -/

theorem follows_jump (h : s.Enters M b u) (hmark : M s.offset = none) :
    Follows M E s.offset s u (jump k) (jump k) := by
  refine ((follows_take h hmark).append fun t v htv => ?_).node
  refine follows_onlyIf htv (htv.isAt_sameLine_eq (k := .identifier) (by decide) (by decide))
    fun hat => ?_
  rw [Bool.and_eq_true] at hat
  exact follows_take htv (mark_of_isAt htv hat.1 (by decide))

theorem follows_guardStmt (hr : r.Follows M r') (h : s.Enters M b u) (hmark : M s.offset = none) :
    Follows M E s.offset s u (guardStmt r) (guardStmt r') :=
  ((((follows_take h hmark).append fun _ _ => follows_conditionList hr).append fun _ _ =>
    follows_expect .elseKw _ (by decide)).append fun _ _ => follows_codeBlock hr).node

theorem follows_whileStmt (hr : r.Follows M r') (h : s.Enters M b u) (hmark : M s.offset = none) :
    Follows M E s.offset s u (whileStmt r) (whileStmt r') :=
  (((follows_take h hmark).append fun _ _ => follows_conditionList hr).append fun _ _ =>
    follows_codeBlock hr).node

theorem follows_repeatStmt (hr : r.Follows M r') (h : s.Enters M b u) (hmark : M s.offset = none) :
    Follows M E s.offset s u (repeatStmt r) (repeatStmt r') :=
  ((((follows_take h hmark).append fun _ _ => follows_codeBlock hr).append fun _ _ =>
    follows_expect .whileKw _ (by decide)).append fun _ _ => hr.expression _).node

theorem rejects_forPattern (hr : r.Follows M r') (hkind : s.kind = .semicolon) :
    (forPattern r).Rejects s := by
  refine rejects_peek ?_
  rw [hkind]
  exact hr.rejects .bindingPattern s nofun hkind

theorem follows_forPattern (hr : r.Follows M r') (h : s.Enters M b u) :
    Follows M E s.offset s u (forPattern r) (forPattern r') := by
  by_cases hkind : s.kind = .semicolon
  · exact (rejects_forPattern hr hkind).follows
  have hmark := mark_of_kind h hkind
  have htake : Follows M Anywhere s.offset s u take take := follows_take h hmark
  refine follows_peek ?_
  rw [h.kind_eq hmark]
  generalize s.kind = k
  split
  · exact htake.append fun _ _ => hr.pattern
  · exact (htake.append fun _ _ => hr.bindingPattern).node
  · exact (htake.append fun _ _ => hr.bindingPattern).node
  · exact hr.bindingPattern h

/-- A word in front of what is due. -/
theorem follows_eat_due (k : SyntaxKind) (hk : k ≠ .semicolon) (h : s.Omits M u) :
    Follows M Nowhere s.offset s u (eat k) (eat k) := by
  refine follows_onlyIf_due h (fun hmark => isAt_eq_of_mark h hmark k) (fun hkind => ?_)
    fun hmark _ => follows_take h hmark
  rw [Input.isAt, hkind, beq_eq_false_iff_ne.mpr hk.symm]

theorem follows_forInStmt (hr : r.Follows M r') (h : s.Enters M b u) (hmark : M s.offset = none) :
    Follows M E s.offset s u (forInStmt r) (forInStmt r') := by
  have hwords : Follows M Nowhere s.offset s u (take ++ eat .tryKw ++ eat .awaitKw)
      (take ++ eat .tryKw ++ eat .awaitKw) := by
    refine Follows.append_optional
      ((follows_take h hmark).append fun _ _ => follows_eat_due .tryKw (by decide))
      (fun t hkind => ?_) fun _ _ => follows_eat_due .awaitKw (by decide)
    rw [Input.isAt, hkind]
    rfl
  have hhead := hwords.append_due (E := Anywhere) (fun t => rejects_forPattern hr) fun _ _ =>
    follows_forPattern hr
  exact (((((hhead.append fun _ _ => follows_optionalAscription hr).append fun _ _ =>
    follows_expect .inKw _ (by decide)).append fun _ _ => hr.expression _).append fun _ _ =>
    follows_optionalWhere hr).append fun _ _ => follows_codeBlock hr).node

theorem follows_catchClause (hr : r.Follows M r') (h : s.Enters M b u) (hmark : M s.offset = none) :
    Follows M E s.offset s u (catchClause r) (catchClause r') := by
  refine ((((follows_take h hmark).append fun t v htv => ?_).append fun _ _ =>
    follows_optionalWhere hr).append fun _ _ => follows_codeBlock hr).node
  by_cases hkind : t.kind = .semicolon
  · refine (rejects_onlyIf ?_ (hr.rejects .pattern t nofun hkind)).follows
    rw [Input.isAtAny, hkind]
    rfl
  · refine follows_onlyIf htv ?_ fun _ => hr.pattern htv
    rw [Input.isAtAny, Input.isAtAny, htv.kind_eq (mark_of_kind htv hkind)]

theorem follows_doStmt (hr : r.Follows M r') (h : s.Enters M b u) (hmark : M s.offset = none) :
    Follows M E s.offset s u (doStmt r) (doStmt r') := by
  refine Follows.node (((follows_take h hmark).append fun _ _ => follows_codeBlock hr).append
    fun t v htv => ?_)
  refine follows_repeated htv (fun t v htv _ hstop => ?_) fun t v htv g hturn => .inr ?_
  · split_ifs at hstop with hat
    rw [htv.isAt_eq (k := .catchKw) rfl (by decide), if_neg hat]
  · split_ifs at hturn with hat
    cases hturn
    rw [htv.isAt_eq (k := .catchKw) rfl (by decide), if_pos hat]
    exact ⟨_, rfl, follows_catchClause hr htv (mark_of_isAt htv hat (by decide))⟩

/-- A statement ends in front of a semicolon, and so it does in front of what starts anew. -/
theorem isAtStatementEnd_eq (h : s.Omits M u) : isAtStatementEnd u = isAtStatementEnd s := by
  unfold isAtStatementEnd
  cases hmark : M s.offset with
  | none =>
    rw [Input.isAtAny, Input.isAtAny, h.kind_eq hmark]
    by_cases hend : s.kind = .endOfFile
    · rw [hend]
      simp
    · rw [h.isAfterNewline_eq hmark hend]
  | some next =>
    rw [Input.isAtAny, Input.isAtAny, h.kind_of_mark hmark]
    rcases h.isAfterNewline_of_mark hmark with hend | hnewline
    · rw [hend]
      simp
    · rw [hnewline]
      simp

theorem isAtDecl_of_kind (hkind : s.kind = .semicolon) : isAtDecl s = false := by
  unfold isAtDecl
  cases hpending : s.pending with
  | nil => rfl
  | cons a rest =>
    have ha : a.kind = .semicolon := by
      unfold Input.kind Input.kindAt Input.nth at hkind
      rwa [hpending] at hkind
    simp only [List.length_cons, startsDecl, startsWithModifier, headKind, ha]
    rfl

theorem rejects_statement (hr : r.Follows M r') (hkind : s.kind = .semicolon) :
    (statement r).Rejects s := by
  refine rejects_peek ?_
  rw [isAtDecl_of_kind hkind, isAtConditionalCompilation, Input.isAt, hkind]
  exact hr.expression_rejects _ hkind

theorem follows_statement (hr : r.Follows M r') (h : s.Enters M b u) :
    FollowsToEnd M s.offset s u (statement r) (statement r') := by
  by_cases hkind : s.kind = .semicolon
  · exact (rejects_statement hr hkind).follows.toEnd
  have hmark := mark_of_kind h hkind
  have htake : Follows M Anywhere s.offset s u take take := follows_take h hmark
  refine followsToEnd_peek ?_
  rw [h.isAtDecl_eq hmark, isAtConditionalCompilation_eq h hmark, h.kind_eq hmark]
  split
  · exact follows_declaration hr h
  refine Follows.toEnd ?_
  generalize s.kind = k
  split
  · exact follows_guardStmt hr h hmark
  · exact follows_whileStmt hr h hmark
  · exact follows_repeatStmt hr h hmark
  · exact follows_forInStmt hr h hmark
  · exact follows_doStmt hr h hmark
  · exact (htake.append fun _ _ => follows_codeBlock hr).node
  · refine (htake.append fun t v htv => ?_).node
    refine follows_onlyIf htv ?_ fun _ => hr.expression _ htv
    rw [isAtStatementEnd_eq htv]
  · exact (htake.append fun _ _ => hr.expression _).node
  · exact follows_jump h hmark
  · exact follows_jump h hmark
  · exact (follows_take h hmark).node
  · exact .test rfl (fun _ => rejects_conditionalCompilation.follows) fun _ => hr.expression _ h

/-! ### Items -/

theorem rejects_codeBlockItem (hr : r.Follows M r') (hkind : s.kind = .semicolon) :
    (SwiftTidy.Grammar.codeBlockItem r).Rejects s :=
  (rejects_statement hr hkind).append.node

/-- A semicolon is read where it is, and not at all where it is left out. -/
theorem followsLoosely_semicolon (h : s.Omits M u) :
    FollowsLoosely M E s.offset s u (eat .semicolon) (eat .semicolon) := by
  cases hmark : M s.offset with
  | none =>
    refine (follows_onlyIf h (isAt_eq_of_mark h hmark _) fun _ => ?_).loosely
    exact follows_take h hmark
  | some next =>
    obtain ⟨hbehind, -, -, -⟩ := h.behind_of_mark hmark
    have hkind := h.kind_of_mark hmark
    have hnext : u.isAt .semicolon = false := by
      rw [Input.isAt, h.kind_of_mark' hmark, beq_eq_false_iff_ne]
      rintro rfl
      exact absurd (h.goesOn_of_mark hmark) (by decide)
    intro es t hrun _ _
    unfold eat whenAt at hrun
    rw [run_onlyIf_of_test (by rw [Input.isAt, hkind]; rfl)] at hrun
    obtain ⟨a, rest, hs, rfl, rfl⟩ := run_take hrun
    rw [Input.behind_eq hs] at hbehind
    unfold Yields eat whenAt
    rw [run_onlyIf_eq hnext]
    refine ⟨hbehind, by rw [fullLenAll, fullLen, fullLenAll, Nat.add_zero], ?_⟩
    have hmarked : isMarked M s.offset (.token a) = true := by
      rw [isMarked, hmark]
      rfl
    rw [withoutAll_marked hmarked, withoutAll_nil]

/-- The semicolon behind a statement is left out with its mark. -/
theorem follows_codeBlockItem (hr : r.Follows M r') (hphrases : r.Phrases) (h : s.Enters M b u) :
    Follows M E s.offset s u (SwiftTidy.Grammar.codeBlockItem r)
      (SwiftTidy.Grammar.codeBlockItem r') := by
  intro es t hrun hfits _
  obtain ⟨fs, w, hitem, hemit⟩ := run_capture hrun
  cases hemit
  obtain ⟨gs, semicolon, w, hstatement, heat, rfl⟩ := run_append hitem
  obtain ⟨j, cs, rfl, -, -⟩ := phrase_statement hphrases hstatement
  rw [FitsAll, Fits, fitsAll_append] at hfits
  obtain ⟨⟨hatEnd, hfits, hfits'⟩, -⟩ := hfits
  have hoffset := (assembled_statement hr.assembled).offset_eq hstatement
  rw [fullLenAll, Nat.add_zero, fullLenAll_single] at hoffset
  have hbuilt := follows_statement hr h _ w hstatement hfits fun hkind next hnext e he => ?_
  · refine (Yields.append hbuilt fun es' v hbuilt => ?_).capture fun fs' v hbuilt => hbuilt
    rw [← hbuilt.offset] at hfits'
    refine (followsLoosely_semicolon (E := Anywhere) hbuilt.inputs semicolon t heat hfits'
      endsAt_anywhere).mono fun fs' v' heaten => ?_
    obtain ⟨hinputs, hend, hstripped⟩ := heaten
    refine ⟨hinputs, ?_, rfl, ?_⟩
    · rw [hend, hbuilt.offset, fullLenAll_single (.node .codeBlockItem _), fullLen,
        fullLenAll_append, Nat.add_assoc]
    · rw [hbuilt.offset] at hstripped
      rw [withoutAll_node_cons, withoutAll_nil, strippedAll_cons, strippedAll_cons, stripped_node,
        stripped_node, strippedAll_append, withoutAll_append, strippedAll_append, hstripped,
        hbuilt.elements.stripped]
  · -- the statement and the semicolon make up the item
    obtain rfl := List.mem_singleton.mp he
    unfold eat whenAt at heat
    rw [run_onlyIf_of_test (by rw [Input.isAt, hkind]; rfl)] at heat
    obtain ⟨a, rest, -, rfl, -⟩ := run_take heat
    rw [hoffset] at hnext
    exact hatEnd rfl _ a next rfl hnext

/-! ### Levels -/

theorem follows_unfold (hr : r.Follows M r') (hphrases : r.Phrases) (p : Nonterminal)
    (h : s.Enters M b u) (hp : p = .ifExpr → s.kind = .ifKw) :
    Follows M Anywhere s.offset s u (unfold r p) (unfold r' p) := by
  match p with
  | .type => exact follows_type hr h
  | .expression ρ => exact follows_expression hr ρ h
  | .operand ρ => exact follows_operand hr ρ h
  | .ifExpr => exact follows_ifExpr hr h (mark_of_kind h (by rw [hp rfl]; decide))
  | .pattern => exact follows_pattern hr h
  | .bindingPattern => exact follows_bindingPattern hr h
  | .codeBlockItem => exact follows_codeBlockItem hr hphrases h

theorem rejects_unfold (hr : r.Follows M r') (p : Nonterminal) (hp : p ≠ .ifExpr)
    (hkind : s.kind = .semicolon) : (unfold r p).Rejects s := by
  match p with
  | .type => exact rejects_type hkind
  | .expression ρ => exact rejects_expression hr ρ hkind
  | .operand ρ => exact rejects_operand ρ hkind
  | .ifExpr => exact absurd rfl hp
  | .pattern => exact rejects_pattern hr hkind
  | .bindingPattern => exact rejects_bindingPattern hkind
  | .codeBlockItem => exact rejects_codeBlockItem hr hkind

/-- Levels of any two depths read alike, as far as the depths allow. -/
theorem level_follows (M : Marks) (depth depth' : Nat) :
    (level depth).Follows M (level depth') := by
  induction depth generalizing depth' with
  | zero =>
    exact ⟨assembled_level 0, fun _ _ _ _ _ => (rejects_fail _).follows,
      fun _ _ _ _ => rejects_fail _, fun _ _ _ _ hrun => by cases hrun⟩
  | succ depth ih =>
    refine ⟨assembled_level _, fun p s u h hp => ?_, fun p s hp hkind => ?_,
      fun s es t hbehind hrun => ?_⟩
    · cases depth' with
      | zero => exact fun _ _ _ _ _ => yields_tooDeep
      | succ depth' => exact follows_unfold (ih depth') (phrases_level depth) p h hp
    · exact rejects_unfold (ih depth) p hp hkind
    · exact behind_of_type (ih depth) hbehind hrun

/-! ### Files -/

theorem yields_fileItems (hr : r.Follows M r') {es : List Element} (h : s.Enters M b u)
    (hrun : (fileItems r).run s = .ok (es, t)) (hfits : FitsAll M s.offset es) :
    (fileItems r').Yields u (BuiltAlike M b s.offset es t) := by
  refine yields_repeated h (fun t v htv _ hstop => ?_) (fun t v htv g hturn => ?_) hrun hfits
    endsAt_anywhere
  · split_ifs at hstop with hend
    rw [isAt_eq_of_mark htv (mark_of_isAt htv hend (by decide)), if_pos hend]
  · split_ifs at hturn with hend hbrace
    · cases hturn
      exact .inl (rejects_fail _)
    · cases hturn
      by_cases hkind : t.kind = .semicolon
      · exact .inl (hr.rejects .codeBlockItem t nofun hkind)
      · have hmark := mark_of_kind htv hkind
        refine .inr ⟨_, ?_, hr.codeBlockItem htv⟩
        rw [isAt_eq_of_mark htv hmark, isAt_eq_of_mark htv hmark, if_neg hend, if_neg hbrace]

/-- A file is read without the marked semicolons as it is with them. -/
theorem yields_sourceFile (hr : r.Follows M r') {es : List Element} (h : s.Enters M b u)
    (hrun : (sourceFile r).run s = .ok (es, t)) (hfits : FitsAll M s.offset es) :
    (sourceFile r').Yields u fun es' _ => Element.Omits M s.offset es es' := by
  obtain ⟨items, hitems, rfl⟩ := run_sourceFile hrun
  have hfits := ((fitsAll_append _ _).mp hfits.of_node).1
  refine Yields.capture (Yields.append (yields_fileItems hr h hitems hfits) fun items' v hbuilt => ?_)
    fun es' v hes => Element.Omits.node hes
  have hnone := run_repeated hitems
  split_ifs at hnone with hend
  have hmark := mark_of_isAt hbuilt.inputs hend (by decide)
  refine hbuilt.elements.append (.of_single ?_ ?_)
  · simp [hbuilt.inputs.kind_endOfFile, hbuilt.inputs.kind_endOfFile', hbuilt.inputs.text_endOfFile]
  · rw [← hbuilt.offset]
    exact isMarked_of_none hmark _

end Grammar

end SwiftTidy
