import SwiftTidy.Proofs.Lint.Fixes
import SwiftTidy.Proofs.Lint.Reports
import SwiftTidy.Proofs.Parse.Lexemes
import SwiftTidy.Rules.VerticalWhitespace

/-!
# Runs of empty lines

The lines that are dropped in front of a token start in its leading trivia (`bounds_of_mem_excesses`),
so what is changed is never in a disabled region as a whole when one of the runs is not suppressed.
So all runs that are found are shortened.
-/

namespace SwiftTidy

namespace VerticalWhitespace

/-- Every line starts within the trivia, in front of its line break. -/
theorem bounds_of_mem_lineRuns {low index offset first start : Nat} {lines run : List Line}
    {ps : Trivia} {l : Line} (hps : ps.IsCut) (hlow : low ≤ start) (hstart : start ≤ offset)
    (hlines : ∀ l ∈ lines, low ≤ l.start ∧ l.start < offset + ps.len)
    (hrun : run ∈ lineRuns index offset first start lines ps) (hl : l ∈ run) :
    low ≤ l.start ∧ l.start < offset + ps.len := by
  induction ps generalizing index offset first start lines with
  | nil =>
    rw [lineRuns, List.mem_singleton] at hrun
    exact hlines l (hrun ▸ hl)
  | cons p ps ih =>
    obtain ⟨hp, hps⟩ := List.forall_mem_cons.mp hps
    have hpos := TriviaPiece.len_pos hp
    rw [Trivia.len_cons, ← Nat.add_assoc] at hlines ⊢
    rw [lineRuns] at hrun
    split_ifs at hrun with hnewline hcomment
    · refine ih hps (by omega) (Nat.le_refl _) ?_ hrun
      rw [List.forall_mem_append, List.forall_mem_singleton]
      exact ⟨hlines, hlow, by dsimp only; omega⟩
    · rw [List.mem_cons] at hrun
      rcases hrun with rfl | hrun
      · exact hlines l hl
      · exact ih hps hlow (by omega) (by simp) hrun
    · exact ih hps hlow (by omega) hlines hrun

/-- An excess is reported where one of its lines starts. -/
theorem exists_line_of_excess? {limit : Nat} {run : List Line} {e : Excess}
    (h : excess? limit run = some e) : ∃ l ∈ run, l.start = e.position := by
  rw [excess?, Option.ite_none_right_eq_some] at h
  obtain ⟨l, hl, rfl⟩ := Option.map_eq_some_iff.mp h.2
  exact ⟨l, List.mem_of_getLast? hl, rfl⟩

/-- The lines of an empty run are lines in front of the token. -/
theorem exists_mem_lineRuns {offset : Nat} {leading : Trivia} {run : List Line} {l : Line}
    (hrun : run ∈ emptyRuns offset leading) (hl : l ∈ run) :
    ∃ run' ∈ lineRuns 0 offset 0 offset [] leading, l ∈ run' := by
  rw [emptyRuns] at hrun
  split at hrun
  · cases hrun
  · next first rest heq =>
    rw [heq]
    rw [List.mem_cons, List.mem_map] at hrun
    rcases hrun with rfl | ⟨run', hrun', rfl⟩
    · refine ⟨first, List.mem_cons_self, ?_⟩
      split_ifs at hl
      · exact hl
      · exact List.mem_of_mem_drop hl
    · exact ⟨run', List.mem_cons_of_mem _ hrun', List.mem_of_mem_drop hl⟩

/-- An excess is reported in the trivia in front of its token. -/
theorem bounds_of_mem_excesses {limit : Nat} {c : Cursor} {e : Excess}
    (hcut : c.leadingTrivia.IsCut) (he : e ∈ excesses limit c) :
    c.offset ≤ e.position ∧ e.position < c.offset + c.leadingTrivia.len := by
  rw [excesses, List.mem_filterMap] at he
  obtain ⟨run, hrun, hexcess⟩ := he
  obtain ⟨l, hl, hposition⟩ := exists_line_of_excess? hexcess
  obtain ⟨run', hrun', hl'⟩ := exists_mem_lineRuns hrun hl
  rw [← hposition]
  exact bounds_of_mem_lineRuns hcut (Nat.le_refl _) (Nat.le_refl _) (by simp) hrun' hl'

/-- What is recorded at a token: the runs in front of it where the rule is not disabled. -/
def recordedAt (limit : Nat) (disabled : DisabledRegions) (c : Cursor) : List Nat :=
  ((excesses limit c).map (·.position)).filter (!disabled.isSuppressed ·)

/-- Whether a run of empty lines is too long, and the rule is not disabled where this is reported. -/
def isShortened (limit : Nat) (disabled : DisabledRegions) (run : List Line) : Bool :=
  (excess? limit run).any (!disabled.isSuppressed ·.position)

/-- The lines of a run that are dropped. -/
def droppedOf (limit : Nat) (disabled : DisabledRegions) (run : List Line) : List Line :=
  if isShortened limit disabled run then run.take (run.length - limit) else []

/-- What is left of the trivia in front of a token at byte `offset`. -/
def shortened (limit : Nat) (disabled : DisabledRegions) (offset : Nat) (leading : Trivia) : Trivia :=
  dropLines ((emptyRuns offset leading).flatMap (droppedOf limit disabled)) 0 leading

theorem dropLines_nil (index : Nat) (ps : Trivia) : dropLines [] index ps = ps := by
  induction ps generalizing index with
  | nil => rfl
  | cons p ps ih =>
    rw [dropLines, if_neg (by simp), ih]

theorem dropLines_sublist (D : List Line) (index : Nat) (ps : Trivia) :
    (dropLines D index ps).Sublist ps := by
  induction ps generalizing index with
  | nil => exact .slnil
  | cons p ps ih =>
    rw [dropLines]
    split_ifs
    · exact (ih (index + 1)).cons p
    · exact (ih (index + 1)).cons_cons p

/-- The lines that are too many in the runs where the rule is not disabled are dropped. -/
theorem flatMap_surplus (limit : Nat) (disabled : DisabledRegions) (runs : List (List Line)) :
    ((runs.filterMap (excess? limit)).filter (!disabled.isSuppressed ·.position)).flatMap (·.surplus) =
      runs.flatMap (droppedOf limit disabled) := by
  induction runs with
  | nil => rfl
  | cons run runs ih =>
    rw [List.flatMap_cons, ← ih, droppedOf, isShortened]
    cases hexcess : excess? limit run with
    | none => rw [List.filterMap_cons_none hexcess, Option.any_none, if_neg (by simp), List.nil_append]
    | some e =>
      have hsurplus : e.surplus = run.take (run.length - limit) := by
        rw [excess?, Option.ite_none_right_eq_some] at hexcess
        obtain ⟨l, -, rfl⟩ := Option.map_eq_some_iff.mp hexcess.2
        rfl
      rw [List.filterMap_cons_some hexcess, List.filter_cons, Option.any_some]
      split_ifs
      · rw [List.flatMap_cons, hsurplus]
      · rw [List.nil_append]

/-- All runs in front of a token are shortened, unless the rule is disabled. -/
theorem accept_fix? {limit : Nat} {disabled : DisabledRegions} {c : Cursor} {t : Token}
    (hdisabled : disabled.IsSeparated) (hc : c.element = .token t) (ht : t.leading.IsCut)
    (hleading : c.leadingTrivia = t.leading) :
    Fixer.accept disabled c (.token t) (fix? limit disabled c) =
      (.token { t with leading := shortened limit disabled c.offset t.leading },
        recordedAt limit disabled c) := by
  have htoken : c.token? = some t := by rw [Cursor.token?, hc]; rfl
  have hrecorded : recordedAt limit disabled c =
      ((excesses limit c).filter (!disabled.isSuppressed ·.position)).map (·.position) := by
    rw [recordedAt, List.filter_map]
    rfl
  have hshortened : shortened limit disabled c.offset t.leading =
      dropLines (((excesses limit c).filter (!disabled.isSuppressed ·.position)).flatMap (·.surplus)) 0
        t.leading := by
    rw [shortened, excesses, flatMap_surplus, hleading]
  rw [hrecorded, hshortened]
  cases hfilter : (excesses limit c).filter (!disabled.isSuppressed ·.position) with
  | nil =>
    have hnone : fix? limit disabled c = none := by
      simp only [fix?, htoken, hfilter, bind, Option.bind]
    rw [hnone, List.flatMap_nil, dropLines_nil]
    rfl
  | cons run runs =>
    have hmem : ∀ e ∈ run :: runs,
        e ∈ excesses limit c ∧ disabled.isSuppressed e.position = false := by
      intro e he
      rwa [← hfilter, List.mem_filter, Bool.not_eq_true'] at he
    have hsome : fix? limit disabled c =
        some ⟨.token { t with leading := dropLines ((run :: runs).flatMap (·.surplus)) 0 t.leading },
          run.position, runs.map (·.position), some c.fullRange⟩ := by
      simp only [fix?, htoken, hfilter, bind, Option.bind]
      rfl
    rw [hsome, Fixer.accept, if_pos]
    · rfl
    · refine Fix.isAllowed_of_forall hdisabled ?_ ⟨run.position, List.mem_cons_self, ?_⟩
      · intro p hp
        obtain ⟨e, he, rfl⟩ : ∃ e ∈ run :: runs, e.position = p := List.mem_map.mp hp
        exact (hmem e he).2
      · -- the run starts in front of the token, so within its full range
        obtain ⟨hfrom, hto⟩ := bounds_of_mem_excesses (hleading ▸ ht) (hmem run List.mem_cons_self).1
        have hend : c.offset + c.leadingTrivia.len ≤ c.fullEnd := by
          rw [Cursor.fullEnd, hc, Element.fullLen, Token.fullLen, hleading]
          omega
        show (decide (c.offset ≤ run.position) && decide (run.position < c.fullEnd)) = true
        rw [Bool.and_eq_true, decide_eq_true_eq, decide_eq_true_eq]
        omega

/-- Every token of a tree is cut off, with the trivia in front of it. -/
theorem leading_of_mem_descendants {source : String} {tree : Element} {c : Cursor} {t : Token}
    (hparse : parse source = .ok tree) (hc : c ∈ (Cursor.root tree).descendants)
    (ht : c.element = .token t) : t.leading.IsCut ∧ c.leadingTrivia = t.leading := by
  have hkinded := ht ▸ wellKinded_of_mem_descendants hparse hc
  have htoken : c.isToken = true := by
    rw [Cursor.isToken, Cursor.kind, ht]
    exact (Element.wellKinded_token t).mp hkinded
  obtain ⟨u, hu, hleaf⟩ := Cursor.exists_token_of_mem_tokensOf (wellKinded_parse hparse)
    (c := .root tree) rfl (List.mem_filter.mpr ⟨hc, htoken⟩)
  obtain rfl : t = u := Element.token.inj (ht.symm.trans hu)
  exact ⟨(trivia_isCut_of_mem_leaves hparse hleaf).1, Cursor.leadingTrivia_token hkinded ht⟩

theorem behaves_fixer {source : String} {tree : Element} {disabled : DisabledRegions} (limit : Nat)
    (hparse : parse source = .ok tree) (hdisabled : disabled.IsSeparated) {c : Cursor}
    (hc : c ∈ (Cursor.root tree).descendants) :
    Fixer.Behaves { token := fun c _ => .ok (fix? limit disabled c, ()) } disabled
      (fun _ _ => True) (recordedAt limit disabled) (fun _ => []) c where
  token t ht := by
    obtain ⟨hcut, hleading⟩ := leading_of_mem_descendants hparse hc ht
    exact ⟨_, rfl, congrArg Prod.snd (accept_fix? hdisabled ht hcut hleading), trivial⟩
  visit k es _ := rfl
  node k es es' _ _ := ⟨none, rfl, rfl, trivial⟩

/-- The rule about empty lines corrects all that it finds. -/
theorem rule_correctsAll {source : String} {ctx : Context}
    (h : SourceUnit.ofText source = .ok ctx.unit) (o : Options) : (rule o).CorrectsAll ctx := by
  have hparse := SourceUnit.parse_of_ofText h
  obtain ⟨fixed, hrun⟩ := Fixer.run_eq fun c hc => behaves_fixer o.maxEmptyLines hparse
    (SourceUnit.disabledRegions_isSeparated h description) hc
  rw [Fixer.recordedOf_tokens _ _ _ (wellKinded_parse hparse) rfl] at hrun
  refine ⟨_, _, rfl, congrArg some hrun, ?_⟩
  dsimp only
  congr 1
  rw [Rule.unsuppressed, List.map_flatMap, List.filter_flatMap]
  refine List.flatMap_congr fun c _ => ?_
  rw [recordedAt, List.map_map]
  rfl

end VerticalWhitespace

end SwiftTidy
