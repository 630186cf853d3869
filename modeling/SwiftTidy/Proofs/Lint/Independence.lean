import SwiftTidy.Proofs.Lint.Reports
import SwiftTidy.Rules.LineLength
import SwiftTidy.Rules.TrailingSemicolon
import SwiftTidy.Rules.UnusedImport

/-!
# Rules do not influence each other

Of a report nothing is open but its order, and that is fixed by the positions and the names of rules
(`Diagnostic.sortsTo_iff`): diagnostics of one position and one rule stand as they were found.  Under
one name only one rule reports, so these do not depend on the rules around it (`filter_isAt_found`).

`analyze_independent` puts this together: the report of a source is the same whatever the order of the
rules; it is made up of the reports of any two parts of them; and under the name of a rule stands what
the rule reports by itself.  The rule about directives without effect is left out, because it looks at
what the others found.
-/

namespace SwiftTidy

/-! ### What sorting makes of diagnostics -/

namespace Diagnostic

/-- Whether a diagnostic is one of a rule at a position. -/
def isAt (position : Nat) (rule : String) (d : Diagnostic) : Bool :=
  d.position == position && d.rule == rule

/-- Diagnostics sorted stably: by position and then by rule, and those of one rule at one position in
the order they had. -/
structure SortsTo (ds sorted : List Diagnostic) : Prop where
  ordered : sorted.Pairwise fun a b => a.before b = true
  stable : ∀ position rule, sorted.filter (isAt position rule) = ds.filter (isAt position rule)

/-- Neither of two diagnostics has to stand in front of the other when their position and their rule
are the same. -/
theorem tied_before (a : Diagnostic) : StableSort.tied before a = isAt a.position a.rule := by
  funext b
  rw [Bool.eq_iff_iff, StableSort.tied, Bool.and_eq_true, before_iff, before_iff, isAt,
    Bool.and_eq_true, beq_iff_eq, beq_iff_eq]
  constructor
  · rintro ⟨hab, hba⟩
    have hposition : b.position = a.position := by omega
    have hle : a.rule ≤ b.rule := (hab.resolve_left (by omega)).2
    have hge : b.rule ≤ a.rule := (hba.resolve_left (by omega)).2
    exact ⟨hposition, le_antisymm hge hle⟩
  · rintro ⟨hposition, hrule⟩
    exact ⟨.inr ⟨hposition.symm, hrule.ge⟩, .inr ⟨hposition, hrule.le⟩⟩

/-- Reports are sorted stably, and there is only one way to do it. -/
theorem sortsTo_iff {ds sorted : List Diagnostic} : SortsTo ds sorted ↔ Diagnostic.sort ds = sorted := by
  rw [Diagnostic.sort, StableSort.mergeSort_eq_iff before_trans before_total]
  constructor
  · rintro ⟨hordered, hstable⟩
    refine ⟨hordered, fun a => ?_⟩
    rw [tied_before, hstable]
  · rintro ⟨hordered, hstable⟩
    refine ⟨hordered, fun position rule => ?_⟩
    have htied := hstable ⟨rule, .warning, position, ""⟩
    rwa [tied_before] at htied

/-- Parts of a report can be sorted before they are put together. -/
theorem sort_append_sort (ds es : List Diagnostic) :
    Diagnostic.sort (Diagnostic.sort ds ++ Diagnostic.sort es) = Diagnostic.sort (ds ++ es) := by
  have hds := sortsTo_iff.mpr (rfl : Diagnostic.sort ds = _)
  have hes := sortsTo_iff.mpr (rfl : Diagnostic.sort es = _)
  have happend := sortsTo_iff.mpr (rfl : Diagnostic.sort (ds ++ es) = _)
  apply sortsTo_iff.mp
  refine ⟨happend.ordered, fun position rule => ?_⟩
  rw [happend.stable, List.filter_append, List.filter_append, hds.stable, hes.stable]

end Diagnostic

/-! ### Reports of several rules -/

namespace Linter

variable {l m : Linter} {u : SourceUnit} {rs ss : List Rule}

/-- What a rule has to report of a source, in the order in which it is found. -/
def found (l : Linter) (u : SourceUnit) (r : Rule) : List Diagnostic :=
  diagnostics u r (l.violations u r)

/-- What a rule finds depends on nothing of the linter but what is known about modules. -/
theorem found_congr (h : m.isModuleUsed = l.isModuleUsed) : m.found u = l.found u := by
  funext r
  rw [found, found, violations, violations, context, context, h]

/-- Without the rule about directives a report is all that the rules found, sorted. -/
theorem analyze_eq (h : ∀ r ∈ l.rules, isSuperfluousRule r = false) :
    l.analyze u = Diagnostic.sort (l.rules.flatMap (l.found u)) := by
  have hall : l.rules.filter (!isSuperfluousRule ·) = l.rules :=
    List.filter_eq_self.mpr fun r hr => by rw [h r hr]; rfl
  have hnone : l.rules.find? isSuperfluousRule = none :=
    List.find?_eq_none.mpr fun r hr => by simp [h r hr]
  rw [analyze, results, hall, hnone, List.append_nil, List.flatMap_map]
  rfl

/-- What is found of one name at one position is found by the rules of this name. -/
theorem filter_isAt_found (l : Linter) (u : SourceUnit) (rs : List Rule) (position : Nat)
    (name : String) : (rs.flatMap (l.found u)).filter (Diagnostic.isAt position name) =
      ((rs.filter (·.identifier == name)).flatMap (l.found u)).filter (·.position == position) := by
  have hname := filter_flatMap_diagnostics (l := l) (u := u) rs name
  rw [List.flatMap_map] at hname
  have hfound : (rs.flatMap (l.found u)).filter (·.rule == name) =
      (rs.filter (·.identifier == name)).flatMap (l.found u) := hname
  rw [← hfound, List.filter_filter]
  rfl

/-- In another order the rules of one name are the same, if there is at most one. -/
theorem filter_identifier_perm (hperm : rs.Perm ss) (hids : (ss.map (·.identifier)).Nodup)
    (name : String) : rs.filter (·.identifier == name) = ss.filter (·.identifier == name) := by
  have hpairwise : ∀ ts : List Rule, (ts.map (·.identifier)).Nodup →
      (ts.filter (·.identifier == name)).Pairwise fun r s => r.identifier ≠ s.identifier := by
    intro ts hts
    rw [List.nodup_iff_pairwise_ne, List.pairwise_map] at hts
    exact hts.filter _
  have hrs : (rs.map (·.identifier)).Nodup := (hperm.map _).nodup_iff.mpr hids
  -- two rules of the name would contradict that no identifier occurs twice
  refine (hperm.filter _).eq_of_pairwise (fun r s hr hs hne => ?_) (hpairwise rs hrs) (hpairwise ss hids)
  have hr := beq_iff_eq.mp (List.mem_filter.mp hr).2
  have hs := beq_iff_eq.mp (List.mem_filter.mp hs).2
  exact absurd (hr.trans hs.symm) hne

/-- The rule of a name is the only one. -/
theorem filter_identifier_self {r : Rule} (hids : (rs.map (·.identifier)).Nodup) (hr : r ∈ rs) :
    rs.filter (·.identifier == r.identifier) = [r] := by
  obtain ⟨front, back, rfl⟩ := List.append_of_mem hr
  have hperm : (front ++ r :: back).Perm (r :: (front ++ back)) := List.perm_middle
  have hnodup := (hperm.map (·.identifier)).nodup_iff.mp hids
  rw [filter_identifier_perm hperm hnodup, List.filter_cons_of_pos (by simp),
    List.filter_eq_nil_iff.mpr]
  intro s hs hname
  rw [List.map_cons, List.nodup_cons] at hnodup
  exact hnodup.1 (List.mem_map.mpr ⟨s, hs, beq_iff_eq.mp hname⟩)

/-- What rules found is sorted to the same report in whatever order they were run. -/
theorem sort_found_perm (hperm : rs.Perm ss) (hids : (ss.map (·.identifier)).Nodup) :
    Diagnostic.sort (rs.flatMap (l.found u)) = Diagnostic.sort (ss.flatMap (l.found u)) := by
  have hsorted := Diagnostic.sortsTo_iff.mpr (rfl : Diagnostic.sort (ss.flatMap (l.found u)) = _)
  apply Diagnostic.sortsTo_iff.mp
  refine ⟨hsorted.ordered, fun position name => ?_⟩
  rw [hsorted.stable, filter_isAt_found, filter_isAt_found, filter_identifier_perm hperm hids]

/-- **Rules do not influence each other**: where no two rules have the same name, and none is the one
about directives without effect, the report of a source is the same in whatever order the rules are
run; it is what sorting makes of the reports of two linters between which the rules are split; and
what it says under the name of a rule is what this rule reports when it is run alone. -/
theorem analyze_independent (hids : (l.rules.map (·.identifier)).Nodup)
    (hplain : ∀ r ∈ l.rules, isSuperfluousRule r = false) :
    (∀ m : Linter, m.rules.Perm l.rules → m.isModuleUsed = l.isModuleUsed →
      m.analyze u = l.analyze u) ∧
    (∀ m n : Linter, (m.rules ++ n.rules).Perm l.rules → m.isModuleUsed = l.isModuleUsed →
      n.isModuleUsed = l.isModuleUsed →
      Diagnostic.SortsTo (m.analyze u ++ n.analyze u) (l.analyze u)) ∧
    (∀ r ∈ l.rules, ∀ m : Linter, m.rules = [r] → m.isModuleUsed = l.isModuleUsed →
      (l.analyze u).filter (·.rule == r.identifier) = m.analyze u) := by
  have hreport := analyze_eq (u := u) hplain
  refine ⟨?order, ?split, ?alone⟩
  case order =>
    intro m hperm hused
    have hm := analyze_eq (l := m) (u := u) fun r hr => hplain r (hperm.mem_iff.mp hr)
    rw [hm, hreport, found_congr hused, sort_found_perm hperm hids]
  case split =>
    intro m n hperm hm hn
    have hmem : ∀ r ∈ m.rules ++ n.rules, isSuperfluousRule r = false :=
      fun r hr => hplain r (hperm.mem_iff.mp hr)
    rw [List.forall_mem_append] at hmem
    rw [Diagnostic.sortsTo_iff, analyze_eq hmem.1, analyze_eq hmem.2, Diagnostic.sort_append_sort,
      found_congr hm, found_congr hn, ← List.flatMap_append, hreport]
    exact sort_found_perm hperm hids
  case alone =>
    intro r hr m hrules hused
    have hm := analyze_eq (l := m) (u := u) (by simpa [hrules] using hplain r hr)
    have hname := filter_flatMap_diagnostics (l := l) (u := u) l.rules r.identifier
    rw [List.flatMap_map, filter_identifier_self hids hr, List.flatMap_singleton] at hname
    rw [hm, hreport, hrules, found_congr hused, List.flatMap_singleton, Diagnostic.sort,
      StableSort.filter_mergeSort Diagnostic.before_trans Diagnostic.before_total]
    exact congrArg Diagnostic.sort hname

/-- Three rules, of which two report at the start of a file with a needless import. -/
def importRules : List Rule :=
  [UnusedImport.rule .warning, TrailingSemicolon.rule .warning, LineLength.rule { length := ⟨8, none⟩ }]

/-- A linter that runs rules where no module is needed. -/
def withoutModules (rules : List Rule) : Linter :=
  { ofRules rules with isModuleUsed := fun _ => some false }

/-- One violation alone is in order. -/
theorem found_eq {r : Rule} {vs : List Violation} (hfind : r.find (l.context u) = .ok vs)
    (hlength : vs.length ≤ 1) : l.found u r = diagnostics u r vs := by
  have hsort : Violation.sort vs = vs := by
    apply List.mergeSort_of_pairwise
    match vs, hlength with
    | [], _ => exact .nil
    | [v], _ => exact List.pairwise_singleton ..
  rw [found, violations, Rule.validate, hfind]
  exact congrArg (diagnostics u r) hsort

/-- What two linters report of one line is put together in the order of the names of rules. -/
theorem analyze_independent_import : ∃ u, SourceUnit.ofText "import A;\n" = .ok u ∧
    (importRules.map (·.identifier)).Nodup ∧ (∀ r ∈ importRules, isSuperfluousRule r = false) ∧
    (withoutModules importRules.reverse).analyze u = (withoutModules importRules).analyze u ∧
    Diagnostic.SortsTo
      ((withoutModules (importRules.take 2)).analyze u ++ (withoutModules (importRules.drop 2)).analyze u)
      ((withoutModules importRules).analyze u) ∧
    ((withoutModules importRules).analyze u).map (fun d => (d.position, d.rule)) =
      [(0, "line_length"), (0, "unused_import"), (8, "trailing_semicolon")] := by
  have hids : (importRules.map (·.identifier)).Nodup := by decide
  have hplain : ∀ r ∈ importRules, isSuperfluousRule r = false := by decide
  have hmap : (SourceUnit.ofText "import A;\n").toOption.map (fun u => importRules.map fun r =>
      (r.find ((withoutModules importRules).context u)).toOption.map fun vs =>
        (decide (vs.length ≤ 1), (diagnostics u r vs).map fun d => (d.position, d.rule))) =
      some [some (true, [(0, "unused_import")]), some (true, [(8, "trailing_semicolon")]),
        some (true, [(0, "line_length")])] := by
    decide +kernel
  obtain ⟨u, hu, hrules⟩ := Option.map_eq_some_iff.mp hmap
  obtain ⟨horder, hsplit, -⟩ := analyze_independent (l := withoutModules importRules) (u := u) hids hplain
  refine ⟨u, Except.toOption_eq_some.mp hu, hids, hplain, ?_, ?_, ?_⟩
  · exact horder _ importRules.reverse_perm rfl
  · exact hsplit _ _ (List.Perm.of_eq (List.take_append_drop 2 importRules)) rfl rfl
  · simp only [importRules, List.map_cons, List.map_nil, List.cons.injEq, and_true,
      Option.map_eq_some_iff, Except.toOption_eq_some, Prod.mk.injEq, decide_eq_true_eq] at hrules
    obtain ⟨⟨vs, hvs, hone, himport⟩, ⟨ws, hws, htwo, hsemicolon⟩, xs, hxs, hthree, hline⟩ := hrules
    have hfound : (importRules.flatMap ((withoutModules importRules).found u)).map
        (fun d => (d.position, d.rule)) =
          [(0, "unused_import"), (8, "trailing_semicolon"), (0, "line_length")] := by
      simp only [importRules, List.flatMap_cons, List.flatMap_nil, List.append_nil, List.map_append]
      rw [found_eq hvs hone, found_eq hws htwo, found_eq hxs hthree, himport, hsemicolon, hline]
      rfl
    have hsort := List.map_mergeSort (r := Diagnostic.before)
      (s := fun a b => a.1 < b.1 || (a.1 == b.1 && a.2 ≤ b.2)) (f := fun d => (d.position, d.rule))
      (l := importRules.flatMap ((withoutModules importRules).found u)) fun _ _ _ _ => rfl
    rw [hfound] at hsort
    rw [analyze_eq hplain]
    exact hsort.trans (by simp [List.mergeSort, List.MergeSort.Internal.splitInTwo])

end Linter

end SwiftTidy
