import Mathlib.Data.List.Forall2
import Mathlib.Order.Bounds.Defs
import SwiftTidy.Proofs.Lint.Registrations

/-!
# Which rules run, and with which options

Settings name rules in four places, by any of their names, more than once and against each other.
`Chooses` says which rules are meant, without the lists: those that run (`Runs`), in increasing order
of their current names, each with the options that stand under the greatest of its names (`OptionsOf`).

`activeRules_spec` says that this is what happens.  Every name is resolved first, so the first unknown
one decides the answer, wherever it stands (`selection_eq_error`).  From then on only current names
count: a list of names stands for the rules that one of its names resolves to (`Names`), which is why
another name of the same rule makes no difference.
-/

namespace SwiftTidy

/-- The names by which settings call rules, in the order in which they are resolved. -/
def Settings.ruleNames (s : Settings) : List String :=
  s.disabledRules ++ s.optInRules ++ s.onlyRules.getD [] ++ s.rules.entries.map (·.1)

namespace Registry

/-- One of the names is that of the rule with the current name `id`. -/
def Names (r : Registry) (names : List String) (id : String) : Prop :=
  ∃ name ∈ names, r.resolve? name = some id

/-- A rule runs if the settings ask for it alone; where they ask for none alone, if it is a common one
or one that is asked for, and not disabled. -/
def Runs (r : Registry) (s : Settings) (e : RuleEntry) : Prop :=
  match s.onlyRules with
  | some only => r.Names only e.identifier
  | none =>
    (e.description.optIn = false ∨ r.Names s.optInRules e.identifier) ∧
      ¬ r.Names s.disabledRules e.identifier

/-- The options of the rule with the current name `id`: what the settings have under the greatest of its
names, if they have any of them. -/
inductive OptionsOf (r : Registry) (s : Settings) (id : String) : Option Toml → Prop
  | unset (h : ¬ r.Names (s.rules.entries.map (·.1)) id) : OptionsOf r s id none
  | set {name : String} {v : Toml} (hmem : (name, v) ∈ s.rules.entries)
      (hgreatest : IsGreatest {n | n ∈ s.rules.entries.map (·.1) ∧ r.resolve? n = some id} name) :
      OptionsOf r s id (some v)

/-- The rules of `es` that run under some settings, with their options. -/
structure Chooses (r : Registry) (es : List RuleEntry) (s : Settings)
    (chosen : List (RuleEntry × Option Toml)) : Prop where
  ascending : chosen.Pairwise fun p q => p.1.identifier < q.1.identifier
  mem_iff : ∀ e, (∃ options, (e, options) ∈ chosen) ↔ e ∈ es ∧ r.Runs s e
  options : ∀ p ∈ chosen, r.OptionsOf s p.1.identifier p.2

/-- Two names of one rule; an unknown name goes with itself alone. -/
def SameRule (r : Registry) (a b : String) : Prop :=
  a = b ∨ ∃ id, r.resolve? a = some id ∧ r.resolve? b = some id

/-- The settings differ in the names by which their lists call rules. -/
structure Renamed (r : Registry) (s t : Settings) : Prop where
  disabled : List.Forall₂ r.SameRule s.disabledRules t.disabledRules
  optIn : List.Forall₂ r.SameRule s.optInRules t.optInRules
  only : Option.Rel (List.Forall₂ r.SameRule) s.onlyRules t.onlyRules
  rules : s.rules = t.rules

variable {r : Registry} {es : List RuleEntry} {s t : Settings} {e : RuleEntry} {name id : String}

/-! ### Resolving lists of names -/

theorem any_eq_false_iff {α : Type} {options : List (String × α)} :
    options.any (·.1 == id) = false ↔ options.lookup id = none := by
  rw [List.any_eq_false, List.lookup_eq_none_iff]
  refine forall₂_congr fun p _ => ?_
  rw [beq_iff_eq, bne_iff_ne]
  exact ne_comm

section Resolving

variable {names : List String} {ps : List (String × Toml)}

theorem contains_iff : r.contains name = true ↔ ∃ id, r.resolve? name = some id :=
  Option.isSome_iff_exists

theorem resolve_eq_error (h : r.contains name = false) : r.resolve name = .error (.unknownRule name) := by
  rw [contains, Option.isSome_eq_false_iff, Option.isNone_iff_eq_none] at h
  rw [resolve, h]

theorem mapM_resolve_eq_ok (h : ∀ name ∈ names, r.contains name = true) :
    names.mapM r.resolve = .ok (names.filterMap r.resolve?) := by
  induction names with
  | nil => rfl
  | cons name names ih =>
    rw [List.forall_mem_cons] at h
    obtain ⟨id, hid⟩ := contains_iff.mp h.1
    rw [List.mapM_cons, resolve_eq_ok_iff.mpr hid, ih h.2, List.filterMap_cons_some hid]
    rfl

/-- The first name that is not known decides. -/
theorem mapM_resolve_eq_error (h : names.find? (!r.contains ·) = some name) :
    names.mapM r.resolve = .error (.unknownRule name) := by
  induction names with
  | nil => cases h
  | cons first names ih =>
    rw [List.mapM_cons]
    rw [List.find?_cons] at h
    cases hfirst : r.contains first with
    | false =>
      rw [hfirst] at h
      obtain rfl : first = name := Option.some.inj h
      rw [resolve_eq_error hfirst]
      rfl
    | true =>
      rw [hfirst] at h
      obtain ⟨id, hid⟩ := contains_iff.mp hfirst
      rw [resolve_eq_ok_iff.mpr hid, ih h]
      rfl

theorem resolveOptions_eq_error {error : ConfigError}
    (h : (ps.map (·.1)).mapM r.resolve = .error error) : r.resolveOptions ps = .error error := by
  induction ps with
  | nil => cases h
  | cons p ps ih =>
    rw [List.map_cons, List.mapM_cons] at h
    rw [resolveOptions]
    rcases Except.bind_eq_error.mp h with h | ⟨id, hid, h⟩
    · rw [h]
      rfl
    · rcases Except.bind_eq_error.mp h with h | ⟨ids, -, h⟩
      · rw [hid, ih h]
        rfl
      · cases h

/-- **The options of a rule** are the last ones under a name of it. -/
theorem exists_resolveOptions (h : ∀ name ∈ ps.map (·.1), r.contains name = true) :
    ∃ options, r.resolveOptions ps = .ok options ∧ ∀ id,
      options.lookup id = ((ps.filter (r.resolve? ·.1 == some id)).getLast?).map (·.2) := by
  induction ps with
  | nil => exact ⟨[], rfl, fun _ => rfl⟩
  | cons p ps ih =>
    obtain ⟨name, v⟩ := p
    rw [List.map_cons, List.forall_mem_cons] at h
    obtain ⟨own, hown⟩ := contains_iff.mp h.1
    obtain ⟨later, hlater, hlookup⟩ := ih h.2
    refine ⟨if later.any (·.1 == own) then later else (own, v) :: later, ?_, fun id => ?_⟩
    · rw [resolveOptions, resolve_eq_ok_iff.mpr hown, hlater]
      rfl
    -- Options that come later for the same rule are kept, and those of other rules are not touched.
    by_cases hid : id = own
    · subst hid
      rw [List.filter_cons_of_pos (by simpa using hown), List.getLast?_cons, Option.map_some]
      cases hlast : (ps.filter (r.resolve? ·.1 == some id)).getLast? with
      | none =>
        have hnone : later.lookup id = none := by rw [hlookup, hlast, Option.map_none]
        rw [any_eq_false_iff.mpr hnone, if_neg Bool.false_ne_true, List.lookup_cons_self,
          Option.getD_none]
      | some p =>
        have hsome : later.lookup id = some p.2 := by rw [hlookup, hlast, Option.map_some]
        have hany : later.any (·.1 == id) = true := by
          rw [← Bool.not_eq_false, any_eq_false_iff, hsome]
          exact Option.some_ne_none _
        rw [if_pos hany, hsome, Option.getD_some]
    · rw [List.filter_cons_of_neg, ← hlookup]
      · split
        · rfl
        · rw [KeyTable.lookup_cons_eq_ite, if_neg hid]
      · rw [hown, beq_iff_eq, Option.some_inj]
        exact fun h => hid h.symm

end Resolving

/-- The last options under a name of a rule are those under the greatest of its names. -/
theorem optionsOf_getLast? (s : Settings) (id : String) :
    r.OptionsOf s id (((s.rules.entries.filter (r.resolve? ·.1 == some id)).getLast?).map (·.2)) := by
  cases hlast : (s.rules.entries.filter (r.resolve? ·.1 == some id)).getLast? with
  | none =>
    refine .unset ?_
    rintro ⟨name, hname, hid⟩
    obtain ⟨p, hp, rfl⟩ := List.mem_map.mp hname
    exact List.filter_eq_nil_iff.mp (List.getLast?_eq_none_iff.mp hlast) p hp (by simp [hid])
  | some p =>
    obtain ⟨front, hfilter⟩ := List.getLast?_eq_some_iff.mp hlast
    have hof : ∀ q, q ∈ front ++ [p] ↔ q ∈ s.rules.entries ∧ r.resolve? q.1 = some id := by
      intro q
      rw [← hfilter, List.mem_filter, beq_iff_eq]
    obtain ⟨hp, hid⟩ := (hof p).mp (by simp)
    refine .set hp ⟨⟨List.mem_map_of_mem hp, hid⟩, ?_⟩
    rintro name ⟨hname, hnameid⟩
    obtain ⟨q, hq, rfl⟩ := List.mem_map.mp hname
    rcases List.mem_append.mp ((hof q).mpr ⟨hq, hnameid⟩) with hq | hq
    · have hpairs := hfilter ▸ s.rules.ascending.filter fun q : String × Toml => r.resolve? q.1 == some id
      exact ((List.pairwise_append.mp hpairs).2.2 q hq p (List.mem_singleton_self p)).le
    · rw [List.mem_singleton.mp hq]

/-! ### The rules that are selected -/

/-- The current names that are selected are those of the rules that run. -/
theorem Holds.mem_selected (h : r.Holds es) :
    id ∈ r.selected (s.disabledRules.filterMap r.resolve?) (s.optInRules.filterMap r.resolve?)
      (s.onlyRules.map (·.filterMap r.resolve?)) ↔ ∃ e ∈ es, e.identifier = id ∧ r.Runs s e := by
  have hnames : ∀ (names : List String) (id : String),
      id ∈ names.filterMap r.resolve? ↔ r.Names names id := fun _ _ => List.mem_filterMap
  have hrule : ∀ {names : List String} {id : String}, r.Names names id →
      ∃ e ∈ es, e.identifier = id := by
    rintro names id ⟨name, -, hname⟩
    obtain ⟨e, he, hid, -⟩ := h.exists_rule hname
    exact ⟨e, he, hid⟩
  unfold selected Runs
  cases s.onlyRules with
  | some only =>
    show id ∈ sortedSet _ ↔ _
    rw [mem_sortedSet, hnames]
    constructor
    · intro hid
      obtain ⟨e, he, rfl⟩ := hrule hid
      exact ⟨e, he, rfl, hid⟩
    · rintro ⟨e, -, rfl, hid⟩
      exact hid
  | none =>
    show id ∈ sortedSet _ ↔ _
    rw [mem_sortedSet, List.mem_filter, List.mem_append, hnames, Bool.not_eq_true',
      ← Bool.not_eq_true, List.contains_iff_mem, hnames]
    -- the rules that run without being asked for
    have hcommon : id ∈ (r.rules.entries.filter (!·.2.description.optIn)).map (·.1) ↔
        ∃ e ∈ es, e.identifier = id ∧ e.description.optIn = false := by
      constructor
      · intro hid
        obtain ⟨⟨_, e⟩, hmem, rfl⟩ := List.mem_map.mp hid
        obtain ⟨hmem, hopt⟩ := List.mem_filter.mp hmem
        obtain ⟨he, hid⟩ := (h.rule?_iff _ _).mp (KeyTable.mem_entries_iff.mp hmem)
        exact ⟨e, he, hid, by simpa using hopt⟩
      · rintro ⟨e, he, hid, hopt⟩
        have hmem := KeyTable.mem_entries_iff.mpr ((h.rule?_iff id e).mpr ⟨he, hid⟩)
        exact List.mem_map.mpr ⟨(id, e), List.mem_filter.mpr ⟨hmem, by simp [hopt]⟩, rfl⟩
    rw [hcommon]
    constructor
    · rintro ⟨⟨e, he, rfl, hopt⟩ | hid, hdisabled⟩
      · exact ⟨e, he, rfl, .inl hopt, hdisabled⟩
      · obtain ⟨e, he, rfl⟩ := hrule hid
        exact ⟨e, he, rfl, .inr hid, hdisabled⟩
    · rintro ⟨e, he, rfl, hopt | hid, hdisabled⟩
      · exact ⟨.inl ⟨e, he, rfl, hopt⟩, hdisabled⟩
      · exact ⟨.inr hid, hdisabled⟩

/-! ### The selection -/

/-- The first unknown name stands in the first list, or this one has known names only. -/
theorem find?_append_cases {as bs : List String} (h : (as ++ bs).find? (!r.contains ·) = some name) :
    as.find? (!r.contains ·) = some name ∨
      (∀ a ∈ as, r.contains a = true) ∧ bs.find? (!r.contains ·) = some name := by
  rw [List.find?_append, Option.or_eq_some_iff] at h
  refine h.imp_right fun ⟨hnone, h⟩ => ⟨fun a ha => ?_, h⟩
  simpa using List.find?_eq_none.mp hnone a ha

theorem mapM_onlyRules_eq_error (h : (s.onlyRules.getD []).find? (!r.contains ·) = some name) :
    (s.onlyRules.mapM fun names => names.mapM r.resolve) = .error (.unknownRule name) := by
  cases honly : s.onlyRules with
  | none =>
    rw [honly] at h
    cases h
  | some only =>
    rw [honly, Option.getD_some] at h
    show Option.some <$> only.mapM r.resolve = _
    rw [mapM_resolve_eq_error h]
    rfl

theorem mapM_onlyRules_eq_ok (h : ∀ name ∈ s.onlyRules.getD [], r.contains name = true) :
    (s.onlyRules.mapM fun names => names.mapM r.resolve) =
      .ok (s.onlyRules.map (·.filterMap r.resolve?)) := by
  cases honly : s.onlyRules with
  | none => rfl
  | some only =>
    rw [honly, Option.getD_some] at h
    show Option.some <$> only.mapM r.resolve = _
    rw [mapM_resolve_eq_ok h]
    rfl

/-- **An unknown name decides**: the first one that is resolved, wherever it stands. -/
theorem selection_eq_error (h : s.ruleNames.find? (!r.contains ·) = some name) :
    r.selection s = .error (.unknownRule name) := by
  rw [Settings.ruleNames, List.append_assoc, List.append_assoc] at h
  unfold selection
  rcases find?_append_cases h with h | ⟨hdisabled, h⟩
  · rw [mapM_resolve_eq_error h]
    rfl
  rw [mapM_resolve_eq_ok hdisabled]
  rcases find?_append_cases h with h | ⟨hoptIn, h⟩
  · rw [mapM_resolve_eq_error h]
    rfl
  rw [mapM_resolve_eq_ok hoptIn]
  rcases find?_append_cases h with h | ⟨honly, h⟩
  · rw [mapM_onlyRules_eq_error h]
    rfl
  rw [mapM_onlyRules_eq_ok honly, resolveOptions_eq_error (mapM_resolve_eq_error h)]
  rfl

/-- Without unknown names the rules that run are selected, each with its options. -/
theorem Holds.selection_eq_ok (h : r.Holds es)
    (hknown : ∀ name ∈ s.ruleNames, r.contains name = true) :
    ∃ ids, r.selection s = .ok ids ∧
      (∀ id, (∃ options, (id, options) ∈ ids) ↔ ∃ e ∈ es, e.identifier = id ∧ r.Runs s e) ∧
      ∀ p ∈ ids, r.OptionsOf s p.1 p.2 := by
  unfold Settings.ruleNames at hknown
  obtain ⟨hlists, htables⟩ := List.forall_mem_append.mp hknown
  obtain ⟨hlists, honly⟩ := List.forall_mem_append.mp hlists
  obtain ⟨hdisabled, hoptIn⟩ := List.forall_mem_append.mp hlists
  obtain ⟨options, hoptions, hlookup⟩ := exists_resolveOptions htables
  have hselection : r.selection s = .ok ((r.selected (s.disabledRules.filterMap r.resolve?)
      (s.optInRules.filterMap r.resolve?) (s.onlyRules.map (·.filterMap r.resolve?))).map
        fun id => (id, options.lookup id)) := by
    rw [selection, mapM_resolve_eq_ok hdisabled, mapM_resolve_eq_ok hoptIn, mapM_onlyRules_eq_ok honly,
      hoptions]
    rfl
  refine ⟨_, hselection, fun id => ?_, fun p hp => ?_⟩
  · rw [← h.mem_selected]
    simp
  · obtain ⟨id, -, rfl⟩ := List.mem_map.mp hp
    show r.OptionsOf s id (options.lookup id)
    rw [hlookup]
    exact optionsOf_getLast? s id

/-- There is only one rule with a current name. -/
theorem Holds.eq_of_identifier_eq (h : r.Holds es) {f : RuleEntry} (he : e ∈ es) (hf : f ∈ es)
    (hid : e.identifier = f.identifier) : e = f := by
  have hrule := (h.rule?_iff f.identifier e).mpr ⟨he, hid⟩
  rw [(h.rule?_iff _ f).mpr ⟨hf, rfl⟩] at hrule
  exact (Option.some.inj hrule).symm

/-- What is said of rules by their current names is said of rules. -/
theorem Holds.exists_chosen (h : r.Holds es) {ids : List (String × Option Toml)}
    (hids : ∀ p ∈ ids, ∃ e ∈ es, e.identifier = p.1) :
    ∃ chosen : List (RuleEntry × Option Toml), ids = chosen.map (fun p => (p.1.identifier, p.2)) ∧
      (∀ p ∈ chosen, p.1 ∈ es) ∧
      (ids.mapM fun p => r.build p.1 p.2) = chosen.mapM fun p => p.1.create p.2 := by
  induction ids with
  | nil => exact ⟨[], rfl, nofun, rfl⟩
  | cons p ids ih =>
    obtain ⟨id, options⟩ := p
    obtain ⟨⟨e, he, hid⟩, hids⟩ := List.forall_mem_cons.mp hids
    obtain ⟨chosen, rfl, hchosen, hbuild⟩ := ih hids
    obtain rfl : e.identifier = id := hid
    have hrule : r.rule? e.identifier = some e := (h.rule?_iff _ _).mpr ⟨he, rfl⟩
    refine ⟨(e, options) :: chosen, rfl, List.forall_mem_cons.mpr ⟨he, hchosen⟩, ?_⟩
    rw [List.mapM_cons, List.mapM_cons, hbuild, build, hrule]

/-- **The rules that run** are built from the rules that are chosen. -/
theorem Holds.exists_chooses (h : r.Holds es)
    (hknown : ∀ name ∈ s.ruleNames, r.contains name = true) :
    ∃ chosen, r.Chooses es s chosen ∧ r.activeRules s = chosen.mapM fun p => p.1.create p.2 := by
  obtain ⟨ids, hids, hmem, hoptions⟩ := h.selection_eq_ok hknown
  obtain ⟨chosen, hchosen, hes, hbuild⟩ := h.exists_chosen fun p (hp : p ∈ ids) => by
    obtain ⟨e, he, hid, -⟩ := (hmem p.1).mp ⟨p.2, hp⟩
    exact ⟨e, he, hid⟩
  have hentry : ∀ e ∈ es, ∀ options, (e.identifier, options) ∈ ids ↔ (e, options) ∈ chosen := by
    intro e he options
    rw [hchosen]
    constructor
    · intro hmem
      obtain ⟨⟨f, _⟩, hf, heq⟩ := List.mem_map.mp hmem
      obtain ⟨hid, rfl⟩ := Prod.mk.inj heq
      rwa [h.eq_of_identifier_eq he (hes _ hf) hid.symm]
    · exact fun hmem => List.mem_map.mpr ⟨(e, options), hmem, rfl⟩
  refine ⟨chosen, ⟨?_, fun e => ⟨?_, ?_⟩, fun p hp => ?_⟩, ?_⟩
  · have hascending := pairwise_selection hids
    rwa [hchosen, List.pairwise_map] at hascending
  · rintro ⟨options, hmemchosen⟩
    have he : e ∈ es := hes _ hmemchosen
    obtain ⟨f, hf, hid, hruns⟩ := (hmem e.identifier).mp ⟨options, (hentry e he options).mpr hmemchosen⟩
    rw [h.eq_of_identifier_eq he hf hid.symm]
    exact ⟨hf, hruns⟩
  · rintro ⟨he, hruns⟩
    obtain ⟨options, hmemids⟩ := (hmem e.identifier).mpr ⟨e, he, rfl, hruns⟩
    exact ⟨options, (hentry e he options).mp hmemids⟩
  · exact hoptions _ ((hentry p.1 (hes p hp) p.2).mpr hp)
  · rw [activeRules, hids]
    exact hbuild

/-! ### Other names of the same rules -/

theorem resolve_congr {a b : String} (h : r.SameRule a b) : r.resolve a = r.resolve b := by
  rcases h with rfl | ⟨id, ha, hb⟩
  · rfl
  · rw [resolve_eq_ok_iff.mpr ha, resolve_eq_ok_iff.mpr hb]

theorem mapM_resolve_congr {as bs : List String} (h : List.Forall₂ r.SameRule as bs) :
    as.mapM r.resolve = bs.mapM r.resolve := by
  induction h with
  | nil => rfl
  | cons hab _ ih => rw [List.mapM_cons, List.mapM_cons, resolve_congr hab, ih]

theorem mapM_only_congr {as bs : Option (List String)}
    (h : Option.Rel (List.Forall₂ r.SameRule) as bs) :
    (as.mapM fun names => names.mapM r.resolve) = bs.mapM fun names => names.mapM r.resolve := by
  cases h with
  | none => rfl
  | some h =>
    show Option.some <$> List.mapM r.resolve _ = Option.some <$> List.mapM r.resolve _
    rw [mapM_resolve_congr h]

/-- By which of its names a list calls a rule makes no difference. -/
theorem Renamed.activeRules_eq (h : r.Renamed s t) : r.activeRules s = r.activeRules t := by
  rw [activeRules, activeRules, selection, selection, mapM_resolve_congr h.disabled,
    mapM_resolve_congr h.optIn, mapM_only_congr h.only, h.rules]

/-! ### The rules that run -/

theorem forall₂_of_mapM_eq_ok {ε α β : Type} {f : α → Except ε β} {xs : List α} {ys : List β}
    (h : xs.mapM f = .ok ys) : List.Forall₂ (fun a b => f a = .ok b) xs ys := by
  induction xs generalizing ys with
  | nil =>
    cases h
    exact .nil
  | cons a xs ih =>
    rw [List.mapM_cons] at h
    obtain ⟨b, hb, h⟩ := Except.bind_eq_ok.mp h
    obtain ⟨bs, hbs, h⟩ := Except.bind_eq_ok.mp h
    cases h
    exact .cons hb (ih hbs)

/-- **Which rules run**, in a registry made by any registrations and under any settings.  A name that is
not known makes the whole fail, wherever it stands, and the first of them is the one that is reported.
Otherwise the chosen rules are built, each from its own options; if they all accept them, these are the
rules that run, and as long as rules keep the identifiers under which they are registered, they come in
strictly increasing order.  The lists may call a rule by any of its names. -/
theorem activeRules_spec (es : List RuleEntry) (s : Settings) :
    (∀ name ∈ s.ruleNames, (ofList es).contains name = false →
      ∃ first, s.ruleNames.find? (!(ofList es).contains ·) = some first ∧
        (ofList es).activeRules s = .error (.unknownRule first)) ∧
    ((∀ name ∈ s.ruleNames, (ofList es).contains name = true) →
      ∃ chosen, (ofList es).Chooses (acceptedOf es) s chosen ∧
        (ofList es).activeRules s = (chosen.mapM fun p => p.1.create p.2) ∧
        ((∀ p ∈ chosen, ∃ rule, p.1.create p.2 = .ok rule) →
          ∃ rules, (ofList es).activeRules s = .ok rules ∧
            List.Forall₂ (fun p rule => p.1.create p.2 = .ok rule) chosen rules ∧
            ((∀ e ∈ acceptedOf es, ∀ options rule, e.create options = .ok rule →
                rule.identifier = e.identifier) →
              rules.Pairwise fun a b => a.identifier < b.identifier))) ∧
    ∀ t, (ofList es).Renamed s t → (ofList es).activeRules t = (ofList es).activeRules s := by
  refine ⟨fun name hname hunknown => ?_, fun hknown => ?_, fun t ht => ht.activeRules_eq.symm⟩
  · cases hfind : s.ruleNames.find? (!(ofList es).contains ·) with
    | none => exact absurd (List.find?_eq_none.mp hfind name hname) (by simp [hunknown])
    | some first =>
      refine ⟨first, rfl, ?_⟩
      rw [activeRules, selection_eq_error hfind]
      rfl
  · obtain ⟨chosen, hchooses, hactive⟩ := (holds_ofList es).exists_chooses hknown
    refine ⟨chosen, hchooses, hactive, fun haccept => ?_⟩
    obtain ⟨rules, hrules, -⟩ := Except.exists_mapM_eq_ok (P := fun _ _ => True) fun p hp => by
      obtain ⟨rule, hrule⟩ := haccept p hp
      exact ⟨rule, hrule, trivial⟩
    refine ⟨rules, hactive.trans hrules, forall₂_of_mapM_eq_ok hrules, fun hkeep => ?_⟩
    have hmem : ∀ p ∈ chosen, p.1 ∈ acceptedOf es := fun p hp =>
      ((hchooses.mem_iff p.1).mp ⟨p.2, hp⟩).1
    refine Except.pairwise_of_mapM_eq_ok hrules
      (hchooses.ascending.imp_of_mem fun hp hq hlt a b ha hb => ?_)
    rw [hkeep _ (hmem _ hp) _ a ha, hkeep _ (hmem _ hq) _ b hb]
    exact hlt

/-- A rule that finds nothing and has a severity as its only option. -/
def idle (identifier : String) (aliases : List String) : RuleEntry :=
  let description : RuleDescription := ⟨identifier, "", "", .lint, false, false, aliases, [], [], []⟩
  .ofSeverity description fun severity => ⟨description, severity, fun _ => .ok [], none⟩

/-- A rule that is asked for under two names runs once, and the options under the greater one count. -/
theorem activeRules_spec_alias :
    let es := [idle "identifier_name" ["variable_name"], idle "colon" []]
    let s : Settings :=
      { onlyRules := some ["variable_name", "identifier_name"]
        rules := .ofList [("identifier_name", .table [("severity", .string "warning")]),
          ("variable_name", .table [("severity", .string "error")])] }
    (∀ name ∈ s.ruleNames, (ofList es).contains name = true) ∧
      (∃ chosen, (ofList es).Chooses (acceptedOf es) s chosen ∧
        (ofList es).activeRules s = chosen.mapM fun p => p.1.create p.2) ∧
      ((ofList es).activeRules s).map (·.map fun rule => (rule.identifier, rule.severity)) =
        .ok [("identifier_name", .error)] := by
  intro es s
  have hknown : ∀ name ∈ s.ruleNames, (ofList es).contains name = true := by decide +kernel
  obtain ⟨chosen, hchooses, hactive, -⟩ := (activeRules_spec es s).2.1 hknown
  exact ⟨hknown, ⟨chosen, hchooses, hactive⟩, by decide +kernel⟩

end Registry

end SwiftTidy
