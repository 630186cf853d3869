import Mathlib.Data.List.Pairwise
import Mathlib.Data.String.Basic
import SwiftTidy.Lint.Registry
import SwiftTidy.Proofs.Data.Except

/-!
# Registries built by registrations

Rules are added one after the other, and some are refused because a name of theirs is taken.
`Holds r es` says what the two tables of a registry have to do with the rules `es` that were added:
the first one has exactly these rules, the second one exactly their names, and no two of them share a
name.  An addition keeps it (`Holds.insert`), so every run of additions does (`holds_ofList`).

The two tables then agree: a current name that is found for some name is that of one rule, and this rule
is in the table of rules (`registrations`).
-/

namespace SwiftTidy

/-! ### Sorted names -/

theorem mem_insertSorted {s x : String} {ts : List String} :
    x ∈ insertSorted s ts ↔ x = s ∨ x ∈ ts := by
  induction ts with
  | nil => simp [insertSorted]
  | cons t ts ih =>
    unfold insertSorted
    split
    · rw [List.mem_cons]
    · split
      · rename_i heq
        rw [eq_of_beq heq, List.mem_cons]
        exact (or_iff_right_of_imp .inl).symm
      · rw [List.mem_cons, List.mem_cons, ih]
        exact or_left_comm

theorem pairwise_insertSorted {s : String} {ts : List String} (h : ts.Pairwise (· < ·)) :
    (insertSorted s ts).Pairwise (· < ·) := by
  induction ts with
  | nil => exact List.pairwise_singleton ..
  | cons t ts ih =>
    obtain ⟨hhead, htail⟩ := List.pairwise_cons.mp h
    unfold insertSorted
    split
    · rename_i hlt
      refine List.pairwise_cons.mpr ⟨List.forall_mem_cons.mpr ⟨hlt, fun x hx => ?_⟩, h⟩
      exact lt_trans hlt (hhead x hx)
    · split
      · exact h
      · rename_i hnlt hne
        have hgt : t < s := lt_of_le_of_ne (not_lt.mp hnlt) fun heq => hne (by simp [heq])
        refine List.pairwise_cons.mpr ⟨fun x hx => ?_, ih htail⟩
        rcases mem_insertSorted.mp hx with rfl | hx
        · exact hgt
        · exact hhead x hx

theorem mem_sortedSet {x : String} {ss : List String} : x ∈ sortedSet ss ↔ x ∈ ss := by
  have hfold : ∀ acc, x ∈ ss.foldl (fun acc s => insertSorted s acc) acc ↔ x ∈ acc ∨ x ∈ ss := by
    induction ss with
    | nil => simp
    | cons s ss ih =>
      intro acc
      rw [List.foldl_cons, ih, mem_insertSorted, List.mem_cons, or_comm (a := x = s), or_assoc]
  exact (hfold []).trans (or_iff_right List.not_mem_nil)

theorem pairwise_sortedSet (ss : List String) : (sortedSet ss).Pairwise (· < ·) := by
  have hfold : ∀ acc : List String, acc.Pairwise (· < ·) →
      (ss.foldl (fun acc s => insertSorted s acc) acc).Pairwise (· < ·) := by
    induction ss with
    | nil => exact fun _ h => h
    | cons s ss ih => exact fun acc h => ih _ (pairwise_insertSorted h)
  exact hfold [] .nil

namespace Registry

variable {r : Registry} {e : RuleEntry} {es : List RuleEntry} {name id : String}

/-! ### One registration -/

theorem rule?_insert : (r.insert e).rule? id = if id = e.identifier then some e else r.rule? id :=
  KeyTable.lookup?_set

/-- Several keys are given the same value. -/
theorem lookup?_foldl_set {α : Type} {v : α} {t : KeyTable α} (ks : List String) :
    (ks.foldl (fun t k => t.set k v) t).lookup? name = if name ∈ ks then some v else t.lookup? name := by
  induction ks generalizing t with
  | nil => rw [List.foldl_nil, if_neg List.not_mem_nil]
  | cons k ks ih =>
    rw [List.foldl_cons, ih, KeyTable.lookup?_set]
    by_cases hmem : name ∈ ks <;> by_cases hk : name = k <;> simp [hmem, hk]

theorem resolve?_insert : (r.insert e).resolve? name =
    if name ∈ e.description.identifiers then some e.identifier else r.resolve? name :=
  lookup?_foldl_set _

/-- A registration is refused for a name that is taken and changes nothing, or none of the names is
taken and the rule is put in. -/
theorem add_cases (r : Registry) (e : RuleEntry) :
    (∃ taken ∈ e.description.identifiers, r.contains taken = true ∧
      (add e).run.run r = (.error taken, r)) ∨
    ((∀ name ∈ e.description.identifiers, r.resolve? name = none) ∧
      (add e).run.run r = (.ok (), r.insert e)) := by
  -- The names are looked up in the registry as it is.
  have hget : (get : ExceptT String (StateM Registry) Registry).run.run r = (.ok r, r) := rfl
  cases hfind : e.description.identifiers.find? r.contains with
  | some taken =>
    refine .inl ⟨taken, List.mem_of_find?_eq_some hfind, List.find?_some hfind, ?_⟩
    rw [add, ExceptT.run_bind, StateT.run_bind, hget]
    dsimp only [bind]
    rw [hfind]
    rfl
  | none =>
    refine .inr ⟨fun name hname => ?_, ?_⟩
    · have hfree := List.find?_eq_none.mp hfind name hname
      rwa [contains, Bool.not_eq_true, Option.isSome_eq_false_iff, Option.isNone_iff_eq_none] at hfree
    · rw [add, ExceptT.run_bind, StateT.run_bind, hget]
      dsimp only [bind]
      rw [hfind]
      rfl

/-! ### Runs of registrations -/

/-- What a registry is once the rules `es` were added to it: one table has these rules by their current
names, the other one all their names, and no two rules share a name. -/
structure Holds (r : Registry) (es : List RuleEntry) : Prop where
  rule?_iff : ∀ id e, r.rule? id = some e ↔ e ∈ es ∧ e.identifier = id
  resolve?_iff : ∀ name id, r.resolve? name = some id ↔
    ∃ e ∈ es, name ∈ e.description.identifiers ∧ e.identifier = id
  apart : es.Pairwise fun e f => ∀ name ∈ e.description.identifiers,
    name ∉ f.description.identifiers

theorem holds_empty : empty.Holds [] where
  rule?_iff id e := by
    constructor
    · nofun
    · rintro ⟨h, -⟩
      cases h
  resolve?_iff name id := by
    constructor
    · nofun
    · rintro ⟨e, h, -⟩
      cases h
  apart := .nil

theorem identifier_mem (e : RuleEntry) : e.identifier ∈ e.description.identifiers :=
  List.mem_cons_self

namespace Holds

/-- Without its names a rule was not added before. -/
theorem not_mem_identifiers (h : r.Holds es) (hfree : r.resolve? name = none) :
    ∀ f ∈ es, name ∉ f.description.identifiers := by
  intro f hf hname
  have hsome := (h.resolve?_iff name f.identifier).mpr ⟨f, hf, hname, rfl⟩
  rw [hfree] at hsome
  cases hsome

/-- **One more rule** whose names are all free. -/
theorem insert (h : r.Holds es)
    (hfree : ∀ name ∈ e.description.identifiers, r.resolve? name = none) :
    (r.insert e).Holds (es ++ [e]) where
  rule?_iff id f := by
    -- a name that is free belongs to no rule that is registered
    have hnew : ∀ g ∈ es, g.identifier ≠ e.identifier := fun g hg heq =>
      h.not_mem_identifiers (hfree _ (identifier_mem e)) g hg (heq ▸ identifier_mem g)
    rw [rule?_insert, List.mem_append, List.mem_singleton]
    by_cases hid : id = e.identifier
    · rw [if_pos hid]
      constructor
      · rintro heq
        cases heq
        exact ⟨.inr rfl, hid.symm⟩
      · rintro ⟨hf | rfl, hident⟩
        · exact absurd (hident.trans hid) (hnew f hf)
        · rfl
    · rw [if_neg hid, h.rule?_iff]
      constructor
      · exact fun ⟨hf, hident⟩ => ⟨.inl hf, hident⟩
      · rintro ⟨hf | rfl, hident⟩
        · exact ⟨hf, hident⟩
        · exact absurd hident.symm hid
  resolve?_iff name id := by
    rw [resolve?_insert]
    by_cases hname : name ∈ e.description.identifiers
    · rw [if_pos hname]
      constructor
      · intro heq
        exact ⟨e, by simp, hname, Option.some.inj heq⟩
      · rintro ⟨f, hf, hfname, rfl⟩
        rcases List.mem_append.mp hf with hf | hf
        · exact absurd hfname (h.not_mem_identifiers (hfree name hname) f hf)
        · rw [List.mem_singleton.mp hf]
    · rw [if_neg hname, h.resolve?_iff]
      constructor
      · exact fun ⟨f, hf, hrest⟩ => ⟨f, List.mem_append_left _ hf, hrest⟩
      · rintro ⟨f, hf, hfname, hident⟩
        rcases List.mem_append.mp hf with hf | hf
        · exact ⟨f, hf, hfname, hident⟩
        · exact absurd (List.mem_singleton.mp hf ▸ hfname) hname
  apart := by
    refine List.pairwise_append.mpr ⟨h.apart, List.pairwise_singleton .., fun f hf g hg name hname => ?_⟩
    rw [List.mem_singleton.mp hg]
    exact fun hgname => h.not_mem_identifiers (hfree name hgname) f hf hname

end Holds

/-- The rules that were added, among those for which a registration was tried. -/
def accepted (es : List RuleEntry) (answers : List (Except String Unit)) : List RuleEntry :=
  ((es.zip answers).filter (·.2.isOk)).map (·.1)

/-- The first registration is answered, and then the others in the registry that it leaves. -/
theorem run_addAll_cons (r : Registry) (e : RuleEntry) (es : List RuleEntry) :
    (addAll (e :: es)).run r =
      (((add e).run.run r).1 :: ((addAll es).run ((add e).run.run r).2).1,
        ((addAll es).run ((add e).run.run r).2).2) := by
  rw [addAll, List.mapM_cons]
  rfl

/-- Every registration is answered, and what was added before and by the run is what the registry
holds. -/
theorem Holds.addAll {before : List RuleEntry} (h : r.Holds before) (es : List RuleEntry) :
    ((addAll es).run r).1.length = es.length ∧
      ((addAll es).run r).2.Holds (before ++ accepted es ((addAll es).run r).1) := by
  induction es generalizing r before with
  | nil =>
    refine ⟨rfl, ?_⟩
    show r.Holds (before ++ [])
    rwa [List.append_nil]
  | cons e es ih =>
    rw [run_addAll_cons]
    rcases add_cases r e with ⟨taken, -, -, hadd⟩ | ⟨hfree, hadd⟩
    · obtain ⟨hlength, hholds⟩ := ih h
      rw [hadd]
      exact ⟨congrArg (· + 1) hlength, hholds⟩
    · obtain ⟨hlength, hholds⟩ := ih (h.insert hfree)
      rw [hadd]
      refine ⟨congrArg (· + 1) hlength, ?_⟩
      rwa [List.append_assoc] at hholds

/-- The rules that are added to a registry without any. -/
def acceptedOf (es : List RuleEntry) : List RuleEntry := accepted es ((addAll es).run empty).1

theorem mem_of_mem_acceptedOf (h : e ∈ acceptedOf es) : e ∈ es := by
  obtain ⟨⟨f, answer⟩, hmem, rfl⟩ := List.mem_map.mp h
  exact (List.of_mem_zip (List.mem_filter.mp hmem).1).1

theorem holds_ofList (es : List RuleEntry) : (ofList es).Holds (acceptedOf es) :=
  (holds_empty.addAll es).2

theorem resolve_eq_ok_iff : r.resolve name = .ok id ↔ r.resolve? name = some id := by
  unfold resolve
  cases r.resolve? name with
  | none => simp
  | some id' => simp

namespace Holds

/-- A name is that of the rule which alone has it. -/
theorem resolve?_eq_some_iff (h : r.Holds es) : r.resolve? name = some id ↔
    ∃ e, es.filter (·.description.identifiers.contains name) = [e] ∧ e.identifier = id := by
  rw [h.resolve?_iff]
  constructor
  · rintro ⟨e, he, hname, hid⟩
    refine ⟨e, ?_, hid⟩
    -- The rules behind and in front of `e` do not have the name.
    obtain ⟨front, back, rfl⟩ := List.append_of_mem he
    obtain ⟨-, hcons, hfront⟩ := List.pairwise_append.mp h.apart
    have hback := (List.pairwise_cons.mp hcons).1
    rw [List.filter_append, List.filter_cons_of_pos (by simpa using hname)]
    rw [List.filter_eq_nil_iff.mpr, List.filter_eq_nil_iff.mpr, List.nil_append]
    · intro f hf hfname
      exact hback f hf name hname (List.contains_iff_mem.mp hfname)
    · intro f hf hfname
      exact hfront f hf e List.mem_cons_self name (List.contains_iff_mem.mp hfname) hname
  · rintro ⟨e, hfilter, hid⟩
    have hmem : e ∈ es.filter (·.description.identifiers.contains name) :=
      hfilter ▸ List.mem_singleton_self e
    obtain ⟨he, hname⟩ := List.mem_filter.mp hmem
    exact ⟨e, he, List.contains_iff_mem.mp hname, hid⟩

/-- A current name that is found for some name is that of a rule in the other table. -/
theorem exists_rule (h : r.Holds es) (hresolve : r.resolve? name = some id) :
    ∃ e ∈ es, e.identifier = id ∧ r.rule? id = some e := by
  obtain ⟨e, he, -, hid⟩ := (h.resolve?_iff name id).mp hresolve
  exact ⟨e, he, hid, (h.rule?_iff id e).mpr ⟨he, hid⟩⟩

/-- The rules that are selected are in the table of rules. -/
theorem exists_rule_of_mem_selected (h : r.Holds es) {disabled optIn : List String}
    {only : Option (List String)} (hoptIn : ∀ id ∈ optIn, ∃ name, r.resolve? name = some id)
    (honly : ∀ ids ∈ only, ∀ id ∈ ids, ∃ name, r.resolve? name = some id)
    (hid : id ∈ r.selected disabled optIn only) : ∃ e ∈ es, e.identifier = id ∧ r.rule? id = some e := by
  unfold selected at hid
  cases only with
  | some ids =>
    obtain ⟨name, hname⟩ := honly ids rfl id (mem_sortedSet.mp hid)
    exact h.exists_rule hname
  | none =>
    rcases List.mem_append.mp (List.mem_filter.mp (mem_sortedSet.mp hid)).1 with hcommon | hasked
    · -- A common rule is found in the table of rules in the first place.
      obtain ⟨⟨_, e⟩, hmem, rfl⟩ := List.mem_map.mp hcommon
      have he := KeyTable.mem_entries_iff.mp (List.mem_filter.mp hmem).1
      obtain ⟨hes, heid⟩ := (h.rule?_iff _ e).mp he
      exact ⟨e, hes, heid, he⟩
    · obtain ⟨name, hname⟩ := hoptIn id hasked
      exact h.exists_rule hname

/-- The rules that the settings choose are in the table of rules. -/
theorem exists_rule_of_mem_selection (h : r.Holds es) {settings : Settings}
    {chosen : List (String × Option Toml)} (hchosen : r.selection settings = .ok chosen)
    {p : String × Option Toml} (hp : p ∈ chosen) :
    ∃ e ∈ es, e.identifier = p.1 ∧ r.rule? p.1 = some e := by
  obtain ⟨disabled, -, hchosen⟩ := Except.bind_eq_ok.mp hchosen
  obtain ⟨optIn, hoptIn, hchosen⟩ := Except.bind_eq_ok.mp hchosen
  obtain ⟨only, honly, hchosen⟩ := Except.bind_eq_ok.mp hchosen
  obtain ⟨options, -, hchosen⟩ := Except.bind_eq_ok.mp hchosen
  cases hchosen
  obtain ⟨id, hid, rfl⟩ := List.mem_map.mp hp
  have hresolved : ∀ names ids : List String, names.mapM r.resolve = .ok ids →
      ∀ id ∈ ids, ∃ name, r.resolve? name = some id := by
    intro names ids hids id hid
    obtain ⟨name, -, hname⟩ := Except.exists_of_mapM_eq_ok hids id hid
    exact ⟨name, resolve_eq_ok_iff.mp hname⟩
  refine h.exists_rule_of_mem_selected (hresolved _ _ hoptIn) ?_ hid
  cases hnames : settings.onlyRules with
  | none =>
    rw [hnames] at honly
    cases honly
    nofun
  | some names =>
    rw [hnames] at honly
    obtain ⟨ids, hids, honly⟩ := Except.bind_eq_ok.mp honly
    cases honly
    intro ids' hids'
    cases hids'
    exact hresolved _ _ hids

end Holds

/-- Rules are chosen in increasing order of their current names. -/
theorem pairwise_selection {settings : Settings} {chosen : List (String × Option Toml)}
    (h : r.selection settings = .ok chosen) : chosen.Pairwise fun p q => p.1 < q.1 := by
  obtain ⟨disabled, -, h⟩ := Except.bind_eq_ok.mp h
  obtain ⟨optIn, -, h⟩ := Except.bind_eq_ok.mp h
  obtain ⟨only, -, h⟩ := Except.bind_eq_ok.mp h
  obtain ⟨options, -, h⟩ := Except.bind_eq_ok.mp h
  cases h
  refine List.pairwise_map.mpr ?_
  unfold selected
  cases only <;> exact pairwise_sortedSet _

/-- **Registries stay consistent**, whatever registrations are tried one after the other.  One that is
refused changes nothing.  A name is resolved exactly when one and only one of the rules that were added
has it, and then to the current name of this rule, under which the rule is found.  So nothing that is
looked up by a current name is missing when a rule is described or created or when the rules that run
are built. -/
theorem registrations (es : List RuleEntry) :
    ((addAll es).run empty).1.length = es.length ∧
    (∀ (r r' : Registry) (e : RuleEntry) (taken : String),
      (add e).run.run r = (.error taken, r') → r' = r) ∧
    (∀ name id, (ofList es).resolve? name = some id ↔
      ∃ e, (acceptedOf es).filter (·.description.identifiers.contains name) = [e] ∧
        e.identifier = id) ∧
    (∀ name id, (ofList es).resolve? name = some id → ∃ e ∈ acceptedOf es, e.identifier = id ∧
      (ofList es).rule? id = some e ∧ (ofList es).find? name = some e ∧
      ∀ options, (ofList es).create name options = e.create options) ∧
    ∀ settings chosen, (ofList es).selection settings = .ok chosen → ∀ p ∈ chosen,
      ∃ e ∈ acceptedOf es, e.identifier = p.1 ∧ (ofList es).rule? p.1 = some e ∧
        (ofList es).build p.1 p.2 = e.create p.2 := by
  have hholds := holds_ofList es
  refine ⟨(holds_empty.addAll es).1, ?_, fun name id => hholds.resolve?_eq_some_iff, ?_, ?_⟩
  · intro r r' e taken hrun
    rcases add_cases r e with ⟨taken', -, -, hadd⟩ | ⟨-, hadd⟩
    · rw [hadd] at hrun
      exact (Prod.mk.inj hrun).2.symm
    · rw [hadd] at hrun
      cases (Prod.mk.inj hrun).1
  · intro name id hresolve
    obtain ⟨e, he, hid, hrule⟩ := hholds.exists_rule hresolve
    have hfind : (ofList es).find? name = some e := by
      rw [find?, hresolve, Option.bind_some, hrule]
    refine ⟨e, he, hid, hrule, hfind, fun options => ?_⟩
    rw [create, resolve_eq_ok_iff.mpr hresolve]
    show (ofList es).build id options = _
    rw [build, hrule]
  · intro settings chosen hchosen p hp
    obtain ⟨e, he, hid, hrule⟩ := hholds.exists_rule_of_mem_selection hchosen hp
    exact ⟨e, he, hid, hrule, by rw [build, hrule]⟩

/-- A rule that is never configured. -/
def unconfigured (identifier : String) (aliases : List String) : RuleEntry :=
  ⟨⟨identifier, "", "", .lint, false, false, aliases, [], [], []⟩,
   fun _ => .error (.unknownRule identifier)⟩

/-- The second rule is refused for its earlier name, and then the third one gets its current name. -/
theorem registrations_shared_alias :
    let es := [unconfigured "length" ["line_length"], unconfigured "width" ["line_length"],
      unconfigured "width" []]
    (ofList es).resolve? "line_length" = some "length" ∧ (ofList es).resolve? "width" = some "width" ∧
      ∃ e ∈ acceptedOf es, e.identifier = "length" ∧ (ofList es).find? "line_length" = some e := by
  intro es
  have hresolve : (ofList es).resolve? "line_length" = some "length" := by decide +kernel
  obtain ⟨-, -, -, hfound, -⟩ := registrations es
  obtain ⟨e, he, hid, -, hfind, -⟩ := hfound _ _ hresolve
  exact ⟨hresolve, by decide +kernel, e, he, hid, hfind⟩

end Registry

end SwiftTidy
