import Mathlib.Data.List.Sort
import SwiftTidy.Proofs.Data.Except
import SwiftTidy.Proofs.Lint.Fixes

/-!
# What no accepted proposal touches

The hooks of a fixer may do anything with their state, so nothing is known of what they propose.
What is known is what the run makes of a proposal: it is accepted as a whole or not at all, and an
accepted one is recorded under at least one position.  So no position is recorded that is
suppressed, and where nothing is recorded nothing has changed (`fixOf_sound`): an element below
which every proposal was dropped is put together again from children that are the old ones.

`fixOf_node_eq_ok` and its companions say once what a call of the run can answer; what is said of
whole runs is proved by induction over the tree from these alone.
-/

namespace SwiftTidy

namespace Fixer

variable {σ : Type} {x : Fixer σ} {d : DisabledRegions}

/-! ### One call -/

/-- A proposal is accepted or dropped: what is recorded is not suppressed, and nothing is recorded
only where the element stays. -/
theorem accept_sound (d : DisabledRegions) (c : Cursor) (current : Element) (fix : Option Fix) :
    (∀ p ∈ (accept d c current fix).2, d.isSuppressed p = false) ∧
      ((accept d c current fix).2 = [] → (accept d c current fix).1 = current) := by
  cases fix with
  | none => exact ⟨List.forall_mem_nil _, fun _ => rfl⟩
  | some f =>
    rw [accept]
    cases hallowed : f.isAllowed d c with
    | false => exact ⟨List.forall_mem_nil _, fun _ => rfl⟩
    | true =>
      exact ⟨Fix.isSuppressed_of_isAllowed hallowed, fun hnil => (List.cons_ne_nil _ _ hnil).elim⟩

theorem fixOf_token_eq_ok {t : Token} {c : Cursor} {s : σ} {r : (Element × List Nat) × σ} :
    fixOf x d (.token t) c s = .ok r ↔
      ∃ fix s', x.token c s = .ok (fix, s') ∧ r = (accept d c (.token t) fix, s') := by
  rw [fixOf, Except.bind_eq_ok]
  constructor
  · rintro ⟨⟨fix, s'⟩, htoken, hr⟩
    exact ⟨fix, s', htoken, (Except.ok.inj hr).symm⟩
  · rintro ⟨fix, s', htoken, rfl⟩
    exact ⟨(fix, s'), htoken, rfl⟩

/-- A node is visited and put together from what has become of its children, or skipped and kept;
either way it is then proposed to the fixer. -/
theorem fixOf_node_eq_ok {k : SyntaxKind} {es : List Element} {c : Cursor} {s : σ}
    {r : (Element × List Nat) × σ} :
    fixOf x d (.node k es) c s = .ok r ↔
      (∃ s₁ es' below s₂ fix s₃, x.visit c s = .ok (true, s₁) ∧
        fixOfAll x d es c 0 c.offset s₁ = .ok ((es', below), s₂) ∧
        x.node c (.node k es') s₂ = .ok (fix, s₃) ∧
        r = (((accept d c (.node k es') fix).1, below ++ (accept d c (.node k es') fix).2), s₃)) ∨
      ∃ s₁ fix s₂, x.visit c s = .ok (false, s₁) ∧ x.node c (.node k es) s₁ = .ok (fix, s₂) ∧
        r = (accept d c (.node k es) fix, s₂) := by
  rw [fixOf, Except.bind_eq_ok]
  constructor
  · rintro ⟨⟨descend, s₁⟩, hvisit, hr⟩
    cases descend with
    | true =>
      obtain ⟨⟨⟨es', below⟩, s₂⟩, hes, hr⟩ := Except.bind_eq_ok.mp hr
      obtain ⟨⟨fix, s₃⟩, hnode, hr⟩ := Except.bind_eq_ok.mp hr
      exact .inl ⟨s₁, es', below, s₂, fix, s₃, hvisit, hes, hnode, (Except.ok.inj hr).symm⟩
    | false =>
      obtain ⟨⟨fix, s₂⟩, hnode, hr⟩ := Except.bind_eq_ok.mp hr
      exact .inr ⟨s₁, fix, s₂, hvisit, hnode, (Except.ok.inj hr).symm⟩
  · rintro (⟨s₁, es', below, s₂, fix, s₃, hvisit, hes, hnode, rfl⟩ |
      ⟨s₁, fix, s₂, hvisit, hnode, rfl⟩)
    · refine ⟨(true, s₁), hvisit, Except.bind_eq_ok.mpr ⟨((es', below), s₂), hes, ?_⟩⟩
      exact Except.bind_eq_ok.mpr ⟨(fix, s₃), hnode, rfl⟩
    · exact ⟨(false, s₁), hvisit, Except.bind_eq_ok.mpr ⟨(fix, s₂), hnode, rfl⟩⟩

theorem fixOfAll_nil_eq_ok {p : Cursor} {i o : Nat} {s : σ} {r : (List Element × List Nat) × σ} :
    fixOfAll x d [] p i o s = .ok r ↔ r = (([], []), s) := by
  rw [fixOfAll]
  exact ⟨fun h => (Except.ok.inj h).symm, fun h => h ▸ rfl⟩

theorem fixOfAll_cons_eq_ok {e : Element} {es : List Element} {p : Cursor} {i o : Nat} {s : σ}
    {r : (List Element × List Nat) × σ} :
    fixOfAll x d (e :: es) p i o s = .ok r ↔
      ∃ e' here s₁ es' later s₂, fixOf x d e (.child p i o e) s = .ok ((e', here), s₁) ∧
        fixOfAll x d es p (i + 1) (o + e.fullLen) s₁ = .ok ((es', later), s₂) ∧
        r = ((e' :: es', here ++ later), s₂) := by
  rw [fixOfAll, Except.bind_eq_ok]
  constructor
  · rintro ⟨⟨⟨e', here⟩, s₁⟩, he, hr⟩
    obtain ⟨⟨⟨es', later⟩, s₂⟩, hes, hr⟩ := Except.bind_eq_ok.mp hr
    exact ⟨e', here, s₁, es', later, s₂, he, hes, (Except.ok.inj hr).symm⟩
  · rintro ⟨e', here, s₁, es', later, s₂, he, hes, rfl⟩
    exact ⟨((e', here), s₁), he, Except.bind_eq_ok.mpr ⟨((es', later), s₂), hes, rfl⟩⟩

theorem run_eq_ok {start : σ} {tree : Element} {o : FixOutcome} :
    run x start d tree = .ok o ↔
      ∃ e' ps s', fixOf x d tree (.root tree) start = .ok ((e', ps), s') ∧
        o = ⟨match e' with | .node k es => .node k es | .token _ => tree, ps.mergeSort (· ≤ ·)⟩ := by
  rw [run, Except.bind_eq_ok]
  constructor
  · rintro ⟨⟨⟨e', ps⟩, s'⟩, he, ho⟩
    exact ⟨e', ps, s', he, (Except.ok.inj ho).symm⟩
  · rintro ⟨e', ps, s', he, rfl⟩
    exact ⟨((e', ps), s'), he, rfl⟩

/-! ### Whole runs -/

mutual
/-- What is recorded below a place is not suppressed, and if nothing is, the element stays. -/
theorem fixOf_sound : ∀ {e : Element} {c : Cursor} {s : σ} {e' : Element} {ps : List Nat} {s' : σ},
    fixOf x d e c s = .ok ((e', ps), s') →
    (∀ p ∈ ps, d.isSuppressed p = false) ∧ (ps = [] → e' = e)
  | .token t, c, s, e', ps, s', h => by
    obtain ⟨fix, s₁, -, hr⟩ := fixOf_token_eq_ok.mp h
    have hsound := accept_sound d c (.token t) fix
    rwa [← (Prod.mk.inj hr).1] at hsound
  | .node k es, c, s, e', ps, s', h => by
    rcases fixOf_node_eq_ok.mp h with ⟨s₁, es', below, s₂, fix, s₃, -, hes, -, hr⟩ |
      ⟨s₁, fix, s₂, -, -, hr⟩
    · cases hr
      obtain ⟨hbelow, hsame⟩ := fixOfAll_sound hes
      obtain ⟨hhere, hkept⟩ := accept_sound d c (.node k es') fix
      refine ⟨List.forall_mem_append.mpr ⟨hbelow, hhere⟩, fun hnil => ?_⟩
      rw [List.append_eq_nil_iff] at hnil
      rw [hkept hnil.2, hsame hnil.1]
    · have hsound := accept_sound d c (.node k es) fix
      rwa [← (Prod.mk.inj hr).1] at hsound
theorem fixOfAll_sound : ∀ {es : List Element} {p : Cursor} {i o : Nat} {s : σ}
    {es' : List Element} {ps : List Nat} {s' : σ},
    fixOfAll x d es p i o s = .ok ((es', ps), s') →
    (∀ p ∈ ps, d.isSuppressed p = false) ∧ (ps = [] → es' = es)
  | [], p, i, o, s, es', ps, s', h => by
    cases fixOfAll_nil_eq_ok.mp h
    exact ⟨List.forall_mem_nil _, fun _ => rfl⟩
  | e :: es, p, i, o, s, es', ps, s', h => by
    obtain ⟨f, here, s₁, fs, later, s₂, he, hes, hr⟩ := fixOfAll_cons_eq_ok.mp h
    cases hr
    obtain ⟨hhere, hsame⟩ := fixOf_sound he
    obtain ⟨hlater, hsames⟩ := fixOfAll_sound hes
    refine ⟨List.forall_mem_append.mpr ⟨hhere, hlater⟩, fun hnil => ?_⟩
    rw [List.append_eq_nil_iff] at hnil
    rw [hsame hnil.1, hsames hnil.2]
end

/-- Some hook of a fixer fails in this way. -/
def FailsWith (x : Fixer σ) (fault : Fault) : Prop :=
  (∃ c s, x.visit c s = .error fault) ∨ (∃ c e s, x.node c e s = .error fault) ∨
    ∃ c s, x.token c s = .error fault

mutual
/-- A run fails only where a hook fails. -/
theorem failsWith_of_fixOf {fault : Fault} : ∀ {e : Element} {c : Cursor} {s : σ},
    fixOf x d e c s = .error fault → x.FailsWith fault
  | .token t, c, s, h => by
    rw [fixOf, Except.bind_eq_error] at h
    rcases h with h | ⟨a, -, h⟩
    · exact .inr (.inr ⟨c, s, h⟩)
    · cases h
  | .node k es, c, s, h => by
    rw [fixOf, Except.bind_eq_error] at h
    rcases h with h | ⟨⟨descend, s₁⟩, -, h⟩
    · exact .inl ⟨c, s, h⟩
    cases descend with
    | true =>
      rcases Except.bind_eq_error.mp h with h | ⟨⟨⟨es', below⟩, s₂⟩, -, h⟩
      · exact failsWith_of_fixOfAll h
      rcases Except.bind_eq_error.mp h with h | ⟨a, -, h⟩
      · exact .inr (.inl ⟨c, .node k es', s₂, h⟩)
      · cases h
    | false =>
      rcases Except.bind_eq_error.mp h with h | ⟨a, -, h⟩
      · exact .inr (.inl ⟨c, .node k es, s₁, h⟩)
      · cases h
theorem failsWith_of_fixOfAll {fault : Fault} : ∀ {es : List Element} {p : Cursor} {i o : Nat} {s : σ},
    fixOfAll x d es p i o s = .error fault → x.FailsWith fault
  | [], p, i, o, s, h => by
    rw [fixOfAll] at h
    cases h
  | e :: es, p, i, o, s, h => by
    rw [fixOfAll, Except.bind_eq_error] at h
    rcases h with h | ⟨⟨⟨e', here⟩, s₁⟩, -, h⟩
    · exact failsWith_of_fixOf h
    rcases Except.bind_eq_error.mp h with h | ⟨a, -, h⟩
    · exact failsWith_of_fixOfAll h
    · cases h
end

theorem failsWith_of_run {start : σ} {tree : Element} {fault : Fault}
    (h : run x start d tree = .error fault) : x.FailsWith fault := by
  rw [run, Except.bind_eq_error] at h
  rcases h with h | ⟨a, -, h⟩
  · exact failsWith_of_fixOf h
  · cases h

/-- **A whole run**, whatever the hooks do with their state: it fails only where a hook fails.  The
positions that it records are in increasing order and lie in no disabled region, and where it records
none it gives back the tree.  The same holds of every call on the way: an element at and below which
no proposal was accepted is handed to its parent as it was, whatever happened elsewhere. -/
theorem run_keeps_untouched (x : Fixer σ) (hd : d.InOrder) (start : σ) (tree : Element) :
    (∀ fault, x.run start d tree = .error fault → x.FailsWith fault) ∧
    (∀ o, x.run start d tree = .ok o →
      (∀ p ∈ o.corrections, ∀ r ∈ d.regions.toList, r.contains p = false) ∧
      o.corrections.Pairwise (· ≤ ·) ∧ (o.corrections = [] → o.tree = tree)) ∧
    ∀ e c s e' s', x.fixOf d e c s = .ok ((e', []), s') → e' = e := by
  refine ⟨fun fault h => failsWith_of_run h, fun o ho => ?_,
    fun e c s e' s' h => (fixOf_sound h).2 rfl⟩
  obtain ⟨e', ps, s', hfix, rfl⟩ := run_eq_ok.mp ho
  obtain ⟨haudible, hkept⟩ := fixOf_sound hfix
  refine ⟨fun p hp r hr => ?_, ?_, fun hnil => ?_⟩
  · have hsuppressed := haudible p (List.mem_mergeSort.mp hp)
    by_contra hcontains
    rw [Bool.not_eq_false] at hcontains
    rw [(hd.isSuppressed_iff p).mpr ⟨r, hr, hcontains⟩] at hsuppressed
    cases hsuppressed
  · exact List.pairwise_mergeSort' (· ≤ ·) ps
  · have hperm : (ps.mergeSort (· ≤ ·)).Perm ps := List.mergeSort_perm ps _
    rw [show ps.mergeSort (· ≤ ·) = [] from hnil, List.nil_perm] at hperm
    rw [hkept hperm]
    cases tree <;> rfl

/-- Proposes another letter for every second token that it comes to. -/
def everySecond : Fixer Nat where
  token c n :=
    let letter : Token := ⟨.identifier, "x", [], [TriviaPiece.spaces 1]⟩
    .ok (if n % 2 = 0 then some ⟨.token letter, c.position, [], none⟩ else none, n + 1)

/-- Of the first and the third of four letters only the first is exchanged: the third stands in the
second of two disabled regions, which starts where the other ends. -/
theorem run_keeps_untouched_between_regions :
    let letter (name : String) : Element := .token ⟨.identifier, name, [], [TriviaPiece.spaces 1]⟩
    let tree : Element := .node .sourceFile [letter "a", letter "b", letter "c", letter "d"]
    let regions : DisabledRegions := ⟨#[⟨RuleSet.empty, 2, some 4⟩, ⟨RuleSet.empty, 4, none⟩]⟩
    regions.InOrder ∧ ∃ o, everySecond.run 0 regions tree = .ok o ∧
      o.tree = .node .sourceFile [letter "x", letter "b", letter "c", letter "d"] ∧
      o.corrections = [0] ∧
      ∀ p ∈ o.corrections, ∀ r ∈ regions.regions.toList, r.contains p = false := by
  intro letter tree regions
  have hd : regions.InOrder := ⟨by decide, by
    refine List.pairwise_cons.mpr ⟨fun r hr => ?_, List.pairwise_singleton _ _⟩
    rw [List.mem_singleton.mp hr]
    exact ⟨4, rfl, Nat.le_refl 4⟩⟩
  obtain ⟨o, ho, htree, hcorrections⟩ : ∃ o, everySecond.run 0 regions tree = .ok o ∧
      o.tree = .node .sourceFile [letter "x", letter "b", letter "c", letter "d"] ∧
      o.corrections = [0] := by
    have hrun : (everySecond.run 0 regions tree).toOption.map (fun o => (o.tree, o.corrections)) =
        some (.node .sourceFile [letter "x", letter "b", letter "c", letter "d"], [0]) := by
      decide +kernel
    obtain ⟨o, ho, heq⟩ := Option.map_eq_some_iff.mp hrun
    exact ⟨o, Except.toOption_eq_some.mp ho, congrArg Prod.fst heq, congrArg Prod.snd heq⟩
  exact ⟨hd, o, ho, htree, hcorrections, ((run_keeps_untouched everySecond hd 0 tree).2.1 o ho).1⟩

end Fixer

end SwiftTidy
