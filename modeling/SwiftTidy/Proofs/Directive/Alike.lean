import Mathlib.Data.List.Forall2
import SwiftTidy.Proofs.Directive.Overlap

/-!
# Sweeps with a name and without it

Two sweeps are compared, one of the commands of a file and one of the same commands without one name
in one directive.  They agree on every other name, and on what the open lines recorded of it.  What
may differ is the name itself and the records of the lines that were started in between, which the
relation `Alike` keeps account of (`Alike.step`).  Once the value of the name is the same again and
no such line is open, the sweeps agree on everything from there on (`Agree.foldl`).
-/

namespace SwiftTidy

/-! ### Commands without a name -/

namespace RuleSet

/-- The set without a name. -/
def without (s : RuleSet) (name : String) : RuleSet := s.difference ⟨false, [name]⟩

@[simp] theorem all_without (s : RuleSet) (name : String) : (s.without name).all = s.all :=
  Bool.and_true _

@[simp] theorem has_without (s : RuleSet) (name : String) (j : RuleName) :
    (s.without name).has j = (s.has j && !decide (j = .named name)) := by
  rw [without, has_difference]
  congr 2
  cases j with
  | all => rfl
  | named n =>
    rw [Bool.eq_iff_iff, has, List.contains_iff_mem, List.mem_singleton, decide_eq_true_eq,
      RuleName.named.injEq]

end RuleSet

namespace AnchoredCommand

/-- A command without a name, if it comes from the directive at the offset `origin`. -/
def without (origin : Nat) (name : String) (c : AnchoredCommand) : AnchoredCommand :=
  if c.origin = origin then { c with rules := c.rules.without name } else c

variable {origin : Nat} {name : String} {c : AnchoredCommand} {j : RuleName}

@[simp] theorem without_action : (c.without origin name).action = c.action := by
  unfold without
  split <;> rfl

@[simp] theorem without_offset : (c.without origin name).offset = c.offset := by
  unfold without
  split <;> rfl

@[simp] theorem without_origin : (c.without origin name).origin = c.origin := by
  unfold without
  split <;> rfl

@[simp] theorem without_scope : (c.without origin name).scope = c.scope := by
  unfold without
  split <;> rfl

theorem without_of_ne (h : c.origin ≠ origin) : c.without origin name = c := if_neg h

theorem map_without_of_ne {commands : List AnchoredCommand} (h : ∀ c ∈ commands, c.origin ≠ origin) :
    commands.map (·.without origin name) = commands :=
  (List.map_congr_left fun c hc => without_of_ne (h c hc)).trans (List.map_id _)

/-- Commands that do the same at the same place to all names but one.  The second is about this name
only if the first is. -/
structure AlikeBut (i : RuleName) (c d : AnchoredCommand) : Prop where
  action : d.action = c.action
  origin : d.origin = c.origin
  scope : d.scope = c.scope
  isAbout : ∀ j, j ≠ i → d.isAbout j = c.isAbout j
  isAbout_imp : d.isAbout i = true → c.isAbout i = true

theorem AlikeBut.refl (i : RuleName) (c : AnchoredCommand) : AlikeBut i c c :=
  ⟨rfl, rfl, rfl, fun _ _ => rfl, id⟩

/-- Without a name a command does the same to all other names. -/
theorem alikeBut_without (origin : Nat) (name : String) (c : AnchoredCommand) :
    AlikeBut (.named name) c (c.without origin name) := by
  refine ⟨without_action, without_origin, without_scope, fun j hj => ?_, ?_⟩
  · unfold without isAbout
    split
    · simp [hj]
    · rfl
  · unfold without isAbout
    split
    · simp only [RuleSet.has_without, RuleSet.all_without, Bool.or_eq_true, Bool.and_eq_true]
      exact Or.imp_left And.left
    · exact id

end AnchoredCommand

namespace SweepState

/-! ### Closing a line in two sweeps -/

variable {xs ys : List (Nat × Action × RuleSet)} {R : Nat × Action × RuleSet → Nat × Action × RuleSet → Prop}

theorem map_origin_of_forall₂ (hR : ∀ e f, R e f → e.1 = f.1) (h : List.Forall₂ R xs ys) :
    xs.map (·.1) = ys.map (·.1) := by
  rw [← List.forall₂_eq_eq_eq, List.forall₂_map_left_iff, List.forall₂_map_right_iff]
  exact h.imp hR

/-- Lines that correspond to each other are closed together, and the others still correspond. -/
theorem close_of_forall₂ (hR : ∀ e f, R e f → e.1 = f.1) (h : List.Forall₂ R xs ys) (origin : Nat) :
    (close origin xs = none ∧ close origin ys = none) ∨
    ∃ change rest change' rest', close origin xs = some (change, rest) ∧
      close origin ys = some (change', rest') ∧ R (origin, change) (origin, change') ∧
      List.Forall₂ R rest rest' := by
  have hlen := h.length_eq
  have hget : ∀ k, (hx : k < xs.length) → (hy : k < ys.length) → R xs[k] ys[k] :=
    fun k hx hy => h.get hx hy
  have hindex : xs.findIdx? (·.1 == origin) = ys.findIdx? (·.1 == origin) := by
    clear hlen hget
    induction h with
    | nil => rfl
    | cons hef _ ih => rw [List.findIdx?_cons, List.findIdx?_cons, ih, hR _ _ hef]
  unfold close
  rw [← hindex]
  cases hfind : xs.findIdx? (·.1 == origin) with
  | none => exact .inl ⟨rfl, rfl⟩
  | some k =>
    right
    obtain ⟨hk, horigin, -⟩ := List.findIdx?_eq_some_iff_getElem.mp hfind
    have hky : k < ys.length := by omega
    have hx : xs ≠ [] := List.ne_nil_of_length_pos (by omega)
    have hy : ys ≠ [] := List.ne_nil_of_length_pos (by omega)
    -- what is closed is replaced by the last entry, which is the last one of both lists
    have hlast : R (xs.getLast hx) (ys.getLast hy) := by
      simp only [List.getLast_eq_getElem, ← hlen]
      exact hget _ _ _
    have hset : List.Forall₂ R (xs.set k (xs.getLast hx)) (ys.set k (ys.getLast hy)) := by
      refine List.forall₂_iff_get.mpr ⟨by simp [hlen], fun i hi hi' => ?_⟩
      simp only [List.get_eq_getElem, List.getElem_set]
      split
      · exact hlast
      · exact hget _ _ _
    have hdrop : List.Forall₂ R (xs.set k (xs.getLast hx)).dropLast
        (ys.set k (ys.getLast hy)).dropLast := by
      rw [List.dropLast_eq_take, List.dropLast_eq_take, hset.length_eq]
      exact List.forall₂_take _ hset
    have hclosed : R (origin, xs[k].2) (origin, ys[k].2) := by
      have hxo : origin = xs[k].1 := (eq_of_beq horigin).symm
      have hyo : origin = ys[k].1 := hxo.trans (hR _ _ (hget k hk hky))
      have hxk : (origin, xs[k].2) = xs[k] := Prod.ext hxo rfl
      have hyk : (origin, ys[k].2) = ys[k] := Prod.ext hyo rfl
      rw [hxk, hyk]
      exact hget k hk hky
    refine ⟨xs[k].2, _, ys[k].2, _, ?_, ?_, hclosed, hdrop⟩
    · simp only [List.getElem?_eq_getElem hk, List.getLast?_eq_some_getLast hx]
    · simp only [List.getElem?_eq_getElem hky, List.getLast?_eq_some_getLast hy]

/-! ### Sweeps that differ in one name -/

/-- Lines of the same directive that recorded the same names, but for a name that they need not
agree on if they are among the `opened` ones. -/
def LineAlike (i : RuleName) (opened : Nat → Prop) (e f : Nat × Action × RuleSet) : Prop :=
  e.1 = f.1 ∧ e.2.1 = f.2.1 ∧ ∀ j, (j = i → ¬ opened e.1) → e.2.2.has j = f.2.2.has j

/-- States that agree on all names but one, also in what their lines recorded.  On the one name they
agree if its value is `known` to be the same, and their lines do but for the `opened` ones. -/
structure Alike (i : RuleName) (known : Prop) (opened : Nat → Prop) (s t : SweepState) : Prop where
  disabled : ∀ j, (j = i → known) → s.disabled.has j = t.disabled.has j
  pendingLines : List.Forall₂ (LineAlike i opened) s.pendingLines t.pendingLines

variable {s t : SweepState} {i : RuleName} {known known' : Prop} {opened : Nat → Prop}
  {c d : AnchoredCommand} {commands : List AnchoredCommand}

theorem Alike.refl (i : RuleName) (known : Prop) (opened : Nat → Prop) (s : SweepState) :
    Alike i known opened s s :=
  ⟨fun _ _ => rfl, List.forall₂_same.mpr fun _ _ => ⟨rfl, rfl, fun _ _ => rfl⟩⟩

theorem Alike.weaken {opened' : Nat → Prop} (h : Alike i known opened s t) (hknown : known' → known)
    (hopened : ∀ e ∈ s.pendingLines, opened e.1 → opened' e.1) : Alike i known' opened' s t := by
  refine ⟨fun j hj => h.disabled j fun heq => hknown (hj heq), ?_⟩
  have hlines := (List.forall₂_and_left _ _).mpr ⟨hopened, h.pendingLines⟩
  exact hlines.imp fun _ _ ⟨himp, horigin, haction, hhas⟩ =>
    ⟨horigin, haction, fun j hj => hhas j fun heq hopen => hj heq (himp hopen)⟩

/-- What one command does to states that are alike: `known'` says whether the value of the name is
known to be the same behind it.  A command that sets the name makes it so; the end of a line keeps
it so, unless it is the end of an opened one.  The start of a line about the name opens it. -/
theorem Alike.step (h : Alike i known opened s t) (known' : Prop) (hc : c.AlikeBut i d)
    (hset : c.scope ≠ .lineEnd → known' →
      d.isAbout i = c.isAbout i ∧ (c.isAbout i = true ∨ known))
    (hend : c.scope = .lineEnd → known' → known ∧ ¬ opened c.origin)
    (hstart : c.scope = .lineStart → c.isAbout i = true →
      opened c.origin ∨ d.isAbout i = true ∧ known) :
    Alike i known' opened (s.step c) (t.step d) := by
  -- away from the ends of lines a name's value is the command's or the one before
  have hvalues : c.scope ≠ .lineEnd → ∀ j, (j = i → known') →
      (s.step c).disabled.has j = (t.step d).disabled.has j := by
    intro hscope j hj
    rw [has_step_of_ne_lineEnd hscope, has_step_of_ne_lineEnd (hc.scope ▸ hscope), hc.action]
    by_cases heq : j = i
    · subst heq
      obtain ⟨habout, hsame⟩ := hset hscope (hj rfl)
      rw [habout]
      rcases hsame with htrue | hknown
      · rw [if_pos htrue, if_pos htrue]
      · rw [h.disabled j fun _ => hknown]
    · rw [hc.isAbout j heq, h.disabled j fun h => absurd h heq]
  cases hscope : c.scope with
  | file =>
    refine ⟨hvalues (by simp [hscope]), ?_⟩
    rw [pendingLines_step_file hscope, pendingLines_step_file (hc.scope.trans hscope)]
    exact h.pendingLines
  | lineStart =>
    refine ⟨hvalues (by simp [hscope]), ?_⟩
    obtain ⟨changed, hs, hchanged⟩ := pendingLines_step_lineStart (s := s) hscope
    obtain ⟨changed', ht, hchanged'⟩ :=
      pendingLines_step_lineStart (s := t) (hc.scope.trans hscope)
    rw [hs, ht]
    refine List.rel_append h.pendingLines
      (.cons ⟨hc.origin.symm, hc.action.symm, fun j hj => ?_⟩ .nil)
    rw [hchanged, hchanged', hc.action]
    by_cases heq : j = i
    · subst heq
      by_cases habout : c.isAbout j = true
      · rcases hstart hscope habout with hopen | ⟨hsame, hknown⟩
        · exact absurd hopen (hj rfl)
        · rw [habout, hsame, h.disabled j fun _ => hknown]
      · rw [Bool.eq_false_iff.mpr habout, Bool.eq_false_iff.mpr (mt hc.isAbout_imp habout),
          Bool.false_and, Bool.false_and]
    · rw [hc.isAbout j heq, h.disabled j fun h => absurd h heq]
  | lineEnd =>
    have hscope' : d.scope = .lineEnd := hc.scope.trans hscope
    rcases close_of_forall₂ (fun _ _ h => h.1) h.pendingLines c.origin with
      ⟨hs, ht⟩ | ⟨⟨action, changed⟩, rest, ⟨action', changed'⟩, rest', hs, ht, hclosed, hrest⟩
    · -- the line was not opened, so its end does nothing to either state
      rw [step_lineEnd_of_none hscope hs, step_lineEnd_of_none hscope' (hc.origin ▸ ht)]
      exact h.weaken (fun hknown => (hend hscope hknown).1) fun _ _ => id
    · obtain ⟨hsLines, hsHas⟩ := step_lineEnd hscope hs
      obtain ⟨htLines, htHas⟩ := step_lineEnd hscope' (hc.origin ▸ ht)
      obtain ⟨-, haction, hhas⟩ := hclosed
      dsimp only at haction
      refine ⟨fun j hj => ?_, ?_⟩
      · rw [hsHas, htHas, hhas j fun heq => (hend hscope (hj heq)).2,
          h.disabled j fun heq => (hend hscope (hj heq)).1, haction]
      · rw [hsLines, htLines]
        exact hrest

/-- Commands without a name keep the states alike, where the lines that they start about it are
among the opened ones. -/
theorem Alike.foldl {origin : Nat} {name : String} (h : Alike (.named name) known opened s t)
    (hstart : ∀ c ∈ commands, c.scope = .lineStart → c.isAbout (.named name) = true →
      opened c.origin) :
    Alike (.named name) False opened (commands.foldl SweepState.step s)
      ((commands.map (·.without origin name)).foldl SweepState.step t) := by
  induction commands generalizing s t known with
  | nil => exact h.weaken False.elim fun _ _ => id
  | cons c cs ih =>
    obtain ⟨hc, hcs⟩ := List.forall_mem_cons.mp hstart
    refine ih (h.step False (c.alikeBut_without origin name) ?_ ?_ ?_) hcs
    · exact fun _ => False.elim
    · exact fun _ => False.elim
    · exact fun hscope habout => .inl (hc hscope habout)

/-- States that agree on all names, also in what their lines recorded. -/
def Agree (s t : SweepState) : Prop := Alike .all True (fun _ => False) s t

theorem Agree.disabled (h : Agree s t) (j : RuleName) : s.disabled.has j = t.disabled.has j :=
  Alike.disabled h j fun _ => trivial

/-- States agree on all names where the value of the one name is known, and no line is open that
need not agree on it. -/
theorem Alike.agree (h : Alike i known opened s t) (hvalue : s.disabled.has i = t.disabled.has i)
    (hopened : ∀ e ∈ s.pendingLines, ¬ opened e.1) : Agree s t := by
  constructor
  · intro j _
    by_cases heq : j = i
    · rw [heq, hvalue]
    · exact h.disabled j fun h => absurd h heq
  · have hlines := (List.forall₂_and_left _ _).mpr ⟨hopened, h.pendingLines⟩
    exact hlines.imp fun _ _ ⟨hnot, horigin, haction, hhas⟩ =>
      ⟨horigin, haction, fun j _ => hhas j fun _ => hnot⟩

/-- The same commands keep states in agreement. -/
theorem Agree.foldl (h : Agree s t) (commands : List AnchoredCommand) :
    Agree (commands.foldl SweepState.step s) (commands.foldl SweepState.step t) := by
  induction commands generalizing s t with
  | nil => exact h
  | cons c cs ih =>
    refine ih (Alike.step h True (.refl _ c) ?_ ?_ ?_)
    · exact fun _ _ => ⟨rfl, .inr trivial⟩
    · exact fun _ _ => ⟨trivial, id⟩
    · exact fun _ habout => .inr ⟨habout, trivial⟩

end SweepState

end SwiftTidy
