import SwiftTidy.Proofs.Parse.Filled
import SwiftTidy.Proofs.Parse.Refining
import SwiftTidy.Proofs.Parse.Moving

/-!
# Reading parts in another order

A grammar carries a plan out where it reads, from tokens with parts in another order, what it reads from the
tokens as they were, with the parts in that order (`CarriesAt`, and `Carries` for any input).  It may come to
its end where a part ends, and must then end in front of whatever stands behind the part; `A` says at which
seams this is asked of it.
-/

namespace SwiftTidy

open Element

/-! ### Seams at which a grammar may end -/

/-- Some of the seams. -/
abbrev Seams := Seam → Bool

namespace Seams

/-- All seams: what ends there may be a type or an expression. -/
def all : Seams := fun _ => true

/-- The seams at which a statement may end. -/
def outer : Seams := fun seam => seam != .items

/-- No seam: something is due. -/
def none : Seams := fun _ => false

/-- A test on kinds does not tell apart what stands behind a part at any of the seams. -/
def Blind {α : Type} (A : Seams) (f : SyntaxKind → α) : Prop := ∀ seam, A seam = true → seam.Blurs f

instance {α : Type} [DecidableEq α] (A : Seams) (f : SyntaxKind → α) : Decidable (A.Blind f) :=
  decidable_of_iff ((A .file = true → Seam.file.Blurs f) ∧ (A .cases = true → Seam.cases.Blurs f) ∧
    (A .items = true → Seam.items.Blurs f))
    ⟨fun h seam => by
      cases seam with
      | file => exact h.1
      | cases => exact h.2.1
      | items => exact h.2.2, fun h => ⟨h _, h _, h _⟩⟩

end Seams

/-- A test that does not tell apart what stands behind a part anywhere. -/
theorem Seams.Blind.of_all {α : Type} {A : Seams} {f : SyntaxKind → α} (h : Seams.all.Blind f) : A.Blind f :=
  fun seam _ => h seam rfl

/-- An input is in the region, and at its end only if the seam is among those of `A`. -/
def Region.Allows (R : Region) (A : Seams) (t : Input) : Prop :=
  t.offset ≤ R.stop ∧ (t.offset = R.stop → A R.seam = true)

theorem Region.allows_of_lt {R : Region} {A : Seams} {t : Input} (h : t.offset < R.stop) : R.Allows A t :=
  ⟨Nat.le_of_lt h, fun heq => absurd heq (Nat.ne_of_lt h)⟩

theorem Region.Allows.lt_stop {R : Region} {t : Input} (h : R.Allows .none t) : t.offset < R.stop :=
  Nat.lt_of_le_of_ne h.1 fun heq => absurd (h.2 heq) Bool.false_ne_true

/-- Tokens that are cut in two have a text. -/
theorem Token.Refines.len_pos {ts us : List Token} (h : Token.Refines ts us) (hts : ∀ t ∈ ts, 0 < t.len) :
    ∀ u ∈ us, 0 < u.len := by
  induction h with
  | nil => exact hts
  | keep t k _ ih =>
    obtain ⟨hhead, htail⟩ := List.forall_mem_cons.mp hts
    exact List.forall_mem_cons.mpr ⟨hhead, ih htail⟩
  | split k k' _ _ ih =>
    obtain ⟨-, htail⟩ := List.forall_mem_cons.mp hts
    refine List.forall_mem_cons.mpr ⟨Nat.one_pos, ih (List.forall_mem_cons.mpr ⟨?_, htail⟩)⟩
    rw [Token.len, String.utf8ByteSize_ofList, String.utf8Len_cons]
    exact Nat.add_pos_right _ (Char.utf8Size_pos _)

/-- Only operators are cut in two. -/
theorem Input.splitRightAngle_eq {s : Input} (h : s.kind.isOperator = false) : s.splitRightAngle = s := by
  unfold Input.splitRightAngle
  split
  · rfl
  · next a rest hpending =>
    have ha : a.kind.isOperator = false := by
      simpa [Input.kind, Input.kindAt, Input.nth, hpending] using h
    split
    · rw [if_neg (by rw [ha]; exact Bool.false_ne_true)]
    · rfl

namespace Grammar

/-! ### What is left of the input -/

namespace Assembled

variable {R : Region} {A : Seams} {held es : List Element} {g : Grammar} {s t : Input}

/-- Where nothing was held before, the input is as many bytes further as what was built is long. -/
theorem offset_of_run (hg : Assembled [] g) (hrun : g.run s = .ok (es, t)) :
    t.offset = s.offset + fullLenAll es := by
  have h := hg.offset_eq hrun
  rwa [fullLenAll, Nat.add_zero] at h

theorem offset_le {held : List Element} (hg : Assembled held g) (hrun : g.run s = .ok (es, t)) :
    s.offset ≤ t.offset := by
  induction hg generalizing s es t with
  | emit fs =>
    cases hrun
    exact Nat.le_refl _
  | wrap k hk hg ih => exact ih hrun
  | emitFront fs hg ih =>
    obtain ⟨gs, hgs, -⟩ := run_emit_append hrun
    exact ih hgs
  | fail held e he => cases hrun
  | peek hf ih => exact ih s hrun
  | append hg hh ihg ihh =>
    obtain ⟨fs, gs, w, hfs, hgs, -⟩ := run_append hrun
    exact (ihg hfs).trans (ihh hgs)
  | capture front hg hk ihg ihk =>
    obtain ⟨fs, w, hfs, hes⟩ := run_capture hrun
    exact (ihg hfs).trans (ihk fs hes)
  | take =>
    obtain ⟨a, rest, -, -, rfl⟩ := run_take hrun
    exact Nat.le_add_right _ _
  | takeAs k hk _ =>
    obtain ⟨a, rest, -, -, rfl⟩ := run_takeAs hrun
    exact Nat.le_add_right _ _
  | splitRightAngle =>
    cases hrun
    exact Nat.le_of_eq s.offset_splitRightAngle.symm

/-- Where a grammar may end in the region, it may have started. -/
theorem allows {held : List Element} (hg : Assembled held g) (hrun : g.run s = .ok (es, t))
    (h : R.Allows A t) : R.Allows A s := by
  have hle := hg.offset_le hrun
  exact ⟨hle.trans h.1, fun hstop => h.2 (Nat.le_antisymm h.1 (hstop ▸ hle))⟩

/-- The tokens that are left have a text. -/
theorem ready {held : List Element} (hg : Assembled held g) (hs : s.Ready) (hrun : g.run s = .ok (es, t)) :
    t.Ready := by
  induction hg generalizing s es t with
  | emit fs =>
    cases hrun
    exact hs
  | wrap k hk hg ih => exact ih hs hrun
  | emitFront fs hg ih =>
    obtain ⟨gs, hgs, -⟩ := run_emit_append hrun
    exact ih hs hgs
  | fail held e he => cases hrun
  | peek hf ih => exact ih s hs hrun
  | append hg hh ihg ihh =>
    obtain ⟨fs, gs, w, hfs, hgs, -⟩ := run_append hrun
    exact ihh (ihg hs hfs) hgs
  | capture front hg hk ihg ihk =>
    obtain ⟨fs, w, hfs, hes⟩ := run_capture hrun
    exact ihk fs (ihg hs hfs) hes
  | take =>
    obtain ⟨a, rest, hpending, -, rfl⟩ := run_take hrun
    exact (hs.past_of_pending hpending _).ready
  | takeAs k hk _ =>
    obtain ⟨a, rest, hpending, -, rfl⟩ := run_takeAs hrun
    exact (hs.past_of_pending hpending _).ready
  | splitRightAngle =>
    cases hrun
    exact hs.splitRightAngle.ready

/-- What is not empty of leaves takes at least one byte. -/
theorem lt_offset (hg : Assembled [] g) (hleafy : Leafy g) (hs : s.Ready) (hrun : g.run s = .ok (es, t)) :
    s.offset < t.offset := by
  have hpos := (hg.refines hrun).len_pos hs.len_pos
  rw [hg.offset_of_run hrun, fullLenAll_eq]
  obtain ⟨leaf, leaves, hleaves⟩ := List.exists_cons_of_ne_nil (hleafy hrun)
  have hleaf : 0 < leaf.len := hpos leaf (by rw [hleaves]; exact List.mem_cons_self)
  rw [hleaves, Token.fullLenAll_cons, Token.fullLen]
  omega

/-- No part of a token is left, unless it is an operator, which may be cut in two. -/
theorem behind_le {held : List Element} (hg : Assembled held g) (hrun : g.run s = .ok (es, t))
    (hkind : s.kind.isOperator = false) : t = s ∨ s.behind.offset ≤ t.offset := by
  induction hg generalizing s es t with
  | emit fs =>
    cases hrun
    exact .inl rfl
  | wrap k hk hg ih => exact ih hrun hkind
  | emitFront fs hg ih =>
    obtain ⟨gs, hgs, -⟩ := run_emit_append hrun
    exact ih hgs hkind
  | fail held e he => cases hrun
  | peek hf ih => exact ih s hrun hkind
  | append hg hh ihg ihh =>
    obtain ⟨fs, gs, w, hfs, hgs, -⟩ := run_append hrun
    rcases ihg hfs hkind with rfl | hle
    · exact ihh hgs hkind
    · exact .inr (hle.trans (hh.offset_le hgs))
  | capture front hg hk ihg ihk =>
    obtain ⟨fs, w, hfs, hes⟩ := run_capture hrun
    rcases ihg hfs hkind with rfl | hle
    · exact ihk fs hes hkind
    · exact .inr (hle.trans ((hk fs).offset_le hes))
  | take => exact .inr (Nat.le_of_eq (congrArg Input.offset (behind_of_take hrun).symm))
  | takeAs k hk _ =>
    obtain ⟨a, rest, hpending, -, rfl⟩ := run_takeAs hrun
    exact .inr (Nat.le_of_eq (congrArg Input.offset (Input.behind_eq hpending)))
  | splitRightAngle =>
    cases hrun
    exact .inl (Input.splitRightAngle_eq hkind)

/-- The same of two tokens. -/
theorem behind_behind_le {held : List Element} (hg : Assembled held g) (hrun : g.run s = .ok (es, t))
    (hkind : s.kind.isOperator = false) (hbehind : s.behind.kind.isOperator = false) :
    t = s ∨ t = s.behind ∨ s.behind.behind.offset ≤ t.offset := by
  induction hg generalizing s es t with
  | emit fs =>
    cases hrun
    exact .inl rfl
  | wrap k hk hg ih => exact ih hrun hkind hbehind
  | emitFront fs hg ih =>
    obtain ⟨gs, hgs, -⟩ := run_emit_append hrun
    exact ih hgs hkind hbehind
  | fail held e he => cases hrun
  | peek hf ih => exact ih s hrun hkind hbehind
  | append hg hh ihg ihh =>
    obtain ⟨fs, gs, w, hfs, hgs, -⟩ := run_append hrun
    rcases ihg hfs hkind hbehind with rfl | rfl | hle
    · exact ihh hgs hkind hbehind
    · exact .inr (hh.behind_le hgs hbehind)
    · exact .inr (.inr (hle.trans (hh.offset_le hgs)))
  | capture front hg hk ihg ihk =>
    obtain ⟨fs, w, hfs, hes⟩ := run_capture hrun
    rcases ihg hfs hkind hbehind with rfl | rfl | hle
    · exact ihk fs hes hkind hbehind
    · exact .inr ((hk fs).behind_le hes hbehind)
    · exact .inr (.inr (hle.trans ((hk fs).offset_le hes)))
  | take => exact .inr (.inl (behind_of_take hrun))
  | takeAs k hk _ =>
    obtain ⟨a, rest, hpending, -, rfl⟩ := run_takeAs hrun
    exact .inr (.inl (Input.behind_eq hpending).symm)
  | splitRightAngle =>
    cases hrun
    exact .inl (Input.splitRightAngle_eq hkind)

end Assembled

/-- The grammar takes at least one byte where it answers. -/
def Takes (g : Grammar) : Prop := ∀ s es t, s.Ready → g.run s = .ok (es, t) → s.offset < t.offset

namespace Takes

variable {held : List Element} {g h : Grammar} {k : SyntaxKind} {f : List Element → Grammar}

theorem of_leafy (hg : Assembled [] g) (hleafy : Leafy g) : Takes g := fun _ _ _ => hg.lt_offset hleafy

theorem append_right (hg : Assembled held g) (hh : Takes h) : Takes (g ++ h) := by
  intro s es t hs hrun
  obtain ⟨fs, gs, w, hfs, hgs, -⟩ := run_append hrun
  exact Nat.lt_of_le_of_lt (hg.offset_le hfs) (hh w gs t (hg.ready hs hfs) hgs)

theorem capture (htakes : Takes g) (hf : ∀ es, Assembled (held ++ es) (f es)) :
    Takes (Grammar.capture g f) := by
  intro s es t hs hrun
  obtain ⟨fs, w, hfs, hes⟩ := run_capture hrun
  exact Nat.lt_of_lt_of_le (htakes s fs w hs hfs) ((hf fs).offset_le hes)

theorem node (hg : Takes g) : Takes (Grammar.node k g) := by
  intro s es t hs hrun
  obtain ⟨fs, w, hfs, hemit⟩ := run_capture hrun
  cases hemit
  exact hg s fs _ hs hfs

theorem peek {f : Input → Grammar} (hf : ∀ s, Takes (f s)) : Takes (Grammar.peek f) :=
  fun s => hf s s

theorem ite {p : Prop} [Decidable p] (hg : Takes g) (hh : Takes h) : Takes (if p then g else h) := by
  split
  · exact hg
  · exact hh

theorem fail (e : Input → ParseError) : Takes (Grammar.fail e) :=
  fun _ _ _ _ hrun => by cases hrun

end Takes

theorem Solid.leafy {g : Grammar} (hg : Solid g) : Leafy g := hg.imp fun _ => And.right

/-! ### Carrying a plan out -/

/-- What was built from byte `o` on, and what is left, in the first order and in the second. -/
structure BuiltMoved (P : Plan) (R : Region) (o : Nat) (es : List Element) (t : Input) (es' : List Element)
    (v : Input) : Prop where
  inputs : t.Moves P R true v
  offset : t.offset = o + fullLenAll es
  length : es'.length = es.length
  elements : strippedAll es' = strippedAll (movedAll P o es)

/-- The grammar `g'` reads from `u`, with parts in another order, what `g` reads from `s`, as far as `Q` holds
of what is left. -/
def CarriesAt (P : Plan) (R : Region) (Q : Input → Prop) (o : Nat) (s u : Input) (g h : Grammar) : Prop :=
  ∀ es t, g.run s = .ok (es, t) → ConformsAll P o es → Q t →
    ∃ es' v, h.run u = .ok (es', v) ∧ BuiltMoved P R o es t es' v

/-- The grammar reads the same with parts in another order. -/
structure Carries (P : Plan) (behind : Bool) (A : Seams) (g : Grammar) : Prop where
  assembled : Assembled [] g
  carries : ∀ {R s u}, s.Moves P R behind u → CarriesAt P R (R.Allows A) s.offset s u g g

/-- What is held is a part of what is built, and conforms to the plan with it. -/
def Places (P : Plan) (o : Nat) (held : List Element) (g : Grammar) : Prop :=
  ∀ s es t, g.run s = .ok (es, t) → ConformsAll P o es → ConformsAll P o held

variable {P : Plan} {R : Region} {b : Bool} {A A' : Seams} {Q Q' : Input → Prop} {o : Nat} {s t u v : Input}
  {g h g' h' : Grammar} {held es es' fs fs' : List Element} {k : SyntaxKind}

/-! ### What is built -/

namespace BuiltMoved

theorem nil (h : s.Moves P R true u) : BuiltMoved P R s.offset [] s [] u :=
  ⟨h, rfl, rfl, by simp⟩

theorem append (h : BuiltMoved P R o es s es' u) (h' : BuiltMoved P R s.offset fs t fs' v) :
    BuiltMoved P R o (es ++ fs) t (es' ++ fs') v where
  inputs := h'.inputs
  offset := by rw [h'.offset, h.offset, fullLenAll_append, Nat.add_assoc]
  length := by rw [List.length_append, List.length_append, h.length, h'.length]
  elements := by
    rw [strippedAll_append, h.elements, h'.elements, movedAll_append, strippedAll_append, h.offset]

theorem node (hk : k.hasParts = false) (h : BuiltMoved P R o es t es' v) :
    BuiltMoved P R o [.node k es] t [.node k es'] v where
  inputs := h.inputs
  offset := by rw [h.offset, fullLenAll, fullLen, fullLenAll, Nat.add_zero]
  length := rfl
  elements := by simp [movedIn_eq hk, h.elements]

theorem kind_eq {e e' : Element} (h : BuiltMoved P R o [e] s [e'] u) : e'.kind = e.kind := by
  have helements := h.elements
  simp only [movedAll_cons, movedAll_nil, strippedAll_cons, strippedAll_nil, List.cons.injEq,
    and_true] at helements
  rw [← kind_stripped e', helements, kind_stripped, kind_moved]

end BuiltMoved

theorem conformsAll_node (hk : k.hasParts = false) :
    ConformsAll P o [.node k es] ↔ ConformsAll P o es := by
  rw [conformsAll_single, Conforms, conformsIn_iff hk]

/-! ### What is held -/

namespace Places

theorem emit (es : List Element) : Places P o es (emit es) := by
  intro s fs t hrun hconforms
  cases hrun
  exact hconforms

theorem append (hg : Places P o held g) : Places P o held (g ++ h) := by
  intro s es t hrun hconforms
  obtain ⟨fs, gs, w, hfs, -, rfl⟩ := run_append hrun
  exact hg s fs w hfs ((conformsAll_append fs gs).mp hconforms).1

theorem emitFront (hg : Places P (o + fullLenAll es) held g) :
    Places P o (es ++ held) (Grammar.emit es ++ g) := by
  intro s fs t hrun hconforms
  obtain ⟨gs, hgs, rfl⟩ := run_emit_append hrun
  rw [conformsAll_append] at hconforms ⊢
  exact ⟨hconforms.1, hg s gs t hgs hconforms.2⟩

theorem node (hk : k.hasParts = false) (hg : Places P o held g) : Places P o held (Grammar.node k g) := by
  intro s es t hrun hconforms
  obtain ⟨fs, w, hfs, hemit⟩ := run_capture hrun
  cases hemit
  exact hg s fs _ hfs ((conformsAll_node hk).mp hconforms)

theorem peek {f : Input → Grammar} (hf : ∀ s, Places P o held (f s)) : Places P o held (Grammar.peek f) :=
  fun s => hf s s

theorem ite {p : Prop} [Decidable p] (hg : Places P o held g) (hh : Places P o held h) :
    Places P o held (if p then g else h) := by
  split
  · exact hg
  · exact hh

/-- What was captured is placed by what follows. -/
theorem capture {k : List Element → Grammar} (hg : Places P o held g) (hk : ∀ es, Places P o es (k es)) :
    Places P o held (Grammar.capture g k) := by
  intro s es t hrun hconforms
  obtain ⟨fs, w, hfs, hes⟩ := run_capture hrun
  exact hg s fs w hfs (hk fs w es t hes hconforms)

/-- What is held waits while something else is captured. -/
theorem capture_behind {k : List Element → Grammar} (hk : ∀ es, Places P o (held ++ es) (k es)) :
    Places P o held (Grammar.capture g k) := by
  intro s es t hrun hconforms
  obtain ⟨fs, w, -, hes⟩ := run_capture hrun
  exact ((conformsAll_append _ _).mp (hk fs w es t hes hconforms)).1

theorem fail (e : Input → ParseError) : Places P o held (Grammar.fail e) := fun _ _ _ hrun => by cases hrun

theorem commaList (hk : k.hasParts = false) {stop : Input → Bool} {item first : Grammar} {bound : Nat}
    (hfirst : Places P o held first) : Places P o held (Grammar.commaList k stop item bound first) := by
  cases bound with
  | zero => exact fail _
  | succ bound =>
    refine hfirst.capture fun es => peek fun _ => ite ?_ ?_
    · exact append (node hk (append (emit es)))
    · exact node hk (emit es)

/-- The element in front of suffixes is placed in the nodes of these. -/
theorem suffixes {next : Input → Element → Option (SyntaxKind × Grammar)}
    (hnext : ∀ s e, ∀ p ∈ next s e, p.1.hasParts = false) {bound : Nat} {e : Element} :
    Places P o [e] (Grammar.suffixes next bound e) := by
  induction bound generalizing e with
  | zero => exact fail _
  | succ bound ih =>
    refine peek fun s => ?_
    split
    · exact emit [e]
    · next k g hg =>
      intro w es t hrun hconforms
      obtain ⟨fs, x, -, hes⟩ := run_capture hrun
      have hnode := ih x es t hes hconforms
      rw [conformsAll_node (hnext s e (k, g) hg), ← List.singleton_append, conformsAll_append] at hnode
      exact hnode.1

end Places

/-! ### Basic steps -/

namespace CarriesAt

theorem mono (hg : CarriesAt P R Q o s u g h) (hQ : ∀ t, Q' t → Q t) : CarriesAt P R Q' o s u g h :=
  fun es t hrun hconforms ht => hg es t hrun hconforms (hQ t ht)

theorem emit (h : BuiltMoved P R o es s es' u) : CarriesAt P R Q o s u (emit es) (Grammar.emit es') := by
  intro fs t hrun _ _
  cases hrun
  exact ⟨es', u, rfl, h⟩

theorem peek {f f' : Input → Grammar} (hf : CarriesAt P R Q o s u (f s) (f' u)) :
    CarriesAt P R Q o s u (Grammar.peek f) (Grammar.peek f') :=
  hf

theorem of_rejects (hg : g.Rejects s) : CarriesAt P R Q o s u g h :=
  fun es t hrun => absurd hrun (hg es t)

/-- A test that comes out the same chooses alike. -/
theorem test {c c' : Bool} (hc : c' = c) (hg : c = true → CarriesAt P R Q o s u g g')
    (hh : c = false → CarriesAt P R Q o s u h h') :
    CarriesAt P R Q o s u (if c then g else h) (if c' then g' else h') := by
  subst hc
  cases hcase : c' with
  | true => exact hg hcase
  | false => exact hh hcase

/-- Nothing is asked at the end of the region of what takes a token. -/
theorem of_leafy (hassembled : Assembled [] g) (hleafy : Leafy g) (h : s.Moves P R b u)
    (hg : s.offset < R.stop → CarriesAt P R (R.Allows A) o s u g g') :
    CarriesAt P R (R.Allows A) o s u g g' := by
  intro es t hrun hconforms hallows
  have hlt := hassembled.lt_offset hleafy h.ready hrun
  exact hg (Nat.lt_of_lt_of_le hlt hallows.1) es t hrun hconforms hallows

/-- Nothing is asked at the end of the region where the grammar may not end there. -/
theorem of_within (hassembled : Assembled held g) (hallows : ∀ t, Q t → R.Allows A t)
    (hg : R.Allows A s → CarriesAt P R Q o s u g g') : CarriesAt P R Q o s u g g' := by
  intro es t hrun hconforms ht
  exact hg (hassembled.allows hrun (hallows t ht)) es t hrun hconforms ht

theorem of_allows (hassembled : Assembled held g)
    (hg : R.Allows A s → CarriesAt P R (R.Allows A) o s u g g') : CarriesAt P R (R.Allows A) o s u g g' :=
  of_within hassembled (fun _ => id) hg

/-- The second part decides where the first may end. -/
theorem append_of (hg : CarriesAt P R Q' o s u g g')
    (hend : ∀ fs t gs w, g.run s = .ok (fs, t) → h.run t = .ok (gs, w) → Q w → Q' t)
    (hh : ∀ fs t fs' v, g.run s = .ok (fs, t) → ConformsAll P o fs → g'.run u = .ok (fs', v) →
      BuiltMoved P R o fs t fs' v → CarriesAt P R Q t.offset t v h h') :
    CarriesAt P R Q o s u (g ++ h) (g' ++ h') := by
  intro es t hrun hconforms hallows
  obtain ⟨fs, gs, w, hfs, hgs, rfl⟩ := run_append hrun
  rw [conformsAll_append] at hconforms
  obtain ⟨fs', v, hfs', hbuilt⟩ := hg fs w hfs hconforms.1 (hend fs w gs t hfs hgs hallows)
  rw [← hbuilt.offset] at hconforms
  obtain ⟨gs', x, hgs', hbuilt'⟩ :=
    hh fs w fs' v hfs hconforms.1 hfs' hbuilt gs t hgs hconforms.2 hallows
  exact ⟨fs' ++ gs', x, run_append_eq hfs' hgs', hbuilt.append hbuilt'⟩

/-- Nothing need be read by the second part. -/
theorem append (hg : CarriesAt P R (R.Allows A) o s u g g') (hh : Carries P true A h) :
    CarriesAt P R (R.Allows A) o s u (g ++ h) (g' ++ h) := by
  exact hg.append_of (fun fs t gs w _ hgs hallows => hh.assembled.allows hgs hallows)
    fun fs t fs' v _ _ _ hbuilt => hh.carries hbuilt.inputs

/-- Something is due behind the first part, which does not end the region. -/
theorem append_due (hg : CarriesAt P R (R.Allows .none) o s u g g') (hassembled : Assembled held g)
    (hs : s.Ready) (hleafy : Leafy h) (hh : Carries P true A h) :
    CarriesAt P R (R.Allows A) o s u (g ++ h) (g' ++ h) := by
  refine hg.append_of (fun fs t gs w hfs hgs hallows => ?_) fun fs t fs' v _ _ _ hbuilt =>
    hh.carries hbuilt.inputs
  have hlt := hh.assembled.lt_offset hleafy (hassembled.ready hs hfs) hgs
  exact Region.allows_of_lt (Nat.lt_of_lt_of_le hlt hallows.1)

/-- Elements that were read before come first. -/
theorem emit_append (hemit : strippedAll es' = strippedAll (movedAll P o es))
    (hlength : es'.length = es.length) (hg : CarriesAt P R Q (o + fullLenAll es) s u g g') :
    CarriesAt P R Q o s u (Grammar.emit es ++ g) (Grammar.emit es' ++ g') := by
  intro fs t hrun hconforms hallows
  obtain ⟨gs, hgs, rfl⟩ := run_emit_append hrun
  rw [conformsAll_append] at hconforms
  obtain ⟨gs', v, hgs', hbuilt⟩ := hg gs t hgs hconforms.2 hallows
  refine ⟨es' ++ gs', v, run_append_eq rfl hgs', hbuilt.inputs, ?_, ?_, ?_⟩
  · rw [hbuilt.offset, fullLenAll_append, Nat.add_assoc]
  · rw [List.length_append, List.length_append, hlength, hbuilt.length]
  · rw [strippedAll_append, hemit, hbuilt.elements, movedAll_append, strippedAll_append]

theorem node (hk : k.hasParts = false) (hg : CarriesAt P R Q o s u g g') :
    CarriesAt P R Q o s u (Grammar.node k g) (Grammar.node k g') := by
  intro es t hrun hconforms hallows
  obtain ⟨fs, w, hfs, hemit⟩ := run_capture hrun
  cases hemit
  obtain ⟨fs', v, hfs', hbuilt⟩ := hg fs _ hfs ((conformsAll_node hk).mp hconforms) hallows
  exact ⟨_, v, run_capture_eq hfs' rfl, hbuilt.node hk⟩

/-- What is captured is held behind the elements `front` while the rest is read. -/
theorem capture_of {f f' : List Element → Grammar} (front : List Element) {o' : Nat}
    (ho : o' = o + fullLenAll front) (hg : CarriesAt P R Q' o' s u g g')
    (hplaced : ∀ es, Places P o (front ++ es) (f es))
    (hend : ∀ fs t es w, g.run s = .ok (fs, t) → (f fs).run t = .ok (es, w) → Q w → Q' t)
    (hf : ∀ fs t fs' v, BuiltMoved P R o' fs t fs' v → CarriesAt P R Q o t v (f fs) (f' fs')) :
    CarriesAt P R Q o s u (Grammar.capture g f) (Grammar.capture g' f') := by
  intro es t hrun hconforms ht
  obtain ⟨fs, w, hfs, hes⟩ := run_capture hrun
  have hheld := ((conformsAll_append _ _).mp (hplaced fs w es t hes hconforms)).2
  rw [← ho] at hheld
  obtain ⟨fs', v, hfs', hbuilt⟩ := hg fs w hfs hheld (hend fs w es t hfs hes ht)
  obtain ⟨es', x, hes', hbuilt'⟩ := hf fs w fs' v hbuilt es t hes hconforms ht
  exact ⟨es', x, run_capture_eq hfs' hes', hbuilt'⟩

/-- Something is due behind what is captured, which does not end the region. -/
theorem capture_due {f f' : List Element → Grammar} (front : List Element) {o' : Nat}
    (ho : o' = o + fullLenAll front) (hassembled : Assembled held g) (hs : s.Ready)
    (hg : CarriesAt P R (R.Allows .none) o' s u g g') (htakes : ∀ es, Takes (f es))
    (hplaced : ∀ es, Places P o (front ++ es) (f es))
    (hf : ∀ fs t fs' v, t.offset < R.stop → BuiltMoved P R o' fs t fs' v →
      CarriesAt P R (R.Allows A) o t v (f fs) (f' fs')) :
    CarriesAt P R (R.Allows A) o s u (Grammar.capture g f) (Grammar.capture g' f') := by
  refine hg.capture_of front ho hplaced (fun fs t es w hfs hes hallows => ?_) fun fs t fs' v hbuilt => ?_
  · exact Region.allows_of_lt (Nat.lt_of_lt_of_le (htakes fs t es w (hassembled.ready hs hfs) hes) hallows.1)
  · intro es w hrun hconforms hallows
    have hlt := Nat.lt_of_lt_of_le (htakes fs t es w hbuilt.inputs.ready hrun) hallows.1
    exact hf fs t fs' v hlt hbuilt es w hrun hconforms hallows

theorem capture_behind {f f' : List Element → Grammar} (front : List Element) {o' : Nat}
    (ho : o' = o + fullLenAll front) (hg : CarriesAt P R (R.Allows A) o' s u g g')
    (hassembled : ∀ es, Assembled (front ++ es) (f es)) (hplaced : ∀ es, Places P o (front ++ es) (f es))
    (hf : ∀ fs t fs' v, BuiltMoved P R o' fs t fs' v → CarriesAt P R (R.Allows A) o t v (f fs) (f' fs')) :
    CarriesAt P R (R.Allows A) o s u (Grammar.capture g f) (Grammar.capture g' f') := by
  exact hg.capture_of front ho hplaced (fun fs t es w _ hes hallows => (hassembled fs).allows hes hallows) hf

/-- What is captured is held while the rest is read. -/
theorem capture {f f' : List Element → Grammar} (hg : CarriesAt P R (R.Allows A) o s u g g')
    (hassembled : ∀ es, Assembled es (f es)) (hplaced : ∀ es, Places P o es (f es))
    (hf : ∀ fs t fs' v, BuiltMoved P R o fs t fs' v → CarriesAt P R (R.Allows A) o t v (f fs) (f' fs')) :
    CarriesAt P R (R.Allows A) o s u (Grammar.capture g f) (Grammar.capture g' f') :=
  hg.capture_behind [] rfl hassembled hplaced hf

/-- What was read just before comes first. -/
theorem built_append (hbuilt : BuiltMoved P R o es s es' u) (hg : CarriesAt P R Q s.offset s u g g') :
    CarriesAt P R Q o s u (Grammar.emit es ++ g) (Grammar.emit es' ++ g') :=
  emit_append hbuilt.elements hbuilt.length (hbuilt.offset ▸ hg)

/-- A token that is read is none behind which parts are moved. -/
theorem takeAs (k : SyntaxKind) (h : s.Moves P R b u) (hin : s.offset < R.stop) :
    CarriesAt P R Q s.offset s u (Grammar.takeAs k) (Grammar.takeAs k) := by
  intro es t hrun hconforms _
  obtain ⟨a, rest, hs, rfl, rfl⟩ := run_takeAs hrun
  obtain ⟨a', c, ts, us, hs', hu, hsees⟩ := h.exists_head hin
  rw [hs] at hs'
  cases hs'
  rw [conformsAll_single, Conforms] at hconforms
  have hbehind := h.behind hin (by rw [Input.behind_eq hs]; exact hconforms)
  rw [Input.behind_eq hs, Input.behind_eq hu] at hbehind
  refine ⟨[.token { c with kind := k }], _, ?_, hbehind, ?_, rfl, ?_⟩
  · unfold Grammar.takeAs
    simp only [hu]
  · simp [fullLenAll, fullLen, Token.fullLen, Token.len]
  · simp [hsees.text]

end CarriesAt

theorem test_of_allows {α : Type} {f : SyntaxKind → α} (h : s.Moves P R b u)
    (hA : A.Blind f) (hallows : R.Allows A s) : f u.kind = f s.kind :=
  h.test_eq f fun hstop => hA _ (hallows.2 hstop)

/-- A token that is read first is none behind which parts are moved. -/
theorem plan_of_take_append (hrun : (take ++ g).run s = .ok (es, t)) (hconforms : ConformsAll P s.offset es) :
    P s.behind.offset = .none := by
  obtain ⟨fs, gs, w, hfs, -, rfl⟩ := run_append hrun
  obtain ⟨a, rest, hpending, rfl, -⟩ := run_take hfs
  rw [conformsAll_append, conformsAll_single, Conforms] at hconforms
  rw [Input.behind_eq hpending]
  exact hconforms.1

namespace Carries

/-! ### Tokens and choices -/

theorem mono (hg : Carries P b A g) (hA : ∀ seam, A' seam = true → A seam = true) : Carries P b A' g :=
  ⟨hg.assembled, fun h => (hg.carries h).mono fun _ hallows =>
    ⟨hallows.1, fun hstop => hA _ (hallows.2 hstop)⟩⟩

theorem fail {e : Input → ParseError} (he : Assembled [] (Grammar.fail e)) :
    Carries P b A (Grammar.fail e) :=
  ⟨he, fun _ => .of_rejects (rejects_fail _)⟩

theorem expected (what : String) : Carries P b A (Grammar.expected what) := fail (.expected [] what)

theorem nothing : Carries P true A nothing := ⟨.nothing, fun h => .emit (.nil h)⟩

theorem takeAs (k : SyntaxKind) (hk : k.IsWord) (hgiven : k.IsGiven) :
    Carries P b A (Grammar.takeAs k) :=
  ⟨.takeAs k hk hgiven, fun h =>
    .of_leafy (.takeAs k hk hgiven) (Solid.takeAs k).leafy h fun hin => .takeAs k h hin⟩

theorem take : Carries P b A Grammar.take := by
  refine ⟨.take, fun h => .of_leafy .take Solid.take.leafy h fun hin => ?_⟩
  refine .peek ?_
  rw [h.kind_eq hin]
  exact .takeAs _ h hin

theorem append (hg : Carries P b A g) (hh : Carries P true A h) : Carries P b A (g ++ h) :=
  ⟨hg.assembled.append hh.assembled, fun hinputs => (hg.carries hinputs).append hh⟩

theorem append_due (hg : Carries P b .none g) (hleafy : Leafy h) (hh : Carries P true A h) :
    Carries P b A (g ++ h) :=
  ⟨hg.assembled.append hh.assembled, fun hinputs =>
    (hg.carries hinputs).append_due hg.assembled hinputs.ready hleafy hh⟩

theorem node (hk : k.hasParts = false) (hnode : k.isNode = true) (hg : Carries P b A g) :
    Carries P b A (Grammar.node k g) :=
  ⟨.node hnode hg.assembled, fun h => (hg.carries h).node hk⟩

/-- A choice that comes out the same. -/
theorem peek {f : Input → Grammar} (hf : ∀ s, Carries P b A (f s))
    (hsame : ∀ {R s u}, s.Moves P R b u → R.Allows A s → f u = f s) : Carries P b A (Grammar.peek f) := by
  have hassembled : Assembled [] (Grammar.peek f) := .peek fun s => (hf s).assembled
  refine ⟨hassembled, fun {R s u} h => .of_allows hassembled fun hallows => .peek ?_⟩
  rw [hsame h hallows]
  exact (hf s).carries h

/-- A choice of what takes a token. -/
theorem peek_leafy {f : Input → Grammar} (hf : ∀ s, Carries P b A (f s)) (hleafy : Leafy (Grammar.peek f))
    (hsame : ∀ {R s u}, s.Moves P R b u → s.offset < R.stop → f u = f s) :
    Carries P b A (Grammar.peek f) := by
  have hassembled : Assembled [] (Grammar.peek f) := .peek fun s => (hf s).assembled
  refine ⟨hassembled, fun {R s u} h => .of_leafy hassembled hleafy h fun hin => .peek ?_⟩
  rw [hsame h hin]
  exact (hf s).carries h

theorem ite {p : Prop} [Decidable p] (hg : p → Carries P b A g) (hh : ¬ p → Carries P b A h) :
    Carries P b A (if p then g else h) := by
  split
  · exact hg ‹_›
  · exact hh ‹_›

theorem expect (k : SyntaxKind) (what : String) : Carries P b A (Grammar.expect k what) := by
  refine peek_leafy (fun s => ite (fun _ => take) fun _ => expected _) (Solid.expect k what).leafy
    fun h hin => ?_
  rw [h.isAt_eq hin]

theorem onlyIf {test : Input → Bool} (hg : Carries P true A g)
    (htest : ∀ {R s u}, s.Moves P R true u → R.Allows A s → test u = test s) :
    Carries P true A (Grammar.onlyIf test g) := by
  refine peek (fun s => ite (fun _ => hg) fun _ => nothing) fun h hallows => ?_
  rw [htest h hallows]

theorem whenAt (k : SyntaxKind) (hA : A.Blind (· == k)) (hg : Carries P true A g) :
    Carries P true A (Grammar.whenAt k g) :=
  hg.onlyIf fun h hallows => test_of_allows h (f := (· == k)) hA hallows

theorem whenAtAny (ks : List SyntaxKind) (hA : A.Blind (ks.contains ·)) (hg : Carries P true A g) :
    Carries P true A (Grammar.whenAtAny ks g) :=
  hg.onlyIf fun h hallows => test_of_allows h (f := (ks.contains ·)) hA hallows

theorem eat (k : SyntaxKind) (hA : A.Blind (· == k)) : Carries P true A (Grammar.eat k) := whenAt k hA take

theorem takeN (n : Nat) : Carries P true A (Grammar.takeN n) := by
  induction n with
  | zero => exact nothing
  | succ n ih => exact take.append ih

/-! ### Loops -/

theorem repeated {next : Input → Option Grammar} {bound : Nat}
    (hnext : ∀ s g, next s = some g → Carries P true A g)
    (hsame : ∀ {R s u}, s.Moves P R true u → R.Allows A s → next u = next s) :
    Carries P true A (Grammar.repeated next bound) := by
  induction bound with
  | zero => exact fail (.tooDeep [])
  | succ bound ih =>
    refine peek (fun s => ?_) fun h hallows => ?_
    · split
      · exact nothing
      · next g hg => exact (hnext s g hg).append ih
    · rw [hsame h hallows]

end Carries

theorem run_repeated_of_none {next : Input → Option Grammar} {bound : Nat} (h : next s = none) :
    (Grammar.repeated next (bound + 1)).run s = .ok ([], s) := by
  unfold Grammar.repeated Grammar.peek
  dsimp only
  rw [h]
  rfl

theorem run_repeated_of_some {next : Input → Option Grammar} {bound : Nat} (h : next s = some g) :
    (Grammar.repeated next (bound + 1)).run s = (g ++ Grammar.repeated next bound).run s := by
  conv_lhs => unfold Grammar.repeated Grammar.peek
  dsimp only
  rw [h]

/-! ### Lists -/

/-- What follows an item of a list. -/
def behindItem (k : SyntaxKind) (stop : Input → Bool) (item : Grammar) (bound : Nat) (es : List Element) :
    Grammar :=
  peek fun s =>
    if s.isAt .comma then
      node k (emit es ++ take) ++
        peek fun s' => if stop s' then nothing else commaList k stop item bound item
    else node k (emit es)

section List

variable {stop : Input → Bool} {item first first' : Grammar} {bound : Nat}

theorem commaList_succ :
    commaList k stop item (bound + 1) first = first.capture (behindItem k stop item bound) :=
  rfl

/-- The list ends behind the item, or behind the comma that stands there. -/
theorem run_behindItem (hk : k.isNode = true) (hitem : Assembled [] item) (hs : s.Ready)
    (hrun : (behindItem k stop item bound fs).run s = .ok (es, t)) :
    t = s ∨ s.isAt .comma = true ∧ s.offset < t.offset := by
  unfold behindItem at hrun
  change (if s.isAt .comma then _ else _ : Grammar).run s = _ at hrun
  split at hrun
  · next hcomma =>
    obtain ⟨_, gs, w, hnode, hgs, -⟩ := run_append hrun
    obtain ⟨_, _, htake, hemit⟩ := run_capture hnode
    cases hemit
    obtain ⟨_, htake, -⟩ := run_emit_append htake
    obtain ⟨a, rest, hpending, -, rfl⟩ := run_take htake
    have hle := (Assembled.peek fun _ => .ite .nothing (.commaList hk _ hitem _ hitem) :
      Assembled [] _).offset_le hgs
    have hpos : 0 < a.len := hs.len_pos a (by rw [hpending]; exact List.mem_cons_self)
    dsimp only at hle
    rw [Token.fullLen] at hle
    exact .inr ⟨hcomma, by omega⟩
  · obtain ⟨_, _, hemit, hemit'⟩ := run_capture hrun
    cases hemit
    cases hemit'
    exact .inl rfl

/-- Items separated by commas: `Q` holds behind every item, be it because the list goes on with a comma or
because it ends there. -/
theorem CarriesAt.commaList_of (hk : k.hasParts = false) (hnode : k.isNode = true)
    (hassembled : Assembled [] item) (hallows : ∀ t, Q t → R.Allows A t)
    (hcomma : ∀ t, t.isAt .comma = true → t.offset < R.stop → Q t)
    (hat : ∀ {t v}, t.Moves P R true v → Q t → v.isAt .comma = t.isAt .comma)
    (hstop : ∀ {t v}, t.Moves P R true v → R.Allows A t → stop v = stop t)
    (hitem : ∀ {t v}, t.Moves P R true v → CarriesAt P R Q t.offset t v item item)
    (hs : s.Ready) (hheld : Assembled held first) (hfirst : CarriesAt P R Q o s u first first') :
    CarriesAt P R Q o s u (commaList k stop item bound first) (commaList k stop item bound first') := by
  induction bound generalizing o s u held first first' with
  | zero => exact .of_rejects (rejects_fail _)
  | succ bound ih =>
    have hrest : ∀ {t v}, t.Moves P R true v → CarriesAt P R Q t.offset t v
        (Grammar.commaList k stop item bound item) (Grammar.commaList k stop item bound item) :=
      fun h => ih h.ready hassembled (hitem h)
    have hend : ∀ es t fs w, t.Ready → (behindItem k stop item bound es).run t = .ok (fs, w) → Q w → Q t := by
      intro es t fs w ht hrun hw
      rcases run_behindItem hnode hassembled ht hrun with rfl | ⟨hcase, hlt⟩
      · exact hw
      · exact hcomma t hcase (Nat.lt_of_lt_of_le hlt (hallows w hw).1)
    rw [commaList_succ, commaList_succ]
    refine hfirst.capture_of [] rfl (fun es => ?_) (fun fs t es w hrun hes hw => ?_)
      fun fs t fs' v hbuilt => ?_
    · exact .peek fun _ => .ite (.append (.node hk (.append (.emit es)))) (.node hk (.emit es))
    · exact hend fs t es w (hheld.ready hs hrun) hes hw
    · have hlist : Assembled [] (Grammar.peek fun s' =>
          if stop s' then nothing else Grammar.commaList k stop item bound item) :=
        .peek fun _ => .ite .nothing (.commaList hnode _ hassembled _ hassembled)
      intro es w hrun hconforms hw
      have htest := hat hbuilt.inputs (hend fs t es w hbuilt.inputs.ready hrun hw)
      refine CarriesAt.peek (.test htest (fun _ => ?_) fun _ => ?_) es w hrun hconforms hw
      · have htake := CarriesAt.built_append hbuilt (Carries.take.carries (A := A) hbuilt.inputs)
        refine (htake.node hk).append_of (fun _ x _ y _ hrun' hy => hlist.allows hrun' (hallows y hy))
          fun _ x _ y _ _ _ hbuilt' => ?_
        refine .of_within hlist hallows fun hx => .peek ?_
        exact .test (hstop hbuilt'.inputs hx) (fun _ => .emit (.nil hbuilt'.inputs)) fun _ =>
          hrest hbuilt'.inputs
      · exact (CarriesAt.emit hbuilt).node hk

theorem CarriesAt.commaList (hk : k.hasParts = false) (hnode : k.isNode = true)
    (hA : A.Blind (· == .comma)) (hitem : Carries P true A item)
    (hstop : ∀ {R t v}, t.Moves P R true v → R.Allows A t → stop v = stop t)
    (hs : s.Ready) (hheld : Assembled held first)
    (hfirst : CarriesAt P R (R.Allows A) o s u first first') :
    CarriesAt P R (R.Allows A) o s u (commaList k stop item bound first)
      (commaList k stop item bound first') :=
  .commaList_of hk hnode hitem.assembled (fun _ => id)
    (fun _ _ => Region.allows_of_lt)
    (fun h hallows => test_of_allows h (f := (· == .comma)) hA hallows) hstop hitem.carries hs hheld hfirst

namespace Carries

/-- Items separated by commas, which do not end where a comma may stand behind a part. -/
theorem commaList (hk : k.hasParts = false) (hnode : k.isNode = true) (hA : A.Blind (· == .comma))
    (hitem : Carries P true A item)
    (hstop : ∀ {R t v}, t.Moves P R true v → R.Allows A t → stop v = stop t) :
    Carries P true A (Grammar.commaList k stop item bound item) :=
  ⟨.commaList hnode _ hitem.assembled _ hitem.assembled, fun h =>
    .commaList hk hnode hA hitem hstop h.ready hitem.assembled (hitem.carries h)⟩

theorem commaSeparated (hk : k.hasParts = false) (hnode : k.isNode = true) (hA : A.Blind (· == .comma))
    (hitem : Carries P true A item) : Carries P true A (commaSeparated k bound item) :=
  commaList hk hnode hA hitem fun _ _ => rfl

theorem commaSeparatedUntil {close : SyntaxKind} (hk : k.hasParts = false) (hnode : k.isNode = true)
    (hA : A.Blind (· == .comma)) (hclose : A.Blind (· == close)) (hitem : Carries P true A item) :
    Carries P true A (commaSeparatedUntil close k bound item) := by
  have hat : ∀ {R : Region} {t v : Input}, t.Moves P R true v → R.Allows A t → v.isAt close = t.isAt close :=
    fun h hallows => test_of_allows h (f := (· == close)) hclose hallows
  refine onlyIf (commaList hk hnode hA hitem hat) fun h hallows => ?_
  rw [hat h hallows]

end Carries

end List

/-! ### Suffixes -/

section Suffixes

variable {next : Input → Element → Option (SyntaxKind × Grammar)} {bound : Nat}

/-- An element with suffixes, which are told by its kind. -/
theorem CarriesAt.suffixes {e e' : Element}
    (hnodes : ∀ s e, ∀ p ∈ next s e, p.1.hasParts = false ∧ p.1.isNode = true ∧ Carries P true A p.2)
    (hsame : ∀ {R t v e e'}, t.Moves P R true v → R.Allows A t → e'.kind = e.kind → next v e' = next t e)
    (hbuilt : BuiltMoved P R o [e] s [e'] u) :
    CarriesAt P R (R.Allows A) o s u (suffixes next bound e) (suffixes next bound e') := by
  have hassembled : ∀ s e, ∀ p ∈ next s e, p.1.isNode = true ∧ Assembled [] p.2 := fun s e p hp =>
    ⟨(hnodes s e p hp).2.1, (hnodes s e p hp).2.2.assembled⟩
  induction bound generalizing e e' s u with
  | zero => exact .of_rejects (rejects_fail _)
  | succ bound ih =>
    refine .of_allows (.suffixes hassembled (bound + 1) e) fun hallows => .peek ?_
    rw [hsame hbuilt.inputs hallows hbuilt.kind_eq]
    cases hnext : next s e with
    | none => exact .emit hbuilt
    | some p =>
      obtain ⟨hk, hnode, hcarries⟩ := hnodes s e p hnext
      refine (hcarries.carries hbuilt.inputs).capture_behind [e] hbuilt.offset (fun es => ?_) (fun es => ?_)
        fun fs t fs' v hbuilt' => ih ((hbuilt.append hbuilt').node hk)
      · exact .wrap _ hnode (.suffixes hassembled bound _)
      · intro w gs t hrun hconforms
        exact (conformsAll_node hk).mp (Places.suffixes (fun s e p hp => (hnodes s e p hp).1) w gs t hrun
          hconforms)

theorem Carries.withSuffixes
    (hnodes : ∀ s e, ∀ p ∈ next s e, p.1.hasParts = false ∧ p.1.isNode = true ∧ Carries P true A p.2)
    (hsame : ∀ {R t v e e'}, t.Moves P R true v → R.Allows A t → e'.kind = e.kind → next v e' = next t e)
    (hg : Carries P b A g) : Carries P b A (withSuffixes g bound next) := by
  have hassembled : ∀ s e, ∀ p ∈ next s e, p.1.isNode = true ∧ Assembled [] p.2 := fun s e p hp =>
    ⟨(hnodes s e p hp).2.1, (hnodes s e p hp).2.2.assembled⟩
  refine ⟨.withSuffixes hg.assembled _ hassembled, fun h => (hg.carries h).capture (fun es => ?_)
    (fun es => ?_) fun fs t fs' v hbuilt => ?_⟩
  · split
    · exact .suffixes hassembled _ _
    · exact .emit _
  · split
    · exact .suffixes fun s e p hp => (hnodes s e p hp).1
    · exact .emit _
  · have hlength := hbuilt.length
    match fs, fs', hlength with
    | [], [], _ => exact .emit hbuilt
    | [e], [e'], _ => exact .suffixes hnodes hsame hbuilt
    | _ :: _ :: _, _ :: _ :: _, _ => exact .emit hbuilt

theorem Carries.nodeUnlessSingle (hk : k.hasParts = false) (hnode : k.isNode = true)
    (hg : Carries P b A g) : Carries P b A (nodeUnlessSingle k g) := by
  refine ⟨.nodeUnlessSingle hnode hg.assembled, fun h => (hg.carries h).capture (fun es => ?_)
    (fun es => ?_) fun fs t fs' v hbuilt => ?_⟩
  · split
    · exact .emit _
    · exact .wrap k hnode (.emit _)
  · split
    · exact .emit _
    · exact fun s gs t hrun hconforms => (conformsAll_node hk).mp (Places.emit _ s gs t hrun hconforms)
  · have hlength := hbuilt.length
    match fs, fs', hlength with
    | [], [], _ => exact .emit (hbuilt.node hk)
    | [e], [e'], _ => exact .emit hbuilt
    | _ :: _ :: _, _ :: _ :: _, _ => exact .emit (hbuilt.node hk)

end Suffixes

/-! ### Several tokens -/

/-- Where a parenthesis is closed is told by the kinds of the tokens up to there. -/
theorem balancedLength?_eq_some {ts us : List Token} {depth n : Nat}
    (h : balancedLength? depth ts = some n) (hn : n ≤ us.length)
    (hkinds : (us.take n).map Token.kind = (ts.take n).map Token.kind) :
    balancedLength? depth us = some n := by
  induction ts generalizing us depth n with
  | nil => cases h
  | cons t ts ih =>
    have hpos : 0 < n := by
      rcases balancedLength?_cons depth t.kind with hlast | ⟨depth', hgoes⟩
      · rw [hlast t ts rfl] at h
        cases h
        exact Nat.one_pos
      · rw [hgoes t ts rfl, Option.map_eq_some_iff] at h
        obtain ⟨m, -, rfl⟩ := h
        exact Nat.succ_pos m
    obtain ⟨m, rfl⟩ := Nat.exists_eq_succ_of_ne_zero (Nat.ne_of_gt hpos)
    obtain ⟨u, us, rfl⟩ := List.exists_cons_of_length_pos (Nat.lt_of_lt_of_le hpos hn)
    rw [List.take_succ_cons, List.take_succ_cons, List.map_cons, List.map_cons, List.cons.injEq] at hkinds
    rcases balancedLength?_cons depth t.kind with hlast | ⟨depth', hgoes⟩
    · rw [hlast u us hkinds.1, ← hlast t ts rfl, h]
    · rw [hgoes t ts rfl, Option.map_eq_some_iff] at h
      obtain ⟨m', hm, heq⟩ := h
      obtain rfl := Nat.succ.inj heq
      rw [hgoes u us hkinds.1, ih hm (Nat.le_of_succ_le_succ hn) hkinds.2]
      rfl

theorem map_kind_of_stripped {ts us : List Token}
    (h : strippedAll (us.map Element.token) = strippedAll (movedAll P o (ts.map Element.token))) :
    us.map Token.kind = ts.map Token.kind := by
  induction ts generalizing us o with
  | nil =>
    cases us with
    | nil => rfl
    | cons u us => simp at h
  | cons t ts ih =>
    cases us with
    | nil => simp at h
    | cons u us =>
      simp only [List.map_cons, strippedAll_cons, movedAll_cons, moved_token, stripped_token,
        List.cons.injEq, Element.token.injEq, Token.mk.injEq] at h
      rw [List.map_cons, List.map_cons, h.1.1, ih h.2]

theorem carries_balancedParens : Carries P true A balancedParens := by
  refine ⟨assembled_balancedParens, fun {R s u} h es t hrun hconforms hallows => ?_⟩
  unfold balancedParens peek at hrun ⊢
  dsimp only at hrun ⊢
  split at hrun
  · next n hn =>
    obtain ⟨es', v, hrun', hbuilt⟩ := (Carries.takeN (A := A) n).carries h es t hrun hconforms hallows
    obtain ⟨-, hes⟩ := run_takeN hrun
    obtain ⟨hn', hes'⟩ := run_takeN hrun'
    have hkinds := hbuilt.elements
    rw [hes, hes'] at hkinds
    rw [balancedLength?_eq_some hn hn' (map_kind_of_stripped hkinds)]
    exact ⟨es', v, hrun', hbuilt⟩
  · cases hrun

/-! ### Operators that close a generic clause -/

theorem Carries.splitRightAngle : Carries P true .none Grammar.splitRightAngle := by
  refine ⟨.splitRightAngle, fun {R s u} h => .of_allows .splitRightAngle fun hallows => ?_⟩
  intro es t hrun _ _
  cases hrun
  exact ⟨[], _, rfl, h.splitRightAngle hallows.lt_stop, s.offset_splitRightAngle, rfl, by simp⟩

end Grammar

end SwiftTidy
