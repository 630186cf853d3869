import SwiftTidy.Proofs.Parse.Carried.Type

/-!
# Labels and switches with parts in another order

Here the parts are moved: the patterns of a label, and the cases of a switch.  A part is read by itself in
both orders (`ReadsAs`), whatever part it comes to stand behind.
-/

namespace SwiftTidy

open Element

namespace Grammar

variable {P : Plan} {R : Region} {b : Bool} {A : Seams} {r : Level} {s t u v : Input} {k : SyntaxKind}

/-! #### Parts -/

/-- The grammar reads one element from the tokens of the part in the second order, which is `q` without
trivia. -/
def ReadsAs (g : Grammar) (x : Part) (q : Element) : Prop :=
  ∀ o e, e.kind = .endOfFile →
    ∃ p o', g.run ⟨o, x.us, e⟩ = .ok ([p], ⟨o', x.rest', e⟩) ∧ p.stripped = q

/-- What is read as a part in the first order can be read in the second. -/
theorem readsAs_of_run (seam : Seam) {g : Grammar} {x : Part} {p : Element} {w : Input} {e : Token}
    (hg : Carries P (seam == .cases) A g) (hA : A seam = true) (hx : x.Stands P seam)
    (hready : Input.Ready ⟨x.start, x.ts, e⟩) (hrun : g.run ⟨x.start, x.ts, e⟩ = .ok ([p], w))
    (hlen : p.fullLen = x.len) (hconforms : Conforms P x.start p) :
    w = ⟨x.start + x.len, x.rest, e⟩ ∧ ReadsAs g x (moved P x.start p).stripped := by
  have hoffset : w.offset = x.start + x.len := by
    have hoffset := hg.assembled.offset_of_run hrun
    simpa [fullLenAll, hlen] using hoffset
  have hread : ∀ o e', e'.kind = .endOfFile → ∃ es' v, g.run ⟨o, x.us, e'⟩ = .ok (es', v) ∧
      BuiltMoved P (x.region seam) x.start [p] w es' v := fun o e' he' =>
    hg.carries ⟨hx.pending, hx.closer, hx.closer', hready, he'⟩ [p] w hrun
      ((conformsAll_single p).mpr hconforms) ⟨Nat.le_of_eq hoffset, fun _ => hA⟩
  constructor
  · obtain ⟨es', v, -, hbuilt⟩ := hread 0 e hready.kind_endOfFile
    have hend := (hg.assembled.kept hrun).endOfFile
    have hpending : w.pending = x.rest := (hbuilt.inputs.pending_eq hoffset).1
    obtain ⟨o, ts, e'⟩ := w
    cases hend
    cases hpending
    cases hoffset
    rfl
  · intro o e' he'
    obtain ⟨es', v, hrun', hbuilt⟩ := hread o e' he'
    obtain ⟨p', rfl⟩ := List.length_eq_one_iff.mp hbuilt.length
    have hend := (hg.assembled.kept hrun').endOfFile
    have hpending := (hbuilt.inputs.pending_eq hoffset).2
    refine ⟨p', v.offset, ?_, by simpa using hbuilt.elements⟩
    obtain ⟨o', us, e''⟩ := v
    cases hend
    cases hpending
    exact hrun'

/-! #### Items of a label -/

/-- A pattern with its condition. -/
def labelItem (r : Level) : Grammar := r.pattern ++ whenAt .whereKw (whereClause r)

theorem carries_labelItem (hr : r.Carries P) : Carries P b .none (labelItem r) :=
  .append hr.pattern (.whenAt _ (by decide) (carries_whereClause hr))

theorem run_whenAt_eq {g : Grammar} (hs : s.kind ≠ k) : (whenAt k g).run s = .ok ([], s) :=
  run_onlyIf_eq (beq_eq_false_iff_ne.mpr hs)

/-- A list of items has been read: the first of them, and the others behind a comma. -/
theorem run_labelItems {item : Grammar} {bound : Nat} {es : List Element} {w : Input}
    (hrun : (commaSeparated .switchCaseItem bound item).run s = .ok (es, w)) :
    ∃ fs t bound', bound = bound' + 1 ∧ item.run s = .ok (fs, t) ∧
      (t.isAt .comma = false ∧ es = [.node .switchCaseItem fs] ∧ w = t ∨
        ∃ c rest es', t.pending = c :: rest ∧
          es = .node .switchCaseItem (fs ++ [.token c]) :: es' ∧
          (commaSeparated .switchCaseItem bound' item).run ⟨t.offset + c.fullLen, rest, t.endOfFile⟩ =
            .ok (es', w)) := by
  cases bound with
  | zero => cases hrun
  | succ bound =>
    obtain ⟨fs, t, hfs, hbehind⟩ := run_capture hrun
    refine ⟨fs, t, bound, rfl, hfs, ?_⟩
    change (if t.isAt .comma then _ else _ : Grammar).run t = _ at hbehind
    split at hbehind
    · obtain ⟨gs, hs, x, hnode, hlist, rfl⟩ := run_append hbehind
      obtain ⟨_, _, hcomma, hemit⟩ := run_capture hnode
      cases hemit
      obtain ⟨_, htake, rfl⟩ := run_emit_append hcomma
      obtain ⟨c, rest, hpending, rfl, rfl⟩ := run_take htake
      exact .inr ⟨c, rest, hs, hpending, rfl, hlist⟩
    · next hcomma =>
      obtain ⟨_, _, hemit, hemit'⟩ := run_capture hbehind
      cases hemit
      cases hemit'
      exact .inl ⟨Bool.eq_false_of_not_eq_true hcomma, rfl, rfl⟩

/-- The pattern of an item that is a part; behind it stands no condition. -/
theorem readsAs_of_labelItem (hr : r.Carries P) {x : Part} {e : Token} {fs : List Element}
    (hx : x.Stands P .items) (hready : Input.Ready ⟨x.start, x.ts, e⟩)
    (hrun : (labelItem r).run ⟨x.start, x.ts, e⟩ = .ok (fs, t)) (hconforms : ConformsAll P x.start fs)
    (hlen : ∀ p gs, fs = p :: gs → p.fullLen = x.len) :
    ∃ p, fs = [p] ∧ t = ⟨x.start + x.len, x.rest, e⟩ ∧
      ReadsAs r.pattern x (moved P x.start p).stripped := by
  obtain ⟨ps, ws, w, hpattern, hwhere, rfl⟩ := run_append hrun
  obtain ⟨k, cs, rfl, -, -⟩ := hr.phrases .pattern hpattern
  rw [conformsAll_append, conformsAll_single] at hconforms
  obtain ⟨rfl, hreads⟩ := readsAs_of_run .items (hr.pattern (A := .all)) rfl hx hready hpattern
    (hlen _ ws rfl) hconforms.1
  have hkind : (⟨x.start + x.len, x.rest, e⟩ : Input).kind ≠ .whereKw := by
    have hcloser := hx.closer
    rw [← Input.kind_eq_headKind (s := ⟨x.start + x.len, x.rest, e⟩) hready.kind_endOfFile] at hcloser
    intro heq
    rw [heq] at hcloser
    revert hcloser
    decide
  rw [run_whenAt_eq hkind] at hwhere
  cases hwhere
  exact ⟨_, rfl, rfl, hreads⟩

/-- The items of a label, each of which holds a part and ends with it or with a comma, are read one behind
another in the first order; their patterns can be read in the second. -/
theorem readsAs_of_labelItems (hr : r.Carries P) {o o' : Nat} {ts ts' : List Token} {xs : List Part}
    {es : List Element} {bound : Nat} {e : Token} {w : Input} (hfollow : Part.Follow .items o ts xs o' ts')
    (hxs : ∀ x ∈ xs, x.Stands P .items) (hready : Input.Ready ⟨o, ts, e⟩)
    (hrun : (commaSeparated .switchCaseItem bound (labelItem r)).run ⟨o, ts, e⟩ = .ok (es, w))
    (hlens : es.map (fun e => (part .switchCaseLabel e).fullLen) = xs.map Part.len)
    (hconforms : ConformsAll P o es) :
    w = ⟨o', ts', e⟩ ∧ xs.length ≤ bound ∧
      ∃ qs, List.Forall₂ (ReadsAs r.pattern) xs qs ∧ strippedAll (movedAll P o es) = labelItems qs := by
  induction hfollow generalizing es bound with
  | last x =>
    obtain ⟨fs, t, bound, rfl, hitem, ⟨-, rfl, rfl⟩ | ⟨c, rest, es, -, rfl, hlist⟩⟩ := run_labelItems hrun
    · rw [conformsAll_node rfl] at hconforms
      obtain ⟨p, rfl, rfl, hreads⟩ := readsAs_of_labelItem hr (hxs x List.mem_cons_self) hready hitem
        hconforms fun p gs hfs => by
          rw [hfs] at hlens
          simpa [part] using hlens
      refine ⟨rfl, Nat.succ_le_succ (Nat.zero_le _), _, .cons hreads .nil, ?_⟩
      simp [movedIn_eq (k := .switchCaseItem) rfl, labelItems]
    · -- there is only one item
      obtain ⟨_, _, _, -, -, ⟨-, rfl, -⟩ | ⟨_, _, _, -, rfl, -⟩⟩ := run_labelItems hlist <;> simp at hlens
  | @cons x xs n o o' ts ts' hjoins ho hrest ih =>
    obtain ⟨fs, t, bound, rfl, hitem, ⟨-, rfl, rfl⟩ | ⟨c, rest, es, hpending, rfl, hlist⟩⟩ :=
      run_labelItems hrun
    · -- there is more than one item
      obtain ⟨y, ys, rfl, -⟩ := hrest.exists_cons
      simp at hlens
    · obtain ⟨hx, hxs⟩ := List.forall_mem_cons.mp hxs
      rw [← List.singleton_append, conformsAll_append, conformsAll_node rfl, conformsAll_append] at hconforms
      obtain ⟨p, rfl, rfl, hreads⟩ := readsAs_of_labelItem hr hx hready hitem hconforms.1.1
        fun p gs hfs => by
          rw [hfs] at hlens
          exact (List.cons.inj hlens).1
      obtain ⟨c', hcomma, hn, hkind, htext⟩ := hjoins
      obtain ⟨rfl, rfl⟩ := List.cons.inj (hpending.symm.trans hcomma)
      have hoffset : x.start + fullLenAll [Element.node .switchCaseItem ([p] ++ [.token c])] = o := by
        have hlen : p.fullLen = x.len := (List.cons.inj hlens).1
        simp [fullLenAll, fullLen, hlen, ho, hn, Nat.add_assoc]
      dsimp only at hlist
      rw [← hn, ← ho] at hlist
      have hready := (carries_labelItem (b := false) hr).assembled.ready hready hitem
      have hnext : Input.Ready ⟨o, rest, e⟩ :=
        ⟨fun a ha => hready.len_pos a (by rw [hpending]; exact List.mem_cons_of_mem c ha),
          hready.kind_endOfFile⟩
      obtain ⟨rfl, hle, qs, hqs, hitems⟩ := ih hxs hnext hlist (List.cons.inj hlens).2 (hoffset ▸ hconforms.2)
      refine ⟨rfl, Nat.succ_le_succ hle, _ :: qs, .cons hreads hqs, ?_⟩
      obtain ⟨y, ys, rfl, -⟩ := hrest.exists_cons
      obtain ⟨q, qs, -, -, rfl⟩ := List.forall₂_cons_left_iff.mp hqs
      rw [fullLenAll, fullLenAll, Nat.add_zero] at hoffset
      rw [movedAll_cons, strippedAll_cons, hoffset, hitems, labelItems]
      simp [movedIn_eq (k := .switchCaseItem) rfl, hkind, htext]

theorem run_commaSeparated_last {item : Grammar} {bound : Nat} {fs : List Element}
    (hitem : item.run s = .ok (fs, t)) (hcomma : t.isAt .comma = false) :
    (commaSeparated k (bound + 1) item).run s = .ok ([.node k fs], t) := by
  refine run_capture_eq hitem ?_
  change (if t.isAt .comma then _ else _ : Grammar).run t = _
  rw [if_neg (by rw [hcomma]; exact Bool.false_ne_true)]
  rfl

theorem run_commaSeparated_cons {item : Grammar} {bound : Nat} {fs es : List Element} {c : Token}
    {rest : List Token} {w : Input} (hitem : item.run s = .ok (fs, t)) (hpending : t.pending = c :: rest)
    (hcomma : c.kind = .comma)
    (hlist : (commaSeparated k bound item).run ⟨t.offset + c.fullLen, rest, t.endOfFile⟩ = .ok (es, w)) :
    (commaSeparated k (bound + 1) item).run s = .ok (.node k (fs ++ [.token c]) :: es, w) := by
  have hat : t.isAt .comma = true := by
    rw [Input.isAt, Input.kind, Input.kindAt, Input.nth, hpending, List.getD_cons_zero, hcomma]
    rfl
  have htake := run_take_eq hpending
  rw [Input.behind_eq hpending] at htake
  have hnode : (node k (emit fs ++ take)).run t = .ok ([.node k (fs ++ [.token c])], _) :=
    run_capture_eq (run_append_eq rfl htake) rfl
  refine run_capture_eq hitem ?_
  change (if t.isAt .comma then _ else _ : Grammar).run t = _
  rw [if_pos hat]
  exact run_append_eq hnode hlist

/-- In the second order items are read that have the patterns of the parts. -/
theorem run_labelItems_of_follow {us us' : List Token} {ys : List Part} {qs : List Element} {bound : Nat}
    {e : Token} (hfollow : Part.Follow' .items us ys us') (hys : ∀ y ∈ ys, y.Stands P .items)
    (hqs : List.Forall₂ (ReadsAs r.pattern) ys qs) (hle : ys.length ≤ bound)
    (hend : headKind us' ≠ .comma) (he : e.kind = .endOfFile) (o : Nat) :
    ∃ es o', (commaSeparated .switchCaseItem bound (labelItem r)).run ⟨o, us, e⟩ = .ok (es, ⟨o', us', e⟩) ∧
      strippedAll es = labelItems qs := by
  have hitem : ∀ y ∈ ys, ∀ q, ReadsAs r.pattern y q → ∀ o, ∃ p o',
      (labelItem r).run ⟨o, y.us, e⟩ = .ok ([p], ⟨o', y.rest', e⟩) ∧ p.stripped = q := by
    intro y hy q hread o
    obtain ⟨p, o', hrun, hp⟩ := hread o e he
    have hcloser := (hys y hy).closer'
    rw [← Input.kind_eq_headKind (s := ⟨o', y.rest', e⟩) he] at hcloser
    have hkind : (⟨o', y.rest', e⟩ : Input).kind ≠ .whereKw := by
      intro heq
      rw [heq] at hcloser
      revert hcloser
      decide
    exact ⟨p, o', run_append_eq hrun (run_whenAt_eq hkind), hp⟩
  induction hfollow generalizing qs bound o with
  | last y =>
    obtain ⟨q, _, hread, hnil, rfl⟩ := List.forall₂_cons_left_iff.mp hqs
    cases hnil
    obtain ⟨bound, rfl⟩ := Nat.exists_eq_succ_of_ne_zero (Nat.ne_of_gt hle)
    obtain ⟨p, o', hrun, rfl⟩ := hitem y List.mem_cons_self q hread o
    refine ⟨_, o', run_commaSeparated_last hrun ?_, by simp [labelItems]⟩
    rw [Input.isAt, Input.kind_eq_headKind (s := ⟨o', y.rest', e⟩) he]
    exact beq_eq_false_iff_ne.mpr hend
  | @cons y ys n us us' hjoins hrest ih =>
    obtain ⟨q, qs', hread, hqs', rfl⟩ := List.forall₂_cons_left_iff.mp hqs
    obtain ⟨bound, rfl⟩ := Nat.exists_eq_succ_of_ne_zero (Nat.ne_of_gt (Nat.zero_lt_of_lt hle))
    obtain ⟨p, o', hrun, rfl⟩ := hitem y List.mem_cons_self q hread o
    obtain ⟨c, hpending, -, hkind, htext⟩ := hjoins
    obtain ⟨es, o'', hlist, hes⟩ := ih (fun y hy => hys y (List.mem_cons_of_mem _ hy)) hqs'
      (Nat.le_of_succ_le_succ hle) hend (o' + c.fullLen) fun y hy => hitem y (List.mem_cons_of_mem _ hy)
    refine ⟨_, o'', run_commaSeparated_cons hrun hpending hkind hlist, ?_⟩
    obtain ⟨y', ys', rfl, -⟩ := hrest.exists_cons
    obtain ⟨q', qs'', -, -, rfl⟩ := List.forall₂_cons_left_iff.mp hqs'
    simp [hes, labelItems, hkind, htext]

/-! #### Nodes with parts -/

/-- The grammar reads the parts of a node of kind `k`, up to a token of kind `close`: in the first order one
behind another, and in the second as soon as `T` holds of each part and of what it is without trivia.  What
is read is `F` of that. -/
structure ReadsParts (P : Plan) (seam : Seam) (k close : SyntaxKind) (T : Part → Element → Prop)
    (F : List Element → List Element) (bound : Nat) (g : Grammar) : Prop where
  assembled : Assembled [] g
  first : ∀ {o o' ts ts' xs es e w}, Part.Follow seam o ts xs o' ts' → (∀ x ∈ xs, x.Stands P seam) →
    Input.Ready ⟨o, ts, e⟩ → g.run ⟨o, ts, e⟩ = .ok (es, w) →
    es.map (fun e => (part k e).fullLen) = xs.map Part.len → ConformsAll P o es →
    w = ⟨o', ts', e⟩ ∧ xs.length < bound ∧
      ∃ qs, List.Forall₂ T xs qs ∧ strippedAll (movedAll P o es) = F qs
  second : ∀ {us us' ys qs e}, Part.Follow' seam us ys us' → (∀ y ∈ ys, y.Stands P seam) →
    List.Forall₂ T ys qs → ys.length < bound → headKind us' = close → e.kind = .endOfFile → ∀ o,
    ∃ es o', g.run ⟨o, us, e⟩ = .ok (es, ⟨o', us', e⟩) ∧ strippedAll es = F qs
  arranged : ∀ {b es} e, b.IsProper → es.length = b.lens.length →
    Element.arranged k b (F es ++ [e]) = F (b.arrange es) ++ [e]

/-- The grammar `g'` reads from `u`, with parts in another order, what `g` reads from `s` among the children
of a node of kind `k`. -/
def CarriesIn (P : Plan) (R : Region) (Q : Input → Prop) (k : SyntaxKind) (o : Nat) (s u : Input)
    (g h : Grammar) : Prop :=
  ∀ es t, g.run s = .ok (es, t) → ConformsIn P k o es → Q t →
    ∃ es' v, h.run u = .ok (es', v) ∧ t.Moves P R true v ∧ strippedAll es' = strippedAll (movedIn P k o es)

theorem CarriesIn.node {Q : Input → Prop} {g h : Grammar} (hassembled : Assembled [] g)
    (hg : CarriesIn P R Q k s.offset s u g h) :
    CarriesAt P R Q s.offset s u (Grammar.node k g) (Grammar.node k h) := by
  intro es t hrun hconforms ht
  obtain ⟨fs, w, hfs, hemit⟩ := run_capture hrun
  cases hemit
  rw [conformsAll_single, Conforms] at hconforms
  obtain ⟨fs', v, hfs', hmoves, hstripped⟩ := hg fs _ hfs hconforms ht
  refine ⟨_, v, run_capture_eq hfs' rfl, hmoves, ?_, rfl, by simp [hstripped]⟩
  rw [hassembled.offset_of_run hfs, fullLenAll, fullLen, fullLenAll, Nat.add_zero]

/-- In front of a block stand other children. -/
theorem CarriesIn.append {Q Q' : Input → Prop} {g h : Grammar} {o : Nat}
    (hnot : ∀ fs t, g.run s = .ok (fs, t) → ∀ e ∈ fs, e.opens k = false) (hg : CarriesAt P R Q' o s u g g)
    (hend : ∀ fs t gs w, g.run s = .ok (fs, t) → h.run t = .ok (gs, w) → Q w → Q' t)
    (hh : ∀ t v, t.Moves P R true v → CarriesIn P R Q k t.offset t v h h) :
    CarriesIn P R Q k o s u (g ++ h) (g ++ h) := by
  intro es t hrun hconforms ht
  obtain ⟨fs, gs, w, hfs, hgs, rfl⟩ := run_append hrun
  rw [conformsIn_append (.of_not_opens (hnot fs w hfs))] at hconforms
  obtain ⟨fs', v, hfs', hbuilt⟩ := hg fs w hfs hconforms.1 (hend fs w gs t hfs hgs ht)
  rw [← hbuilt.offset] at hconforms
  obtain ⟨gs', x, hgs', hmoves, hstripped⟩ := hh w v hbuilt.inputs gs t hgs hconforms.2 ht
  refine ⟨_, x, run_append_eq hfs' hgs', hmoves, ?_⟩
  rw [strippedAll_append, movedIn_append (.of_not_opens (hnot fs w hfs)), strippedAll_append,
    hbuilt.elements, hstripped, hbuilt.offset]

/-- What stands behind the token that opens a block is read in the order of the block. -/
theorem ReadsParts.run_block {seam : Seam} {close : SyntaxKind} {T : Part → Element → Prop}
    {F : List Element → List Element} {bound : Nat} {g closing : Grammar} {blk : Block}
    {items : List Element} {c : Token} {w : Input} (hg : ReadsParts P seam k close T F bound g)
    (hclosing : Carries P true A closing) (hleafy : Leafy closing) (h : s.Moves P R b u)
    (hin : s.offset < R.stop) (hplan : P s.behind.offset = some blk) (hopener : seam.opener = some s.kind)
    (hlaid : IsLaid k blk (items ++ [.token c]))
    (hconforms : ConformsAll P s.behind.offset (items ++ [.token c]))
    (hitems : g.run s.behind = .ok (items, w)) (hkind : w.kind = close)
    (hclose : closing.run w = .ok ([.token c], t)) (hallows : R.Allows A t) :
    ∃ items' cs' x v, g.run u.behind = .ok (items', x) ∧ closing.run x = .ok (cs', v) ∧
      t.Moves P R true v ∧ strippedAll (items' ++ cs') =
        strippedAll (Element.arranged k blk (movedAll P s.behind.offset (items ++ [.token c]))) := by
  obtain ⟨xs, o', ts', us', hlens, hfollow, hfollow', hxs, hrest⟩ := h.exists_parts hin hplan hopener
  have hready := h.ready.behind
  have he' := h.kind_endOfFile_behind'
  have hlaidLens := hlaid.lens
  rw [List.dropLast_concat] at hlaidLens
  rw [conformsAll_append] at hconforms
  generalize s.behind = s₁ at *
  generalize u.behind = u₁ at *
  obtain ⟨o₁, ts₁, e⟩ := s₁
  obtain ⟨o₁', us₁, e'⟩ := u₁
  have hoffset := hg.assembled.offset_of_run hitems
  obtain ⟨rfl, hbound, qs, hqs, hmoved⟩ := hg.first hfollow hxs hready hitems
    (hlaidLens.symm.trans hlens.symm) hconforms.1
  have hnext : ∀ o₂, Input.Moves P R true ⟨o', ts', e⟩ ⟨o₂, us', e'⟩ :=
    fun o₂ => ⟨hrest, h.closer, h.closer', hg.assembled.ready hready hitems, he'⟩
  have hlt := hclosing.assembled.lt_offset hleafy (hnext 0).ready hclose
  -- the second order has the same parts, so there are turns enough and the same end
  have hcount : xs.length = blk.lens.length := by rw [← hlens, List.length_map]
  have hstands : ∀ y ∈ blk.arrange xs, y.Stands P seam := fun y hy => hxs y (Block.mem_of_mem_arrange hy)
  have hend : headKind us' = close := by
    rw [← Input.kind_eq_headKind (s := ⟨0, us', e'⟩) he',
      (hnext 0).kind_eq (Nat.lt_of_lt_of_le hlt hallows.1), hkind]
  obtain ⟨items', o₂, hrun, hitems'⟩ := hg.second hfollow' hstands (Block.arrange_forall₂ hqs)
    (by rw [Block.length_arrange hlaid.proper hcount]; exact hbound) hend he' o₁'
  rw [← hoffset] at hconforms
  obtain ⟨cs', v, hrun', hbuilt⟩ := hclosing.carries (hnext o₂) _ t hclose hconforms.2 hallows
  refine ⟨items', cs', _, v, hrun, hrun', hbuilt.inputs, ?_⟩
  have hlast : ∀ o, strippedAll (movedAll P o [.token c]) = [(Element.token c).stripped] := by simp
  rw [strippedAll_append, hitems', hbuilt.elements, movedAll_append, strippedAll_arranged, strippedAll_append,
    hmoved, hlast, hlast, hg.arranged _ hlaid.proper]
  rw [← hqs.length_eq, hcount]

/-- The token that opens a block, the parts of the block and the token that closes it. -/
theorem ReadsParts.carriesIn {seam : Seam} {close : SyntaxKind} {T : Part → Element → Prop}
    {F : List Element → List Element} {bound : Nat} {opening g closing : Grammar}
    (hg : ReadsParts P seam k close T F bound g) (hcarries : Carries P true .none g)
    (hopening : Carries P b .none opening) (hclosing : Carries P true A closing) (hleafy : Leafy closing)
    (hnot : Each (fun e => e.opens k = false) g)
    (hopens : ∀ es t, opening.run s = .ok (es, t) → ∃ a rest, s.pending = a :: rest ∧ es = [.token a] ∧
      t = s.behind ∧ ((Element.token a).opens k = true → seam.opener = some a.kind) ∧
      ∀ u : Input, ∀ a' us, u.pending = a' :: us → a'.kind = a.kind →
        opening.run u = .ok ([.token a'], u.behind))
    (hcloses : ∀ fs w es t, g.run s.behind = .ok (fs, w) → closing.run w = .ok (es, t) →
      w.kind = close ∧ ∃ c, es = [.token c] ∧ (Element.token c).opens k = false)
    (h : s.Moves P R b u) :
    CarriesIn P R (R.Allows A) k s.offset s u (opening ++ (g ++ closing)) (opening ++ (g ++ closing)) := by
  intro es t hrun hconforms hallows
  obtain ⟨front, behind, y, hfront, hbehind, rfl⟩ := run_append hrun
  obtain ⟨items, last, w, hitems, hlast, rfl⟩ := run_append hbehind
  obtain ⟨a, rest, hpending, rfl, rfl, hseam, hopening'⟩ := hopens front y hfront
  obtain ⟨hkind, c, rfl, hc⟩ := hcloses items w last t hitems hlast
  -- the closing token is still in the region, so the opening one is too
  have hin : s.offset < R.stop := by
    have hle := (hopening.assembled.append hg.assembled).offset_le (run_append_eq hfront hitems)
    have hw := hg.assembled.ready (hopening.assembled.ready h.ready hfront) hitems
    exact Nat.lt_of_le_of_lt hle (Nat.lt_of_lt_of_le (hclosing.assembled.lt_offset hleafy hw hlast) hallows.1)
  have hnotAll : ∀ e ∈ items ++ [.token c], e.opens k = false :=
    List.forall_mem_append.mpr ⟨hnot hitems, List.forall_mem_singleton.mpr hc⟩
  rw [List.singleton_append] at hconforms ⊢
  cases hblock : block? P k (s.offset + (Element.token a).fullLen) (.token a) with
  | none =>
    rw [conformsIn_of_none hblock, conformsIn_of_shut (.of_not_opens hnotAll), ← ConformsAll] at hconforms
    have hall : Carries P b A (opening ++ (g ++ closing)) := by
      rw [← append_assoc]
      exact .append_due (.append hopening hcarries) hleafy hclosing
    obtain ⟨es', v, hrun', hbuilt⟩ := hall.carries h _ t hrun hconforms hallows
    refine ⟨es', v, hrun', hbuilt.inputs, ?_⟩
    rw [hbuilt.elements, movedIn_of_none hblock, movedIn_of_shut (.of_not_opens hnotAll), ← movedAll_cons,
      List.singleton_append]
  | some blk =>
    rw [conformsIn_of_block hblock] at hconforms
    obtain ⟨hopensToken, hplan⟩ := block?_eq_some.mp hblock
    have hoff : s.offset + (Element.token a).fullLen = s.behind.offset := by
      rw [Input.behind_eq hpending]
      rfl
    rw [hoff] at hplan hconforms
    obtain ⟨a₁, a', ts, us, hpending', hu, hsees⟩ := h.exists_head hin
    obtain ⟨rfl, rfl⟩ := List.cons.inj (hpending.symm.trans hpending')
    have hopener : seam.opener = some s.kind := by
      rw [hseam hopensToken, Input.kind, Input.kindAt, Input.nth, hpending]
      rfl
    obtain ⟨items', cs', x, v, hitems', hclose', hmoves, hstripped⟩ :=
      hg.run_block hclosing hleafy h hin hplan hopener hconforms.1 hconforms.2 hitems hkind hlast hallows
    refine ⟨_, v, run_append_eq (hopening' u a' us hu hsees.kind) (run_append_eq hitems' hclose'), hmoves, ?_⟩
    rw [List.singleton_append]
    simp [movedIn_of_block hblock, hoff, ← hstripped, hsees.kind, hsees.text]

/-! #### Labels -/

theorem readsParts_labelItems (hr : r.Carries P) : ReadsParts P .items .switchCaseLabel .colon
    (ReadsAs r.pattern) labelItems (r.bound + 1) (commaSeparated .switchCaseItem r.bound (labelItem r)) where
  assembled := .commaSeparated rfl _ (carries_labelItem (b := true) hr).assembled
  first hfollow hxs hready hrun hlens hconforms := by
    obtain ⟨hw, hle, hread⟩ := readsAs_of_labelItems hr hfollow hxs hready hrun hlens hconforms
    exact ⟨hw, Nat.lt_succ_of_le hle, hread⟩
  second hfollow hys hqs hlt hend he o :=
    run_labelItems_of_follow hfollow hys hqs (Nat.le_of_lt_succ hlt) (by rw [hend]; decide) he o
  arranged _ := arranged_labelItems

/-- The items of a label are nodes. -/
theorem not_opens_labelItems : Each (fun e => e.opens .switchCaseLabel = false)
    (commaSeparated .switchCaseItem r.bound (labelItem r)) :=
  Each.commaSeparated (P := fun _ => True) (fun _ _ _ _ => trivial) (fun _ _ => rfl) (fun _ _ _ _ => rfl) _

theorem carries_switchCaseLabel (hr : r.Carries P) : Carries P b A (switchCaseLabel r) := by
  have hassembled := assembled_switchCaseLabel hr.assembled
  have hlist : Carries P true .none (commaSeparated .switchCaseItem r.bound (labelItem r)) :=
    .commaSeparated rfl rfl (by decide) (carries_labelItem hr)
  have heq : switchCaseLabel r = node .switchCaseLabel (take ++
      (commaSeparated .switchCaseItem r.bound (labelItem r) ++ expect .colon "`:`")) := by
    rw [← append_assoc]
    rfl
  refine ⟨hassembled, fun {R s u} h => ?_⟩
  rw [heq]
  refine CarriesIn.node (.append .take (.append hlist.assembled (.expect _ _)))
    ((readsParts_labelItems hr).carriesIn hlist .take (.expect _ _) (Solid.expect _ _).leafy
      not_opens_labelItems (fun es t hrun => ?_) (fun fs w es t _ hrun => ?_) h)
  · obtain ⟨a, rest, hpending, rfl, -⟩ := run_take hrun
    refine ⟨a, rest, hpending, rfl, behind_of_take hrun, fun hopens => ?_, fun u a' us hu _ => run_take_eq hu⟩
    have hcase : (a.kind == .caseKw) = true := by simpa [opens] using hopens
    rw [eq_of_beq hcase]
    rfl
  · obtain ⟨c, rfl, hc⟩ := Builds.expect _ hrun
    refine ⟨?_, c, rfl, by rw [opens, hc]; rfl⟩
    by_contra hne
    exact rejects_expect _ (beq_eq_false_iff_ne.mpr hne) _ _ hrun

theorem run_expect {what : String} {es : List Element} (hrun : (expect k what).run s = .ok (es, t)) :
    ∃ a rest, s.pending = a :: rest ∧ a.kind = k ∧ es = [.token a] ∧ t = s.behind := by
  have hat : s.isAt k = true := by
    by_contra hne
    exact rejects_expect _ (Bool.eq_false_of_not_eq_true hne) _ _ hrun
  have hbehind := behind_of_expect hrun
  change (if s.isAt k then take else _ : Grammar).run s = _ at hrun
  rw [if_pos hat] at hrun
  obtain ⟨a, rest, hpending, rfl, -⟩ := run_take hrun
  rw [Input.isAt, Input.kind, Input.kindAt, Input.nth, hpending, List.getD_cons_zero] at hat
  exact ⟨a, rest, hpending, eq_of_beq hat, rfl, hbehind⟩

theorem run_expect_eq {what : String} {a : Token} {rest : List Token} (hs : s.pending = a :: rest)
    (ha : a.kind = k) : (expect k what).run s = .ok ([.token a], s.behind) := by
  have hat : s.isAt k = true := by
    rw [Input.isAt, Input.kind, Input.kindAt, Input.nth, hs, List.getD_cons_zero, ha]
    exact beq_self_eq_true k
  change (if s.isAt k then take else _ : Grammar).run s = _
  rw [if_pos hat]
  exact run_take_eq hs

/-! #### Cases -/

theorem text_nth_succ (s : Input) (n : Nat) : (s.nth (n + 1)).text = (s.behind.nth n).text := by
  unfold Input.nth Input.behind
  split
  · next h => simp [h]
  · next h => simp [h]

theorem isAtUnknownAttribute_of_moves (h : s.Moves P R b u) :
    isAtUnknownAttribute u = isAtUnknownAttribute s := by
  have hat : u.isAt .atSign = s.isAt .atSign :=
    h.test_eq (· == .atSign) fun _ => by cases R.seam <;> decide
  unfold isAtUnknownAttribute
  rw [hat]
  cases hsign : s.isAt .atSign with
  | false => rfl
  | true =>
    have hkind : s.kind = .atSign := eq_of_beq hsign
    have hin := h.not_mem_kinds (by rw [hkind]; decide)
    have hplan := h.plan_eq_none hin (by rw [hkind]; decide) (by rw [hkind]; decide)
    have hbehind := h.behind hin hplan
    have hlast : s.behind.offset ≠ R.stop := by
      intro hstop
      have hadmits := h.admits hin hplan hstop
      rw [hkind] at hadmits
      cases hadmits
    have htext : u.behind.text = s.behind.text := hbehind.text_eq (Nat.lt_of_le_of_ne hbehind.le_stop hlast)
    rw [text_nth_succ, text_nth_succ]
    exact congrArg (fun text => true && text == "unknown") htext

theorem carries_caseLabel (hr : r.Carries P) : Carries P b A (peek fun s =>
      match s.kind with
      | .caseKw => switchCaseLabel r
      | .defaultKw => node .switchDefaultLabel (take ++ expect .colon "`:`")
      | _ => expected "`case` or `default`") := by
  refine .peek_leafy (fun s => ?_) (phrase_caseLabel hr.phrases).leafy fun h hin => ?_
  · split
    · exact carries_switchCaseLabel hr
    · exact .node rfl rfl (.append .take (.expect _ _))
    · exact .expected _
  · rw [h.kind_eq hin]

/-- A case ends in front of another one, or of the brace. -/
theorem carries_switchCase (hr : r.Carries P) : Carries P true .outer (switchCase r) := by
  refine .node rfl rfl (.append (.append ?_ (carries_caseLabel hr))
    (.repeated (fun s g hg => ?_) fun h hallows => ?_))
  · exact carries_attributeUse.onlyIf fun h _ => isAtUnknownAttribute_of_moves h
  · split_ifs at hg <;> cases hg
    · exact .expected _
    · exact hr.codeBlockItem
  · have hends := test_of_allows h (A := .outer) (f := ([.caseKw, .defaultKw, .rightBrace].contains ·))
      (by decide) hallows
    have hfile := test_of_allows h (A := .outer) (f := (· == .endOfFile)) (by decide) hallows
    unfold Input.isAtAny Input.isAt
    rw [isAtUnknownAttribute_of_moves h, hends, hfile]

/-- A turn of the loop over the cases. -/
def caseTurn (r : Level) (s : Input) : Option Grammar :=
  if s.isAt .rightBrace then none else some (switchCase r)

theorem caseTurn_of_brace (hat : s.isAt .rightBrace = true) : caseTurn r s = none := if_pos hat

theorem caseTurn_of_case (hat : s.isAt .rightBrace = false) : caseTurn r s = some (switchCase r) :=
  if_neg (by rw [hat]; exact Bool.false_ne_true)

theorem eq_of_caseTurn {g : Grammar} (h : caseTurn r s = some g) : g = switchCase r := by
  rw [caseTurn] at h
  split_ifs at h
  exact (Option.some.inj h).symm

/-- The case can be read in the second order, and is not taken for the end of the cases. -/
def ReadsCase (r : Level) (x : Part) (q : Element) : Prop :=
  ReadsAs (switchCase r) x q ∧ headKind x.us ≠ .rightBrace

theorem run_cases {bound : Nat} {es : List Element} {w : Input}
    (hrun : (repeated (caseTurn r) bound).run s = .ok (es, w)) :
    ∃ bound', bound = bound' + 1 ∧
      (s.isAt .rightBrace = true ∧ es = [] ∧ w = s ∨
        s.isAt .rightBrace = false ∧ ∃ p es' t, es = p :: es' ∧ (switchCase r).run s = .ok ([p], t) ∧
          (repeated (caseTurn r) bound').run t = .ok (es', w)) := by
  cases bound with
  | zero => cases hrun
  | succ bound =>
    refine ⟨bound, rfl, ?_⟩
    cases hat : s.isAt .rightBrace with
    | true =>
      rw [run_repeated_of_none (caseTurn_of_brace hat)] at hrun
      cases hrun
      exact .inl ⟨rfl, rfl, rfl⟩
    | false =>
      rw [run_repeated_of_some (caseTurn_of_case hat)] at hrun
      obtain ⟨fs, gs, t, hfs, hgs, rfl⟩ := run_append hrun
      obtain ⟨cs, w', hcs, hemit⟩ := run_capture hfs
      cases hemit
      exact .inr ⟨rfl, _, gs, t, rfl, hfs, hgs⟩

theorem readsCases_of_run (hr : r.Carries P) {o o' : Nat} {ts ts' : List Token} {xs : List Part}
    {es : List Element} {bound : Nat} {e : Token} {w : Input} (hfollow : Part.Follow .cases o ts xs o' ts')
    (hxs : ∀ x ∈ xs, x.Stands P .cases) (hready : Input.Ready ⟨o, ts, e⟩)
    (hrun : (repeated (caseTurn r) bound).run ⟨o, ts, e⟩ = .ok (es, w))
    (hlens : es.map fullLen = xs.map Part.len) (hconforms : ConformsAll P o es) :
    w = ⟨o', ts', e⟩ ∧ xs.length < bound ∧ List.Forall₂ (ReadsCase r) xs (strippedAll (movedAll P o es)) := by
  -- one case: it ends with its part, and its first token is no brace in either order
  have hfirst : ∀ x ∈ xs, ∀ p t, Input.Ready ⟨x.start, x.ts, e⟩ →
      Input.isAt ⟨x.start, x.ts, e⟩ .rightBrace = false →
      (switchCase r).run ⟨x.start, x.ts, e⟩ = .ok ([p], t) → p.fullLen = x.len → Conforms P x.start p →
      t = ⟨x.start + x.len, x.rest, e⟩ ∧ ReadsCase r x (moved P x.start p).stripped := by
    intro x hx p t hready hat hrun hlen hconforms
    obtain ⟨ht, hreads⟩ := readsAs_of_run .cases (carries_switchCase hr) rfl (hxs x hx) hready hrun hlen
      hconforms
    obtain ⟨a, a', as, as', hts, hus, hsees⟩ :=
      (hxs x hx).pending.exists_head (Nat.lt_add_of_pos_right (hxs x hx).len_pos)
    refine ⟨ht, hreads, fun hhead => ?_⟩
    rw [hus] at hhead
    rw [Input.isAt, Input.kind, Input.kindAt, Input.nth, hts, List.getD_cons_zero, ← hsees.kind] at hat
    rw [show a'.kind = .rightBrace from hhead] at hat
    cases hat
  induction hfollow generalizing es bound with
  | last x =>
    obtain ⟨bound, rfl, ⟨-, rfl, -⟩ | ⟨hat, p, es', t, rfl, hcase, hrest⟩⟩ := run_cases hrun
    · cases hlens
    · obtain ⟨hlen, hnil⟩ := List.cons.inj hlens
      obtain rfl := List.map_eq_nil_iff.mp hnil
      rw [conformsAll_single] at hconforms
      obtain ⟨rfl, hreads⟩ := hfirst x List.mem_cons_self p t hready hat hcase hlen hconforms
      obtain ⟨bound, rfl, ⟨-, -, rfl⟩ | ⟨-, _, _, _, hcons, -⟩⟩ := run_cases hrest
      · exact ⟨rfl, Nat.succ_lt_succ (Nat.succ_pos _), by simpa using hreads⟩
      · cases hcons
  | @cons x xs n o o' ts ts' hjoins ho hfollow ih =>
    obtain ⟨bound, rfl, ⟨-, rfl, -⟩ | ⟨hat, p, es', t, rfl, hcase, hrest⟩⟩ := run_cases hrun
    · cases hlens
    · obtain ⟨hlen, hlens⟩ := List.cons.inj hlens
      obtain ⟨rfl, rfl⟩ := hjoins
      rw [← List.singleton_append, conformsAll_append, conformsAll_single] at hconforms
      obtain ⟨rfl, hreads⟩ := hfirst x List.mem_cons_self p t hready hat hcase hlen hconforms.1
      have hready := (assembled_switchCase hr.assembled).ready hready hcase
      have hoffset : x.start + fullLenAll [p] = o := by simp [fullLenAll, hlen, ho]
      rw [hoffset] at hconforms
      rw [Nat.add_zero] at ho
      rw [← ho] at hrest hready
      obtain ⟨rfl, hlt, hreads'⟩ := ih (fun y hy => hxs y (List.mem_cons_of_mem x hy)) hready hrest hlens
        hconforms.2 fun y hy => hfirst y (List.mem_cons_of_mem x hy)
      refine ⟨rfl, Nat.succ_lt_succ hlt, ?_⟩
      rw [fullLenAll, fullLenAll, Nat.add_zero] at hoffset
      rw [movedAll_cons, strippedAll_cons, hoffset]
      exact .cons hreads hreads'

theorem run_cases_cons {bound : Nat} {p : Element} {es : List Element} {w : Input}
    (hat : s.isAt .rightBrace = false) (hcase : (switchCase r).run s = .ok ([p], t))
    (hrest : (repeated (caseTurn r) bound).run t = .ok (es, w)) :
    (repeated (caseTurn r) (bound + 1)).run s = .ok (p :: es, w) := by
  rw [run_repeated_of_some (caseTurn_of_case hat)]
  exact run_append_eq hcase hrest

theorem run_cases_nil {bound : Nat} (hat : s.isAt .rightBrace = true) :
    (repeated (caseTurn r) (bound + 1)).run s = .ok ([], s) :=
  run_repeated_of_none (caseTurn_of_brace hat)

/-- In the second order the parts are read as cases. -/
theorem run_cases_of_follow {us us' : List Token} {ys : List Part} {qs : List Element} {bound : Nat}
    {e : Token} (hfollow : Part.Follow' .cases us ys us') (hqs : List.Forall₂ (ReadsCase r) ys qs)
    (hlt : ys.length < bound) (hend : headKind us' = .rightBrace) (he : e.kind = .endOfFile) (o : Nat) :
    ∃ es o', (repeated (caseTurn r) bound).run ⟨o, us, e⟩ = .ok (es, ⟨o', us', e⟩) ∧ strippedAll es = qs := by
  have hstart : ∀ y : Part, headKind y.us ≠ .rightBrace → ∀ o,
      Input.isAt ⟨o, y.us, e⟩ .rightBrace = false := by
    intro y hne o
    rw [Input.isAt, Input.kind_eq_headKind (s := ⟨o, y.us, e⟩) he]
    exact beq_eq_false_iff_ne.mpr hne
  induction hfollow generalizing qs bound o with
  | last y =>
    obtain ⟨q, qs', ⟨hread, hne⟩, hqs', rfl⟩ := List.forall₂_cons_left_iff.mp hqs
    cases hqs'
    obtain ⟨bound, rfl⟩ := Nat.exists_eq_add_of_lt hlt
    obtain ⟨p, o', hrun, rfl⟩ := hread o e he
    refine ⟨[p], o', ?_, by simp⟩
    rw [List.length_singleton, Nat.add_assoc, Nat.add_comm]
    refine run_cases_cons (hstart y hne o) hrun (run_cases_nil ?_)
    rw [Input.isAt, Input.kind_eq_headKind (s := ⟨o', y.rest', e⟩) he, hend]
    rfl
  | @cons y ys n us us' hjoins hrest ih =>
    obtain ⟨q, qs', ⟨hread, hne⟩, hqs', rfl⟩ := List.forall₂_cons_left_iff.mp hqs
    obtain ⟨bound, rfl⟩ := Nat.exists_eq_succ_of_ne_zero (Nat.ne_of_gt (Nat.zero_lt_of_lt hlt))
    obtain ⟨p, o', hrun, rfl⟩ := hread o e he
    obtain ⟨rfl, -⟩ := hjoins
    obtain ⟨es, o'', hrun', rfl⟩ := ih hqs' (Nat.lt_of_succ_lt_succ hlt) hend o'
    exact ⟨p :: es, o'', run_cases_cons (hstart y hne o) hrun hrun', by simp⟩

theorem readsParts_cases (hr : r.Carries P) : ReadsParts P .cases .switchExpr .rightBrace (ReadsCase r) id
    r.bound (repeated (caseTurn r) r.bound) where
  assembled := .repeated (fun s g hg => eq_of_caseTurn hg ▸ assembled_switchCase hr.assembled) _
  first {o o' ts ts' xs es e w} hfollow hxs hready hrun hlens hconforms := by
    have hfull : es.map fullLen = xs.map Part.len := by
      rw [← hlens]
      exact List.map_congr_left fun e _ => by rw [part_of_ne (by decide)]
    obtain ⟨hw, hlt, hreads⟩ := readsCases_of_run hr hfollow hxs hready hrun hfull hconforms
    exact ⟨hw, hlt, _, hreads, rfl⟩
  second hfollow _ hqs hlt hend he o := run_cases_of_follow hfollow hqs hlt hend he o
  arranged _ := arranged_switchExpr

/-! #### Switches -/

theorem carriesAt_switchExpr (hr : r.Carries P) (h : s.Moves P R b u) (hkind : s.kind = .switchKw) :
    CarriesAt P R (R.Allows A) s.offset s u (switchExpr r) (switchExpr r) := by
  have hvalue : Carries P true .none (r.expression .condition) := hr.expression _
  have hparts := readsParts_cases hr
  have hcases : Carries P true .none (repeated (caseTurn r) r.bound) := by
    refine .repeated (fun s g hg => ?_) fun h hallows => ?_
    · obtain rfl := eq_of_caseTurn hg
      exact (carries_switchCase hr).mono fun _ heq => by cases heq
    · rw [caseTurn, caseTurn, Input.isAt, Input.isAt, h.kind_eq hallows.lt_stop]
  have hbraced : Assembled [] (expect .leftBrace "`\x7b`" ++ (repeated (caseTurn r) r.bound ++ take)) :=
    .append (.expect _ _) (.append hcases.assembled .take)
  -- the braces and the cases between them are read as one block
  have heq : switchExpr r = node .switchExpr (take ++ r.expression .condition ++
      (expect .leftBrace "`\x7b`" ++ (repeated (caseTurn r) r.bound ++ take))) := by
    rw [← append_assoc, ← append_assoc]
    rfl
  rw [heq]
  have hfront : CarriesAt P R (R.Allows .none) s.offset s u (take ++ r.expression .condition)
      (take ++ r.expression .condition) := (Carries.take.append hvalue).carries h
  refine CarriesIn.node (.append (.append .take hvalue.assembled) hbraced) (CarriesIn.append
    (fun fs t hrun => ?_) hfront (fun fs t gs w _ hrun hallows => ?_) fun t v htv => ?_)
  · obtain ⟨front, value, w, hfront, hvalue, rfl⟩ := run_append hrun
    obtain ⟨a, rest, hpending, rfl, -⟩ := run_take hfront
    obtain ⟨j, cs, rfl, -, -⟩ := hr.phrases (.expression .condition) hvalue
    refine List.forall_mem_cons.mpr ⟨?_, List.forall_mem_singleton.mpr rfl⟩
    rw [Input.kind, Input.kindAt, Input.nth, hpending, List.getD_cons_zero] at hkind
    rw [opens, hkind]
    rfl
  · have hready := (Assembled.take.append hvalue.assembled).ready h.ready ‹_›
    exact Region.allows_of_lt (Nat.lt_of_lt_of_le
      (hbraced.lt_offset (.append_left (Solid.expect _ _).leafy) hready hrun) hallows.1)
  · refine hparts.carriesIn hcases (.expect _ _) .take Solid.take.leafy (Each.repeated (fun s g hg => ?_) _)
      (fun es w hrun => ?_) (fun fs w es x hrun hclose => ?_) htv
    · obtain rfl := eq_of_caseTurn hg
      intro s es t hcase
      obtain ⟨j, cs, rfl, -, -⟩ := phrase_switchCase hr.phrases hcase
      exact List.forall_mem_singleton.mpr rfl
    · obtain ⟨a, rest, hpending, ha, rfl, rfl⟩ := run_expect hrun
      exact ⟨a, rest, hpending, rfl, rfl, fun _ => by rw [ha]; rfl, fun u a' us hu ha' =>
        run_expect_eq hu (ha'.trans ha)⟩
    · have hnone := run_repeated hrun
      rw [caseTurn] at hnone
      split_ifs at hnone with hat
      obtain ⟨c, rest, hpending, rfl, -⟩ := run_take hclose
      have hbrace : w.kind = .rightBrace := eq_of_beq hat
      refine ⟨hbrace, c, rfl, ?_⟩
      rw [Input.kind, Input.kindAt, Input.nth, hpending, List.getD_cons_zero] at hbrace
      rw [opens, hbrace]
      rfl

end Grammar

end SwiftTidy
