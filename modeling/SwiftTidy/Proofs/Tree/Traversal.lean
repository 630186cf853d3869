import SwiftTidy.Proofs.Tree.Meeting

/-!
# Walks as the calls they make

`Traverses v cs s calls s'` says which calls a visitor gets when the places `cs` are walked over one
after the other: one call for a token, and for a node one before and one behind the calls for its
children, or behind none when the visitor skips them.  The recursive walk makes such calls
(`exists_traverses`), and whatever makes them can be followed by induction over this relation alone:

* the walk with a stack of pending steps takes one step for each call (`Traverses.run_eq`);
* every call comes when exactly the places above its own are open (`Traverses.nested`);
* the enumeration that skips what the visitor skips yields the places of the calls that enter
  (`Traverses.places_eq`).

The last one needs a tree whose tokens have no children, and that no pending place is deeper than
the next one: so what the enumeration drops, when it is told to skip what is below a place, are the
children of this place and nothing else.

`walkStack_traverses` states all of it for a place of a tree.
-/

namespace SwiftTidy

namespace Visitor

variable {σ : Type} {v : Visitor σ}

/-- A call that a visitor gets, with its answer whether to visit the children. -/
inductive Call where
  | enter (c : Cursor) (visits : Bool)
  | leave (c : Cursor)
  | token (c : Cursor)

/-- The place that a call enters: a node whose children may follow, or a token. -/
def Call.entered? : Call → Option Cursor
  | enter c _ => some c
  | leave _ => none
  | token c => some c

/-- The places that some calls enter, in order. -/
def entered (calls : List Call) : List Cursor := calls.filterMap Call.entered?

@[simp] theorem entered_nil : entered [] = [] := rfl

@[simp] theorem entered_enter (c : Cursor) (visits : Bool) (calls : List Call) :
    entered (.enter c visits :: calls) = c :: entered calls := rfl

@[simp] theorem entered_leave (c : Cursor) (calls : List Call) :
    entered (.leave c :: calls) = entered calls := rfl

@[simp] theorem entered_token (c : Cursor) (calls : List Call) :
    entered (.token c :: calls) = c :: entered calls := rfl

@[simp] theorem entered_append (calls calls' : List Call) :
    entered (calls ++ calls') = entered calls ++ entered calls' :=
  List.filterMap_append

/-- The visitor that also writes down the calls it gets. -/
def recording (v : Visitor σ) : Visitor (σ × List Call) where
  enter c s := ((v.enter c s.1).1, (v.enter c s.1).2, s.2 ++ [.enter c (v.enter c s.1).1])
  leave c s := (v.leave c s.1, s.2 ++ [.leave c])
  token c s := (v.token c s.1, s.2 ++ [.token c])

/-- The calls that a visitor gets for some places, one after the other, and its state before them
and behind them. -/
inductive Traverses (v : Visitor σ) : List Cursor → σ → List Call → σ → Prop where
  | nil (s : σ) : Traverses v [] s [] s
  | token {c : Cursor} {cs : List Cursor} {s s' : σ} {calls : List Call} (hc : c.isToken = true)
      (hrest : Traverses v cs (v.token c s) calls s') :
      Traverses v (c :: cs) s (.token c :: calls) s'
  /-- What is below a node is skipped. -/
  | skip {c : Cursor} {cs : List Cursor} {s s₁ s' : σ} {calls : List Call}
      (hc : c.isToken = false) (henter : v.enter c s = (false, s₁))
      (hrest : Traverses v cs (v.leave c s₁) calls s') :
      Traverses v (c :: cs) s (.enter c false :: .leave c :: calls) s'
  | node {c : Cursor} {cs : List Cursor} {s s₁ s₂ s' : σ} {inner calls : List Call}
      (hc : c.isToken = false) (henter : v.enter c s = (true, s₁))
      (hinner : Traverses v c.children s₁ inner s₂)
      (hrest : Traverses v cs (v.leave c s₂) calls s') :
      Traverses v (c :: cs) s (.enter c true :: (inner ++ .leave c :: calls)) s'

/-- Calls that are properly nested: what is entered is left again, and every call comes when exactly
the places above its own are open, the innermost first. -/
inductive Nested : (opened : List Cursor) → List Call → Prop where
  | nil (opened : List Cursor) : Nested opened []
  | token {opened : List Cursor} {c : Cursor} {calls : List Call} (hc : c.ancestors = opened)
      (hrest : Nested opened calls) : Nested opened (.token c :: calls)
  | node {opened : List Cursor} {c : Cursor} {visits : Bool} {inner calls : List Call}
      (hc : c.ancestors = opened) (hinner : Nested (c :: opened) inner)
      (hrest : Nested opened calls) : Nested opened (.enter c visits :: (inner ++ .leave c :: calls))

namespace Traverses

variable {cs ds : List Cursor} {s s' s'' : σ} {calls calls' : List Call}

theorem append (h : v.Traverses cs s calls s') (h' : v.Traverses ds s' calls' s'') :
    v.Traverses (cs ++ ds) s (calls ++ calls') s'' := by
  induction h with
  | nil s => exact h'
  | token hc hrest ih => exact .token hc (ih h')
  | skip hc henter hrest ih => exact .skip hc henter (ih h')
  | node hc henter hinner hrest ihinner ih =>
    rw [List.cons_append, List.cons_append, List.append_assoc, List.cons_append]
    exact .node hc henter hinner (ih h')

/-! ### How many calls there are -/

/-- Every place is entered at most once. -/
theorem length_entered_le (h : v.Traverses cs s calls s') :
    (entered calls).length ≤ Element.sizeAll (cs.map Cursor.element) := by
  induction h with
  | nil s => exact Nat.zero_le _
  | @token c cs s s' calls hc hrest ih =>
    have hpos : 0 < c.element.size := by cases c.element <;> simp [Element.size]
    rw [entered_token, List.length_cons, List.map_cons, Element.sizeAll]
    omega
  | @skip c cs s s₁ s' calls hc henter hrest ih =>
    have hpos : 0 < c.element.size := by cases c.element <;> simp [Element.size]
    rw [entered_enter, entered_leave, List.length_cons, List.map_cons,
      Element.sizeAll]
    omega
  | @node c cs s s₁ s₂ s' inner calls hc henter hinner hrest ihinner ih =>
    have hsize : c.element.size = Element.sizeAll (c.children.map Cursor.element) + 1 := by
      rw [Cursor.children, Cursor.map_element_childrenFrom]
      cases c.element with
      | token t => rw [Element.size]; rfl
      | node k es => rw [Element.size]; rfl
    rw [entered_enter, entered_append, entered_leave,
      List.length_cons, List.length_append, List.map_cons, Element.sizeAll]
    omega

/-- What is left was entered. -/
theorem length_le (h : v.Traverses cs s calls s') :
    calls.length ≤ 2 * (entered calls).length := by
  induction h with
  | nil s => exact Nat.zero_le _
  | token hc hrest ih =>
    rw [entered_token, List.length_cons, List.length_cons]
    omega
  | skip hc henter hrest ih =>
    rw [entered_enter, entered_leave, List.length_cons,
      List.length_cons, List.length_cons]
    omega
  | node hc henter hinner hrest ihinner ih =>
    rw [entered_enter, entered_append, entered_leave,
      List.length_cons, List.length_append, List.length_cons, List.length_cons, List.length_append]
    omega

/-! ### What follows from the calls -/

/-- A visitor that writes down its calls gets the same ones. -/
theorem recording (h : v.Traverses cs s calls s') (log : List Call) :
    v.recording.Traverses cs (s, log) calls (s', log ++ calls) := by
  induction h generalizing log with
  | nil s =>
    rw [List.append_nil]
    exact .nil _
  | @token c cs s s' calls hc hrest ih =>
    rw [List.append_cons]
    exact .token hc (ih _)
  | @skip c cs s s₁ s' calls hc henter hrest ih =>
    rw [List.append_cons, List.append_cons]
    have hstep : v.recording.enter c (s, log) = (false, s₁, log ++ [.enter c false]) := by
      simp only [Visitor.recording, henter]
    exact .skip hc hstep (ih _)
  | @node c cs s s₁ s₂ s' inner calls hc henter hinner hrest ihinner ih =>
    have hlog : log ++ .enter c true :: (inner ++ .leave c :: calls) =
        log ++ [.enter c true] ++ inner ++ [.leave c] ++ calls := by simp
    rw [hlog]
    have hstep : v.recording.enter c (s, log) = (true, s₁, log ++ [.enter c true]) := by
      simp only [Visitor.recording, henter]
    exact .node hc hstep (ihinner _) (ih _)

/-- The walk with a stack makes one call in each step, in the same order. -/
theorem run_eq (h : v.Traverses cs s calls s') (fuel : Nat) (steps : List Step) :
    v.run (fuel + calls.length) (cs.map .enter ++ steps) s = v.run fuel steps s' := by
  induction h generalizing fuel steps with
  | nil s => rfl
  | @token c cs s s' calls hc hrest ih =>
    rw [List.length_cons, ← Nat.add_assoc, List.map_cons, List.cons_append, run, if_pos hc, ih]
  | @skip c cs s s₁ s' calls hc henter hrest ih =>
    rw [List.length_cons, List.length_cons, ← Nat.add_assoc, ← Nat.add_assoc, List.map_cons,
      List.cons_append, run, if_neg (by rw [hc]; exact Bool.false_ne_true)]
    simp only [henter]
    rw [run, ih]
  | @node c cs s s₁ s₂ s' inner calls hc henter hinner hrest ihinner ih =>
    have hlength : fuel + (Call.enter c true :: (inner ++ .leave c :: calls)).length =
        fuel + calls.length + 1 + inner.length + 1 := by
      rw [List.length_cons, List.length_append, List.length_cons]
      omega
    rw [hlength, List.map_cons, List.cons_append, run,
      if_neg (by rw [hc]; exact Bool.false_ne_true)]
    simp only [henter]
    rw [ihinner, run, ih]

/-- Every call comes when the places above its own are open. -/
theorem nested (h : v.Traverses cs s calls s') {opened : List Cursor}
    (hcs : ∀ c ∈ cs, c.ancestors = opened) : Nested opened calls := by
  induction h generalizing opened with
  | nil s => exact .nil opened
  | token hc hrest ih =>
    obtain ⟨hhere, hcs⟩ := List.forall_mem_cons.mp hcs
    exact .token hhere (ih hcs)
  | @skip c cs s s₁ s' calls hc henter hrest ih =>
    obtain ⟨hhere, hcs⟩ := List.forall_mem_cons.mp hcs
    have hinner : Nested (c :: opened) [] := .nil _
    exact .node hhere hinner (ih hcs)
  | @node c cs s s₁ s₂ s' inner calls hc henter hinner hrest ihinner ih =>
    obtain ⟨hhere, hcs⟩ := List.forall_mem_cons.mp hcs
    exact .node hhere (ihinner fun x hx => by rw [Cursor.ancestors_of_mem_children hx, hhere])
      (ih hcs)

end Traverses

/-! ### The recursive walk -/

mutual
/-- The recursive walk over an element makes calls in order. -/
theorem exists_traverses_walkOf : ∀ (e : Element) (c : Cursor) (s : σ), c.element = e →
    ∃ calls, v.Traverses [c] s calls (v.walkOf e c s)
  | .token t, c, s, hc => by
    have hkind : c.isToken = t.kind.isToken := by rw [Cursor.isToken, Cursor.kind, hc]; rfl
    rw [walkOf]
    cases ht : t.kind.isToken with
    | true =>
      rw [if_pos rfl]
      exact ⟨_, .token (hkind.trans ht) (.nil _)⟩
    | false =>
      -- a leaf with the kind of a node has no children to visit
      have hchildren : c.children = [] := by rw [Cursor.children, hc]; rfl
      rw [if_neg Bool.false_ne_true]
      cases henter : v.enter c s with
      | mk visits s₁ =>
        cases visits with
        | false => exact ⟨_, .skip (hkind.trans ht) henter (.nil _)⟩
        | true =>
          have hinner : v.Traverses c.children s₁ [] s₁ := by
            rw [hchildren]
            exact .nil s₁
          exact ⟨_, .node (hkind.trans ht) henter hinner (.nil _)⟩
  | .node k es, c, s, hc => by
    have hkind : c.isToken = k.isToken := by rw [Cursor.isToken, Cursor.kind, hc]; rfl
    have hchildren : c.children = Cursor.childrenFrom c 0 c.offset es := by
      rw [Cursor.children, hc]; rfl
    rw [walkOf]
    cases hk : k.isToken with
    | true =>
      rw [if_pos rfl]
      exact ⟨_, .token (hkind.trans hk) (.nil _)⟩
    | false =>
      rw [if_neg Bool.false_ne_true]
      cases henter : v.enter c s with
      | mk visits s₁ =>
        cases visits with
        | false => exact ⟨_, .skip (hkind.trans hk) henter (.nil _)⟩
        | true =>
          obtain ⟨calls, hcalls⟩ := exists_traverses_walkOfAll es c 0 c.offset s₁
          exact ⟨_, .node (hkind.trans hk) henter (hchildren ▸ hcalls) (.nil _)⟩
theorem exists_traverses_walkOfAll : ∀ (es : List Element) (p : Cursor) (i o : Nat) (s : σ),
    ∃ calls, v.Traverses (Cursor.childrenFrom p i o es) s calls (v.walkOfAll es p i o s)
  | [], p, i, o, s => by
    rw [walkOfAll]
    exact ⟨[], .nil s⟩
  | e :: es, p, i, o, s => by
    obtain ⟨calls, hcalls⟩ := exists_traverses_walkOf e (.child p i o e) s rfl
    obtain ⟨calls', hcalls'⟩ := exists_traverses_walkOfAll es p (i + 1) (o + e.fullLen)
      (v.walkOf e (.child p i o e) s)
    rw [walkOfAll]
    exact ⟨calls ++ calls', hcalls.append hcalls'⟩
end

/-- The recursive walk makes calls in order. -/
theorem exists_traverses (v : Visitor σ) (c : Cursor) (s : σ) :
    ∃ calls, v.Traverses [c] s calls (v.walk c s) :=
  exists_traverses_walkOf c.element c s rfl

/-- The walk with a stack ends where the calls lead. -/
theorem Traverses.walkStack_eq {c : Cursor} {s s' : σ} {calls : List Call}
    (h : v.Traverses [c] s calls s') : v.walkStack c s = s' := by
  have hentered := h.length_entered_le
  have hlength := h.length_le
  rw [List.map_singleton, Element.sizeAll, Element.sizeAll, Nat.add_zero] at hentered
  obtain ⟨fuel, hfuel⟩ : ∃ fuel, 2 * c.element.size + 1 = fuel + 1 + calls.length :=
    ⟨2 * c.element.size - calls.length, by omega⟩
  have hrun := h.run_eq (fuel + 1) []
  rw [walkStack, hfuel]
  exact hrun

end Visitor

/-! ### The enumeration that skips -/

/-- What counts as a token in a well-kinded tree has no children. -/
theorem Cursor.children_eq_nil {c : Cursor} (hkinded : c.element.WellKinded)
    (hc : c.isToken = true) : c.children = [] := by
  cases he : c.element with
  | token t => rw [children, he]; rfl
  | node k es =>
    rw [he] at hkinded
    rw [isToken, kind, he, Element.kind, hkinded.isToken_eq_false] at hc
    cases hc

namespace Walker

/-- Nothing that is not deeper than a place is a child of it. -/
theorem dropWhile_isChildOf {c : Cursor} {rest : List Cursor}
    (hrest : ∀ x ∈ rest, x.path.length ≤ c.path.length) :
    rest.dropWhile (isChildOf · c) = rest := by
  cases rest with
  | nil => rfl
  | cons x rest =>
    refine List.dropWhile_cons_of_neg fun hchild => ?_
    have hle := hrest x List.mem_cons_self
    rw [isChildOf, Option.any_eq_true] at hchild
    obtain ⟨p, hp, hpath⟩ := hchild
    cases x with
    | root e => cases hp
    | child q i o e =>
      cases hp
      rw [Cursor.path, List.length_append, eq_of_beq hpath] at hle
      exact absurd hle (Nat.not_succ_le_self _)

theorem isChildOf_of_mem_children {c x : Cursor} (hx : x ∈ c.children) :
    isChildOf x c = true := by
  obtain ⟨front, e, back, -, rfl⟩ := Cursor.exists_of_mem_children hx
  rw [isChildOf, Cursor.parent?, Option.any_some]
  exact beq_self_eq_true c.path

theorem length_path_of_mem_children {c x : Cursor} (hx : x ∈ c.children) :
    x.path.length = c.path.length + 1 := by
  obtain ⟨front, e, back, -, rfl⟩ := Cursor.exists_of_mem_children hx
  rw [Cursor.path, List.length_append, List.length_singleton]

/-- The places of one depth, with others behind them that are not deeper, are not deeper than one
of this depth. -/
theorem pending_le {c : Cursor} {cs rest : List Cursor} {depth : Nat} (hc : c.path.length = depth)
    (hcs : ∀ x ∈ cs, x.path.length = depth) (hrest : ∀ x ∈ rest, x.path.length ≤ depth) :
    ∀ x ∈ cs ++ rest, x.path.length ≤ c.path.length := by
  rw [List.forall_mem_append, hc]
  exact ⟨fun x hx => Nat.le_of_eq (hcs x hx), hrest⟩

/-- What is skipped behind a place are its children. -/
theorem skipChildren_children {c : Cursor} {rest : List Cursor}
    (hrest : ∀ x ∈ rest, x.path.length ≤ c.path.length) :
    skipChildren ⟨c.children ++ rest⟩ c = ⟨rest⟩ := by
  rw [skipChildren, List.dropWhile_append_of_pos fun x hx => isChildOf_of_mem_children hx,
    dropWhile_isChildOf hrest]

end Walker

namespace Visitor

variable {σ : Type} {v : Visitor σ}

/-- The enumeration that skips what the visitor skips yields the places that are entered. -/
theorem Traverses.places_eq {cs rest : List Cursor} {s s' : σ} {calls : List Call}
    {skip : Cursor → Bool} {depth : Nat} (h : v.Traverses cs s calls s')
    (hskip : ∀ c visits, .enter c visits ∈ calls → visits = !skip c)
    (hkinded : ∀ c ∈ cs, c.element.WellKinded) (hcs : ∀ c ∈ cs, c.path.length = depth)
    (hrest : ∀ c ∈ rest, c.path.length ≤ depth) (fuel : Nat) :
    Walker.places skip (fuel + (entered calls).length) ⟨cs ++ rest⟩ =
      entered calls ++ Walker.places skip fuel ⟨rest⟩ := by
  induction h generalizing rest depth fuel with
  | nil s => rfl
  | @token c cs s s' calls hc hafter ih =>
    obtain ⟨hhere, hkinded⟩ := List.forall_mem_cons.mp hkinded
    obtain ⟨hdepth, hcs⟩ := List.forall_mem_cons.mp hcs
    have hskip : ∀ c visits, .enter c visits ∈ calls → visits = !skip c := fun x visits hx =>
      hskip x visits (List.mem_cons_of_mem _ hx)
    have hnext := Walker.skipChildren_children (Walker.pending_le hdepth hcs hrest)
    rw [entered_token, List.length_cons, ← Nat.add_assoc, List.cons_append, Walker.places,
      Walker.next?]
    dsimp only
    rw [Cursor.children_eq_nil hhere hc, List.nil_append] at hnext ⊢
    rw [hnext, ite_self, ih hskip hkinded hcs hrest, List.cons_append]
  | @skip c cs s s₁ s' calls hc henter hafter ih =>
    obtain ⟨hhere, hkinded⟩ := List.forall_mem_cons.mp hkinded
    obtain ⟨hdepth, hcs⟩ := List.forall_mem_cons.mp hcs
    have hchosen : skip c = true := by
      simpa using (hskip c false List.mem_cons_self).symm
    have hskip : ∀ c visits, .enter c visits ∈ calls → visits = !skip c := fun x visits hx =>
      hskip x visits (List.mem_cons_of_mem _ (List.mem_cons_of_mem _ hx))
    have hnext := Walker.skipChildren_children (Walker.pending_le hdepth hcs hrest)
    rw [entered_enter, entered_leave, List.length_cons, ← Nat.add_assoc, List.cons_append,
      Walker.places, Walker.next?]
    dsimp only
    rw [if_pos hchosen, hnext, ih hskip hkinded hcs hrest, List.cons_append]
  | @node c cs s s₁ s₂ s' inner calls hc henter hinner hafter ihinner ih =>
    obtain ⟨hhere, hkinded⟩ := List.forall_mem_cons.mp hkinded
    obtain ⟨hdepth, hcs⟩ := List.forall_mem_cons.mp hcs
    have hchosen : skip c = false := by
      simpa using (hskip c true List.mem_cons_self).symm
    have hinside : ∀ c visits, .enter c visits ∈ inner → visits = !skip c := fun x visits hx =>
      hskip x visits (List.mem_cons_of_mem _ (List.mem_append_left _ hx))
    have hbehind : ∀ c visits, .enter c visits ∈ calls → visits = !skip c := fun x visits hx =>
      hskip x visits (List.mem_cons_of_mem _ (List.mem_append_right _ (List.mem_cons_of_mem _ hx)))
    -- the places that were pending wait behind the children, which are deeper
    have hpending : ∀ x ∈ cs ++ rest, x.path.length ≤ c.path.length + 1 := fun x hx =>
      Nat.le_succ_of_le (Walker.pending_le hdepth hcs hrest x hx)
    have hbelow := ihinner hinside (fun x hx => Cursor.wellKinded_of_mem_children hhere hx)
      (fun x hx => Walker.length_path_of_mem_children hx) hpending (fuel + (entered calls).length)
    have hlength : fuel + (entered (.enter c true :: (inner ++ .leave c :: calls))).length =
        fuel + (entered calls).length + (entered inner).length + 1 := by
      rw [entered_enter, entered_append, entered_leave, List.length_cons, List.length_append]
      omega
    rw [hlength, entered_enter, entered_append, entered_leave, List.cons_append, Walker.places,
      Walker.next?]
    dsimp only
    rw [if_neg (by rw [hchosen]; exact Bool.false_ne_true), hbelow, ih hbehind hkinded hcs hrest,
      List.cons_append, List.append_assoc]

/-- **Walks**: at every place of a well-kinded tree the walk with a stack of pending steps ends as
the recursive walk does, whatever the visitor and its state.  The calls it makes are, in order, one
before the children of a node, those for the children from left to right unless they are skipped,
and one behind them; each comes when exactly the places above its own are open.  An enumeration that
is told to skip what is below the places whose children the visitor skips yields exactly the places
that are entered, in this order. -/
theorem walkStack_traverses {c : Cursor} (hkinded : c.element.WellKinded) (v : Visitor σ) (s : σ) :
    v.walkStack c s = v.walk c s ∧
    ∃ calls, v.recording.walkStack c (s, []) = (v.walk c s, calls) ∧
      v.Traverses [c] s calls (v.walk c s) ∧ Nested c.ancestors calls ∧
      ∀ skip : Cursor → Bool, (∀ x visits, .enter x visits ∈ calls → visits = !skip x) →
        c.descendantsSkipping skip = entered calls := by
  obtain ⟨calls, hcalls⟩ := exists_traverses v c s
  refine ⟨hcalls.walkStack_eq, calls, (hcalls.recording []).walkStack_eq, hcalls,
    hcalls.nested (List.forall_mem_singleton.mpr rfl), fun skip hskip => ?_⟩
  have hentered := hcalls.length_entered_le
  rw [List.map_singleton, Element.sizeAll, Element.sizeAll, Nat.add_zero] at hentered
  obtain ⟨fuel, hfuel⟩ : ∃ fuel, c.element.size = fuel + (entered calls).length :=
    ⟨c.element.size - (entered calls).length, by omega⟩
  have hrest : ∀ x ∈ ([] : List Cursor), x.path.length ≤ c.path.length := by simp
  have hplaces := hcalls.places_eq hskip (List.forall_mem_singleton.mpr hkinded)
    (List.forall_mem_singleton.mpr rfl) hrest fuel
  have hend : Walker.places skip fuel ⟨[]⟩ = [] := by cases fuel <;> rfl
  rw [Cursor.descendantsSkipping, hfuel, Walker.ofCursor]
  rwa [hend, List.append_nil, List.append_nil] at hplaces

/-- A visitor that visits the children of the first two nodes skips those of the last block. -/
theorem walkStack_traverses_counting :
    let comma : Element := .token ⟨.comma, ",", [], []⟩
    let tree : Element := .node .sourceFile [.node .codeBlock [comma], .node .codeBlock [comma]]
    let v : Visitor Nat := ⟨fun _ n => (n < 2, n + 1), fun _ n => n, fun _ n => n⟩
    tree.WellKinded ∧ v.walkStack (.root tree) 0 = v.walk (.root tree) 0 ∧
    ((Cursor.root tree).descendantsSkipping (·.path == [1])).map Cursor.path =
      [[], [0], [0, 0], [1]] ∧
    ∃ calls, v.recording.walkStack (.root tree) (0, []) = (3, calls) ∧
      (Cursor.root tree).descendantsSkipping (·.path == [1]) = entered calls := by
  intro comma tree v
  have hkinded : tree.WellKinded := by simp [tree, comma]; decide
  obtain ⟨hsame, calls, hrecorded, -, -, hskips⟩ := walkStack_traverses (c := .root tree) hkinded v 0
  refine ⟨hkinded, hsame, by decide, calls, hrecorded, hskips _ fun x visits hx => ?_⟩
  have hanswers : ((v.recording.walkStack (.root tree) (0, [])).2.all fun call =>
      match call with
      | .enter x visits => visits == !(x.path == [1])
      | _ => true) = true := by decide
  rw [hrecorded] at hanswers
  exact eq_of_beq (List.all_eq_true.mp hanswers _ hx)

end Visitor

end SwiftTidy
