/-!
# Computations that may fail

How an answer of a compound computation is taken apart into the answers of its steps.
-/

namespace SwiftTidy

namespace Except

variable {ε α β : Type}

/-- A sequence gives an answer exactly when its first step does and the second does on it. -/
theorem bind_eq_ok {x : Except ε α} {f : α → Except ε β} {b : β} :
    (x >>= f) = .ok b ↔ ∃ a, x = .ok a ∧ f a = .ok b := by
  cases x with
  | error e => simp [bind, Except.bind]
  | ok a => simp [bind, Except.bind]

/-- A sequence fails where its first step does, or the second on what the first answers. -/
theorem bind_eq_error {x : Except ε α} {f : α → Except ε β} {e : ε} :
    (x >>= f) = .error e ↔ x = .error e ∨ ∃ a, x = .ok a ∧ f a = .error e := by
  cases x with
  | error e' => simp [bind, Except.bind]
  | ok a => simp [bind, Except.bind]

/-- A mapped computation gives an answer exactly when the computation does. -/
theorem map_eq_ok {x : Except ε α} {f : α → β} {b : β} :
    x.map f = .ok b ↔ ∃ a, x = .ok a ∧ f a = b := by
  cases x with
  | error e => simp [Except.map]
  | ok a => simp [Except.map]

/-- A mapped computation fails exactly when the computation does. -/
theorem map_eq_error {x : Except ε α} {f : α → β} {e : ε} :
    x.map f = .error e ↔ x = .error e := by
  cases x with
  | error e' => simp [Except.map]
  | ok a => simp [Except.map]

/-- An answer can be looked up where nothing is known of the failures. -/
theorem toOption_eq_some {x : Except ε α} {a : α} : x.toOption = some a ↔ x = .ok a := by
  cases x with
  | error e => simp [Except.toOption]
  | ok a => simp [Except.toOption]

/-- A computation whose answer for every member is known answers for the list. -/
theorem mapM_eq_ok {f : α → Except ε β} {g : α → β} {xs : List α} (h : ∀ a ∈ xs, f a = .ok (g a)) :
    xs.mapM f = .ok (xs.map g) := by
  induction xs with
  | nil => rfl
  | cons a xs ih =>
    rw [List.forall_mem_cons] at h
    rw [List.mapM_cons, h.1, ih h.2]
    rfl

/-- Two computations that answer the same for every member answer the same for the list. -/
theorem exists_mapM_eq_mapM {f g : α → Except ε β} {xs : List α}
    (h : ∀ a ∈ xs, ∃ b, f a = .ok b ∧ g a = .ok b) :
    ∃ bs, xs.mapM f = .ok bs ∧ xs.mapM g = .ok bs := by
  induction xs with
  | nil => exact ⟨[], rfl, rfl⟩
  | cons a xs ih =>
    rw [List.forall_mem_cons] at h
    obtain ⟨b, hf, hg⟩ := h.1
    obtain ⟨bs, hfs, hgs⟩ := ih h.2
    exact ⟨b :: bs, by rw [List.mapM_cons, hf, hfs]; rfl, by rw [List.mapM_cons, hg, hgs]; rfl⟩

/-- A computation that answers for every member answers for the list. -/
theorem exists_mapM_eq_ok {f : α → Except ε β} {P : α → β → Prop} {xs : List α}
    (h : ∀ a ∈ xs, ∃ b, f a = .ok b ∧ P a b) :
    ∃ bs, xs.mapM f = .ok bs ∧ ∀ b ∈ bs, ∃ a ∈ xs, P a b := by
  induction xs with
  | nil => exact ⟨[], rfl, fun _ h => absurd h List.not_mem_nil⟩
  | cons a xs ih =>
    rw [List.forall_mem_cons] at h
    obtain ⟨b, hb, hP⟩ := h.1
    obtain ⟨bs, hbs, hall⟩ := ih h.2
    refine ⟨b :: bs, ?_, List.forall_mem_cons.mpr ⟨⟨a, List.mem_cons_self, hP⟩, fun c hc => ?_⟩⟩
    · rw [List.mapM_cons, hb]
      simp only [bind, Except.bind, hbs]
      rfl
    · obtain ⟨a', ha', hPa'⟩ := hall c hc
      exact ⟨a', List.mem_cons_of_mem a ha', hPa'⟩

/-- Where a computation answers for a list, each answer is that for a member. -/
theorem exists_of_mapM_eq_ok {f : α → Except ε β} {xs : List α} {ys : List β}
    (h : xs.mapM f = .ok ys) : ∀ b ∈ ys, ∃ a ∈ xs, f a = .ok b := by
  induction xs generalizing ys with
  | nil =>
    cases h
    simp
  | cons a xs ih =>
    rw [List.mapM_cons] at h
    obtain ⟨b, hb, h⟩ := bind_eq_ok.mp h
    obtain ⟨bs, hbs, h⟩ := bind_eq_ok.mp h
    cases h
    refine List.forall_mem_cons.mpr ⟨⟨a, List.mem_cons_self, hb⟩, fun c hc => ?_⟩
    obtain ⟨a', ha', hc'⟩ := ih hbs c hc
    exact ⟨a', List.mem_cons_of_mem a ha', hc'⟩

/-- Where a computation answers for a list, and what it may answer for a member is known, its answers are
known. -/
theorem eq_map_of_mapM_eq_ok {f : α → Except ε β} {g : α → β} {xs : List α} {ys : List β}
    (h : xs.mapM f = .ok ys) (hg : ∀ a ∈ xs, ∀ b, f a = .ok b → b = g a) : ys = xs.map g := by
  induction xs generalizing ys with
  | nil =>
    cases h
    rfl
  | cons a xs ih =>
    rw [List.mapM_cons] at h
    obtain ⟨b, hb, h⟩ := bind_eq_ok.mp h
    obtain ⟨bs, hbs, h⟩ := bind_eq_ok.mp h
    cases h
    rw [List.forall_mem_cons] at hg
    rw [hg.1 b hb, ih hbs hg.2, List.map_cons]

/-- Where a computation answers for a list, its answer for a member is one of the answers. -/
theorem mem_of_mapM_eq_ok {f : α → Except ε β} {xs : List α} {ys : List β} {a : α} {b : β}
    (h : xs.mapM f = .ok ys) (ha : a ∈ xs) (hb : f a = .ok b) : b ∈ ys := by
  induction xs generalizing ys with
  | nil => cases ha
  | cons a' xs ih =>
    rw [List.mapM_cons] at h
    obtain ⟨b', hb', h⟩ := bind_eq_ok.mp h
    obtain ⟨bs, hbs, h⟩ := bind_eq_ok.mp h
    cases h
    rcases List.mem_cons.mp ha with rfl | ha
    · rw [Except.ok.inj (hb.symm.trans hb')]
      exact List.mem_cons_self
    · exact List.mem_cons_of_mem _ (ih hbs ha)

/-- What holds of the answers for each two members holds of each two answers. -/
theorem pairwise_of_mapM_eq_ok {f : α → Except ε β} {R : β → β → Prop} {xs : List α} {ys : List β}
    (h : xs.mapM f = .ok ys)
    (hxs : xs.Pairwise fun a b => ∀ x y, f a = .ok x → f b = .ok y → R x y) : ys.Pairwise R := by
  induction xs generalizing ys with
  | nil =>
    cases h
    exact .nil
  | cons a xs ih =>
    rw [List.mapM_cons] at h
    obtain ⟨x, hx, h⟩ := bind_eq_ok.mp h
    obtain ⟨bs, hbs, h⟩ := bind_eq_ok.mp h
    cases h
    obtain ⟨hhead, htail⟩ := List.pairwise_cons.mp hxs
    refine List.pairwise_cons.mpr ⟨fun y hy => ?_, ih hbs htail⟩
    obtain ⟨b, hb, hy⟩ := exists_of_mapM_eq_ok hbs y hy
    exact hhead b hb x y hx hy

end Except

end SwiftTidy
