/-!
# Tables

Values under texts.  A table holds each key once, in increasing order of the keys, and carries the proof
of it.
-/

namespace SwiftTidy

/-- Values under keys, in increasing order of the keys. -/
structure KeyTable (α : Type) where
  entries : List (String × α)
  ascending : entries.Pairwise (·.1 < ·.1)
  deriving DecidableEq

namespace KeyTable

variable {α : Type}

/-- No value at all. -/
def empty : KeyTable α := ⟨[], .nil⟩

instance : Inhabited (KeyTable α) := ⟨empty⟩

/-- A table is read as its entries where a list of them is wanted. -/
instance : Coe (KeyTable α) (List (String × α)) := ⟨entries⟩

/-- The value under a key. -/
def lookup? (t : KeyTable α) (k : String) : Option α := t.entries.lookup k

/-- Entries in which `f` makes the value under a key, from the one that is there. -/
def alterEntries (k : String) (f : Option α → α) : List (String × α) → List (String × α)
  | [] => [(k, f none)]
  | (j, w) :: es =>
    if k < j then (k, f none) :: (j, w) :: es
    else if k == j then (k, f (some w)) :: es
    else (j, w) :: alterEntries k f es

section

variable {k j : String} {f : Option α → α} {v : α} {es : List (String × α)}

theorem key_of_mem_alterEntries {p : String × α} (h : p ∈ alterEntries k f es) :
    p.1 = k ∨ ∃ q ∈ es, q.1 = p.1 := by
  induction es with
  | nil =>
    rw [alterEntries, List.mem_singleton] at h
    exact .inl (by rw [h])
  | cons q es ih =>
    obtain ⟨j, w⟩ := q
    have hrest : p ∈ es → p.1 = k ∨ ∃ q ∈ (j, w) :: es, q.1 = p.1 := fun hp =>
      .inr ⟨p, List.mem_cons_of_mem _ hp, rfl⟩
    rw [alterEntries] at h
    split at h
    · obtain rfl | hp := List.mem_cons.mp h
      · exact .inl rfl
      · exact .inr ⟨p, hp, rfl⟩
    · split at h
      · exact (List.mem_cons.mp h).elim (fun hp => .inl (by rw [hp])) hrest
      · obtain rfl | hp := List.mem_cons.mp h
        · exact .inr ⟨_, List.mem_cons_self, rfl⟩
        · exact (ih hp).imp_right fun ⟨q, hq, hkey⟩ => ⟨q, List.mem_cons_of_mem _ hq, hkey⟩

/-- The keys stay in increasing order. -/
theorem pairwise_alterEntries (h : es.Pairwise (·.1 < ·.1)) :
    (alterEntries k f es).Pairwise (·.1 < ·.1) := by
  induction es with
  | nil => exact List.pairwise_singleton _ _
  | cons q es ih =>
    obtain ⟨j, w⟩ := q
    obtain ⟨hfirst, hrest⟩ := List.pairwise_cons.mp h
    rw [alterEntries]
    split
    · rename_i hlt
      refine List.pairwise_cons.mpr ⟨fun p hp => ?_, h⟩
      obtain rfl | hp := List.mem_cons.mp hp
      · exact hlt
      · exact String.lt_trans hlt (hfirst p hp)
    · rename_i hnlt
      split
      · rename_i heq
        rw [eq_of_beq heq]
        exact List.pairwise_cons.mpr ⟨hfirst, hrest⟩
      · rename_i hne
        have hlt : j < k := Std.lt_of_le_of_ne (String.not_lt.mp hnlt) fun h => hne (beq_iff_eq.mpr h.symm)
        refine List.pairwise_cons.mpr ⟨fun p hp => ?_, ih hrest⟩
        obtain hkey | ⟨q, hq, hkey⟩ := key_of_mem_alterEntries hp
        · exact hkey ▸ hlt
        · exact hkey ▸ hfirst q hq

end

/-- The table in which `f` makes the value under a key, from the one that is there. -/
def alter (t : KeyTable α) (k : String) (f : Option α → α) : KeyTable α :=
  ⟨alterEntries k f t.entries, pairwise_alterEntries t.ascending⟩

/-- Puts a value under a key. -/
def set (t : KeyTable α) (k : String) (v : α) : KeyTable α := t.alter k fun _ => v

/-- The table of some entries; of several with one key the last counts. -/
def ofList (es : List (String × α)) : KeyTable α := es.foldl (fun t e => t.set e.1 e.2) empty

/-! ### What stands under a key -/

variable {t : KeyTable α} {k j : String} {f : Option α → α} {v : α} {es : List (String × α)}

theorem lookup_cons_eq_ite : ((k, v) :: es).lookup j = if j = k then some v else es.lookup j := by
  by_cases h : j = k
  · rw [h, List.lookup_cons_self, if_pos rfl]
  · rw [List.lookup_cons, beq_false_of_ne h, if_neg h]

/-- With increasing keys every entry is found under its key. -/
theorem mem_iff_lookup_eq_some (h : es.Pairwise (·.1 < ·.1)) : (k, v) ∈ es ↔ es.lookup k = some v := by
  induction es with
  | nil => simp
  | cons p es ih =>
    obtain ⟨j, w⟩ := p
    obtain ⟨hhead, htail⟩ := List.pairwise_cons.mp h
    rw [lookup_cons_eq_ite, List.mem_cons, Prod.mk.injEq]
    by_cases hk : k = j
    · subst hk
      have hfree : (k, v) ∉ es := fun hmem => String.lt_irrefl k (hhead (k, v) hmem)
      rw [if_pos rfl, Option.some_inj, or_iff_left hfree]
      exact ⟨fun h => h.2.symm, fun h => ⟨rfl, h.symm⟩⟩
    · rw [if_neg hk, ← ih htail]
      exact or_iff_right fun h => hk h.1

theorem mem_entries_iff : (k, v) ∈ t.entries ↔ t.lookup? k = some v := mem_iff_lookup_eq_some t.ascending

/-- A key has the value that was made under it, and every other key has the value that it had. -/
theorem lookup_alterEntries (h : es.Pairwise (·.1 < ·.1)) :
    (alterEntries k f es).lookup j = if j = k then some (f (es.lookup k)) else es.lookup j := by
  induction es with
  | nil => rw [alterEntries, lookup_cons_eq_ite]; rfl
  | cons p es ih =>
    obtain ⟨i, w⟩ := p
    obtain ⟨hhead, htail⟩ := List.pairwise_cons.mp h
    unfold alterEntries
    split
    · rename_i hlt
      -- the keys that are there come behind the new one
      have hnone : ((i, w) :: es).lookup k = none := by
        refine List.lookup_eq_none_iff.mpr fun q hq => bne_iff_ne.mpr ?_
        rintro rfl
        obtain rfl | hq := List.mem_cons.mp hq
        · exact String.lt_irrefl _ hlt
        · exact String.lt_irrefl _ (String.lt_trans hlt (hhead q hq))
      rw [lookup_cons_eq_ite, hnone]
    · split
      · rename_i heq
        obtain rfl : k = i := eq_of_beq heq
        rw [lookup_cons_eq_ite, lookup_cons_eq_ite, lookup_cons_eq_ite, if_pos rfl]
        split
        · rfl
        · rfl
      · rename_i hne
        have hki : k ≠ i := fun hki => hne (beq_iff_eq.mpr hki)
        rw [lookup_cons_eq_ite, lookup_cons_eq_ite, lookup_cons_eq_ite, ih htail, if_neg hki]
        by_cases hji : j = i
        · rw [if_pos hji, if_pos hji, if_neg fun hjk => hki (hjk.symm.trans hji)]
        · rw [if_neg hji, if_neg hji]

theorem lookup?_alter : (t.alter k f).lookup? j = if j = k then some (f (t.lookup? k)) else t.lookup? j :=
  lookup_alterEntries t.ascending

theorem lookup?_set : (t.set k v).lookup? j = if j = k then some v else t.lookup? j := lookup?_alter

/-- A key greater than all that are there goes behind them. -/
theorem alterEntries_of_forall_lt (h : ∀ e ∈ es, e.1 < k) :
    alterEntries k f es = es ++ [(k, f none)] := by
  induction es with
  | nil => rfl
  | cons e es ih =>
    obtain ⟨j, w⟩ := e
    obtain ⟨hj, hes⟩ := List.forall_mem_cons.mp h
    have hnlt : ¬ k < j := fun hlt => String.lt_irrefl j (String.lt_trans hj hlt)
    rw [alterEntries, if_neg hnlt, if_neg ?_, ih hes, List.cons_append]
    exact fun heq => String.lt_irrefl j (eq_of_beq heq ▸ hj)

/-- Entries that are in order make the table of them. -/
theorem entries_ofList (h : es.Pairwise (·.1 < ·.1)) : (ofList es).entries = es := by
  suffices hfold : ∀ t : KeyTable α, (t.entries ++ es).Pairwise (·.1 < ·.1) →
      (es.foldl (fun t e => t.set e.1 e.2) t).entries = t.entries ++ es from hfold empty h
  clear h
  induction es with
  | nil => exact fun t _ => (List.append_nil _).symm
  | cons e es ih =>
    intro t h
    have hset : (t.set e.1 e.2).entries = t.entries ++ [e] :=
      alterEntries_of_forall_lt fun p hp => (List.pairwise_append.mp h).2.2 p hp e List.mem_cons_self
    rw [List.foldl_cons, ih, hset, List.append_assoc, List.singleton_append]
    rwa [hset, List.append_assoc, List.singleton_append]

end KeyTable

end SwiftTidy
