import SwiftTidy.Config.Settings
import SwiftTidy.Proofs.Lint.Registrations

/-!
# Tables in configuration files

The tables of a document have their entries in strictly increasing order of the keys, on every level
(`Toml.ordered_of_parse`).  Every step of the reader puts one slot under one key, so it is enough that this
keeps the order (`AllOrdered.putSlot`).  So settings have the options of the rules exactly as they stand in
the document (`Settings.rules_of_parse`).
-/

namespace SwiftTidy

namespace Toml

/-- Every table in the value has its entries in increasing order of the keys. -/
inductive Ordered : Toml → Prop
  | table {es : List (String × Toml)} (hkeys : (es.map (·.1)).Pairwise (· < ·))
      (hvalues : ∀ p ∈ es, Ordered p.2) : Ordered (.table es)
  | array {xs : List Toml} (hitems : ∀ v ∈ xs, Ordered v) : Ordered (.array xs)
  | plain {v : Toml} (htable : v.table? = none) (harray : v.array? = none) : Ordered v

/-- Every table in the slot has its entries in increasing order of the keys. -/
inductive Slot.Ordered : Slot → Prop
  | value {v : Toml} (hv : v.Ordered) : Ordered (.value v)
  | table {origin : Origin} {es : List (String × Slot)} (hkeys : (es.map (·.1)).Pairwise (· < ·))
      (hslots : ∀ p ∈ es, Ordered p.2) : Ordered (.table origin es)
  | tables {front : List Toml} {last : List (String × Slot)} (hfront : ∀ v ∈ front, v.Ordered)
      (hkeys : (last.map (·.1)).Pairwise (· < ·)) (hslots : ∀ p ∈ last, Ordered p.2) :
      Ordered (.tables front last)

/-- A table under construction has its slots in increasing order of the keys. -/
structure AllOrdered (es : List (String × Slot)) : Prop where
  keys : (es.map (·.1)).Pairwise (· < ·)
  slots : ∀ p ∈ es, p.2.Ordered

variable {k : String} {s : Slot} {v : Toml} {es es' : List (String × Slot)}

/-! ### Slots -/

theorem allOrdered_nil : AllOrdered [] := ⟨.nil, nofun⟩

theorem map_fst_putSlot : (putSlot k s es).map (·.1) = insertSorted k (es.map (·.1)) := by
  induction es with
  | nil => rfl
  | cons p es ih =>
    obtain ⟨j, t⟩ := p
    rw [putSlot, List.map_cons, insertSorted]
    by_cases heq : k = j
    · rw [heq, if_pos (beq_self_eq_true j), if_neg (lt_irrefl j), if_pos (beq_self_eq_true j),
        List.map_cons]
    · rw [if_neg (by simpa using heq)]
      split
      · rfl
      · rw [if_neg (by simpa using heq), List.map_cons, ih]

theorem mem_putSlot {p : String × Slot} (h : p ∈ putSlot k s es) : p = (k, s) ∨ p ∈ es := by
  induction es with
  | nil => exact .inl (List.mem_singleton.mp h)
  | cons q es ih =>
    rw [putSlot] at h
    split_ifs at h
    · exact (List.mem_cons.mp h).imp_right (List.mem_cons_of_mem q)
    · exact List.mem_cons.mp h
    · rcases List.mem_cons.mp h with rfl | h
      · exact .inr List.mem_cons_self
      · exact (ih h).imp_right (List.mem_cons_of_mem q)

/-- **One slot** under one key keeps the order. -/
theorem AllOrdered.putSlot (h : AllOrdered es) (hs : s.Ordered) : AllOrdered (putSlot k s es) where
  keys := by
    rw [map_fst_putSlot]
    exact pairwise_insertSorted h.keys
  slots p hp := by
    rcases mem_putSlot hp with rfl | hp
    · exact hs
    · exact h.slots p hp

theorem AllOrdered.of_lookup (h : AllOrdered es) (hk : es.lookup k = some s) : s.Ordered := by
  obtain ⟨front, back, rfl, -⟩ := List.lookup_eq_some_iff.mp hk
  exact h.slots (k, s) (by simp)

theorem AllOrdered.table {origin : Origin} (h : AllOrdered es) : (Slot.table origin es).Ordered :=
  .table h.keys h.slots

theorem freezeAll_eq_map (es : List (String × Slot)) :
    freezeAll es = es.map fun p => (p.1, p.2.freeze) := by
  induction es with
  | nil => rfl
  | cons p es ih => rw [freezeAll, ih, List.map_cons]

theorem ordered_freezeAll (hkeys : (es.map (·.1)).Pairwise (· < ·))
    (hslots : ∀ p ∈ es, p.2.freeze.Ordered) : Ordered (.table (freezeAll es)) := by
  rw [freezeAll_eq_map]
  refine .table ?_ fun p hp => ?_
  · rwa [List.map_map]
  · obtain ⟨q, hq, rfl⟩ := List.mem_map.mp hp
    exact hslots q hq

/-- What a slot stands for is in order as the slot is. -/
theorem Slot.Ordered.freeze (h : s.Ordered) : s.freeze.Ordered := by
  induction h with
  | value hv => exact hv
  | table hkeys _ ih => exact ordered_freezeAll hkeys ih
  | tables hfront hkeys _ ih =>
    refine .array fun v hv => ?_
    rcases List.mem_append.mp hv with hv | hv
    · exact hfront v hv
    · rw [List.mem_singleton.mp hv]
      exact ordered_freezeAll hkeys ih

theorem AllOrdered.freezeAll (h : AllOrdered es) : Ordered (.table (freezeAll es)) :=
  ordered_freezeAll h.keys fun p hp => (h.slots p hp).freeze

/-! ### Steps of the reader -/

/-- A step inside a table that a header leads to. -/
theorem AllOrdered.within {edit : List (String × Slot) → Option (List (String × Slot))}
    (hedit : ∀ {es es'}, AllOrdered es → edit es = some es' → AllOrdered es') {path : List String}
    (h : AllOrdered es) (hwithin : within edit path es = some es') : AllOrdered es' := by
  induction path generalizing es es' with
  | nil => exact hedit h hwithin
  | cons k ks ih =>
    rw [Toml.within] at hwithin
    split at hwithin
    · obtain ⟨sub, hsub, rfl⟩ := Option.map_eq_some_iff.mp hwithin
      exact h.putSlot (ih allOrdered_nil hsub).table
    · next origin sub hk =>
      obtain ⟨sub', hsub, rfl⟩ := Option.map_eq_some_iff.mp hwithin
      cases h.of_lookup hk with
      | table hkeys hslots => exact h.putSlot (ih ⟨hkeys, hslots⟩ hsub).table
    · next front last hk =>
      obtain ⟨last', hlast, rfl⟩ := Option.map_eq_some_iff.mp hwithin
      cases h.of_lookup hk with
      | tables hfront hkeys hslots =>
        have hlast := ih ⟨hkeys, hslots⟩ hlast
        exact h.putSlot (.tables hfront hlast.keys hlast.slots)
    · cases hwithin

theorem AllOrdered.openTable (h : AllOrdered es) (hopen : openTable k es = some es') :
    AllOrdered es' := by
  rw [Toml.openTable] at hopen
  split at hopen
  · cases hopen
    exact h.putSlot allOrdered_nil.table
  · next sub hk =>
    cases hopen
    cases h.of_lookup hk with
    | table hkeys hslots => exact h.putSlot (.table hkeys hslots)
  · cases hopen

theorem AllOrdered.openElement (h : AllOrdered es) (hopen : openElement k es = some es') :
    AllOrdered es' := by
  rw [Toml.openElement] at hopen
  split at hopen
  · cases hopen
    exact h.putSlot (.tables nofun .nil nofun)
  · next front last hk =>
    cases hopen
    cases h.of_lookup hk with
    | tables hfront hkeys hslots =>
      refine h.putSlot (.tables (fun v hv => ?_) .nil nofun)
      rcases List.mem_append.mp hv with hv | hv
      · exact hfront v hv
      · rw [List.mem_singleton.mp hv]
        exact AllOrdered.freezeAll ⟨hkeys, hslots⟩
  · cases hopen

theorem AllOrdered.assign (hv : v.Ordered) {path : List String} {fits : Bool} (h : AllOrdered es)
    (hassign : assign k v path fits es = some es') : AllOrdered es' := by
  induction path generalizing fits es es' with
  | nil =>
    rw [Toml.assign] at hassign
    split_ifs at hassign
    cases hassign
    exact h.putSlot (.value hv)
  | cons p ps ih =>
    rw [Toml.assign] at hassign
    split at hassign
    · obtain ⟨sub, hsub, rfl⟩ := Option.map_eq_some_iff.mp hassign
      exact h.putSlot (ih allOrdered_nil hsub).table
    · cases hassign
    · next origin sub _ hk =>
      obtain ⟨sub', hsub, rfl⟩ := Option.map_eq_some_iff.mp hassign
      cases h.of_lookup hk with
      | table hkeys hslots => exact h.putSlot (ih ⟨hkeys, hslots⟩ hsub).table
    · next front last hk =>
      obtain ⟨last', hlast, rfl⟩ := Option.map_eq_some_iff.mp hassign
      cases h.of_lookup hk with
      | tables hfront hkeys hslots =>
        have hlast := ih ⟨hkeys, hslots⟩ hlast
        exact h.putSlot (.tables hfront hlast.keys hlast.slots)
    · cases hassign

/-! ### Values -/

theorem ordered_of_readFloat? {cs : List Char} (h : readFloat? cs = some v) : v.Ordered := by
  unfold readFloat? at h
  dsimp only at h
  split at h
  · cases h
    exact .plain rfl rfl
  · cases h
    exact .plain rfl rfl
  · -- with digits it is a number of 64 bits, or one that is too large for them
    split_ifs at h
    all_goals
      simp only [bind, Option.bind_eq_some_iff] at h
      obtain ⟨_, -, _, -, _, -, _, -, h⟩ := h
      split at h
      all_goals
        cases h
        exact .plain rfl rfl

theorem ordered_of_readPlain {cs rest : List Char} (h : readPlain cs = some (v, rest)) : v.Ordered := by
  unfold readPlain at h
  split_ifs at h
  · obtain ⟨⟨text, rest'⟩, -, h⟩ := Option.bind_eq_some_iff.mp h
    dsimp only at h
    split_ifs at h
    cases h
    exact .plain rfl rfl
  · dsimp only at h
    split at h
    · cases h
    · cases h
      exact .plain rfl rfl
    · cases h
      exact .plain rfl rfl
    · split at h
      · cases h
        exact .plain rfl rfl
      · obtain ⟨x, hx, heq⟩ := Option.map_eq_some_iff.mp h
        cases heq
        exact ordered_of_readFloat? hx

/-- Values and the items of arrays are in order, and an inline table stays so. -/
theorem ordered_of_readValueFuel (fuel : Nat) :
    (∀ {room : Nat} {cs rest : List Char} {v : Toml}, readValueFuel fuel room cs = some (v, rest) →
      v.Ordered) ∧
    (∀ {room : Nat} {cs rest : List Char} {xs : List Toml},
      readItemsFuel fuel room cs = some (xs, rest) → ∀ v ∈ xs, v.Ordered) ∧
    (∀ {room : Nat} {cs rest : List Char} {es es' : List (String × Slot)}, AllOrdered es →
      readEntriesFuel fuel room es cs = some (es', rest) → AllOrdered es') := by
  -- values, items and entries call each other with less fuel, so all three go by one induction
  induction fuel with
  | zero =>
    refine ⟨fun h => ?_, fun h => ?_, fun _ h => ?_⟩
    · simp [readValueFuel] at h
    · simp [readItemsFuel] at h
    · simp [readEntriesFuel] at h
  | succ fuel ih =>
    obtain ⟨ihValue, ihItems, ihEntries⟩ := ih
    refine ⟨fun {room cs rest v} h => ?_, fun {room cs rest xs} h => ?_, fun {room cs rest es es'} hes h => ?_⟩
    · unfold readValueFuel at h
      split at h
      · cases h
      · cases h
      · cases h
      · next heq =>
        cases heq
        obtain ⟨⟨xs, rest'⟩, hxs, heq⟩ := Option.map_eq_some_iff.mp h
        cases heq
        exact .array (ihItems hxs)
      · next heq =>
        cases heq
        obtain ⟨⟨es, rest'⟩, hes, heq⟩ := Option.map_eq_some_iff.mp h
        cases heq
        exact (ihEntries allOrdered_nil hes).freezeAll
      · obtain ⟨⟨s, rest'⟩, -, heq⟩ := Option.map_eq_some_iff.mp h
        cases heq
        exact .plain rfl rfl
      · obtain ⟨⟨s, rest'⟩, -, heq⟩ := Option.map_eq_some_iff.mp h
        cases heq
        exact .plain rfl rfl
      · exact ordered_of_readPlain h
    · -- an array, item by item
      rw [readItemsFuel] at h
      obtain ⟨cs₁, -, h⟩ := Option.bind_eq_some_iff.mp h
      split at h
      · cases h
        nofun
      · obtain ⟨⟨x, cs₂⟩, hx, h⟩ := Option.bind_eq_some_iff.mp h
        obtain ⟨cs₃, -, h⟩ := Option.bind_eq_some_iff.mp h
        split at h
        · cases h
          exact List.forall_mem_singleton.mpr (ihValue hx)
        · obtain ⟨⟨xs', cs₄⟩, hxs, h⟩ := Option.bind_eq_some_iff.mp h
          cases h
          exact List.forall_mem_cons.mpr ⟨ihValue hx, ihItems hxs⟩
        · cases h
    · -- an inline table, key by key: each assignment keeps the order
      rw [readEntriesFuel] at h
      obtain ⟨cs₁, -, h⟩ := Option.bind_eq_some_iff.mp h
      split at h
      · cases h
        exact hes
      · obtain ⟨⟨path, k, cs₂⟩, -, h⟩ := Option.bind_eq_some_iff.mp h
        dsimp only at h
        split at h
        · obtain ⟨⟨v, cs₃⟩, hv, h⟩ := Option.bind_eq_some_iff.mp h
          obtain ⟨es₁, hes₁, h⟩ := Option.bind_eq_some_iff.mp h
          have hordered := hes.assign (ihValue hv) hes₁
          obtain ⟨cs₄, -, h⟩ := Option.bind_eq_some_iff.mp h
          split at h
          · cases h
            exact hordered
          · exact ihEntries hordered h
          · cases h
        · cases h

/-! ### Documents -/

theorem allOrdered_of_readLines {fuel : Nat} {header : List String} {cs : List Char}
    (hes : AllOrdered es) (h : readLines fuel header es cs = some es') : AllOrdered es' := by
  induction fuel generalizing header es cs with
  | zero => cases h
  | succ fuel ih =>
    rw [readLines] at h
    obtain ⟨cs₁, -, h⟩ := Option.bind_eq_some_iff.mp h
    split at h
    · cases h
      exact hes
    · obtain ⟨⟨path, k, cs₂⟩, -, h⟩ := Option.bind_eq_some_iff.mp h
      dsimp only at h
      split at h
      · obtain ⟨es₁, hes₁, h⟩ := Option.bind_eq_some_iff.mp h
        obtain ⟨cs₃, -, h⟩ := Option.bind_eq_some_iff.mp h
        exact ih (hes.within .openElement hes₁) h
      · cases h
    · obtain ⟨⟨path, k, cs₂⟩, -, h⟩ := Option.bind_eq_some_iff.mp h
      dsimp only at h
      split at h
      · obtain ⟨es₁, hes₁, h⟩ := Option.bind_eq_some_iff.mp h
        obtain ⟨cs₃, -, h⟩ := Option.bind_eq_some_iff.mp h
        exact ih (hes.within .openTable hes₁) h
      · cases h
    · obtain ⟨⟨path, k, cs₂⟩, -, h⟩ := Option.bind_eq_some_iff.mp h
      dsimp only at h
      split at h
      · obtain ⟨⟨v, cs₃⟩, hv, h⟩ := Option.bind_eq_some_iff.mp h
        obtain ⟨es₁, hes₁, h⟩ := Option.bind_eq_some_iff.mp h
        obtain ⟨cs₄, -, h⟩ := Option.bind_eq_some_iff.mp h
        have hordered := (ordered_of_readValueFuel _).1 hv
        exact ih (hes.within (.assign hordered) hes₁) h
      · cases h

/-- **Documents** have all their tables in increasing order of the keys. -/
theorem ordered_of_parse {text : String} {entries : List (String × Toml)}
    (h : parse? text = some entries) : Ordered (.table entries) := by
  obtain ⟨es, hes, rfl⟩ := Option.map_eq_some_iff.mp h
  exact (allOrdered_of_readLines allOrdered_nil hes).freezeAll

theorem map_fst_plainEntries {entries plain : List (String × Toml)}
    (h : plainEntries? entries = some plain) : plain.map (·.1) = entries.map (·.1) := by
  induction entries generalizing plain with
  | nil =>
    cases h
    rfl
  | cons p entries ih =>
    obtain ⟨k, x⟩ := p
    rw [plainEntries?] at h
    obtain ⟨y, -, h⟩ := Option.bind_eq_some_iff.mp h
    obtain ⟨ys, hys, h⟩ := Option.bind_eq_some_iff.mp h
    cases h
    rw [List.map_cons, List.map_cons, ih hys]

end Toml

namespace Settings

open Toml

/-- Options that are in order are kept as they stand. -/
theorem entries_ofList_of_ordered {v : Toml} {plain : List (String × Toml)} (hv : v.Ordered)
    (h : v.entries?.bind plainEntries? = some plain) : (KeyTable.ofList plain).entries = plain := by
  obtain ⟨entries, hentries, hplain⟩ := Option.bind_eq_some_iff.mp h
  apply KeyTable.entries_ofList
  rw [← List.pairwise_map, map_fst_plainEntries hplain]
  cases v with
  | table es =>
    cases hentries
    cases hv with
    | table hkeys => exact hkeys
    | plain htable => cases htable
  | datetime text =>
    cases hentries
    exact List.pairwise_singleton ..
  | _ => cases hentries

theorem rules_of_readField {s t : Settings} {key : String} {v : Toml} (hkey : key ≠ "rules")
    (h : s.readField? key v = some t) : t.rules = s.rules := by
  unfold readField? at h
  split at h
  case h_6 => exact absurd rfl hkey
  case h_9 => cases h
  all_goals
    obtain ⟨x, -, rfl⟩ := Option.map_eq_some_iff.mp h
    rfl

/-- The entries of a document, read one after the other: what stands under `rules` is kept as it stands. -/
theorem rules_of_readEntries {s t : Settings} {entries : List (String × Toml)}
    (hkeys : (entries.map (·.1)).Pairwise (· < ·)) (hvalues : ∀ p ∈ entries, p.2.Ordered)
    (h : readEntries? s entries = some t) :
    (entries.lookup "rules" = none → t.rules = s.rules) ∧
      ∀ v, entries.lookup "rules" = some v → v.entries?.bind plainEntries? = some t.rules.entries := by
  induction entries generalizing s with
  | nil =>
    cases h
    exact ⟨fun _ => rfl, fun v hv => by cases hv⟩
  | cons p entries ih =>
    obtain ⟨key, v⟩ := p
    obtain ⟨hv, hvalues⟩ := List.forall_mem_cons.mp hvalues
    obtain ⟨hfirst, hkeys⟩ := List.pairwise_cons.mp hkeys
    rw [readEntries?] at h
    obtain ⟨s', hs', h⟩ := Option.bind_eq_some_iff.mp h
    obtain ⟨hnone, hsome⟩ := ih hkeys hvalues h
    rw [KeyTable.lookup_cons_eq_ite]
    by_cases hkey : "rules" = key
    · subst hkey
      rw [if_pos rfl]
      refine ⟨fun h => absurd h (Option.some_ne_none _), fun w hw => ?_⟩
      obtain rfl := Option.some.inj hw
      obtain ⟨plain, hplain, rfl⟩ := Option.map_eq_some_iff.mp hs'
      -- no key comes twice, so the entries behind leave the options alone
      have hlater : entries.lookup "rules" = none := by
        refine List.lookup_eq_none_iff.mpr fun p hp => bne_iff_ne.mpr fun heq => ?_
        exact String.lt_irrefl _ (heq ▸ hfirst p.1 (List.mem_map_of_mem hp))
      rw [hnone hlater, hplain, entries_ofList_of_ordered hv hplain]
    · rw [if_neg hkey, ← rules_of_readField (Ne.symm hkey) hs']
      exact ⟨hnone, hsome⟩

/-- **The options of rules** in settings are those of the document, which has them in order already: none
is moved or lost. -/
theorem rules_of_parse {text : String} {s : Settings} (h : parse text = .ok s) :
    ∃ entries, parse? text = some entries ∧ (entries.lookup "rules" = none → s.rules = .empty) ∧
      ∀ v, entries.lookup "rules" = some v →
        v.entries?.bind plainEntries? = some s.rules.entries := by
  unfold parse at h
  split at h
  · cases h
  · next s' hs' =>
    split_ifs at h
    cases h
    obtain ⟨entries, hentries, hread⟩ := Option.bind_eq_some_iff.mp hs'
    refine ⟨entries, hentries, ?_⟩
    cases ordered_of_parse hentries with
    | table hkeys hvalues => exact rules_of_readEntries hkeys hvalues hread
    | plain htable => cases htable

end Settings

end SwiftTidy
