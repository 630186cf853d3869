import Mathlib.Data.List.Basic
import SwiftTidy.Text.Words

/-!
# Where text is cut

A text is cut at the first occurrence of a separator (`splitAtText_eq_some_iff`), or at every blank.
The words between blanks on both sides of a blank are found independently of each other
(`splitBlanks_append_cons`), so only words and gaps have to be looked at: a gap holds no word
(`splitBlanks_of_blank`), and characters without blanks are one (`splitBlanks_word`).
-/

namespace SwiftTidy

namespace Words

variable {cs front rest sep word : List Char}

/-! ### The first occurrence of a text -/

/-- A text stands in `cs` between `front` and `rest`, and nowhere further to the front. -/
structure FirstAt (sep cs front rest : List Char) : Prop where
  eq : cs = front ++ sep ++ rest
  first : ∀ front' rest', cs = front' ++ sep ++ rest' → front.length ≤ front'.length

/-- What is in front of the separator, the separator and the rest make up the text. -/
theorem append_of_splitAtText (h : splitAtText sep cs = some (front, rest)) :
    cs = front ++ sep ++ rest := by
  induction cs generalizing front with
  | nil =>
    rw [splitAtText] at h
    split at h
    · rename_i hsep
      cases h
      rw [List.isEmpty_iff.mp hsep]
      rfl
    · cases h
  | cons c cs ih =>
    rw [splitAtText] at h
    split at h
    · rename_i hsep
      cases h
      rw [List.nil_append]
      exact (List.prefix_iff_eq_append.mp (List.isPrefixOf_iff_prefix.mp hsep)).symm
    · obtain ⟨⟨front', rest'⟩, hsplit, heq⟩ := Option.map_eq_some_iff.mp h
      cases heq
      rw [ih hsplit]
      rfl

/-- A text contains another one exactly when that stands in it somewhere. -/
theorem containsText_iff : containsText sep cs = true ↔ sep <:+: cs := by
  rw [containsText]
  induction cs with
  | nil =>
    rw [splitAtText, List.infix_nil]
    cases sep <;> simp
  | cons c cs ih =>
    rw [splitAtText, List.infix_cons_iff, ← ih, ← List.isPrefixOf_iff_prefix]
    split
    · simp [*]
    · rw [Option.isSome_map]
      simp [*]

theorem splitAtText_eq_none_iff : splitAtText sep cs = none ↔ ¬sep <:+: cs := by
  rw [← containsText_iff, containsText, Bool.not_eq_true, Option.isSome_eq_false_iff,
    Option.isNone_iff_eq_none]

theorem length_le_of_splitAtText (h : splitAtText sep cs = some (front, rest))
    {front' rest' : List Char} (heq : cs = front' ++ sep ++ rest') :
    front.length ≤ front'.length := by
  induction cs generalizing front front' with
  | nil =>
    rw [splitAtText] at h
    split at h
    · cases h
      exact Nat.zero_le _
    · cases h
  | cons c cs ih =>
    rw [splitAtText] at h
    split at h
    · cases h
      exact Nat.zero_le _
    · rename_i hsep
      obtain ⟨⟨front₂, rest₂⟩, hsplit, hfront⟩ := Option.map_eq_some_iff.mp h
      cases hfront
      cases front' with
      | nil =>
        -- The separator would stand at the front.
        exact absurd (List.isPrefixOf_iff_prefix.mpr ⟨rest', heq.symm⟩) hsep
      | cons c' front' =>
        have hcs : cs = front' ++ sep ++ rest' := (List.cons.inj heq).2
        exact Nat.succ_le_succ (ih hsplit hcs)

/-- A text is cut at the first occurrence of the separator. -/
theorem splitAtText_eq_some_iff :
    splitAtText sep cs = some (front, rest) ↔ FirstAt sep cs front rest := by
  constructor
  · intro h
    exact ⟨append_of_splitAtText h, fun _ _ => length_le_of_splitAtText h⟩
  · intro h
    cases hsplit : splitAtText sep cs with
    | none =>
      exact absurd ⟨front, rest, h.eq.symm⟩ (splitAtText_eq_none_iff.mp hsplit)
    | some parts =>
      -- Both are occurrences and neither is in front of the other.
      have heq := append_of_splitAtText hsplit
      have hlen : front.length = parts.1.length :=
        Nat.le_antisymm (h.first _ _ heq) (length_le_of_splitAtText hsplit h.eq)
      have happend : front ++ (sep ++ rest) = parts.1 ++ (sep ++ parts.2) := by
        rw [← List.append_assoc, ← List.append_assoc, ← h.eq, ← heq]
      obtain ⟨hfront, hrest⟩ := List.append_inj happend hlen
      rw [hfront, List.append_cancel_left hrest]

/-- A text is cut at the first character of a class. -/
theorem splitAtFirst_append_cons {p : Char → Bool} {c : Char}
    (hfront : ∀ d ∈ front, p d = false) (hc : p c = true) :
    splitAtFirst p (front ++ c :: rest) = some (front, rest) := by
  induction front with
  | nil => rw [List.nil_append, splitAtFirst, if_pos hc]
  | cons d front ih =>
    obtain ⟨hd, hfront⟩ := List.forall_mem_cons.mp hfront
    rw [List.cons_append, splitAtFirst, hd, if_neg Bool.false_ne_true, ih hfront, Option.map_some]

/-! ### Words between blanks -/

/-- Characters that are blank, at least one. -/
def IsGap (cs : List Char) : Prop := cs ≠ [] ∧ ∀ c ∈ cs, CharClass.isBlank c = true

instance : DecidablePred IsGap := fun cs =>
  decidable_of_iff (cs ≠ [] ∧ cs.all CharClass.isBlank = true)
    (and_congr_right fun _ => List.all_eq_true)

/-- Characters that are not blank, at least one. -/
def IsWord (cs : List Char) : Prop := cs ≠ [] ∧ ∀ c ∈ cs, CharClass.isBlank c = false

instance : DecidablePred IsWord := fun cs =>
  decidable_of_iff (cs ≠ [] ∧ cs.all (!CharClass.isBlank ·) = true)
    (and_congr_right fun _ => by simp only [List.all_eq_true, Bool.not_eq_true'])

theorem splitBlanksFrom_append_cons {b : Char} (hb : CharClass.isBlank b = true) :
    splitBlanksFrom word (front ++ b :: rest) = splitBlanksFrom word front ++ splitBlanks rest := by
  induction front generalizing word with
  | nil =>
    simp only [List.nil_append, splitBlanksFrom, if_pos hb]
    split <;> rfl
  | cons c front ih =>
    rw [List.cons_append, splitBlanksFrom, splitBlanksFrom]
    split
    · split
      · exact ih
      · rw [ih, List.cons_append]
    · exact ih

/-- The words on both sides of a blank are found independently of each other. -/
theorem splitBlanks_append_cons {b : Char} (hb : CharClass.isBlank b = true) :
    splitBlanks (front ++ b :: rest) = splitBlanks front ++ splitBlanks rest :=
  splitBlanksFrom_append_cons hb

theorem splitBlanks_cons {b : Char} (hb : CharClass.isBlank b = true) :
    splitBlanks (b :: rest) = splitBlanks rest := by
  have hcut : splitBlanks ([] ++ b :: rest) = splitBlanks [] ++ splitBlanks rest :=
    splitBlanks_append_cons hb
  exact hcut

/-- Blanks in front of a text do not change its words. -/
theorem splitBlanks_append_of_blank {gap : List Char}
    (hgap : ∀ c ∈ gap, CharClass.isBlank c = true) :
    splitBlanks (gap ++ rest) = splitBlanks rest := by
  induction gap with
  | nil => rfl
  | cons b gap ih =>
    obtain ⟨hb, hgap⟩ := List.forall_mem_cons.mp hgap
    rw [List.cons_append, splitBlanks_cons hb, ih hgap]

theorem splitBlanksFrom_of_not_blank (h : ∀ c ∈ cs, CharClass.isBlank c = false) :
    splitBlanksFrom word cs = if (cs.reverse ++ word).isEmpty then [] else
      [(cs.reverse ++ word).reverse] := by
  induction cs generalizing word with
  | nil => rfl
  | cons c cs ih =>
    obtain ⟨hc, hcs⟩ := List.forall_mem_cons.mp h
    rw [splitBlanksFrom, hc, if_neg Bool.false_ne_true, ih hcs, List.reverse_cons,
      List.append_assoc, List.singleton_append]

/-- Characters without blanks are one word. -/
theorem splitBlanks_word (h : IsWord word) : splitBlanks word = [word] := by
  rw [splitBlanks, splitBlanksFrom_of_not_blank h.2, List.append_nil, List.reverse_reverse,
    List.isEmpty_reverse, if_neg (mt List.isEmpty_iff.mp h.1)]

/-- The word behind a gap comes first when a blank or the end of the text follows. -/
theorem splitBlanks_gap_append_word {gap : List Char}
    (hgap : ∀ c ∈ gap, CharClass.isBlank c = true) (hword : IsWord word)
    (hrest : ∀ c ∈ rest.head?, CharClass.isBlank c = true) :
    splitBlanks (gap ++ word ++ rest) = word :: splitBlanks rest := by
  rw [List.append_assoc, splitBlanks_append_of_blank hgap]
  cases rest with
  | nil =>
    rw [List.append_nil, splitBlanks_word hword]
    rfl
  | cons b rest =>
    have hb : CharClass.isBlank b = true := hrest b rfl
    rw [splitBlanks_append_cons hb, splitBlanks_word hword, splitBlanks_cons hb, List.singleton_append]

/-- Characters between two blanks are one of the words. -/
theorem mem_splitBlanks_of_infix {a b : Char} (ha : CharClass.isBlank a = true)
    (hb : CharClass.isBlank b = true) (hword : IsWord word)
    (h : a :: (word ++ [b]) <:+: cs) : word ∈ splitBlanks cs := by
  obtain ⟨front, rest, rfl⟩ := h
  have hcut : front ++ a :: (word ++ [b]) ++ rest = front ++ a :: (word ++ b :: rest) := by
    simp only [List.append_assoc, List.cons_append, List.nil_append]
  rw [hcut, splitBlanks_append_cons ha, splitBlanks_append_cons hb, splitBlanks_word hword]
  exact List.mem_append_right _ (List.mem_append_left _ List.mem_cons_self)

/-! ### Ends of comments -/

/-- A word that does not end like a comment stays as it is. -/
theorem trimCommentEnd_eq_self (h : ¬['*', '/'] <:+ cs) : trimCommentEnd cs = cs := by
  rw [trimCommentEnd]
  rw [← List.reverse_prefix] at h
  have hrev : dropCommentEnds cs.reverse = cs.reverse := by
    unfold dropCommentEnds
    split
    · rename_i tail heq
      exact absurd ⟨tail, heq.symm⟩ h
    · rfl
  rw [hrev, List.reverse_reverse]

end Words

end SwiftTidy
