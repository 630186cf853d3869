import Mathlib.Data.List.Infix
import SwiftTidy.Text.Url

/-!
# Replacing what matches

`ReplacesAll` says what replacing every match in a text gives: from the left to the right, a match is
replaced and looked for again behind it, and where there is none the character stays.  The outcome
is determined (`ReplacesAll.unique`), and no longer than the text when the replacement has at most one
character (`ReplacesAll.length_le`).

Addresses are removed in this way (`Url.remove_replacesAll`): a head and a tail take something of
the text, so what follows a match is a part of what is behind its first character.
-/

namespace SwiftTidy

namespace Text

/-- Replacing the matches in a text whose part up to here ends with `before`.  What `match?` answers is
what follows the match. -/
inductive ReplacesAll (match? : Option Char → List Char → Option (List Char))
    (replacement : List Char) : Option Char → List Char → List Char → Prop where
  | nil (before : Option Char) : ReplacesAll match? replacement before [] []
  | keep {before : Option Char} {c : Char} {cs out : List Char} (h : match? before (c :: cs) = none)
      (hafter : ReplacesAll match? replacement (some c) cs out) :
      ReplacesAll match? replacement before (c :: cs) (c :: out)
  | replace {before : Option Char} {c : Char} {found rest out : List Char}
      (h : match? before (c :: found ++ rest) = some rest)
      (hafter : ReplacesAll match? replacement (c :: found).getLast? rest out) :
      ReplacesAll match? replacement before (c :: found ++ rest) (replacement ++ out)

namespace ReplacesAll

variable {match? : Option Char → List Char → Option (List Char)} {replacement : List Char}
  {before : Option Char} {cs out out' : List Char}

/-- A text does not grow when its matches are replaced by nothing or by one character. -/
theorem length_le (hreplacement : replacement.length ≤ 1)
    (h : ReplacesAll match? replacement before cs out) : out.length ≤ cs.length := by
  induction h with
  | nil => exact Nat.le_refl _
  | keep _ _ ih => exact Nat.succ_le_succ ih
  | replace _ _ ih =>
    rw [List.length_append, List.length_append, List.length_cons]
    omega

/-- There is one outcome. -/
theorem unique (h : ReplacesAll match? replacement before cs out)
    (h' : ReplacesAll match? replacement before cs out') : out = out' := by
  induction h generalizing out' with
  | nil =>
    cases h'
    rfl
  | @keep before c cs out hnone hafter ih =>
    generalize htext : c :: cs = text at h'
    cases h' with
    | nil => cases htext
    | keep _ hafter' =>
      cases htext
      rw [ih hafter']
    | replace hsome _ =>
      rw [← htext, hnone] at hsome
      cases hsome
  | @replace before c found rest out hsome hafter ih =>
    generalize htext : c :: found ++ rest = text at h'
    cases h' with
    | nil => cases htext
    | keep hnone _ =>
      rw [← htext, hsome] at hnone
      cases hnone
    | replace hsome' hafter' =>
      -- both matches end at the same place
      rw [← htext, hsome, Option.some.injEq] at hsome'
      subst hsome'
      rw [← List.append_cancel_right htext] at hafter'
      rw [ih hafter']

end ReplacesAll

end Text

namespace Url

variable {cs rest : List Char}

/-! ### What follows a match -/

theorem groupEnd?_suffix {inner : Option Bool} (h : groupEnd? inner cs = some rest) : rest <:+ cs := by
  induction inner, cs using groupEnd?.induct with
  | case1 inner => cases h
  | case2 cs =>
    cases h
    exact List.suffix_cons _ _
  | case3 cs ih => exact (ih h).trans (List.suffix_cons _ _)
  | case4 cs ih => exact (ih h).trans (List.suffix_cons _ _)
  | case5 filled cs hfilled =>
    rw [groupEnd?, if_neg hfilled] at h
    cases h
  | case6 filled cs => cases h
  | case7 inner c cs hopen hclose hinner hinside htail ih =>
    rw [groupEnd?, if_pos htail] at h <;> try assumption
    exact (ih h).trans (List.suffix_cons _ _)
  | case8 inner c cs hopen hclose hinner hinside htail =>
    rw [groupEnd?, if_neg htail] at h <;> try assumption
    cases h

theorem item?_suffix {ends : Bool} (h : item? cs = some (ends, rest)) : rest <:+ cs := by
  unfold item? at h
  split at h
  · cases h
  · obtain ⟨rest, hgroup, heq⟩ := Option.map_eq_some_iff.mp h
    cases heq
    exact (groupEnd?_suffix hgroup).trans (List.suffix_cons _ _)
  · split_ifs at h
    cases h
    exact List.suffix_cons _ _

/-- What follows the longest tail is a part of the text where the best one so far is followed by one. -/
theorem longestTail_suffix {fuel : Nat} {best : Option (List Char)} {text : List Char}
    (hbest : ∀ rest, best = some rest → rest <:+ text) (hcs : cs <:+ text)
    (h : longestTail fuel best cs = some rest) : rest <:+ text := by
  induction fuel generalizing best cs with
  | zero => exact hbest _ h
  | succ fuel ih =>
    rw [longestTail] at h
    split at h
    · exact hbest _ h
    · rename_i ends behind hitem
      have hbehind := (item?_suffix hitem).trans hcs
      refine ih ?_ hbehind h
      intro best' hbest'
      split_ifs at hbest'
      · cases hbest'
        exact hbehind
      · exact hbest _ hbest'

theorem tail?_suffix (h : tail? cs = some rest) : rest <:+ cs := by
  obtain ⟨⟨ends, behind⟩, hitem, htail⟩ := Option.bind_eq_some_iff.mp h
  exact longestTail_suffix (by nofun) (item?_suffix hitem) htail

theorem suffix_of_drop {n : Nat} (front : List Char) (h : cs.drop n = front ++ rest) : rest <:+ cs :=
  (List.suffix_append front rest).trans (h ▸ List.drop_suffix n cs)

theorem suffix_of_mem_schemeEnds {c : Char} (h : rest ∈ schemeEnds (c :: cs)) : rest <:+ cs := by
  rw [schemeEnds] at h
  split_ifs at h
  · split at h
    · rename_i behind hdrop
      simp only [List.mem_cons, List.not_mem_nil, or_false] at h
      rcases h with rfl | rfl | rfl
      · exact suffix_of_drop [':', '/', '/', '/'] hdrop
      · exact suffix_of_drop [':', '/', '/'] hdrop
      · exact suffix_of_drop [':', '/'] hdrop
    · rename_i behind _ hdrop
      simp only [List.mem_cons, List.not_mem_nil, or_false] at h
      rcases h with rfl | rfl
      · exact suffix_of_drop [':', '/', '/'] hdrop
      · exact suffix_of_drop [':', '/'] hdrop
    · rename_i behind _ _ hdrop
      obtain rfl := List.mem_singleton.mp h
      exact suffix_of_drop [':', '/'] hdrop
    · rename_i d behind _ _ _ hdrop
      split_ifs at h
      · obtain rfl := List.mem_singleton.mp h
        exact suffix_of_drop [':', d] hdrop
      · cases h
    · cases h
  · cases h

theorem suffix_of_mem_wwwEnds {c : Char} (h : rest ∈ wwwEnds (c :: cs)) : rest <:+ cs := by
  unfold wwwEnds at h
  split at h
  · rename_i heq
    cases heq
    split_ifs at h
    · split at h
      · rename_i hdrop
        obtain rfl := List.mem_singleton.mp h
        exact (suffix_of_drop ['.'] hdrop).trans (List.suffix_append [_, _] _)
      · cases h
    · cases h
  · cases h

theorem suffix_of_mem_hostEnds {c : Char} (h : rest ∈ hostEnds (c :: cs)) : rest <:+ cs := by
  rw [hostEnds] at h
  split at h
  · rename_i behind hdrop
    dsimp only at h
    split at h
    · split_ifs at h
      · obtain rfl := List.mem_singleton.mp h
        have hslash : '/' :: rest <:+ c :: cs := hdrop ▸ List.drop_suffix _ _
        rcases List.suffix_cons_iff.mp hslash with heq | hbehind
        · cases heq
          exact List.suffix_refl _
        · exact (List.suffix_cons _ _).trans hbehind
      · cases h
    · cases h
  · cases h

/-- What follows an address is a part of what is behind its first character. -/
theorem match?_suffix {before : Option Char} {c : Char} (h : match? before (c :: cs) = some rest) :
    rest <:+ cs := by
  rw [match?] at h
  split_ifs at h
  obtain ⟨behind, hmem, htail⟩ := List.exists_of_findSome?_eq_some h
  refine (tail?_suffix htail).trans ?_
  rcases List.mem_append.mp hmem with hmem | hmem
  · rcases List.mem_append.mp hmem with hmem | hmem
    · exact suffix_of_mem_schemeEnds hmem
    · exact suffix_of_mem_wwwEnds hmem
  · exact suffix_of_mem_hostEnds hmem

/-! ### Removing addresses -/

theorem removeFrom_replacesAll {fuel : Nat} {before : Option Char} (hfuel : cs.length ≤ fuel) :
    Text.ReplacesAll match? [] before cs (removeFrom fuel before cs) := by
  induction fuel generalizing before cs with
  | zero =>
    obtain rfl := List.length_eq_zero_iff.mp (Nat.le_zero.mp hfuel)
    exact .nil before
  | succ fuel ih =>
    cases cs with
    | nil => exact .nil before
    | cons c cs =>
      rw [List.length_cons] at hfuel
      rw [removeFrom]
      cases hmatch : match? before (c :: cs) with
      | none => exact .keep hmatch (ih (Nat.le_of_succ_le_succ hfuel))
      | some rest =>
        obtain ⟨found, rfl⟩ := match?_suffix hmatch
        have hfound : (c :: (found ++ rest)).take ((found ++ rest).length + 1 - rest.length) =
            c :: found := by
          have hlength : (found ++ rest).length + 1 - rest.length = (c :: found).length := by
            rw [List.length_append, List.length_cons]
            omega
          rw [hlength, ← List.cons_append, List.take_left]
        dsimp only
        rw [hfound]
        exact .replace hmatch (ih (by rw [List.length_append] at hfuel; omega))

/-- Every address is removed. -/
theorem remove_replacesAll (cs : List Char) : Text.ReplacesAll match? [] none cs (remove cs) :=
  removeFrom_replacesAll (Nat.le_refl _)

end Url

end SwiftTidy
