import Mathlib.Data.Set.Card
import Mathlib.Order.Bounds.Defs
import SwiftTidy.Proofs.Text.Location

/-!
# Lines as terminators cut them

`EndsLineAt` says at which offsets a line terminator ends: LF, CR LF or a CR without LF.  The lines of
an index start at zero and at exactly these offsets (`mem_starts_iff`), which gives the line and the
column of an offset without the index (`location?_counts`); and every line is its content, in which
there is neither CR nor LF, with the terminator behind it (`exists_isLine`).
-/

namespace SwiftTidy

namespace Text

/-- What ends a line between the characters in front of it and those behind it.  A CR and an LF that
stand together are one terminator. -/
inductive IsTerminator (front rest : List Char) : List Char → Prop where
  | lf (h : front.getLast? ≠ some '\r') : IsTerminator front rest ['\n']
  | crLf : IsTerminator front rest ['\r', '\n']
  | cr (h : rest.head? ≠ some '\n') : IsTerminator front rest ['\r']

/-- Whether a terminator ends at an offset of the text. -/
def EndsLineAt (text : String) (offset : Nat) : Prop :=
  ∃ front terminator rest, text.toList = front ++ terminator ++ rest ∧
    IsTerminator front rest terminator ∧ offset = String.utf8Len (front ++ terminator)

/-- Whether a line goes on over a character. -/
abbrev IsPlain (c : Char) : Prop := c ≠ '\n' ∧ c ≠ '\r'

namespace IsTerminator

variable {front rest terminator : List Char}

/-- A terminator holds nothing but CR and LF. -/
theorem not_isPlain (h : IsTerminator front rest terminator) : ∀ c ∈ terminator, ¬ IsPlain c := by
  cases h <;> simp

/-- Behind a CR that ends a line there is no LF. -/
theorem head?_ne (h : IsTerminator front rest terminator)
    (hlast : (front ++ terminator).getLast? = some '\r') : rest.head? ≠ some '\n' := by
  cases h with
  | lf => simp at hlast
  | crLf => simp at hlast
  | cr hhead => exact hhead

/-- What stands further in front matters only where nothing stands between. -/
theorem append_left {content : List Char} (h : IsTerminator content rest terminator)
    (hfront : front.getLast? = some '\r' → (content ++ terminator).head? ≠ some '\n') :
    IsTerminator (front ++ content) rest terminator := by
  cases h with
  | lf hlast =>
    refine .lf fun hcr => ?_
    rcases List.eq_nil_or_concat content with rfl | ⟨content, c, rfl⟩
    · rw [List.append_nil] at hcr
      exact hfront hcr rfl
    · apply hlast
      rw [List.concat_eq_append, ← List.append_assoc, List.getLast?_concat] at hcr
      rw [List.concat_eq_append, List.getLast?_concat, hcr]
  | crLf => exact .crLf
  | cr hhead => exact .cr hhead

end IsTerminator

/-- The last character of a terminator is the one that ends the line. -/
theorem endsLineAt_iff {text : String} {offset : Nat} : EndsLineAt text offset ↔
    ∃ front c rest, text.toList = front ++ c :: rest ∧ endsLine c rest = true ∧
      offset = String.utf8Len (front ++ [c]) := by
  constructor
  · rintro ⟨front, terminator, rest, htext, hterminator, rfl⟩
    cases hterminator with
    | lf h => exact ⟨front, '\n', rest, by simpa using htext, rfl, rfl⟩
    | crLf => exact ⟨front ++ ['\r'], '\n', rest, by simpa using htext, rfl, by simp⟩
    | cr h => exact ⟨front, '\r', rest, by simpa using htext, by simp [endsLine, h], rfl⟩
  · rintro ⟨front, c, rest, htext, hends, rfl⟩
    simp only [endsLine, Bool.or_eq_true, Bool.and_eq_true, beq_iff_eq, bne_iff_ne] at hends
    rcases hends with rfl | ⟨rfl, hhead⟩
    · -- LF may be the second half of a terminator
      by_cases hlast : front.getLast? = some '\r'
      · obtain ⟨front, rfl⟩ := List.getLast?_eq_some_iff.mp hlast
        exact ⟨front, ['\r', '\n'], rest, by simpa using htext, .crLf, by simp⟩
      · exact ⟨front, ['\n'], rest, by simpa using htext, .lf hlast, rfl⟩
    · exact ⟨front, ['\r'], rest, by simpa using htext, .cr hhead, rfl⟩

end Text

theorem OneIndexed.eq_of_val_eq {i j : OneIndexed} (h : i.val = j.val) : i = j := by
  cases i
  cases j
  cases h
  rfl

namespace LineIndex

open Text (IsTerminator EndsLineAt IsPlain endsLine)

variable {text : String} {line : OneIndexed} {offset : Nat}

/-! ### Starts of lines -/

theorem mem_startsFrom_iff {pos p : Nat} {cs : List Char} : p ∈ startsFrom pos cs ↔
    ∃ front c rest, cs = front ++ c :: rest ∧ endsLine c rest = true ∧
      p = pos + String.utf8Len (front ++ [c]) := by
  induction cs generalizing pos with
  | nil => simp [startsFrom]
  | cons c cs ih =>
    have hlater : p ∈ startsFrom (pos + c.utf8Size) cs ↔ ∃ front d rest,
        c :: cs = c :: front ++ d :: rest ∧ endsLine d rest = true ∧
          p = pos + String.utf8Len (c :: front ++ [d]) := by
      rw [ih]
      refine exists_congr fun front => exists_congr fun d => exists_congr fun rest => ?_
      simp only [List.cons_append, List.cons.injEq, true_and, String.utf8Len_cons]
      refine and_congr_right fun _ => and_congr_right fun _ => ?_
      omega
    have hfirst : (∃ front d rest, c :: cs = front ++ d :: rest ∧ endsLine d rest = true ∧
          p = pos + String.utf8Len (front ++ [d])) ↔
        (endsLine c cs = true ∧ p = pos + c.utf8Size) ∨ p ∈ startsFrom (pos + c.utf8Size) cs := by
      rw [hlater]
      constructor
      · rintro ⟨front, d, rest, heq, hends, hp⟩
        cases front with
        | nil =>
          cases heq
          exact .inl ⟨hends, by simpa [String.utf8Len_cons] using hp⟩
        | cons c' front =>
          cases heq
          exact .inr ⟨front, d, rest, rfl, hends, hp⟩
      · rintro (⟨hends, hp⟩ | ⟨front, d, rest, heq, hends, hp⟩)
        · exact ⟨[], c, cs, rfl, hends, by simpa [String.utf8Len_cons] using hp⟩
        · exact ⟨c :: front, d, rest, heq, hends, hp⟩
    rw [hfirst, startsFrom_cons]
    split <;> simp [*]

/-- The lines behind the first start where a terminator ends. -/
theorem mem_startsFrom_zero_iff : offset ∈ startsFrom 0 text.toList ↔ EndsLineAt text offset := by
  rw [mem_startsFrom_iff, Text.endsLineAt_iff]
  simp only [Nat.zero_add]

/-- Lines start at zero and where a terminator ends. -/
theorem mem_starts_iff : offset ∈ (ofText text).starts ↔ offset = 0 ∨ EndsLineAt text offset := by
  rw [← mem_startsFrom_zero_iff]
  exact List.mem_cons

/-- As many lines start up to an offset as terminators end there, and one more. -/
theorem countP_starts (text : String) (offset : Nat) : (ofText text).starts.countP (· ≤ offset) =
    1 + {p | EndsLineAt text p ∧ p ≤ offset}.ncard := by
  have hset : {p | EndsLineAt text p ∧ p ≤ offset} =
      (((startsFrom 0 text.toList).filter (· ≤ offset)).toFinset : Set Nat) := by
    ext p
    simp [mem_startsFrom_zero_iff]
  have hnodup : ((startsFrom 0 text.toList).filter (· ≤ offset)).Nodup :=
    (startsFrom_pairwise.imp Nat.ne_of_lt).filter _
  rw [hset, Set.ncard_coe_finset, List.toFinset_card_of_nodup hnodup, ← List.countP_eq_length_filter]
  show (0 :: startsFrom 0 text.toList).countP _ = _
  rw [List.countP_cons_of_pos (by simp), Nat.add_comm]

/-! ### The parts of a line -/

/-- In characters without a terminator no line starts, and otherwise the first one starts behind the
first terminator. -/
theorem startsFrom_cases (cs : List Char) :
    ((∀ c ∈ cs, IsPlain c) ∧ ∀ pos, startsFrom pos cs = []) ∨
      ∃ content terminator rest, cs = content ++ terminator ++ rest ∧ (∀ c ∈ content, IsPlain c) ∧
        IsTerminator content rest terminator ∧ ∀ pos, startsFrom pos cs =
          (pos + String.utf8Len (content ++ terminator)) ::
            startsFrom (pos + String.utf8Len (content ++ terminator)) rest := by
  induction cs with
  | nil => exact .inl ⟨by simp, fun _ => rfl⟩
  | cons c cs ih =>
    by_cases hc : IsPlain c
    · have hends : ¬ endsLine c cs = true := by simp [endsLine, hc.1, hc.2]
      rcases ih with ⟨hplain, hnone⟩ | ⟨content, terminator, rest, rfl, hplain, hterminator, hstart⟩
      · refine .inl ⟨List.forall_mem_cons.mpr ⟨hc, hplain⟩, fun pos => ?_⟩
        rw [startsFrom_cons, if_neg hends, hnone]
      · have hbehind : IsTerminator ([c] ++ content) rest terminator :=
          hterminator.append_left (by simp [hc.2])
        refine .inr ⟨c :: content, terminator, rest, rfl, List.forall_mem_cons.mpr ⟨hc, hplain⟩,
          hbehind, fun pos => ?_⟩
        have hsize : pos + String.utf8Len (c :: content ++ terminator) =
            pos + c.utf8Size + String.utf8Len (content ++ terminator) := by
          rw [List.cons_append, String.utf8Len_cons]
          omega
        rw [startsFrom_cons, if_neg hends, hstart, hsize]
    · right
      by_cases hlf : c = '\n'
      · subst hlf
        refine ⟨[], ['\n'], cs, rfl, by simp, .lf (by simp), fun pos => ?_⟩
        rw [startsFrom_cons]
        rfl
      · obtain rfl : c = '\r' := by
          by_contra hcr
          exact hc ⟨hlf, hcr⟩
        by_cases hhead : cs.head? = some '\n'
        · obtain ⟨cs, rfl⟩ := List.head?_eq_some_iff.mp hhead
          exact ⟨[], ['\r', '\n'], cs, rfl, by simp, .crLf, fun pos => startsFrom.eq_2 pos cs⟩
        · refine ⟨[], ['\r'], cs, rfl, by simp, .cr hhead, fun pos => ?_⟩
          have hends : endsLine '\r' cs = true := by simp [endsLine, hhead]
          rw [startsFrom_cons, if_pos hends]
          rfl

/-- The `i`-th of the lines that start from a position on stands behind some characters, and ends
with its terminator or is the last one. -/
theorem exists_parts (pos i : Nat) (cs : List Char) (hi : i ≤ (startsFrom pos cs).length) :
    ∃ front content terminator rest, cs = front ++ content ++ terminator ++ rest ∧
      (∀ c ∈ content, IsPlain c) ∧
      (front.getLast? = some '\r' → (content ++ terminator).head? ≠ some '\n') ∧
      (pos :: startsFrom pos cs)[i]? = some (pos + String.utf8Len front) ∧
      (i < (startsFrom pos cs).length → IsTerminator content rest terminator ∧
        (startsFrom pos cs)[i]? = some (pos + String.utf8Len (front ++ content ++ terminator))) ∧
      (i = (startsFrom pos cs).length → terminator = [] ∧ rest = []) := by
  induction i generalizing pos cs with
  | zero =>
    rcases startsFrom_cases cs with
      ⟨hplain, hnone⟩ | ⟨content, terminator, rest, rfl, hplain, hterminator, hstart⟩
    · refine ⟨[], cs, [], [], by simp, hplain, by simp, rfl, ?_, fun _ => ⟨rfl, rfl⟩⟩
      rw [hnone]
      nofun
    · refine ⟨[], content, terminator, rest, rfl, hplain, by simp, rfl, ?_, ?_⟩
      · rw [hstart]
        exact fun _ => ⟨hterminator, rfl⟩
      · rw [hstart]
        nofun
  | succ i ih =>
    rcases startsFrom_cases cs with ⟨-, hnone⟩ | ⟨content, terminator, rest, rfl, -, hterminator, hstart⟩
    · rw [hnone] at hi
      cases hi
    · rw [hstart] at hi ⊢
      -- the line is found in what stands behind the first one
      obtain ⟨front', content', terminator', rest', rfl, hplain', hfront', hstart', hend', hlast'⟩ :=
        ih _ _ (Nat.le_of_succ_le_succ hi)
      have hsize : ∀ xs, pos + String.utf8Len (content ++ terminator) + String.utf8Len xs =
          pos + String.utf8Len (content ++ terminator ++ xs) := by
        intro xs
        rw [String.utf8Len_append _ xs, Nat.add_assoc]
      refine ⟨content ++ terminator ++ front', content', terminator', rest', ?_, hplain', ?_, ?_, ?_, ?_⟩
      · simp only [List.append_assoc]
      · -- a CR in front of this line ends the line before
        intro hcr
        rcases List.eq_nil_or_concat front' with rfl | ⟨front', c, rfl⟩
        · rw [List.append_nil] at hcr
          have hhead := hterminator.head?_ne hcr
          intro hlf
          apply hhead
          rw [List.nil_append, List.head?_append, hlf]
          rfl
        · apply hfront'
          rw [List.concat_eq_append, List.getLast?_concat]
          rwa [List.concat_eq_append, ← List.append_assoc, List.getLast?_concat] at hcr
      · rw [List.getElem?_cons_succ, hstart', hsize]
      · intro hlt
        obtain ⟨hterminator', hnext⟩ := hend' (Nat.lt_of_succ_lt_succ hlt)
        refine ⟨hterminator', ?_⟩
        rw [List.getElem?_cons_succ, hnext, hsize]
        simp only [List.append_assoc]
      · intro heq
        exact hlast' (Nat.succ_inj.mp heq)

/-- A line of a text: its content, in which there is neither CR nor LF, with the terminator behind it,
which only the last line does not have. -/
structure IsLine (text : String) (line : OneIndexed) (front content terminator rest : List Char) :
    Prop where
  toList_eq : text.toList = front ++ content ++ terminator ++ rest
  isPlain : ∀ c ∈ content, IsPlain c
  ends : line.val < (ofText text).lineCount ∧ IsTerminator (front ++ content) rest terminator ∨
    line.val = (ofText text).lineCount ∧ terminator = [] ∧ rest = []
  lineStart_eq : (ofText text).lineStart line = String.utf8Len front
  lineEnd_eq : (ofText text).lineEnd line = String.utf8Len (front ++ content ++ terminator)

/-- Every line that exists is one of the text. -/
theorem exists_isLine (h : line.toZeroBased < (ofText text).lineCount) :
    ∃ front content terminator rest, IsLine text line front content terminator rest := by
  have hpos := line.pos
  have hcount : (ofText text).lineCount = (startsFrom 0 text.toList).length + 1 := rfl
  have hval : line.val = line.toZeroBased + 1 := by
    unfold OneIndexed.toZeroBased
    omega
  obtain ⟨front, content, terminator, rest, htext, hplain, hfront, hstart, hend, hlast⟩ :=
    exists_parts 0 line.toZeroBased text.toList (by omega)
  refine ⟨front, content, terminator, rest, htext, hplain, ?_, ?_, ?_⟩
  · rcases Nat.lt_or_ge line.val (ofText text).lineCount with hlt | hge
    · exact .inl ⟨hlt, (hend (by omega)).1.append_left hfront⟩
    · exact .inr ⟨by omega, hlast (by omega)⟩
  · show (0 :: startsFrom 0 text.toList).getD line.toZeroBased _ = _
    rw [List.getD_eq_getElem?_getD, hstart, Option.getD_some, Nat.zero_add]
  · show (0 :: startsFrom 0 text.toList).getD line.val _ = _
    rw [List.getD_eq_getElem?_getD, hval, List.getElem?_cons_succ]
    by_cases hlt : line.toZeroBased < (startsFrom 0 text.toList).length
    · rw [(hend hlt).2, Option.getD_some, Nat.zero_add]
    · -- behind the last line the text is at its end
      obtain ⟨rfl, rfl⟩ := hlast (by omega)
      rw [List.getElem?_eq_none (Nat.le_of_not_lt hlt), Option.getD_none, List.append_nil]
      rw [List.append_nil, List.append_nil] at htext
      rw [← htext]
      exact Text.utf8ByteSize_eq text

namespace IsLine

variable {front content terminator rest : List Char}

/-- What stands behind the content of a line are CR and LF. -/
theorem not_isPlain (h : IsLine text line front content terminator rest) :
    ∀ c ∈ terminator, ¬ IsPlain c := by
  rcases h.ends with ⟨-, hterminator⟩ | ⟨-, rfl, -⟩
  · exact hterminator.not_isPlain
  · simp

theorem lineRange_eq (h : IsLine text line front content terminator rest) :
    (ofText text).lineRange line = TextRange.between (String.utf8Len front)
      (String.utf8Len (front ++ content ++ terminator)) := by
  rw [lineRange, h.lineStart_eq, h.lineEnd_eq]

/-- The text of a line is its content. -/
theorem lineText_eq (h : IsLine text line front content terminator rest) :
    (ofText text).lineText line = .ok (String.ofList content) := by
  have hle : String.utf8Len front ≤ String.utf8Len (front ++ content ++ terminator) := by
    rw [List.append_assoc, String.utf8Len_append]
    exact Nat.le_add_right _ _
  have hcut : Text.sliceChars text.toList ⟨_, _, hle⟩ = .ok (content ++ terminator) := by
    have htext : text.toList = front ++ (content ++ terminator) ++ rest := by
      rw [h.toList_eq, List.append_assoc front]
    refine Text.sliceChars_eq htext rfl ?_
    show String.utf8Len (front ++ content ++ terminator) = _
    rw [List.append_assoc, String.utf8Len_append]
  have hstrip : ((content ++ terminator).reverse.dropWhile fun c => c == '\n' || c == '\r').reverse =
      content := by
    have hterminator : ∀ c ∈ terminator.reverse, (c == '\n' || c == '\r') = true := by
      intro c hc
      have hbreak := h.not_isPlain c (List.mem_reverse.mp hc)
      simp only [IsPlain, not_and_or, not_not] at hbreak
      simpa using hbreak
    have hcontent : content.reverse.dropWhile (fun c => c == '\n' || c == '\r') =
        content.reverse := by
      cases hrev : content.reverse with
      | nil => rfl
      | cons c cs =>
        have hplain := h.isPlain c (List.mem_reverse.mp (hrev ▸ List.mem_cons_self))
        rw [List.dropWhile_cons_of_neg (by simp [hplain.1, hplain.2])]
    rw [List.reverse_append, List.dropWhile_append_of_pos hterminator, hcontent,
      List.reverse_reverse]
  rw [lineText, h.lineRange_eq, TextRange.between_eq_ok hle]
  show (Text.sliceChars text.toList _ >>= _) = _
  rw [hcut]
  show Except.ok (String.ofList _) = _
  rw [hstrip]

end IsLine

/-! ### Lines of offsets -/

/-- In a list that increases, the members up to a bound come first. -/
theorem lt_countP_iff {l : List Nat} (hl : l.Pairwise (· < ·)) (i bound : Nat) :
    i < l.countP (· ≤ bound) ↔ ∃ x, l[i]? = some x ∧ x ≤ bound := by
  induction l generalizing i with
  | nil => simp
  | cons a l ih =>
    obtain ⟨hfirst, hrest⟩ := List.pairwise_cons.mp hl
    by_cases ha : a ≤ bound
    · rw [List.countP_cons_of_pos (by simpa using ha)]
      cases i with
      | zero => simp [ha]
      | succ i => rw [Nat.add_lt_add_iff_right, ih hrest, List.getElem?_cons_succ]
    · -- then all the others are beyond the bound too
      have hnone : ∀ x ∈ a :: l, ¬ x ≤ bound := by
        intro x hx
        rcases List.mem_cons.mp hx with rfl | hx
        · exact ha
        · have hlt := hfirst x hx
          omega
      have hzero : (a :: l).countP (· ≤ bound) = 0 := by
        rw [List.countP_eq_zero]
        simpa using hnone
      rw [hzero]
      constructor
      · nofun
      · rintro ⟨x, hx, hle⟩
        exact absurd hle (hnone x (List.mem_of_getElem? hx))

/-- An offset is on the line up to which the starts are not behind it. -/
theorem lineOf_val (hlen : text.utf8ByteSize < Offset.limit) (offset : Nat) :
    ((ofText text).lineOf offset).val = (ofText text).starts.countP (· ≤ offset) := by
  have hpos : 0 < (ofText text).starts.countP (· ≤ offset) := by
    rw [countP_starts]
    omega
  have hle : (ofText text).starts.countP (· ≤ offset) ≤ (ofText text).lineCount :=
    List.countP_le_length
  have hcount := lineCount_le text
  rw [lineOf, OneIndexed.ofZeroBased_eq (by omega)]
  exact Nat.sub_add_cancel hpos

/-- The line that an offset is on starts at the greatest start up to it. -/
theorem isGreatest_lineStart (hlen : text.utf8ByteSize < Offset.limit) (offset : Nat) :
    IsGreatest {p | (p = 0 ∨ EndsLineAt text p) ∧ p ≤ offset}
      ((ofText text).lineStart ((ofText text).lineOf offset)) := by
  have hcount : 0 < (ofText text).starts.countP (· ≤ offset) := by
    rw [countP_starts]
    omega
  obtain ⟨start, hstart, hle⟩ := (lt_countP_iff (starts_pairwise text)
    ((ofText text).starts.countP (· ≤ offset) - 1) offset).mp (by omega)
  have hlineStart : (ofText text).lineStart ((ofText text).lineOf offset) = start := by
    rw [lineStart, OneIndexed.toZeroBased, lineOf_val hlen, List.getD_eq_getElem?_getD, hstart,
      Option.getD_some]
  rw [hlineStart]
  constructor
  · exact ⟨mem_starts_iff.mp (List.mem_of_getElem? hstart), hle⟩
  · rintro p ⟨hp, hple⟩
    obtain ⟨i, hi⟩ := List.mem_iff_getElem?.mp (mem_starts_iff.mpr hp)
    have hlt := (lt_countP_iff (starts_pairwise text) i offset).mpr ⟨p, hi, hple⟩
    obtain ⟨hi', rfl⟩ := List.getElem?_eq_some_iff.mp hi
    obtain ⟨hlast, rfl⟩ := List.getElem?_eq_some_iff.mp hstart
    rcases Nat.eq_or_lt_of_le (Nat.le_sub_one_of_lt hlt) with heq | hbefore
    · simp only [heq, Nat.le_refl]
    · exact Nat.le_of_lt
        (List.pairwise_iff_getElem.mp (starts_pairwise text) _ _ hi' hlast hbefore)

/-- An offset that has a location is a boundary between characters. -/
theorem isBoundary_of_location? (hlen : text.utf8ByteSize < Offset.limit) {loc : SourceLocation}
    (h : (ofText text).location? offset = some loc) : Text.isBoundary text offset = true := by
  rw [Text.isBoundary_iff]
  have hstart := (isGreatest_lineStart hlen offset).1.2
  unfold location? at h
  split at h
  · cases h
  · next hle =>
    have hle : offset ≤ text.utf8ByteSize := Nat.le_of_not_lt hle
    obtain ⟨column, hcolumn, -⟩ := Option.map_eq_some_iff.mp h
    split at hcolumn
    · next hascii =>
      -- every character is one byte
      have hall : ∀ c ∈ text.toList, c.toNat < 0x80 := by
        have hall : text.toList.all (fun c => c.toNat < 0x80) = true := hascii
        simpa using hall
      refine ⟨text.toList.take offset, text.toList.drop offset,
        (List.take_append_drop _ _).symm, ?_⟩
      rw [Text.utf8Len_eq_length fun c hc => hall c (List.mem_of_mem_take hc), List.length_take]
      rw [Text.utf8ByteSize_eq, Text.utf8Len_eq_length hall] at hle
      omega
    · split at hcolumn
      · cases hcolumn
      · next front rest hfront =>
        split at hcolumn
        · cases hcolumn
        · next piece behind hpiece =>
          obtain ⟨htext, hsize⟩ := Text.splitBytes_eq_ok hfront
          obtain ⟨rfl, hsize'⟩ := Text.splitBytes_eq_ok hpiece
          refine ⟨front ++ piece, behind, ?_, ?_⟩
          · rw [List.append_assoc]
            exact htext
          · rw [String.utf8Len_append]
            omega

/-- The location of a boundary: its line is the one it is on, and its column counts the characters
behind the start of that line. -/
theorem exists_location (hlen : text.utf8ByteSize < Offset.limit) {before rest : List Char}
    (htext : text.toList = before ++ rest) : ∃ front behind loc, before = front ++ behind ∧
      (ofText text).location? (String.utf8Len before) = some loc ∧
      loc.line = (ofText text).lineOf (String.utf8Len before) ∧
      (ofText text).lineStart loc.line = String.utf8Len front ∧ loc.column.val = 1 + behind.length := by
  obtain ⟨loc, hloc, hwalk⟩ := location?_eq hlen htext
  obtain ⟨n, front, behind, rfl, hcount, -, hstart, hcounted⟩ := exists_walk_eq 0 before rest
  rw [hcounted, ite_self, Prod.mk.injEq] at hwalk
  rw [Nat.zero_add, ← htext] at hcount hstart
  have hcountP : (ofText text).starts.countP (· ≤ String.utf8Len (front ++ behind)) = 1 + n := by
    show (0 :: startsFrom 0 text.toList).countP _ = _
    rw [List.countP_cons_of_pos (by simp), hcount, Nat.add_comm]
  refine ⟨front, behind, loc, rfl, hloc, ?_, ?_, hwalk.2⟩
  · apply OneIndexed.eq_of_val_eq
    rw [lineOf_val hlen, hcountP]
    exact hwalk.1
  · show (0 :: startsFrom 0 text.toList).getD loc.line.toZeroBased _ = _
    rw [OneIndexed.toZeroBased, hwalk.1, Nat.add_sub_cancel_left, List.getD_eq_getElem?_getD, hstart,
      Option.getD_some]

/-- **Lines and columns**: in a text whose length 32 bits hold, an offset has no location exactly
beyond the end and inside a character.  Its line counts the terminators that end up to it, and its
column the characters behind the last of them.  The lines follow one another from the start of the
text to its end; each is its content, without CR and LF, with its terminator behind it, and only the
last one has none. -/
theorem location?_counts (hlen : text.utf8ByteSize < Offset.limit) :
    (∀ offset, (ofText text).location? offset = none ↔
      text.utf8ByteSize < offset ∨ Text.isBoundary text offset = false) ∧
    (∀ offset loc, (ofText text).location? offset = some loc →
      loc.line.val = 1 + {p | EndsLineAt text p ∧ p ≤ offset}.ncard ∧
      ∃ front behind rest, text.toList = front ++ behind ++ rest ∧
        offset = String.utf8Len (front ++ behind) ∧
        IsGreatest {p | (p = 0 ∨ EndsLineAt text p) ∧ p ≤ offset} (String.utf8Len front) ∧
        loc.column.val = 1 + behind.length) ∧
    (∀ line, line.toZeroBased < (ofText text).lineCount →
      ∃ range front content terminator rest, (ofText text).lineRange line = .ok range ∧
        range.start = (ofText text).lineStart line ∧ range.stop = (ofText text).lineEnd line ∧
        IsLine text line front content terminator rest) ∧
    (ofText text).lineStart OneIndexed.one = 0 ∧
    (∀ line next : OneIndexed, next.val = line.val + 1 →
      (ofText text).lineEnd line = (ofText text).lineStart next) ∧
    (∀ line : OneIndexed, line.val = (ofText text).lineCount →
      (ofText text).lineEnd line = text.utf8ByteSize) := by
  refine ⟨?_, ?_, ?_, rfl, ?_, ?_⟩
  · intro offset
    constructor
    · intro hnone
      -- behind the text there is nothing to show; within it, a boundary would give a location
      right
      by_contra hboundary
      rw [Bool.not_eq_false, Text.isBoundary_iff] at hboundary
      obtain ⟨before, rest, htext, rfl⟩ := hboundary
      obtain ⟨-, -, loc, -, hloc, -⟩ := exists_location hlen htext
      rw [hnone] at hloc
      cases hloc
    · rintro (hbeyond | hinside)
      · exact if_pos hbeyond
      · rw [← Option.not_isSome_iff_eq_none, Option.isSome_iff_exists]
        rintro ⟨loc, hloc⟩
        rw [isBoundary_of_location? hlen hloc] at hinside
        cases hinside
  · intro offset loc hloc
    obtain ⟨before, rest, htext, rfl⟩ :=
      Text.isBoundary_iff.mp (isBoundary_of_location? hlen hloc)
    obtain ⟨front, behind, loc', rfl, hloc', hline, hstart, hcolumn⟩ := exists_location hlen htext
    obtain rfl : loc = loc' := Option.some.inj (hloc.symm.trans hloc')
    refine ⟨?_, front, behind, rest, htext, rfl, ?_, hcolumn⟩
    · -- as many lines start up to the offset as end up to it, and one more
      rw [hline, lineOf_val hlen, countP_starts]
    · rw [← hstart, hline]
      exact isGreatest_lineStart hlen _
  · intro line hline
    obtain ⟨front, content, terminator, rest, hparts⟩ := exists_isLine hline
    exact ⟨_, front, content, terminator, rest, TextRange.between_eq_ok (lineStart_le_lineEnd hline),
      rfl, rfl, hparts⟩
  · intro line next hnext
    rw [lineEnd, lineStart, OneIndexed.toZeroBased, hnext, Nat.add_sub_cancel]
  · intro line hline
    exact List.getD_eq_default _ _ (Nat.le_of_eq hline.symm)

/-- An accent takes two bytes, and CR LF and a lone CR end a line each. -/
theorem location?_counts_accented : "é\r\n\ré".utf8ByteSize < Offset.limit ∧
    (ofText "é\r\n\ré").location? 1 = none ∧
    (ofText "é\r\n\ré").location? 5 = some ⟨⟨3, by decide⟩, ⟨1, by decide⟩⟩ ∧
    3 = 1 + {p | EndsLineAt "é\r\n\ré" p ∧ p ≤ 5}.ncard := by
  have hlen : "é\r\n\ré".utf8ByteSize < Offset.limit := by decide
  obtain ⟨hnone, hsome, -⟩ := location?_counts hlen
  refine ⟨hlen, (hnone 1).mpr (.inr (by decide)), by decide, ?_⟩
  exact (hsome 5 ⟨⟨3, by decide⟩, ⟨1, by decide⟩⟩ (by decide)).1

end LineIndex

end SwiftTidy
