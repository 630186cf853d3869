import Mathlib.Data.List.GetD
import Mathlib.Data.String.Basic
import SwiftTidy.Proofs.Text.Offset
import SwiftTidy.Text.LineIndex

/-!
# Lines and columns of offsets

The starts of the lines of a text increase and stay within it (`starts_pairwise`, `starts_le_len`), so
a line ends where it starts or behind that (`lineStart_le_lineEnd`).  A line starts behind some
characters of the text, hence at a boundary.  So a line that exists can be cut out, with or without its
terminator (`exists_contentRange`).

`Text.walk` counts lines and columns the way a reader does, one character after another.  The index
of a text finds the line of an offset among the starts of all lines and the column from what stands
between; `location?_eq` says that at every boundary between characters both are the same.
-/

namespace SwiftTidy

namespace LineIndex

/-- A line behind the first starts behind the offset from which lines are looked for, and not
beyond the characters that are left. -/
theorem startsFrom_bounds {pos : Nat} {cs : List Char} :
    ∀ p ∈ startsFrom pos cs, pos < p ∧ p ≤ pos + String.utf8Len cs := by
  induction pos, cs using startsFrom.induct with
  | case1 pos => simp [startsFrom]
  | case2 pos cs ih =>
    -- CR LF is one terminator
    have hsize : String.utf8Len ('\r' :: '\n' :: cs) = String.utf8Len cs + 2 := rfl
    rw [startsFrom, hsize]
    refine List.forall_mem_cons.mpr ⟨by omega, ?_⟩
    intro p hp
    have hbounds := ih p hp
    omega
  | case3 pos c cs hcrlf next hend ih =>
    have hpos := c.utf8Size_pos
    rw [startsFrom, if_pos hend, String.utf8Len_cons]
    · refine List.forall_mem_cons.mpr ⟨by omega, ?_⟩
      intro p hp
      have hbounds := ih p hp
      omega
    · exact hcrlf
  | case4 pos c cs hcrlf next hend ih =>
    have hpos := c.utf8Size_pos
    rw [startsFrom, if_neg hend, String.utf8Len_cons]
    · intro p hp
      have hbounds := ih p hp
      omega
    · exact hcrlf

theorem startsFrom_pairwise {pos : Nat} {cs : List Char} : (startsFrom pos cs).Pairwise (· < ·) := by
  induction pos, cs using startsFrom.induct with
  | case1 pos => simp [startsFrom]
  | case2 pos cs ih =>
    rw [startsFrom]
    exact List.pairwise_cons.mpr ⟨fun p hp => (startsFrom_bounds p hp).1, ih⟩
  | case3 pos c cs hcrlf next hend ih =>
    rw [startsFrom, if_pos hend]
    · exact List.pairwise_cons.mpr ⟨fun p hp => (startsFrom_bounds p hp).1, ih⟩
    · exact hcrlf
  | case4 pos c cs hcrlf next hend ih =>
    rw [startsFrom, if_neg hend]
    · exact ih
    · exact hcrlf

/-- The lines of a text are in order. -/
theorem starts_pairwise (text : String) : (ofText text).starts.Pairwise (· < ·) :=
  List.pairwise_cons.mpr ⟨fun p hp => (startsFrom_bounds p hp).1, startsFrom_pairwise⟩

/-- Every line starts within the text. -/
theorem starts_le_len (text : String) : ∀ p ∈ (ofText text).starts, p ≤ (ofText text).len := by
  have hlen : (ofText text).len = String.utf8Len text.toList := by
    show text.utf8ByteSize = _
    rw [← String.utf8ByteSize_ofList, String.ofList_toList]
  rw [hlen]
  refine List.forall_mem_cons.mpr ⟨Nat.zero_le _, fun p hp => ?_⟩
  have hbounds := startsFrom_bounds p hp
  omega

/-- A line of a text does not end in front of its start. -/
theorem lineStart_le_lineEnd {text : String} {line : OneIndexed}
    (h : line.toZeroBased < (ofText text).lineCount) :
    (ofText text).lineStart line ≤ (ofText text).lineEnd line := by
  have hpos := line.pos
  unfold OneIndexed.toZeroBased lineCount at h
  unfold lineStart lineEnd OneIndexed.toZeroBased
  rw [List.getD_eq_getElem _ _ h]
  by_cases hnext : line.val < (ofText text).starts.length
  · rw [List.getD_eq_getElem _ _ hnext]
    exact Nat.le_of_lt
      (List.pairwise_iff_getElem.mp (starts_pairwise text) _ _ h hnext (by omega))
  · rw [List.getD_eq_default _ _ (by omega)]
    exact starts_le_len text _ (List.getElem_mem h)

/-! ### Cutting out lines -/

theorem length_startsFrom_le {pos : Nat} {cs : List Char} :
    (startsFrom pos cs).length ≤ String.utf8Len cs := by
  induction pos, cs using startsFrom.induct with
  | case1 pos => exact Nat.zero_le _
  | case2 pos cs ih =>
    have hsize : String.utf8Len ('\r' :: '\n' :: cs) = String.utf8Len cs + 2 := rfl
    rw [startsFrom, List.length_cons]
    omega
  | case3 pos c cs hcrlf next hend ih =>
    have hpos := c.utf8Size_pos
    rw [startsFrom, if_pos hend, List.length_cons, String.utf8Len_cons]
    · exact Nat.add_le_add ih hpos
    · exact hcrlf
  | case4 pos c cs hcrlf next hend ih =>
    rw [startsFrom, if_neg hend, String.utf8Len_cons]
    · exact Nat.le_add_right_of_le ih
    · exact hcrlf

/-- A text has at most one more line than it has bytes. -/
theorem lineCount_le (text : String) : (ofText text).lineCount ≤ text.utf8ByteSize + 1 := by
  rw [Text.utf8ByteSize_eq]
  exact Nat.succ_le_succ length_startsFrom_le

/-- A line behind the first starts behind some of the characters that are looked at. -/
theorem exists_of_mem_startsFrom {pos : Nat} {cs : List Char} :
    ∀ p ∈ startsFrom pos cs, ∃ front rest, cs = front ++ rest ∧
      p = pos + String.utf8Len front := by
  induction pos, cs using startsFrom.induct with
  | case1 pos => simp [startsFrom]
  | case2 pos cs ih =>
    rw [startsFrom]
    refine List.forall_mem_cons.mpr ⟨⟨['\r', '\n'], cs, rfl, rfl⟩, fun p hp => ?_⟩
    obtain ⟨front, rest, rfl, rfl⟩ := ih p hp
    refine ⟨'\r' :: '\n' :: front, rest, rfl, ?_⟩
    have hsize : String.utf8Len ('\r' :: '\n' :: front) = String.utf8Len front + 2 := rfl
    omega
  | case3 pos c cs hcrlf next hend ih =>
    rw [startsFrom, if_pos hend]
    · have hsize : String.utf8Len [c] = c.utf8Size := Nat.zero_add _
      refine List.forall_mem_cons.mpr ⟨⟨[c], cs, rfl, by rw [hsize]⟩, fun p hp => ?_⟩
      obtain ⟨front, rest, rfl, rfl⟩ := ih p hp
      exact ⟨c :: front, rest, rfl, by rw [String.utf8Len_cons]; omega⟩
    · exact hcrlf
  | case4 pos c cs hcrlf next hend ih =>
    rw [startsFrom, if_neg hend]
    · intro p hp
      obtain ⟨front, rest, rfl, rfl⟩ := ih p hp
      exact ⟨c :: front, rest, rfl, by rw [String.utf8Len_cons]; omega⟩
    · exact hcrlf

/-- A start of a line that is looked up, like the end of the text, is behind some characters. -/
theorem exists_getD_starts (text : String) (i : Nat) : ∃ front rest,
    text.toList = front ++ rest ∧
      (ofText text).starts.getD i (ofText text).len = String.utf8Len front := by
  by_cases hi : i < (ofText text).starts.length
  · rw [List.getD_eq_getElem _ _ hi]
    have hmem := List.getElem_mem hi
    rcases List.mem_cons.mp hmem with hzero | hlater
    · exact ⟨[], text.toList, rfl, hzero⟩
    · obtain ⟨front, rest, htext, hp⟩ := exists_of_mem_startsFrom _ hlater
      exact ⟨front, rest, htext, by rw [hp, Nat.zero_add]⟩
  · rw [List.getD_eq_default _ _ (Nat.le_of_not_lt hi)]
    exact ⟨text.toList, [], (List.append_nil _).symm, Text.utf8ByteSize_eq text⟩

/-- A line that exists stands between two parts of its text, and is what it is without its
terminator and then the terminator. -/
theorem exists_lineText {text : String} {line : OneIndexed}
    (h : line.toZeroBased < (ofText text).lineCount) : ∃ front content rest,
      text.toList = front ++ content ++ rest ∧
      (ofText text).lineStart line = String.utf8Len front ∧
      (ofText text).lineText line = .ok (String.ofList content) := by
  obtain ⟨front, behind, hfront, hstart⟩ := exists_getD_starts text line.toZeroBased
  obtain ⟨front', rest, hfront', hend⟩ := exists_getD_starts text line.val
  have hle : (ofText text).lineStart line ≤ (ofText text).lineEnd line := lineStart_le_lineEnd h
  rw [lineStart, lineEnd, hstart, hend] at hle
  obtain ⟨piece, rfl⟩ : ∃ piece, front' = front ++ piece := by
    rcases List.append_eq_append_iff.mp (hfront.symm.trans hfront') with
      ⟨piece, hpiece, -⟩ | ⟨extra, rfl, -⟩
    · exact ⟨piece, hpiece⟩
    · -- the line does not end in front of its start, so nothing is left over
      cases extra with
      | nil => exact ⟨[], by rw [List.append_nil, List.append_nil]⟩
      | cons c cs =>
        have hpos := c.utf8Size_pos
        rw [String.utf8Len_append, String.utf8Len_cons] at hle
        omega
  have hrange : (ofText text).lineRange line = .ok ⟨_, _, hle⟩ := by
    rw [lineRange, lineStart, lineEnd, hstart, hend]
    exact TextRange.between_eq_ok hle
  have hcut : Text.sliceChars text.toList ⟨_, _, hle⟩ = .ok piece :=
    Text.sliceChars_eq hfront' rfl (String.utf8Len_append _ _)
  refine ⟨front, (piece.reverse.dropWhile fun c => c == '\n' || c == '\r').reverse,
    (piece.reverse.takeWhile fun c => c == '\n' || c == '\r').reverse ++ rest, ?_, hstart, ?_⟩
  · rw [hfront', List.append_assoc front (List.reverse _), ← List.append_assoc (List.reverse _),
      ← List.reverse_append, List.takeWhile_append_dropWhile, List.reverse_reverse,
      List.append_assoc]
  · rw [lineText, hrange]
    show (Text.sliceChars text.toList _ >>= _) = _
    rw [hcut]
    rfl

/-- **The content of a line**: in a text whose length 32 bits hold, a line that exists has a range
without its terminator, and this range cuts it out. -/
theorem exists_contentRange {text : String} {line : OneIndexed}
    (hlen : text.utf8ByteSize < Offset.limit) (h : line.toZeroBased < (ofText text).lineCount) :
    ∃ range content, (ofText text).contentRange line = .ok range ∧
      (ofText text).lineText line = .ok content ∧ Text.slice text range = .ok content ∧
      range.start = (ofText text).lineStart line ∧ range.len = content.utf8ByteSize := by
  obtain ⟨front, content, rest, htext, hstart, hcontent⟩ := exists_lineText h
  have hsize : (String.ofList content).utf8ByteSize = String.utf8Len content :=
    String.utf8ByteSize_ofList content
  have hle : String.utf8Len front + String.utf8Len content ≤ text.utf8ByteSize := by
    rw [Text.utf8ByteSize_eq, htext, String.utf8Len_append, String.utf8Len_append]
    exact Nat.le_add_right _ _
  refine ⟨⟨String.utf8Len front, String.utf8Len front + String.utf8Len content,
    Nat.le_add_right _ _⟩, String.ofList content, ?_, hcontent, Text.slice_eq htext rfl rfl,
    hstart.symm, ?_⟩
  · rw [contentRange, hcontent, hstart]
    show TextRange.ofLength _ (String.ofList content).utf8ByteSize = _
    rw [hsize]
    exact TextRange.ofLength_eq_ok (Nat.lt_of_le_of_lt hle hlen)
  · rw [hsize]
    exact Nat.add_sub_cancel_left _ _

end LineIndex

namespace Text

/-- Whether a character in front of `rest` ends a line: LF does, and so does CR, unless LF follows
and ends the line in its place. -/
def endsLine (c : Char) (rest : List Char) : Bool :=
  c == '\n' || (c == '\r' && rest.head? != some '\n')

/-- The line and the column behind some characters in front of `rest`, from a line and a column on:
the end of a line leads to the first column of the next one, and any other character to the next
column. -/
def walk : (line column : Nat) → List Char → (rest : List Char) → Nat × Nat
  | line, column, [], _ => (line, column)
  | line, column, c :: front, rest =>
    if endsLine c (front ++ rest) then walk (line + 1) 1 front rest
    else walk line (column + 1) front rest

/-- Every character of ASCII text takes one byte. -/
theorem utf8Len_eq_length {cs : List Char} (h : ∀ c ∈ cs, c.toNat < 0x80) :
    String.utf8Len cs = cs.length := by
  induction cs with
  | nil => rfl
  | cons c cs ih =>
    obtain ⟨hc, hcs⟩ := List.forall_mem_cons.mp h
    have hsize : c.utf8Size = 1 := by
      unfold Char.utf8Size
      have hle : c.val ≤ 0x7f := UInt32.le_iff_toNat_le.mpr (Nat.le_of_lt_succ hc)
      exact if_pos hle
    rw [String.utf8Len_cons, ih hcs, hsize, List.length_cons]

theorem length_le_utf8Len (cs : List Char) : cs.length ≤ String.utf8Len cs := by
  induction cs with
  | nil => exact Nat.le_refl _
  | cons c cs ih =>
    have hpos := c.utf8Size_pos
    rw [String.utf8Len_cons, List.length_cons]
    omega

end Text

/-- Numbers within 32 bits are not cut off. -/
theorem OneIndexed.ofZeroBased_eq {n : Nat} (h : n < Offset.limit) :
    ofZeroBased n = ⟨n + 1, n.succ_pos⟩ := by
  have hle : n + 1 ≤ greatest := by
    unfold Offset.limit at h
    unfold greatest
    omega
  simp only [ofZeroBased, Nat.min_eq_left hle]

namespace LineIndex

open Text (endsLine walk)

/-- A line starts behind each character that ends one. -/
theorem startsFrom_cons (pos : Nat) (c : Char) (cs : List Char) :
    startsFrom pos (c :: cs) =
      if endsLine c cs then (pos + c.utf8Size) :: startsFrom (pos + c.utf8Size) cs
      else startsFrom (pos + c.utf8Size) cs := by
  by_cases hcrlf : c = '\r' ∧ cs.head? = some '\n'
  · -- CR LF is passed at once, and its LF ends the line
    obtain ⟨rfl, hhead⟩ := hcrlf
    obtain ⟨cs, rfl⟩ := List.head?_eq_some_iff.mp hhead
    have hlater : startsFrom (pos + 1) ('\n' :: cs) = (pos + 2) :: startsFrom (pos + 2) cs := by
      rw [startsFrom]
      · rfl
      · simp
    have hends : ¬ endsLine '\r' ('\n' :: cs) = true := by simp [endsLine]
    rw [startsFrom, if_neg hends]
    exact hlater.symm
  · have hends : endsLine c cs = (c == '\n' || c == '\r') := by
      unfold endsLine
      by_cases hcr : c = '\r'
      · have hhead : cs.head? ≠ some '\n' := fun hhead => hcrlf ⟨hcr, hhead⟩
        simp [hcr, hhead]
      · rw [beq_eq_false_iff_ne.mpr hcr, Bool.false_and]
    rw [startsFrom, hends]
    · rintro rest rfl rfl
      exact hcrlf ⟨rfl, rfl⟩

/-- What `walk` counts is found among the starts of lines: it passes as many lines as start within
the characters, and the column counts the characters behind the last start. -/
theorem exists_walk_eq (pos : Nat) (front rest : List Char) : ∃ n passed behind,
    front = passed ++ behind ∧
      (startsFrom pos (front ++ rest)).countP (· ≤ pos + String.utf8Len front) = n ∧
      (n = 0 → passed = []) ∧
      (pos :: startsFrom pos (front ++ rest))[n]? = some (pos + String.utf8Len passed) ∧
      ∀ line column, walk line column front rest =
        (line + n, (if n = 0 then column else 1) + behind.length) := by
  induction front generalizing pos with
  | nil =>
    refine ⟨0, [], [], rfl, ?_, fun _ => rfl, rfl, fun _ _ => rfl⟩
    -- all other lines start behind this offset
    refine List.countP_eq_zero.mpr fun p hp => ?_
    have hbounds := startsFrom_bounds p hp
    rw [decide_eq_true_eq, String.utf8Len_nil]
    omega
  | cons c front ih =>
    obtain ⟨n, passed, behind, rfl, hcount, hzero, hstart, hwalk⟩ := ih (pos + c.utf8Size)
    have hsize : ∀ cs, pos + c.utf8Size + String.utf8Len cs = pos + String.utf8Len (c :: cs) := by
      intro cs
      rw [String.utf8Len_cons]
      omega
    rw [hsize] at hcount hstart
    rw [List.cons_append, startsFrom_cons]
    by_cases hends : endsLine c (passed ++ behind ++ rest) = true
    · rw [if_pos hends]
      refine ⟨n + 1, c :: passed, behind, rfl, ?_, by simp, hstart, fun line column => ?_⟩
      · rw [List.countP_cons_of_pos, hcount]
        rw [decide_eq_true_eq, String.utf8Len_cons]
        omega
      · rw [walk, if_pos hends, hwalk, if_neg n.succ_ne_zero, ite_self]
        congr 1
        omega
    · rw [if_neg hends]
      have hcolumn : ∀ line column, walk line column (c :: (passed ++ behind)) rest =
          (line + n, (if n = 0 then column + 1 else 1) + behind.length) := by
        intro line column
        rw [walk, if_neg hends, hwalk]
      cases n with
      | zero =>
        obtain rfl : passed = [] := hzero rfl
        refine ⟨0, [], c :: behind, rfl, hcount, fun _ => rfl, rfl, fun line column => ?_⟩
        refine (hcolumn line column).trans ?_
        rw [if_pos rfl, if_pos rfl, List.length_cons]
        congr 1
        omega
      | succ n =>
        refine ⟨n + 1, c :: passed, behind, rfl, hcount, by simp, ?_, fun line column => ?_⟩
        · rwa [List.getElem?_cons_succ] at hstart ⊢
        · rw [hcolumn, if_neg n.succ_ne_zero, if_neg n.succ_ne_zero]

/-- **Lines and columns**: in a text whose length 32 bits hold, each boundary between characters has
a location, and this is what counting the characters in front of it gives. -/
theorem location?_eq {text : String} {front rest : List Char}
    (hlen : text.utf8ByteSize < Offset.limit) (htext : text.toList = front ++ rest) :
    ∃ loc, (ofText text).location? (String.utf8Len front) = some loc ∧
      (loc.line.val, loc.column.val) = Text.walk 1 1 front rest := by
  obtain ⟨n, passed, behind, rfl, hcount, -, hstart, hwalk⟩ := exists_walk_eq 0 front rest
  rw [Nat.zero_add] at hcount hstart
  rw [← htext] at hcount hstart
  have hsize : text.utf8ByteSize =
      String.utf8Len passed + String.utf8Len behind + String.utf8Len rest := by
    rw [Text.utf8ByteSize_eq, htext, String.utf8Len_append, String.utf8Len_append]
  have hwithin : ¬ (ofText text).len < String.utf8Len (passed ++ behind) := by
    show ¬ text.utf8ByteSize < _
    rw [String.utf8Len_append]
    omega
  -- neither the number of the line nor that of the column is out of reach
  have hn : n < Offset.limit := by
    have hle : n ≤ (startsFrom 0 text.toList).length := hcount ▸ List.countP_le_length
    have hlength : (startsFrom 0 text.toList).length ≤ _ := length_startsFrom_le
    rw [← Text.utf8ByteSize_eq] at hlength
    omega
  have hbehind : behind.length < Offset.limit := by
    have hle := Text.length_le_utf8Len behind
    omega
  have hline : (ofText text).lineOf (String.utf8Len (passed ++ behind)) = ⟨n + 1, n.succ_pos⟩ := by
    have hstarts : (ofText text).starts.countP (· ≤ String.utf8Len (passed ++ behind)) = n + 1 := by
      show (0 :: startsFrom 0 text.toList).countP _ = _
      rw [List.countP_cons_of_pos (by simp), hcount]
    rw [lineOf, hstarts, Nat.add_sub_cancel, OneIndexed.ofZeroBased_eq hn]
  have hlineStart : (ofText text).lineStart ⟨n + 1, n.succ_pos⟩ = String.utf8Len passed := by
    show (0 :: startsFrom 0 text.toList).getD n _ = _
    rw [List.getD_eq_getElem?_getD, hstart, Option.getD_some]
  have hdistance : String.utf8Len (passed ++ behind) - String.utf8Len passed =
      String.utf8Len behind := by
    rw [String.utf8Len_append]
    omega
  refine ⟨⟨⟨n + 1, n.succ_pos⟩, OneIndexed.ofZeroBased behind.length⟩, ?_, ?_⟩
  · unfold location?
    rw [if_neg hwithin, hline]
    dsimp only
    rw [hlineStart, hdistance]
    by_cases hascii : (ofText text).ascii = true
    · have hall : ∀ c ∈ behind, c.toNat < 0x80 := by
        intro c hc
        have hall : text.toList.all (fun c => c.toNat < 0x80) = true := hascii
        rw [htext] at hall
        simpa using List.all_eq_true.mp hall c (by simp [hc])
      rw [if_pos hascii, Text.utf8Len_eq_length hall]
      rfl
    · have hcut : Text.splitBytes (String.utf8Len passed) (ofText text).text.toList =
          .ok (passed, behind ++ rest) := by
        show Text.splitBytes _ text.toList = _
        rw [htext, List.append_assoc]
        exact Text.splitBytes_append _ _
      rw [if_neg hascii, hcut]
      dsimp only
      rw [Text.splitBytes_append]
      rfl
  · rw [hwalk, ite_self, OneIndexed.ofZeroBased_eq hbehind, Nat.add_comm 1, Nat.add_comm 1]

/-- LF, CR and CR LF each end one line, and an accent takes one column although it is two bytes. -/
example : (ofText "é\r\n\n\ré").location? 8 = some ⟨⟨4, by decide⟩, ⟨2, by decide⟩⟩ ∧
    Text.walk 1 1 "é\r\n\n\ré".toList [] = (4, 2) := by decide

/-- An offset that has a location is reported at it. -/
theorem location_of_location?_eq_some {ix : LineIndex} {offset : Nat} {loc : SourceLocation}
    (h : ix.location? offset = some loc) : ix.location offset = loc := by
  have hle : offset ≤ ix.len := by
    by_contra hlt
    rw [location?, if_pos (Nat.lt_of_not_le hlt)] at h
    cases h
  rw [location, Nat.min_eq_left hle, h]
  rfl

end LineIndex

end SwiftTidy
