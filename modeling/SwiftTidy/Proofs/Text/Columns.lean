import SwiftTidy.Proofs.Text.Lines

/-!
# Offsets of locations

A line and a column lead to the offset that they are the location of (`offset?_location?`).  A column
counts on from the start of its line and stops at the end of the content, so that it only matters
which characters of the content are in front of it (`IsLine.offset?_eq`).  An offset between CR and
LF is the one boundary whose column lies behind the content.
-/

namespace SwiftTidy

/-- Characters that are as long as others, at the front of the same ones, are these. -/
theorem Text.eq_of_append_eq {front front' rest rest' : List Char}
    (h : front ++ rest = front' ++ rest') (hlen : String.utf8Len front = String.utf8Len front') :
    front = front' ∧ rest = rest' := by
  have hcut := splitBytes_append front rest
  rw [h, hlen, splitBytes_append] at hcut
  cases hcut
  exact ⟨rfl, rfl⟩

namespace LineIndex

open Text (IsTerminator EndsLineAt)

variable {text : String} {line : OneIndexed} {offset : Nat} {front content terminator rest : List Char}

namespace IsLine

theorem lt_lineCount (h : IsLine text line front content terminator rest) :
    line.toZeroBased < (ofText text).lineCount := by
  have hpos := line.pos
  unfold OneIndexed.toZeroBased
  rcases h.ends with ⟨hlt, -⟩ | ⟨heq, -⟩
  · omega
  · omega

/-- In a text whose length 32 bits hold, a line is told by how many are in front of it. -/
theorem ofZeroBased_toZeroBased (h : IsLine text line front content terminator rest)
    (hlen : text.utf8ByteSize < Offset.limit) : OneIndexed.ofZeroBased line.toZeroBased = line := by
  have hexists := h.lt_lineCount
  have hcount := lineCount_le text
  have hpos := line.pos
  rw [OneIndexed.ofZeroBased_eq (by omega)]
  exact OneIndexed.eq_of_val_eq (Nat.sub_add_cancel hpos)

/-- A column leads behind as many characters of the content, and to the end of it if there are not
so many. -/
theorem offset?_eq (h : IsLine text line front content terminator rest) (column : OneIndexed) :
    (ofText text).offset? line column =
      some (String.utf8Len (front ++ content.take column.toZeroBased)) := by
  unfold offset?
  rw [if_neg (Nat.not_le_of_lt h.lt_lineCount), h.lineText_eq, h.lineStart_eq, String.utf8Len_append]
  dsimp only
  rw [String.toList_ofList, String.utf8ByteSize_ofList, String.utf8ByteSize_ofList]
  by_cases hascii : (ofText text).ascii = true
  · -- columns are bytes
    have hall : ∀ c ∈ content, c.toNat < 0x80 := by
      intro c hc
      have hall : text.toList.all (fun c => c.toNat < 0x80) = true := hascii
      rw [h.toList_eq] at hall
      simpa using List.all_eq_true.mp hall c (by simp [hc])
    rw [if_pos hascii, Text.utf8Len_eq_length hall,
      Text.utf8Len_eq_length fun c hc => hall c (List.mem_of_mem_take hc), List.length_take]
  · rw [if_neg hascii]

/-- An offset is on a line or behind it exactly when the line does not start behind the offset. -/
theorem le_lineOf_iff (h : IsLine text line front content terminator rest)
    (hlen : text.utf8ByteSize < Offset.limit) :
    line.val ≤ ((ofText text).lineOf offset).val ↔ String.utf8Len front ≤ offset := by
  have hpos := line.pos
  have hstart : (ofText text).starts[line.val - 1]? = some (String.utf8Len front) := by
    rw [← h.lineStart_eq, lineStart, List.getD_eq_getElem _ _ h.lt_lineCount]
    exact List.getElem?_eq_getElem h.lt_lineCount
  have hbefore : line.val - 1 < ((ofText text).lineOf offset).val ↔ String.utf8Len front ≤ offset := by
    rw [lineOf_val hlen, lt_countP_iff (starts_pairwise text), hstart]
    simp
  omega

/-- An offset is behind a line exactly when that is not the last one and ends up to the offset. -/
theorem lt_lineOf_iff (h : IsLine text line front content terminator rest)
    (hlen : text.utf8ByteSize < Offset.limit) : line.val < ((ofText text).lineOf offset).val ↔
      line.val < (ofText text).lineCount ∧ String.utf8Len (front ++ content ++ terminator) ≤ offset := by
  rw [lineOf_val hlen, lt_countP_iff (starts_pairwise text), ← h.lineEnd_eq, lineEnd]
  constructor
  · rintro ⟨next, hnext, hle⟩
    obtain ⟨hlt, rfl⟩ := List.getElem?_eq_some_iff.mp hnext
    rw [List.getD_eq_getElem _ _ hlt]
    exact ⟨hlt, hle⟩
  · rintro ⟨hlt, hle⟩
    rw [List.getD_eq_getElem _ _ hlt] at hle
    exact ⟨_, List.getElem?_eq_getElem hlt, hle⟩

/-- A line that is not the last one ends behind its content, and the last one with the text. -/
theorem end_cases (h : IsLine text line front content terminator rest) :
    line.val < (ofText text).lineCount ∧
      String.utf8Len (front ++ content) < String.utf8Len (front ++ content ++ terminator) ∨
    line.val = (ofText text).lineCount ∧
      String.utf8Len (front ++ content ++ terminator) = text.utf8ByteSize := by
  rcases h.ends with ⟨hlt, hterminator⟩ | ⟨heq, -, hrest⟩
  · have hpos : 0 < String.utf8Len terminator := by
      cases hterminator <;> decide
    rw [String.utf8Len_append _ terminator]
    exact .inl ⟨hlt, by omega⟩
  · rw [Text.utf8ByteSize_eq, h.toList_eq, hrest, List.append_nil]
    exact .inr ⟨heq, rfl⟩

/-- An offset from the start of a line to the end of its content is on that line. -/
theorem lineOf_eq (h : IsLine text line front content terminator rest)
    (hlen : text.utf8ByteSize < Offset.limit) (hstart : String.utf8Len front ≤ offset)
    (hend : offset ≤ String.utf8Len (front ++ content)) : (ofText text).lineOf offset = line := by
  apply OneIndexed.eq_of_val_eq
  have hle := (h.le_lineOf_iff hlen).mpr hstart
  have hge : ¬ line.val < ((ofText text).lineOf offset).val := by
    rw [h.lt_lineOf_iff hlen]
    rcases h.end_cases with ⟨-, hbehind⟩ | ⟨hlast, -⟩
    · omega
    · omega
  omega

/-- Bytes of a text are on a line exactly when the line is none of those in front of the first or behind
the last of them. -/
theorem overlaps_iff {start stop : Nat} (h : IsLine text line front content terminator rest)
    (hlen : text.utf8ByteSize < Offset.limit) (hlt : start < stop) (hstop : stop ≤ text.utf8ByteSize) :
    ((ofText text).lineOf start).val ≤ line.val ∧ line.val ≤ ((ofText text).lineOf (stop - 1)).val ↔
      ∃ p, start ≤ p ∧ p < stop ∧ String.utf8Len front ≤ p ∧
        p < String.utf8Len (front ++ content ++ terminator) := by
  rw [← Nat.not_lt, h.lt_lineOf_iff hlen, h.le_lineOf_iff hlen]
  constructor
  · rintro ⟨hbefore, hbehind⟩
    have hcontent : String.utf8Len front ≤ String.utf8Len (front ++ content) := by
      rw [String.utf8Len_append]
      exact Nat.le_add_right _ _
    refine ⟨max start (String.utf8Len front), by omega, by omega, by omega, ?_⟩
    rcases h.end_cases with ⟨hnext, hend⟩ | ⟨hlast, hend⟩
    · have hstart : start < String.utf8Len (front ++ content ++ terminator) :=
        Nat.lt_of_not_le fun hle => hbefore ⟨hnext, hle⟩
      omega
    · omega
  · rintro ⟨p, hfrom, hto, hfront, hend⟩
    exact ⟨fun hafter => by omega, by omega⟩

/-- The line of an offset has not ended up to that offset: what was passed of it is a part of its
content, or the CR of its CR LF comes with it. -/
theorem passed_cases {passed behind : List Char}
    (h : IsLine text line front content terminator rest) (hlen : text.utf8ByteSize < Offset.limit)
    (hline : line = (ofText text).lineOf (String.utf8Len (front ++ passed)))
    (hsplit : passed ++ behind = content ++ (terminator ++ rest)) :
    (∃ left, content = passed ++ left) ∨ passed = content ++ ['\r'] ∧ behind.head? = some '\n' := by
  rcases List.append_eq_append_iff.mp hsplit with ⟨left, hcontent, -⟩ | ⟨beyond, rfl, hover⟩
  · exact .inl ⟨left, hcontent⟩
  rcases h.ends with ⟨-, hterminator⟩ | ⟨-, rfl, rfl⟩
  · -- otherwise a terminator would end behind the start of the line and up to the offset
    have hshort : String.utf8Len beyond < String.utf8Len terminator := by
      by_contra hle
      have hends : EndsLineAt text (String.utf8Len (front ++ content ++ terminator)) :=
        ⟨_, _, _, h.toList_eq, hterminator, rfl⟩
      have hbefore : String.utf8Len (front ++ content ++ terminator) ≤
          String.utf8Len (front ++ (content ++ beyond)) := by
        rw [← List.append_assoc, String.utf8Len_append _ terminator, String.utf8Len_append _ beyond]
        omega
      have hgreatest := (isGreatest_lineStart hlen _).2 ⟨.inr hends, hbefore⟩
      rw [← hline, h.lineStart_eq, List.append_assoc, String.utf8Len_append,
        String.utf8Len_append content] at hgreatest
      have hpos : 0 < String.utf8Len terminator := by
        cases hterminator <;> decide
      omega
    cases beyond with
    | nil => exact .inl ⟨[], by simp⟩
    | cons c beyond =>
      right
      have hpos := c.utf8Size_pos
      rw [String.utf8Len_cons] at hshort
      cases hterminator with
      | lf =>
        change _ < 1 at hshort
        omega
      | crLf =>
        -- one of the two bytes was passed
        change _ < 2 at hshort
        obtain rfl : beyond = [] := by
          cases beyond with
          | nil => rfl
          | cons d beyond =>
            have hpos' := d.utf8Size_pos
            rw [String.utf8Len_cons] at hshort
            omega
        cases hover
        exact ⟨rfl, rfl⟩
      | cr =>
        change _ < 1 at hshort
        omega
  · rw [List.append_nil, List.nil_eq_append_iff] at hover
    exact .inl ⟨[], by simp [hover.1]⟩

end IsLine

/-- **Locations and offsets are inverse**: in a text whose length 32 bits hold, the location of a
boundary leads back to it, unless it lies between the CR and the LF of one terminator; and a line that
exists leads with any column to an offset on that line, at this column or at the one behind its
content. -/
theorem offset?_location? (hlen : text.utf8ByteSize < Offset.limit) :
    (∀ before behind, text.toList = before ++ behind →
      ¬ (before.getLast? = some '\r' ∧ behind.head? = some '\n') →
      ∃ loc, (ofText text).location? (String.utf8Len before) = some loc ∧
        (ofText text).offset? loc.line loc.column = some (String.utf8Len before)) ∧
    (∀ line column, line.toZeroBased < (ofText text).lineCount →
      ∃ offset loc front content terminator rest, IsLine text line front content terminator rest ∧
        (ofText text).offset? line column = some offset ∧
        (ofText text).location? offset = some loc ∧ loc.line = line ∧
        loc.column.val = min column.val (content.length + 1)) := by
  constructor
  · intro before behind htext hapart
    obtain ⟨front, passed, loc, rfl, hloc, hline, hstart, hcolumn⟩ := exists_location hlen htext
    have hexists : loc.line.toZeroBased < (ofText text).lineCount := by
      have hle : loc.line.val ≤ (ofText text).lineCount := by
        rw [hline, lineOf_val hlen]
        exact List.countP_le_length
      have hpos := loc.line.pos
      unfold OneIndexed.toZeroBased
      omega
    obtain ⟨front', content, terminator, rest, hparts⟩ := exists_isLine hexists
    have hsplit : front ++ (passed ++ behind) = front' ++ (content ++ (terminator ++ rest)) := by
      simpa only [htext, List.append_assoc] using hparts.toList_eq
    obtain ⟨rfl, hrest⟩ := Text.eq_of_append_eq hsplit (hstart.symm.trans hparts.lineStart_eq)
    refine ⟨loc, hloc, ?_⟩
    -- the boundary may lie inside the terminator only between its CR and its LF
    have hpassed : ∃ left, content = passed ++ left := by
      rcases hparts.passed_cases hlen hline hrest with hleft | ⟨rfl, hlf⟩
      · exact hleft
      · exact absurd ⟨by simp, hlf⟩ hapart
    obtain ⟨left, rfl⟩ := hpassed
    have htake : loc.column.toZeroBased = passed.length := by
      rw [OneIndexed.toZeroBased, hcolumn, Nat.add_sub_cancel_left]
    rw [hparts.offset?_eq, htake, List.take_left]
  · intro line column hline
    obtain ⟨front, content, terminator, rest, hparts⟩ := exists_isLine hline
    have hsplit : text.toList = front ++ content.take column.toZeroBased ++
        (content.drop column.toZeroBased ++ terminator ++ rest) := by
      rw [hparts.toList_eq]
      conv_lhs => rw [← List.take_append_drop column.toZeroBased content]
      simp only [List.append_assoc]
    obtain ⟨front', passed, loc, hbefore, hloc, hlineOf, hstart, hcolumn⟩ :=
      exists_location hlen hsplit
    -- the clamp keeps the offset on the line, in front of its terminator
    have hsame : loc.line = line := by
      rw [hlineOf]
      apply hparts.lineOf_eq hlen
      · rw [String.utf8Len_append]
        exact Nat.le_add_right _ _
      · conv_rhs => rw [← List.take_append_drop column.toZeroBased content]
        rw [← List.append_assoc, String.utf8Len_append _ (content.drop _)]
        exact Nat.le_add_right _ _
    rw [hsame, hparts.lineStart_eq] at hstart
    obtain ⟨-, rfl⟩ := Text.eq_of_append_eq hbefore hstart
    refine ⟨_, loc, front, content, terminator, rest, hparts, hparts.offset?_eq column, hloc, hsame, ?_⟩
    have hpos := column.pos
    rw [hcolumn, List.length_take, OneIndexed.toZeroBased]
    omega

/-- An accent in front of CR LF: the end of the content leads back to itself, and a column beyond it
leads to the end of the content. -/
theorem offset?_location?_accented : "é\r\nb".utf8ByteSize < Offset.limit ∧
    "é\r\nb".toList = ['é'] ++ ['\r', '\n', 'b'] ∧
    (∃ loc, (ofText "é\r\nb").location? 2 = some loc ∧
      (ofText "é\r\nb").offset? loc.line loc.column = some 2) ∧
    OneIndexed.one.toZeroBased < (ofText "é\r\nb").lineCount ∧
    (∃ offset loc, (ofText "é\r\nb").offset? OneIndexed.one ⟨99, by decide⟩ = some offset ∧
      (ofText "é\r\nb").location? offset = some loc ∧ loc.line = OneIndexed.one) := by
  have hlen : "é\r\nb".utf8ByteSize < Offset.limit := by decide
  have htext : "é\r\nb".toList = ['é'] ++ ['\r', '\n', 'b'] := by decide
  have hline : OneIndexed.one.toZeroBased < (ofText "é\r\nb").lineCount := by decide
  obtain ⟨hback, hclamp⟩ := offset?_location? hlen
  obtain ⟨offset, loc, -, -, -, -, -, hoffset, hloc, hsame, -⟩ :=
    hclamp OneIndexed.one ⟨99, by decide⟩ hline
  exact ⟨hlen, htext, hback _ _ htext (by decide), hline, offset, loc, hoffset, hloc, hsame⟩

end LineIndex

end SwiftTidy
