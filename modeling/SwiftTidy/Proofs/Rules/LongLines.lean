import SwiftTidy.Proofs.Rules.CheckedLines
import SwiftTidy.Proofs.Text.Columns
import SwiftTidy.Proofs.Text.Replacing

/-!
# Lines that are too long

What is on a line is told by bytes: a token, a comment or a signature is on the lines that it shares
a byte with (`Overlaps`).  The rule marks lines from the one where a range starts to the one where its
last byte is, which is the same because in a parsed file no such range is empty and all end within the
source (`Covers.bounds`).

A line is measured when its addresses are removed and its object literals shortened, and neither makes
it longer.  So its length is at most the number of its bytes (`IsMeasured.le_utf8Len`), and a line that
is not measured because it has few bytes is not too long (`not_exceeds_of_le_shortest`).

`validate_eq_tooLong` puts it together.
-/

namespace SwiftTidy

/-! ### Limits -/

/-- The most severe limit that a value is above. -/
inductive SeverityLevels.Exceeds (l : SeverityLevels) (value : Nat) : Severity → Nat → Prop where
  | error {limit : Nat} (h : l.error = some limit) (hlt : limit < value) : Exceeds l value .error limit
  | warning (h : ∀ limit, l.error = some limit → value ≤ limit) (hlt : l.warning < value) :
      Exceeds l value .warning l.warning

theorem SeverityLevels.exceededBy_eq_some_iff {l : SeverityLevels} {value limit : Nat}
    {severity : Severity} :
    l.exceededBy value = some (severity, limit) ↔ l.Exceeds value severity limit := by
  unfold exceededBy
  constructor
  · intro h
    cases herror : l.error with
    | none =>
      simp only [herror] at h
      split_ifs at h with hlt
      cases h
      exact .warning (by simp [herror]) hlt
    | some bound =>
      simp only [herror] at h
      split_ifs at h with hbound hlt
      · cases h
        exact .error herror hbound
      · cases h
        exact .warning (by simpa [herror] using hbound) hlt
  · rintro (⟨herror, hlt⟩ | ⟨hle, hlt⟩)
    · simp only [herror, if_pos hlt]
    · cases herror : l.error with
      | none => exact if_pos hlt
      | some bound =>
        have hbound := hle bound herror
        simp only [if_neg (Nat.not_lt.mpr hbound), if_pos hlt]

namespace LineLength

variable {o : Options} {root : Cursor} {source : String} {tree : Element} {ms : List Mark}
  {line : OneIndexed} {front content terminator rest : List Char}

/-! ### What is on a line -/

/-- The bytes that something stands on, from the first one up to the one behind the last. -/
inductive Covers (root : Cursor) : Fact → (start stop : Nat) → Prop where
  /-- A token, apart from the end of the file, is code. -/
  | code {c : Cursor} (hc : c ∈ root.tokens) (hkind : c.kind ≠ .endOfFile) :
      Covers root .code c.position c.endPosition
  /-- A comment in front of a token. -/
  | leading {c : Cursor} {before after : Trivia} {piece : TriviaPiece} (hc : c ∈ root.tokens)
      (h : c.leadingTrivia = before ++ piece :: after) (hpiece : piece.isComment = true) :
      Covers root .comment (c.offset + before.len) (c.offset + before.len + piece.len)
  /-- A comment behind a token. -/
  | trailing {c : Cursor} {before after : Trivia} {piece : TriviaPiece} (hc : c ∈ root.tokens)
      (h : c.trailingTrivia = before ++ piece :: after) (hpiece : piece.isComment = true) :
      Covers root .comment (c.endPosition + before.len) (c.endPosition + before.len + piece.len)
  /-- The signature of a function or an initializer: what is in front of its body. -/
  | declaration {c last : Cursor} (hc : c ∈ root.descendants)
      (hkind : c.kind = .functionDecl ∨ c.kind = .initializerDecl)
      (hlast : (c.children.takeWhile (·.kind != .codeBlock)).getLast? = some last) :
      Covers root .declaration c.position last.endPosition
  /-- A string literal with a backslash in front of a parenthesis, which opens an interpolation. -/
  | interpolation {c : Cursor} (hc : c ∈ root.tokens) (hkind : c.kind = .stringLiteral)
      (hopener : ['\\', '('] <:+: c.text.toList) :
      Covers root .interpolation c.position c.endPosition

/-- Whether something shares a byte with a part of the source. -/
def Overlaps (root : Cursor) (fact : Fact) (start stop : Nat) : Prop :=
  ∃ first last p, Covers root fact first last ∧ first ≤ p ∧ p < last ∧ start ≤ p ∧ p < stop

/-- Whether a line is left out for what is on it. -/
def IsIgnored (o : Options) (root : Cursor) (start stop : Nat) : Prop :=
  o.ignoresComments = true ∧ Overlaps root .comment start stop ∧ ¬ Overlaps root .code start stop ∨
    o.ignoresFunctionDeclarations = true ∧ Overlaps root .declaration start stop ∨
    o.ignoresInterpolatedStrings = true ∧ Overlaps root .interpolation start stop

/-- The length that a line has: its addresses are removed if they do not count, and its object literals
are one character each. -/
def IsMeasured (o : Options) (content : List Char) (length : Nat) : Prop :=
  ∃ plain short,
    (if o.ignoresUrls then Text.ReplacesAll Url.match? [] none content plain else plain = content) ∧
    Text.ReplacesAll (fun _ => objectLiteral?) ['#'] none plain short ∧ length = short.length

/-- The violation of a line that is too long: its length is above a limit, and it is not left out.  It
is reported where the line starts. -/
def IsTooLong (o : Options) (source : String) (root : Cursor) (line : OneIndexed) (v : Violation) :
    Prop :=
  ∃ front content terminator rest length severity limit,
    LineIndex.IsLine source line front content terminator rest ∧
    IsMeasured o content length ∧ o.length.Exceeds length severity limit ∧
    ¬ IsIgnored o root (String.utf8Len front) (String.utf8Len (front ++ content ++ terminator)) ∧
    v = ⟨String.utf8Len front, some (message limit length), some severity⟩

/-! ### Marks -/

/-- What a mark stands for, with the ends of its range. -/
def Mark.extent (m : Mark) : Fact × Nat × Nat := (m.fact, m.range.start, m.range.stop)

variable {fact : Fact} {start stop : Nat}

theorem mem_commentMarks_iff {base : Nat} {t : Trivia} :
    (fact, start, stop) ∈ (commentMarks base t).map Mark.extent ↔
      ∃ before after : Trivia, ∃ piece, t = before ++ piece :: after ∧ piece.isComment = true ∧
        fact = .comment ∧ start = base + before.len ∧ stop = base + before.len + piece.len := by
  rw [commentMarks, List.map_map, List.mem_map]
  constructor
  · rintro ⟨⟨offset, piece⟩, hx, heq⟩
    obtain ⟨before, after, rfl, hpiece, hoffset⟩ := Trivia.mem_commentsFrom_iff.mp hx
    rw [Nat.zero_add] at hoffset
    cases hoffset
    cases heq
    exact ⟨before, after, piece, rfl, hpiece, rfl, rfl, rfl⟩
  · rintro ⟨before, after, piece, rfl, hpiece, rfl, rfl, rfl⟩
    exact ⟨(before.len, piece), Trivia.mem_commentsFrom_iff.mpr
      ⟨before, after, rfl, hpiece, (Nat.zero_add _).symm⟩, rfl⟩

/-- What a token marks that is no comment. -/
theorem mem_tokenMarks_iff {c : Cursor} : (fact, start, stop) ∈ (tokenMarks c).map Mark.extent ↔
    (fact, start, stop) ∈ (commentMarks c.offset c.leadingTrivia).map Mark.extent ∨
    (fact, start, stop) ∈ (commentMarks c.endPosition c.trailingTrivia).map Mark.extent ∨
    (start = c.position ∧ stop = c.endPosition ∧ c.kind ≠ .endOfFile ∧ (fact = .code ∨
      fact = .interpolation ∧ c.kind = .stringLiteral ∧ ['\\', '('] <:+: c.text.toList)) := by
  rw [tokenMarks, List.map_append, List.map_append, List.mem_append, List.mem_append, or_assoc]
  refine or_congr_right (or_congr_right ?_)
  rw [← Words.containsText_iff]
  by_cases hend : c.kind = .endOfFile
  · simp [hend]
  · have hopener : c.kind = .stringLiteral ∧ Words.containsText ['\\', '('] c.text.toList = true ↔
        (c.kind == .stringLiteral && Words.containsText ['\\', '('] c.text.toList) = true := by
      rw [Bool.and_eq_true, beq_iff_eq]
    rw [if_neg (by simpa using hend), hopener]
    split_ifs with hinterpolated
    · simp only [List.map_cons, List.map_nil, List.mem_cons, List.not_mem_nil, or_false, Mark.extent,
        Cursor.range, Prod.mk.injEq, hinterpolated, and_true]
      tauto
    · simp only [List.map_cons, List.map_nil, List.mem_cons, List.not_mem_nil, or_false, Mark.extent,
        Cursor.range, Prod.mk.injEq, hinterpolated, and_false, Bool.false_eq_true]
      tauto

theorem mem_nodeMarks_iff {c : Cursor} {declared : List Mark} (h : nodeMarks c = .ok declared) :
    (fact, start, stop) ∈ declared.map Mark.extent ↔
      fact = .declaration ∧ (c.kind = .functionDecl ∨ c.kind = .initializerDecl) ∧
        ∃ last, (c.children.takeWhile (·.kind != .codeBlock)).getLast? = some last ∧
          start = c.position ∧ stop = last.endPosition := by
  have hsignature : (c.kind == .functionDecl || c.kind == .initializerDecl) = true ↔
      c.kind = .functionDecl ∨ c.kind = .initializerDecl := by simp
  rw [nodeMarks] at h
  split_ifs at h with hkind
  · rw [signatureRange?] at h
    cases hlast : (c.children.takeWhile (·.kind != .codeBlock)).getLast? with
    | none =>
      rw [hlast] at h
      cases h
      simp
    | some last =>
      rw [hlast, Option.map_some] at h
      obtain ⟨range, hrange, rfl⟩ := Except.map_eq_ok.mp h
      rw [TextRange.between] at hrange
      split_ifs at hrange
      cases hrange
      simp [Mark.extent, hsignature.mp hkind]
  · cases h
    simp [← hsignature, hkind]

/-- What is marked is what is on the lines. -/
theorem mem_marks_iff (hparse : parse source = .ok tree) (hmarks : marks (.root tree) = .ok ms) :
    (fact, start, stop) ∈ ms.map Mark.extent ↔ Covers (.root tree) fact start stop := by
  obtain ⟨declarations, hdeclarations, heq⟩ := Except.bind_eq_ok.mp hmarks
  obtain rfl := Except.ok.inj heq
  rw [List.map_append, List.map_flatMap, List.map_flatten, List.mem_append, List.mem_flatMap,
    List.mem_flatten]
  constructor
  · rintro (⟨c, hc, hmem⟩ | ⟨declared, hdeclared, hmem⟩)
    · rcases mem_tokenMarks_iff.mp hmem with hmem | hmem | ⟨rfl, rfl, hend, hfact⟩
      · obtain ⟨before, after, piece, hsplit, hpiece, rfl, rfl, rfl⟩ := mem_commentMarks_iff.mp hmem
        exact .leading hc hsplit hpiece
      · obtain ⟨before, after, piece, hsplit, hpiece, rfl, rfl, rfl⟩ := mem_commentMarks_iff.mp hmem
        exact .trailing hc hsplit hpiece
      · rcases hfact with rfl | ⟨rfl, hkind, hopener⟩
        · exact .code hc hend
        · exact .interpolation hc hkind hopener
    · obtain ⟨marked, hmarked, rfl⟩ := List.mem_map.mp hdeclared
      obtain ⟨c, hc, hnode⟩ := Except.exists_of_mapM_eq_ok hdeclarations marked hmarked
      obtain ⟨rfl, hkind, last, hlast, rfl, rfl⟩ := (mem_nodeMarks_iff hnode).mp hmem
      exact .declaration (Cursor.mem_postorder_iff.mp hc).1 hkind hlast
  · intro h
    cases h with
    | @code c hc hend =>
      exact .inl ⟨c, hc, mem_tokenMarks_iff.mpr (.inr (.inr ⟨rfl, rfl, hend, .inl rfl⟩))⟩
    | @leading c before after piece hc hsplit hpiece =>
      exact .inl ⟨c, hc, mem_tokenMarks_iff.mpr (.inl (mem_commentMarks_iff.mpr
        ⟨before, after, piece, hsplit, hpiece, rfl, rfl, rfl⟩))⟩
    | @trailing c before after piece hc hsplit hpiece =>
      exact .inl ⟨c, hc, mem_tokenMarks_iff.mpr (.inr (.inl (mem_commentMarks_iff.mpr
        ⟨before, after, piece, hsplit, hpiece, rfl, rfl, rfl⟩)))⟩
    | @declaration c last hc hkind hlast =>
      obtain ⟨declared, hdeclared⟩ := exists_nodeMarks hparse hc
      -- a declaration has children, so it is no token
      have hnode : c.token? = none := by
        cases htoken : c.token? with
        | none => rfl
        | some t =>
          have hmem := List.mem_of_getLast? hlast
          rw [Cursor.children, Cursor.token?_eq_some.mp htoken] at hmem
          cases hmem
      have hpost := Cursor.mem_postorder_iff.mpr ⟨hc, hnode⟩
      exact .inr ⟨_, List.mem_map_of_mem (Except.mem_of_mapM_eq_ok hdeclarations hpost hdeclared),
        (mem_nodeMarks_iff hdeclared).mpr ⟨rfl, hkind, last, hlast, rfl, rfl⟩⟩
    | @interpolation c hc hkind hopener =>
      have hend : c.kind ≠ .endOfFile := by
        rw [hkind]
        decide
      exact .inl ⟨c, hc, mem_tokenMarks_iff.mpr
        (.inr (.inr ⟨rfl, rfl, hend, .inr ⟨rfl, hkind, hopener⟩⟩))⟩

/-! ### Lines with marks -/

/-- What is on lines is not empty, and within the source. -/
theorem Covers.bounds (hparse : parse source = .ok tree)
    (h : Covers (.root tree) fact start stop) : start < stop ∧ stop ≤ source.utf8ByteSize := by
  -- a token that is not the end of the file takes at least a byte
  have htoken : ∀ {c : Cursor}, c ∈ (Cursor.root tree).tokens → c.kind ≠ .endOfFile →
      c.position < c.endPosition ∧ c.endPosition ≤ source.utf8ByteSize := by
    intro c hc hend
    obtain ⟨t, ht, hcut⟩ := isCut_of_mem_tokens hparse hc hend
    have hpos := hcut.len_pos
    have hlen : c.endPosition = c.position + t.len := by
      rw [Cursor.endPosition, ht, Element.len_token]
    have hwithin := c.endPosition_le_fullEnd
    have hfull := fullEnd_le_of_mem_descendants hparse (List.mem_filter.mp hc).1
    omega
  cases h with
  | code hc hend => exact htoken hc hend
  | @leading c before after piece hc hsplit hpiece =>
    obtain ⟨t, ht, hleading, -, -, hwithin⟩ := exists_leaf hparse hc
    obtain ⟨hcut, -⟩ := trivia_isCut_of_mem_leaves hparse ht
    rw [← hleading, hsplit] at hcut hwithin
    have hpos := TriviaPiece.len_pos (hcut piece (by simp))
    rw [Trivia.len_append, Trivia.len_cons] at hwithin
    omega
  | @trailing c before after piece hc hsplit hpiece =>
    obtain ⟨t, ht, -, htrailing, hend, hwithin⟩ := exists_leaf hparse hc
    obtain ⟨-, hcut⟩ := trivia_isCut_of_mem_leaves hparse ht
    rw [← htrailing, hsplit] at hcut hwithin
    have hpos := TriviaPiece.len_pos (hcut piece (by simp))
    rw [Trivia.len_append, Trivia.len_cons] at hwithin
    omega
  | @declaration c last hc hkind hlast =>
    have hsignature : c.kind.hasSignature = true := by
      rw [SyntaxKind.hasSignature]
      simpa using hkind
    obtain ⟨last', hlast', hlt⟩ := exists_signature hparse hc hsignature
    obtain rfl := Option.some.inj (hlast.symm.trans hlast')
    have hbelow : last ∈ c.children :=
      (List.takeWhile_sublist _).subset (List.mem_of_getLast? hlast)
    have hwithin := last.endPosition_le_fullEnd
    have hfull := fullEnd_le_of_mem_descendants hparse
      (Cursor.mem_descendants_trans hc (Cursor.mem_descendants_of_mem_children hbelow))
    omega
  | interpolation hc hkind hopener => exact htoken hc (by rw [hkind]; decide)

/-- A mark is on the lines that its range shares a byte with. -/
theorem Mark.isOn_iff {m : Mark} (hline : LineIndex.IsLine source line front content terminator rest)
    (hlen : source.utf8ByteSize < Offset.limit) (hlt : m.range.start < m.range.stop)
    (hstop : m.range.stop ≤ source.utf8ByteSize) :
    m.isOn (.ofText source) line.toZeroBased = true ↔ ∃ p, m.range.start ≤ p ∧ p < m.range.stop ∧
      String.utf8Len front ≤ p ∧ p < String.utf8Len (front ++ content ++ terminator) := by
  have hnonempty : m.range.isEmpty = false := by
    rw [TextRange.isEmpty, beq_eq_false_iff_ne]
    omega
  rw [← hline.overlaps_iff hlen hlt hstop, isOn, hnonempty, Bool.and_eq_true, decide_eq_true_eq,
    decide_eq_true_eq, if_neg Bool.false_ne_true]
  have hpos := line.pos
  have hfirst := ((LineIndex.ofText source).lineOf m.range.start).pos
  have hlast := ((LineIndex.ofText source).lineOf (m.range.stop - 1)).pos
  unfold OneIndexed.toZeroBased
  omega

/-- What the marks say of a line is what overlaps it. -/
theorem hasFact_iff (hparse : parse source = .ok tree) (hmarks : marks (.root tree) = .ok ms)
    (hline : LineIndex.IsLine source line front content terminator rest) :
    hasFact ms (.ofText source) line.toZeroBased fact = true ↔
      Overlaps (.root tree) fact (String.utf8Len front)
        (String.utf8Len (front ++ content ++ terminator)) := by
  have hlen := utf8ByteSize_lt_of_parse hparse
  rw [hasFact, List.any_eq_true]
  constructor
  · rintro ⟨m, hm, hon⟩
    rw [Bool.and_eq_true, beq_iff_eq] at hon
    obtain ⟨rfl, hon⟩ := hon
    have hcovers : Covers (.root tree) m.fact m.range.start m.range.stop :=
      (mem_marks_iff hparse hmarks).mp (List.mem_map_of_mem hm)
    obtain ⟨hlt, hstop⟩ := hcovers.bounds hparse
    obtain ⟨p, hp⟩ := (Mark.isOn_iff hline hlen hlt hstop).mp hon
    exact ⟨_, _, p, hcovers, hp⟩
  · rintro ⟨first, last, p, hcovers, hp⟩
    obtain ⟨hlt, hstop⟩ := hcovers.bounds hparse
    obtain ⟨m, hm, heq⟩ := List.mem_map.mp ((mem_marks_iff hparse hmarks).mpr hcovers)
    cases heq
    refine ⟨m, hm, ?_⟩
    rw [Bool.and_eq_true, beq_iff_eq]
    exact ⟨rfl, (Mark.isOn_iff hline hlen hlt hstop).mpr ⟨p, hp⟩⟩

theorem isIgnored_iff (hparse : parse source = .ok tree) (hmarks : marks (.root tree) = .ok ms)
    (hline : LineIndex.IsLine source line front content terminator rest) :
    isIgnored o ms (.ofText source) line.toZeroBased = true ↔
      IsIgnored o (.root tree) (String.utf8Len front)
        (String.utf8Len (front ++ content ++ terminator)) := by
  simp only [isIgnored, IsIgnored, Bool.or_eq_true, Bool.and_eq_true, Bool.not_eq_true',
    ← Bool.not_eq_true, hasFact_iff hparse hmarks hline, or_assoc, and_assoc]

/-! ### Measuring -/

theorem suffix_of_splitAtFirst {p : Char → Bool} {cs front rest : List Char}
    (h : Words.splitAtFirst p cs = some (front, rest)) : rest <:+ cs := by
  induction cs generalizing front with
  | nil => cases h
  | cons c cs ih =>
    rw [Words.splitAtFirst] at h
    split_ifs at h
    · cases h
      exact List.suffix_cons _ _
    · obtain ⟨⟨front', rest'⟩, hlater, heq⟩ := Option.map_eq_some_iff.mp h
      cases heq
      exact (ih hlater).trans (List.suffix_cons _ _)

/-- What follows an object literal is a part of what is behind its first character. -/
theorem objectLiteral?_suffix {c : Char} {cs rest : List Char}
    (h : objectLiteral? (c :: cs) = some rest) : rest <:+ cs := by
  obtain ⟨head, hhead, hmatch⟩ := List.exists_of_findSome?_eq_some h
  split_ifs at hmatch
  obtain ⟨⟨inside, behind⟩, hsplit, rfl⟩ := Option.map_eq_some_iff.mp hmatch
  refine (suffix_of_splitAtFirst hsplit).trans ?_
  obtain ⟨n, hn⟩ : ∃ n, head.length = n + 1 := by
    rw [List.mem_cons, List.mem_singleton] at hhead
    rcases hhead with rfl | rfl <;> exact ⟨13, rfl⟩
  rw [hn, List.drop_succ_cons]
  exact List.drop_suffix n cs

theorem shortenLiterals_replacesAll {fuel : Nat} {before : Option Char} {cs : List Char}
    (hfuel : cs.length ≤ fuel) : Text.ReplacesAll (fun _ => objectLiteral?) ['#'] before cs
      (shortenLiterals fuel cs) := by
  induction fuel generalizing before cs with
  | zero =>
    obtain rfl := List.length_eq_zero_iff.mp (Nat.le_zero.mp hfuel)
    exact .nil before
  | succ fuel ih =>
    cases cs with
    | nil => exact .nil before
    | cons c cs =>
      rw [List.length_cons] at hfuel
      rw [shortenLiterals]
      cases hmatch : objectLiteral? (c :: cs) with
      | none => exact .keep hmatch (ih (Nat.le_of_succ_le_succ hfuel))
      | some rest =>
        obtain ⟨found, rfl⟩ := objectLiteral?_suffix hmatch
        rw [List.length_append] at hfuel
        exact .replace hmatch (ih (by omega))

/-- A line has one length, and this is what is measured. -/
theorem isMeasured_iff {length : Nat} :
    IsMeasured o content length ↔ length = measure o (String.ofList content) := by
  obtain ⟨plain, hplain, hmeasure⟩ : ∃ plain,
      (if o.ignoresUrls then Text.ReplacesAll Url.match? [] none content plain else plain = content) ∧
      measure o (String.ofList content) = (shortenLiterals plain.length plain).length := by
    refine ⟨if o.ignoresUrls then Url.remove content else content, ?_, ?_⟩
    · split_ifs
      · exact Url.remove_replacesAll content
      · rfl
    · rw [measure, String.toList_ofList]
  have hshort : Text.ReplacesAll (fun _ => objectLiteral?) ['#'] none plain
      (shortenLiterals plain.length plain) := shortenLiterals_replacesAll (Nat.le_refl _)
  rw [hmeasure]
  constructor
  · rintro ⟨plain', short, hplain', hshort', rfl⟩
    have hsame : plain' = plain := by
      split_ifs at hplain hplain'
      · exact hplain'.unique hplain
      · rw [hplain, hplain']
    subst hsame
    rw [hshort'.unique hshort]
  · rintro rfl
    exact ⟨plain, _, hplain, hshort, rfl⟩

/-- A line has at most as many characters as it has bytes, however it is measured. -/
theorem IsMeasured.le_utf8Len {length : Nat} (h : IsMeasured o content length) :
    length ≤ String.utf8Len content := by
  obtain ⟨plain, short, hplain, hshort, rfl⟩ := h
  have hremoved : plain.length ≤ content.length := by
    split_ifs at hplain
    · exact hplain.length_le (by decide)
    · rw [hplain]
  calc short.length
    _ ≤ plain.length := hshort.length_le (by decide)
    _ ≤ content.length := hremoved
    _ ≤ String.utf8Len content := Text.length_le_utf8Len content

/-- No limit is exceeded up to the least one. -/
theorem not_exceeds_of_le_shortest {value limit : Nat} {severity : Severity}
    (h : value ≤ o.shortest) : ¬ o.length.Exceeds value severity limit := by
  rw [Options.shortest] at h
  rintro (⟨herror, hlt⟩ | ⟨hle, hlt⟩)
  · rw [herror] at h
    dsimp only at h
    omega
  · split at h
    · omega
    · omega

/-! ### Checking -/

/-- A line that exists is checked, and reported exactly when it is too long. -/
theorem checkLine_iff (hparse : parse source = .ok tree) (hmarks : marks (.root tree) = .ok ms)
    (hline : LineIndex.IsLine source line front content terminator rest) :
    ∃ report, checkLine o ms (.ofText source) line.toZeroBased = .ok report ∧
      ∀ v, report = some v ↔ ∃ length severity limit, IsMeasured o content length ∧
        o.length.Exceeds length severity limit ∧
        ¬ IsIgnored o (.root tree) (String.utf8Len front)
          (String.utf8Len (front ++ content ++ terminator)) ∧
        v = ⟨String.utf8Len front, some (message limit length), some severity⟩ := by
  rw [← isIgnored_iff hparse hmarks hline]
  simp only [checkLine, hline.ofZeroBased_toZeroBased (utf8ByteSize_lt_of_parse hparse),
    hline.lineText_eq, hline.lineStart_eq, bind, Except.bind]
  rw [String.utf8ByteSize_ofList]
  split_ifs with hskip
  · refine ⟨none, rfl, fun v => ⟨fun hnone => absurd hnone (Option.some_ne_none v).symm, ?_⟩⟩
    rintro ⟨length, severity, limit, hmeasured, hexceeds, hignored, -⟩
    rw [Bool.or_eq_true, decide_eq_true_eq] at hskip
    rcases hskip with hshort | hskip
    · exact absurd hexceeds (not_exceeds_of_le_shortest (hmeasured.le_utf8Len.trans hshort))
    · exact absurd hskip hignored
  · rw [Bool.or_eq_true, not_or] at hskip
    refine ⟨_, rfl, fun v => ?_⟩
    rw [Option.map_eq_some_iff]
    constructor
    · rintro ⟨⟨severity, limit⟩, hexceeded, rfl⟩
      exact ⟨_, severity, limit, isMeasured_iff.mpr rfl,
        SeverityLevels.exceededBy_eq_some_iff.mp hexceeded, hskip.2, rfl⟩
    · rintro ⟨length, severity, limit, hmeasured, hexceeds, -, rfl⟩
      obtain rfl := isMeasured_iff.mp hmeasured
      exact ⟨(severity, limit), SeverityLevels.exceededBy_eq_some_iff.mpr hexceeds, rfl⟩

/-- What is said of a line does not depend on how it is taken apart. -/
theorem exists_checkLine_iff (hparse : parse source = .ok tree)
    (hmarks : marks (.root tree) = .ok ms) (line : OneIndexed)
    (hexists : line.toZeroBased < (LineIndex.ofText source).lineCount) :
    ∃ report, checkLine o ms (.ofText source) line.toZeroBased = .ok report ∧
      ∀ v, report = some v ↔ IsTooLong o source (.root tree) line v := by
  obtain ⟨front, content, terminator, rest, hline⟩ := LineIndex.exists_isLine hexists
  obtain ⟨report, hreport, hiff⟩ := checkLine_iff (o := o) hparse hmarks hline
  refine ⟨report, hreport, fun v => ⟨fun hv => ?_, ?_⟩⟩
  · obtain ⟨length, severity, limit, hfound⟩ := (hiff v).mp hv
    exact ⟨front, content, terminator, rest, length, severity, limit, hline, hfound⟩
  · rintro ⟨front, content, terminator, rest, length, severity, limit, hline, hfound⟩
    obtain ⟨report', hreport', hiff'⟩ := checkLine_iff (o := o) hparse hmarks hline
    obtain rfl := Except.ok.inj (hreport.symm.trans hreport')
    exact (hiff' v).mpr ⟨length, severity, limit, hfound⟩

/-- Lines that are too long are reported in the order of their numbers. -/
theorem IsTooLong.position_lt {line line' : OneIndexed} {v v' : Violation}
    (h : IsTooLong o source root line v) (h' : IsTooLong o source root line' v')
    (hlen : source.utf8ByteSize < Offset.limit) (hlt : line.val < line'.val) :
    v.position < v'.position := by
  obtain ⟨front, content, terminator, rest, length, severity, limit, hline, -, -, -, rfl⟩ := h
  obtain ⟨front', content', terminator', rest', length', severity', limit', hline', -, -, -, rfl⟩ := h'
  by_contra hle
  have hbehind := (hline'.le_lineOf_iff hlen).mpr (Nat.not_lt.mp hle)
  have hcontent : String.utf8Len front ≤ String.utf8Len (front ++ content) := by
    rw [String.utf8Len_append]
    exact Nat.le_add_right _ _
  rw [hline.lineOf_eq hlen (Nat.le_refl _) hcontent] at hbehind
  omega

/-- The rule finds the lines that are too long, in their order. -/
theorem exists_find {source : String} {ctx : Context} (h : SourceUnit.ofText source = .ok ctx.unit)
    (o : Options) :
    ∃ found : List (OneIndexed × Violation), (rule o).find ctx = .ok (found.map Prod.snd) ∧
      found.Pairwise (fun x y => x.1.val < y.1.val) ∧
      ∀ line v, (line, v) ∈ found ↔ IsTooLong o source ctx.root line v := by
  have hparse := SourceUnit.parse_of_ofText h
  have hlen := utf8ByteSize_lt_of_parse hparse
  obtain ⟨ms, -, hmarks⟩ := exists_marks hparse
  obtain ⟨n, hn⟩ : ∃ n, (LineIndex.ofText source).lineCount = n := ⟨_, rfl⟩
  have hcount := LineIndex.lineCount_le source
  have hnumber : ∀ i < n, (OneIndexed.ofZeroBased i).val = i + 1 := fun i hi => by
    rw [OneIndexed.ofZeroBased_eq (by omega)]
  -- each line gives its own answer, and the answers come in the order of the lines
  have hlines : ∀ i, ∃ report, i < n → checkLine o ms (.ofText source) i = .ok report ∧
      ∀ v, report = some v ↔ IsTooLong o source ctx.root (.ofZeroBased i) v := by
    intro i
    by_cases hi : i < n
    · have hzero : (OneIndexed.ofZeroBased i).toZeroBased = i := by
        rw [OneIndexed.toZeroBased, hnumber i hi, Nat.add_sub_cancel]
      obtain ⟨report, hreport⟩ := exists_checkLine_iff (o := o) hparse hmarks (.ofZeroBased i)
        (by rw [hzero, hn]; exact hi)
      rw [hzero] at hreport
      exact ⟨report, fun _ => hreport⟩
    · exact ⟨none, fun hlt => absurd hlt hi⟩
  choose report hreport using hlines
  refine ⟨(List.range n).filterMap fun i => (report i).map (Prod.mk (.ofZeroBased i)), ?_, ?_, ?_⟩
  · have hchecked : (List.range n).mapM (checkLine o ms (.ofText source)) = _ :=
      Except.mapM_eq_ok fun i hi => (hreport i (List.mem_range.mp hi)).1
    have hviolations : ((List.range n).map report).filterMap id = ((List.range n).filterMap
        fun i => (report i).map (Prod.mk (OneIndexed.ofZeroBased i))).map Prod.snd := by
      rw [List.map_filterMap, List.filterMap_map]
      refine List.filterMap_congr fun i _ => ?_
      rw [Function.comp_apply, Option.map_map]
      cases report i <;> rfl
    show check o ctx.unit = _
    rw [check, SourceUnit.root, hmarks, SourceUnit.lineIndex_eq h, hn, ← hviolations]
    simp only [bind, Except.bind, hchecked]
    rfl
  · rw [List.pairwise_filterMap]
    refine List.pairwise_lt_range.imp_of_mem fun {i j} hi hj hlt x hx y hy => ?_
    obtain ⟨v, -, rfl⟩ := Option.map_eq_some_iff.mp hx
    obtain ⟨w, -, rfl⟩ := Option.map_eq_some_iff.mp hy
    dsimp only
    rw [hnumber i (List.mem_range.mp hi), hnumber j (List.mem_range.mp hj)]
    omega
  · intro line v
    rw [List.mem_filterMap]
    constructor
    · rintro ⟨i, hi, hv⟩
      obtain ⟨w, hw, heq⟩ := Option.map_eq_some_iff.mp hv
      cases heq
      exact ((hreport i (List.mem_range.mp hi)).2 _).mp hw
    · intro hlong
      obtain ⟨hi, hsame⟩ : line.toZeroBased < n ∧ OneIndexed.ofZeroBased line.toZeroBased = line := by
        obtain ⟨front, content, terminator, rest, -, -, -, hline, -⟩ := hlong
        exact ⟨hn ▸ hline.lt_lineCount, hline.ofZeroBased_toZeroBased hlen⟩
      have hfound := ((hreport _ hi).2 v).mpr (hsame.symm ▸ hlong)
      exact ⟨line.toZeroBased, List.mem_range.mpr hi, by rw [hfound, Option.map_some, hsame]⟩

/-- **Long lines**: in a parsed file the rule finds exactly the lines that are too long, each once and
in their order.  Lines of few bytes, which it does not measure, are not among them. -/
theorem validate_eq_tooLong {source : String} {ctx : Context}
    (h : SourceUnit.ofText source = .ok ctx.unit) (o : Options) :
    ∃ found : List (OneIndexed × Violation),
      (rule o).find ctx = .ok (found.map Prod.snd) ∧
      (rule o).validate ctx = .ok (found.map Prod.snd) ∧
      found.Pairwise (fun x y => x.1.val < y.1.val) ∧
      (∀ line v, (line, v) ∈ found ↔ IsTooLong o source ctx.root line v) ∧
      ∀ content length severity limit, String.utf8Len content ≤ o.shortest →
        IsMeasured o content length → ¬ o.length.Exceeds length severity limit := by
  have hlen := utf8ByteSize_lt_of_parse (SourceUnit.parse_of_ofText h)
  obtain ⟨found, hfind, hlines, hiff⟩ := exists_find h o
  refine ⟨found, hfind, ?_, hlines, hiff, ?_⟩
  · have hsorted : (found.map Prod.snd).Pairwise fun v w => decide (v.position ≤ w.position) = true := by
      rw [List.pairwise_map]
      refine hlines.imp_of_mem fun {x y} hx hy hlt => decide_eq_true ?_
      exact Nat.le_of_lt (((hiff _ _).mp hx).position_lt ((hiff _ _).mp hy) hlen hlt)
    have hsort : Violation.sort (found.map Prod.snd) = found.map Prod.snd :=
      List.mergeSort_of_pairwise hsorted
    rw [Rule.validate, hfind]
    exact congrArg Except.ok hsort
  · intro content length severity limit hshort hmeasured
    exact not_exceeds_of_le_shortest (hmeasured.le_utf8Len.trans hshort)

/-- A comment by itself, and code with an address in it. -/
def commentedLines : String := "// nothing but a comment\nlet a = \"é\" // http://a.bc/d\n"

/-- Lines of comments are left out, addresses do not count, and an accent is one character. -/
def shortLines : Options := ⟨⟨20, some 14⟩, true, true, false, false⟩

/-- The second line is above the limit for errors, though it is not above the one for warnings. -/
theorem validate_eq_tooLong_commented : ∃ ctx : Context,
    SourceUnit.ofText commentedLines = .ok ctx.unit ∧
      ∃ line, IsTooLong shortLines commentedLines ctx.root line
        ⟨25, some (message 14 15), some .error⟩ := by
  have hmap : (SourceUnit.ofText commentedLines).toOption.map (fun u =>
      ((rule shortLines).validate ⟨u, fun _ => none⟩).toOption) =
      some (some [⟨25, some (message 14 15), some .error⟩]) := by
    decide +kernel
  obtain ⟨u, hu, hvalidate⟩ := Option.map_eq_some_iff.mp hmap
  have h : SourceUnit.ofText commentedLines = .ok (Context.mk u fun _ => none).unit :=
    Except.toOption_eq_some.mp hu
  obtain ⟨found, -, hfound, -, hiff, -⟩ := validate_eq_tooLong h shortLines
  rw [hfound, Except.toOption, Option.some.injEq] at hvalidate
  obtain ⟨⟨line, v⟩, hmem, rfl⟩ := List.mem_map.mp (hvalidate ▸ List.mem_singleton_self _)
  exact ⟨_, h, line, (hiff line _).mp hmem⟩

end LineLength

end SwiftTidy
