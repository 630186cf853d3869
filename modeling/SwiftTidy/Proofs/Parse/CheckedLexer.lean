import SwiftTidy.Proofs.Parse.CheckedLiteral
import SwiftTidy.Proofs.Parse.Lexemes
import SwiftTidy.Proofs.Text.Offset
import SwiftTidy.Proofs.Tree.Ranges

/-!
# The lexer with its checks

`lex` cuts a source into tokens by offsets, with every check of `SwiftTidy.Proofs.Parse.CheckedLiteral`
made: a lexeme is a pair of offsets, and its text is cut out of the source whenever it is looked at.
The lexer stands `At` an offset behind some characters of the source and in front of the others, and
every cut it makes begins and ends at such an offset, so none leaves the text or falls inside a
character.  `lex_agrees` is the result: the offsets of `lex` cut the tokens of `tokens` out of the
source, one behind the other (`Stands`).
-/

namespace SwiftTidy

/-- A token by the offsets of its lexeme. -/
structure Lexed where
  kind : SyntaxKind
  start : Nat
  stop : Nat
  leading : Trivia
  trailing : Trivia
  deriving Inhabited

namespace Lexer

/-! ### Offsets into a source -/

/-- The text between two offsets. -/
def cut (source : String) (start stop : Nat) : Except Fault String := do
  Text.slice source (← TextRange.between start stop)

/-- The characters from an offset on. -/
def restAt (source : String) (pos : Nat) : Except Fault (List Char) := do
  Text.sliceChars source.toList (← TextRange.between pos source.utf8ByteSize)

/-- The byte at an offset. -/
def byteAt (source : String) (pos : Nat) : Except Fault UInt8 :=
  match (bytes source.toList)[pos]? with
  | some b => .ok b
  | none => .error .outOfBounds

/-- The offset falls between two characters, and `cs` are those behind it. -/
def At (source : String) (pos : Nat) (cs : List Char) : Prop :=
  ∃ front, source.toList = front ++ cs ∧ pos = byteLength front

variable {source : String} {pos : Nat} {cs : List Char}

theorem byteLength_append (cs ds : List Char) :
    byteLength (cs ++ ds) = byteLength cs + byteLength ds := by
  rw [byteLength_eq, byteLength_eq, byteLength_eq, String.utf8Len_append]

theorem bytes_append (cs ds : List Char) : bytes (cs ++ ds) = bytes cs ++ bytes ds :=
  List.flatMap_append

theorem At.zero (source : String) : At source 0 source.toList := ⟨[], rfl, rfl⟩

theorem At.length_eq (h : At source pos cs) : pos + byteLength cs = source.utf8ByteSize := by
  obtain ⟨front, hsource, rfl⟩ := h
  rw [Text.utf8ByteSize_eq, hsource, ← byteLength_eq, byteLength_append]

theorem At.append {ds : List Char} (h : At source pos (cs ++ ds)) :
    At source (pos + byteLength cs) ds := by
  obtain ⟨front, hsource, rfl⟩ := h
  exact ⟨front ++ cs, by rw [hsource, List.append_assoc], by rw [byteLength_append]⟩

theorem At.drop (h : At source pos cs) (n : Nat) :
    At source (pos + byteLength (cs.take n)) (cs.drop n) := by
  rw [← List.take_append_drop n cs] at h
  exact h.append

theorem At.restAt (h : At source pos cs) : restAt source pos = .ok cs := by
  have hlength := h.length_eq
  obtain ⟨front, hsource, rfl⟩ := h
  have hle : byteLength front ≤ source.utf8ByteSize := by omega
  have hlen : source.utf8ByteSize - byteLength front = String.utf8Len cs := by
    rw [← byteLength_eq]
    omega
  unfold Lexer.restAt
  rw [TextRange.between_eq_ok hle]
  show Text.sliceChars source.toList _ = _
  unfold Text.sliceChars TextRange.len
  dsimp only
  rw [hlen, hsource, byteLength_eq, Text.splitBytes_append]
  show (Text.splitBytes _ cs >>= _) = _
  have hrest := Text.splitBytes_append cs []
  rw [List.append_nil] at hrest
  rw [hrest]
  rfl

/-- A cut from one offset between characters to another. -/
theorem At.cut_append {ds : List Char} (h : At source pos (cs ++ ds)) :
    cut source pos (pos + byteLength cs) = .ok (String.ofList cs) := by
  obtain ⟨front, hsource, rfl⟩ := h
  unfold cut
  rw [TextRange.between_eq_ok (Nat.le_add_right _ _)]
  have htext : source.toList = front ++ cs ++ ds := by rw [hsource, List.append_assoc]
  refine Text.slice_eq htext (byteLength_eq front) ?_
  show byteLength front + byteLength cs = _
  rw [byteLength_eq, byteLength_eq]

theorem At.cut (h : At source pos cs) (n : Nat) :
    cut source pos (pos + byteLength (cs.take n)) = .ok (front n cs) := by
  rw [← List.take_append_drop n cs] at h
  exact h.cut_append

/-- What is cut out of a source stands at the offset where the cut begins. -/
theorem at_of_cut {start stop : Nat} {text : String} (h : cut source start stop = .ok text) :
    ∃ rest, At source start (text.toList ++ rest) ∧ stop = start + text.utf8ByteSize := by
  obtain ⟨r, hr, hslice⟩ := Except.bind_eq_ok.mp h
  obtain ⟨front, rest, hsource, hstart, hstop⟩ := Text.slice_eq_ok hslice
  unfold TextRange.between at hr
  split_ifs at hr with hle
  cases hr
  refine ⟨rest, ⟨front, ?_, ?_⟩, hstop⟩
  · rw [hsource, List.append_assoc]
  · rw [byteLength_eq]
    exact hstart

/-! ### Trivia -/

/-- The kind and the number of bytes of the trivia piece at the front; comments are scanned byte by
byte. -/
def pieceScan (trailing : Bool) (cs : List Char) :
    Except (Halt Rejection) (Option (TriviaKind × Nat)) :=
  match cs with
  | '/' :: '/' :: rest => .ok (some (lineCommentKind cs, lineStop (bytes rest) + 2))
  | '/' :: '*' :: rest =>
    match blockCommentStop 1 (bytes rest) with
    | .error f => .error (.fault f)
    | .ok none => .error (.rejected ⟨.unterminatedComment, 0⟩)
    | .ok (some n) => .ok (some (blockCommentKind cs, n + 2))
  | _ =>
    match triviaPiece? trailing cs with
    | .error r => .error (.rejected r)
    | .ok none => .ok none
    | .ok (some (kind, n)) => .ok (some (kind, byteLength (cs.take n)))

theorem pieceScan_agrees (trailing : Bool) (hlength : byteLength cs < Offset.limit) :
    Agrees (pieceScan trailing cs) (triviaPiece? trailing cs)
      fun p q => p = q.map fun q => (q.1, byteLength (cs.take q.2)) := by
  have hslashes : ∀ (c d : Char) (rest : List Char) (n : Nat), c.utf8Size = 1 → d.utf8Size = 1 →
      byteLength ((c :: d :: rest).take (n + 2)) = byteLength (rest.take n) + 2 := by
    intro c d rest n hc hd
    rw [List.take_succ_cons, List.take_succ_cons, byteLength, byteLength, hc, hd]
    omega
  unfold pieceScan
  split
  · next rest =>
    rw [triviaPiece?]
    refine ⟨_, rfl, ?_⟩
    show _ = some (_, byteLength (('/' :: '/' :: rest).take (lineLength rest + 2)))
    rw [lineStop_bytes, hslashes '/' '/' rest _ rfl rfl]
  · next rest =>
    have hbytes : 2 * 1 + byteLength rest < Offset.limit := by
      rw [byteLength, byteLength] at hlength
      have hslash : ('/' : Char).utf8Size = 1 := rfl
      have hstar : ('*' : Char).utf8Size = 1 := rfl
      omega
    rw [blockCommentStop_bytes 1 rest hbytes, triviaPiece?]
    cases blockCommentLength 1 rest with
    | none => exact rfl
    | some n =>
      refine ⟨_, rfl, ?_⟩
      show _ = some (_, byteLength (('/' :: '*' :: rest).take (n + 2)))
      rw [hslashes '/' '*' rest _ rfl rfl]
  · cases triviaPiece? trailing cs with
    | error r => exact rfl
    | ok p =>
      cases p with
      | none => exact ⟨_, rfl, rfl⟩
      | some p => exact ⟨_, rfl, rfl⟩

/-- A rejection by a scanner, at its offset in the source. -/
def located (pos : Nat) (cs : List Char) : Halt Rejection → Halt ParseError
  | .fault f => .fault f
  | .stuck => .stuck
  | .rejected r => .rejected ⟨pos + byteLength (cs.take r.index), r.cause⟩

/-- The trivia from an offset on, and the offset behind it. -/
def scanTrivia (source : String) (trailing : Bool) :
    (fuel pos : Nat) → Except (Halt ParseError) (Trivia × Nat)
  | 0, _ => .error .stuck
  | fuel + 1, pos => do
    let cs ← (restAt source pos).mapError .fault
    match ← (pieceScan trailing cs).mapError (located pos cs) with
    | none => return ([], pos)
    | some (kind, n) =>
      let text ← (cut source pos (pos + n)).mapError .fault
      let (t, stop) ← scanTrivia source trailing fuel (pos + n)
      return (⟨kind, text⟩ :: t, stop)

theorem len_front (kind : TriviaKind) (n : Nat) (cs : List Char) :
    TriviaPiece.len ⟨kind, front n cs⟩ = byteLength (cs.take n) := by
  rw [TriviaPiece.len, Text.utf8ByteSize_eq, toList_front, byteLength_eq]

/-- Trivia is cut at offsets between characters, and its loop ends before the text does. -/
theorem scanTrivia_agrees {trailing : Bool} {fuel fuel' : Nat} (hat : At source pos cs)
    (hsize : source.utf8ByteSize < Offset.limit) (hfuel : cs.length < fuel)
    (hfuel' : cs.length ≤ fuel') :
    Agrees (scanTrivia source trailing fuel pos) (trivia trailing fuel' pos cs)
      fun p q => p = (q.1, pos + q.1.len) ∧ q.1.text.toList ++ q.2 = cs := by
  -- a piece that is cut off is not empty, so both loops get further
  induction fuel generalizing pos cs fuel' with
  | zero => omega
  | succ fuel ih =>
    have hlength := hat.length_eq
    have hpiece : Agrees (pieceScan trailing cs) (triviaPiece? trailing cs) _ :=
      pieceScan_agrees trailing (by omega)
    rw [scanTrivia, hat.restAt]
    show Agrees ((pieceScan trailing cs).mapError (located pos cs) >>= _) _ _
    cases fuel' with
    | zero =>
      obtain rfl : cs = [] := List.eq_nil_of_length_eq_zero (Nat.le_zero.mp hfuel')
      exact ⟨_, rfl, rfl, rfl⟩
    | succ fuel' =>
      rw [trivia]
      cases hscan : triviaPiece? trailing cs with
      | error r =>
        rw [hscan] at hpiece
        rw [show pieceScan trailing cs = _ from hpiece]
        exact rfl
      | ok p =>
        rw [hscan] at hpiece
        obtain ⟨q, hq, rfl⟩ := hpiece
        rw [hq]
        cases p with
        | none => exact ⟨_, rfl, rfl, rfl⟩
        | some p =>
          obtain ⟨kind, n⟩ := p
          obtain ⟨hn, hne⟩ := triviaPiece?_pos hscan
          have hdrop : (cs.drop n).length < cs.length := by
            have hpos := List.length_pos_of_ne_nil hne
            rw [List.length_drop]
            omega
          have hrest : Agrees _ (trivia trailing fuel' _ (cs.drop n)) _ :=
            ih (hat.drop n) (by omega) (by omega)
          show Agrees ((cut source pos (pos + byteLength (cs.take n))).mapError Halt.fault >>= _) _ _
          rw [hat.cut n]
          show Agrees (scanTrivia source trailing fuel (pos + byteLength (cs.take n)) >>= _) _ _
          unfold Agrees at hrest
          cases htrivia : trivia trailing fuel' (pos + byteLength (cs.take n)) (cs.drop n) with
          | error e =>
            rw [htrivia] at hrest
            rw [hrest]
            simp only [htrivia]
            exact rfl
          | ok q =>
            rw [htrivia] at hrest
            obtain ⟨_, hscanned, rfl, htext⟩ := hrest
            rw [hscanned]
            simp only [htrivia]
            refine ⟨_, rfl, ?_, ?_⟩
            · show (_, _) = (_, pos + Trivia.len (⟨kind, front n cs⟩ :: q.1))
              rw [Trivia.len_cons, len_front, Nat.add_assoc]
            · rw [Trivia.toList_text_cons, List.append_assoc, htext, toList_front]
              exact List.take_append_drop n cs

/-- Trivia takes the text from one offset between characters to another. -/
theorem At.trivia {t : Trivia} {rest : List Char} (h : At source pos (t.text.toList ++ rest)) :
    At source (pos + t.len) rest := by
  rw [← Trivia.utf8Len_text, ← byteLength_eq]
  exact h.append

/-! ### What a token stands behind -/

/-- Whether a byte is a bracket that opens or a separator. -/
def isOpeningByte (b : UInt8) : Bool :=
  b == '('.val.toUInt8 || b == '['.val.toUInt8 || b == '\x7b'.val.toUInt8 ||
    b == ','.val.toUInt8 || b == ';'.val.toUInt8 || b == ':'.val.toUInt8

/-- `isLeftBound` by the byte in front of an offset. -/
def leftBoundAt (source : String) (previous : Option Token) (leading : Trivia) (pos : Nat) :
    Except Fault Bool :=
  if pos = 0 || !leading.isEmpty then .ok false
  else if previous.any (!·.trailing.isEmpty) then .ok false
  else do
    let before ← Offset.sub pos 1
    return !isOpeningByte (← byteAt source before)

/-- The last byte of a character tells whether it opens something. -/
theorem isOpeningByte_getLast {c : Char} {b : UInt8}
    (hb : (String.utf8EncodeChar c).getLast? = some b) : isOpeningByte b = isOpening c := by
  have hmem := List.mem_of_getLast? hb
  have hbyte : ∀ d : Char, d.val ≤ 127 → (b == d.val.toUInt8) = (c == d) := by
    intro d hd
    rw [Bool.eq_iff_iff, beq_iff_eq, beq_iff_eq]
    constructor
    · rintro rfl
      exact (mem_utf8EncodeChar_iff hd).mp hmem
    · rintro rfl
      rw [utf8EncodeChar_of_ascii hd] at hb
      exact (Option.some.inj hb).symm
  unfold isOpeningByte isOpening
  rw [hbyte '(' (by decide), hbyte '[' (by decide), hbyte '\x7b' (by decide),
    hbyte ',' (by decide), hbyte ';' (by decide), hbyte ':' (by decide)]

/-- The byte in front of an offset is the last one of the character in front of it. -/
theorem byteAt_before {front : List Char} {c : Char} (hsource : source.toList = front ++ [c] ++ cs)
    (hpos : pos = byteLength (front ++ [c])) :
    ∃ b, (String.utf8EncodeChar c).getLast? = some b ∧ byteAt source (pos - 1) = .ok b := by
  have hsize : (bytes (front ++ [c])).length = pos := by rw [length_bytes, hpos]
  have hne : String.utf8EncodeChar c ≠ [] := by
    intro hnil
    have hlength := String.length_utf8EncodeChar c
    rw [hnil] at hlength
    exact absurd hlength (Nat.ne_of_lt c.utf8Size_pos)
  have hc : bytes [c] = String.utf8EncodeChar c := by
    rw [bytes_cons]
    exact List.append_nil _
  have hlast : (bytes (front ++ [c])).getLast? = (String.utf8EncodeChar c).getLast? := by
    rw [bytes_append, hc, List.getLast?_append_of_ne_nil _ hne]
  obtain ⟨b, hb⟩ := List.getLast?_isSome.mpr hne |> Option.isSome_iff_exists.mp
  refine ⟨b, hb, ?_⟩
  have hpos' : 0 < pos := by
    have hlength := String.length_utf8EncodeChar c
    have hcpos := c.utf8Size_pos
    rw [← hsize, bytes_append, List.length_append, hc]
    omega
  unfold byteAt
  rw [hsource, bytes_append, List.getElem?_append_left (by omega), ← hsize,
    ← List.getLast?_eq_getElem?, hlast, hb]

/-- The text in front of an offset is that of the previous token, of the trivia behind it and of
`leading`; where there is no previous token, it is that of `leading`. -/
def Behind (source : String) (previous : Option Token) (leading : Trivia) (pos : Nat)
    (cs : List Char) : Prop :=
  match previous with
  | none => pos = leading.len
  | some t => t.text ≠ "" ∧ ∃ front,
      source.toList = front ++ t.text.toList ++ t.trailing.text.toList ++ leading.text.toList ++ cs ∧
      pos = byteLength (front ++ t.text.toList ++ t.trailing.text.toList ++ leading.text.toList)

theorem leftBoundAt_eq {previous : Option Token} {leading : Trivia}
    (h : Behind source previous leading pos cs) :
    leftBoundAt source previous leading pos = .ok (isLeftBound previous leading) := by
  unfold leftBoundAt
  cases previous with
  | none =>
    cases leading with
    | nil => rw [show pos = 0 from h]; rfl
    | cons p leading => rw [if_pos (by simp)]; rfl
  | some t =>
    obtain ⟨htext, front, hsource, hpos⟩ := h
    rw [isLeftBound]
    by_cases hleading : leading.isEmpty = true
    · by_cases htrailing : t.trailing.isEmpty = true
      · rw [List.isEmpty_iff.mp hleading, List.isEmpty_iff.mp htrailing] at hsource hpos
        -- the byte in front is the last one of the token in front, which is not empty
        obtain ⟨text, c, hc⟩ : ∃ text c, t.text.toList = text ++ [c] := by
          have hne : t.text.toList ≠ [] := by
            intro hnil
            exact htext (String.toList_inj.mp hnil)
          exact ⟨_, _, (List.dropLast_append_getLast hne).symm⟩
        rw [hc] at hsource hpos
        simp only [Trivia.toList_text_nil, List.append_nil] at hsource hpos
        rw [← List.append_assoc] at hsource hpos
        obtain ⟨b, hb, hbyte⟩ := byteAt_before hsource hpos
        have hpos' : 0 < pos := by
          have hcpos := c.utf8Size_pos
          rw [hpos, byteLength_append, byteLength, byteLength]
          omega
        have hzero : ¬ ((decide (pos = 0) || !leading.isEmpty) = true) := by
          rw [hleading]
          simp only [Bool.not_true, Bool.or_false, decide_eq_true_eq]
          omega
        have htrailed : ¬ (Option.any (!·.trailing.isEmpty) (some t) = true) := by
          simp [htrailing]
        rw [if_neg hzero, if_neg htrailed, Offset.sub_eq_ok hpos', hleading, htrailing, hc]
        show (byteAt source (pos - 1) >>= fun b => _) = _
        rw [hbyte, List.getLast?_concat]
        show Except.ok (!isOpeningByte b) = _
        rw [isOpeningByte_getLast hb]
        rfl
      · rw [if_pos (c := (Option.any (!·.trailing.isEmpty) (some t)) = true) (by simpa using htrailing)]
        rw [Bool.eq_false_iff.mpr htrailing]
        simp
    · rw [if_pos (by simp [hleading]), Bool.eq_false_iff.mpr hleading]
      rfl

/-! ### Tokens -/

/-- The length of the string literal at the front, which has `hashes` marks and then a quote. -/
def literalScanLength (fuel hashes : Nat) (cs : List Char) : Except (Halt Rejection) Nat :=
  let d := openingDelimiter hashes (cs.drop hashes)
  let opening := hashes + d.quotes.length
  (literalScan 0 d fuel opening (cs.drop opening)).map (·.1)

/-- `token` with the string literals scanned by counting. -/
def tokenScan (fuel : Nat) (leftBound : Bool) (cs : List Char) :
    Except (Halt Rejection) (SyntaxKind × Nat) :=
  match rawHashes? cs with
  | some hashes => (literalScanLength fuel hashes cs).map fun n => (.stringLiteral, n)
  | none => (token fuel leftBound cs).mapError .rejected

/-- A quote, with marks in front of it or not, starts a string literal. -/
theorem token_of_rawHashes {fuel hashes : Nat} {leftBound : Bool} {c : Char} {cs : List Char}
    (h : rawHashes? (c :: cs) = some hashes) :
    token fuel leftBound (c :: cs)
      = (literalLength fuel hashes (c :: cs)).map fun n => (.stringLiteral, n) := by
  by_cases hhash : c = '#'
  · subst hhash
    rw [token_cons, h]
    rfl
  · rw [rawHashes?_cons hhash] at h
    split_ifs at h with hquote
    subst hquote
    cases h
    rw [token_cons]
    rfl

theorem tokenScan_eq {fuel : Nat} {leftBound : Bool} {c : Char} {cs : List Char}
    (hfuel : cs.length < fuel) :
    tokenScan fuel leftBound (c :: cs) = (token fuel leftBound (c :: cs)).mapError .rejected := by
  unfold tokenScan
  cases hhashes : rawHashes? (c :: cs) with
  | none => rfl
  | some hashes =>
    rw [token_of_rawHashes hhashes]
    dsimp only
    unfold literalScanLength literalLength
    dsimp only
    have hquotes := (openingDelimiter hashes ((c :: cs).drop hashes)).quotes_length_pos
    rw [literalScan_eq (by rw [List.length_drop, List.length_cons]; omega)]
    cases literalEnd 0 (openingDelimiter hashes ((c :: cs).drop hashes)) fuel _ _ with
    | error r => rfl
    | ok p => rfl

end Lexer

/-- The token that the offsets cut out of the source. -/
def Lexed.token (source : String) (l : Lexed) : Except Fault Token := do
  let text ← Lexer.cut source l.start l.stop
  return ⟨l.kind, text, l.leading, l.trailing⟩

namespace Lexer

/-- The tokens from an offset on, by their offsets, and the end of the file behind them. -/
def lexFrom (source : String) : (fuel : Nat) → (previous : Option Token) → (leading : Trivia) →
    (pos : Nat) → Except (Halt ParseError) (List Lexed)
  | 0, _, _, _ => .error .stuck
  | fuel + 1, previous, leading, pos => do
    let cs ← (restAt source pos).mapError .fault
    if cs.isEmpty then return [⟨.endOfFile, pos, pos, leading, []⟩]
    else
      let leftBound ← (leftBoundAt source previous leading pos).mapError .fault
      let (kind, n) ← (tokenScan (fuel + 1) leftBound cs).mapError (located pos cs)
      let stop := pos + byteLength (cs.take n)
      let (trailing, next) ← scanTrivia source true (fuel + 1) stop
      let (leading', next') ← scanTrivia source false (fuel + 1) next
      let l : Lexed := ⟨kind, pos, stop, leading, trailing⟩
      let t ← (l.token source).mapError .fault
      let ls ← lexFrom source fuel (some t) leading' next'
      return l :: ls

/-- The line that names an interpreter, if there is one, and the offset behind it. -/
def interpreterScan (source : String) : Except Fault (Trivia × Nat) :=
  match source.toList with
  | '#' :: '!' :: _ => do
    let stop := lineStop (bytes source.toList)
    let line ← cut source 0 stop
    return ([⟨.lineComment, line⟩], stop)
  | _ => .ok ([], 0)

/-- The tokens of a source by their offsets, and the end of the file behind them. -/
def lex (source : String) : Except (Halt ParseError) (List Lexed) := do
  let (line, pos) ← (interpreterScan source).mapError .fault
  let (t, pos) ← scanTrivia source false (source.toList.length + 1) pos
  lexFrom source (source.toList.length + 1) none (line ++ t) pos

/-- The offsets cut the tokens out of the source, one behind the other from `offset` on. -/
inductive Stands (source : String) : (offset : Nat) → List Lexed → List Token → Prop where
  | nil (offset : Nat) : Stands source offset [] []
  | cons {offset : Nat} {l : Lexed} {t : Token} {ls : List Lexed} {ts : List Token}
      (htoken : l.token source = .ok t) (hstart : l.start = offset + t.leading.len)
      (hstop : l.stop = l.start + t.len) (hrest : Stands source (offset + t.fullLen) ls ts) :
      Stands source offset (l :: ls) (t :: ts)

theorem lexFrom_agrees {fuel offset : Nat} {previous : Option Token} {leading : Trivia}
    (hat : At source pos cs) (hbehind : Behind source previous leading pos cs)
    (hoffset : pos = offset + leading.len) (hsize : source.utf8ByteSize < Offset.limit)
    (hfuel : cs.length < fuel) :
    Agrees (lexFrom source fuel previous leading pos) (tokensFrom fuel previous leading pos cs)
      fun ls ts => Stands source offset ls (ts.pending ++ [ts.endOfFile]) := by
  -- each token reads at least a character, so the fuel lasts; `Stands` goes from token to token
  induction fuel generalizing previous leading pos cs offset with
  | zero => omega
  | succ fuel ih =>
    rw [lexFrom, hat.restAt]
    cases cs with
    | nil =>
      refine ⟨_, rfl, .cons (t := ⟨.endOfFile, "", leading, []⟩) ?_ hoffset rfl (.nil _)⟩
      have hcut : cut source pos pos = .ok "" := hat.cut 0
      unfold Lexed.token
      dsimp only
      rw [hcut]
      rfl
    | cons c cs =>
      rw [List.length_cons] at hfuel
      show Agrees ((leftBoundAt source previous leading pos).mapError Halt.fault >>= _) _ _
      rw [leftBoundAt_eq hbehind]
      show Agrees ((tokenScan (fuel + 1) (isLeftBound previous leading) (c :: cs)).mapError
        (located pos (c :: cs)) >>= _) _ _
      rw [tokenScan_eq (by omega), tokensFrom]
      cases htoken : token (fuel + 1) (isLeftBound previous leading) (c :: cs) with
      | error r => exact rfl
      | ok p =>
        obtain ⟨kind, n⟩ := p
        have hn := token_pos _ _ _ _ htoken
        have hdrop : ((c :: cs).drop n).length < fuel := by
          rw [List.length_drop, List.length_cons]
          omega
        show Agrees (scanTrivia source true (fuel + 1) (pos + byteLength ((c :: cs).take n)) >>= _) _ _
        refine Agrees.bind (scanTrivia_agrees (hat.drop n) hsize (by omega) (by omega)) ?_
        rintro _ ⟨trailing, rest⟩ ⟨rfl, hrest⟩
        dsimp only at hrest ⊢
        have hat' := hat.drop n
        rw [← hrest, List.length_append] at hdrop
        rw [← hrest] at hat'
        refine Agrees.bind (scanTrivia_agrees hat'.trivia hsize (by omega) (by omega)) ?_
        rintro _ ⟨leading', rest'⟩ ⟨rfl, hrest'⟩
        dsimp only at hrest' ⊢
        have hat'' := hat'.trivia
        rw [← hrest', List.length_append] at hdrop
        rw [← hrest'] at hat''
        -- the span of the token is cut out of the source again
        have htext : Lexed.token source ⟨kind, pos, pos + byteLength ((c :: cs).take n), leading,
            trailing⟩ = .ok ⟨kind, front n (c :: cs), leading, trailing⟩ := by
          unfold Lexed.token
          dsimp only
          rw [hat.cut n]
          rfl
        rw [htext]
        show Agrees (lexFrom source fuel (some ⟨kind, front n (c :: cs), leading, trailing⟩) leading'
          _ >>= _) _ _
        have hlen : Token.len ⟨kind, front n (c :: cs), leading, trailing⟩
            = byteLength ((c :: cs).take n) := by
          rw [Token.len, Text.utf8ByteSize_eq, toList_front, byteLength_eq]
        refine Agrees.bind (ih hat''.trivia ?_ (show _ = offset + Token.fullLen
          ⟨kind, front n (c :: cs), leading, trailing⟩ + Trivia.len _ from ?_) (by omega)) ?_
        · obtain ⟨before, hsource, rfl⟩ := hat
          refine ⟨front_ne_empty hn (List.cons_ne_nil _ _), before, ?_, ?_⟩
          · dsimp only
            rw [hsource, toList_front, List.append_assoc, List.append_assoc, List.append_assoc, hrest',
              hrest, List.take_append_drop]
          · dsimp only
            rw [toList_front, byteLength_append, byteLength_append, byteLength_append, byteLength_eq,
              byteLength_eq, byteLength_eq, byteLength_eq, Trivia.utf8Len_text, Trivia.utf8Len_text]
        · rw [Token.fullLen, hlen]
          dsimp only
          omega
        · intro ls ts hstands
          refine ⟨_, rfl, .cons htext hoffset ?_ hstands⟩
          rw [hlen]

/-- The interpreter line ends between two characters. -/
theorem interpreterScan_eq (source : String) :
    interpreterScan source
      = .ok ((interpreterLine source.toList).1, (interpreterLine source.toList).1.len) := by
  unfold interpreterScan
  split
  · next cs hsource =>
    have hline : (interpreterLine source.toList).1
        = [⟨.lineComment, front (lineLength cs + 2) source.toList⟩] := by
      rw [hsource]
      rfl
    have hstop : lineStop (bytes source.toList)
        = byteLength (source.toList.take (lineLength cs + 2)) := by
      rw [lineStop_bytes, hsource]
      rfl
    have hcut := (At.zero source).cut (lineLength cs + 2)
    rw [Nat.zero_add, ← hstop] at hcut
    dsimp only
    rw [hcut, hline, Trivia.len_cons, len_front, ← hstop]
    rfl
  · next hne =>
    have hline : (interpreterLine source.toList).1 = [] := by
      unfold interpreterLine
      split
      · next cs hsource => exact absurd hsource (hne cs)
      · rfl
    rw [hline]
    rfl

/-- **The checked lexer**: no check fails, every loop ends by itself, and the offsets cut out the
tokens of the source one behind the other. -/
theorem lex_agrees (hsize : source.utf8ByteSize < Offset.limit) :
    Agrees (lex source) (tokens source)
      fun ls ts => Stands source 0 ls (ts.pending ++ [ts.endOfFile]) := by
  have htext := toList_interpreterLine source.toList
  unfold lex tokens
  rw [interpreterScan_eq]
  dsimp only
  generalize interpreterLine source.toList = p at htext
  obtain ⟨line, rest⟩ := p
  dsimp only at htext ⊢
  have hat := At.zero source
  rw [← htext] at hat
  have hat' := hat.trivia
  rw [Nat.zero_add] at hat'
  have hlength := congrArg List.length htext
  rw [List.length_append] at hlength
  show Agrees (scanTrivia source false (source.toList.length + 1) line.len >>= _) _ _
  refine Agrees.bind (scanTrivia_agrees hat' hsize (by omega) (by omega)) ?_
  rintro _ ⟨t, rest'⟩ ⟨rfl, hrest⟩
  dsimp only at hrest ⊢
  rw [← hrest] at hat' hlength
  rw [List.length_append] at hlength
  rw [Trivia.len_append]
  refine lexFrom_agrees hat'.trivia ?_ ?_ hsize (by omega)
  · exact (Trivia.len_append line t).symm
  · rw [Trivia.len_append, Nat.zero_add]

/-! ### Rejections -/

theorem isGenuine_trivia {trailing : Bool} {fuel : Nat} {e : ParseError}
    (h : trivia trailing fuel pos cs = .error e) : e.IsGenuine := by
  induction fuel generalizing pos cs with
  | zero => cases h
  | succ fuel ih =>
    rw [trivia] at h
    split at h
    · next r hpiece =>
      cases h
      exact isGenuine_triviaPiece hpiece
    · cases h
    · split at h
      · next hrest =>
        cases h
        exact ih hrest
      · cases h

/-- A text is rejected for what stands in it, never for its length. -/
theorem isGenuine_tokensFrom {fuel : Nat} {previous : Option Token} {leading : Trivia}
    {e : ParseError} (hfuel : cs.length < fuel)
    (h : tokensFrom fuel previous leading pos cs = .error e) : e.IsGenuine := by
  induction fuel generalizing previous leading pos cs with
  | zero => omega
  | succ fuel ih =>
    cases cs with
    | nil => cases h
    | cons c cs =>
      rw [List.length_cons] at hfuel
      rw [tokensFrom] at h
      split at h
      · next r htoken =>
        cases h
        exact isGenuine_token htoken
      · next kind n htoken =>
        have hn := token_pos _ _ _ _ htoken
        rcases Except.bind_eq_error.mp h with h | ⟨⟨trailing, rest⟩, htrailing, h⟩
        · exact isGenuine_trivia h
        rcases Except.bind_eq_error.mp h with h | ⟨⟨leading', rest'⟩, hleading, h⟩
        · exact isGenuine_trivia h
        rcases Except.bind_eq_error.mp h with h | ⟨ts, -, h⟩
        · refine ih ?_ h
          have hrest := congrArg List.length (toList_trivia _ _ _ _ htrailing)
          have hrest' := congrArg List.length (toList_trivia _ _ _ _ hleading)
          rw [List.length_append, List.length_drop, List.length_cons] at hrest
          rw [List.length_append] at hrest'
          omega
        · cases h

theorem isGenuine_tokens {e : ParseError} (h : tokens source = .error e) : e.IsGenuine := by
  unfold tokens at h
  dsimp only at h
  rcases Except.bind_eq_error.mp h with h | ⟨⟨t, rest⟩, htrivia, h⟩
  · exact isGenuine_trivia h
  · refine isGenuine_tokensFrom ?_ h
    have hline := congrArg List.length (toList_interpreterLine source.toList)
    have hrest := congrArg List.length (toList_trivia _ _ _ _ htrivia)
    rw [List.length_append] at hline hrest
    dsimp only
    omega

end Lexer

end SwiftTidy
