import Mathlib.Data.List.GetD
import SwiftTidy.Proofs.Parse.CheckedLexer
import SwiftTidy.Proofs.Parse.Productions

/-!
# Tokens in a vector

A parser that keeps its tokens in a vector looks at them by index, moves an index forward to take
one, and cuts an operator in two by replacing one entry and inserting another.  An index beyond the
end is moved back to the last token, which is the end of the file; everything else is checked, the
cuts of the text that an entry stands for among them.

`Shows` relates a vector to the input of a grammar: the entries from the index on cut out the tokens
that are left.  It is kept by taking a token and by cutting an operator in two
(`Shows.bumpAs`, `Shows.splitRightAngle`), and where it holds no look-ahead goes wrong, however far
it reaches (`Shows.lookup`).  `Executes` runs a grammar over a vector by these steps alone, and what
a grammar reads for a cause of its own it also reads over a vector (`executes_of_assembled`).
-/

namespace SwiftTidy

/-- Tokens by their offsets, and the index of the next one. -/
structure TokenVector where
  tokens : List Lexed
  pos : Nat

namespace TokenVector

/-- The entry at an index; behind the last one it is the last one. -/
def tokenAt (v : TokenVector) (index : Nat) : Except Fault Lexed := do
  let last ← Offset.sub v.tokens.length 1
  match v.tokens[min index last]? with
  | some l => return l
  | none => .error .outOfBounds

/-- The kind of the entry at an index. -/
def kindAt (v : TokenVector) (index : Nat) : Except Fault SyntaxKind := do
  return (← v.tokenAt index).kind

/-- The token at an index, with its text cut out of the source. -/
def lookup (source : String) (v : TokenVector) (index : Nat) : Except Fault Token := do
  (← v.tokenAt index).token source

/-- Takes the next token under a kind; the last one is never passed. -/
def bumpAs (source : String) (k : SyntaxKind) (v : TokenVector) :
    Except Fault (Token × TokenVector) := do
  let t ← v.lookup source v.pos
  let last ← Offset.sub v.tokens.length 1
  return ({ t with kind := k }, if v.pos < last then { v with pos := v.pos + 1 } else v)

/-- Replaces the entry at an index. -/
def set (v : TokenVector) (index : Nat) (l : Lexed) : Except Fault TokenVector :=
  if index < v.tokens.length then .ok { v with tokens := v.tokens.set index l }
  else .error .outOfBounds

/-- Inserts an entry at an index. -/
def insert (v : TokenVector) (index : Nat) (l : Lexed) : Except Fault TokenVector :=
  if index ≤ v.tokens.length then .ok { v with tokens := v.tokens.insertIdx index l }
  else .error .outOfBounds

/-- Cuts `>` off the next token, if that is an operator which goes on behind it. -/
def splitRightAngle (source : String) (v : TokenVector) : Except Fault TokenVector := do
  let l ← v.tokenAt v.pos
  let text ← Lexer.cut source l.start l.stop
  if !l.kind.isOperator || !(['>'].isPrefixOf text.toList) || text.utf8ByteSize == 1 then return v
  else
    let tail ← Lexer.cut text 1 text.utf8ByteSize
    let next ← v.tokenAt (v.pos + 1)
    let rightBound :=
      l.trailing.isEmpty && next.leading.isEmpty && !Input.endsOperand next.kind
    let v ← v.set v.pos ⟨.binaryOperator, l.start, l.start + 1, l.leading, []⟩
    v.insert (v.pos + 1)
      ⟨Lexer.classifyOperator tail true rightBound, l.start + 1, l.stop, [], l.trailing⟩

end TokenVector

namespace Lexer.Stands

variable {source : String} {offset : Nat} {ls : List Lexed} {ts : List Token}

theorem length_eq (h : Stands source offset ls ts) : ls.length = ts.length := by
  induction h with
  | nil offset => rfl
  | cons htoken hstart hstop hrest ih => rw [List.length_cons, List.length_cons, ih]

theorem getElem? (h : Stands source offset ls ts) {n : Nat} {t : Token} (hn : ts[n]? = some t) :
    ∃ l, ls[n]? = some l ∧ l.token source = .ok t := by
  induction h generalizing n with
  | nil offset => cases hn
  | cons htoken hstart hstop hrest ih =>
    cases n with
    | zero =>
      cases hn
      exact ⟨_, rfl, htoken⟩
    | succ n => exact ih hn

theorem of_cons {t : Token} (h : Stands source offset ls (t :: ts)) :
    ∃ l rest, ls = l :: rest ∧ l.token source = .ok t ∧ l.start = offset + t.leading.len ∧
      l.stop = l.start + t.len ∧ Stands source (offset + t.fullLen) rest ts := by
  cases h with
  | cons htoken hstart hstop hrest => exact ⟨_, _, rfl, htoken, hstart, hstop, hrest⟩

end Lexer.Stands

/-- What the offsets of a token cut out of the source is its text, and it has the kind and the
trivia of the token. -/
theorem Lexed.token_eq_ok {source : String} {l : Lexed} {t : Token} :
    l.token source = .ok t ↔ Lexer.cut source l.start l.stop = .ok t.text ∧ l.kind = t.kind ∧
      l.leading = t.leading ∧ l.trailing = t.trailing := by
  unfold Lexed.token
  rw [Except.bind_eq_ok]
  constructor
  · rintro ⟨text, htext, heq⟩
    cases heq
    exact ⟨htext, rfl, rfl, rfl⟩
  · rintro ⟨htext, hkind, hleading, htrailing⟩
    refine ⟨t.text, htext, ?_⟩
    rw [hkind, hleading, htrailing]
    rfl

namespace TokenVector

/-- The entries from the index on cut out the tokens that are left, the end of the file behind
them. -/
structure Shows (source : String) (v : TokenVector) (s : Input) : Prop where
  stands : Lexer.Stands source s.offset (v.tokens.drop v.pos) (s.pending ++ [s.endOfFile])
  ne_endOfFile : ∀ t ∈ s.pending, t.kind ≠ .endOfFile
  kind_endOfFile : s.endOfFile.kind = .endOfFile

variable {source : String} {v : TokenVector} {s : Input}

namespace Shows

theorem length_eq (h : v.Shows source s) :
    v.tokens.length = v.pos + s.pending.length + 1 := by
  have hlength := h.stands.length_eq
  rw [List.length_drop, List.length_append, List.length_singleton] at hlength
  omega

theorem last_eq (h : v.Shows source s) :
    Offset.sub v.tokens.length 1 = .ok (v.pos + s.pending.length) := by
  have hlength := h.length_eq
  rw [Offset.sub_eq_ok (by omega)]
  exact congrArg Except.ok (by omega)

/-- However far a look-ahead reaches, there is an entry, and it cuts a token out of the source. -/
theorem tokenAt (h : v.Shows source s) (n : Nat) :
    ∃ l, v.tokenAt (v.pos + n) = .ok l ∧ l.token source = .ok (s.nth n) := by
  have hnth : (s.pending ++ [s.endOfFile])[min n s.pending.length]? = some (s.nth n) := by
    unfold Input.nth
    by_cases hn : n < s.pending.length
    · rw [Nat.min_eq_left (Nat.le_of_lt hn), List.getElem?_append_left hn,
        List.getD_eq_getElem _ _ hn, List.getElem?_eq_getElem hn]
    · rw [Nat.min_eq_right (Nat.le_of_not_lt hn), List.getElem?_append_right (Nat.le_refl _),
        List.getD_eq_default _ _ (Nat.le_of_not_lt hn), Nat.sub_self]
      rfl
  obtain ⟨l, hl, htoken⟩ := h.stands.getElem? hnth
  have hindex : min (v.pos + n) (v.pos + s.pending.length) = v.pos + min n s.pending.length := by
    omega
  refine ⟨l, ?_, htoken⟩
  unfold TokenVector.tokenAt
  rw [h.last_eq]
  show (match v.tokens[min (v.pos + n) (v.pos + s.pending.length)]? with
    | some l => Except.ok l
    | none => Except.error Fault.outOfBounds) = _
  rw [hindex, ← List.getElem?_drop, hl]

/-- The next entry is the first of those from the index on. -/
theorem tokenAt_eq (h : v.Shows source s) {l : Lexed} {ls : List Lexed}
    (hls : v.tokens.drop v.pos = l :: ls) : v.tokenAt v.pos = .ok l := by
  unfold TokenVector.tokenAt
  rw [h.last_eq]
  show (match v.tokens[min v.pos (v.pos + s.pending.length)]? with
    | some l => Except.ok l
    | none => Except.error Fault.outOfBounds) = _
  have hhead : v.tokens[v.pos + 0]? = some l := by
    rw [← List.getElem?_drop, hls]
    rfl
  rw [Nat.min_eq_left (Nat.le_add_right _ _), ← Nat.add_zero v.pos, hhead]

theorem lookup (h : v.Shows source s) (n : Nat) :
    v.lookup source (v.pos + n) = .ok (s.nth n) := by
  obtain ⟨l, hl, htoken⟩ := h.tokenAt n
  unfold TokenVector.lookup
  rw [hl]
  exact htoken

theorem kindAt (h : v.Shows source s) (n : Nat) : v.kindAt (v.pos + n) = .ok (s.kindAt n) := by
  obtain ⟨l, hl, htoken⟩ := h.tokenAt n
  unfold TokenVector.kindAt
  rw [hl]
  exact congrArg Except.ok (Lexed.token_eq_ok.mp htoken).2.1

/-- Taking a token moves the index to the next one. -/
theorem bumpAs {t : Token} {rest : List Token} (h : v.Shows source s)
    (hpending : s.pending = t :: rest) (k : SyntaxKind) :
    ∃ v', v.bumpAs source k = .ok ({ t with kind := k }, v') ∧
      v'.Shows source ⟨s.offset + t.fullLen, rest, s.endOfFile⟩ := by
  have hlookup := h.lookup 0
  have hnth : s.nth 0 = t := by
    unfold Input.nth
    rw [hpending]
    rfl
  rw [Nat.add_zero, hnth] at hlookup
  have hlt : v.pos < v.pos + s.pending.length := by
    rw [hpending, List.length_cons]
    omega
  refine ⟨{ v with pos := v.pos + 1 }, ?_, ⟨?_, fun u hu => h.ne_endOfFile u ?_, h.kind_endOfFile⟩⟩
  · unfold TokenVector.bumpAs
    rw [hlookup, h.last_eq]
    show Except.ok (_, if v.pos < v.pos + s.pending.length then _ else _) = _
    rw [if_pos hlt]
  · have hstands := h.stands
    rw [hpending] at hstands
    obtain ⟨l, ls, hls, -, -, -, hrest⟩ := hstands.of_cons
    show Lexer.Stands source (s.offset + t.fullLen) (v.tokens.drop (v.pos + 1)) _
    rw [← List.drop_drop, hls]
    exact hrest
  · rw [hpending]
    exact List.mem_cons_of_mem t hu

/-- What is left of an operator behind its first character. -/
theorem cut_tail {text : String} {c : Char} {cs : List Char} (htext : text.toList = '>' :: c :: cs) :
    Lexer.cut text 1 text.utf8ByteSize = .ok (String.ofList (c :: cs)) := by
  have hat : Lexer.At text 1 (c :: cs) := ⟨['>'], htext, rfl⟩
  have hlength := hat.length_eq
  rw [← hlength]
  have happend : Lexer.At text 1 ((c :: cs) ++ []) := by rwa [List.append_nil]
  exact happend.cut_append

theorem drop_insertIdx_set {α : Type} (front : List α) (a b c : α) (rest : List α) :
    (((front ++ c :: rest).set front.length a).insertIdx (front.length + 1) b).drop front.length
      = a :: b :: rest := by
  induction front with
  | nil => rfl
  | cons d front ih => simpa using ih

/-- The two parts of an operator are cut out of the source at the two parts of its range. -/
theorem stands_split {offset : Nat} {l : Lexed} {t : Token} {ls : List Lexed} {ts : List Token}
    {c : Char} {cs : List Char} {kind : SyntaxKind} (htoken : l.token source = .ok t)
    (hstart : l.start = offset + t.leading.len) (hstop : l.stop = l.start + t.len)
    (hrest : Lexer.Stands source (offset + t.fullLen) ls ts)
    (htext : t.text.toList = '>' :: c :: cs) :
    Lexer.Stands source offset
      (⟨.binaryOperator, l.start, l.start + 1, l.leading, []⟩ ::
        ⟨kind, l.start + 1, l.stop, [], t.trailing⟩ :: ls)
      (⟨.binaryOperator, ">", t.leading, []⟩ ::
        ⟨kind, String.ofList (c :: cs), [], t.trailing⟩ :: ts) := by
  obtain ⟨hcut, -, hleading, -⟩ := Lexed.token_eq_ok.mp htoken
  obtain ⟨behind, hat, -⟩ := Lexer.at_of_cut hcut
  rw [htext] at hat
  have hhead : Lexer.At source l.start (['>'] ++ ((c :: cs) ++ behind)) := hat
  have htail : Lexer.At source (l.start + 1) ((c :: cs) ++ behind) := hhead.append
  have hlen : t.len = 1 + (String.ofList (c :: cs)).utf8ByteSize := by
    rw [Token.len, Text.utf8ByteSize_eq, htext, String.utf8ByteSize_ofList, String.utf8Len_cons]
    exact Nat.add_comm _ 1
  have htailStop : l.stop = l.start + 1 + Lexer.byteLength (c :: cs) := by
    rw [hstop, hlen, String.utf8ByteSize_ofList, Lexer.byteLength_eq, Nat.add_assoc]
  have hfull : offset + t.fullLen
      = offset + Token.fullLen ⟨.binaryOperator, ">", t.leading, []⟩
        + Token.fullLen ⟨kind, String.ofList (c :: cs), [], t.trailing⟩ := by
    show _ = offset + (t.leading.len + 1 + 0) +
      (0 + (String.ofList (c :: cs)).utf8ByteSize + t.trailing.len)
    rw [Token.fullLen, hlen]
    omega
  rw [hfull] at hrest
  refine .cons ?_ hstart rfl (.cons ?_ ?_ ?_ hrest)
  · exact Lexed.token_eq_ok.mpr ⟨hhead.cut_append, rfl, hleading, rfl⟩
  · refine Lexed.token_eq_ok.mpr ⟨?_, rfl, rfl, rfl⟩
    show Lexer.cut source (l.start + 1) l.stop = _
    rw [htailStop]
    exact htail.cut_append
  · show l.start + 1 = offset + (t.leading.len + 1 + 0) + 0
    omega
  · show l.stop = l.start + 1 + (String.ofList (c :: cs)).utf8ByteSize
    rw [hstop, hlen, Nat.add_assoc]

/-- Whether an operator goes on behind a first `>`. -/
theorem goesOn_iff (t : Token) :
    (!t.kind.isOperator || !(['>'].isPrefixOf t.text.toList) || t.text.utf8ByteSize == 1) = false ↔
      t.kind.isOperator = true ∧ ∃ c cs, t.text.toList = '>' :: c :: cs := by
  rw [Text.utf8ByteSize_eq, Bool.or_assoc, Bool.or_eq_false_iff, Bool.not_eq_false']
  refine and_congr_right fun _ => ?_
  rcases t.text.toList with _ | ⟨a, _ | ⟨c, cs⟩⟩
  · simp
  · by_cases ha : a = '>'
    · subst ha
      simp
      rfl
    · simp [Ne.symm ha]
  · have hsize : (String.utf8Len (a :: c :: cs) == 1) = false := by
      have ha := a.utf8Size_pos
      have hc := c.utf8Size_pos
      rw [String.utf8Len_cons, String.utf8Len_cons, beq_eq_false_iff_ne]
      omega
    rw [hsize, Bool.or_false]
    by_cases ha : a = '>'
    · subst ha
      exact ⟨fun _ => ⟨c, cs, rfl⟩, fun _ => rfl⟩
    · refine ⟨fun h => ?_, fun ⟨c', cs', h⟩ => absurd (List.cons.inj h).1 ha⟩
      simp [Ne.symm ha] at h

/-- An operator that does not go on behind a first `>` is not cut. -/
theorem splitRightAngle_eq_self (h : (!(s.nth 0).kind.isOperator ||
    !(['>'].isPrefixOf (s.nth 0).text.toList) || (s.nth 0).text.utf8ByteSize == 1) = true) :
    s.splitRightAngle = s := by
  unfold Input.splitRightAngle
  split
  · rfl
  · next t rest hpending =>
    have hnth : s.nth 0 = t := by
      rw [Input.nth, hpending]
      rfl
    rw [hnth] at h
    split
    · next c cs htext =>
      refine if_neg fun hoperator => ?_
      rw [(goesOn_iff t).mpr ⟨hoperator, c, cs, htext⟩] at h
      cases h
    · rfl

section Cut

variable {l : Lexed} {t : Token} {rest : List Token} {c : Char} {cs : List Char}

/-- What is left of an operator that goes on behind a first `>` is bound to the right by what follows. -/
theorem splitRightAngle_of_goesOn (hpending : s.pending = t :: rest) (hoperator : t.kind.isOperator = true)
    (htext : t.text.toList = '>' :: c :: cs) :
    s.splitRightAngle = { s with pending :=
      ⟨.binaryOperator, ">", t.leading, []⟩ ::
      ⟨Lexer.classifyOperator (String.ofList (c :: cs)) true (t.trailing.isEmpty &&
        (s.nth 1).leading.isEmpty && !Input.endsOperand (s.nth 1).kind),
        String.ofList (c :: cs), [], t.trailing⟩ :: rest } := by
  have hnext : s.nth 1 = rest.headD s.endOfFile := by
    rw [Input.nth, hpending]
    cases rest <;> rfl
  unfold Input.splitRightAngle
  rw [hpending, hnext]
  simp only [htext, hoperator, if_true]

/-- One entry is replaced and another one inserted behind it: they show the two parts of an operator. -/
theorem shows_cut (h : v.Shows source s) (hl : v.tokenAt v.pos = .ok l) (htoken : l.token source = .ok t)
    (hpending : s.pending = t :: rest) (htext : t.text.toList = '>' :: c :: cs) {kind : SyntaxKind}
    (hkind : kind ≠ .endOfFile) :
    Shows source
      ⟨(v.tokens.set v.pos ⟨.binaryOperator, l.start, l.start + 1, l.leading, []⟩).insertIdx
        (v.pos + 1) ⟨kind, l.start + 1, l.stop, [], t.trailing⟩, v.pos⟩
      { s with pending := ⟨.binaryOperator, ">", t.leading, []⟩ ::
        ⟨kind, String.ofList (c :: cs), [], t.trailing⟩ :: rest } := by
  refine ⟨?_, ?_, h.kind_endOfFile⟩
  · have hlength := h.length_eq
    have hstands := h.stands
    rw [hpending] at hstands
    obtain ⟨l₀, ls, hls, -, hstart, hstop, hrest⟩ := hstands.of_cons
    obtain rfl : l₀ = l := Except.ok.inj ((h.tokenAt_eq hls).symm.trans hl)
    have hfront : v.tokens.take v.pos ++ l₀ :: ls = v.tokens := by
      rw [← hls, List.take_append_drop]
    have hpos : (v.tokens.take v.pos).length = v.pos := List.length_take_of_le (by omega)
    have hdrop := drop_insertIdx_set (v.tokens.take v.pos)
      ⟨.binaryOperator, l₀.start, l₀.start + 1, l₀.leading, []⟩
      ⟨kind, l₀.start + 1, l₀.stop, [], t.trailing⟩ l₀ ls
    rw [hfront, hpos] at hdrop
    rw [hdrop]
    exact stands_split htoken hstart hstop hrest htext
  · intro u hu
    rcases List.mem_cons.mp hu with rfl | hu
    · exact fun h => by cases h
    rcases List.mem_cons.mp hu with rfl | hu
    · exact hkind
    · exact h.ne_endOfFile u (by rw [hpending]; exact List.mem_cons_of_mem t hu)

end Cut

/-- Cutting an operator in two is kept in step, and the entry behind it is found. -/
theorem splitRightAngle (h : v.Shows source s) :
    ∃ v', v.splitRightAngle source = .ok v' ∧ v'.Shows source s.splitRightAngle := by
  obtain ⟨l, hl, htoken⟩ := h.tokenAt 0
  obtain ⟨hcut, hkind, hleading, htrailing⟩ := Lexed.token_eq_ok.mp htoken
  rw [Nat.add_zero] at hl
  unfold TokenVector.splitRightAngle
  rw [hl]
  dsimp only [bind, Except.bind]
  rw [hcut, hkind]
  dsimp only
  cases hgoesOn : (!(s.nth 0).kind.isOperator || !(['>'].isPrefixOf (s.nth 0).text.toList) ||
      (s.nth 0).text.utf8ByteSize == 1) with
  | true =>
    rw [if_pos rfl, splitRightAngle_eq_self hgoesOn]
    exact ⟨v, rfl, h⟩
  | false =>
    obtain ⟨hoperator, c, cs, htext⟩ := (goesOn_iff _).mp hgoesOn
    obtain ⟨t, rest, hpending⟩ : ∃ t rest, s.pending = t :: rest := by
      cases hpending : s.pending with
      | nil =>
        -- the end of the file is no operator
        rw [Input.nth, hpending, List.getD_nil, h.kind_endOfFile] at hoperator
        cases hoperator
      | cons t rest => exact ⟨t, rest, rfl⟩
    have hnth : s.nth 0 = t := by
      rw [Input.nth, hpending]
      rfl
    rw [hnth] at htrailing htoken hoperator htext ⊢
    obtain ⟨l', hl', htoken'⟩ := h.tokenAt 1
    obtain ⟨-, hkind', hleading', -⟩ := Lexed.token_eq_ok.mp htoken'
    -- both entries have a place in the vector
    have hlength := h.length_eq
    have hset : v.pos < v.tokens.length := by omega
    have hinsert : v.pos + 1 ≤ (v.tokens.set v.pos
        ⟨.binaryOperator, l.start, l.start + 1, l.leading, []⟩).length := by
      rw [List.length_set]
      omega
    rw [if_neg Bool.false_ne_true, cut_tail htext, hl', splitRightAngle_of_goesOn hpending hoperator htext]
    dsimp only [TokenVector.set, TokenVector.insert]
    rw [if_pos hset]
    dsimp only
    rw [if_pos hinsert, htrailing, hleading', hkind']
    exact ⟨_, rfl, shows_cut h hl htoken hpending htext (Lexer.classifyOperator_isWord _ _ _).2⟩

end Shows

end TokenVector

/-! ### Grammars over a vector -/

namespace Grammar

/-- A grammar runs over a vector, from its index to another or to a rejection: what is looked at is
the input that the vector shows, and tokens are taken and operators cut by the checked steps. -/
inductive Executes (source : String) :
    Grammar → TokenVector → Except ParseError (List Element × TokenVector) → Prop where
  | emit (es : List Element) (v : TokenVector) : Executes source (emit es) v (.ok (es, v))
  | fail {e : Input → ParseError} {v : TokenVector} {s : Input} (hs : v.Shows source s) :
      Executes source (fail e) v (.error (e s))
  | peek {f : Input → Grammar} {v : TokenVector} {s : Input}
      {r : Except ParseError (List Element × TokenVector)} (hs : v.Shows source s)
      (hf : Executes source (f s) v r) : Executes source (peek f) v r
  | append {g h : Grammar} {v v' v'' : TokenVector} {es fs : List Element}
      (hg : Executes source g v (.ok (es, v'))) (hh : Executes source h v' (.ok (fs, v''))) :
      Executes source (g ++ h) v (.ok (es ++ fs, v''))
  | appendFirst {g h : Grammar} {v : TokenVector} {e : ParseError}
      (hg : Executes source g v (.error e)) : Executes source (g ++ h) v (.error e)
  | appendSecond {g h : Grammar} {v v' : TokenVector} {es : List Element} {e : ParseError}
      (hg : Executes source g v (.ok (es, v'))) (hh : Executes source h v' (.error e)) :
      Executes source (g ++ h) v (.error e)
  | capture {g : Grammar} {k : List Element → Grammar} {v v' : TokenVector} {es : List Element}
      {r : Except ParseError (List Element × TokenVector)}
      (hg : Executes source g v (.ok (es, v'))) (hk : Executes source (k es) v' r) :
      Executes source (capture g k) v r
  | captureFirst {g : Grammar} {k : List Element → Grammar} {v : TokenVector} {e : ParseError}
      (hg : Executes source g v (.error e)) : Executes source (capture g k) v (.error e)
  | takeAs {k : SyntaxKind} {v v' : TokenVector} {t : Token}
      (h : v.bumpAs source k = .ok (t, v')) : Executes source (takeAs k) v (.ok ([.token t], v'))
  | splitRightAngle {v v' : TokenVector} (h : v.splitRightAngle source = .ok v') :
      Executes source splitRightAngle v (.ok ([], v'))

/-- The grammar runs over the vector as it runs on the input. -/
def Mirrors (source : String) (g : Grammar) (v : TokenVector) (s : Input) : Prop :=
  match g.run s with
  | .error e => Executes source g v (.error e)
  | .ok (es, s') => ∃ v', Executes source g v (.ok (es, v')) ∧ v'.Shows source s'

variable {source : String} {g h : Grammar} {k : List Element → Grammar} {v : TokenVector} {s : Input}

theorem mirrors_error {e : ParseError} (hrun : g.run s = .error e) :
    g.Mirrors source v s ↔ Executes source g v (.error e) := by
  unfold Mirrors
  rw [hrun]

theorem mirrors_ok {es : List Element} {s' : Input} (hrun : g.run s = .ok (es, s')) :
    g.Mirrors source v s ↔ ∃ v', Executes source g v (.ok (es, v')) ∧ v'.Shows source s' := by
  unfold Mirrors
  rw [hrun]

theorem append_run (g h : Grammar) (s : Input) : (g ++ h).run s =
    match g.run s with
    | .error e => .error e
    | .ok (es, s') =>
      match h.run s' with
      | .error e => .error e
      | .ok (fs, s'') => .ok (es ++ fs, s'') := rfl

theorem capture_run (g : Grammar) (k : List Element → Grammar) (s : Input) :
    (capture g k).run s =
      match g.run s with
      | .error e => .error e
      | .ok (es, s') => (k es).run s' := rfl

theorem Mirrors.peek {f : Input → Grammar} (hs : v.Shows source s)
    (hf : (f s).Mirrors source v s) : (Grammar.peek f).Mirrors source v s := by
  cases hrun : (f s).run s with
  | error e =>
    rw [mirrors_error hrun] at hf
    exact (mirrors_error (g := Grammar.peek f) hrun).mpr (.peek hs hf)
  | ok p =>
    obtain ⟨v', hexec, hs'⟩ := (mirrors_ok hrun).mp hf
    exact (mirrors_ok (g := Grammar.peek f) hrun).mpr ⟨v', .peek hs hexec, hs'⟩

theorem Mirrors.append (hg : g.Mirrors source v s)
    (hh : ∀ es s', g.run s = .ok (es, s') → ∀ v', v'.Shows source s' → h.Mirrors source v' s') :
    (g ++ h).Mirrors source v s := by
  have hrun := append_run g h s
  cases hfirst : g.run s with
  | error e =>
    rw [hfirst] at hrun
    exact (mirrors_error hrun).mpr (.appendFirst ((mirrors_error hfirst).mp hg))
  | ok p =>
    obtain ⟨v', hexec, hs'⟩ := (mirrors_ok hfirst).mp hg
    have hrest := hh p.1 p.2 hfirst v' hs'
    rw [hfirst] at hrun
    dsimp only at hrun
    cases hsecond : h.run p.2 with
    | error e =>
      rw [hsecond] at hrun
      exact (mirrors_error hrun).mpr (.appendSecond hexec ((mirrors_error hsecond).mp hrest))
    | ok q =>
      rw [hsecond] at hrun
      obtain ⟨v'', hexec', hs''⟩ := (mirrors_ok hsecond).mp hrest
      exact (mirrors_ok hrun).mpr ⟨v'', .append hexec hexec', hs''⟩

theorem Mirrors.capture (hg : g.Mirrors source v s)
    (hk : ∀ es s', g.run s = .ok (es, s') → ∀ v', v'.Shows source s' →
      (k es).Mirrors source v' s') :
    (Grammar.capture g k).Mirrors source v s := by
  have hrun := capture_run g k s
  cases hfirst : g.run s with
  | error e =>
    rw [hfirst] at hrun
    exact (mirrors_error hrun).mpr (.captureFirst ((mirrors_error hfirst).mp hg))
  | ok p =>
    obtain ⟨v', hexec, hs'⟩ := (mirrors_ok hfirst).mp hg
    have hrest := hk p.1 p.2 hfirst v' hs'
    rw [hfirst] at hrun
    dsimp only at hrun
    cases hsecond : (k p.1).run p.2 with
    | error e =>
      rw [hsecond] at hrun
      exact (mirrors_error hrun).mpr (.capture hexec ((mirrors_error hsecond).mp hrest))
    | ok q =>
      rw [hsecond] at hrun
      obtain ⟨v'', hexec', hs''⟩ := (mirrors_ok hsecond).mp hrest
      exact (mirrors_ok hrun).mpr ⟨v'', .capture hexec hexec', hs''⟩

/-- A rejection for a cause of its own, if the grammar rejects the input at all. -/
def Sound (g : Grammar) (s : Input) : Prop := ∀ e, g.run s = .error e → e.IsGenuine

theorem Meets.sound {Q : Input → Prop} (hg : g.Meets s Q) : g.Sound s := by
  intro e he
  unfold Meets at hg
  rwa [he] at hg

theorem Sound.first (h : (g ++ h).Sound s) : g.Sound s := by
  intro e he
  refine h e ?_
  rw [append_run, he]

theorem Sound.second {es : List Element} {s' : Input} (hsound : (g ++ h).Sound s)
    (hrun : g.run s = .ok (es, s')) : h.Sound s' := by
  intro e he
  refine hsound e ?_
  rw [append_run, hrun]
  dsimp only
  rw [he]

theorem Sound.captured (h : (Grammar.capture g k).Sound s) : g.Sound s := by
  intro e he
  refine h e ?_
  rw [capture_run, he]

theorem Sound.behind {es : List Element} {s' : Input} (hsound : (Grammar.capture g k).Sound s)
    (hrun : g.run s = .ok (es, s')) : (k es).Sound s' := by
  intro e he
  refine hsound e ?_
  rw [capture_run, hrun]
  exact he

theorem mirrors_takeAs {kind : SyntaxKind} (hs : v.Shows source s)
    (hsound : (takeAs kind).Sound s) : (takeAs kind).Mirrors source v s := by
  unfold Mirrors takeAs
  dsimp only
  cases hpending : s.pending with
  | nil =>
    -- a token behind the last one is never taken
    have hrun : (takeAs kind).run s = .error (s.expected "token") := by
      unfold takeAs
      simp only [hpending]
    exact absurd rfl ((hsound _ hrun).2 _)
  | cons t rest =>
    obtain ⟨v', hbump, hs'⟩ := hs.bumpAs hpending kind
    exact ⟨v', .takeAs hbump, hs'⟩

/-- **A grammar runs over a vector**: where it rejects the input for a cause of its own or not at
all, every step it takes over a vector that shows the input goes well, and leads to the same
result. -/
theorem mirrors_of_assembled {held : List Element} (hg : Assembled held g) (hs : v.Shows source s)
    (hsound : g.Sound s) : g.Mirrors source v s := by
  induction hg generalizing s v with
  | emit es => exact ⟨v, .emit es v, hs⟩
  | wrap k hk hg ih => exact ih hs hsound
  | emitFront es hg ih =>
    refine Mirrors.append ⟨v, .emit es v, hs⟩ fun fs s' hrun v' hs' => ?_
    exact ih hs' (hsound.second hrun)
  | fail held e he => exact .fail hs
  | peek hf ih => exact .peek hs (ih s hs hsound)
  | append hg hh ihg ihh =>
    exact (ihg hs hsound.first).append fun es s' hrun v' hs' => ihh hs' (hsound.second hrun)
  | capture front hg hk ihg ihk =>
    exact (ihg hs hsound.captured).capture fun es s' hrun v' hs' =>
      ihk es hs' (hsound.behind hrun)
  | take => exact .peek hs (mirrors_takeAs hs hsound)
  | takeAs k hk _ => exact mirrors_takeAs hs hsound
  | splitRightAngle =>
    obtain ⟨v', hsplit, hs'⟩ := hs.splitRightAngle
    exact ⟨v', .splitRightAngle hsplit, hs'⟩

end Grammar

end SwiftTidy
