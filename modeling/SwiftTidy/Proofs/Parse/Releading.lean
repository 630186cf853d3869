import SwiftTidy.Proofs.Parse.Cutting
import SwiftTidy.Proofs.Parse.Refining
import SwiftTidy.Proofs.Parse.Without.Statement

/-!
# Trees without some of their empty lines

A tree in which lines of blanks are left out in front of the tokens is the tree of its own text
(`parse_of_thinned`), if no lone CR has come to stand in front of a lone LF.  Its text is cut into its
tokens (`Lexer.tokens_of_thinned`); no grammar tells them from the tokens that were there, so what is
read has the same shape (`Grammar.yields_sourceFile`, with nothing left out); and the same tokens are
cut in two behind a `>`, so it has the same leaves (`Token.Refines.eq_relead`).
-/

namespace SwiftTidy

namespace Token

/-- Tokens, the first of which starts at byte `o`, with other trivia in front of them: `F` tells it by
the byte at which a token starts and by the trivia that is there. -/
def relead (F : Nat → Trivia → Trivia) (o : Nat) (ts : List Token) : List Token :=
  (placed o ts).map fun p => { p.2 with leading := F p.1 p.2.leading }

/-- Trivia that is put in front of tokens, the first of which starts at byte `o`, has lost nothing but
lines of blanks. -/
structure IsThinning (F : Nat → Trivia → Trivia) (o : Nat) (ts : List Token) : Prop where
  thins : ∀ p ∈ placed o ts, Trivia.Thins (p.1 == 0) p.2.leading (F p.1 p.2.leading)
  apart : ∀ p ∈ placed o ts, Trivia.BreaksApart (F p.1 p.2.leading)

variable {F : Nat → Trivia → Trivia} {o : Nat} {t : Token} {ts us vs : List Token}

@[simp] theorem relead_nil : relead F o [] = [] := rfl

@[simp] theorem relead_cons (t : Token) (ts : List Token) :
    relead F o (t :: ts) = { t with leading := F o t.leading } :: relead F (o + t.fullLen) ts := rfl

@[simp] theorem relead_append (ts us : List Token) :
    relead F o (ts ++ us) = relead F o ts ++ relead F (o + fullLenAll ts) us := by
  rw [relead, placed_append, List.map_append, relead, relead]

/-- With the trivia that there was, tokens are what they were. -/
theorem relead_self (o : Nat) (ts : List Token) : relead (fun _ l => l) o ts = ts := by
  induction ts generalizing o with
  | nil => rfl
  | cons t ts ih => rw [relead_cons, ih]

theorem isThinning_cons : IsThinning F o (t :: ts) ↔
    (Trivia.Thins (o == 0) t.leading (F o t.leading) ∧ Trivia.BreaksApart (F o t.leading)) ∧
      IsThinning F (o + t.fullLen) ts := by
  constructor
  · intro h
    have hthins := List.forall_mem_cons.mp h.thins
    have hapart := List.forall_mem_cons.mp h.apart
    exact ⟨⟨hthins.1, hapart.1⟩, hthins.2, hapart.2⟩
  · intro h
    exact ⟨List.forall_mem_cons.mpr ⟨h.1.1, h.2.thins⟩, List.forall_mem_cons.mpr ⟨h.1.2, h.2.apart⟩⟩

/-- The parts of a token that is cut behind a `>` are as long as the token. -/
theorem fullLen_split {c : Char} {cs : List Char} (k k' : SyntaxKind)
    (htext : t.text.toList = '>' :: c :: cs) :
    (⟨k, ">", t.leading, []⟩ : Token).fullLen +
      (⟨k', String.ofList (c :: cs), [], t.trailing⟩ : Token).fullLen = t.fullLen := by
  have hlen : t.len = 1 + (String.ofList (c :: cs)).utf8ByteSize := by
    rw [Token.len, ← String.ofList_toList (s := t.text), htext, String.utf8ByteSize_ofList,
      String.utf8ByteSize_ofList, String.utf8Len_cons]
    exact Nat.add_comm _ 1
  have hangle : (">" : String).utf8ByteSize = 1 := rfl
  rw [fullLen, fullLen, fullLen, hlen, len, len]
  simp only [Trivia.len_nil, hangle]
  omega

namespace Refines

/-- Tokens are as long as what they are cut into. -/
theorem fullLenAll_eq (h : Refines ts us) : fullLenAll us = fullLenAll ts := by
  induction h with
  | nil => rfl
  | keep t k _ ih =>
    rw [fullLenAll_cons, fullLenAll_cons, ih]
    rfl
  | split k k' htext _ ih =>
    rw [fullLenAll_cons, ih, fullLenAll_cons, fullLenAll_cons, ← Nat.add_assoc, fullLen_split k k' htext]

/-- Cutting a token in two and giving it other trivia can be exchanged. -/
theorem spell_relead (h : Refines ts us) (hF : ∀ o, F o [] = []) :
    spell (relead F o us) = spell (relead F o ts) := by
  induction h generalizing o with
  | nil => rfl
  | @keep ts us t k h ih =>
    rw [relead_cons, relead_cons, spell_cons, spell_cons, toList_fullText, toList_fullText]
    exact congrArg _ (ih (o := o + t.fullLen))
  | @split t ts us c cs k k' htext h ih =>
    have hrest := ih (o := o + (⟨k, ">", t.leading, []⟩ : Token).fullLen)
    rw [relead_cons, Nat.add_assoc, fullLen_split k k' htext, hF] at hrest
    rw [relead_cons, relead_cons, spell_cons, spell_cons, hrest, spell_cons, toList_fullText,
      toList_fullText, toList_fullText, htext, String.toList_ofList]
    simp

/-- Tokens are spelled as what they are cut into. -/
theorem spell_eq (h : Refines ts us) : spell us = spell ts := by
  have hspell := h.spell_relead (F := fun _ l => l) (o := 0) fun _ => rfl
  rwa [relead_self, relead_self] at hspell

/-- What is known of the trivia in front of the leaves is known of that in front of the tokens. -/
theorem allThinned (h : Refines ts us) (hF : IsThinning F o us) (hpos : ∀ t ∈ ts.dropLast, 0 < t.len) :
    AllThinned (o == 0) ts (relead F o ts) := by
  induction h generalizing o with
  | nil => exact .nil
  | @keep ts us t k h ih =>
    obtain ⟨⟨hthins, hapart⟩, hrest⟩ := isThinning_cons.mp hF
    rw [relead_cons]
    refine .cons ⟨rfl, rfl, rfl, hthins, hapart⟩ ?_
    cases ts with
    | nil => exact .nil
    | cons u ts =>
      rw [List.dropLast_cons_cons, List.forall_mem_cons] at hpos
      have hbehind : (o + t.fullLen == 0) = false := by
        rw [beq_eq_false_iff_ne, fullLen]
        omega
      have hthinned := ih hrest hpos.2
      rwa [show ({ t with kind := k } : Token).fullLen = t.fullLen from rfl, hbehind] at hthinned
  | @split t ts us c cs k k' htext h ih =>
    obtain ⟨⟨hthins, hapart⟩, hrest⟩ := isThinning_cons.mp hF
    have hparts := ih hrest (fun u hu => ?_)
    · rw [relead_cons, Nat.add_assoc, fullLen_split k k' htext] at hparts
      cases hparts with
      | cons _ hbehind => exact .cons ⟨rfl, rfl, rfl, hthins, hapart⟩ hbehind
    · cases ts with
      | nil => cases hu
      | cons w ts =>
        rw [List.dropLast_cons_cons, List.forall_mem_cons] at hpos
        rw [List.dropLast_cons_cons, List.mem_cons] at hu
        rcases hu with rfl | hu
        · rw [len, String.utf8ByteSize_ofList, String.utf8Len_cons]
          have hc := c.utf8Size_pos
          omega
        · exact hpos.2 u hu

/-- **The same cuts**: tokens with other trivia that are cut into the same texts are the tokens that
were there, cut the same and with the other trivia. -/
theorem eq_relead (h : Refines ts us) (hF : ∀ o, F o [] = []) (h' : Refines (relead F o ts) vs)
    (hsame : vs.map stripped = us.map stripped) : vs = relead F o us := by
  have hangle : ∀ {t : Token} {c : Char} {cs : List Char}, t.text.toList = '>' :: c :: cs →
      t.text ≠ ">" := by
    intro t c cs htext hangle
    rw [hangle] at htext
    cases htext
  induction h generalizing o vs with
  | nil =>
    cases h'
    rfl
  | @keep ts us t k h ih =>
    rw [relead_cons] at h' ⊢
    cases h' with
    | keep _ j h' =>
      rw [List.map_cons, List.map_cons] at hsame
      obtain ⟨hhead, htail⟩ := List.cons.inj hsame
      obtain rfl : j = k := congrArg Token.kind hhead
      rw [ih h' htail]
      rfl
    | split j j' htext h' =>
      rw [List.map_cons, List.map_cons] at hsame
      have htext' : ">" = t.text := congrArg Token.text (List.cons.inj hsame).1
      -- an angle that is cut off is shorter than the token it is cut from
      exact absurd htext'.symm (hangle htext)
  | @split t ts us c cs k k' htext h ih =>
    rw [relead_cons] at h'
    rw [relead_cons]
    cases h' with
    | keep _ j h' =>
      rw [List.map_cons, List.map_cons] at hsame
      have htext' : t.text = ">" := congrArg Token.text (List.cons.inj hsame).1
      exact absurd htext' (hangle htext)
    | split j j' htext' h' =>
      rw [List.map_cons, List.map_cons] at hsame
      obtain ⟨hhead, htail⟩ := List.cons.inj hsame
      obtain rfl : j = k := congrArg Token.kind hhead
      obtain ⟨-, hcs⟩ := List.cons.inj (htext'.symm.trans htext)
      rw [hcs] at h'
      have hparts := h'.head k'
      have hrest := ih (o := o + (⟨j, ">", t.leading, []⟩ : Token).fullLen) ?_ htail
      · rw [hrest]
      · rw [relead_cons, hF, Nat.add_assoc, fullLen_split j k' htext]
        exact hparts

/-- The same tokens that are cut into the same texts are cut alike. -/
theorem eq_of_stripped (h : Refines ts us) (h' : Refines ts vs)
    (hsame : vs.map stripped = us.map stripped) : vs = us := by
  have heq := h.eq_relead (F := fun _ l => l) (o := 0) (fun _ => rfl) ((relead_self 0 ts).symm ▸ h') hsame
  rwa [relead_self] at heq

end Refines

end Token

/-! ### What no grammar looks at -/

namespace Grammar

/-- Tokens without their trivia start a declaration where the tokens do. -/
theorem startsDecl_map_stripped (fuel : Nat) (ts : List Token) :
    startsDecl fuel (ts.map Token.stripped) = startsDecl fuel ts :=
  startsDecl_map (f := Token.stripped) (fun _ => ⟨rfl, .inl rfl⟩) fuel ts

end Grammar

namespace Token.AllThinned

variable {b : Bool} {ts us : List Token}

theorem map_stripped (h : AllThinned b ts us) : us.map Token.stripped = ts.map Token.stripped := by
  induction h with
  | nil => rfl
  | cons hhead _ ih =>
    rw [List.map_cons, List.map_cons, ih, Token.stripped, hhead.kind, hhead.text]
    rfl

theorem utf8Len_le (h : AllThinned b ts us) :
    String.utf8Len (spell us) ≤ String.utf8Len (spell ts) := by
  induction h with
  | nil => exact Nat.le_refl _
  | cons hhead _ ih =>
    have hlen := hhead.leading.len_le
    rw [spell_cons, spell_cons, String.utf8Len_append, String.utf8Len_append, utf8Len_fullText,
      utf8Len_fullText, fullLen, fullLen, len, len, hhead.text, hhead.trailing]
    omega

theorem dropLast (h : AllThinned b ts us) : AllThinned b ts.dropLast us.dropLast := by
  induction h with
  | nil => exact .nil
  | cons hhead hrest ih =>
    cases hrest with
    | nil => exact .nil
    | cons hnext hrest => exact .cons hhead ih

/-- No grammar tells tokens from those with lines of blanks left out in front of them. -/
theorem enters (h : AllThinned b ts us) (o : Nat) : Token.Enters (fun _ => none) (!b) o ts us := by
  induction h generalizing o with
  | nil => exact .nil rfl
  | @cons b t u ts us hhead hrest ih =>
    have hleading : (!b) = true → Trivia.Thins false t.leading u.leading := by
      intro hb
      have hthins := hhead.leading
      rwa [(Bool.not_eq_true' b).mp hb] at hthins
    refine .keep (fun _ _ => rfl) ⟨hhead.kind, hhead.text, fun hb => (hleading hb).isEmpty_eq,
      fun hb => (hleading hb).containsNewline_eq rfl⟩ (fun _ _ _ => by rw [hhead.trailing]) nofun ?_ (ih _)
    · have hmap := (AllThinned.cons hhead hrest).map_stripped
      rw [hrest.length_eq, ← Grammar.startsDecl_map_stripped, ← hmap, Grammar.startsDecl_map_stripped]

end Token.AllThinned

/-! ### Trees -/

namespace Element

mutual
theorem fits_none : ∀ (o : Nat) (e : Element), Fits (fun _ => none) o e
  | _, token _ => by
    rw [Fits]
    trivial
  | o, node k es => by
    rw [Fits]
    exact ⟨fun _ _ _ _ _ h => absurd h (Option.some_ne_none _).symm, fitsAll_none o es⟩
theorem fitsAll_none : ∀ (o : Nat) (es : List Element), FitsAll (fun _ => none) o es
  | _, [] => by
    rw [FitsAll]
    trivial
  | o, e :: es => by
    rw [FitsAll]
    exact ⟨fits_none o e, fitsAll_none _ es⟩
end

mutual
theorem without_none : ∀ (o : Nat) (e : Element), without (fun _ => none) o e = e
  | _, token _ => by rw [without_token]
  | o, node k es => by rw [without_node, withoutAll_none o es]
theorem withoutAll_none : ∀ (o : Nat) (es : List Element), withoutAll (fun _ => none) o es = es
  | _, [] => by rw [withoutAll_nil]
  | o, e :: es => by
    rw [withoutAll_cons (isMarked_of_none rfl e), without_none o e, withoutAll_none _ es]
end

end Element

/-! ### Sources -/

/-- The grammar of a file answers if it yields something or goes too deep: no input is rejected for its
depth. -/
theorem exists_run_of_yields {u : Input} {length : Nat} {Q : List Element → Input → Prop} (hready : u.Ready)
    (hsize : u.size ≤ length) (h : (Grammar.sourceFile (Grammar.level (depthFor length))).Yields u Q) :
    ∃ tree t, (Grammar.sourceFile (Grammar.level (depthFor length))).run u = .ok ([tree], t) ∧
      Q [tree] t := by
  have hmeets := Grammar.meets_sourceFile hready hsize
  unfold Grammar.Yields at h
  unfold Grammar.Meets at hmeets
  cases hrun : (Grammar.sourceFile (Grammar.level (depthFor length))).run u with
  | error e =>
    rw [hrun] at h hmeets
    exact absurd h hmeets.1
  | ok p =>
    obtain ⟨es, t⟩ := p
    rw [hrun] at h
    obtain ⟨items, -, rfl⟩ := Grammar.run_sourceFile hrun
    exact ⟨_, t, rfl, h⟩

/-- A source is read if the grammar of a file yields something of its tokens, or goes too deep. -/
theorem exists_parse_of_yields {source : String} {ts : Lexer.Tokens} {Q : List Element → Input → Prop}
    (hsize : source.utf8ByteSize ≤ maxSourceLength) (hts : Lexer.tokens source = .ok ts)
    (h : (Grammar.sourceFile (Grammar.level (depthFor source.utf8ByteSize))).Yields
      ⟨0, ts.pending, ts.endOfFile⟩ Q) :
    ∃ tree s, parse source = .ok tree ∧ Q [tree] s := by
  obtain ⟨tree, s, hrun, hQ⟩ := exists_run_of_yields (ready_of_tokens hts) (size_le_of_tokens hts) h
  exact ⟨tree, s, parse_of_run hsize hts hrun, hQ⟩

/-- Tokens that no grammar tells from those of a source are read into a tree of the same shape. -/
theorem exists_run_of_enters {source : String} {tree : Element} {ts : Lexer.Tokens} {u : Input} {length : Nat}
    (h : parse source = .ok tree) (hts : Lexer.tokens source = .ok ts) (hready : u.Ready)
    (hsize : u.size ≤ length) (htext : u.endOfFile.text = "")
    (henters : Token.Enters (fun _ => none) false 0 ts.pending u.pending) :
    ∃ tree' t, (Grammar.sourceFile (Grammar.level (depthFor length))).run u = .ok ([tree'], t) ∧
      tree'.stripped = tree.stripped := by
  obtain ⟨s, hrun⟩ := exists_run_of_parse h hts
  obtain ⟨_, _, -, -, -, hcuts⟩ := Lexer.exists_cuts_of_tokens hts
  have hinputs : Input.Enters (fun _ => none) false ⟨0, ts.pending, ts.endOfFile⟩ u :=
    ⟨henters, (Lexer.tokens_isWord hts).2, hready.kind_endOfFile, htext.trans hcuts.text_endOfFile.symm⟩
  obtain ⟨tree', t, hrun', homits⟩ := exists_run_of_yields hready hsize
    (Grammar.yields_sourceFile (Grammar.level_follows (fun _ => none) (depthFor source.utf8ByteSize)
      (depthFor length)) hinputs hrun (Element.fitsAll_none _ _))
  have hall := homits.stripped
  rw [Element.withoutAll_none] at hall
  exact ⟨tree', t, hrun', (List.cons.inj hall).1⟩

/-- A source whose tokens no grammar tells from those of another one is read into a tree of the same
shape. -/
theorem exists_parse_of_enters {source source' : String} {tree : Element} {ts vs : Lexer.Tokens}
    (h : parse source = .ok tree) (hts : Lexer.tokens source = .ok ts) (hvs : Lexer.tokens source' = .ok vs)
    (hsize : source'.utf8ByteSize ≤ maxSourceLength)
    (henters : Token.Enters (fun _ => none) false 0 ts.pending vs.pending) :
    ∃ tree', parse source' = .ok tree' ∧ tree'.stripped = tree.stripped := by
  obtain ⟨_, _, -, -, -, hcuts⟩ := Lexer.exists_cuts_of_tokens hvs
  obtain ⟨tree', s, hrun, hstripped⟩ := exists_run_of_enters h hts (ready_of_tokens hvs)
    (size_le_of_tokens hvs) hcuts.text_endOfFile henters
  exact ⟨tree', parse_of_run hsize hvs hrun, hstripped⟩

/-- No token of a source has a lone CR in front of a lone LF: together they are one line break. -/
theorem breaksApart_of_parse {source : String} {tree : Element} (h : parse source = .ok tree) :
    ∀ t ∈ tree.leaves, Trivia.BreaksApart t.leading := by
  obtain ⟨ts, -, -, hts, -⟩ := parse_eq_ok h
  intro t ht
  rcases (leaves_refine h hts).leading_of_mem t ht with hnil | ⟨u, hu, heq⟩
  · rw [hnil]
    exact .nil
  · rw [heq]
    exact Lexer.breaksApart_of_tokens hts u hu

/-- **Lines left out**: a tree in which some lines of blanks are left out in front of the tokens is the
tree of its own text, if no lone CR has come to stand in front of a lone LF. -/
theorem parse_of_thinned {source : String} {tree tree' : Element} {F : Nat → Trivia → Trivia}
    (h : parse source = .ok tree) (hF : ∀ o, F o [] = [])
    (hthinning : Token.IsThinning F 0 tree.leaves) (hstripped : tree'.stripped = tree.stripped)
    (hleaves : tree'.leaves = Token.relead F 0 tree.leaves) :
    parse tree'.fullText = .ok tree' := by
  obtain ⟨ts, -, -, hts, -⟩ := parse_eq_ok h
  have hrefines := leaves_refine h hts
  -- the tokens with other trivia, which the text is cut into
  obtain ⟨e, he⟩ : ∃ e, Token.relead F 0 (ts.pending ++ [ts.endOfFile]) =
      Token.relead F 0 ts.pending ++ [e] := ⟨_, Token.relead_append _ _⟩
  have hthinned : Token.AllThinned true (Lexer.Tokens.all ts)
      (Lexer.Tokens.all ⟨Token.relead F 0 ts.pending, e⟩) := by
    have hall := hrefines.allThinned hthinning fun t ht => ?_
    · rwa [he] at hall
    · rw [List.dropLast_concat] at ht
      exact ((Lexer.tokens_isCut hts).1 t ht).len_pos
  have hspell : tree'.fullText.toList =
      Token.spell (Lexer.Tokens.all ⟨Token.relead F 0 ts.pending, e⟩) := by
    rw [Element.toList_fullText, hleaves, hrefines.spell_relead hF, he, Lexer.Tokens.all]
  have hts' := Lexer.tokens_of_thinned hts hthinned hspell
  have hsize : tree'.fullText.utf8ByteSize ≤ maxSourceLength := by
    have hle := hthinned.utf8Len_le
    rw [← hspell, Lexer.Tokens.all, Lexer.spell_tokens hts, ← Text.utf8ByteSize_eq,
      ← Text.utf8ByteSize_eq] at hle
    exact hle.trans (utf8ByteSize_le_of_parse h)
  -- what is read from them has the same shape, and so the same leaves
  have henters := hthinned.dropLast.enters 0
  rw [Lexer.Tokens.all, List.dropLast_concat, Lexer.Tokens.all, List.dropLast_concat] at henters
  obtain ⟨tree'', hread, hshape⟩ := exists_parse_of_enters h hts hts' hsize henters
  have hrefines' := leaves_refine hread hts'
  rw [← he] at hrefines'
  have hleaves' := hrefines.eq_relead hF hrefines'
    (by rw [← Element.leaves_stripped, hshape, Element.leaves_stripped])
  rw [hread, Element.eq_of_stripped (hshape.trans hstripped.symm) (hleaves'.trans hleaves.symm)]

end SwiftTidy
