import SwiftTidy.Proofs.Parse.Blanks
import SwiftTidy.Proofs.Parse.LineEnds
import SwiftTidy.Proofs.Parse.Releading
import SwiftTidy.Proofs.Parse.Retained.Statement
import SwiftTidy.Proofs.Parse.TriviaRuns

/-!
# Other blanks next to colons

`Recoloned M o ts us` says that `us` are the tokens `ts` with other blanks next to some colons: those in
front of a colon are left out, those behind it are replaced.  The first token starts at byte `o`, and the
colons that blanks are left out in front of come to start at bytes of `M`.

A text of such tokens is cut into them (`Lexer.exists_tokens_of_recoloned`): a colon is a token by itself,
every lexeme ends in front of one, and neither of its sides binds an operator.  But a vertical tab or a
form feed in front of it does, and an operator that stands there has loosened when they are left out.

No grammar looks at blanks next to a colon, and none reads anything else where operators have loosened.  So
a tree with other blanks there is the tree of its own text (`parse_of_recoloned`).
-/

namespace SwiftTidy

open Lexer

/-- No blanks, or one run of them. -/
def Trivia.IsGap (t : Trivia) : Prop := t = [] ∨ ∃ s : String, IsBlanks s.toList ∧ t = [⟨.whitespace, s⟩]

namespace Token

/-- Tokens with other blanks next to their colons, the first of which starts at byte `o`: those in front of
a colon are left out if it comes to start at a byte of `M`, those behind it are replaced. -/
inductive Recoloned (M : Nat → Prop) : Nat → List Token → List Token → Prop where
  | nil {o : Nat} : Recoloned M o [] []
  | keep {o : Nat} (t : Token) {ts us : List Token} (h : Recoloned M (o + t.fullLen) ts us) :
      Recoloned M o (t :: ts) (t :: us)
  | before {o : Nat} {t c : Token} {ts us : List Token} (hcolon : c.text = ":") (hleading : c.leading = [])
      (hgap : t.trailing.IsGap) (hmark : M (o + { t with trailing := [] }.fullLen))
      (h : Recoloned M (o + { t with trailing := [] }.fullLen) (c :: ts) us) :
      Recoloned M o (t :: c :: ts) ({ t with trailing := [] } :: us)
  | after {o : Nat} {c t : Token} {blank : Trivia} {ts us : List Token} (hcolon : c.text = ":")
      (hleading : t.leading = []) (hgap : c.trailing.IsGap) (hblank : blank.IsGap)
      (h : Recoloned M (o + { c with trailing := blank }.fullLen) (t :: ts) us) :
      Recoloned M o (c :: t :: ts) ({ c with trailing := blank } :: us)

namespace Recoloned

variable {M : Nat → Prop} {o o' : Nat} {t u : Token} {ts us vs : List Token}

/-- Only the trivia behind a token may change. -/
theorem exists_cons (h : Recoloned M o (t :: ts) us) :
    ∃ trailing vs, us = { t with trailing := trailing } :: vs ∧
      Recoloned M (o + { t with trailing := trailing }.fullLen) ts vs := by
  cases h with
  | keep _ h => exact ⟨_, _, rfl, h⟩
  | before _ _ _ _ h => exact ⟨_, _, rfl, h⟩
  | after _ _ _ _ h => exact ⟨_, _, rfl, h⟩

theorem map_stripped (h : Recoloned M o ts us) : us.map stripped = ts.map stripped := by
  induction h with
  | nil => rfl
  | keep _ _ ih => rw [List.map_cons, List.map_cons, ih]
  | before _ _ _ _ _ ih => rw [List.map_cons, List.map_cons, ih]; rfl
  | after _ _ _ _ _ ih => rw [List.map_cons, List.map_cons, ih]; rfl

/-- Behind another token that ends at the same byte, with the same trivia behind it, the same happens. -/
theorem of_head (h : Recoloned M o (t :: ts) us) (hcolon : t.text ≠ ":") (htrailing : t.trailing = u.trailing)
    (hend : o + t.leading.len + t.len = o' + u.leading.len + u.len) :
    ∃ trailing vs, us = { t with trailing := trailing } :: vs ∧
      Recoloned M o' (u :: ts) ({ u with trailing := trailing } :: vs) := by
  have hlen : ∀ trailing : Trivia,
      o + { t with trailing := trailing }.fullLen = o' + { u with trailing := trailing }.fullLen := by
    intro trailing
    have ht : ({ t with trailing := trailing } : Token).len = t.len := rfl
    have hu : ({ u with trailing := trailing } : Token).len = u.len := rfl
    rw [fullLen, fullLen, ht, hu]
    dsimp only
    omega
  cases h with
  | keep _ h =>
    refine ⟨t.trailing, _, rfl, ?_⟩
    rw [show o + t.fullLen = _ from hlen t.trailing] at h
    rw [htrailing] at h ⊢
    exact .keep u h
  | before hnext hleading hgap hmark h =>
    rw [hlen] at hmark h
    exact ⟨[], _, rfl, .before hnext hleading (htrailing ▸ hgap) hmark h⟩
  | after hc => exact absurd hc hcolon

end Recoloned

end Token

namespace Lexer

open Token

variable {x rest rest' : List Char} {s t : Trivia}

/-! ### Next to a colon -/

/-- A colon is a token by itself, whatever stands around it. -/
theorem token_colon (fuel : Nat) (leftBound : Bool) (cs : List Char) :
    token fuel leftBound (':' :: cs) = .ok (.colon, 1) := rfl

/-- Behind a colon nothing is bound to the left. -/
theorem isLeftBound_colon {c : Token} (hcolon : c.text = ":") (leading : Trivia) :
    isLeftBound (some c) leading = false := by
  rw [isLeftBound, hcolon]
  exact Bool.and_false _

/-- In front of a colon or of blanks every lexeme ends, and no comment starts with the last slash of it. -/
theorem gap_breaks (ht : t.IsGap) (hrest : rest.head? = some ':') :
    isBreak ((Trivia.text t).toList ++ rest) = true ∧
      startsComment ('/' :: ((Trivia.text t).toList ++ rest)) = false := by
  rcases ht with rfl | ⟨s, hs, rfl⟩
  · obtain ⟨cs, rfl⟩ := List.head?_eq_some_iff.mp hrest
    exact ⟨rfl, rfl⟩
  · have hblank : ((Trivia.text [⟨.whitespace, s⟩]).toList ++ rest).head?.any isHorizontal = true := by
      rw [Trivia.toList_text_cons, List.append_assoc]
      exact hs.any_head?
    obtain ⟨d, hd, hd'⟩ := (Option.any_eq_true _ _).mp hblank
    have hother : ∀ e, isHorizontal e = false → d ≠ e := by
      rintro e he rfl
      rw [hd'] at he
      cases he
    refine ⟨isBreak_of_blank hblank, ?_⟩
    rw [startsComment_cons, hd, Option.any_some, beq_false_of_ne (hother _ rfl),
      beq_false_of_ne (hother _ rfl)]
    rfl

/-- In front of a colon an operator is not bound to the right. -/
theorem isRightBound_colon (hrest : rest.head? = some ':') : isRightBound rest = false := by
  obtain ⟨cs, rfl⟩ := List.head?_eq_some_iff.mp hrest
  rfl

/-- Where nothing is cut off, blanks may be cut off behind a token. -/
theorem cutsOff_gap (ht : t.IsGap) (hrest : CutsOff false rest []) : CutsOff true rest t := by
  have hnone := hrest.triviaPiece?_rest
  have hdone : CutsOff true rest [] := by
    refine .done ?_
    cases rest with
    | nil => rfl
    | cons c cs =>
      rw [triviaPiece?_eq_none_iff] at hnone ⊢
      split_ifs at hnone ⊢
      exact hnone
  rcases ht with rfl | ⟨s, hs, rfl⟩
  · exact hdone
  · exact .piece ((triviaPiece?_blanks_iff hs).mpr (blank_of_none hnone)) hdone

/-! ### The loop -/

/-- A token that is spelled as a colon is one. -/
theorem Cuts.eq_colon {previous : Option Token} {leading : Trivia} {cs : List Char} {ts : Tokens}
    {t : Token} {us : List Token} (h : Cuts previous leading cs ts) (hall : ts.all = t :: us)
    (hcolon : t.text = ":") : t.kind = .colon ∧ cs.head? = some ':' := by
  cases h with
  | done =>
    cases hall
    exact absurd hcolon (by simp)
  | @token _ _ _ _ kind c x _ _ htoken _ _ _ =>
    obtain ⟨rfl, -⟩ := List.cons.inj hall
    have htext := congrArg String.toList hcolon
    rw [String.toList_ofList] at htext
    obtain ⟨rfl, rfl⟩ : c = ':' ∧ x = [] := by simpa using htext
    rw [token_colon] at htoken
    exact ⟨(Prod.mk.inj (Except.ok.inj htoken)).1.symm, rfl⟩

theorem classifyOperator_loosens (text : String) (leftBound : Bool) :
    classifyOperator text leftBound false = classifyOperator text leftBound true ∨
      (classifyOperator text leftBound true).Loosens (classifyOperator text leftBound false) := by
  unfold classifyOperator
  split_ifs
  all_goals first
    | exact .inl rfl
    | (cases leftBound <;> simp_all [SyntaxKind.Loosens.left, SyntaxKind.Loosens.free])

/-- In front of a text that binds no operator a token is cut off the same, but an operator may loosen. -/
theorem exists_token_of_unbound {fuel fuel' : Nat} {leftBound : Bool} {c : Char} {kind : SyntaxKind}
    (h : LooksLike rest rest') (hright : isRightBound rest' = false)
    (hslash : startsOperator c = true → x.getLast? = some '/' → startsComment ('/' :: rest') = false)
    (hfuel : x.length + 1 < fuel')
    (htoken : token fuel leftBound (c :: (x ++ rest)) = .ok (kind, x.length + 1)) :
    ∃ k, token fuel' leftBound (c :: (x ++ rest')) = .ok (k, x.length + 1) ∧ (k = kind ∨ kind.Loosens k) := by
  by_cases hbound : isRightBound rest = false
  · exact ⟨kind, token_congr h (fun _ => hbound.trans hright.symm) hslash hfuel htoken, .inl rfl⟩
  by_cases hstart : startsOperator c = true
  · rcases operator_congr h hstart (hslash hstart) htoken fuel' with ⟨rfl, htoken'⟩ | ⟨rfl, htoken'⟩
    · exact ⟨_, htoken', .inl rfl⟩
    · rw [hright] at htoken'
      rw [Bool.not_eq_false] at hbound
      rw [hbound]
      exact ⟨_, htoken', classifyOperator_loosens _ _⟩
  · exact ⟨kind, token_congr h (fun hoperator => absurd hoperator hstart) hslash hfuel htoken, .inl rfl⟩

/-- **The loop**: what is cut into tokens is cut into the same ones with other blanks next to their colons,
but operators in front of colons may have loosened. -/
theorem Cuts.recoloned {M : Nat → Prop} {o : Nat} {previous previous' : Option Token} {leading : Trivia}
    {cs : List Char} {ts : Tokens} {us : List Token} (h : Cuts previous leading cs ts)
    (hleft : (∀ t ∈ ts.all.head?, t.text ≠ ":") →
      isLeftBound previous' leading = isLeftBound previous leading)
    (hus : Recoloned M o ts.all us) :
    ∃ cs' vs, Token.spell us = (Trivia.text leading).toList ++ cs' ∧ StartsAlike cs cs' ∧
      Cuts previous' leading cs' vs ∧ Token.Loosens M o us vs.all := by
  induction h generalizing previous' o us with
  | @done previous leading =>
    cases hus with
    | keep _ hus =>
      cases hus
      refine ⟨[], _, ?_, .nil, .done, .refl M _ _⟩
      simp [Token.toList_fullText]
  | @token previous leading trailing leading₂ kind c x rest ts htoken htrailing hleading hcuts ih =>
    rw [Tokens.all, List.cons_append] at hus
    change Recoloned M o (_ :: ts.all) us at hus
    have htoken' : Lexer.token (x.length + 2) (isLeftBound previous' leading)
        (c :: (x ++ ((Trivia.text trailing).toList ++ ((Trivia.text leading₂).toList ++ rest)))) =
          .ok (kind, x.length + 1) := by
      by_cases hcolon : String.ofList (c :: x) = ":"
      · obtain ⟨rfl, rfl⟩ : c = ':' ∧ x = [] := by simpa using congrArg String.toList hcolon
        exact htoken
      · rw [hleft fun t ht => by cases ht; exact hcolon]
        exact htoken
    generalize hall : ts.all = all at hus
    cases hus with
    | keep _ hus =>
      obtain ⟨rest', vs, hspell, halike, hcuts', hloosens⟩ := ih (fun _ => rfl) (hall ▸ hus)
      have hbehind := halike.append_left (Trivia.text leading₂).toList
      refine ⟨_, _, ?_, ((hbehind.append_left _).append_left x).append_left [c],
        .token (token_of_startsAlike (hbehind.append_left _) (Nat.lt_succ_self _) htoken')
          (htrailing.congr hbehind) (hleading.congr halike) hcuts', .keep _ hloosens⟩
      rw [Token.spell_cons, hspell, Token.toList_fullText, String.toList_ofList]
      simp only [List.append_assoc, List.cons_append, List.nil_append]
    | @before _ _ c₂ _ us hcolon hnone hgap hmark hus =>
      -- the blanks in front of a colon go: both gaps break the token, and an operator there loosens
      obtain ⟨hkind₂, hhead⟩ := hcuts.eq_colon hall hcolon
      obtain rfl : leading₂ = [] := by
        obtain ⟨u, us, hu, rfl⟩ := hcuts.head?_eq
        obtain rfl : c₂ = u := (List.cons.inj (hall.symm.trans hu)).1
        exact hnone
      obtain ⟨hbreak, hcomment⟩ := gap_breaks hgap hhead
      have hstep := fun kind' => @ih _ (some ⟨kind', String.ofList (c :: x), leading, []⟩) _
        (fun hother => absurd hcolon (hother c₂ (by rw [hall]; rfl))) (hall ▸ hus)
      obtain ⟨rest', -, hspell, halike, -⟩ := hstep kind
      have hhead' := halike.head?_eq.symm.trans hhead
      obtain ⟨hbreak', hcomment'⟩ := gap_breaks (.inl rfl) hhead'
      obtain ⟨kind', htoken'', hkind⟩ := exists_token_of_unbound (.breaks hbreak hbreak')
        (isRightBound_colon hhead') (fun _ _ => hcomment') (Nat.lt_succ_self _) htoken'
      obtain ⟨rest'', vs, hspell', -, hcuts', hloosens⟩ := hstep kind'
      obtain rfl : rest'' = rest' := List.append_cancel_left (hspell'.symm.trans hspell)
      have hbehind : CutsOff false ((Trivia.text []).toList ++ rest'') [] := hleading.congr halike
      have htrailing' : CutsOff true ((Trivia.text []).toList ++ rest'') [] := cutsOff_gap (.inl rfl) hbehind
      have hcut : Cuts previous' leading _ ⟨⟨kind', String.ofList (c :: x), leading, []⟩ :: vs.pending,
          vs.endOfFile⟩ := .token htoken'' htrailing' hbehind hcuts'
      refine ⟨_, _, ?_, startsAlike_of_isBreak hbreak hbreak' fun _ _ => hcomment.trans hcomment'.symm,
        hcut, ?_⟩
      · rw [Token.spell_cons, hspell, Token.toList_fullText, String.toList_ofList]
        simp only [List.append_assoc, List.cons_append, Trivia.toList_text_nil, List.nil_append]
      · rcases hkind with rfl | hkind
        · exact .keep _ hloosens
        · obtain ⟨blank, ws, rfl, -⟩ := hus.exists_cons
          exact .loosen hkind hkind₂ hmark hloosens
    | @after _ _ t₂ blank _ us hcolon hnone hgap hblank hus =>
      obtain ⟨rfl, rfl⟩ : c = ':' ∧ x = [] := by simpa using congrArg String.toList hcolon
      -- the blanks behind a colon are set anew; the next token sees a colon to its left either way
      obtain ⟨rest', vs, hspell, halike, hcuts', hloosens⟩ :=
        @ih _ (some ⟨kind, ":", leading, blank⟩) _
          (fun _ => by rw [isLeftBound_colon hcolon, isLeftBound_colon rfl]) (hall ▸ hus)
      obtain rfl : leading₂ = [] := by
        obtain ⟨u, us, hu, rfl⟩ := hcuts.head?_eq
        obtain rfl : t₂ = u := (List.cons.inj (hall.symm.trans hu)).1
        exact hnone
      have hbehind : CutsOff false ((Trivia.text []).toList ++ rest') [] := hleading.congr halike
      have htrailing' : CutsOff true ((Trivia.text []).toList ++ rest') blank := cutsOff_gap hblank hbehind
      have hstep : Cuts previous' leading _ ⟨⟨kind, ":", leading, blank⟩ :: vs.pending, vs.endOfFile⟩ :=
        .token (x := []) htoken' htrailing' hbehind hcuts'
      refine ⟨_, _, ?_, ?_, hstep, .keep _ hloosens⟩
      case refine_2 => exact ⟨rfl, rfl, .breaks rfl rfl⟩
      rw [Token.spell_cons, hspell, Token.toList_fullText, String.toList_ofList]
      simp only [List.append_assoc, List.cons_append]

/-- **Other blanks next to colons**: a text of such tokens is cut into them, but operators in front of
colons may have loosened. -/
theorem exists_tokens_of_recoloned {M : Nat → Prop} {source source' : String} {ts : Tokens} {us : List Token}
    (h : tokens source = .ok ts) (hus : Recoloned M 0 ts.all us) (hsource : source'.toList = Token.spell us) :
    ∃ vs, tokens source' = .ok vs ∧ Token.Loosens M 0 us vs.all := by
  obtain ⟨t, rest, htrivia, hfrom, -, hcuts⟩ := exists_cuts_of_tokens h
  obtain ⟨rest', vs, hspell, halike, hcuts', hloosens⟩ := hcuts.recoloned (fun _ => rfl) hus
  have hapart : Trivia.BreaksApart ((interpreterLine source.toList).1 ++ t) := by
    obtain ⟨u, us, hall, hu⟩ := hcuts.head?_eq
    rw [← hu]
    exact breaksApart_of_tokens h u (hall ▸ List.mem_cons_self)
  exact ⟨vs, tokens_of_front htrivia rfl hfrom (.refl true _) hapart halike
    (fun _ pos hfuel => hcuts'.tokensFrom_eq pos hfuel) (hsource.trans hspell), hloosens⟩

/-! ### Tokens that are cut in two -/

/-- What starts with `>` is an operator. -/
theorem isOperatorChar_of_angle {fuel : Nat} {leftBound : Bool} {kind : SyntaxKind}
    (h : token fuel leftBound ('>' :: (x ++ rest)) = .ok (kind, x.length + 1)) :
    ∀ b ∈ x, isOperatorChar b = true := by
  rw [token_of_startsOperator (by decide), if_neg (by simp), if_neg (by decide)] at h
  have hlength : operatorRunLength (x ++ rest) + 1 = x.length + 1 :=
    congrArg Prod.snd (Except.ok.inj h)
  exact isOperatorChar_of_operatorRunLength (Nat.succ.inj hlength)

end Lexer

/-- Behind `>` there are only characters of operators. -/
def Token.IsAngled (t : Token) : Prop :=
  ∀ x, t.text.toList = '>' :: x → ∀ b ∈ x, isOperatorChar b = true

/-- Every token is cut off like that. -/
theorem Lexer.Cuts.isAngled {previous : Option Token} {leading : Trivia} {cs : List Char} {ts : Tokens}
    (h : Cuts previous leading cs ts) : ∀ t ∈ ts.all, t.IsAngled := by
  induction h with
  | done => exact List.forall_mem_singleton.mpr nofun
  | token htoken _ _ _ ih =>
    rw [Tokens.all, List.cons_append, List.forall_mem_cons]
    refine ⟨fun x hx => ?_, ih⟩
    rw [String.toList_ofList] at hx
    obtain ⟨rfl, rfl⟩ := List.cons.inj hx
    exact isOperatorChar_of_angle htoken

/-- Tokens that are spelled as colons are colons. -/
theorem Lexer.Cuts.kind_eq_colon {previous : Option Token} {leading : Trivia} {cs : List Char} {ts : Tokens}
    (h : Cuts previous leading cs ts) : ∀ t ∈ ts.all, t.text = ":" → t.kind = .colon := by
  induction h with
  | done => exact List.forall_mem_singleton.mpr fun htext => absurd htext (by simp)
  | token htoken htrailing hleading hcuts ih =>
    rw [Tokens.all, List.cons_append, List.forall_mem_cons]
    exact ⟨fun htext => ((Cuts.token htoken htrailing hleading hcuts).eq_colon rfl htext).1, ih⟩

namespace Token.Recoloned

variable {M : Nat → Prop} {o : Nat} {ts us vs : List Token}

/-- **Cutting a token in two** can be put off until blanks next to colons were replaced. -/
theorem exists_refines (h : Refines ts us) (hangled : ∀ t ∈ ts, t.IsAngled) (hvs : Recoloned M o us vs) :
    ∃ ws, Recoloned M o ts ws ∧ Refines ws vs := by
  have hangle : (">" : String) ≠ ":" := by decide
  induction h generalizing o vs with
  | nil =>
    cases hvs
    exact ⟨[], .nil, .nil⟩
  | @keep ts us t k h ih =>
    obtain ⟨-, hrest⟩ := List.forall_mem_cons.mp hangled
    cases hvs with
    | keep _ hvs =>
      obtain ⟨ws, hws, hrefines⟩ := ih hrest hvs
      exact ⟨t :: ws, .keep t hws, .keep t k hrefines⟩
    | before hcolon hleading hgap hmark hvs =>
      obtain ⟨ws, hws, hrefines⟩ := ih hrest hvs
      cases h with
      | keep c j h => exact ⟨_, .before hcolon hleading hgap hmark hws, .keep _ k hrefines⟩
      | split => exact absurd hcolon hangle
    | after hcolon hleading hgap hblank hvs =>
      obtain ⟨ws, hws, hrefines⟩ := ih hrest hvs
      cases h with
      | keep c j h => exact ⟨_, .after hcolon hleading hgap hblank hws, .keep _ k hrefines⟩
      | split => exact ⟨_, .after hcolon hleading hgap hblank hws, .keep _ k hrefines⟩
  | @split t ts us c cs k k' htext h ih =>
    obtain ⟨ht, hrest⟩ := List.forall_mem_cons.mp hangled
    have hoperators := ht _ htext
    have hc : isOperatorChar c = true := hoperators c List.mem_cons_self
    -- the second part holds no colon, so it is no colon
    have hother : String.ofList (c :: cs) ≠ ":" := by
      intro heq
      obtain ⟨rfl, -⟩ := List.cons.inj ((String.toList_ofList).symm.trans (congrArg String.toList heq))
      cases hc
    cases hvs with
    | keep _ hvs =>
      have hsecond : IsAngled ⟨k', String.ofList (c :: cs), [], t.trailing⟩ := by
        intro x hx b hb
        rw [String.toList_ofList] at hx
        exact hoperators b (hx ▸ List.mem_cons_of_mem _ hb)
      have hend : o + (⟨k, ">", t.leading, []⟩ : Token).fullLen + Trivia.len [] +
          (⟨k', String.ofList (c :: cs), [], t.trailing⟩ : Token).len = o + t.leading.len + t.len := by
        have hangle : (">" : String).utf8ByteSize = 1 := rfl
        rw [len_eq_of_angle htext, fullLen, len, len, hangle]
        dsimp only [Trivia.len]
        omega
      obtain ⟨ws, hws, hrefines⟩ := ih (List.forall_mem_cons.mpr ⟨hsecond, hrest⟩) hvs
      obtain ⟨trailing, ws, rfl, hwhole⟩ := @of_head M _ o _ t _ _ hws hother rfl hend
      exact ⟨_, hwhole, @Refines.split { t with trailing := trailing } _ _ c cs k k' htext hrefines⟩
    | before hcolon =>
      cases h with
      | keep => exact absurd hcolon hother
      | split => exact absurd hcolon hangle
    | after hcolon => exact absurd hcolon hangle

theorem startsDecl_dropLast (h : us.map stripped = ts.map stripped) :
    Grammar.startsDecl ts.dropLast.length ts.dropLast =
      Grammar.startsDecl us.dropLast.length us.dropLast := by
  have hlength : us.length = ts.length := by simpa using congrArg List.length h
  rw [← Grammar.startsDecl_map_stripped, ← Grammar.startsDecl_map_stripped _ us.dropLast, List.map_dropLast,
    List.map_dropLast, h, List.length_dropLast, List.length_dropLast, hlength]

/-- No grammar tells tokens from those with other blanks next to their colons. -/
theorem enters (h : Recoloned M o ts us) (hcolon : ∀ t ∈ ts, t.text = ":" → t.kind = .colon) (b : Bool)
    (o' : Nat) : Enters (fun _ => none) b o' ts.dropLast us.dropLast := by
  induction h generalizing b o' with
  | nil => exact .nil rfl
  | @keep o t ts us h ih =>
    obtain ⟨-, hrest⟩ := List.forall_mem_cons.mp hcolon
    have hsame := (Recoloned.keep t h).map_stripped
    cases ts with
    | nil =>
      cases h
      exact .nil rfl
    | cons u ts =>
      obtain ⟨trailing, vs, rfl, -⟩ := h.exists_cons
      exact .keep (fun _ _ => rfl) ⟨rfl, rfl, fun _ => rfl, fun _ => rfl⟩ (fun _ _ _ => rfl) nofun
        (startsDecl_dropLast hsame) (ih hrest true _)
  | @before o t c ts us hc hleading hgap hmark h ih =>
    obtain ⟨-, hrest⟩ := List.forall_mem_cons.mp hcolon
    have hkind := (List.forall_mem_cons.mp hrest).1 hc
    have hsame := (Recoloned.before hc hleading hgap hmark h).map_stripped
    obtain ⟨trailing, vs, rfl, -⟩ := h.exists_cons
    refine .keep (fun _ _ => rfl) ⟨rfl, rfl, fun _ => rfl, fun _ => rfl⟩ (fun _ _ hends => ?_) nofun
      (startsDecl_dropLast hsame) (ih hrest true _)
    -- an operator touches neither a colon nor the end of the file
    cases ts with
    | nil => cases hends
    | cons u ts =>
      have hends : Input.endsOperand c.kind = false := hends
      rw [hkind] at hends
      cases hends
  | @after o c t blank ts us hc hleading hgap hblank h ih =>
    obtain ⟨hkind, hrest⟩ := List.forall_mem_cons.mp hcolon
    have hsame := (Recoloned.after hc hleading hgap hblank h).map_stripped
    obtain ⟨trailing, vs, rfl, -⟩ := h.exists_cons
    refine .keep (fun _ _ => rfl) ⟨rfl, rfl, fun _ => rfl, fun _ => rfl⟩ (fun _ hoperator => ?_) nofun
      (startsDecl_dropLast hsame) (ih hrest true _)
    rw [hkind hc] at hoperator
    cases hoperator

end Token.Recoloned

namespace Token

variable {M : Nat → Prop} {o : Nat} {ts us : List Token} {t u : Token}

/-- The last token does not loosen. -/
theorem Loosens.of_concat (hlast : t.kind ≠ .colon) (h : Loosens M o (ts ++ [t]) us) :
    ∃ vs, us = vs ++ [t] ∧ Loosens M o ts vs := by
  induction ts generalizing o us with
  | nil =>
    rw [List.nil_append] at h
    cases h with
    | keep _ h =>
      cases h
      exact ⟨[], rfl, .nil⟩
    | loosen hkind hcolon => cases hcolon
  | cons a ts ih =>
    rw [List.cons_append] at h
    cases h with
    | keep _ h =>
      obtain ⟨vs, rfl, hfront⟩ := ih h
      exact ⟨a :: vs, rfl, .keep a hfront⟩
    | @loosen _ _ k _ _ hkind hcolon hmark h =>
      obtain ⟨vs, rfl, hfront⟩ := ih h
      refine ⟨{ a with kind := k } :: vs, rfl, .loosen hkind ?_ hmark hfront⟩
      cases ts with
      | nil => exact absurd hcolon hlast
      | cons b ts => exact hcolon

theorem Loosens.total_len (h : Loosens M o ts us) : Input.total len us = Input.total len ts := by
  induction h with
  | nil => rfl
  | keep t _ ih => rw [Input.total, Input.total, ih]
  | loosen _ _ _ _ ih =>
    rw [Input.total, Input.total, ih]
    rfl

/-- The last token is kept. -/
theorem Recoloned.exists_concat (h : Recoloned M o (ts ++ [t]) us) : ∃ vs, us = vs ++ [t] := by
  induction ts generalizing o us with
  | nil =>
    rw [List.nil_append] at h
    cases h with
    | keep _ h =>
      cases h
      exact ⟨[], rfl⟩
  | cons a ts ih =>
    obtain ⟨trailing, vs, rfl, hrest⟩ := h.exists_cons
    obtain ⟨vs, rfl⟩ := ih hrest
    exact ⟨_ :: vs, rfl⟩

theorem exists_of_map_stripped (h : us.map stripped = ts.map stripped) (hu : u ∈ us) :
    ∃ t ∈ ts, t.kind = u.kind ∧ t.text = u.text := by
  have hmem := List.mem_map_of_mem (f := stripped) hu
  rw [h] at hmem
  obtain ⟨t, ht, hsame⟩ := List.mem_map.mp hmem
  have hkind : t.stripped.kind = u.stripped.kind := congrArg Token.kind hsame
  have htext : t.stripped.text = u.stripped.text := congrArg Token.text hsame
  exact ⟨t, ht, hkind, htext⟩

end Token

/-- **Other blanks next to colons**: a tree with them is the tree of its own text. -/
theorem parse_of_recoloned {M : Nat → Prop} {source : String} {tree tree' : Element}
    (h : parse source = .ok tree) (hstripped : tree'.stripped = tree.stripped)
    (hleaves : Token.Recoloned M 0 tree.leaves tree'.leaves) (hclears : Element.ClearsAll M 0 [tree'])
    (hsize : tree'.fullText.utf8ByteSize ≤ maxSourceLength) : parse tree'.fullText = .ok tree' := by
  obtain ⟨ts, -, -, hts, -⟩ := parse_eq_ok h
  obtain ⟨_, _, -, -, -, hcuts⟩ := Lexer.exists_cuts_of_tokens hts
  obtain ⟨ws, hws, hrefines⟩ := hleaves.exists_refines (leaves_refine h hts) hcuts.isAngled
  have hspell : tree'.fullText.toList = Token.spell ws := by
    rw [Element.toList_fullText, hrefines.spell_eq]
  obtain ⟨vs, hvs, hloosens⟩ := Lexer.exists_tokens_of_recoloned hts hws hspell
  have hready := ready_of_tokens hts
  have hlast : ts.endOfFile.kind ≠ .colon := by
    rw [hready.kind_endOfFile]
    decide
  -- the new tokens, before any of them loosens, as an input
  have henters := hws.enters hcuts.kind_eq_colon false 0
  rw [List.dropLast_concat] at henters
  obtain ⟨us, rfl⟩ := Token.Recoloned.exists_concat hws
  obtain ⟨us', hall, hpending⟩ := hloosens.of_concat hlast
  obtain ⟨rfl, hendOfFile⟩ := List.append_inj' hall rfl
  have hendOfFile : vs.endOfFile = ts.endOfFile := (List.cons.inj hendOfFile).1
  have hsame : us.map Token.stripped = ts.pending.map Token.stripped := by
    have hmap : (us ++ [ts.endOfFile]).map _ = (ts.pending ++ [ts.endOfFile]).map _ := hws.map_stripped
    rw [List.map_append, List.map_append] at hmap
    exact (List.append_inj' hmap rfl).1
  have hready' : (Input.mk 0 us ts.endOfFile).Ready := by
    refine ⟨fun u hu => ?_, hready.kind_endOfFile⟩
    obtain ⟨t, ht, -, htext⟩ := Token.exists_of_map_stripped hsame hu
    rw [Token.len, ← htext]
    exact hready.len_pos t ht
  have hwords : ∀ u ∈ us, u.kind.IsWord := by
    intro u hu
    obtain ⟨t, ht, hkind, -⟩ := Token.exists_of_map_stripped hsame hu
    exact hkind ▸ (Lexer.tokens_isWord hts).1 t ht
  have hroom : (Input.mk 0 us ts.endOfFile).size ≤ tree'.fullText.utf8ByteSize := by
    rw [Input.size, ← hpending.total_len]
    exact size_le_of_tokens hvs
  -- what is read of it has the same shape and the same leaves, so it is the tree
  rw [List.dropLast_concat] at henters
  obtain ⟨tree'', t, hrun, hshape⟩ := exists_run_of_enters h hts hready' hroom hcuts.text_endOfFile henters
  have hleaves' := hrefines.eq_of_stripped (Grammar.refines_of_run hwords hrun)
    (by rw [← Element.leaves_stripped, ← Element.leaves_stripped, hshape, hstripped])
  obtain rfl := Element.eq_of_stripped (hshape.trans hstripped.symm) hleaves'
  have hinputs : Input.Loosens M ⟨0, us, ts.endOfFile⟩ ⟨0, vs.pending, vs.endOfFile⟩ :=
    ⟨hpending, rfl, hendOfFile⟩
  obtain ⟨v, hread⟩ := Grammar.run_sourceFile_of_loosens hinputs hrun hclears
  exact parse_of_run hsize hvs hread

/-! ### Around the tokens of a tree -/

namespace Lexer

/-- A piece that is whitespace is a run of blanks. -/
theorem FrontPiece.isBlanks {c : Char} {w : List Char}
    (h : FrontPiece c (w ++ rest) .whitespace (w.length + 1)) : IsBlanks (c :: w) := by
  generalize hk : TriviaKind.whitespace = k, hn : w.length + 1 = n at h
  cases h with
  | lineFeed | carriageReturn => cases hk
  | lineComment =>
    have hcomment := isComment_lineCommentKind (c :: (w ++ rest))
    rw [← hk] at hcomment
    cases hcomment
  | blockComment =>
    have hcomment := isComment_blockCommentKind (c :: (w ++ rest))
    rw [← hk] at hcomment
    cases hcomment
  | blanks hc =>
    have hall := (length_takeWhile_append_iff.mp (Nat.succ.inj hn).symm).1
    exact ⟨List.cons_ne_nil c w, List.forall_mem_cons.mpr ⟨hc, hall⟩⟩

/-- Whitespace that is cut off is one run of blanks, if it is not empty. -/
theorem CutsOff.isGap {trailing : Bool} (h : CutsOff trailing rest t) (hblank : t.isWhitespaceOnly = true) :
    t.IsGap := by
  have hblanks := h.regular.blanks
  cases h with
  | done => exact .inl rfl
  | @piece p t hpiece _ =>
    rw [Trivia.isWhitespaceOnly, List.all_cons, Bool.and_eq_true] at hblank
    obtain ⟨hp, ht⟩ := hblank
    obtain ⟨c, w, hw⟩ := List.exists_cons_of_length_pos (triviaPiece?_pos hpiece).1
    have hkind : p.kind = .whitespace := eq_of_beq hp
    rw [hw, List.cons_append, hkind] at hpiece
    refine .inr ⟨p.text, hw ▸ (frontPiece_of_triviaPiece? hpiece).isBlanks, ?_⟩
    -- no other run of blanks can stand behind it
    cases t with
    | nil => rw [← hkind]
    | cons q t =>
      rw [List.all_cons, Bool.and_eq_true] at ht
      exact absurd ⟨hp, ht.1⟩ (List.isChain_cons_cons.mp hblanks).1

theorem Cuts.text_of_colon {previous : Option Token} {leading : Trivia} {cs : List Char} {ts : Tokens}
    (h : Cuts previous leading cs ts) : ∀ t ∈ ts.pending, t.kind = .colon → t.text = ":" := by
  intro t ht hkind
  obtain ⟨c, hmark, htext⟩ := h.text_of_not_isGiven t ht (by rw [hkind]; decide)
  rw [hkind] at hmark
  obtain rfl : c = ':' := (by decide : ∀ p ∈ markKinds, p.2 = .colon → p.1 = ':') _ hmark rfl
  exact htext

theorem Cuts.isGap {previous : Option Token} {leading : Trivia} {cs : List Char} {ts : Tokens}
    (h : Cuts previous leading cs ts) :
    ∀ t ∈ ts.all, t.trailing.isWhitespaceOnly = true → t.trailing.IsGap := by
  induction h with
  | done => exact List.forall_mem_singleton.mpr fun _ => .inl rfl
  | token _ htrailing _ _ ih => exact List.forall_mem_cons.mpr ⟨htrailing.isGap, ih⟩

end Lexer

/-- In front of the parts that a token is cut into stands nothing. -/
theorem Token.Refines.leading_of_mem_tail {ts us : List Token} (h : Refines ts us) :
    ∀ u ∈ us.tail, u.leading = [] ∨ ∃ t ∈ ts.tail, u.leading = t.leading := by
  cases h with
  | nil => exact List.forall_mem_nil _
  | keep t k h => exact h.leading_of_mem
  | split k k' htext h =>
    intro u hu
    rcases h.leading_of_mem u hu with hnil | ⟨t, ht, heq⟩
    · exact .inl hnil
    · rcases List.mem_cons.mp ht with rfl | ht
      · exact .inl heq
      · exact .inr ⟨t, ht, heq⟩

section Leaves

variable {source : String} {tree : Element} {t : Token}

/-- A colon is spelled as such. -/
theorem text_of_colon (h : parse source = .ok tree) (ht : t ∈ tree.leaves) (hkind : t.kind = .colon) :
    t.text = ":" := by
  obtain ⟨ts, items, s, hts, hitems, rfl⟩ := parse_eq_ok h
  obtain ⟨_, _, -, -, -, hcuts⟩ := Lexer.exists_cuts_of_tokens hts
  have hassembled := Grammar.assembled_fileItems (Grammar.assembled_level (depthFor source.utf8ByteSize))
  have hendOfFile : s.endOfFile = ts.endOfFile := (hassembled.kept hitems).endOfFile
  have hleaves := hassembled.forall_leaves (P := fun t => t.kind = .colon → t.text = ":")
    (fun _ _ hgiven _ hcolon => absurd hcolon hgiven.2)
    (fun _ _ _ _ _ _ hgiven => ⟨fun hcolon => absurd hcolon hgiven.2, fun hcolon => absurd hcolon hgiven.2⟩)
    hitems (by simpa using hcuts.text_of_colon)
  rw [Element.leaves_node, Element.leavesAll_append, List.mem_append] at ht
  rcases ht with ht | ht
  · exact hleaves t (List.mem_append_left _ ht) hkind
  · obtain rfl : t = s.endOfFile := by simpa using ht
    rw [hendOfFile, (Lexer.tokens_isWord hts).2] at hkind
    cases hkind

/-- Behind a token there is a gap, if there is nothing but whitespace. -/
theorem isGap_trailing (h : parse source = .ok tree) (ht : t ∈ tree.leaves)
    (hblank : t.trailing.isWhitespaceOnly = true) : t.trailing.IsGap := by
  obtain ⟨ts, -, -, hts, -⟩ := parse_eq_ok h
  obtain ⟨_, _, -, -, -, hcuts⟩ := Lexer.exists_cuts_of_tokens hts
  have hall := (leaves_refine h hts).forall_trivia (P := fun _ => True)
    (Q := fun s => s.isWhitespaceOnly = true → s.IsGap) trivial (fun _ => .inl rfl)
    fun t ht => ⟨trivial, hcuts.isGap t ht⟩
  exact (hall t ht).2 hblank

/-- In front of a token that does not start a line there is nothing, if it is not the first one. -/
theorem leading_eq_nil (h : parse source = .ok tree) (ht : t ∈ tree.leaves.tail)
    (hnewline : t.leading.containsNewline = false) : t.leading = [] := by
  obtain ⟨ts, -, -, hts, -⟩ := parse_eq_ok h
  obtain ⟨-, -, -, hstarts, -⟩ := Lexer.tokens_regular hts
  rcases (leaves_refine h hts).leading_of_mem_tail t ht with hnil | ⟨u, hu, heq⟩
  · exact hnil
  · rw [heq] at hnewline ⊢
    refine (hstarts u hu).resolve_right fun hhead => ?_
    obtain ⟨p, hp, hbreak⟩ := (Option.any_eq_true _ _).mp hhead
    rw [Trivia.containsNewline, List.any_eq_false] at hnewline
    exact hnewline p (List.mem_of_mem_head? hp) hbreak

end Leaves

end SwiftTidy
