import Mathlib.Logic.Function.Iterate
import SwiftTidy.Proofs.Tree.CommonAncestor
import SwiftTidy.Proofs.Tree.Ranges

/-!
# From token to token

In a well-kinded tree the steps to the next token run through the list of tokens, the steps to the
previous one run back, and every offset below the length of the text is in the full range of exactly
one token (`tokens_navigation`).  Nodes without tokens and tokens without text may stand anywhere.
-/

namespace SwiftTidy

namespace Cursor

variable {c x : Cursor} {target : Nat}

/-! ### Steps through the list -/

section Linked

variable {before behind : Option Cursor} {xs ys : List Cursor}

/-- The token behind one of a list of neighbours is the one behind it in the list. -/
theorem Linked.nextToken?_eq (h : Linked before (xs ++ x :: ys) behind) :
    x.nextToken? = ys.head?.or behind := by
  induction xs generalizing before with
  | nil => exact h.2.1
  | cons z xs ih => exact ih h.2.2

/-- Steps to the next token from the first one on go through a list with nothing behind it. -/
theorem Linked.iterate_nextToken? (h : Linked before xs none) (n : Nat) :
    (·.bind nextToken?)^[n] xs.head? = xs[n]? := by
  induction xs generalizing before n with
  | nil => exact Function.iterate_fixed rfl n
  | cons z xs ih =>
    obtain ⟨-, hnext, hrest⟩ := h
    cases n with
    | zero => rfl
    | succ n =>
      rw [Function.iterate_succ_apply, List.head?_cons, Option.bind_some, hnext, Option.or_none,
        ih hrest, List.getElem?_cons_succ]

/-- In a list with nothing around it a step forth takes a step back back. -/
theorem Linked.nextToken?_eq_some_iff {t u : Cursor} (h : Linked none xs none) (ht : t ∈ xs)
    (hu : u ∈ xs) : t.nextToken? = some u ↔ u.prevToken? = some t := by
  constructor
  · intro hnext
    obtain ⟨front, back, rfl⟩ := List.append_of_mem ht
    rw [h.nextToken?_eq, Option.or_none, List.head?_eq_some_iff] at hnext
    obtain ⟨back, rfl⟩ := hnext
    rw [List.append_cons] at h
    rw [h.prevToken?_eq, List.getLast?_concat, Option.some_or]
  · intro hprev
    obtain ⟨front, back, rfl⟩ := List.append_of_mem hu
    rw [h.prevToken?_eq, Option.or_none, List.getLast?_eq_some_iff] at hprev
    obtain ⟨front, rfl⟩ := hprev
    rw [← List.append_cons] at h
    rw [h.nextToken?_eq, List.head?_cons, Option.some_or]

end Linked

/-- The tokens of a tree have nothing around them. -/
theorem linked_tokens {tree : Element} (h : tree.WellKinded) :
    Linked none (root tree).tokens none :=
  linked_tokensOf tree (root tree) h rfl

/-! ### The token at an offset -/

/-- Every byte of some tokens is in one of them. -/
theorem exists_mem_placed_of_lt {ts : List Token} {o : Nat} (hle : o ≤ target)
    (hlt : target < o + Token.fullLenAll ts) :
    ∃ y ∈ Token.placed o ts, y.1 ≤ target ∧ target < y.1 + y.2.fullLen := by
  induction ts generalizing o with
  | nil =>
    rw [Token.fullLenAll_nil] at hlt
    omega
  | cons t ts ih =>
    rw [Token.fullLenAll_cons] at hlt
    by_cases ht : target < o + t.fullLen
    · exact ⟨(o, t), List.mem_cons_self, hle, ht⟩
    · obtain ⟨y, hy, hbounds⟩ := ih (o := o + t.fullLen) (by omega) (by omega)
      exact ⟨y, List.mem_cons_of_mem _ hy, hbounds⟩

theorem pairwise_placed (o : Nat) (ts : List Token) :
    (Token.placed o ts).Pairwise fun y z => y.1 + y.2.fullLen ≤ z.1 := by
  induction ts generalizing o with
  | nil => exact .nil
  | cons t ts ih => exact .cons (fun z hz => (bounds_of_mem_placed hz).1) (ih _)

/-- A token ends before the next one starts. -/
theorem pairwise_tokensOf (hc : c.element.WellKinded) :
    (tokensOf c.element c).Pairwise fun y z => y.fullEnd ≤ z.offset := by
  have hmap : ((tokensOf c.element c).map fun y => (y.offset, y.element)).Pairwise
      fun y z => y.1 + y.2.fullLen ≤ z.1 := by
    rw [map_tokensOf c.element c hc rfl, List.pairwise_map]
    refine (pairwise_placed _ _).imp fun hle => ?_
    rwa [Element.fullLen]
  exact List.pairwise_map.mp hmap

theorem contains_fullRange :
    c.fullRange.contains target = true ↔ c.offset ≤ target ∧ target < c.fullEnd := by
  rw [TextRange.contains, Bool.and_eq_true, decide_eq_true_eq, decide_eq_true_eq]
  exact Iff.rfl

/-- Every byte of a place is in one of its tokens. -/
theorem exists_token_contains (hc : c.element.WellKinded)
    (h : c.fullRange.contains target = true) :
    ∃ t ∈ tokensOf c.element c, t.fullRange.contains target = true := by
  obtain ⟨hle, hlt⟩ := contains_fullRange.mp h
  rw [fullEnd, Element.fullLen_eq] at hlt
  obtain ⟨y, hy, hbounds⟩ := exists_mem_placed_of_lt hle hlt
  have hmem : (y.1, Element.token y.2) ∈ (tokensOf c.element c).map fun t => (t.offset, t.element) := by
    rw [map_tokensOf c.element c hc rfl]
    exact List.mem_map_of_mem hy
  obtain ⟨t, ht, heq⟩ := List.mem_map.mp hmem
  obtain ⟨hoffset, helement⟩ := Prod.mk.inj heq
  refine ⟨t, ht, contains_fullRange.mpr ?_⟩
  rwa [fullEnd, hoffset, helement, Element.fullLen]

/-- The tokens of a place hold no byte that is not in it. -/
theorem contains_of_mem_tokensOf {t : Cursor} (hc : c.element.WellKinded)
    (ht : t ∈ tokensOf c.element c) (h : t.fullRange.contains target = true) :
    c.fullRange.contains target = true := by
  obtain ⟨hstart, hend, -⟩ := bounds_of_mem_tokensOf hc ht
  rw [contains_fullRange] at h ⊢
  omega

mutual
/-- The way down to an offset in a place ends at the first token that contains the offset. -/
theorem tokenAtOf?_eq : ∀ (e : Element) (c : Cursor), e.WellKinded → c.element = e →
    c.fullRange.contains target = true →
    tokenAtOf? target e c = (tokensOf e c).find? (·.fullRange.contains target)
  | .token t, c, he, hc, h => by
    rw [tokensOf_token he hc, tokenAtOf?, if_pos ((Element.wellKinded_token t).mp he),
      List.find?_cons_of_pos (p := fun x : Cursor => x.fullRange.contains target) h]
  | .node k es, c, he, hc, h => by
    rw [tokensOf_node he hc, tokenAtOf?, if_neg (by simp [he.isToken_eq_false]),
      tokenAtOfAll?_eq es c 0 c.offset ((Element.wellKinded_node k es).mp he).2]
theorem tokenAtOfAll?_eq : ∀ (es : List Element) (p : Cursor) (i o : Nat),
    Element.WellKindedAll es →
    tokenAtOfAll? target es p i o = (tokensOfAll es p i o).find? (·.fullRange.contains target)
  | [], p, i, o, _ => by rw [tokensOfAll_nil, tokenAtOfAll?, List.find?_nil]
  | e :: es, p, i, o, h => by
    obtain ⟨he, hes⟩ := (Element.wellKindedAll_cons e es).mp h
    rw [tokensOfAll_cons, List.find?_append, tokenAtOfAll?]
    split
    · next hhere =>
      -- the way down finds a token here and does not look behind the child
      obtain ⟨t, ht, hcontains⟩ := exists_token_contains (c := child p i o e) he hhere
      have hsome : ((tokensOf e (child p i o e)).find? (·.fullRange.contains target)).isSome :=
        List.find?_isSome.mpr ⟨t, ht, hcontains⟩
      obtain ⟨u, hu⟩ := Option.isSome_iff_exists.mp hsome
      rw [tokenAtOf?_eq e (.child p i o e) he rfl hhere, hu, Option.some_or]
    · next hhere =>
      have hnone : (tokensOf e (child p i o e)).find? (·.fullRange.contains target) = none := by
        rw [List.find?_eq_none]
        exact fun t ht hcontains =>
          hhere (contains_of_mem_tokensOf (c := child p i o e) he ht hcontains)
      rw [hnone, Option.none_or, tokenAtOfAll?_eq es p _ _ hes]
end

/-- The token at an offset is the one that contains it. -/
theorem tokenAt?_eq_some_iff {t : Cursor} (hc : c.element.WellKinded) :
    c.tokenAt? target = some t ↔ t ∈ c.tokens ∧ t.fullRange.contains target = true := by
  have hfound : c.tokenAt? target = c.tokens.find? (·.fullRange.contains target) := by
    rw [tokenAt?, tokens_eq]
    split
    · next h => exact tokenAtOf?_eq c.element c hc rfl h
    · next h =>
      rw [eq_comm, List.find?_eq_none]
      exact fun t ht hcontains => h (contains_of_mem_tokensOf hc ht hcontains)
  rw [hfound]
  constructor
  · exact fun h => ⟨List.mem_of_find?_eq_some h, by simpa using List.find?_some h⟩
  · rintro ⟨ht, hcontains⟩
    obtain ⟨front, back, hsplit⟩ := List.append_of_mem ht
    have hpairs := pairwise_tokensOf hc
    rw [← tokens_eq, hsplit, List.pairwise_append] at hpairs
    rw [hsplit, List.find?_append,
      List.find?_cons_of_pos (p := fun x : Cursor => x.fullRange.contains target) hcontains]
    have hnone : front.find? (·.fullRange.contains target) = none := by
      rw [List.find?_eq_none]
      intro u hu hother
      have hle := hpairs.2.2 u hu t List.mem_cons_self
      rw [contains_fullRange] at hcontains hother
      omega
    rw [hnone, Option.none_or]

/-- **Navigation**: in a well-kinded tree the steps to the next token, from the first token of the
root on, go through the tokens of the root in order and then end.  A token has another one behind it
exactly when this one has the first in front of it.  There is a token at exactly the offsets below
the length of the text, and it is the one token whose full range contains the offset. -/
theorem tokens_navigation {tree : Element} (h : tree.WellKinded) :
    (∀ n, (·.bind nextToken?)^[n] (root tree).firstToken? = (root tree).tokens[n]?) ∧
    (∀ t ∈ (root tree).tokens, ∀ u ∈ (root tree).tokens,
      t.nextToken? = some u ↔ u.prevToken? = some t) ∧
    ∀ o, ((∃ t, (root tree).tokenAt? o = some t) ↔ o < tree.fullText.utf8ByteSize) ∧
      ∀ t, (root tree).tokenAt? o = some t ↔
        t ∈ (root tree).tokens ∧ t.fullRange.contains o = true := by
  refine ⟨fun n => ?_, fun t ht u hu => (linked_tokens h).nextToken?_eq_some_iff ht hu,
    fun o => ⟨?_, fun t => tokenAt?_eq_some_iff (c := root tree) h⟩⟩
  · have hfirst : (root tree).firstToken? = (root tree).tokens.head? :=
      firstTokenOf?_eq tree (root tree) h rfl
    rw [hfirst, (linked_tokens h).iterate_nextToken?]
  · have hroot : (root tree).fullRange.contains o = true ↔ o < tree.fullText.utf8ByteSize := by
      rw [contains_fullRange, Element.utf8ByteSize_fullText, fullEnd, offset, element, Nat.zero_add]
      exact and_iff_right (Nat.zero_le o)
    rw [← hroot]
    constructor
    · rintro ⟨t, ht⟩
      obtain ⟨hmem, hcontains⟩ := (tokenAt?_eq_some_iff (c := root tree) h).mp ht
      exact contains_of_mem_tokensOf (c := root tree) h hmem hcontains
    · intro hcontains
      obtain ⟨t, ht, hhere⟩ := exists_token_contains (c := root tree) h hcontains
      exact ⟨t, (tokenAt?_eq_some_iff (c := root tree) h).mpr ⟨ht, hhere⟩⟩

/-- A node without tokens and a token without text stand between two commas with trivia. -/
theorem tokens_navigation_empty :
    let comma : Element := .token ⟨.comma, ",", [.spaces 1], [.spaces 2]⟩
    let tree : Element := .node .sourceFile
      [comma, .node .parameterClause [], .token ⟨.endOfFile, "", [], []⟩, .node .codeBlock [comma]]
    tree.WellKinded ∧
    ((·.bind nextToken?)^[2] (root tree).firstToken?).map path = some [3, 0] ∧
    (·.bind nextToken?)^[3] (root tree).firstToken? = none ∧
    ((root tree).tokenAt? 4).map path = some [3, 0] ∧
    (∃ t, (root tree).tokenAt? 7 = some t) ∧ ¬ ∃ t, (root tree).tokenAt? 8 = some t := by
  intro comma tree
  have hkinded : tree.WellKinded := by simp [tree, comma, SyntaxKind.isNode]; decide
  obtain ⟨hsteps, -, hoffsets⟩ := tokens_navigation hkinded
  refine ⟨hkinded, ?_, ?_, by decide, (hoffsets 7).1.mpr (by decide), ?_⟩
  · rw [hsteps]
    decide
  · rw [hsteps]
    decide
  · exact fun h => absurd ((hoffsets 8).1.mp h) (by decide)

end Cursor

end SwiftTidy
