import SwiftTidy.Directive.Command
import SwiftTidy.Proofs.Directive.Sweep
import SwiftTidy.Proofs.Text.Words

/-!
# Directives as they are written

A directive is written with its action, its modifier, the names of rules behind blanks of any kind,
and possibly a comment behind ` - `.  It is read back as it was written (`parse?_written`).

The head ends at the first blank, since neither actions nor modifiers have one.  The comment starts
at the first ` - `: one further to the front would put the word `-` among the names
(`firstAt_dash`).  What is left are the names, and an end of a comment that stands for itself is not
one of them.
-/

namespace SwiftTidy

/-- The name of a rule as a directive writes it, with the blanks in front of it. -/
structure SpacedName where
  gap : String
  name : String
  isGap : Words.IsGap gap.toList
  isWord : Words.IsWord name.toList
  /-- A dash of its own starts the comment of the directive. -/
  ne_dash : name ≠ "-"
  not_commentEnd : ¬['*', '/'] <:+ name.toList

namespace SpacedName

/-- The characters of some names and of the blanks in front of them. -/
def chars (words : List SpacedName) : List Char :=
  words.flatMap fun w => w.gap.toList ++ w.name.toList

/-- The names read as rules. -/
def rules (words : List SpacedName) : List RuleName := words.map fun w => RuleName.ofString w.name

variable {words : List SpacedName} {rest : List Char}

/-- A blank stands at the front. -/
theorem exists_cons_of_ne_nil (h : words ≠ []) :
    ∃ b body, chars words = b :: body ∧ CharClass.isBlank b = true := by
  cases words with
  | nil => exact absurd rfl h
  | cons w words =>
    obtain ⟨b, gap, hgap⟩ := List.exists_cons_of_ne_nil w.isGap.1
    refine ⟨b, gap ++ w.name.toList ++ chars words, ?_, ?_⟩
    · rw [chars, List.flatMap_cons, hgap]
      rfl
    · exact w.isGap.2 b (hgap ▸ List.mem_cons_self)

theorem head?_chars_append (hrest : ∀ c ∈ rest.head?, CharClass.isBlank c = true) :
    ∀ c ∈ (chars words ++ rest).head?, CharClass.isBlank c = true := by
  by_cases h : words = []
  · rw [h]
    exact hrest
  · obtain ⟨b, body, hchars, hb⟩ := exists_cons_of_ne_nil h
    rw [hchars]
    intro c hc
    cases hc
    exact hb

/-- The words between blanks are the names. -/
theorem splitBlanks_chars_append (hrest : ∀ c ∈ rest.head?, CharClass.isBlank c = true) :
    Words.splitBlanks (chars words ++ rest) =
      words.map (·.name.toList) ++ Words.splitBlanks rest := by
  induction words with
  | nil => rfl
  | cons w words ih =>
    rw [chars, List.flatMap_cons, List.append_assoc]
    show Words.splitBlanks (w.gap.toList ++ w.name.toList ++ (chars words ++ rest)) = _
    rw [Words.splitBlanks_gap_append_word w.isGap.2 w.isWord (head?_chars_append hrest), ih]
    rfl

/-- The words are the same without the blank at the front. -/
theorem splitBlanks_body_append {b : Char} {body : List Char} (hchars : chars words = b :: body)
    (hb : CharClass.isBlank b = true) (hrest : ∀ c ∈ rest.head?, CharClass.isBlank c = true) :
    Words.splitBlanks (body ++ rest) = words.map (·.name.toList) ++ Words.splitBlanks rest := by
  rw [← Words.splitBlanks_cons hb, ← List.cons_append, ← hchars, splitBlanks_chars_append hrest]

theorem dash_not_mem : ['-'] ∉ words.map (·.name.toList) := by
  intro h
  obtain ⟨w, -, hw⟩ := List.mem_map.mp h
  exact w.ne_dash (String.toList_inj.mp hw)

theorem trimCommentEnd_names :
    (words.map (·.name.toList)).map Words.trimCommentEnd = words.map (·.name.toList) := by
  rw [List.map_map]
  exact List.map_congr_left fun w _ => Words.trimCommentEnd_eq_self w.not_commentEnd

theorem filter_names :
    (words.map (·.name.toList)).filter (!·.isEmpty) = words.map (·.name.toList) := by
  rw [List.filter_eq_self]
  intro name h
  obtain ⟨w, -, rfl⟩ := List.mem_map.mp h
  rw [List.isEmpty_eq_false_iff.mpr w.isWord.1, Bool.not_false]

end SpacedName

namespace Command

variable {words : List SpacedName} {action : Action} {modifier : Option Modifier}

/-- The action and the modifier of a directive. -/
def headText (action : Action) : Option Modifier → String
  | none => action.word
  | some m => action.word ++ ":" ++ m.word

/-- The text of a directive. -/
def written (action : Action) (modifier : Option Modifier) (words : List SpacedName)
    (comment : Option String) : String :=
  marker ++ headText action modifier ++ String.ofList (SpacedName.chars words) ++
    comment.elim "" (" - " ++ ·)

/-! ### The head -/

theorem parseHead?_headText (action : Action) (modifier : Option Modifier) :
    parseHead? (headText action modifier).toList = some (action, modifier) := by
  cases modifier with
  | none => cases action <;> decide
  | some m => cases action <;> cases m <;> decide

theorem isBlank_headText (action : Action) (modifier : Option Modifier) :
    ∀ c ∈ (headText action modifier).toList, CharClass.isBlank c = false := by
  have hword : Words.IsWord (headText action modifier).toList := by
    cases modifier with
    | none => cases action <;> decide
    | some m => cases action <;> cases m <;> decide
  exact hword.2

/-- What is read behind the head and one blank: the names in front of the first ` - ` and the
comment behind it. -/
theorem parse?_of_head {text : String} {b : Char} {rest : List Char}
    {cut : Option (List Char × List Char)}
    (htext : text.toList = marker.toList ++ ((headText action modifier).toList ++ b :: rest))
    (hb : CharClass.isBlank b = true) (hcut : Words.splitAtText [' ', '-', ' '] rest = cut)
    (hrules : (parseRules (cut.elim rest (·.1))).isEmpty = false) (offset : Nat)
    (line : OneIndexed) :
    parse? text offset line = some ⟨action, modifier, parseRules (cut.elim rest (·.1)), line,
      offset, cut.map fun parts => String.ofList (Words.trim parts.2)⟩ := by
  have hmarker : (if marker.toList.isPrefixOf text.toList then text.toList.drop marker.length
      else text.toList) = (headText action modifier).toList ++ b :: rest := by
    rw [htext, if_pos (List.isPrefixOf_iff_prefix.mpr (List.prefix_append _ _))]
    exact List.drop_left
  have hhead : Words.splitAtFirst CharClass.isBlank
      ((headText action modifier).toList ++ b :: rest) =
        some ((headText action modifier).toList, rest) :=
    Words.splitAtFirst_append_cons (isBlank_headText action modifier) hb
  unfold parse?
  dsimp only
  rw [hmarker, hhead, Option.getD_some]
  dsimp only
  rw [parseHead?_headText, Option.bind_eq_bind, Option.bind_some, hcut]
  cases cut with
  | none =>
    have hrules : (parseRules rest).isEmpty = false := hrules
    dsimp only
    rw [hrules, if_neg Bool.false_ne_true]
    rfl
  | some parts =>
    have hrules : (parseRules parts.1).isEmpty = false := hrules
    dsimp only
    rw [hrules, if_neg Bool.false_ne_true]
    rfl

/-! ### The names -/

/-- The rules that are read are those of the names; an end of a comment is not one of them. -/
theorem parseRules_of_words {cs : List Char} {ends : List (List Char)}
    (h : Words.splitBlanks cs = words.map (·.name.toList) ++ ends)
    (hends : ∀ w ∈ ends, Words.trimCommentEnd w = []) :
    parseRules cs = RuleSet.ofList (SpacedName.rules words) := by
  have hnone : (ends.map Words.trimCommentEnd).filter (!·.isEmpty) = [] := by
    rw [List.filter_eq_nil_iff]
    intro w hw
    obtain ⟨v, hv, rfl⟩ := List.mem_map.mp hw
    rw [hends v hv]
    decide
  rw [parseRules, h, List.map_append, List.filter_append, SpacedName.trimCommentEnd_names,
    SpacedName.filter_names, hnone, List.append_nil, List.map_map]
  refine congrArg RuleSet.ofList (List.map_congr_left fun w _ => ?_)
  rw [Function.comp_apply, String.ofList_toList]

theorem isEmpty_rules (hwords : words ≠ []) :
    (RuleSet.ofList (SpacedName.rules words)).isEmpty = false := by
  obtain ⟨w, hw⟩ := List.exists_mem_of_ne_nil words hwords
  exact RuleSet.isEmpty_of_has (RuleSet.has_ofList.mpr (List.mem_map_of_mem hw))

/-! ### The comment -/

/-- A dash between blanks is one of the words. -/
theorem dash_mem_of_infix {cs : List Char} (h : [' ', '-', ' '] <:+: cs) :
    ['-'] ∈ Words.splitBlanks cs :=
  Words.mem_splitBlanks_of_infix (a := ' ') (b := ' ') (by decide) (by decide) (by decide) h

/-- A dash between blanks is the first one when there is none among the words in front of it. -/
theorem firstAt_dash {body : List Char} (h : ['-'] ∉ Words.splitBlanks (body ++ [' ']))
    (behind : List Char) :
    Words.FirstAt [' ', '-', ' '] (body ++ [' ', '-', ' '] ++ behind) body behind := by
  have hnot : ¬[' ', '-', ' '] <:+: body ++ [' '] := mt dash_mem_of_infix h
  refine ⟨rfl, fun front rest heq => Nat.le_of_not_lt fun hlt => hnot ?_⟩
  rw [List.append_assoc, List.append_assoc, List.append_eq_append_iff] at heq
  rcases heq with ⟨m, hfront, -⟩ | ⟨m, hbody, heq⟩
  · rw [hfront, List.length_append] at hlt
    omega
  -- `m` is what stands between the two occurrences, so it starts with a blank and a dash.
  · match m with
    | [] =>
      rw [hbody, List.append_nil] at hlt
      exact absurd hlt (Nat.lt_irrefl _)
    | [_] => simp at heq
    | [a, b] =>
      obtain ⟨rfl, rfl, -⟩ : ' ' = a ∧ '-' = b ∧ _ := by simpa using heq
      exact ⟨front, [], by simp [hbody]⟩
    | a :: b :: c :: m =>
      obtain ⟨rfl, rfl, rfl, -⟩ : ' ' = a ∧ '-' = b ∧ ' ' = c ∧ _ := by simpa using heq
      exact ⟨front, m ++ [' '], by simp [hbody]⟩

/-! ### Directives -/

/-- A directive without a comment may be followed by blanks and the end of the comment that it
stands in. -/
theorem parse?_uncommented (action : Action) (modifier : Option Modifier) {words : List SpacedName}
    (hwords : words ≠ []) {ending : String}
    (hending : ending = "" ∨ ending = " */") (offset : Nat) (line : OneIndexed) :
    parse? (written action modifier words none ++ ending) offset line =
      some ⟨action, modifier, RuleSet.ofList (SpacedName.rules words), line, offset, none⟩ := by
  obtain ⟨b, body, hchars, hb⟩ := SpacedName.exists_cons_of_ne_nil hwords
  have hblank : ∀ c ∈ ending.toList.head?, CharClass.isBlank c = true := by
    rcases hending with rfl | rfl
    · nofun
    · rintro c ⟨⟩
      decide
  have hends : Words.splitBlanks ending.toList = [] ∨
      Words.splitBlanks ending.toList = [['*', '/']] := by
    rcases hending with rfl | rfl
    · exact .inl (by decide)
    · exact .inr (by decide)
  have htrim : ∀ w ∈ Words.splitBlanks ending.toList, Words.trimCommentEnd w = [] := by
    intro w hw
    rcases hends with hnil | hend
    · rw [hnil] at hw
      cases hw
    · rw [hend, List.mem_singleton] at hw
      rw [hw]
      decide
  have hsplit := SpacedName.splitBlanks_body_append hchars hb hblank
  -- no dash stands alone among the words, so no comment starts
  have hdash : Words.splitAtText [' ', '-', ' '] (body ++ ending.toList) = none := by
    rw [Words.splitAtText_eq_none_iff]
    intro hinfix
    have hmem := dash_mem_of_infix hinfix
    rw [hsplit] at hmem
    rcases List.mem_append.mp hmem with h | h
    · exact SpacedName.dash_not_mem h
    · rcases hends with hnil | hend
      · rw [hnil] at h
        cases h
      · rw [hend] at h
        simp at h
  have hrules := parseRules_of_words hsplit htrim
  have htext : (written action modifier words none ++ ending).toList = marker.toList ++
      ((headText action modifier).toList ++ b :: (body ++ ending.toList)) := by
    simp [written, hchars]
  rw [← hrules]
  refine parse?_of_head htext hb hdash ?_ offset line
  show (parseRules (body ++ ending.toList)).isEmpty = false
  rw [hrules, isEmpty_rules hwords]

/-- A comment behind the names is read without the blanks around it. -/
theorem parse?_commented (action : Action) (modifier : Option Modifier) {words : List SpacedName}
    (hwords : words ≠ []) (comment : String) (offset : Nat) (line : OneIndexed) :
    parse? (written action modifier words (some comment)) offset line =
      some ⟨action, modifier, RuleSet.ofList (SpacedName.rules words), line, offset,
        some (Words.trimText comment)⟩ := by
  obtain ⟨b, body, hchars, hb⟩ := SpacedName.exists_cons_of_ne_nil hwords
  have hdash : Words.splitAtText [' ', '-', ' '] (body ++ [' ', '-', ' '] ++ comment.toList) =
      some (body, comment.toList) := by
    rw [Words.splitAtText_eq_some_iff]
    refine firstAt_dash ?_ comment.toList
    have hblank : ∀ c ∈ [' '].head?, CharClass.isBlank c = true := by
      rintro c ⟨⟩
      decide
    rw [SpacedName.splitBlanks_body_append hchars hb hblank]
    intro hmem
    rcases List.mem_append.mp hmem with h | h
    · exact SpacedName.dash_not_mem h
    · cases h
  have hrules : parseRules body = RuleSet.ofList (SpacedName.rules words) := by
    have hsplit : Words.splitBlanks (body ++ []) = words.map (·.name.toList) ++ [] :=
      SpacedName.splitBlanks_body_append hchars hb nofun
    rw [List.append_nil body] at hsplit
    exact parseRules_of_words hsplit nofun
  have htext : (written action modifier words (some comment)).toList = marker.toList ++
      ((headText action modifier).toList ++ b :: (body ++ [' ', '-', ' '] ++ comment.toList)) := by
    simp [written, hchars]
  rw [← hrules]
  refine parse?_of_head htext hb hdash ?_ offset line
  show (parseRules body).isEmpty = false
  rw [hrules, isEmpty_rules hwords]

/-- **Reading undoes writing.**  A directive that names at least one rule is read with its action,
its modifier, exactly the rules it names and its comment.  The name `all` is the wildcard.  Without
a comment, an end of the surrounding comment behind the names changes nothing. -/
theorem parse?_written (action : Action) (modifier : Option Modifier) {words : List SpacedName}
    (hwords : words ≠ []) {comment : Option String}
    (hcomment : ∀ c ∈ comment, Words.trimText c = c) (offset : Nat) (line : OneIndexed) :
    (∃ rules : RuleSet, parse? (written action modifier words comment) offset line =
        some ⟨action, modifier, rules, line, offset, comment⟩ ∧
      (rules.all = true ↔ ∃ w ∈ words, w.name = "all") ∧
      (∀ n, n ∈ rules.names ↔ n ≠ "all" ∧ ∃ w ∈ words, w.name = n) ∧
      rules.names.Pairwise (· < ·)) ∧
    (comment = none → parse? (written action modifier words none ++ " */") offset line =
      parse? (written action modifier words none) offset line) := by
  have hplain := parse?_uncommented action modifier hwords (.inl rfl) offset line
  rw [String.append_empty] at hplain
  refine ⟨⟨RuleSet.ofList (SpacedName.rules words), ?_, ?_, ?_,
    RuleSet.pairwise_names_ofList _⟩, fun _ => ?_⟩
  · cases comment with
    | none => exact hplain
    | some c => rw [parse?_commented action modifier hwords, hcomment c rfl]
  · show (RuleSet.ofList (SpacedName.rules words)).has .all = true ↔ _
    rw [RuleSet.has_ofList, SpacedName.rules, List.mem_map]
    refine exists_congr fun w => and_congr_right fun _ => ?_
    simp [RuleName.ofString]
  · intro n
    have hhas : n ∈ (RuleSet.ofList (SpacedName.rules words)).names ↔
        .named n ∈ SpacedName.rules words := by
      rw [← RuleSet.has_ofList, RuleSet.has, List.contains_iff_mem]
    rw [hhas, SpacedName.rules, List.mem_map]
    constructor
    · rintro ⟨w, hw, hn⟩
      rw [RuleName.ofString] at hn
      split at hn
      · cases hn
      · rename_i hall
        cases hn
        exact ⟨by simpa using hall, w, hw, rfl⟩
    · rintro ⟨hall, w, hw, rfl⟩
      exact ⟨w, hw, by simp [RuleName.ofString, hall]⟩
  · rw [parse?_uncommented action modifier hwords (.inr rfl), hplain]

/-- Names with dashes and colons behind blanks of two kinds, and a comment with a dash of its own. -/
theorem parse?_written_dashes :
    let words : List SpacedName :=
      [⟨" ", "a-b", by decide, by decide, by decide, by decide⟩,
        ⟨"\t ", "all", by decide, by decide, by decide, by decide⟩,
        ⟨"\n", "-c:d", by decide, by decide, by decide, by decide⟩]
    words ≠ [] ∧ (∀ c ∈ some "known - safe", Words.trimText c = c) ∧
      (written .disable (some .next) words (some "known - safe") =
        "swiftlint:disable:next a-b\t all\n-c:d - known - safe") ∧
      ∃ rules : RuleSet, parse? (written .disable (some .next) words (some "known - safe")) 3 .one =
          some ⟨.disable, some .next, rules, .one, 3, some "known - safe"⟩ ∧
        rules.all = true ∧ rules.names.Pairwise (· < ·) := by
  intro words
  have hwords : words ≠ [] := List.cons_ne_nil _ _
  have hcomment : ∀ c ∈ some "known - safe", Words.trimText c = c := by decide
  obtain ⟨⟨rules, hparse, hall, -, hnames⟩, -⟩ :=
    parse?_written .disable (some .next) hwords hcomment 3 .one
  exact ⟨hwords, hcomment, by decide, rules, hparse, hall.mpr ⟨words[1], by simp [words], rfl⟩,
    hnames⟩

end Command

end SwiftTidy
