import SwiftTidy.Proofs.Lint.Building
import SwiftTidy.Proofs.Rules.CheckedEdits
import SwiftTidy.Proofs.Rules.CheckedLines
import SwiftTidy.Proofs.Rules.CheckedSwitchCases
import SwiftTidy.Proofs.Rules.Corrections
import SwiftTidy.Proofs.Tree.Layout
import SwiftTidy.Rules.IdentifierName

/-!
# No rule fails

`builtinEntries_runAs`: in a source of less than half the bytes that 32 bits count, every rule of
this project, however it is configured, finds and corrects without a fault.

Most functions of the rules are total as they stand, so what is shown is more than that they
answer.  Each rule has a checked form (`checkedEntries`), in which sums and differences of offsets,
reads by index, ranges, cuts of the source and the lengths of all nodes that are built may fail,
and this form gives the same answers.  What both read of the tree is held by its layout at every
place (`Layout.HoldsAt`).

The rule about names looks for the parameters of a closure among the tokens of its signature: it
goes through the indices, and at a name it reads the tokens in front and behind.  These reads do not
fail: at an index the tokens passed stand in front, so the index before it exists unless it is the
first, and the index behind it is only read where a token was seen there.
-/

namespace SwiftTidy

/-! ### Names of closure parameters -/

namespace IdentifierName

/-- The token at an index, which must exist. -/
def tokenAt (tokens : List Cursor) (i : Nat) : Except Fault Cursor :=
  match tokens[i]? with
  | some c => .ok c
  | none => .error .missingChild

/-- The kind of the token in front of an index; there is none in front of the first. -/
def kindBefore? (tokens : List Cursor) : (i : Nat) → Except Fault (Option SyntaxKind)
  | 0 => .ok none
  | i + 1 => return some (← tokenAt tokens i).kind

/-- The parameter that the name `c` at an index declares, with `depth` open brackets. -/
def checkedParameterAt (tokens : List Cursor) (i depth : Nat) (c : Cursor) :
    Except Fault (List Cursor) := do
  let prev ← kindBefore? tokens i
  let starts := prev.all (· == .comma) || (depth == 1 && prev == some .leftParen)
  if !starts then return []
  else
    match depth, tokens[i + 1]? with
    | 0, some next => return if [.comma, .inKw].contains next.kind then [c] else []
    | 1, some next =>
      if [.colon, .comma, .rightParen].contains next.kind then return [c]
      else if next.kind == .identifier then return [← tokenAt tokens (i + 1)]
      else return []
    | _, _ => return []

/-- The parameters among `tokens` from an index on, behind which the tokens `cs` are left. -/
def checkedParametersFrom (tokens : List Cursor) :
    (i depth : Nat) → (cs : List Cursor) → Except Fault (List Cursor)
  | _, _, [] => .ok []
  | i, depth, c :: cs =>
    match c.kind with
    | .leftParen | .leftBracket => checkedParametersFrom tokens (i + 1) (depth + 1) cs
    | .rightParen | .rightBracket => checkedParametersFrom tokens (i + 1) (depth - 1) cs
    | .arrow | .inKw => .ok []
    | .identifier => do
      let here ← checkedParameterAt tokens i depth c
      return here ++ (← checkedParametersFrom tokens (i + 1) depth cs)
    | _ => checkedParametersFrom tokens (i + 1) depth cs

/-- The violations at a node, with the parameters of a closure read by their indices. -/
def checkedCheck (o : Options) (c : Cursor) : Except Fault (List Violation) :=
  match c.kind with
  | .closureSignature => do
    let tokens := c.children.filter (·.isToken)
    let names ← checkedParametersFrom tokens 0 0 tokens
    return names.filterMap fun name => checkVariable o name (dropFirst '$' name.text) none
  | _ => .ok (check o c)

/-- The rule with tokens read by their indices. -/
def checkedRule (o : Options) : Rule :=
  { rule o with find := fun ctx => return (← ctx.root.postorder.mapM (checkedCheck o)).flatten }

/-- The rule with tokens read by their indices, before it is configured. -/
def checkedEntry : RuleEntry :=
  ⟨description, fun v => (Options.reader.configure description.identifier {} v).map checkedRule⟩

theorem tokenAt_append (front : List Cursor) (c : Cursor) (cs : List Cursor) :
    tokenAt (front ++ c :: cs) front.length = .ok c := by
  rw [tokenAt, List.getElem?_append_right (Nat.le_refl _), Nat.sub_self]
  rfl

theorem kindBefore?_append (front cs : List Cursor) :
    kindBefore? (front ++ cs) front.length = .ok (front.getLast?.map Cursor.kind) := by
  rcases List.eq_nil_or_concat front with rfl | ⟨init, c, rfl⟩
  · rfl
  · rw [List.concat_eq_append, List.length_append, List.append_assoc, List.getLast?_concat]
    show (tokenAt (init ++ c :: cs) init.length >>= _) = _
    rw [tokenAt_append]
    rfl

/-- The parameter that the name `c` declares behind a token of kind `prev` and in front of `next?`. -/
def parameterAt (prev : Option SyntaxKind) (depth : Nat) (c : Cursor) (next? : Option Cursor) :
    List Cursor :=
  if !(prev.all (· == .comma) || (depth == 1 && prev == some .leftParen)) then []
  else
    match depth, next? with
    | 0, some next => if [.comma, .inKw].contains next.kind then [c] else []
    | 1, some next =>
      if [.colon, .comma, .rightParen].contains next.kind then [c]
      else if next.kind == .identifier then [next]
      else []
    | _, _ => []

theorem checkedParameterAt_eq (front cs : List Cursor) (c : Cursor) (depth : Nat) :
    checkedParameterAt (front ++ c :: cs) front.length depth c =
      .ok (parameterAt (front.getLast?.map Cursor.kind) depth c cs.head?) := by
  have hbehind : front.length + 1 - front.length = 0 + 1 := Nat.add_sub_cancel_left _ _
  have hnext : (front ++ c :: cs)[front.length + 1]? = cs.head? := by
    rw [List.getElem?_append_right (Nat.le_succ _), hbehind, List.getElem?_cons_succ,
      List.head?_eq_getElem?]
  have hread : ∀ next, cs.head? = some next →
      tokenAt (front ++ c :: cs) (front.length + 1) = .ok next := by
    intro next h
    rw [tokenAt, hnext, h]
  simp only [checkedParameterAt, parameterAt, kindBefore?_append, hnext, bind, Except.bind]
  split_ifs
  · rfl
  · split
    · rfl
    · next hhead _ =>
      rw [hread _ hhead]
      split_ifs <;> rfl
    · rfl

/-- Behind the tokens that were passed, every read of a token succeeds. -/
theorem checkedParametersFrom_eq (front cs : List Cursor) (depth : Nat) :
    checkedParametersFrom (front ++ cs) front.length depth cs =
      .ok (closureParametersFrom (front.getLast?.map Cursor.kind) depth cs) := by
  induction cs generalizing front depth with
  | nil => rfl
  | cons c cs ih =>
    have hlater : ∀ depth, checkedParametersFrom (front ++ c :: cs) (front.length + 1) depth cs =
        .ok (closureParametersFrom (some c.kind) depth cs) := by
      intro depth
      have hnext := ih (front ++ [c]) depth
      rwa [List.append_assoc, List.length_append, List.getLast?_concat] at hnext
    rw [checkedParametersFrom, closureParametersFrom.eq_def]
    dsimp only
    split
    case h_7 hkind =>
      simp only [hkind]
      rw [checkedParameterAt_eq]
      show (checkedParametersFrom (front ++ c :: cs) (front.length + 1) depth cs >>= _) = _
      rw [hlater, hkind]
      rfl
    all_goals simp [*]

theorem checkedCheck_eq (o : Options) (c : Cursor) : checkedCheck o c = .ok (check o c) := by
  rw [checkedCheck]
  split
  · next hkind =>
    obtain ⟨tokens, htokens⟩ : ∃ tokens, c.children.filter (·.isToken) = tokens := ⟨_, rfl⟩
    have hnames : checkedParametersFrom tokens 0 0 tokens =
        .ok (closureParametersFrom none 0 tokens) := checkedParametersFrom_eq [] tokens 0
    simp only [check, hkind, closureParameters, htokens, hnames, bind, Except.bind]
    rfl
  · rfl

theorem rule_runsAs (o : Options) (ctx : Context) : (rule o).RunsAs (checkedRule o) ctx := by
  have hfound : ctx.root.postorder.mapM (checkedCheck o) = _ :=
    Except.mapM_eq_ok fun c _ => checkedCheck_eq o c
  have hchecked : (checkedRule o).find ctx = .ok (ctx.root.postorder.flatMap (check o)) := by
    simp only [checkedRule, hfound, bind, Except.bind, List.flatMap_def]
    rfl
  exact .of_find hchecked rfl (.inl ⟨rfl, rfl⟩)

end IdentifierName

variable {source : String} {ctx : Context}

/-! ### Reading a tree -/

/-- What can be read at a place of a tree with the given text: its entry is there, as are those of
its children and of its parent; its ranges fit in 32 bits and are not inverted, and they cut out
what they should. -/
structure Layout.HoldsAt (l : Layout) (text : String) (c : Cursor) (entry : LayoutEntry) : Prop where
  found : l[l.idOf c]? = some entry
  children_lt : ∀ id ∈ entry.children, id < l.size
  parent_lt : ∀ id ∈ entry.parent, id < l.size
  fullRange : TextRange.ofLength entry.offset entry.element.fullLen = .ok c.fullRange
  range : entry.range = .ok c.range
  fullText : Text.slice text c.fullRange = .ok c.element.fullText
  ownText : Text.slice text c.range = .ok c.text

/-- The layout of a tree whose length 32 bits hold can be read at every place. -/
theorem Layout.exists_holdsAt {tree : Element} {c : Cursor} (hlen : tree.fullLen < Offset.limit)
    (hc : c ∈ (Cursor.root tree).descendants) :
    ∃ entry, (ofElement tree).HoldsAt tree.fullText c entry := by
  obtain ⟨hplaced, hroot⟩ := Cursor.isPlaced_of_mem_descendants hc
  have hgrown := isGrown_ofElement tree
  generalize ofElement tree = l at hgrown
  obtain ⟨entry, hentry, helement, hoffset⟩ := hgrown.getElem?_idOf hplaced hroot
  have hend : c.fullEnd < Offset.limit := by
    have hle := hplaced.fullEnd_le
    rw [hroot] at hle
    exact Nat.lt_of_le_of_lt hle hlen
  refine ⟨entry, hentry, fun id hid => hgrown.lt_size_of_mem_children hentry hid, ?_, ?_,
    LayoutEntry.range_eq helement.symm hoffset.symm hend, hroot ▸ hplaced.slice_fullRange,
    hroot ▸ hplaced.slice_range⟩
  · intro id hid
    rcases Nat.eq_zero_or_pos (l.idOf c) with hzero | hpos
    · obtain ⟨first, hfirst⟩ := hgrown.root
      rw [hzero, hfirst] at hentry
      cases hentry
      cases hid
    · obtain ⟨p, above, front, back, habove, -, hparent, -⟩ := hgrown.exists_parent hentry hpos
      rw [hparent] at hid
      cases hid
      exact (Array.getElem?_eq_some_iff.mp habove).1
  · rw [helement, hoffset]
    exact TextRange.ofLength_eq_ok hend

/-! ### All rules -/

namespace Registry

/-- The checked forms of the rules, in the order of `builtinEntries`.  The rules about force
unwrapping and nesting and the rule about directives take no step that can fail. -/
def checkedEntries : List RuleEntry :=
  [Colon.checkedEntry, ForceUnwrapping.entry, IdentifierName.checkedEntry, LineLength.checkedEntry,
   Nesting.entry, ReturnArrowWhitespace.checkedEntry, SortedSwitchCases.checkedEntry,
   SuperfluousDisableCommand.entry, TrailingSemicolon.checkedEntry, UnusedImport.checkedEntry,
   VerticalWhitespace.checkedEntry]

/-- With every configuration that makes a rule, the checked form makes one too, and the rule runs
through as that one does. -/
def RunsAs (entry checked : RuleEntry) (ctx : Context) : Prop :=
  checked.description = entry.description ∧
    ∀ options r, entry.create options = .ok r → ∃ q, checked.create options = .ok q ∧ r.RunsAs q ctx

/-- A rule that is made from options of type `o` runs as its checked form if it does so with all
options. -/
theorem RunsAs.of_options {α : Type} {d : RuleDescription} {make checkedMake : α → Rule}
    {read : Option Toml → Except ConfigError α} (h : ∀ o, (make o).RunsAs (checkedMake o) ctx) :
    RunsAs ⟨d, fun v => (read v).map make⟩ ⟨d, fun v => (read v).map checkedMake⟩ ctx := by
  refine ⟨rfl, fun options r hcreate => ?_⟩
  obtain ⟨o, hread, rfl⟩ := Except.map_eq_ok.mp hcreate
  exact ⟨checkedMake o, Except.map_eq_ok.mpr ⟨o, hread, rfl⟩, h o⟩

/-- **No rule fails**: in a source of less than half the bytes that 32 bits count, whatever is read
of the tree is there, and every rule with a valid configuration finds and corrects what its checked
form does, without a fault. -/
theorem builtinEntries_runAs (h : SourceUnit.ofText source = .ok ctx.unit)
    (hlen : source.utf8ByteSize < 2 ^ 31) :
    (∀ c ∈ ctx.root.descendants,
      ∃ entry, (Layout.ofElement ctx.unit.tree).HoldsAt source c entry) ∧
    List.Forall₂ (RunsAs · · ctx) builtinEntries checkedEntries := by
  have hparse := SourceUnit.parse_of_ofText h
  have hlimit : source.utf8ByteSize < Offset.limit := Nat.lt_of_lt_of_le hlen (by decide)
  refine ⟨fun c hc => ?_, ?_⟩
  · have htree : ctx.unit.tree.fullLen < Offset.limit := by rwa [fullLen_parse hparse]
    exact fullText_parse hparse ▸ Layout.exists_holdsAt htree hc
  · refine .cons ?colon <| .cons ?forceUnwrapping <| .cons ?identifierName <| .cons ?lineLength <|
      .cons ?nesting <| .cons ?returnArrow <| .cons ?switchCases <| .cons ?superfluous <|
      .cons ?semicolon <| .cons ?unusedImport <| .cons ?emptyLines .nil
    case colon => exact .of_options fun o => Colon.rule_runsAs h hlen o
    case forceUnwrapping => exact .of_options fun _ => .of_find rfl rfl (.inl ⟨rfl, rfl⟩)
    case identifierName => exact .of_options fun o => IdentifierName.rule_runsAs o ctx
    case lineLength => exact .of_options fun o => LineLength.rule_runsAs h hlimit o
    case nesting => exact .of_options fun _ => .of_find rfl rfl (.inl ⟨rfl, rfl⟩)
    case returnArrow => exact .of_options fun s => ReturnArrowWhitespace.rule_runsAs h hlen s
    case switchCases => exact .of_options fun s => SortedSwitchCases.rule_runsAs h hlen s
    case superfluous => exact .of_options fun _ => .of_find rfl rfl (.inl ⟨rfl, rfl⟩)
    case semicolon => exact .of_options fun s => TrailingSemicolon.rule_runsAs h hlen s
    case unusedImport => exact .of_options fun s => UnusedImport.rule_runsAs h hlen s
    case emptyLines => exact .of_options fun o => VerticalWhitespace.rule_runsAs h hlimit o

/-- The semicolon of a statement is dropped without a fault, and so it is with checked steps. -/
theorem builtinEntries_runAs_semicolon : ∃ ctx : Context, ∃ outcome,
    SourceUnit.ofText "a;\n" = .ok ctx.unit ∧ "a;\n".utf8ByteSize < 2 ^ 31 ∧
    (TrailingSemicolon.checkedRule .warning).buildFix? ctx = some (.ok outcome) ∧
    (TrailingSemicolon.rule .warning).fix? ctx = some (.ok outcome) := by
  have hparsed : (SourceUnit.ofText "a;\n").toOption.isSome = true := by decide +kernel
  obtain ⟨u, hu⟩ := Option.isSome_iff_exists.mp hparsed
  obtain ⟨ctx, rfl⟩ : ∃ ctx : Context, ctx.unit = u := ⟨⟨u, fun _ => none⟩, rfl⟩
  have h : SourceUnit.ofText "a;\n" = .ok ctx.unit := Except.toOption_eq_some.mp hu
  have hlen : "a;\n".utf8ByteSize < 2 ^ 31 := by decide
  obtain ⟨-, hall⟩ := builtinEntries_runAs h hlen
  simp only [builtinEntries, checkedEntries, List.forall₂_cons] at hall
  obtain ⟨-, -, -, -, -, -, -, -, ⟨-, hsemicolon⟩, -⟩ := hall
  obtain ⟨q, hq, -, hfix⟩ := hsemicolon none (TrailingSemicolon.rule .warning) rfl
  obtain rfl : TrailingSemicolon.checkedRule .warning = q := Except.ok.inj hq
  rcases hfix with ⟨-, hnone⟩ | ⟨outcome, hchecked, hplain⟩
  · cases hnone
  · exact ⟨ctx, outcome, h, hlen, hchecked, hplain⟩

end Registry

end SwiftTidy
