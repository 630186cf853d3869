import SwiftTidy.Parse.Statement

/-!
# Source files

The productions are stacked up to levels here, and a whole source is read into a syntax tree.
The tree is lossless: its text is the source, byte for byte.
-/

namespace SwiftTidy

namespace Grammar

/-- One unfolding of every nonterminal over the level below. -/
def unfold (r : Level) : Nonterminal → Grammar
  | .type => type r
  | .expression ρ => expression r ρ
  | .operand ρ => operand r ρ
  | .ifExpr => ifExpr r
  | .pattern => pattern r
  | .bindingPattern => bindingPattern r
  | .codeBlockItem => codeBlockItem r

/-- How a nonterminal is read when at most `depth` of them are nested in each other. -/
def nonterminal : (depth : Nat) → Nonterminal → Grammar
  | 0, _ => fail fun s => ⟨s.position, .tooDeep⟩
  | depth + 1, p => ⟨fun s => (unfold ⟨depth, nonterminal depth⟩ p).run s⟩

/-- The level that reads nonterminals to the given depth. -/
def level (depth : Nat) : Level := ⟨depth, nonterminal depth⟩

/-- The statements of a file, up to its end. -/
def fileItems (r : Level) : Grammar :=
  repeated (fun s =>
    if s.isAt .endOfFile then none
    else if s.isAt .rightBrace then some (fail fun s => ⟨s.position, .unexpectedBrace⟩)
    else some r.codeBlockItem) r.bound

/-- A whole file: its statements and the end-of-file token. -/
def sourceFile (r : Level) : Grammar :=
  node .sourceFile (fileItems r ++ peek fun s => emit [.token s.endOfFile])

end Grammar

/-- Sources beyond this many bytes are not read: offsets are counted in 32 bits. -/
def maxSourceLength : Nat := 0xffffffff

/-- The depth that suffices for a text of the given length.  At most four nonterminals in a row
are entered before one of them reads a token. -/
def depthFor (length : Nat) : Nat := 5 * (length + 1)

/-- Reads a source into its syntax tree. -/
def parse (source : String) : Except ParseError Element := do
  if maxSourceLength < source.utf8ByteSize then
    throw ⟨0, .tooLarge⟩
  let ts ← Lexer.tokens source
  let r := Grammar.level (depthFor source.utf8ByteSize)
  match (Grammar.sourceFile r).run ⟨0, ts.pending, ts.endOfFile⟩ with
  | .error e => throw e
  | .ok (es, _) => return es.headD (.node .sourceFile [])

end SwiftTidy
