import Bnf.Grammar.Analysis
import Bnf.Grammar.Reading
import Bnf.Token.Lexer

/-!
# From a text to a grammar

A text is cut into tokens, the tokens are read into a draft, and the draft is completed: all names
that were mentioned must have a rule, the root must exist, and left recursion must be allowed if
there is any.

## Main definitions

- `Draft.complete` — the grammar of a draft
- `Grammar.read` — the grammar of a text, with all that was reported about it
- `Grammar.parse` — the grammar of a text
-/

namespace Bnf

open Drafting

/-- The symbol table before the first token is read. Names of the text that a helper rule could have
    are kept free, so that no helper takes the name of a rule that is mentioned later. -/
def SymbolTable.ofTokens (tokens : List Token) : SymbolTable :=
  tokens.foldl (fun table token =>
    match token.kind with
    | .name name => if isReserved name then table.reserve name else table
    | _ => table) .empty

namespace Draft

/-- The rules of the identities from `id` on, whose names are given. Stops at the first identity
    without a rule, where its name is first mentioned. -/
def rulesFrom (d : Draft) : (id : RuleId) → List SymbolEntry → Except ParseError (List Rule)
  | _, [] => .ok []
  | id, entry :: entries =>
    match d.rule? id with
    | none => .error ⟨.undefinedRule entry.name, entry.mention.start⟩
    | some rule => (d.rulesFrom (id + 1) entries).map (rule :: ·)

def rules (d : Draft) : Except ParseError (List Rule) :=
  d.rulesFrom 0 d.symbols.entries.toList

/-- The root: the rule that the options name, else the first one. -/
def root (d : Draft) (options : ParseOptions) (first : RuleId) : Except ParseError RuleId :=
  match options.root with
  | none => .ok first
  | some name =>
    match d.symbols.find? name with
    | some id => .ok id
    | none => .error ⟨.grammar (.missingRoot name), 0⟩

/-- The grammar of a draft, before it has been looked at as a whole. The text ends at `stop`. -/
def grammar (d : Draft) (options : ParseOptions) (stop : Nat) : Except ParseError Grammar :=
  match d.first? with
  | none => .error ⟨.grammar .noRules, stop⟩
  | some first => do
    let rules ← d.rules
    let root ← d.root options first
    return ⟨d.symbols, rules.toArray, root⟩

end Draft

/-- Where a rule is said to be left recursive: at its definition, or for a helper at the part of the
    source it was made for. -/
def Grammar.blame (g : Grammar) (id : RuleId) : Nat :=
  match g.rule? id with
  | some ⟨.defined span, _⟩ => span.start
  | _ => ((g.symbols.mention? id).map (·.start)).getD 0

/-- Does about left recursive rules what the options say. -/
def Drafting.checkLeftRecursion (options : ParseOptions) (g : Grammar) : Drafting Unit :=
  match options.leftRecursion with
  | .allow => return
  | .warn => g.leftRecursive.forM fun id => report (.leftRecursive (g.name id))
  | .reject =>
    match g.leftRecursive with
    | [] => return
    | id :: _ => fail (.leftRecursion (g.name id)) (g.blame id)

/-- Completes a draft after the last token of a text with `stop` bytes. -/
def Drafting.complete (options : ParseOptions) (stop : Nat) : Drafting Grammar := do
  match (← get).grammar options stop with
  | .error e => throw e
  | .ok g =>
    checkLeftRecursion options g
    g.unreachable.forM fun id => report (.unreachable (g.name id) (g.name g.root))
    report (.grammarRead g.size (g.rules.toList.countP Rule.isHelper) (g.name g.root))
    return g

/-- Reads the tokens of a text with `stop` bytes into a grammar. -/
def Drafting.ofTokens (options : ParseOptions) (stop : Nat) (tokens : List Token) :
    Drafting Grammar := do
  Place.run options stop .between tokens
  complete options stop

/-- What came of reading a text: all reports, and a grammar or an error. -/
structure Reading where
  events : Array Event
  result : Except ParseError Grammar

namespace Grammar

/-- **Reads a text**, and tells all that was reported about it. -/
def read (source : String) (options : ParseOptions) : Reading :=
  match tokenize source with
  | .error e => ⟨#[], .error e⟩
  | .ok tokens =>
    match Drafting.ofTokens options (byteLength source.toList) tokens
        (.ofSymbols (.ofTokens tokens)) with
    | .ok g draft => ⟨draft.events, .ok g⟩
    | .error e draft => ⟨draft.events, .error e⟩

/-- **The grammar of a text**, or why it has none. -/
def parse (source : String) (options : ParseOptions := {}) : Except ParseError Grammar :=
  (read source options).result

/-- A text that has a byte without an offset has no grammar under any options. -/
theorem parse_of_le {source : String} (hsize : offsetBound ≤ byteLength source.toList)
    (options : ParseOptions) : parse source options =
      .error ⟨.lexical (.sourceTooLarge (byteLength source.toList)), 0⟩ := by
  rw [parse, read, tokenize_of_le hsize]
  rfl

/-- A text that has a grammar has an offset for each of its bytes. -/
theorem lt_of_parse {source : String} {options : ParseOptions} {g : Grammar}
    (h : parse source options = .ok g) : byteLength source.toList < offsetBound := by
  refine Nat.lt_of_not_le fun hsize => ?_
  rw [parse_of_le hsize] at h
  cases h

end Grammar

end Bnf
