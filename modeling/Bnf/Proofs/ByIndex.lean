import Bnf.Grammar.Parse
import Bnf.Proofs.ByOffset
import Bnf.Proofs.Checked

/-!
# Reading a grammar with checks

All that is done with a text once more, from its characters to its grammar, and to the place of its
error if it has one. Tokens are read by offsets. They are looked at by their index, and the name of
a rule is cut out of the text again wherever a token is one. Each step may fail a check: if it is to
look behind the end of the tokens, if a name is not cut out between characters, if the rule that is
being read has no name, if there are too many open groups or identities to be counted with 32 bits,
or if a function on grammars comes to a number that is out of range.

## Main definitions

- `Checking` — a computation on a draft that gives nothing if a check fails
- `ByIndex.run` — reading tokens by index
- `Grammar.read?` — reading a text
- `Location.ofOffset?` — the line and column of an offset
-/

namespace Bnf

/-- A computation on a draft that gives nothing if a check fails. -/
abbrev Checking :=
  OptionT Drafting

namespace Checking

variable {α : Type}

/-- What was looked up, if it was there. -/
def found (a : Option α) : Checking α :=
  OptionT.mk (pure a)

def ensure (condition : Prop) [Decidable condition] : Checking Unit :=
  found (if condition then some () else none)

end Checking

open Checking Drafting

/-- A token as it stands in the text: the name of a rule is cut out of it. -/
def Token.cut? (source : String) (token : Token) : Option Token :=
  match token.kind with
  | .name _ => do return ⟨.name (← token.span.slice? source), token.span⟩
  | _ => some token

/-! ## The machine -/

/-- The rule with the name of its identity, if that has one and the open groups can be counted. -/
def OpenRule.checked? (r : OpenRule) (symbols : SymbolTable) : Option OpenRule := do
  let name ← symbols.name? r.id
  if r.groups.length < offsetBound then return { r with name := name } else none

def Place.checked? (place : Place) (symbols : SymbolTable) : Option Place :=
  match place with
  | .inside r => do return .inside (← r.checked? symbols)
  | .below r => do return .below (← r.checked? symbols)
  | other => some other

namespace ByIndex

/-- The token at an index. Behind the last one there is the end of the text, and nothing more. -/
def tokenAt? (tokens : Array Token) (index : Nat) : Option (Option Token) :=
  if index ≤ tokens.size then some tokens[index]? else none

/-- **Reads the tokens from an index on.** -/
def run (source : String) (options : ParseOptions) (stop : Nat) (tokens : Array Token) (index : Nat)
    (place : Place) : Checking Unit := do
  let symbols := (← get).symbols
  ensure (symbols.size ≤ RuleId.bound)
  let place ← found (place.checked? symbols)
  if h : index < tokens.size then
    let token ← found (tokens[index].cut? source)
    let next ← found (tokenAt? tokens (index + 1))
    let place ← place.step options token (next.map (·.kind))
    run source options stop tokens (index + 1) place
  else do
    ensure (index = tokens.size)
    place.finish stop
termination_by tokens.size - index

end ByIndex

/-! ## Completing a draft -/

/-- Where a rule is said to be left recursive, if it exists and is mentioned somewhere. -/
def Grammar.blame? (g : Grammar) (id : RuleId) : Option Nat := do
  match ← g.rule? id with
  | ⟨.defined span, _⟩ => return span.start
  | ⟨.helper _, _⟩ => return (← g.symbols.mention? id).start

namespace Checking

def checkLeftRecursion (options : ParseOptions) (g : Grammar) : Checking Unit := do
  match options.leftRecursion with
  | .allow => return
  | .warn =>
    (← found g.leftRecursive?).forM fun id => do
      report (.leftRecursive (← found (g.symbols.name? id)))
  | .reject =>
    match ← found g.leftRecursive? with
    | [] => return
    | id :: _ => fail (.leftRecursion (← found (g.symbols.name? id))) (← found (g.blame? id))

def complete (options : ParseOptions) (stop : Nat) : Checking Grammar := do
  match (← get).grammar options stop with
  | .error e => (throw e : Drafting Grammar)
  | .ok g =>
    checkLeftRecursion options g
    (← found g.unreachable?).forM fun id => do
      report (.unreachable (← found (g.symbols.name? id)) (← found (g.symbols.name? g.root)))
    report (.grammarRead g.size (g.rules.toList.countP Rule.isHelper)
      (← found (g.symbols.name? g.root)))
    return g

end Checking

/-- Reads the tokens of a text into a grammar. -/
def ByIndex.ofTokens (source : String) (options : ParseOptions) (tokens : Array Token) :
    Checking Grammar := do
  ByIndex.run source options (byteLength source.toList) tokens 0 .between
  Checking.complete options (byteLength source.toList)

/-- **Reads a text** with checks. -/
def Grammar.read? (source : String) (options : ParseOptions) : Option Reading := do
  match ← ByOffset.tokenize source with
  | .error e => return ⟨#[], .error e⟩
  | .ok tokens =>
    let symbols := SymbolTable.ofTokens (← tokens.mapM (Token.cut? source))
    match (ByIndex.ofTokens source options tokens.toArray).run (.ofSymbols symbols) with
    | .ok (some g) draft => return ⟨draft.events, .ok g⟩
    | .ok none _ => none
    | .error e draft => return ⟨draft.events, .error e⟩

/-! ## Places of errors -/

/-- The last line that starts at an offset or before. -/
def LineMap.lineAt? (m : LineMap) (offset : Nat) : Option (Nat × Line) :=
  let reached := m.lines.takeWhile (·.start ≤ offset)
  match reached.getLast? with
  | some line => some (reached.length - 1, line)
  | none => none

/-- The location of a byte offset. Lines must start at 32-bit numbers, what stands before the offset
    on its line must be a part of the text whose length is such a number, and so must be the line
    and the column when one has been added to them. -/
def Location.ofOffset? (text : String) (offset : Nat) : Option Location := do
  let map := LineMap.ofString text
  let before := byteLength (takeBytes offset map.chars)
  let (number, line) ← map.lineAt? before
  let beginning ← Span.slice? ⟨line.start, before⟩ text
  if (∀ line ∈ map.lines, line.start < offsetBound) ∧ byteLength beginning.toList < offsetBound ∧
      number + 1 < offsetBound ∧ beginning.toList.length + 1 < offsetBound then
    return ⟨min offset map.size, number + 1, beginning.toList.length + 1⟩
  else none

end Bnf
