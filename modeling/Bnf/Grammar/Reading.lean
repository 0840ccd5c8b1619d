import Bnf.Grammar.Draft

/-!
# Reading the tokens of a grammar

The tokens are read one by one, from left to right, by a machine that remembers where it is: between
rules, behind the name of a rule, or inside a rule with a stack of open groups. A term is held back
until the next token shows whether it is repeated. The only token that is looked at before its turn
is the one behind a name, since the name of the next rule ends a rule.

A line break ends a rule, except inside parentheses, before the first term of an alternative, and
where the next token that is no line break is a bar.

## Main definitions

- `Place` — where the machine is
- `Place.step` — what it does with a token
- `Place.finish` — what it does at the end of the text
- `Place.run` — reading all tokens
-/

namespace Bnf

open Drafting

/-- Symbols that a repetition operator may still apply to, and the span they are written in. -/
structure Term where
  symbols : Body
  span : Span

/-- Alternatives of which the last one is being read. -/
structure Alternatives where
  /-- The alternatives that are complete, in order. -/
  complete : List Body
  /-- The symbols of the last alternative, as far as it has been read. -/
  body : Body
  /-- Whether the last alternative has a term. -/
  hasTerm : Bool

namespace Alternatives

/-- The alternatives of which nothing has been read. -/
def empty : Alternatives :=
  ⟨[], [], false⟩

/-- Adds the symbols of a term to the last alternative. -/
def append (a : Alternatives) (symbols : Body) : Alternatives :=
  ⟨a.complete, a.body ++ symbols, true⟩

/-- Completes the last alternative and starts another. -/
def next (a : Alternatives) : Alternatives :=
  ⟨a.complete ++ [a.body], [], false⟩

/-- All alternatives, with the last one as it is. -/
def toList (a : Alternatives) : List Body :=
  a.complete ++ [a.body]

end Alternatives

/-- A group that has been opened and not closed. -/
structure OpenGroup where
  /-- The span of the opening parenthesis. -/
  span : Span
  /-- The alternatives that the group is part of. -/
  outer : Alternatives

/-- A rule that is being read. -/
structure OpenRule where
  id : RuleId
  name : String
  /-- The span of the name in front of the rule. -/
  span : Span
  /-- The groups that are open, the innermost first. -/
  groups : List OpenGroup
  /-- The alternatives that are being read, those of the innermost open group. -/
  inner : Alternatives
  /-- The last term, until it is known whether it is repeated. -/
  term : Option Term

namespace OpenRule

/-- The rule with the last term added to its alternative. -/
def settle (r : OpenRule) : OpenRule :=
  match r.term with
  | none => r
  | some term => { r with inner := r.inner.append term.symbols, term := none }

def withTerm (r : OpenRule) (symbols : Body) (span : Span) : OpenRule :=
  { r with term := some ⟨symbols, span⟩ }

def close (r : OpenRule) : Drafting Unit := do
  report (.ruleRead r.name r.inner.toList.length)
  define r.id ⟨.defined r.span, r.inner.toList⟩

def applyOperator (options : ParseOptions) (r : OpenRule) (term : Term) (bounds : Bounds)
    (span : Span) : Drafting OpenRule :=
  if term.symbols.isEmpty then
    fail .emptyRepetition span.start
  else if bounds.isInverted then
    fail (.invertedBounds bounds.min bounds.count) span.start
  else if options.maxRepetition.toNat < bounds.count then
    fail (.repetitionTooLarge bounds.count options.maxRepetition.toNat) span.start
  else do
    let symbols ← repeated r.name (term.span.join span) term.symbols bounds
    return { r with inner := r.inner.append symbols, term := none }

/-- Stops unless the last alternative has a term. -/
def requireTerm (r : OpenRule) (offset : Nat) : Drafting Unit :=
  if r.inner.hasTerm then return else fail .emptyAlternative offset

def requireClosed (r : OpenRule) : Drafting Unit :=
  match r.groups with
  | [] => return
  | group :: _ => fail .unclosedGroup group.span.start

/-- Opens a group with the parenthesis at `span`. -/
def openGroup (options : ParseOptions) (r : OpenRule) (span : Span) : Drafting OpenRule :=
  if options.maxNesting.toNat ≤ r.groups.length then
    fail (.nestingTooDeep options.maxNesting.toNat) span.start
  else
    return { r with groups := ⟨span, r.inner⟩ :: r.groups, inner := .empty }

/-- Closes the innermost group with the parenthesis at `span`. The group is the next term. -/
def closeGroup (r : OpenRule) (span : Span) : Drafting OpenRule :=
  match r.groups with
  | [] => fail .unmatchedParen span.start
  | group :: groups => do
    r.requireTerm span.start
    let symbols ← grouped r.name (group.span.join span) r.inner.toList
    return { r with groups := groups, inner := group.outer }.withTerm symbols
      (group.span.join span)

end OpenRule

/-- Where the machine is. -/
inductive Place where
  /-- Before a rule, or behind the last one. -/
  | between
  /-- Behind the name of a rule. -/
  | named (name : String) (span : Span)
  /-- Inside a rule. -/
  | inside (rule : OpenRule)
  /-- Behind a line break that ends a rule, unless the rule goes on with a bar. -/
  | below (rule : OpenRule)

def requireAllowed (options : ParseOptions) (name : String) (span : Span) : Drafting Unit :=
  if !options.allowReservedNames && isReserved name then fail (.reservedName name) span.start
  else return

namespace OpenRule

/-- Reads a token that is no operator on the last term, which has been settled. The token behind it
    is `next`. -/
def read (options : ParseOptions) (r : OpenRule) (token : Token) (next : Option TokenKind) :
    Drafting Place :=
  match token.kind with
  | .newline =>
    return if r.groups.isEmpty && r.inner.hasTerm then .below r else .inside r
  | .bar => do
    r.requireTerm token.span.start
    return .inside { r with inner := r.inner.next }
  | .openParen => return .inside (← r.openGroup options token.span)
  | .closeParen => return .inside (← r.closeGroup token.span)
  | .literal chars =>
    return .inside (r.withTerm (chars.map fun c => .chars (.single c)) token.span)
  | .set set => return .inside (r.withTerm [.chars set] token.span)
  | .any => return .inside (r.withTerm [.chars .any] token.span)
  | .name name =>
    if next = some .define then do
      r.requireTerm token.span.start
      r.requireClosed
      r.close
      fail (.trailingInput token.kind.describe) token.span.start
    else do
      requireAllowed options name token.span
      let id ← mention name token.span
      return .inside (r.withTerm [.rule id] token.span)
  | .define | .question | .star | .plus | .counts _ =>
    fail (.expectedTerm token.kind.describe) token.span.start

def step (options : ParseOptions) (r : OpenRule) (token : Token) (next : Option TokenKind) :
    Drafting Place :=
  match r.term, token.kind.bounds? with
  | some term, some bounds => return .inside (← r.applyOperator options term bounds token.span)
  | _, _ => r.settle.read options token next

end OpenRule

namespace Place

def startRule (options : ParseOptions) (token : Token) : Drafting Place :=
  match token.kind with
  | .name name => do
    requireAllowed options name token.span
    return .named name token.span
  | kind => fail (.expectedRuleName kind.describe) token.span.start

/-- Starts the rule `name`, unless it is complete already. -/
def enterRule (name : String) (span : Span) : Drafting Place := do
  let id ← mention name span
  let draft ← get
  if (draft.rule? id).isSome then
    fail (.duplicateRule name) span.start
  else
    set { draft with first? := draft.first? <|> some id }
    return .inside ⟨id, name, span, [], .empty, none⟩

def defineRule (name : String) (span : Span) (token : Token) : Drafting Place :=
  if token.kind = .define then enterRule name span
  else fail (.expectedDefine name token.kind.describe) token.span.start

/-- **Reads one token.** The kind of the token behind it is `next`. -/
def step (options : ParseOptions) (place : Place) (token : Token) (next : Option TokenKind) :
    Drafting Place :=
  match place with
  | .between => if token.kind = .newline then return .between else startRule options token
  | .named name span => defineRule name span token
  | .inside rule => rule.step options token next
  | .below rule =>
    match token.kind with
    | .newline => return .below rule
    | .bar => return .inside { rule with inner := rule.inner.next }
    | _ => do
      rule.close
      startRule options token

def finish (place : Place) (stop : Nat) : Drafting Unit :=
  match place with
  | .between => return
  | .named name _ => fail (.expectedDefine name "end of input") stop
  | .inside rule => do
    rule.settle.requireTerm stop
    rule.requireClosed
    rule.settle.close
  | .below rule => rule.close

/-- **Reads all tokens** of a text with `stop` bytes. -/
def run (options : ParseOptions) (stop : Nat) : Place → List Token → Drafting Unit
  | place, [] => place.finish stop
  | place, token :: rest => do
    run options stop (← place.step options token (rest.head?.map (·.kind))) rest

end Place

end Bnf
