import Bnf.Event
import Bnf.Fault
import Bnf.Options
import Bnf.Token

/-!
# Grammars under construction

A draft is a grammar of which only a part has been read: names may have been mentioned whose rules
are still to come. All that a reader does to a draft is here: it mentions a name, defines a rule, or
writes a repetition out by means of helper rules. Each of them may report events, which stay even if
the text is refused later.

## Main definitions

- `Draft` — a grammar under construction
- `Drafting` — a computation on a draft that may stop with an error
- `Drafting.repeated` — a repetition, written out
-/

namespace Bnf

/-- A grammar under construction. -/
structure Draft where
  symbols : SymbolTable
  /-- The rules that are complete, the last one first. -/
  definitions : List (RuleId × Rule)
  first? : Option RuleId
  events : Array Event

namespace Draft

/-- The draft of a text from which nothing has been read. -/
def ofSymbols (symbols : SymbolTable) : Draft :=
  ⟨symbols, [], none, #[]⟩

def rule? (d : Draft) (id : RuleId) : Option Rule :=
  d.definitions.lookup id

end Draft

/-- A computation on a draft that may stop with an error. The draft up to the error is kept. -/
abbrev Drafting := EStateM ParseError Draft

namespace Drafting

def fail {α : Type} (fault : GrammarFault) (offset : Nat) : Drafting α :=
  throw ⟨.grammar fault, offset⟩

def report (event : Event) : Drafting Unit :=
  modify fun d => { d with events := d.events.push event }

/-- The identity of a name that is mentioned in the source. -/
def mention (name : String) (span : Span) : Drafting RuleId :=
  modifyGet fun d =>
    let (id, symbols) := d.symbols.intern name span
    (id, { d with symbols := symbols })

/-- A new identity for a helper of the rule `owner`, made for the part of the source at `span`. -/
def newHelper (owner : String) (span : Span) : Drafting RuleId :=
  modifyGet fun d =>
    let (id, symbols) := d.symbols.generate owner span
    (id, { d with symbols := symbols })

/-- New identities for several helpers of the rule `owner`. -/
def newHelpers (owner : String) (span : Span) : (count : Nat) → Drafting (List RuleId)
  | 0 => return []
  | count + 1 => return (← newHelper owner span) :: (← newHelpers owner span count)

def define (id : RuleId) (rule : Rule) : Drafting Unit :=
  modify fun d => { d with definitions := (id, rule) :: d.definitions }

def defineHelper (id : RuleId) (kind : HelperKind) (alternatives : List Body) : Drafting Unit := do
  report (.helperMade kind (((← get).symbols.name? id).getD ""))
  define id ⟨.helper kind, alternatives⟩

/-- Completes a chain of helper rules: each stands for the body, followed by the next helper of the
    chain, or for nothing. -/
def defineChain (body : Body) : List RuleId → Drafting Unit
  | [] => return
  | id :: rest => do
    defineHelper id .optional [body ++ (rest.head?.map Symbol.rule).toList, []]
    defineChain body rest

/-- **A repetition, written out.** The body comes as often as the least count says. What may follow
    is left to helper rules: without a greatest count to one that stands for the body and itself
    again, or nothing; else to a chain of as many helpers as the counts are apart. -/
def repeated (owner : String) (span : Span) (body : Body) (bounds : Bounds) : Drafting Body := do
  let copies := (List.replicate bounds.min body).flatten
  match bounds.max with
  | none =>
    let id ← newHelper owner span
    defineHelper id .repetition [body ++ [.rule id], []]
    return copies ++ [.rule id]
  | some max =>
    let chain ← newHelpers owner span (max - bounds.min)
    defineChain body chain
    return copies ++ (chain.head?.map Symbol.rule).toList

/-- The symbols of a group. One alternative needs no rule of its own; several become a helper. -/
def grouped (owner : String) (span : Span) : (alternatives : List Body) → Drafting Body
  | [body] => return body
  | alternatives => do
    let id ← newHelper owner span
    defineHelper id .group alternatives
    return [.rule id]

end Drafting

end Bnf
