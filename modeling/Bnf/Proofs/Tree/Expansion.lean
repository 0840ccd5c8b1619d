import Bnf.Grammar
import Bnf.Options
import Bnf.Proofs.Tree.Parts

/-!
# Expanding a syntax tree

A syntax tree is compiled from the bottom up and from left to right. All that is passed on from part
to part is a table of names and rules. An expansion cannot fail: the checks of a reader have no part
in it.

## Main definitions

- `Tree.Table` — names and rules
- `Tree.Expanding.helpers` — new helper rules with consecutive identities
- `Tree.Expanding.repetition` — the symbols of a repeated term
- `Tree.Atom.expand`, `Tree.Term.expand`, `Tree.Rule.expand` — the expansion of a part of a tree
- `Tree.compile` — the grammar of a tree
-/

namespace Bnf

namespace SymbolTable

/-- New identities for several helpers of the rule `owner`. -/
def generateMany (t : SymbolTable) (owner : String) (span : Span) : (count : Nat) → SymbolTable
  | 0 => t
  | count + 1 => (t.generate owner span).2.generateMany owner span count

/-- The table in which no name has an identity, and those of the given names that a helper rule
    could have are kept free. -/
def keeping (names : List String) : SymbolTable :=
  names.foldl (fun t name => if isReserved name then t.reserve name else t) .empty

end SymbolTable

namespace Tree

/-- The names and rules of the part of a tree that has been expanded. -/
structure Table where
  symbols : SymbolTable
  rules : List (RuleId × Bnf.Rule)

namespace Table

/-- The rule of an identity, if there is one yet. -/
def rule? (t : Table) (id : RuleId) : Option Bnf.Rule :=
  t.rules.lookup id

/-- Mentions a name. -/
def mention (t : Table) (name : String) (span : Span) : RuleId × Table :=
  ((t.symbols.intern name span).1, { t with symbols := (t.symbols.intern name span).2 })

/-- Adds the rule of an identity. -/
def define (t : Table) (id : RuleId) (rule : Bnf.Rule) : Table :=
  { t with rules := (id, rule) :: t.rules }

/-- Adds helper rules under the next identities. The alternatives of each are told by its
    identity. -/
def addHelpers (t : Table) (kind : HelperKind) (owner : String) (span : Span) (count : Nat)
    (alternatives : RuleId → List Body) : Table where
  symbols := t.symbols.generateMany owner span count
  rules :=
    ((List.range' t.symbols.size count).map fun id =>
      (id, ⟨.helper kind, alternatives id⟩)).reverse ++ t.rules

end Table

/-- A computation that passes a table on. -/
abbrev Expanding := StateM Table

namespace Expanding

/-- The identity of a name. -/
def mention (name : String) (span : Span) : Expanding RuleId :=
  modifyGet fun t => t.mention name span

/-- Adds the rule of an identity. -/
def define (id : RuleId) (rule : Bnf.Rule) : Expanding Unit :=
  modify fun t => t.define id rule

/-- Adds helper rules with consecutive identities and gives the first of these. The alternatives of
    each are told by the first identity and by its own. -/
def helpers (kind : HelperKind) (owner : String) (span : Span) (count : Nat)
    (alternatives : (first id : RuleId) → List Body) : Expanding RuleId :=
  modifyGet fun t =>
    (t.symbols.size, t.addHelpers kind owner span count (alternatives t.symbols.size))

/-- The alternatives of a helper that stands for any number of copies of a body. -/
def repetitionAlternatives (body : Body) (id : RuleId) : List Body :=
  [body ++ [.rule id], []]

/-- The alternatives of a helper in a chain that ends before the identity `stop`: a copy of the body
    with the next helper of the chain behind it, or nothing. -/
def chainAlternatives (body : Body) (stop id : RuleId) : List Body :=
  [body ++ if id + 1 < stop then [.rule (id + 1)] else [], []]

/-- **The symbols of a repeated term.** There are as many copies of the body as the least count
    says. Behind them, without a greatest count, a helper stands for any number of copies; else a
    chain of helpers stands for as many copies as the counts are apart. -/
def repetition (owner : String) (span : Span) (body : Body) (bounds : Bounds) : Expanding Body := do
  let copies := (List.replicate bounds.min body).flatten
  match bounds.max with
  | none =>
    let id ← helpers .repetition owner span 1 fun _ id => repetitionAlternatives body id
    return copies ++ [.rule id]
  | some max =>
    let count := max - bounds.min
    let first ← helpers .optional owner span count fun first id =>
      chainAlternatives body (first + count) id
    return copies ++ if count = 0 then [] else [.rule first]

/-- **The symbols of a group.** One alternative is put in place of the group; several become a
    helper. -/
def group (owner : String) (span : Span) : (alternatives : List Body) → Expanding Body
  | [body] => return body
  | alternatives => do
    let id ← helpers .group owner span 1 fun _ _ => alternatives
    return [.rule id]

end Expanding

open Expanding

mutual

/-- The symbols of an atom of the rule `owner`. -/
def Atom.expand (owner : String) : Atom → Expanding Body
  | .literal chars _ => return chars.map fun c => .chars (.single c)
  | .set chars _ => return [.chars chars]
  | .any _ => return [.chars .any]
  | .name text span => do
    let id ← mention text span
    return [.rule id]
  | .group opening alternatives closing => do
    let bodies ← expandAlternation owner alternatives
    group owner (opening.join closing) bodies
termination_by structural atom => atom

/-- The symbols of a term. -/
def Term.expand (owner : String) : Term → Expanding Body
  | .mk atom none => atom.expand owner
  | .mk atom (some operator) => do
    let body ← atom.expand owner
    repetition owner (atom.span.join operator.span) body operator.bounds
termination_by structural term => term

/-- The symbols of a sequence: those of its terms, one after the other. -/
def expandSequence (owner : String) : List Term → Expanding Body
  | [] => return []
  | term :: terms => do
    let first ← term.expand owner
    let others ← expandSequence owner terms
    return first ++ others
termination_by structural terms => terms

/-- The bodies of alternatives, in order. -/
def expandAlternation (owner : String) : List (List Term) → Expanding (List Body)
  | [] => return []
  | terms :: alternatives => do
    let body ← expandSequence owner terms
    let bodies ← expandAlternation owner alternatives
    return body :: bodies
termination_by structural alternatives => alternatives

end

/-- Expands a rule: its name is mentioned first, then its alternatives are expanded. -/
def Rule.expand (rule : Rule) : Expanding Unit := do
  let id ← mention rule.name rule.span
  let bodies ← expandAlternation rule.name rule.alternatives
  define id ⟨.defined rule.span, bodies⟩

/-- Expands rules one after the other. -/
def expandRules : List Rule → Expanding Unit
  | [] => return
  | rule :: rules => do
    rule.expand
    expandRules rules

/-- The table before rules are expanded: no helper will get a name that they mention. -/
def start (rules : List Rule) : Table :=
  ⟨.keeping (names rules), []⟩

/-- The table of a grammar text with some rules. -/
def table (rules : List Rule) : Table :=
  (expandRules rules (start rules)).2

/-- The name of the root: the one that the options give, else that of the first rule. -/
def rootName (options : ParseOptions) (rules : List Rule) : String :=
  options.root.getD ((rules.head?.map (·.name)).getD "")

/-- **The grammar of a tree.** -/
def compile (options : ParseOptions) (rules : List Rule) : Grammar where
  symbols := (table rules).symbols
  rules := ((List.range (table rules).symbols.size).filterMap (table rules).rule?).toArray
  root := ((table rules).symbols.find? (rootName options rules)).getD 0

end Tree

end Bnf
