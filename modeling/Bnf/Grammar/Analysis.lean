import Bnf.Grammar
import Bnf.Graph

/-!
# Which rules vanish, loop on the left, or are never used

## Main definitions

- `Grammar.nullable` — which rules stand for the empty text, among others
- `Grammar.leftRecursive` — rules that can reach themselves before they have read a character
- `Grammar.unreachable` — rules that no derivation from the root comes to

## Design notes

The rules that stand for the empty text are the least set that is closed under one step. The step
is repeated until it changes nothing, and every time before that it adds a rule, so the number of
rules bounds the repetitions. The other two questions are asked of a graph of rules.
-/

namespace Bnf

/-- Repeats a step until it changes nothing, `n` times at most. -/
def saturate {α : Type} [DecidableEq α] (step : α → α) : (n : Nat) → α → α
  | 0, a => a
  | n + 1, a => if step a = a then a else saturate step n (step a)

namespace Symbol

def rule? : Symbol → Option RuleId
  | rule id => some id
  | chars _ => none

/-- Whether a symbol stands for the empty text, if the rules in `known` do. -/
def vanishes (known : Array Bool) : Symbol → Bool
  | rule id => known.getD id false
  | chars _ => false

end Symbol

/-- The rules that an alternative can enter before it has read a character: those at its start, up
    to and with the first one that does not vanish. -/
def Body.entered (known : Array Bool) : Body → List RuleId
  | [] => []
  | .chars _ :: _ => []
  | .rule id :: rest => id :: if known.getD id false then Body.entered known rest else []

namespace Grammar

/-- The rules that stand for the empty text because those in `known` do. -/
def nullableStep (g : Grammar) (known : Array Bool) : Array Bool :=
  g.rules.map fun rule => rule.alternatives.any fun body => body.all (Symbol.vanishes known)

/-- Which rules stand for the empty text, among others. -/
def nullable (g : Grammar) : Array Bool :=
  saturate g.nullableStep g.size (Array.replicate g.size false)

/-- The graph in which each rule is followed by those it can enter before it has read a
    character. -/
def entryGraph (g : Grammar) : Graph :=
  let known := g.nullable
  g.rules.map fun rule => rule.alternatives.flatMap (Body.entered known)

/-- The graph in which each rule is followed by those that its alternatives mention. -/
def mentionGraph (g : Grammar) : Graph :=
  g.rules.map fun rule => rule.alternatives.flatMap fun body => body.filterMap Symbol.rule?

/-- **Left recursive rules**: rules that can reach themselves before they have read a character, one
    at least of every such cycle, in the order in which a search of all rules finds them. -/
def leftRecursive (g : Grammar) : List RuleId :=
  (g.entryGraph.search g.ids).closing

/-- **Unreachable rules**: rules that no derivation from the root comes to, in the order of their
    identities. -/
def unreachable (g : Grammar) : List RuleId :=
  let reached := (g.mentionGraph.search [g.root]).finished
  g.ids.filter fun id => !reached.contains id

end Grammar

end Bnf
