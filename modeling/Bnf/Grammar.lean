import Bnf.CharSet
import Bnf.SymbolTable

/-!
# Grammars

A grammar in its compiled form: rules that consist of alternatives, alternatives that are sequences
of symbols, and symbols that are sets of characters or identities of rules. Groups and repetitions
have become helper rules.

## Main definitions

- `Symbol`, `Body`, `Rule`, `Grammar` — the parts of a grammar and the whole
- `Grammar.sameStructure` — equality by names, whatever the identities are
-/

namespace Bnf

/-- One place in an alternative. -/
inductive Symbol where
  | rule (id : RuleId)
  | chars (set : CharSet)
deriving DecidableEq

/-- An alternative of a rule. The empty one stands for the empty text. -/
abbrev Body := List Symbol

/-- What a helper rule was made for. -/
inductive HelperKind where
  | group
  | optional
  | repetition
deriving DecidableEq

def HelperKind.name : HelperKind → String
  | group => "Group"
  | optional => "Optional"
  | repetition => "Repeat"

/-- Where a rule comes from. -/
inductive Origin where
  /-- It is defined in the source, where its name has this span. -/
  | defined (name : Span)
  | helper (kind : HelperKind)
deriving DecidableEq

/-- A rule: its alternatives in the order of the source. -/
structure Rule where
  origin : Origin
  alternatives : List Body
deriving DecidableEq

def Rule.isHelper (r : Rule) : Bool :=
  match r.origin with
  | .defined _ => false
  | .helper _ => true

/-- A grammar: the rule at index `n` has the identity `n`, and its name is in the symbol table. -/
structure Grammar where
  symbols : SymbolTable
  rules : Array Rule
  /-- The rule that the language of the grammar belongs to. -/
  root : RuleId
deriving DecidableEq

namespace Grammar

def size (g : Grammar) : Nat :=
  g.rules.size

def ids (g : Grammar) : List RuleId :=
  List.range g.size

/-- The name of a rule. An identity without a rule has the empty name. -/
def name (g : Grammar) (id : RuleId) : String :=
  (g.symbols.name? id).getD ""

def rule? (g : Grammar) (id : RuleId) : Option Rule :=
  g.rules[id]?

/-- The alternatives of the rule with an identity. -/
def alternatives (g : Grammar) (id : RuleId) : List Body :=
  ((g.rule? id).map (·.alternatives)).getD []

def find? (g : Grammar) (name : String) : Option RuleId :=
  g.symbols.find? name

def ruleNamed? (g : Grammar) (name : String) : Option Rule :=
  (g.find? name).bind g.rule?

/-- All rules with their names, in the order of their identities. -/
def namedRules (g : Grammar) : List (String × Rule) :=
  g.rules.toList.mapIdx fun id rule => (g.name id, rule)

end Grammar

/-- Whether two symbols mean the same, if rules are known by name. -/
def Symbol.agrees (a b : Grammar) : Symbol → Symbol → Bool
  | .chars x, .chars y => x = y
  | .rule x, .rule y => a.name x = b.name y
  | _, _ => false

/-- Whether two lists of alternatives mean the same symbol by symbol. -/
def alternativesAgree (a b : Grammar) (xs ys : List Body) : Bool :=
  xs.isEqv ys fun x y => x.isEqv y (Symbol.agrees a b)

/-- **Equality by names.** Two grammars have the same structure if they have as many rules, their
    roots have the same name, and the rules of the one have the same alternatives as the rules of
    the same name of the other. Identities do not matter. -/
def Grammar.sameStructure (a b : Grammar) : Bool :=
  a.size = b.size && a.name a.root = b.name b.root &&
    a.namedRules.all fun (name, rule) =>
      match b.ruleNamed? name with
      | none => false
      | some other => alternativesAgree a b rule.alternatives other.alternatives

end Bnf
