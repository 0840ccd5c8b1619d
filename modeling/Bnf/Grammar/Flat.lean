import Bnf.Grammar

/-!
# Grammars as one list of elements

The rules of a grammar are laid out one after the other in one array. A rule is a stretch of this
array: its alternatives, with a separator between each two, and an end mark.

## Main definitions

- `Element` — an entry of the array
- `Rule.elements` — the elements of a rule
- `FlatTable` — the array, with the stretch of each rule
- `FlatTable.bodies` — the alternatives of a rule, taken out of its stretch
-/

namespace Bnf

/-- An entry of a flat rule. -/
inductive Element where
  | stop
  | border
  | rule (id : RuleId)
  | chars (set : CharSet)
deriving DecidableEq

def Symbol.element : Symbol → Element
  | rule id => .rule id
  | chars set => .chars set

/-- The elements of a rule: its alternatives with borders between them, and the end mark. -/
def Rule.elements (r : Rule) : List Element :=
  [Element.border].intercalate (r.alternatives.map (·.map Symbol.element)) ++ [.stop]

/-- The parts of a list of elements between its borders. -/
def splitAtBorders : List Element → List (List Element)
  | [] => [[]]
  | .border :: rest => [] :: splitAtBorders rest
  | element :: rest =>
    match splitAtBorders rest with
    | [] => [[element]]
    | part :: parts => (element :: part) :: parts

/-- All rules of a grammar in one array. -/
structure FlatTable where
  elements : Array Element
  bounds : Array (Nat × Nat)
  root : RuleId
deriving DecidableEq

namespace FlatTable

def empty (root : RuleId) : FlatTable :=
  ⟨#[], #[], root⟩

def push (t : FlatTable) (elements : List Element) : FlatTable :=
  { t with
    elements := t.elements.appendList elements
    bounds := t.bounds.push (t.elements.size, t.elements.size + elements.length) }

def size (t : FlatTable) : Nat :=
  t.bounds.size

/-- The elements of a rule. A number that is no identity has none. -/
def rule (t : FlatTable) (id : RuleId) : List Element :=
  match t.bounds[id]? with
  | none => []
  | some (start, stop) => (t.elements.extract start stop).toList

/-- The alternatives of a rule, without borders and end mark. -/
def bodies (t : FlatTable) (id : RuleId) : List (List Element) :=
  splitAtBorders (t.rule id).dropLast

/-- The elements of all rules, in the order of their identities. -/
def rules (t : FlatTable) : List (List Element) :=
  (List.range t.size).map t.rule

end FlatTable

/-- **The flat form of a grammar.** -/
def Grammar.flatten (g : Grammar) : FlatTable :=
  g.rules.toList.foldl (fun table rule => table.push rule.elements) (.empty g.root)

end Bnf
