import Bnf.Grammar.Analysis
import Bnf.Grammar.Print
import Bnf.Grammar.Raw

/-!
# Functions on grammars, with checks

Functions on grammars look up names, rules and stretches of arrays by number, and all of them give
something for a number that is out of range. Here each is written once more, so that it gives a
result only if it never comes to such a number, and if all that it takes for granted is true: that
identities are below their bound, that rules are laid out in the order of their identities, and that
the stretch of a rule has an end mark.

## Main definitions

- `RuleId.ofNumber?` — the identity with a number
- `Grammar.text?`, `Grammar.flatText?`, `Grammar.flatten?`, `Grammar.encode?`,
  `Grammar.sameStructure?`, `FlatTable.bodies?`, `Grammar.leftRecursive?`, `Grammar.unreachable?` —
  the functions with checks

## Design notes

A function and its form with checks have the same steps, and the second is in `Option`. So the
second one has a result if and only if nothing goes wrong on the way, and it is worth stating that
this result is the one of the first.
-/

namespace Bnf

/-- The identity with a number, which is below the bound of all identities. -/
def RuleId.ofNumber? (number : Nat) : Option RuleId :=
  if number < RuleId.bound then some number else none

namespace Grammar

def ids? (g : Grammar) : Option (List RuleId) :=
  (List.range g.size).mapM RuleId.ofNumber?

/-- All rules with their names, if every identity has a name. -/
def namedRules? (g : Grammar) : Option (List (String × Rule)) := do
  (← g.ids?).mapM fun id => do return (← g.symbols.name? id, ← g.rule? id)

/-! ## Text -/

def writePiece? (g : Grammar) : Piece → Option (List Char)
  | .literal chars => some (writeLiteral chars)
  | .set set => some (writeSet set)
  | .rule id => do return (← g.symbols.name? id).toList

def writeBody? (g : Grammar) (body : Body) : Option (List Char) :=
  if body.isEmpty then some (' ' :: writeLiteral [])
  else do return (← (Body.pieces body).mapM g.writePiece?).flatMap (' ' :: ·)

def writeRule? (g : Grammar) (name : String) (rule : Rule) : Option (List Char) := do
  let bodies ← rule.alternatives.mapM g.writeBody?
  return name.toList ++ [' ', ':', ':', '='] ++ [' ', '|'].intercalate bodies ++ ['\n']

/-- The text of a grammar, if each rule that is written has a name. -/
def text? (g : Grammar) : Option String := do
  let lines ← (← g.namedRules?).mapM fun (name, rule) => g.writeRule? name rule
  return String.ofList lines.flatten

end Grammar

/-! ## The flat form -/

namespace FlatTable

/-- Adds the elements of a rule, if its identity is the next one. -/
def push? (t : FlatTable) (id : RuleId) (elements : List Element) : Option FlatTable := do
  let pushed ← RuleId.ofNumber? t.size
  if pushed = id then some (t.push elements) else none

/-- The elements of a rule, if it has a stretch, which is inside the array. -/
def rule? (t : FlatTable) (id : RuleId) : Option (List Element) := do
  let (start, stop) ← t.bounds[id]?
  if start ≤ stop ∧ stop ≤ t.elements.size then some (t.elements.extract start stop).toList
  else none

/-- The alternatives of a rule, if its last element is an end mark. -/
def bodies? (t : FlatTable) (id : RuleId) : Option (List (List Element)) := do
  let elements ← t.rule? id
  if elements.getLast? = some .stop then some (splitAtBorders elements.dropLast) else none

def rules? (t : FlatTable) : Option (List (List Element)) :=
  (List.range t.size).mapM fun number => do t.rule? (← RuleId.ofNumber? number)

def encode? (t : FlatTable) : Option RawTable := do
  return ⟨(← t.rules?).map (·.flatMap Element.encode), t.root⟩

end FlatTable

namespace Grammar

def flatten? (g : Grammar) : Option FlatTable := do
  (← g.ids?).foldlM (fun table id => do table.push? id (← g.rule? id).elements) (.empty g.root)

def encode? (g : Grammar) : Option RawTable := do
  (← g.flatten?).encode?

/-- What stands beside a tag in the dump of a grammar. Only the name of a rule is looked up. -/
def flatOperand? (g : Grammar) (element : Element) (raw : RawElement) : Option (List Char) :=
  match element with
  | .rule id => do return ' ' :: (← g.symbols.name? id).toList
  | other => some (g.flatOperand other raw)

def flatElement? (g : Grammar) (element : Element) : Option (List Char) := do
  let pairs ← element.encode.mapM fun raw => do
    return ' ' :: '[' :: raw.tag.name.toList ++ (← g.flatOperand? element raw) ++ [']']
  return pairs.flatten

/-- The line for a rule in the dump of a grammar, if the rule has a name and a stretch. -/
def flatLine? (g : Grammar) (table : FlatTable) (number : Nat) : Option (List Char) := do
  let id ← RuleId.ofNumber? number
  let elements ← (← table.rule? id).mapM g.flatElement?
  return (← g.symbols.name? id).toList ++ [' ', ':', ':', '='] ++ elements.flatten ++ ['\n']

def flatText? (g : Grammar) : Option String := do
  let table ← g.flatten?
  let lines ← (List.range table.size).mapM (g.flatLine? table)
  return String.ofList lines.flatten

end Grammar

/-! ## Equality by names -/

/-- Whether two lists agree place by place. -/
def agree? {α : Type} (r : α → α → Option Bool) (xs ys : List α) : Option Bool :=
  if xs.length = ys.length then (xs.zip ys).allM fun (x, y) => r x y else some false

def Symbol.agrees? (a b : Grammar) : Symbol → Symbol → Option Bool
  | .chars x, .chars y => some (x = y)
  | .rule x, .rule y => do return (← a.symbols.name? x) = (← b.symbols.name? y)
  | _, _ => some false

def alternativesAgree? (a b : Grammar) : List Body → List Body → Option Bool :=
  agree? (agree? (Symbol.agrees? a b))

/-- Whether two grammars have the same structure, if each rule of theirs that is mentioned has a
    name. -/
def Grammar.sameStructure? (a b : Grammar) : Option Bool := do
  if a.size ≠ b.size then return false
  if (← a.symbols.name? a.root) ≠ (← b.symbols.name? b.root) then return false
  (← a.namedRules?).allM fun (name, rule) =>
    match b.ruleNamed? name with
    | none => some false
    | some other => alternativesAgree? a b rule.alternatives other.alternatives

/-! ## Analyses -/

def Symbol.vanishes? (known : Array Bool) : Symbol → Option Bool
  | rule id => known[id]?
  | chars _ => some false

def Body.entered? (known : Array Bool) : Body → Option (List RuleId)
  | [] => some []
  | .chars _ :: _ => some []
  | .rule id :: rest => do
    if ← known[id]? then return id :: (← Body.entered? known rest) else return [id]

namespace Graph

/-- Works off a list of tasks, if each number that is to be entered is a node. -/
def run? (g : Graph) (s : Search) (tasks : List Task) : Option Search :=
  match tasks with
  | [] => some s
  | .leave :: tasks => g.run? s.leave tasks
  | .enter node :: tasks =>
    if hinside : node < g.size then
      if node ∈ s.path then g.run? (s.close node) tasks
      else if hnew : node ∉ s.finished then
        g.run? (s.enter node) ((g.next node).map .enter ++ .leave :: tasks)
      else g.run? s tasks
    else none
termination_by g.potential s + tasks.length
decreasing_by
  · have := weights_congr (g := g) s.hasSeen_leave (List.range g.size)
    simp only [potential, List.length_cons]
    omega
  · have := weights_congr (g := g) (s.hasSeen_close node) (List.range g.size)
    simp only [potential, List.length_cons]
    omega
  · have := @potential_enter g s node (by simp_all [Search.hasSeen]) hinside
    simp only [List.length_append, List.length_map, List.length_cons]
    omega
  · simp

def search? (g : Graph) (nodes : List Nat) : Option Search :=
  g.run? .start (nodes.map .enter)

end Graph

namespace Grammar

/-- What a function gives for each rule. On the way all names are looked up. -/
def mapRules? {α : Type} (g : Grammar) (f : Rule → Option α) : Option (Array α) := do
  return (← (← g.namedRules?).mapM fun named => f named.2).toArray

def nullableStep? (g : Grammar) (known : Array Bool) : Option (Array Bool) :=
  g.mapRules? fun rule => rule.alternatives.anyM fun body => body.allM (Symbol.vanishes? known)

def nullable? (g : Grammar) : Option (Array Bool) :=
  saturate (·.bind g.nullableStep?) g.size (some (Array.replicate g.size false))

def entryGraph? (g : Grammar) : Option Graph := do
  let known ← g.nullable?
  g.mapRules? fun rule => do return (← rule.alternatives.mapM (Body.entered? known)).flatten

/-- The left recursive rules, if no number that the analysis comes to is out of range. -/
def leftRecursive? (g : Grammar) : Option (List RuleId) := do
  return (← (← g.entryGraph?).search? (← g.ids?)).closing

/-- The unreachable rules, if no number that the search from the root comes to is out of range. -/
def unreachable? (g : Grammar) : Option (List RuleId) := do
  let reached := (← g.mentionGraph.search? [g.root]).finished
  return (← g.ids?).filter fun id => !reached.contains id

end Grammar

end Bnf
