import Bnf.Grammar.Reading
import Bnf.Proofs.Tree

/-!
# Reading a syntax tree

A tree is read into a draft by recursion on the tree, with the checks that the options ask for. The
order of the checks is that in which the tokens of the tree would be read one by one.

## Main definitions

- `Tree.readSequence`, `Tree.readAlternation` — reading a part of a rule
- `Tree.Rule.read`, `Tree.readRules` — reading rules
-/

namespace Bnf

open Drafting

namespace Tree

/-- Stops if no group may be opened where `depth` groups are open. -/
def requireDepth (options : ParseOptions) (depth : Nat) (opening : Span) : Drafting Unit :=
  if options.maxNesting.toNat ≤ depth then
    fail (.nestingTooDeep options.maxNesting.toNat) opening.start
  else return

/-- Stops unless an operator may apply to some symbols. -/
def requireRepeatable (options : ParseOptions) (body : Body) (operator : Repetition) :
    Drafting Unit :=
  if body.isEmpty then
    fail .emptyRepetition operator.span.start
  else if operator.bounds.isInverted then
    fail (.invertedBounds operator.bounds.min operator.bounds.count) operator.span.start
  else if options.maxRepetition.toNat < operator.bounds.count then
    fail (.repetitionTooLarge operator.bounds.count options.maxRepetition.toNat)
      operator.span.start
  else return

mutual

/-- Reads an atom of the rule `owner` where `depth` groups are open. -/
def Atom.read (options : ParseOptions) (owner : String) (depth : Nat) : Atom → Drafting Body
  | .literal chars _ => return chars.map fun c => .chars (.single c)
  | .set chars _ => return [.chars chars]
  | .any _ => return [.chars .any]
  | .name text span => do
    requireAllowed options text span
    let id ← mention text span
    return [.rule id]
  | .group opening alternatives closing => do
    requireDepth options depth opening
    let bodies ← readAlternation options owner (depth + 1) alternatives
    grouped owner (opening.join closing) bodies
termination_by structural atom => atom

/-- Reads a term. -/
def Term.read (options : ParseOptions) (owner : String) (depth : Nat) : Term → Drafting Body
  | .mk atom none => atom.read options owner depth
  | .mk atom (some operator) => do
    let body ← atom.read options owner depth
    requireRepeatable options body operator
    repeated owner (atom.span.join operator.span) body operator.bounds
termination_by structural term => term

/-- Reads the terms of a sequence. -/
def readSequence (options : ParseOptions) (owner : String) (depth : Nat) :
    List Term → Drafting Body
  | [] => return []
  | term :: terms => do
    let first ← term.read options owner depth
    let others ← readSequence options owner depth terms
    return first ++ others
termination_by structural terms => terms

/-- Reads alternatives. -/
def readAlternation (options : ParseOptions) (owner : String) (depth : Nat) :
    List (List Term) → Drafting (List Body)
  | [] => return []
  | terms :: others => do
    let body ← readSequence options owner depth terms
    let bodies ← readAlternation options owner depth others
    return body :: bodies
termination_by structural alternatives => alternatives

end

/-- Enters the rule `name` into the draft, unless it is complete already. -/
def beginRule (name : String) (span : Span) : Drafting RuleId := do
  let id ← mention name span
  let draft ← get
  if (draft.rule? id).isSome then
    fail (.duplicateRule name) span.start
  else
    set { draft with first? := draft.first? <|> some id }
    return id

/-- Reads a rule. -/
def Rule.read (options : ParseOptions) (rule : Rule) : Drafting Unit := do
  requireAllowed options rule.name rule.span
  let id ← beginRule rule.name rule.span
  let bodies ← readAlternation options rule.name 0 rule.alternatives
  report (.ruleRead rule.name bodies.length)
  define id ⟨.defined rule.span, bodies⟩

/-- Reads rules. -/
def readRules (options : ParseOptions) : List Rule → Drafting Unit
  | [] => return
  | rule :: rules => do
    rule.read options
    readRules options rules

/-- Terms are read one behind the other, so reading can be cut anywhere. -/
theorem readSequence_append (options : ParseOptions) (owner : String) (depth : Nat)
    (terms others : List Term) :
    readSequence options owner depth (terms ++ others) = do
      let first ← readSequence options owner depth terms
      let second ← readSequence options owner depth others
      return first ++ second := by
  induction terms with
  | nil => simp [readSequence]
  | cons term terms ih =>
    simp only [List.cons_append, readSequence, ih, bind_assoc, pure_bind, List.append_assoc]

/-- So can reading alternatives. -/
theorem readAlternation_append (options : ParseOptions) (owner : String) (depth : Nat)
    (alternatives others : List (List Term)) :
    readAlternation options owner depth (alternatives ++ others) = do
      let first ← readAlternation options owner depth alternatives
      let second ← readAlternation options owner depth others
      return first ++ second := by
  induction alternatives with
  | nil => simp [readAlternation]
  | cons terms alternatives ih =>
    simp only [List.cons_append, readAlternation, ih, bind_assoc, pure_bind]

/-- And so can reading rules. -/
theorem readRules_append (options : ParseOptions) (rules others : List Rule) :
    readRules options (rules ++ others) = (do
      readRules options rules
      readRules options others) := by
  induction rules with
  | nil => simp [readRules]
  | cons rule rules ih => simp only [List.cons_append, readRules, ih, bind_assoc]

end Tree

end Bnf
