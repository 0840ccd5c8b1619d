import Bnf.Token

/-!
# Syntax trees

A syntax tree holds what the tokens of a grammar text mean before anything is expanded: rules,
alternatives, terms with their repetitions, and groups. Line breaks are not part of it. Which
token sequences spell a tree is a relation, one constructor for each form of the dialect:

    grammar     = NL* rule (NL+ rule)* NL*
    rule        = Name '::=' NL* alternation
    alternation = sequence (NL* '|' NL* sequence)*
    sequence    = term+
    term        = atom postfix?
    atom        = Literal | Class | '.' | Name | '(' NL* alternation NL* ')'
    postfix     = '?' | '*' | '+' | Counts

Inside of parentheses there may be line breaks between the terms of a sequence, outside of them
there are none.

## Main definitions

- `Tree.Atom`, `Tree.Term`, `Tree.Rule` — syntax trees
- `Tree.Spells` — the tokens that spell the rules of a grammar
-/

namespace Bnf

/-- Tokens that are line breaks only. -/
def Newlines (tokens : List Token) : Prop :=
  ∀ token ∈ tokens, token.kind = .newline

theorem Newlines.nil : Newlines [] := by
  intro token htoken
  simp at htoken

theorem Newlines.singleton {token : Token} (h : token.kind = .newline) : Newlines [token] := by
  intro other hother
  obtain rfl : other = token := by simpa using hother
  exact h

theorem Newlines.append {tokens others : List Token} (h : Newlines tokens)
    (hothers : Newlines others) : Newlines (tokens ++ others) := by
  intro token htoken
  rcases List.mem_append.1 htoken with hmem | hmem
  · exact h token hmem
  · exact hothers token hmem

namespace Tree

/-- A repetition operator: its bounds and its span. -/
structure Repetition where
  bounds : Bounds
  span : Span

mutual

/-- What may be repeated. -/
inductive Atom where
  | literal (chars : List Char) (span : Span)
  | set (chars : CharSet) (span : Span)
  | any (span : Span)
  | name (text : String) (span : Span)
  /-- Alternatives between parentheses, with the spans of the parentheses. -/
  | group (opening : Span) (alternatives : List (List Term)) (closing : Span)

/-- An atom with the operator behind it, if there is one. -/
inductive Term where
  | mk (atom : Atom) (repetition : Option Repetition)

end

/-- A rule: its name, the span of the name, and its alternatives. -/
structure Rule where
  name : String
  span : Span
  alternatives : List (List Term)

/-- The span that an atom is written in. -/
def Atom.span : Atom → Span
  | .literal _ span | .set _ span | .any span | .name _ span => span
  | .group opening _ closing => opening.join closing

/-! ## Spelling -/

mutual

/-- The tokens of an atom. -/
inductive Atom.Spelled : Atom → List Token → Prop
  | literal {chars span} : Atom.Spelled (.literal chars span) [⟨.literal chars, span⟩]
  | set {chars span} : Atom.Spelled (.set chars span) [⟨.set chars, span⟩]
  | any {span} : Atom.Spelled (.any span) [⟨.any, span⟩]
  | name {text span} : Atom.Spelled (.name text span) [⟨.name text, span⟩]
  | group {opening closing alternatives front inner back} :
      Newlines front → AlternationSpelled true alternatives inner → Newlines back →
      Atom.Spelled (.group opening alternatives closing)
        (⟨.openParen, opening⟩ :: (front ++ (inner ++ (back ++ [⟨.closeParen, closing⟩]))))

/-- The tokens of a term. -/
inductive Term.Spelled : Term → List Token → Prop
  | plain {atom tokens} : atom.Spelled tokens → Term.Spelled (.mk atom none) tokens
  | repeated {atom tokens kind bounds span} :
      atom.Spelled tokens → kind.bounds? = some bounds →
      Term.Spelled (.mk atom (some ⟨bounds, span⟩)) (tokens ++ [⟨kind, span⟩])

/-- The tokens of a sequence. Only inside of parentheses, where `nested` is set, there may be line
    breaks between its terms. -/
inductive SequenceSpelled : (nested : Bool) → List Term → List Token → Prop
  | one {nested term tokens} : term.Spelled tokens → SequenceSpelled nested [term] tokens
  | more {nested terms term tokens gap last} :
      SequenceSpelled nested terms tokens → Newlines gap → (nested = false → gap = []) →
      term.Spelled last → SequenceSpelled nested (terms ++ [term]) (tokens ++ (gap ++ last))

/-- The tokens of an alternation. -/
inductive AlternationSpelled : (nested : Bool) → List (List Term) → List Token → Prop
  | one {nested terms tokens} :
      SequenceSpelled nested terms tokens → AlternationSpelled nested [terms] tokens
  | more {nested alternatives terms tokens before bar after last} :
      AlternationSpelled nested alternatives tokens → Newlines before → bar.kind = .bar →
      Newlines after → SequenceSpelled nested terms last →
      AlternationSpelled nested (alternatives ++ [terms])
        (tokens ++ (before ++ bar :: (after ++ last)))

end

/-- The tokens of a rule. -/
inductive Rule.Spelled : Rule → List Token → Prop
  | intro {name span define front tokens alternatives} :
      define.kind = .define → Newlines front → AlternationSpelled false alternatives tokens →
      Rule.Spelled ⟨name, span, alternatives⟩ (⟨.name name, span⟩ :: define :: (front ++ tokens))

/-- The tokens of one rule or more, without the line breaks behind the last one. -/
inductive RulesSpelled : List Rule → List Token → Prop
  | one {rule front tokens} :
      Newlines front → rule.Spelled tokens → RulesSpelled [rule] (front ++ tokens)
  | more {rules rule tokens gap last} :
      RulesSpelled rules tokens → Newlines gap → gap ≠ [] → rule.Spelled last →
      RulesSpelled (rules ++ [rule]) (tokens ++ (gap ++ last))

/-- **The dialect**: `Spells rules tokens` says that the tokens are a grammar text with these
    rules. -/
def Spells (rules : List Rule) (tokens : List Token) : Prop :=
  ∃ front back, RulesSpelled rules front ∧ Newlines back ∧ tokens = front ++ back

end Tree

end Bnf
