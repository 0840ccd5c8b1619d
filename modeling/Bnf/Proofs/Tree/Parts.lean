import Bnf.Proofs.Tree

/-!
# The parts of a syntax tree

What the checks of a reader look at: the names that a tree mentions, the terms that an operator is
applied to, and how deep its groups are nested. The names and the operators can be told from the
tokens alone, in the same order.

## Main definitions

- `Tree.Atom.isVoid`, `Tree.Term.isVoid` — whether a part of a tree expands to no symbol
- `Tree.Rule.mentions` — the names in a rule, with their spans
- `Tree.names` — the names in some rules
- `Tree.Rule.operations` — the operators in a rule, with what they are applied to
- `Tree.Rule.depth` — how many groups are open at once

## Main results

- `Tree.Spells.mentions_eq` — the names in the tokens are those of the tree
- `Tree.Spells.operations_eq` — the operators among the tokens are those of the tree
-/

namespace Bnf

/-- The name that a token is, with its span. -/
def Token.mention? (token : Token) : Option (String × Span) :=
  match token.kind with
  | .name text => some (text, token.span)
  | _ => none

/-- The bounds that a token puts on what stands in front of it. -/
def Token.bounds? (token : Token) : Option Bounds :=
  token.kind.bounds?

/-- Only names mention anything. -/
theorem Token.mention?_of_kind {token : Token} {kind : TokenKind} (h : token.kind = kind)
    (hname : ∀ text, kind ≠ .name text := by simp) : token.mention? = none := by
  rw [Token.mention?]
  split
  · next text htext => exact absurd (h ▸ htext) (hname text)
  · rfl

/-- An operator is no name. -/
theorem Token.mention?_of_bounds? {token : Token} {bounds : Bounds}
    (h : token.kind.bounds? = some bounds) : token.mention? = none := by
  rw [Token.mention?]
  split
  · next text htext => simp [htext, TokenKind.bounds?] at h
  · rfl

/-- Line breaks mention nothing, so they do not matter for the order of mentions. -/
theorem Newlines.mentions_eq {gap : List Token} (h : Newlines gap) :
    gap.filterMap Token.mention? = [] := by
  rw [List.filterMap_eq_nil_iff]
  exact fun token htoken => Token.mention?_of_kind (h token htoken)

/-- Nor are they operators. -/
theorem Newlines.bounds_eq {gap : List Token} (h : Newlines gap) :
    gap.filterMap Token.bounds? = [] := by
  rw [List.filterMap_eq_nil_iff]
  intro token htoken
  rw [Token.bounds?, h token htoken]
  rfl

namespace Tree

mutual

/-- Whether an atom expands to no symbol: the empty literal, and a group with one alternative whose
    terms expand to no symbol. -/
def Atom.isVoid : Atom → Bool
  | .literal chars _ => chars.isEmpty
  | .group _ [terms] _ => isVoidSequence terms
  | _ => false
termination_by structural atom => atom

/-- Whether a term expands to no symbol. A repeated one does if there are no copies, or none with a
    symbol, and nothing that may follow them. -/
def Term.isVoid : Term → Bool
  | .mk atom none => atom.isVoid
  | .mk atom (some ⟨bounds, _⟩) =>
    (bounds.min = 0 || atom.isVoid) && bounds.max.any (· ≤ bounds.min)
termination_by structural term => term

/-- Whether all terms of a sequence expand to no symbol. -/
def isVoidSequence : List Term → Bool
  | [] => true
  | term :: terms => term.isVoid && isVoidSequence terms
termination_by structural terms => terms

end

mutual

/-- The names that an atom mentions, in order. -/
def Atom.mentions : Atom → List (String × Span)
  | .literal .. | .set .. | .any .. => []
  | .name text span => [(text, span)]
  | .group _ alternatives _ => alternationMentions alternatives
termination_by structural atom => atom

/-- The names that a term mentions. -/
def Term.mentions : Term → List (String × Span)
  | .mk atom _ => atom.mentions
termination_by structural term => term

/-- The names that a sequence mentions. -/
def sequenceMentions : List Term → List (String × Span)
  | [] => []
  | term :: terms => term.mentions ++ sequenceMentions terms
termination_by structural terms => terms

/-- The names that alternatives mention. -/
def alternationMentions : List (List Term) → List (String × Span)
  | [] => []
  | terms :: alternatives => sequenceMentions terms ++ alternationMentions alternatives
termination_by structural alternatives => alternatives

end

mutual

/-- The operators inside of an atom, each with the atom it is applied to. -/
def Atom.operations : Atom → List (Atom × Bounds)
  | .literal .. | .set .. | .any .. | .name .. => []
  | .group _ alternatives _ => alternationOperations alternatives
termination_by structural atom => atom

/-- The operators of a term: those inside of its atom, and its own. -/
def Term.operations : Term → List (Atom × Bounds)
  | .mk atom none => atom.operations
  | .mk atom (some operator) => atom.operations ++ [(atom, operator.bounds)]
termination_by structural term => term

/-- The operators of a sequence. -/
def sequenceOperations : List Term → List (Atom × Bounds)
  | [] => []
  | term :: terms => term.operations ++ sequenceOperations terms
termination_by structural terms => terms

/-- The operators of alternatives. -/
def alternationOperations : List (List Term) → List (Atom × Bounds)
  | [] => []
  | terms :: alternatives => sequenceOperations terms ++ alternationOperations alternatives
termination_by structural alternatives => alternatives

end

mutual

/-- How many groups of an atom are open at once. -/
def Atom.depth : Atom → Nat
  | .literal .. | .set .. | .any .. | .name .. => 0
  | .group _ alternatives _ => alternationDepth alternatives + 1
termination_by structural atom => atom

/-- How many groups of a term are open at once. -/
def Term.depth : Term → Nat
  | .mk atom _ => atom.depth
termination_by structural term => term

/-- How many groups of a sequence are open at once. -/
def sequenceDepth : List Term → Nat
  | [] => 0
  | term :: terms => max term.depth (sequenceDepth terms)
termination_by structural terms => terms

/-- How many groups of some alternatives are open at once. -/
def alternationDepth : List (List Term) → Nat
  | [] => 0
  | terms :: alternatives => max (sequenceDepth terms) (alternationDepth alternatives)
termination_by structural alternatives => alternatives

end

namespace Rule

/-- The names in a rule, the one in front of it first. -/
def mentions (rule : Rule) : List (String × Span) :=
  (rule.name, rule.span) :: alternationMentions rule.alternatives

/-- The operators in a rule, each with the atom it is applied to. -/
def operations (rule : Rule) : List (Atom × Bounds) :=
  alternationOperations rule.alternatives

/-- How many groups of a rule are open at once. -/
def depth (rule : Rule) : Nat :=
  alternationDepth rule.alternatives

end Rule

/-- The names that rules mention, those in front of them included. -/
def names (rules : List Rule) : List String :=
  (rules.flatMap Rule.mentions).map (·.1)

/-- Names have a property if those of the first rule and those of the others have it. -/
theorem forall_mem_names_cons {rule : Rule} {rules : List Rule} {p : String → Prop} :
    (∀ name ∈ names (rule :: rules), p name) ↔
      (∀ mention ∈ rule.mentions, p mention.1) ∧ ∀ name ∈ names rules, p name := by
  rw [names, List.flatMap_cons, List.map_append, List.forall_mem_append, List.forall_mem_map]
  rfl

theorem sequenceMentions_append (terms others : List Term) :
    sequenceMentions (terms ++ others) = sequenceMentions terms ++ sequenceMentions others := by
  induction terms with
  | nil => rfl
  | cons term terms ih => simp [sequenceMentions, ih]

theorem alternationMentions_append (alternatives others : List (List Term)) :
    alternationMentions (alternatives ++ others) =
      alternationMentions alternatives ++ alternationMentions others := by
  induction alternatives with
  | nil => rfl
  | cons terms alternatives ih => simp [alternationMentions, ih]

theorem sequenceOperations_append (terms others : List Term) :
    sequenceOperations (terms ++ others) =
      sequenceOperations terms ++ sequenceOperations others := by
  induction terms with
  | nil => rfl
  | cons term terms ih => simp [sequenceOperations, ih]

theorem alternationOperations_append (alternatives others : List (List Term)) :
    alternationOperations (alternatives ++ others) =
      alternationOperations alternatives ++ alternationOperations others := by
  induction alternatives with
  | nil => rfl
  | cons terms alternatives ih => simp [alternationOperations, ih]

/-! ## What the tokens tell -/

mutual

/-- **The mentions of a tree are the names among its tokens**, in their order. The cases are those
    of the spelling. -/
theorem Atom.Spelled.mentions_eq {atom : Atom} {tokens : List Token} :
    atom.Spelled tokens → tokens.filterMap Token.mention? = atom.mentions
  | .literal | .set | .any | .name => rfl
  | .group hfront hinner hback => by
    have := hinner.mentions_eq
    simp [List.filterMap_cons, Token.mention?, Atom.mentions, hfront.mentions_eq,
      hback.mentions_eq, this]

theorem Term.Spelled.mentions_eq {term : Term} {tokens : List Token} :
    term.Spelled tokens → tokens.filterMap Token.mention? = term.mentions
  | .plain hatom => hatom.mentions_eq
  | .repeated hatom hkind => by
    have := hatom.mentions_eq
    rw [List.filterMap_append, this, List.filterMap_cons_none (Token.mention?_of_bounds? hkind)]
    simp [Term.mentions]

theorem SequenceSpelled.mentions_eq {nested : Bool} {terms : List Term} {tokens : List Token} :
    SequenceSpelled nested terms tokens →
      tokens.filterMap Token.mention? = sequenceMentions terms
  | .one hterm => by
    have := hterm.mentions_eq
    simpa [sequenceMentions] using this
  | .more hterms hgap _ hlast => by
    have hinit := hterms.mentions_eq
    have hterm := hlast.mentions_eq
    simp [sequenceMentions_append, sequenceMentions, hgap.mentions_eq, hinit, hterm]

theorem AlternationSpelled.mentions_eq {nested : Bool} {alternatives : List (List Term)}
    {tokens : List Token} :
    AlternationSpelled nested alternatives tokens →
      tokens.filterMap Token.mention? = alternationMentions alternatives
  | .one hterms => by
    have := hterms.mentions_eq
    simpa [alternationMentions] using this
  | .more hinit hbefore hbar hafter hlast => by
    have hfirst := hinit.mentions_eq
    have hterms := hlast.mentions_eq
    simp [alternationMentions_append, alternationMentions, hbefore.mentions_eq,
      Token.mention?_of_kind hbar, hafter.mentions_eq, hfirst, hterms]

end

mutual

/-- **The operations of a tree are the operators among its tokens.** An operator stands behind what
    it repeats, so those inside of a group come before that of the group. -/
theorem Atom.Spelled.operations_eq {atom : Atom} {tokens : List Token} :
    atom.Spelled tokens → tokens.filterMap Token.bounds? = atom.operations.map (·.2)
  | .literal | .set | .any | .name => rfl
  | .group hfront hinner hback => by
    have := hinner.operations_eq
    simp [List.filterMap_cons, Token.bounds?, TokenKind.bounds?, Atom.operations,
      hfront.bounds_eq, hback.bounds_eq, this]

theorem Term.Spelled.operations_eq {term : Term} {tokens : List Token} :
    term.Spelled tokens → tokens.filterMap Token.bounds? = term.operations.map (·.2)
  | .plain hatom => hatom.operations_eq
  | .repeated hatom hkind => by
    have := hatom.operations_eq
    simp [Term.operations, Token.bounds?, hkind, this]

theorem SequenceSpelled.operations_eq {nested : Bool} {terms : List Term} {tokens : List Token} :
    SequenceSpelled nested terms tokens →
      tokens.filterMap Token.bounds? = (sequenceOperations terms).map (·.2)
  | .one hterm => by
    have := hterm.operations_eq
    simpa [sequenceOperations] using this
  | .more hterms hgap _ hlast => by
    have hinit := hterms.operations_eq
    have hterm := hlast.operations_eq
    simp [sequenceOperations_append, sequenceOperations, hgap.bounds_eq, hinit, hterm]

theorem AlternationSpelled.operations_eq {nested : Bool} {alternatives : List (List Term)}
    {tokens : List Token} :
    AlternationSpelled nested alternatives tokens →
      tokens.filterMap Token.bounds? = (alternationOperations alternatives).map (·.2)
  | .one hterms => by
    have := hterms.operations_eq
    simpa [alternationOperations] using this
  | .more hinit hbefore hbar hafter hlast => by
    have hfirst := hinit.operations_eq
    have hterms := hlast.operations_eq
    simp [alternationOperations_append, alternationOperations, hbefore.bounds_eq, Token.bounds?,
      hbar, TokenKind.bounds?, hafter.bounds_eq, hfirst, hterms]

end

/-- The first mention of a rule is that of its own name. -/
theorem Rule.Spelled.mentions_eq {rule : Rule} {tokens : List Token} (h : rule.Spelled tokens) :
    tokens.filterMap Token.mention? = rule.mentions := by
  obtain ⟨hdefine, hfront, hinner⟩ := h
  simp [hdefine, hfront.mentions_eq,
    hinner.mentions_eq, Token.mention?, Rule.mentions]

theorem Rule.Spelled.operations_eq {rule : Rule} {tokens : List Token} (h : rule.Spelled tokens) :
    tokens.filterMap Token.bounds? = rule.operations.map (·.2) := by
  obtain ⟨hdefine, hfront, hinner⟩ := h
  simp [List.filterMap_cons, Token.bounds?, TokenKind.bounds?, hdefine, hfront.bounds_eq,
    hinner.operations_eq, Rule.operations]

/-- So all names among the tokens of rules are mentions of theirs. -/
theorem RulesSpelled.mentions_eq {rules : List Rule} {tokens : List Token}
    (h : RulesSpelled rules tokens) :
    tokens.filterMap Token.mention? = rules.flatMap Rule.mentions := by
  induction h with
  | one hfront hrule => simp [hfront.mentions_eq, hrule.mentions_eq]
  | more _ hgap _ hlast ih => simp [ih, hgap.mentions_eq, hlast.mentions_eq]

/-- And all operators are operations of theirs. -/
theorem RulesSpelled.operations_eq {rules : List Rule} {tokens : List Token}
    (h : RulesSpelled rules tokens) :
    tokens.filterMap Token.bounds? = (rules.flatMap Rule.operations).map (·.2) := by
  induction h with
  | one hfront hrule => simp [hfront.bounds_eq, hrule.operations_eq]
  | more _ hgap _ hlast ih => simp [ih, hgap.bounds_eq, hlast.operations_eq]

/-- **The names in the tokens** are those that the rules mention, in order. -/
theorem Spells.mentions_eq {rules : List Rule} {tokens : List Token} (h : Spells rules tokens) :
    tokens.filterMap Token.mention? = rules.flatMap Rule.mentions := by
  obtain ⟨front, back, hrules, hback, rfl⟩ := h
  rw [List.filterMap_append, hrules.mentions_eq, hback.mentions_eq, List.append_nil]

/-- **The operators among the tokens** are those that the rules apply, in order. -/
theorem Spells.operations_eq {rules : List Rule} {tokens : List Token} (h : Spells rules tokens) :
    tokens.filterMap Token.bounds? = (rules.flatMap Rule.operations).map (·.2) := by
  obtain ⟨front, back, hrules, hback, rfl⟩ := h
  rw [List.filterMap_append, hrules.operations_eq, hback.bounds_eq, List.append_nil]

end Tree

end Bnf
