import Bnf.Proofs.Tree.Acceptance

/-!
# Trees without spans

Where the tokens of a text stand matters to its errors only. Tokens of the same kinds spell the same
trees up to the spans in them, and a reader accepts the ones if it accepts the others.

## Main definitions

- `Tree.Atom.bare`, `Tree.Term.bare`, `Tree.Rule.bare` — a part of a tree without its spans

## Main results

- `Tree.Spells.exists_of_kinds` — tokens of the same kinds spell the same rules
- `Tree.Rule.admitted_bare` — the checks of a reader do not look at spans
-/

namespace Bnf

/-- Tokens of the kinds of line breaks are line breaks. -/
theorem Newlines.of_kinds {tokens others : List Token} (h : Newlines tokens)
    (hkinds : others.map (·.kind) = tokens.map (·.kind)) : Newlines others := by
  intro other hother
  obtain ⟨token, htoken, hkind⟩ := List.mem_map.1 (hkinds ▸ List.mem_map_of_mem hother)
  rw [← hkind]
  exact h token htoken

namespace Tree

mutual

/-- An atom without its spans. -/
def Atom.bare : Atom → Atom
  | .literal chars _ => .literal chars (.point 0)
  | .set chars _ => .set chars (.point 0)
  | .any _ => .any (.point 0)
  | .name text _ => .name text (.point 0)
  | .group _ alternatives _ => .group (.point 0) (bareAlternation alternatives) (.point 0)
termination_by structural atom => atom

/-- A term without its spans. -/
def Term.bare : Term → Term
  | .mk atom none => .mk atom.bare none
  | .mk atom (some operator) => .mk atom.bare (some ⟨operator.bounds, .point 0⟩)
termination_by structural term => term

/-- The terms of a sequence without their spans. -/
def bareSequence : List Term → List Term
  | [] => []
  | term :: terms => term.bare :: bareSequence terms
termination_by structural terms => terms

/-- Alternatives without their spans. -/
def bareAlternation : List (List Term) → List (List Term)
  | [] => []
  | terms :: alternatives => bareSequence terms :: bareAlternation alternatives
termination_by structural alternatives => alternatives

end

/-- A rule without its spans. -/
def Rule.bare (rule : Rule) : Rule :=
  ⟨rule.name, .point 0, bareAlternation rule.alternatives⟩

theorem bareSequence_append (terms others : List Term) :
    bareSequence (terms ++ others) = bareSequence terms ++ bareSequence others := by
  induction terms with
  | nil => rfl
  | cons term terms ih => simp [bareSequence, ih]

theorem bareAlternation_append (alternatives others : List (List Term)) :
    bareAlternation (alternatives ++ others) =
      bareAlternation alternatives ++ bareAlternation others := by
  induction alternatives with
  | nil => rfl
  | cons terms alternatives ih => simp [bareAlternation, ih]

/-! ## Tokens of the same kinds -/

/-- Tokens of the same kinds, part by part. -/
theorem exists_append_of_kinds {others first second : List Token}
    (h : others.map (·.kind) = (first ++ second).map (·.kind)) : ∃ xs ys, others = xs ++ ys ∧
      xs.map (·.kind) = first.map (·.kind) ∧ ys.map (·.kind) = second.map (·.kind) := by
  rw [List.map_append, List.map_eq_append_iff] at h
  exact h

/-- Tokens of the same kinds differ in their spans only. -/
theorem exists_cons_of_kinds {others tokens : List Token} {token : Token}
    (h : others.map (·.kind) = (token :: tokens).map (·.kind)) : ∃ span rest,
      others = ⟨token.kind, span⟩ :: rest ∧ rest.map (·.kind) = tokens.map (·.kind) := by
  rw [List.map_cons, List.map_eq_cons_iff] at h
  obtain ⟨⟨kind, span⟩, rest, rfl, rfl, hrest⟩ := h
  exact ⟨span, rest, rfl, hrest⟩

theorem exists_singleton_of_kinds {others : List Token} {token : Token}
    (h : others.map (·.kind) = [token].map (·.kind)) : ∃ span, others = [⟨token.kind, span⟩] := by
  obtain ⟨span, rest, rfl, hrest⟩ := exists_cons_of_kinds h
  obtain rfl := List.map_eq_nil_iff.1 hrest
  exact ⟨span, rfl⟩

mutual

/-- **Tokens of the same kinds spell the same atom**, up to spans. -/
theorem Atom.Spelled.exists_of_kinds {atom : Atom} {tokens others : List Token} :
    atom.Spelled tokens → others.map (·.kind) = tokens.map (·.kind) →
      ∃ other : Atom, other.Spelled others ∧ other.bare = atom.bare
  | .literal, hkinds => by
    obtain ⟨span, rfl⟩ := exists_singleton_of_kinds hkinds
    exact ⟨_, .literal, rfl⟩
  | .set, hkinds => by
    obtain ⟨span, rfl⟩ := exists_singleton_of_kinds hkinds
    exact ⟨_, .set, rfl⟩
  | .any, hkinds => by
    obtain ⟨span, rfl⟩ := exists_singleton_of_kinds hkinds
    exact ⟨_, .any, rfl⟩
  | .name, hkinds => by
    obtain ⟨span, rfl⟩ := exists_singleton_of_kinds hkinds
    exact ⟨_, .name, rfl⟩
  | .group hfront hinner hback, hkinds => by
    obtain ⟨opening, _, rfl, hfromFront⟩ := exists_cons_of_kinds hkinds
    obtain ⟨front, _, rfl, hfrontKinds, hfromInner⟩ := exists_append_of_kinds hfromFront
    obtain ⟨inner, _, rfl, hinnerKinds, hfromBack⟩ := exists_append_of_kinds hfromInner
    obtain ⟨back, _, rfl, hbackKinds, hfromClosing⟩ := exists_append_of_kinds hfromBack
    obtain ⟨closing, rfl⟩ := exists_singleton_of_kinds hfromClosing
    obtain ⟨alternatives, hspelled, hbare⟩ := hinner.exists_of_kinds hinnerKinds
    refine ⟨.group opening alternatives closing, ?_, by simp only [Atom.bare, hbare]⟩
    exact .group (hfront.of_kinds hfrontKinds) hspelled (hback.of_kinds hbackKinds)

/-- An operator has the same bounds at another place. -/
theorem Term.Spelled.exists_of_kinds {term : Term} {tokens others : List Token} :
    term.Spelled tokens → others.map (·.kind) = tokens.map (·.kind) →
      ∃ other : Term, other.Spelled others ∧ other.bare = term.bare
  | .plain hatom, hkinds => by
    obtain ⟨atom, hspelled, hbare⟩ := hatom.exists_of_kinds hkinds
    exact ⟨.mk atom none, .plain hspelled, by simp only [Term.bare, hbare]⟩
  | .repeated hatom hkind, hkinds => by
    obtain ⟨front, _, rfl, hatomKinds, hfromOperator⟩ := exists_append_of_kinds hkinds
    obtain ⟨span, rfl⟩ := exists_singleton_of_kinds hfromOperator
    obtain ⟨atom, hspelled, hbare⟩ := hatom.exists_of_kinds hatomKinds
    exact ⟨.mk atom (some ⟨_, span⟩), .repeated hspelled hkind, by simp only [Term.bare, hbare]⟩

theorem SequenceSpelled.exists_of_kinds {nested : Bool} {terms : List Term}
    {tokens others : List Token} :
    SequenceSpelled nested terms tokens → others.map (·.kind) = tokens.map (·.kind) →
      ∃ found : List Term, SequenceSpelled nested found others ∧
        bareSequence found = bareSequence terms
  | .one hterm, hkinds => by
    obtain ⟨term, hspelled, hbare⟩ := hterm.exists_of_kinds hkinds
    exact ⟨[term], .one hspelled, by simp only [bareSequence, hbare]⟩
  | .more hterms hgap hnested hlast, hkinds => by
    obtain ⟨front, _, rfl, hfrontKinds, hfromGap⟩ := exists_append_of_kinds hkinds
    obtain ⟨gap, last, rfl, hgapKinds, hlastKinds⟩ := exists_append_of_kinds hfromGap
    obtain ⟨terms, hspelled, hbare⟩ := hterms.exists_of_kinds hfrontKinds
    obtain ⟨term, hterm, hbareLast⟩ := hlast.exists_of_kinds hlastKinds
    refine ⟨terms ++ [term], .more hspelled (hgap.of_kinds hgapKinds) (fun h => ?_) hterm, ?_⟩
    · rw [hnested h] at hgapKinds
      exact List.map_eq_nil_iff.1 hgapKinds
    · simp only [bareSequence_append, bareSequence, hbare, hbareLast]

theorem AlternationSpelled.exists_of_kinds {nested : Bool} {alternatives : List (List Term)}
    {tokens others : List Token} :
    AlternationSpelled nested alternatives tokens → others.map (·.kind) = tokens.map (·.kind) →
      ∃ found : List (List Term), AlternationSpelled nested found others ∧
        bareAlternation found = bareAlternation alternatives
  | .one hterms, hkinds => by
    obtain ⟨terms, hspelled, hbare⟩ := hterms.exists_of_kinds hkinds
    exact ⟨[terms], .one hspelled, by simp only [bareAlternation, hbare]⟩
  | .more hinit hbefore hbar hafter hlast, hkinds => by
    obtain ⟨front, _, rfl, hfrontKinds, hfromBefore⟩ := exists_append_of_kinds hkinds
    obtain ⟨before, _, rfl, hbeforeKinds, hfromBar⟩ := exists_append_of_kinds hfromBefore
    obtain ⟨span, _, rfl, hfromAfter⟩ := exists_cons_of_kinds hfromBar
    obtain ⟨after, last, rfl, hafterKinds, hlastKinds⟩ := exists_append_of_kinds hfromAfter
    obtain ⟨alternatives, hspelled, hbare⟩ := hinit.exists_of_kinds hfrontKinds
    obtain ⟨terms, hterms, hbareLast⟩ := hlast.exists_of_kinds hlastKinds
    refine ⟨alternatives ++ [terms], ?_, ?_⟩
    · exact .more hspelled (hbefore.of_kinds hbeforeKinds) hbar (hafter.of_kinds hafterKinds) hterms
    · simp only [bareAlternation_append, bareAlternation, hbare, hbareLast]

end

/-- The same for a rule. -/
theorem Rule.Spelled.exists_of_kinds {rule : Rule} {tokens others : List Token}
    (h : rule.Spelled tokens) (hkinds : others.map (·.kind) = tokens.map (·.kind)) :
    ∃ other : Rule, other.Spelled others ∧ other.bare = rule.bare := by
  obtain ⟨hdefine, hfront, hinner⟩ := h
  obtain ⟨span, _, rfl, hfromDefine⟩ := exists_cons_of_kinds hkinds
  obtain ⟨place, _, rfl, hfromFront⟩ := exists_cons_of_kinds hfromDefine
  obtain ⟨front, inner, rfl, hfrontKinds, hinnerKinds⟩ := exists_append_of_kinds hfromFront
  obtain ⟨alternatives, hspelled, hbare⟩ := hinner.exists_of_kinds hinnerKinds
  refine ⟨⟨_, span, alternatives⟩, .intro hdefine (hfront.of_kinds hfrontKinds) hspelled, ?_⟩
  simp only [Rule.bare, hbare]

/-- The same for rules. -/
theorem RulesSpelled.exists_of_kinds {rules : List Rule} {tokens found : List Token}
    (h : RulesSpelled rules tokens)
    (hkinds : found.map (·.kind) = tokens.map (·.kind)) :
    ∃ rules' : List Rule, RulesSpelled rules' found ∧
      rules'.map Rule.bare = rules.map Rule.bare := by
  induction h generalizing found with
  | one hfront hrule =>
    obtain ⟨front, last, rfl, hfrontKinds, hlastKinds⟩ := exists_append_of_kinds hkinds
    obtain ⟨rule, hspelled, hbare⟩ := hrule.exists_of_kinds hlastKinds
    exact ⟨[rule], .one (hfront.of_kinds hfrontKinds) hspelled, congrArg (fun x => [x]) hbare⟩
  | more _ hgap hne hrule ih =>
    obtain ⟨front, _, rfl, hfrontKinds, hfromGap⟩ := exists_append_of_kinds hkinds
    obtain ⟨gap, last, rfl, hgapKinds, hlastKinds⟩ := exists_append_of_kinds hfromGap
    obtain ⟨rules', hspelled, hbare⟩ := ih hfrontKinds
    obtain ⟨rule, hlast, hbareLast⟩ := hrule.exists_of_kinds hlastKinds
    refine ⟨rules' ++ [rule], .more hspelled (hgap.of_kinds hgapKinds) ?_ hlast, ?_⟩
    · rintro rfl
      exact hne (List.map_eq_nil_iff.1 hgapKinds.symm)
    · rw [List.map_append, List.map_append, hbare, List.map_singleton, List.map_singleton,
        hbareLast]

/-- **Tokens of the same kinds spell the same rules**, up to spans. -/
theorem Spells.exists_of_kinds {rules : List Rule} {tokens found : List Token}
    (h : Spells rules tokens)
    (hkinds : found.map (·.kind) = tokens.map (·.kind)) :
    ∃ rules' : List Rule, Spells rules' found ∧ rules'.map Rule.bare = rules.map Rule.bare := by
  obtain ⟨front, back, hrules, hback, rfl⟩ := h
  obtain ⟨front', back', rfl, hfrontKinds, hbackKinds⟩ := exists_append_of_kinds hkinds
  obtain ⟨rules', hspelled, hbare⟩ := hrules.exists_of_kinds hfrontKinds
  exact ⟨rules', ⟨front', back', hspelled, hback.of_kinds hbackKinds, rfl⟩, hbare⟩

/-! ## Checks -/

mutual

/-- How deep groups are nested is no matter of places. -/
theorem Atom.depth_bare : (atom : Atom) → atom.bare.depth = atom.depth
  | .literal .. | .set .. | .any _ | .name .. => rfl
  | .group _ alternatives _ => by simp only [Atom.bare, Atom.depth, alternationDepth_bare]
termination_by structural atom => atom

theorem Term.depth_bare : (term : Term) → term.bare.depth = term.depth
  | .mk atom none | .mk atom (some _) => by simp only [Term.bare, Term.depth, atom.depth_bare]
termination_by structural term => term

theorem sequenceDepth_bare :
    (terms : List Term) → sequenceDepth (bareSequence terms) = sequenceDepth terms
  | [] => rfl
  | term :: terms => by
    simp only [bareSequence, sequenceDepth, term.depth_bare, sequenceDepth_bare]
termination_by structural terms => terms

theorem alternationDepth_bare : (alternatives : List (List Term)) →
    alternationDepth (bareAlternation alternatives) = alternationDepth alternatives
  | [] => rfl
  | terms :: alternatives => by
    simp only [bareAlternation, alternationDepth, sequenceDepth_bare, alternationDepth_bare]
termination_by structural alternatives => alternatives

end

mutual

/-- Nor is whether there is nothing to repeat. -/
theorem Atom.isVoid_bare : (atom : Atom) → atom.bare.isVoid = atom.isVoid
  | .literal .. | .set .. | .any _ | .name .. => rfl
  | .group _ [] _ => rfl
  | .group _ [terms] _ => by
    simp only [Atom.bare, bareAlternation, Atom.isVoid, isVoidSequence_bare]
  | .group _ (_ :: _ :: _) _ => rfl
termination_by structural atom => atom

theorem Term.isVoid_bare : (term : Term) → term.bare.isVoid = term.isVoid
  | .mk atom none | .mk atom (some _) => by simp only [Term.bare, Term.isVoid, atom.isVoid_bare]
termination_by structural term => term

theorem isVoidSequence_bare :
    (terms : List Term) → isVoidSequence (bareSequence terms) = isVoidSequence terms
  | [] => rfl
  | term :: terms => by
    simp only [bareSequence, isVoidSequence, term.isVoid_bare, isVoidSequence_bare]
termination_by structural terms => terms

end

mutual

/-- Nor are the names that are mentioned, and their order. -/
theorem Atom.mentions_bare :
    (atom : Atom) → atom.bare.mentions.map (·.1) = atom.mentions.map (·.1)
  | .literal .. | .set .. | .any _ | .name .. => rfl
  | .group _ alternatives _ => by simp only [Atom.bare, Atom.mentions, alternationMentions_bare]
termination_by structural atom => atom

theorem Term.mentions_bare :
    (term : Term) → term.bare.mentions.map (·.1) = term.mentions.map (·.1)
  | .mk atom none | .mk atom (some _) => by
    simp only [Term.bare, Term.mentions, atom.mentions_bare]
termination_by structural term => term

theorem sequenceMentions_bare : (terms : List Term) →
    (sequenceMentions (bareSequence terms)).map (·.1) = (sequenceMentions terms).map (·.1)
  | [] => rfl
  | term :: terms => by
    simp only [bareSequence, sequenceMentions, List.map_append, term.mentions_bare,
      sequenceMentions_bare]
termination_by structural terms => terms

theorem alternationMentions_bare : (alternatives : List (List Term)) →
    (alternationMentions (bareAlternation alternatives)).map (·.1) =
      (alternationMentions alternatives).map (·.1)
  | [] => rfl
  | terms :: alternatives => by
    simp only [bareAlternation, alternationMentions, List.map_append, sequenceMentions_bare,
      alternationMentions_bare]
termination_by structural alternatives => alternatives

end

mutual

/-- What is repeated, and with which bounds, is the same without places. -/
theorem Atom.operations_bare : (atom : Atom) →
    atom.bare.operations = atom.operations.map fun (operand, bounds) => (operand.bare, bounds)
  | .literal .. | .set .. | .any _ | .name .. => rfl
  | .group _ alternatives _ => by simp only [Atom.bare, Atom.operations, alternationOperations_bare]
termination_by structural atom => atom

theorem Term.operations_bare : (term : Term) →
    term.bare.operations = term.operations.map fun (operand, bounds) => (operand.bare, bounds)
  | .mk atom none | .mk atom (some _) => by
    simp [Term.bare, Term.operations, atom.operations_bare]
termination_by structural term => term

theorem sequenceOperations_bare : (terms : List Term) → sequenceOperations (bareSequence terms) =
    (sequenceOperations terms).map fun (operand, bounds) => (operand.bare, bounds)
  | [] => rfl
  | term :: terms => by
    simp only [bareSequence, sequenceOperations, List.map_append, term.operations_bare,
      sequenceOperations_bare]
termination_by structural terms => terms

theorem alternationOperations_bare : (alternatives : List (List Term)) →
    alternationOperations (bareAlternation alternatives) =
      (alternationOperations alternatives).map fun (operand, bounds) => (operand.bare, bounds)
  | [] => rfl
  | terms :: alternatives => by
    simp only [bareAlternation, alternationOperations, List.map_append, sequenceOperations_bare,
      alternationOperations_bare]
termination_by structural alternatives => alternatives

end

namespace Rule

variable {options : ParseOptions}

/-- A rule mentions the same names without places. -/
theorem mentions_bare (rule : Rule) : rule.bare.mentions.map (·.1) = rule.mentions.map (·.1) :=
  congrArg (rule.name :: ·) (alternationMentions_bare rule.alternatives)

/-- **The checks of a reader do not look at spans.** -/
theorem admitted_bare {rule : Rule} : rule.bare.Admitted options ↔ rule.Admitted options := by
  have hmentions (p : String → Prop) :
      (∀ mention ∈ rule.bare.mentions, p mention.1) ↔ ∀ mention ∈ rule.mentions, p mention.1 := by
    rw [← List.forall_mem_map (P := p), rule.mentions_bare, List.forall_mem_map]
  have hallowed := hmentions fun name =>
    options.allowReservedNames = true ∨ isReserved name = false
  have hdepth : rule.bare.depth = rule.depth := alternationDepth_bare rule.alternatives
  have hoperations : rule.bare.operations =
      rule.operations.map fun (operand, bounds) => (operand.bare, bounds) :=
    alternationOperations_bare rule.alternatives
  constructor
  · rintro ⟨hnames, hnested, happlied⟩
    refine ⟨hallowed.1 hnames, hdepth ▸ hnested, fun operation hoperation => ?_⟩
    have := happlied (operation.1.bare, operation.2)
      (hoperations ▸ List.mem_map_of_mem hoperation)
    rwa [Atom.isVoid_bare] at this
  · rintro ⟨hnames, hnested, happlied⟩
    refine ⟨hallowed.2 hnames, hdepth ▸ hnested, fun operation hoperation => ?_⟩
    obtain ⟨found, hfound, rfl⟩ := List.mem_map.1 (hoperations ▸ hoperation)
    rw [Atom.isVoid_bare]
    exact happlied found hfound

end Rule

end Tree

end Bnf
