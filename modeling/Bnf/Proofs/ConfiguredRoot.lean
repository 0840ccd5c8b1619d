import Bnf.Proofs.Gates
import Bnf.Proofs.Tree.FirstMention

/-!
# Asking for a root

The options may name a root. The name is looked up when all else has been read, so it has no part in
the rules, their names and their identities. It is looked up among all identities, those of helpers
included: besides the names that a text defines, the names of its helpers will do.

## Main results

- `Draft.grammar_root` — what a draft becomes if another root is asked for
- `Grammar.parse_root` — what a text becomes
- `Grammar.root_among_all_rules` — which names may be asked for
-/

namespace Bnf

open Drafting

theorem DefinedAt.mem {tokens : List Token} {name : String} {span : Span}
    (h : DefinedAt tokens name span) : ⟨.name name, span⟩ ∈ tokens := by
  obtain ⟨before, define, after, rfl, -⟩ := h
  simp

variable {o : ParseOptions} {g : Grammar}

/-- **Another root for the same draft**: the grammar is the same but for its root, or there is no
    such root. -/
theorem Draft.grammar_root {d : Draft} {stop : Nat}
    (h : d.grammar { o with root := none } stop = .ok g) (name : String) :
    d.grammar { o with root := some name } stop =
      match g.find? name with
      | some id => .ok { g with root := id }
      | none => .error ⟨.grammar (.missingRoot name), 0⟩ := by
  obtain ⟨first, root, hfirst, -, hsome, rfl⟩ := grammar_eq_ok_iff.1 h
  have hrules := rules_eq_ok_iff.2 ⟨hsome, rfl⟩
  rw [grammar, hfirst, hrules, Grammar.find?]
  cases hfind : d.symbols.find? name with
  | none => simp [Draft.root, hfind, bind, Except.bind]
  | some id => simp [Draft.root, hfind, bind, Except.bind, pure, Except.pure]

namespace Grammar

variable {source : String}

/-- **Another root for the same text.** -/
theorem parse_root (h : parse source { o with root := none } = .ok g) (name : String) :
    parse source { o with root := some name } =
      match g.find? name with
      | some id => .ok { g with root := id }
      | none => .error ⟨.grammar (.missingRoot name), 0⟩ := by
  obtain ⟨tokens, htokens, -⟩ := Tree.exists_spells_of_parse h
  obtain ⟨d, hrun, hgrammar, hreject⟩ := (parse_eq_ok_iff htokens).1 h
  -- No step of the machine looks at the root, so the run is that without one.
  have hgates : ∀ token ∈ tokens, token.SameGates (fun _ => False) { o with root := none }
      { o with root := some name } := fun token _ =>
    ⟨fun _ _ => .refl _, fun _ _ => .refl _, fun _ _ _ _ => .refl _⟩
  rw [← congrFun (Place.run_sameUnless (byteLength source.toList) hgates .between).eq] at hrun
  have hroot := Draft.grammar_root hgrammar name
  cases hfind : g.find? name with
  | none =>
    rw [hfind] at hroot
    exact (parse_eq_error_iff htokens hrun).2 (complete_eq_error_iff.2 (.inl hroot))
  | some id =>
    rw [hfind] at hroot
    exact (parse_eq_ok_iff htokens).2 ⟨d, hrun, hroot, hreject⟩

/-- A name that the text does not define is that of a helper, or is not known at all. -/
theorem isHelper_of_find? {name : String} {tokens : List Token} {id : RuleId}
    (h : parse source o = .ok g) (htokens : tokenize source = .ok tokens)
    (hfind : g.find? name = some id) (hundefined : ∀ span, ¬ DefinedAt tokens name span) :
    ∃ rule, g.rule? id = some rule ∧ rule.isHelper = true ∧ g.name id = name := by
  obtain ⟨_, hsame, rules, hspells⟩ := Tree.exists_spells_of_parse h
  cases htokens.symm.trans hsame
  have hname := SymbolTable.name?_of_find? hfind
  have hid : id < g.size := by
    rw [← (Tree.wellFormed_of_parse h).length_names, SymbolTable.length_names]
    exact SymbolTable.name?_eq_some_lt hname
  obtain ⟨rule, hrule⟩ := exists_rule?_of_lt hid
  refine ⟨rule, hrule, ?_, name_of_name? hname⟩
  by_contra hnot
  have hmem := (isHelper_eq_false_iff h htokens hspells hrule).1 (Bool.eq_false_iff.2 hnot)
  rw [name_of_name? hname] at hmem
  obtain ⟨token, htoken, hkind⟩ := hspells.mem_names_iff.1 hmem
  obtain ⟨_, span, _, -, -, hdefined⟩ := exists_find?_of_parse h htokens htoken hkind
  exact hundefined span hdefined

/-- **The root is looked up among all rules.** If a text has a grammar without asking for a root,
    and a root is asked for by its name, then

    - a name that the text defines gives the same grammar with the rule of this name as the root,
    - the name of a helper gives the same grammar with the helper as the root,
    - and any other name is refused as that of no rule. -/
theorem root_among_all_rules (h : parse source { o with root := none } = .ok g) (name : String) :
    ∃ tokens, tokenize source = .ok tokens ∧
      ((∃ span, DefinedAt tokens name span) → ∃ id span alternatives, g.find? name = some id ∧
        g.rule? id = some ⟨.defined span, alternatives⟩ ∧ DefinedAt tokens name span ∧
        parse source { o with root := some name } = .ok { g with root := id }) ∧
      (∀ (id : Nat) (rule : Rule), g.rule? id = some rule → rule.isHelper = true →
        g.name id = name →
        parse source { o with root := some name } = .ok { g with root := id }) ∧
      ((∀ span, ¬ DefinedAt tokens name span) →
        (∀ (id : Nat) (rule : Rule), g.rule? id = some rule → rule.isHelper = true →
          g.name id ≠ name) →
        parse source { o with root := some name } = .error ⟨.grammar (.missingRoot name), 0⟩) := by
  obtain ⟨tokens, htokens, -⟩ := Tree.exists_spells_of_parse h
  have hroot := parse_root h name
  refine ⟨tokens, htokens, ?_, fun id rule hrule _ hname => ?_, fun hundefined hother => ?_⟩
  · rintro ⟨_, hdefined⟩
    obtain ⟨id, span, alternatives, hfind, hrule, hdefined⟩ :=
      exists_find?_of_parse h htokens hdefined.mem rfl
    rw [hfind] at hroot
    exact ⟨id, span, alternatives, hfind, hrule, hdefined, hroot⟩
  · have hfind := (Tree.wellFormed_of_parse h).find?_name (lt_of_rule? hrule)
    rw [hname] at hfind
    rw [hroot, hfind]
  · cases hfind : g.find? name with
    | none => rw [hroot, hfind]
    | some id =>
      obtain ⟨rule, hrule, hhelper, hname⟩ := isHelper_of_find? h htokens hfind hundefined
      exact absurd hname (hother id rule hrule hhelper)

/-- The second rule of a text, its helper, and no rule at all are asked for. -/
theorem root_among_all_rules_with_helper :
    ∃ g, parse "root ::= b \"a\"*\nb ::= \"c\"" = .ok g ∧
      parse "root ::= b \"a\"*\nb ::= \"c\"" { root := some "b" } = .ok { g with root := 1 } ∧
      parse "root ::= b \"a\"*\nb ::= \"c\"" { root := some "_root_2" } =
        .ok { g with root := 2 } ∧
      parse "root ::= b \"a\"*\nb ::= \"c\"" { root := some "c" } =
        .error ⟨.grammar (.missingRoot "c"), 0⟩ := by
  have htokens : tokenize "root ::= b \"a\"*\nb ::= \"c\"" =
      .ok ([⟨.name "root", ⟨0, 4⟩⟩, ⟨.define, ⟨5, 8⟩⟩, ⟨.name "b", ⟨9, 10⟩⟩,
        ⟨.literal ['a'], ⟨11, 14⟩⟩, ⟨.star, ⟨14, 15⟩⟩, ⟨.newline, ⟨15, 16⟩⟩] ++
        ⟨.name "b", ⟨16, 17⟩⟩ :: ⟨.define, ⟨18, 21⟩⟩ :: [⟨.literal ['c'], ⟨22, 25⟩⟩]) := by
    decide +kernel
  obtain ⟨g, hparse, hg⟩ := @exists_parse_of_any {} "root ::= b \"a\"*\nb ::= \"c\""
    (fun g => g.find? "b" = some 1 && g.name 2 = "_root_2" && (g.rule? 2).any (·.isHelper) &&
      g.find? "c" = none) (by decide +kernel)
  simp only [Bool.and_eq_true, decide_eq_true_eq, Option.any_eq_true] at hg
  obtain ⟨⟨⟨hb, hname⟩, helper, hrule, hhelper⟩, hc⟩ := hg
  have hask := @root_among_all_rules {} g _ hparse
  obtain ⟨_, hsame, hdefined, -⟩ := hask "b"
  obtain ⟨_, -, -, hasked, -⟩ := hask "_root_2"
  obtain ⟨_, hsame', -, -, hmissing⟩ := hask "c"
  cases htokens.symm.trans hsame
  cases htokens.symm.trans hsame'
  obtain ⟨id, _, _, hfind, -, -, hroot⟩ := hdefined ⟨_, _, _, _, rfl, rfl⟩
  cases hb.symm.trans hfind
  refine ⟨g, hparse, hroot, hasked 2 helper hrule hhelper hname, hmissing ?_ ?_⟩
  · intro span hdefined
    have htoken := hdefined.mem
    simp at htoken
  · intro id rule hrule _ hsame
    have hfind := (Tree.wellFormed_of_parse hparse).find?_name (lt_of_rule? hrule)
    rw [hsame, hc] at hfind
    cases hfind

/-- The name of a helper may be asked for, which the text does not define. -/
theorem helper_accepted_as_root :
    ¬ ∀ (source : String) (o : ParseOptions) (g : Grammar) (name : String) (tokens : List Token),
      parse source { o with root := none } = .ok g → tokenize source = .ok tokens →
      (∀ span, ¬ DefinedAt tokens name span) →
      parse source { o with root := some name } = .error ⟨.grammar (.missingRoot name), 0⟩ := by
  intro h
  have htokens : tokenize "root ::= \"a\"*" =
      .ok [⟨.name "root", ⟨0, 4⟩⟩, ⟨.define, ⟨5, 8⟩⟩, ⟨.literal ['a'], ⟨9, 12⟩⟩,
        ⟨.star, ⟨12, 13⟩⟩] := by decide +kernel
  obtain ⟨g, hparse⟩ : ∃ g, parse "root ::= \"a\"*" = .ok g :=
    exists_parse_of_isOk (by decide +kernel)
  have hsome : (parse "root ::= \"a\"*" { root := some "_root_1" }).isOk = true := by
    decide +kernel
  rw [h _ {} g "_root_1" _ hparse htokens] at hsome
  · cases hsome
  · intro span hdefined
    have htoken := hdefined.mem
    simp at htoken

end Grammar

end Bnf
