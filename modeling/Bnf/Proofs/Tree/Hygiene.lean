import Bnf.Proofs.Tree.Compiled
import Bnf.Proofs.Tree.Fitting

/-!
# Helpers capture no names

A helper gets a name that no token of the text has, wherever the token is. So a name of the text
never means a helper: it means the rule that the text defines under it, and a text that mentions a
name without such a rule has no grammar.

## Main definitions

- `DefinedAt` — tokens define a rule, where its name has a certain span
- `Grammar.asTable` — the names and rules of a grammar as a table

## Main results

- `Tree.RulesSpelled.definedAt` — the rules that tokens spell are those they define
- `Grammar.names_resolve_of_parse` — names of a text mean what it defines, and never a helper
-/

namespace Bnf

/-- **The tokens define a rule**: somewhere its name, with the given span, is followed by the sign
    of definition. -/
def DefinedAt (tokens : List Token) (name : String) (span : Span) : Prop :=
  ∃ before define after, tokens = before ++ ⟨.name name, span⟩ :: define :: after ∧
    define.kind = .define

theorem DefinedAt.append {tokens : List Token} {name : String} {span : Span}
    (h : DefinedAt tokens name span) (front back : List Token) :
    DefinedAt (front ++ (tokens ++ back)) name span := by
  obtain ⟨before, define, after, rfl, hdefine⟩ := h
  exact ⟨front ++ before, define, after ++ back, by simp, hdefine⟩

namespace Tree

variable {rule : Rule} {rules : List Rule} {tokens : List Token}

theorem Rule.Spelled.definedAt (h : rule.Spelled tokens) :
    DefinedAt tokens rule.name rule.span := by
  obtain @⟨name, span, define, front, inner, alternatives, hdefine, -, -⟩ := h
  exact ⟨[], define, front ++ inner, rfl, hdefine⟩

/-- **The rules that tokens spell are defined by them.** -/
theorem RulesSpelled.definedAt (h : RulesSpelled rules tokens) (hrule : rule ∈ rules) :
    DefinedAt tokens rule.name rule.span := by
  induction h with
  | @one first front tokens _ hspelled =>
    obtain rfl := List.mem_singleton.1 hrule
    simpa using hspelled.definedAt.append front []
  | @more rules last tokens gap back _ _ _ hspelled ih =>
    obtain hbefore | hlast := List.mem_append.1 hrule
    · simpa using (ih hbefore).append [] (gap ++ back)
    · obtain rfl := List.mem_singleton.1 hlast
      simpa using hspelled.definedAt.append (tokens ++ gap) []

theorem Spells.definedAt (h : Spells rules tokens) (hrule : rule ∈ rules) :
    DefinedAt tokens rule.name rule.span := by
  obtain ⟨front, back, hspelled, -, rfl⟩ := h
  simpa using (hspelled.definedAt hrule).append [] back

end Tree

/-! ## Grammars as tables -/

theorem lookup_zipIdx {α : Type} (xs : List α) (start n : Nat) :
    ((xs.zipIdx start).map fun (x, i) => (i, x)).lookup (start + n) = xs[n]? := by
  induction xs generalizing start n with
  | nil => simp
  | cons x xs ih =>
    cases n with
    | zero => simp
    | succ n =>
      have hne : (start + (n + 1) == start) = false := by simp
      rw [List.zipIdx_cons, List.map_cons, List.lookup_cons, hne, ← Nat.add_assoc,
        Nat.add_right_comm, List.getElem?_cons_succ]
      exact ih (start + 1) n

namespace Grammar

variable {g : Grammar} {options : ParseOptions} {source : String}

/-- The names and rules of a grammar, as a table. -/
def asTable (g : Grammar) : Tree.Table :=
  ⟨g.symbols, g.rules.toList.zipIdx.map fun (rule, id) => (id, rule)⟩

@[simp] theorem rule?_asTable (g : Grammar) (id : Nat) : g.asTable.rule? id = g.rule? id := by
  have h := lookup_zipIdx g.rules.toList 0 id
  rw [Nat.zero_add, Array.getElem?_toList] at h
  exact h

/-- The grammar of a text has all names and rules of the table that its rules are expanded to. -/
theorem extends_asTable {rules : List Tree.Rule} (hdistinct : (rules.map (·.name)).Nodup)
    (hdefined : ∀ name ∈ Tree.names rules, name ∈ rules.map (·.name)) :
    (Tree.table rules).Extends (Tree.compile options rules).asTable := by
  refine ⟨List.prefix_rfl, fun {id rule} hrule => ?_⟩
  rw [rule?_asTable, (Tree.rule?_compile hdistinct hdefined).2, hrule]

/-- The rules that a text is spelled by are compiled, with names that mean each other. -/
theorem compiled_of_parse {tokens : List Token} {rules : List Tree.Rule}
    (h : parse source options = .ok g) (htokens : tokenize source = .ok tokens)
    (hspells : Tree.Spells rules tokens) :
    ∀ rule ∈ rules, rule.Compiled (Tree.names rules) g.asTable := by
  obtain ⟨hadmitted, hdistinct, hdefined, -, -, rfl⟩ := (Tree.parse_eq_ok_iff htokens hspells).1 h
  intro rule hrule
  obtain ⟨id, bodies, hname, hid, hbodies⟩ := Tree.table_compiled
    (fun rule hrule operation hoperation =>
      ((hadmitted rule hrule).applied operation hoperation).2.1) hdistinct rule hrule
  have hextends := @extends_asTable options rules hdistinct hdefined
  exact ⟨id, bodies, hextends.name? hname, hextends.rules hid, hbodies.mono hextends⟩

/-- **Names of a text mean what it defines.** The rule that is found by a name is one that the text
    defines, under this name. -/
theorem exists_find?_of_parse {tokens : List Token} (h : parse source options = .ok g)
    (htokens : tokenize source = .ok tokens) {token : Token} (htoken : token ∈ tokens)
    {text : String} (hkind : token.kind = .name text) :
    ∃ id span alternatives, g.find? text = some id ∧
      g.rule? id = some ⟨.defined span, alternatives⟩ ∧ DefinedAt tokens text span := by
  obtain ⟨tokens, hsame, rules, hspells⟩ := Tree.exists_spells_of_parse h
  cases htokens.symm.trans hsame
  obtain ⟨-, -, hdefined, -⟩ := (Tree.parse_eq_ok_iff htokens hspells).1 h
  have hmentioned := hspells.mem_names_iff.2 ⟨token, htoken, hkind⟩
  obtain ⟨rule, hrule, rfl⟩ := List.mem_map.1 (hdefined text hmentioned)
  obtain ⟨id, bodies, hname, hid, -⟩ := compiled_of_parse h htokens hspells rule hrule
  rw [rule?_asTable] at hid
  have hfind := (Tree.wellFormed_of_parse h).find?_name (lt_of_rule? hid)
  rw [name_of_name? hname] at hfind
  exact ⟨id, rule.span, bodies, hfind, hid, hspells.definedAt hrule⟩

/-- **Helpers capture no names.** If a text has a grammar,

    - no name in the text is that of a helper,
    - every name in the text means a rule that the text defines under it,
    - the rules that the text is spelled by are compiled with each name as a mention of its rule,
    - and no two rules have the same name.

    So a text with a name that it does not define has no grammar. -/
theorem names_resolve_of_parse (source : String) (options : ParseOptions) :
    (∀ g, parse source options = .ok g → ∃ tokens, tokenize source = .ok tokens ∧
      (∀ (id : Nat) (rule : Rule), g.rule? id = some rule → rule.isHelper = true →
        ∀ token ∈ tokens, token.kind ≠ .name (g.name id)) ∧
      (∀ token ∈ tokens, ∀ text, token.kind = .name text →
        ∃ id span alternatives, g.find? text = some id ∧
          g.rule? id = some ⟨.defined span, alternatives⟩ ∧ DefinedAt tokens text span) ∧
      (∃ rules, Tree.Spells rules tokens) ∧
      (∀ rules, Tree.Spells rules tokens →
        ∀ rule ∈ rules, rule.Compiled (Tree.names rules) g.asTable) ∧
      ∀ id < g.size, ∀ other < g.size, g.name id = g.name other → id = other) ∧
    ∀ tokens, tokenize source = .ok tokens → ∀ token ∈ tokens, ∀ text, token.kind = .name text →
      (∀ span, ¬ DefinedAt tokens text span) → ∀ g, parse source options ≠ .ok g := by
  constructor
  · intro g hparse
    obtain ⟨tokens, htokens, hspells⟩ := Tree.exists_spells_of_parse hparse
    have hwell := Tree.wellFormed_of_parse hparse
    refine ⟨tokens, htokens, fun id rule hrule hhelper token htoken hkind => ?_,
      fun token htoken text => exists_find?_of_parse hparse htokens htoken, hspells,
      fun rules => compiled_of_parse hparse htokens, fun id hid other hother hsame => ?_⟩
    · -- The rule that is found by the name of the helper would be the helper, and defined.
      obtain ⟨found, span, alternatives, hfound, hdefined, -⟩ :=
        exists_find?_of_parse hparse htokens htoken hkind
      rw [hwell.find?_name (lt_of_rule? hrule), Option.some_inj] at hfound
      rw [← hfound, hrule, Option.some_inj] at hdefined
      rw [hdefined] at hhelper
      cases hhelper
    · have hfind := hwell.find?_name hid
      rw [hsame, hwell.find?_name hother, Option.some_inj] at hfind
      exact hfind.symm
  · intro tokens htokens token htoken text hkind hundefined g hparse
    obtain ⟨_, span, _, -, -, hdefined⟩ := exists_find?_of_parse hparse htokens htoken hkind
    exact hundefined span hdefined

/-- A text that mentions the names which its helpers would get otherwise. -/
theorem names_resolve_beside_helpers :
    ∃ g tokens, parse "r ::= (\"a\" | \"b\") _r_1\n_r_1 ::= \"c\"? _r_2\n_r_2 ::= \"d\"\n"
        { allowReservedNames := true } = .ok g ∧
      (∀ (id : Nat) (rule : Rule), g.rule? id = some rule → rule.isHelper = true →
        ∀ token ∈ tokens, token.kind ≠ .name (g.name id)) ∧
      ∀ token ∈ tokens, ∀ text, token.kind = .name text →
        ∃ id span alternatives, g.find? text = some id ∧
          g.rule? id = some ⟨.defined span, alternatives⟩ ∧ DefinedAt tokens text span := by
  obtain ⟨g, hparse⟩ : ∃ g, parse
      "r ::= (\"a\" | \"b\") _r_1\n_r_1 ::= \"c\"? _r_2\n_r_2 ::= \"d\"\n"
      { allowReservedNames := true } = .ok g := exists_parse_of_isOk (by decide +kernel)
  obtain ⟨tokens, -, hfresh, hdefined, -⟩ := (names_resolve_of_parse _ _).1 g hparse
  exact ⟨g, tokens, hparse, hfresh, hdefined⟩

end Grammar

end Bnf
