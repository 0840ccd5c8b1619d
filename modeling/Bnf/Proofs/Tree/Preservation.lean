import Bnf.Proofs.Tree.Acceptance
import Bnf.Proofs.Tree.Compiled
import Bnf.Proofs.Tree.Language

/-!
# Compiling a tree preserves its language

The language of a compiled grammar is the least solution of the equations of its rules, helpers
included; the language of a syntax tree is the least solution of the equations of its own rules.
Each of them solves the equations of the other up to inclusion, so they agree.

For the one inclusion the languages of the grammar are taken for the names of the source: a helper
then stands for all that it was made for. For the other inclusion every identity needs a bound. It
is what the identity stands for in each of the roles that it was made for: a name, a group, any
number of copies, or a limited number of copies.

## Main definitions

- `Tree.Role` — what an identity was made for, and what that stands for

## Main results

- `Tree.AlternationCompiled.language_le` — compiled symbols stand for no less than their source
- `Tree.AlternationCompiled.le_language` — and for no more
- `Grammar.language_eq_of_parse` — a rule generates the language of its source
-/

namespace Bnf

open Computability

variable {L : RuleId → Language Char} {body tail : Body} {bodies : List Body}

/-! ## Symbols of literals and helpers -/

/-- The set of one character stands for it. -/
theorem CharSet.language_single (c : Char) : (CharSet.single c).language = {[c]} := by
  ext text
  constructor
  · rintro ⟨d, hd, rfl⟩
    have hcd : c ≤ d ∧ d ≤ c := by
      simpa [accepts, single, CharRange.single, CharRange.contains] using hd
    rw [Char.le_antisymm hcd.1 hcd.2]
    rfl
  · rintro rfl
    exact ⟨c, by simp [accepts, single, CharRange.single, CharRange.contains], rfl⟩

/-- The set of all characters stands for any of them. -/
theorem CharSet.language_any : CharSet.any.language = {text | ∃ c, text = [c]} := by
  ext text
  constructor
  · rintro ⟨c, -, rfl⟩
    exact ⟨c, rfl⟩
  · rintro ⟨c, rfl⟩
    exact ⟨c, rfl, rfl⟩

/-- A literal stands for itself. -/
theorem Body.language_literal (chars : List Char) :
    Body.language L (chars.map fun c => .chars (.single c)) = {chars} := by
  induction chars with
  | nil => rfl
  | cons c chars ih =>
    rw [List.map_cons, Body.language_cons, ih, Symbol.language, CharSet.language_single]
    ext text
    rw [Language.mem_mul]
    constructor
    · rintro ⟨_, rfl, _, rfl, rfl⟩
      rfl
    · rintro rfl
      exact ⟨[c], rfl, chars, rfl, rfl⟩

/-- A helper that makes something optional stands for it and for nothing. -/
theorem alternativesLanguage_optional :
    alternativesLanguage L [body, []] = 1 + Body.language L body := by
  rw [alternativesLanguage_cons, alternativesLanguage_cons, alternativesLanguage_nil, add_zero,
    Body.language_nil, add_comm]

namespace Tree

variable {mentioned : List String} {t : Table} {K : String → Language Char}

/-! ## No less than the source -/

section

/-- The languages in `L` take in what the rules of a table make of them, and the languages in `K` of
    the names. -/
structure Closed (mentioned : List String) (t : Table) (L : RuleId → Language Char)
    (K : String → Language Char) : Prop where
  rules : ∀ {id rule}, t.rule? id = some rule → alternativesLanguage L rule.alternatives ≤ L id
  names : ∀ {id name}, name ∈ mentioned → t.symbols.name? id = some name → K name ≤ L id

/-- A chain generates all copies up to its length. This is by induction on the length, as each link
    is one copy more. -/
theorem ChainCompiled.language_le (h : Closed mentioned t L K) {count : Nat}
    (hchain : ChainCompiled t body count tail) :
    copiesUpTo (Body.language L body) count ≤ Body.language L tail := by
  induction hchain with
  | nil => simp
  | @cons count tail id _ hrule ih =>
    -- The rule of the first helper is a copy in front of the rest of the chain, or nothing.
    have hid := h.rules hrule
    rw [alternativesLanguage_optional, Body.language_append] at hid
    rw [copiesUpTo_succ, Body.language_cons, Body.language_nil, mul_one]
    exact le_trans (add_le_add_right (mul_le_mul_right ih _) 1) hid

mutual

/-- **What a tree stands for is generated by what it compiles to.** The cases are those of the
    compilation. -/
theorem Atom.Compiled.language_le (h : Closed mentioned t L K) {atom : Atom} {body : Body} :
    atom.Compiled mentioned t body → atom.language K ≤ Body.language L body
  | .literal => (Body.language_literal _).ge
  | .set => by simp [Atom.language, Symbol.language]
  | .any => by
    rw [Body.language_cons, Body.language_nil, mul_one, Symbol.language, CharSet.language_any]
    exact le_rfl
  | .name hmentioned hname => by
    simpa [Atom.language, Symbol.language] using h.names hmentioned hname
  | .spliced hterms => by
    have := hterms.language_le h
    simpa [Atom.language, alternationLanguage] using this
  | .group halternatives hrule => by
    have hid := le_trans (halternatives.language_le h) (h.rules hrule)
    simpa [Atom.language, Symbol.language] using hid

theorem Term.Compiled.language_le (h : Closed mentioned t L K) {term : Term} {body : Body} :
    term.Compiled mentioned t body → term.language K ≤ Body.language L body
  | .plain hatom => hatom.language_le h
  | @Term.Compiled.unbounded _ _ atom body _ _ id hatom hrule => by
    have hle := hatom.language_le h
    have hid := h.rules hrule
    rw [alternativesLanguage_optional, add_le_iff, Body.language_append] at hid
    rw [Term.language, Bounds.language_unbounded, Body.language_append,
      Body.language_flatten_replicate]
    -- The helper contains the empty text and takes in another copy, so it takes in the star.
    have hstar : (atom.language K)∗ ≤ Body.language L [.rule id] := by
      rw [Body.language_rule] at hid ⊢
      exact kstar_le_of_mul_le_right hid.1 (le_trans (mul_le_mul_left hle _) hid.2)
    exact mul_le_mul' (pow_le_pow_left' hle _) hstar
  | .bounded hatom hle hchain => by
    have hle' := hatom.language_le h
    rw [Term.language, Bounds.language_bounded hle, Body.language_append,
      Body.language_flatten_replicate]
    refine mul_le_mul' (pow_le_pow_left' hle' _) ?_
    exact le_trans (copiesUpTo_mono hle') (hchain.language_le h)

theorem SequenceCompiled.language_le (h : Closed mentioned t L K) {terms : List Term}
    {body : Body} :
    SequenceCompiled mentioned t terms body → sequenceLanguage K terms ≤ Body.language L body
  | .nil => le_rfl
  | .cons hterm hterms => by
    rw [Body.language_append]
    exact mul_le_mul' (hterm.language_le h) (hterms.language_le h)

theorem AlternationCompiled.language_le (h : Closed mentioned t L K)
    {alternatives : List (List Term)} {bodies : List Body} :
    AlternationCompiled mentioned t alternatives bodies →
      alternationLanguage K alternatives ≤ alternativesLanguage L bodies
  | .nil => bot_le
  | .cons hterms halternatives => by
    rw [alternativesLanguage_cons]
    exact add_le_add (hterms.language_le h) (halternatives.language_le h)

end

end

/-! ## No more than the source -/

/-- **What an identity was made for**, and what that stands for. -/
inductive Role (mentioned : List String) (t : Table) (K : String → Language Char) :
    RuleId → Language Char → Prop
  | name {id name} :
      name ∈ mentioned → t.symbols.name? id = some name → Role mentioned t K id (K name)
  | group {id alternatives bodies} :
      AlternationCompiled mentioned t alternatives bodies →
      t.rule? id = some ⟨.helper .group, bodies⟩ →
      Role mentioned t K id (alternationLanguage K alternatives)
  | repetition {id atom body} :
      Atom.Compiled mentioned t atom body →
      t.rule? id = some ⟨.helper .repetition, [body ++ [.rule id], []]⟩ →
      Role mentioned t K id (atom.language K)∗
  | chain {id atom body count} :
      Atom.Compiled mentioned t atom body → ChainCompiled t body count [.rule id] →
      Role mentioned t K id (copiesUpTo (atom.language K) count)

/-- The bound of an identity: what it stands for in all of its roles. -/
def bound (mentioned : List String) (t : Table) (K : String → Language Char) (id : RuleId) :
    Language Char :=
  sInf {X | Role mentioned t K id X}

section

/-- A helper stays within each role that it has. -/
theorem bound_le {id : RuleId} {X : Language Char} (h : Role mentioned t K id X) :
    bound mentioned t K id ≤ X :=
  sInf_le h

/-- A chain generates no more copies than its length. -/
theorem ChainCompiled.le_language {atom : Atom} {count : Nat}
    (hatom : atom.Compiled mentioned t body) (hchain : ChainCompiled t body count tail) :
    Body.language (bound mentioned t K) tail ≤ copiesUpTo (atom.language K) count := by
  cases hchain with
  | nil => simp
  | @cons count tail id hrest hrule =>
    rw [Body.language_rule]
    exact bound_le (.chain hatom (.cons hrest hrule))

mutual

/-- **What a tree compiles to generates nothing else**, if helpers stay within their roles. -/
theorem Atom.Compiled.le_language {atom : Atom} {body : Body} :
    atom.Compiled mentioned t body →
      Body.language (bound mentioned t K) body ≤ atom.language K
  | .literal => (Body.language_literal _).le
  | .set => by simp [Atom.language, Symbol.language]
  | .any => by
    rw [Body.language_cons, Body.language_nil, mul_one, Symbol.language, CharSet.language_any]
    exact le_rfl
  | .name hmentioned hname => by
    rw [Body.language_rule]
    exact bound_le (.name hmentioned hname)
  | .spliced hterms => by
    have := hterms.le_language
    simpa [Atom.language, alternationLanguage] using this
  | .group halternatives hrule => by
    rw [Body.language_rule]
    exact bound_le (.group halternatives hrule)

theorem Term.Compiled.le_language {term : Term} {body : Body} :
    term.Compiled mentioned t body →
      Body.language (bound mentioned t K) body ≤ term.language K
  | .plain hatom => hatom.le_language
  | .unbounded hatom hrule => by
    have hle := hatom.le_language
    rw [Term.language, Bounds.language_unbounded, Body.language_append,
      Body.language_flatten_replicate, Body.language_rule]
    exact mul_le_mul' (pow_le_pow_left' hle _) (bound_le (.repetition hatom hrule))
  | .bounded hatom hle hchain => by
    have hle' := hatom.le_language
    rw [Term.language, Bounds.language_bounded hle, Body.language_append,
      Body.language_flatten_replicate]
    exact mul_le_mul' (pow_le_pow_left' hle' _) (ChainCompiled.le_language hatom hchain)

theorem SequenceCompiled.le_language {terms : List Term} {body : Body} :
    SequenceCompiled mentioned t terms body →
      Body.language (bound mentioned t K) body ≤ sequenceLanguage K terms
  | .nil => le_rfl
  | .cons hterm hterms => by
    rw [Body.language_append]
    exact mul_le_mul' hterm.le_language hterms.le_language

theorem AlternationCompiled.le_language {alternatives : List (List Term)} {bodies : List Body} :
    AlternationCompiled mentioned t alternatives bodies →
      alternativesLanguage (bound mentioned t K) bodies ≤ alternationLanguage K alternatives
  | .nil => alternativesLanguage_nil.le
  | .cons hterms halternatives => by
    rw [alternativesLanguage_cons]
    exact add_le_add hterms.le_language halternatives.le_language

end

/-- **The rule of an identity stays within each of its roles**, if the rules of names do. -/
theorem Role.alternativesLanguage_le {id : RuleId} {X : Language Char} {rule : Bnf.Rule}
    (hnames : ∀ {id : RuleId} {name : String} {rule : Bnf.Rule}, name ∈ mentioned →
      t.symbols.name? id = some name → t.rule? id = some rule →
      alternativesLanguage (bound mentioned t K) rule.alternatives ≤ K name)
    (hrole : Role mentioned t K id X) (hrule : t.rule? id = some rule) :
    alternativesLanguage (bound mentioned t K) rule.alternatives ≤ X := by
  cases hrole with
  | name hmentioned hname => exact hnames hmentioned hname hrule
  | group halternatives hgroup =>
    cases hgroup.symm.trans hrule
    exact halternatives.le_language
  | @repetition atom body hatom hrepetition =>
    cases hrepetition.symm.trans hrule
    -- The helper is within the star itself, which a further copy does not leave.
    have hself := @bound_le mentioned t K _ _ (.repetition hatom hrepetition)
    rw [alternativesLanguage_optional, Body.language_append, Body.language_rule]
    calc
      1 + Body.language (bound mentioned t K) body * bound mentioned t K id
      _ ≤ 1 + atom.language K * (atom.language K)∗ :=
        add_le_add le_rfl (mul_le_mul' hatom.le_language hself)
      _ = (atom.language K)∗ := Language.one_add_self_mul_kstar_eq_kstar _
  | @chain atom body count hatom hchain =>
    cases hchain with
    | @cons count tail _ hrest hoptional =>
      cases hoptional.symm.trans hrule
      rw [alternativesLanguage_optional, Body.language_append, copiesUpTo_succ]
      exact add_le_add le_rfl (mul_le_mul' hatom.le_language (hrest.le_language hatom))

end

/-! ## The language of the grammar of a tree -/

variable {options : ParseOptions} {rules : List Rule} {rule : Rule}

/-- The alternatives of a grammar are those of the table that it was made from. -/
theorem alternatives_compile (hdistinct : (rules.map (·.name)).Nodup)
    (hdefined : ∀ name ∈ names rules, name ∈ rules.map (·.name)) (id : RuleId) :
    (compile options rules).alternatives id =
      (((table rules).rule? id).map (·.alternatives)).getD [] := by
  rw [Grammar.alternatives, (rule?_compile hdistinct hdefined).2]

/-- The languages of a grammar take in what the source says. -/
theorem language_le_compile (hdistinct : (rules.map (·.name)).Nodup)
    (hdefined : ∀ name ∈ names rules, name ∈ rules.map (·.name))
    (hbounds : ∀ rule ∈ rules, ∀ operation ∈ rule.operations, operation.2.isInverted = false)
    {id : RuleId} {name : String} (hname : (table rules).symbols.find? name = some id) :
    language rules name ≤ (compile options rules).language id := by
  have hsound := table_sound hdistinct
  let L := (compile options rules).language
  -- A name stands for the language of its identity, and for anything if it has none.
  let K := fun name => (((table rules).symbols.find? name).map L).getD ⊤
  have hK {id : RuleId} {name : String} (h : (table rules).symbols.name? id = some name) :
      K name = L id := by
    simp only [K, (SymbolTable.find?_eq_some_iff hsound.distinct).2 h, Option.map_some,
      Option.getD_some]
  have hclosed : Closed (names rules) (table rules) L K := by
    constructor
    · intro id rule hrule
      have hsolved := (compile options rules).alternativesLanguage_language id
      rw [alternatives_compile hdistinct hdefined, hrule] at hsolved
      exact hsolved.le
    · intro id name _ hid
      exact (hK hid).le
  -- These languages take in what each source rule makes of them, so they take in the least such.
  have hle : language rules ≤ K := by
    refine language_le fun rule hrule => ?_
    obtain ⟨id, bodies, hid, hdefinition, hbodies⟩ := table_compiled hbounds hdistinct rule hrule
    rw [hK hid]
    exact le_trans (hbodies.language_le hclosed) (hclosed.rules hdefinition)
  exact le_trans (hle name) (hK (SymbolTable.name?_of_find? hname)).le

/-- The languages of a grammar are within what the source says. -/
theorem compile_le_language (hdistinct : (rules.map (·.name)).Nodup)
    (hdefined : ∀ name ∈ names rules, name ∈ rules.map (·.name))
    (hbounds : ∀ rule ∈ rules, ∀ operation ∈ rule.operations, operation.2.isInverted = false)
    {id : RuleId} {name : String} (hmentioned : name ∈ names rules)
    (hname : (table rules).symbols.find? name = some id) :
    (compile options rules).language id ≤ language rules name := by
  have hsound := table_sound hdistinct
  have hnames {id : RuleId} {name : String} {rule : Bnf.Rule} (hmentioned : name ∈ names rules)
      (hid : (table rules).symbols.name? id = some name)
      (hrule : (table rules).rule? id = some rule) :
      alternativesLanguage (bound (names rules) (table rules) (language rules))
        rule.alternatives ≤ language rules name := by
    obtain ⟨source, hsource, rfl⟩ := List.mem_map.1 (hdefined name hmentioned)
    obtain ⟨other, bodies, hother, hdefinition, hbodies⟩ :=
      table_compiled hbounds hdistinct source hsource
    rw [← SymbolTable.find?_eq_some_iff hsound.distinct] at hid hother
    cases hid.symm.trans hother
    cases hrule.symm.trans hdefinition
    rw [language_eq hdistinct hsource]
    exact hbodies.le_language
  -- The bounds take in what the rules of the grammar make of them, role by role.
  have hle : (compile options rules).language ≤
      bound (names rules) (table rules) (language rules) := by
    refine Grammar.language_le fun id => ?_
    rw [alternatives_compile hdistinct hdefined]
    cases hrule : (table rules).rule? id with
    | none => exact alternativesLanguage_nil.le.trans bot_le
    | some rule => exact le_sInf fun X hX => hX.alternativesLanguage_le hnames hrule
  exact le_trans (hle id) (bound_le (.name hmentioned (SymbolTable.name?_of_find? hname)))

end Tree

namespace Grammar

/-- **A rule generates the language of its source.** The tokens of a text that has a grammar spell
    some rules, and whichever rules they spell, each of them has an identity in the grammar, which
    generates what the name of the rule stands for in the source: what its alternatives stand for if
    the names that they mention stand for the languages of their rules. -/
theorem language_eq_of_parse {source : String} {options : ParseOptions} {g : Grammar}
    (h : Grammar.parse source options = .ok g) :
    ∃ tokens, tokenize source = .ok tokens ∧ (∃ rules, Tree.Spells rules tokens) ∧
      ∀ rules, Tree.Spells rules tokens → ∀ rule ∈ rules, ∃ id, g.find? rule.name = some id ∧
        g.language id = Tree.language rules rule.name ∧
        g.language id =
          Tree.alternationLanguage (Tree.language rules) rule.alternatives := by
  obtain ⟨tokens, htokens, hspells⟩ := Tree.exists_spells_of_parse h
  refine ⟨tokens, htokens, hspells, fun rules hrules rule hrule => ?_⟩
  obtain ⟨hadmitted, hdistinct, hdefined, -, -, rfl⟩ :=
    (Tree.parse_eq_ok_iff htokens hrules).1 h
  have hbounds (rule : Tree.Rule) (hrule : rule ∈ rules) (operation : Tree.Atom × Bounds)
      (hoperation : operation ∈ rule.operations) : operation.2.isInverted = false :=
    ((hadmitted rule hrule).applied operation hoperation).2.1
  have hmentioned : rule.name ∈ Tree.names rules := by
    refine List.mem_map.2 ⟨(rule.name, rule.span), List.mem_flatMap.2 ⟨rule, hrule, ?_⟩, rfl⟩
    exact List.mem_cons_self
  obtain ⟨id, hid⟩ :=
    Option.isSome_iff_exists.1 (SymbolTable.find?_isSome_iff.2 (Tree.mem_names_table hmentioned))
  have hsame : (Tree.compile options rules).language id = Tree.language rules rule.name :=
    le_antisymm (Tree.compile_le_language hdistinct hdefined hbounds hmentioned hid)
      (Tree.language_le_compile hdistinct hdefined hbounds hid)
  exact ⟨id, hid, hsame, hsame.trans (Tree.language_eq hdistinct hrule)⟩

/-- A repeated group next to a starred rule. -/
theorem language_eq_repeated_group :
    ∃ g, Grammar.parse "r ::= (\"a\" | s){1,3}\ns ::= \"b\"*\n" = .ok g ∧
      ∃ tokens, tokenize "r ::= (\"a\" | s){1,3}\ns ::= \"b\"*\n" = .ok tokens ∧
        (∃ rules, Tree.Spells rules tokens) ∧
        ∀ rules, Tree.Spells rules tokens → ∀ rule ∈ rules, ∃ id, g.find? rule.name = some id ∧
          g.language id = Tree.language rules rule.name ∧
          g.language id =
            Tree.alternationLanguage (Tree.language rules) rule.alternatives := by
  obtain ⟨g, hparse⟩ :
      ∃ g, Grammar.parse "r ::= (\"a\" | s){1,3}\ns ::= \"b\"*\n" = .ok g :=
    exists_parse_of_isOk (by decide +kernel)
  exact ⟨g, hparse, language_eq_of_parse hparse⟩

end Grammar

end Bnf
