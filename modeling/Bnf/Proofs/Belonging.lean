import Bnf.Proofs.Reachability
import Bnf.Proofs.Tree.Constructs
import Bnf.Proofs.Tree.Counted
import Bnf.Proofs.Tree.Ranks

/-!
# Helpers belong to one rule

A helper is made for a part of a rule, and its name tells the rule and its own identity. It is
mentioned where the part stands, or by helpers for parts around this one, so only in the rule it
belongs to and in other helpers of this rule. A walk of mentions from helper to helper stays among
the helpers of a rule and lowers their ranks, unless a repetition mentions itself.

## Main definitions

- `Tree.Rule.HasHelper` — a helper is made for a part of a rule
- `Tree.Rule.Owns` — the helpers of a rule, with what they mention
- `Grammar.HelperMentions` — a helper mentions a helper

## Main results

- `Tree.table_owned` — all helpers of a table belong to its rules
- `Tree.Rule.Owns.exists_rank` — mentions among the helpers of a rule
- `Grammar.helpers_belong_to_rules` — names, mentions and cycles of helpers
-/

namespace Bnf

open Relation

/-- What is in the second of two lists that are related element by element has a counterpart. -/
theorem exists_of_mem_of_forall₂ {α β : Type} {R : α → β → Prop} {xs : List α} {ys : List β} {y : β}
    (h : List.Forall₂ R xs ys) (hy : y ∈ ys) : ∃ x ∈ xs, R x y := by
  induction h with
  | nil => cases hy
  | cons hhead _ ih =>
    obtain rfl | hrest := List.mem_cons.1 hy
    · exact ⟨_, List.mem_cons_self, hhead⟩
    · obtain ⟨x, hx, hrelated⟩ := ih hrest
      exact ⟨x, List.mem_cons_of_mem _ hx, hrelated⟩

/-- **There is no way back up a slope.** If steps from where `p` holds lead to where it holds, and
    down unless they stay, then a step that others undo stays. -/
theorem eq_of_step_of_return {α : Type} {R : α → α → Prop} {p stays : α → Prop} {height : α → Nat}
    (hstep : ∀ a b, p a → R a b → p b ∧ (height b < height a ∨ b = a ∧ stays a)) {a b : α}
    (ha : p a) (hab : R a b) (hback : ReflTransGen R b a) : b = a ∧ stays a := by
  have hbelow {c : α} (hb : p b) (hwalk : ReflTransGen R b c) : p c ∧ height c ≤ height b := by
    induction hwalk with
    | refl => exact ⟨hb, Nat.le_refl _⟩
    | tail _ hlast ih =>
      obtain ⟨hc, hdown | ⟨rfl, -⟩⟩ := hstep _ _ ih.1 hlast
      · exact ⟨hc, Nat.le_trans (Nat.le_of_lt hdown) ih.2⟩
      · exact ih
  obtain ⟨hb, hdown | hstays⟩ := hstep a b ha hab
  · exact absurd (hbelow hb hback).2 (Nat.not_le_of_lt hdown)
  · exact hstays

namespace Tree

variable {mentioned done : List String} {t u : Table} {rule : Rule} {ids before : List RuleId}
  {id : Nat}

/-! ## Helpers of a rule -/

/-- **A helper of a rule** is made for one of its parts. -/
def Rule.HasHelper (t : Table) (rule : Rule) (id : RuleId) : Prop :=
  ∃ construct ∈ rule.constructs, ∃ helper, t.rule? id = some helper ∧
    construct.Answered t rule.name (id, helper)

theorem Rule.HasHelper.mono (h : rule.HasHelper t id) (hextends : t.Extends u)
    (hentries : t.symbols.entries.toList <+: u.symbols.entries.toList) : rule.HasHelper u id := by
  obtain ⟨construct, hconstruct, helper, hhelper, hanswered⟩ := h
  exact ⟨construct, hconstruct, helper, hextends.rules hhelper, hanswered.mono hentries⟩

theorem Rule.HasHelper.exists_name (h : rule.HasHelper t id) :
    ∃ n, t.symbols.name? id = some (helperName rule.name n) := by
  obtain ⟨_, -, _, -, -, n, hn⟩ := h
  exact ⟨n, by rw [SymbolTable.name?, hn, Option.map_some]⟩

/-- **The helpers of a rule**, and what they and the rule mention of each other. -/
structure Rule.Owns (mentioned : List String) (t : Table) (rule : Rule) (ids : List RuleId) :
    Prop where
  realized : rule.Realized mentioned t ids
  helpers : ∀ id ∈ ids, rule.HasHelper t id

theorem Rule.Owns.mono (h : rule.Owns mentioned t ids) (hextends : t.Extends u)
    (hentries : t.symbols.entries.toList <+: u.symbols.entries.toList) :
    rule.Owns mentioned u ids :=
  ⟨h.realized.mono hextends, fun id hid => (h.helpers id hid).mono hextends hentries⟩

/-- A helper that is new when a rule has been expanded is in the block of the rule. -/
theorem Rule.hasHelper_expand {helper : Bnf.Rule}
    (hbefore : ∀ old, t.rule? id = some old → old.isHelper = false)
    (hrule : (rule.expand t).2.rule? id = some helper) (hhelper : helper.isHelper = true) :
    rule.HasHelper (rule.expand t).2 id := by
  obtain ⟨-, block, hblock, helpers, _, bodies, rfl, -, -, hhelpers⟩ := rule.expand_block t
  have hlookup : _ = some helper := hrule
  rw [Table.rule?, hblock, List.lookup_append, Option.or_eq_some_iff] at hlookup
  obtain hnew | ⟨-, hold⟩ := hlookup
  · obtain ⟨front, back, hsplit, -⟩ := List.lookup_eq_some_iff.1 hnew
    have hmem : (id, helper) ∈ helpers := by
      have hentry : (id, helper) ∈ helpers ++ [_] :=
        List.mem_reverse.1 (hsplit ▸ List.mem_append_right _ List.mem_cons_self)
      obtain hmade | hlast := List.mem_append.1 hentry
      · exact hmade
      · cases List.mem_singleton.1 hlast
        cases hhelper
    obtain ⟨construct, hconstruct, hanswered⟩ := exists_of_mem_of_forall₂ hhelpers hmem
    exact ⟨construct, hconstruct, helper, hrule, hanswered⟩
  · rw [hbefore helper hold] at hhelper
    cases hhelper

theorem Rule.expand_owned (h : t.Sound mentioned done) (hhelpers : t.Helpers before)
    (hmentioned : ∀ mention ∈ rule.mentions, mention.1 ∈ mentioned) (hnew : rule.name ∉ done) :
    ∃ ids, (rule.expand t).2.Helpers (before ++ ids) ∧
      rule.Owns mentioned (rule.expand t).2 ids := by
  obtain ⟨ids, hall, hrealized⟩ := Rule.expand_realized h hhelpers hmentioned hnew
  refine ⟨ids, hall, hrealized, fun id hid => ?_⟩
  obtain ⟨helper, hhelper, hishelper⟩ := hall.mem_iff.1 (List.mem_append_right _ hid)
  refine Rule.hasHelper_expand (fun old hold => ?_) hhelper hishelper
  -- An identity among the new ones is none of a helper that was there before.
  by_contra hnot
  have hmem : id ∈ before := hhelpers.mem_iff.2 ⟨old, hold, eq_true_of_ne_false hnot⟩
  exact (List.nodup_append.1 hall.nodup).2.2 id hmem id hid rfl

/-- **All helpers of a table belong to its rules.** -/
theorem table_owned {rules : List Rule} (hdistinct : (rules.map (·.name)).Nodup) :
    ∃ parts : List (List RuleId), (table rules).Helpers parts.flatten ∧
      List.Forall₂ (Rule.Owns (names rules) (table rules)) rules parts :=
  table_parts Rule.expand_owned
    (fun hextends hrule => hrule.mono hextends (expandRules_blocks _ _).1) hdistinct

/-! ## What mentions a helper -/

/-- A mention that is not that of a name of the source is that of a helper at its place. -/
theorem Realized.exists_helper {sketches : List (List Sketch)} {bodies : List Body} {body : Body}
    (h : Realized mentioned t ids sketches bodies) (hbody : body ∈ bodies)
    (hmention : .rule id ∈ body) (hname : ∀ name ∈ mentioned, t.symbols.name? id ≠ some name) :
    ∃ sketch ∈ sketches, ∃ number, .helper number ∈ sketch ∧ ids[number]? = some id := by
  obtain ⟨sketch, hsketch, hsymbols⟩ := exists_of_mem_of_forall₂ h hbody
  obtain ⟨symbol, hsymbol, hrealized⟩ := exists_of_mem_of_forall₂ hsymbols hmention
  cases hrealized with
  | name hmentioned hid => exact absurd hid (hname _ hmentioned)
  | helper hid => exact ⟨sketch, hsketch, _, hsymbol, hid⟩

/-- **Helpers of a rule mention helpers of this rule only, with a lower rank**, unless a repetition
    mentions itself. -/
theorem Rule.Owns.exists_rank (h : rule.Owns mentioned t ids) (hnodup : ids.Nodup) :
    ∃ rank : RuleId → Nat, ∀ id ∈ ids, ∀ found, t.rule? id = some found →
      ∀ body ∈ found.alternatives, ∀ other : RuleId, .rule other ∈ body →
      (∀ name ∈ mentioned, t.symbols.name? other ≠ some name) →
      other ∈ ids ∧ (rank other < rank id ∨ other = id ∧ found.origin = .helper .repetition) := by
  obtain ⟨-, -, -, -, -, -, hhelpers⟩ := h.realized
  obtain ⟨rank, hrank⟩ := rule.orderly_sketch
  have hplace {id number : Nat} (hid : ids[number]? = some id) : ids.idxOf id = number := by
    obtain ⟨hnumber, rfl⟩ := List.getElem?_eq_some_iff.1 hid
    exact hnodup.idxOf_getElem number hnumber
  refine ⟨fun id => rank (ids.idxOf id), ?_⟩
  intro id hid found hfound body hbody other hother hname
  obtain ⟨number, hnumber, hat⟩ := List.mem_iff_getElem.1 hid
  have hid := List.getElem?_eq_some_iff.2 ⟨hnumber, hat⟩
  obtain ⟨hlength, hget⟩ := List.forall₂_iff_get.1 hhelpers
  have hsketch := hget number (hlength ▸ hnumber) hnumber
  simp only [List.get_eq_getElem, hat] at hsketch
  obtain ⟨alternatives, hrule, hrealized⟩ := hsketch
  cases hfound.symm.trans hrule
  obtain ⟨sketch, hmem, next, hnext, hotherid⟩ := hrealized.exists_helper hbody hother hname
  refine ⟨List.mem_of_getElem? hotherid, ?_⟩
  simp only [hplace hid, hplace hotherid]
  obtain ⟨-, hlower | ⟨rfl, hkind⟩⟩ :=
    hrank.lower (List.getElem?_eq_getElem (hlength ▸ hnumber)) sketch hmem next hnext
  · exact .inl hlower
  · refine .inr ⟨?_, congrArg Origin.helper hkind⟩
    rw [hid, Option.some_inj] at hotherid
    exact hotherid.symm

end Tree

/-! ## Helpers of a grammar -/

namespace Grammar

variable {g : Grammar} {source : String} {options : ParseOptions} {tokens : List Token}
  {rules : List Tree.Rule} {parts : List (List RuleId)} {id other : Nat}

/-- An identity is that of a helper. -/
def IsHelper (g : Grammar) (id : RuleId) : Prop :=
  ∃ rule, g.rule? id = some rule ∧ rule.isHelper = true

/-- A helper mentions a helper. -/
structure HelperMentions (g : Grammar) (id other : RuleId) : Prop where
  source : g.IsHelper id
  target : g.IsHelper other
  mentions : g.Mentions id other

/-- All helpers of a text belong to its rules. -/
theorem owned_of_parse (h : parse source options = .ok g) (htokens : tokenize source = .ok tokens)
    (hspells : Tree.Spells rules tokens) :
    ∃ parts : List (List RuleId), g.asTable.Helpers parts.flatten ∧
      List.Forall₂ (Tree.Rule.Owns (Tree.names rules) g.asTable) rules parts := by
  obtain ⟨-, hdistinct, hdefined, -, -, rfl⟩ := (Tree.parse_eq_ok_iff htokens hspells).1 h
  obtain ⟨parts, hhelpers, howned⟩ := Tree.table_owned hdistinct
  have hextends := @extends_asTable options rules hdistinct hdefined
  refine ⟨parts, ⟨hhelpers.nodup, fun {id} => ?_⟩, howned.imp fun _ _ hrule => ?_⟩
  · rw [rule?_asTable, (Tree.rule?_compile hdistinct hdefined).2]
    exact hhelpers.mem_iff
  · exact hrule.mono hextends List.prefix_rfl

theorem IsHelper.exists_part (hhelper : g.IsHelper id)
    (hhelpers : g.asTable.Helpers parts.flatten) : ∃ ids ∈ parts, id ∈ ids := by
  obtain ⟨rule, hrule, hkind⟩ := hhelper
  exact List.mem_flatten.1 (hhelpers.mem_iff.2 ⟨rule, by rwa [rule?_asTable], hkind⟩)

theorem IsHelper.name?_ne (h : parse source options = .ok g)
    (htokens : tokenize source = .ok tokens) (hspells : Tree.Spells rules tokens)
    (hhelper : g.IsHelper id) : ∀ name ∈ Tree.names rules, g.symbols.name? id ≠ some name := by
  obtain ⟨rule, hrule, hhelper⟩ := hhelper
  rintro name hname hid
  rw [← name_of_name? hid, ← isHelper_eq_false_iff h htokens hspells hrule] at hname
  rw [hname] at hhelper
  cases hhelper

/-- **A helper is named by its rule and its identity.** -/
theorem name_eq_of_hasHelper (h : parse source options = .ok g)
    (htokens : tokenize source = .ok tokens) (hspells : Tree.Spells rules tokens)
    (hreserved : options.allowReservedNames = false) {rule : Tree.Rule}
    (hhelper : rule.HasHelper g.asTable id) : g.name id = helperName rule.name id := by
  obtain ⟨hadmitted, -, -, -, -, rfl⟩ := (Tree.parse_eq_ok_iff htokens hspells).1 h
  have hnames : ∀ name ∈ Tree.names rules, isReserved name = false := by
    intro name hname
    obtain ⟨mention, hmention, rfl⟩ := List.mem_map.1 hname
    obtain ⟨rule, hrule, hmention⟩ := List.mem_flatMap.1 hmention
    have hallowed := (hadmitted rule hrule).allowed mention hmention
    rwa [hreserved, or_iff_right Bool.false_ne_true] at hallowed
  obtain ⟨n, hname⟩ := hhelper.exists_name
  obtain ⟨base, hbase⟩ :=
    (Tree.table_counted hnames).told hname (isReserved_helperName rule.name n)
  rw [name_of_name? hname, (eq_of_helperName_eq hbase).2]

/-- A helper is made for parts of one rule only. -/
theorem eq_of_hasHelper (h : parse source options = .ok g) (htokens : tokenize source = .ok tokens)
    (hspells : Tree.Spells rules tokens) (hreserved : options.allowReservedNames = false)
    {rule owner : Tree.Rule} (hrule : rule ∈ rules) (howner : owner ∈ rules)
    (hhelper : rule.HasHelper g.asTable id) (hhelper' : owner.HasHelper g.asTable id) :
    owner = rule := by
  obtain ⟨-, hdistinct, -⟩ := (Tree.parse_eq_ok_iff htokens hspells).1 h
  have hname := name_eq_of_hasHelper h htokens hspells hreserved hhelper
  rw [name_eq_of_hasHelper h htokens hspells hreserved hhelper'] at hname
  exact List.inj_on_of_nodup_map hdistinct howner hrule (eq_of_helperName_eq hname).1

/-- **Mentions of helpers by helpers go down** within a rule, unless a repetition mentions
    itself. -/
theorem exists_height (h : parse source options = .ok g) (htokens : tokenize source = .ok tokens)
    (hspells : Tree.Spells rules tokens) (hhelpers : g.asTable.Helpers parts.flatten)
    (howned : List.Forall₂ (Tree.Rule.Owns (Tree.names rules) g.asTable) rules parts)
    {ids : List RuleId} (hids : ids ∈ parts) :
    ∃ height : RuleId → Nat, ∀ id other : RuleId, id ∈ ids → g.HelperMentions id other →
      other ∈ ids ∧ (height other < height id ∨
        other = id ∧ ∃ alternatives, g.rule? id = some ⟨.helper .repetition, alternatives⟩) := by
  obtain ⟨rule, -, howns⟩ := exists_of_mem_of_forall₂ howned hids
  obtain ⟨rank, hrank⟩ := howns.exists_rank ((List.nodup_flatten.1 hhelpers.nodup).1 ids hids)
  refine ⟨rank, fun id other hid hmentions => ?_⟩
  obtain ⟨body, hbody, hmention⟩ := hmentions.mentions
  obtain ⟨found, hfound, hbody⟩ := mem_alternatives_iff.1 hbody
  obtain ⟨hother, hlower | ⟨hsame, hkind⟩⟩ := hrank id hid found (by rwa [rule?_asTable]) body hbody
    other hmention (hmentions.target.name?_ne h htokens hspells)
  · exact ⟨hother, .inl hlower⟩
  · exact ⟨hother, .inr ⟨hsame, found.alternatives, by rw [hfound, ← hkind]⟩⟩

/-- **What mentions a helper** is the rule that it belongs to, or a helper of this rule. -/
theorem exists_owner_of_mentions (h : parse source options = .ok g)
    (htokens : tokenize source = .ok tokens) (hspells : Tree.Spells rules tokens)
    (hhelpers : g.asTable.Helpers parts.flatten)
    (howned : List.Forall₂ (Tree.Rule.Owns (Tree.names rules) g.asTable) rules parts)
    (hhelper : g.IsHelper id) (hmentions : g.Mentions other id) :
    ∃ rule ∈ rules, rule.HasHelper g.asTable id ∧
      (g.find? rule.name = some other ∨ rule.HasHelper g.asTable other) := by
  have hname := hhelper.name?_ne h htokens hspells
  have hlt := hmentions.lt
  obtain ⟨found, hfound⟩ := exists_rule?_of_lt hlt
  obtain ⟨body, hbody, hmention⟩ := hmentions
  rw [alternatives_of_rule? hfound] at hbody
  cases hkind : found.isHelper with
  | true =>
    obtain ⟨ids, hids, hother⟩ := IsHelper.exists_part ⟨found, hfound, hkind⟩ hhelpers
    obtain ⟨rule, hrule, howns⟩ := exists_of_mem_of_forall₂ howned hids
    obtain ⟨rank, hrank⟩ :=
      howns.exists_rank ((List.nodup_flatten.1 hhelpers.nodup).1 ids hids)
    obtain ⟨hid, -⟩ :=
      hrank other hother found (by rwa [rule?_asTable]) body hbody id hmention hname
    exact ⟨rule, hrule, howns.helpers id hid, .inr (howns.helpers other hother)⟩
  | false =>
    have hwell := Tree.wellFormed_of_parse h
    obtain ⟨-, -, hdefined, -⟩ := (Tree.parse_eq_ok_iff htokens hspells).1 h
    obtain ⟨rule, hrule, hsame⟩ := List.mem_map.1
      (hdefined _ ((isHelper_eq_false_iff h htokens hspells hfound).1 hkind))
    have hfind := hwell.find?_name hlt
    rw [← hsame] at hfind
    have hflip : List.Forall₂ (flip (Tree.Rule.Owns (Tree.names rules) g.asTable)) parts rules :=
      howned.flip
    obtain ⟨ids, -, howns⟩ := exists_of_mem_of_forall₂ hflip hrule
    -- The rule that has been found by its name is the one with the sketch.
    obtain ⟨place, span, alternatives, hplace, hrule', hbodies, -⟩ := howns.realized
    cases hfind.symm.trans ((SymbolTable.find?_eq_some_iff hwell.distinct).2 hplace)
    rw [rule?_asTable] at hrule'
    cases hfound.symm.trans hrule'
    obtain ⟨_, -, _, -, hid⟩ := hbodies.exists_helper hbody hmention hname
    exact ⟨rule, hrule, howns.helpers id (List.mem_of_getElem? hid), .inl hfind⟩

/-- **Helpers belong to one rule.** In a text without names that are kept for helpers,

    - each helper is made for a part of one rule of the text, and is named by this rule and its own
      identity,
    - it is mentioned only by this rule and by helpers for parts of this rule,
    - and a mention of a helper by a helper that is part of a cycle of these is that of a repetition
      by itself. -/
theorem helpers_belong_to_rules (h : parse source options = .ok g)
    (hreserved : options.allowReservedNames = false) :
    ∃ tokens, tokenize source = .ok tokens ∧ (∃ rules, Tree.Spells rules tokens) ∧
      ∀ rules, Tree.Spells rules tokens →
        (∀ id, g.IsHelper id → ∃ rule ∈ rules, rule.HasHelper g.asTable id ∧
          (∀ other ∈ rules, other.HasHelper g.asTable id → other = rule) ∧
          g.name id = helperName rule.name id ∧
          ∀ other, g.Mentions other id →
            g.find? rule.name = some other ∨ rule.HasHelper g.asTable other) ∧
        ∀ id other, g.HelperMentions id other → ReflTransGen g.HelperMentions other id →
          other = id ∧ ∃ alternatives, g.rule? id = some ⟨.helper .repetition, alternatives⟩ := by
  obtain ⟨tokens, htokens, hspells⟩ := Tree.exists_spells_of_parse h
  refine ⟨tokens, htokens, hspells, fun rules hrules => ?_⟩
  obtain ⟨parts, hhelpers, howned⟩ := owned_of_parse h htokens hrules
  refine ⟨fun id hhelper => ?_, fun id other hstep hback => ?_⟩
  · obtain ⟨ids, hids, hid⟩ := hhelper.exists_part hhelpers
    obtain ⟨rule, hrule, howns⟩ := exists_of_mem_of_forall₂ howned hids
    have hhas := howns.helpers id hid
    have honly (other : Tree.Rule) (hother : other ∈ rules)
        (hhas' : other.HasHelper g.asTable id) : other = rule :=
      eq_of_hasHelper h htokens hrules hreserved hrule hother hhas hhas'
    refine ⟨rule, hrule, hhas, honly, name_eq_of_hasHelper h htokens hrules hreserved hhas,
      fun other hmentions => ?_⟩
    obtain ⟨owner, howner, hhas', hother⟩ :=
      exists_owner_of_mentions h htokens hrules hhelpers howned hhelper hmentions
    rwa [honly owner howner hhas'] at hother
  · obtain ⟨ids, hids, hid⟩ := hstep.source.exists_part hhelpers
    obtain ⟨height, hlower⟩ := exists_height h htokens hrules hhelpers howned hids
    exact eq_of_step_of_return hlower hid hstep hback

/-- Nested helpers of two rules, one of which is named like a helper of the other would end. -/
theorem helpers_belong_to_nested_rules :
    ∃ (g : Grammar) (rules : List Tree.Rule),
      parse "root ::= (root_1 | \"x\"*)+\nroot_1 ::= (\"y\" | \"z\"{1,3})?\n" = .ok g ∧
      g.name 4 = "_root_4" ∧ g.name 8 = "_root_1_8" ∧
      (∀ id, g.IsHelper id → ∃ rule ∈ rules, rule.HasHelper g.asTable id ∧
        g.name id = helperName rule.name id ∧
        ∀ other, g.Mentions other id →
          g.find? rule.name = some other ∨ rule.HasHelper g.asTable other) ∧
      ∀ id other, g.HelperMentions id other → ReflTransGen g.HelperMentions other id →
        other = id ∧ ∃ alternatives, g.rule? id = some ⟨.helper .repetition, alternatives⟩ := by
  obtain ⟨g, hparse, hnames⟩ := @exists_parse_of_any {}
    "root ::= (root_1 | \"x\"*)+\nroot_1 ::= (\"y\" | \"z\"{1,3})?\n"
    (fun g => g.name 4 = "_root_4" && g.name 8 = "_root_1_8") (by decide +kernel)
  simp only [Bool.and_eq_true, decide_eq_true_eq] at hnames
  obtain ⟨tokens, -, ⟨rules, hrules⟩, hbelong⟩ := helpers_belong_to_rules hparse rfl
  obtain ⟨howners, hcycles⟩ := hbelong rules hrules
  refine ⟨g, rules, hparse, hnames.1, hnames.2, fun id hhelper => ?_, hcycles⟩
  obtain ⟨rule, hrule, hhas, -, hname, hmentions⟩ := howners id hhelper
  exact ⟨rule, hrule, hhas, hname, hmentions⟩

end Grammar

end Bnf
