import Bnf.Proofs.Gates
import Bnf.Proofs.Tree.Acceptance
import Bnf.Proofs.Tree.Nesting

/-!
# What options let through

Options never change the grammar of a text, only whether the text has one. What a text needs of the
options can be told from its tokens and its grammar: how many parentheses are open at once, the
greatest count in braces, whether a name is kept for helpers, and whether a rule is left recursive.

## Main definitions

- `ParseOptions.permissive` — options that let as much through as any with the same root
- `ParseOptions.Refuses` — the errors that options ask for while tokens are read
- `greatestCount` — the greatest count in braces

## Main results

- `ParseOptions.sameGates_permissive` — other options differ by what they refuse
- `Grammar.exists_parse_iff_of_permissive` — what a text needs of the options
- `Grammar.options_only_gate` — options never change a grammar
-/

namespace Bnf

open Drafting

/-- The options that let as much through as any with the same root. -/
def ParseOptions.permissive (root : Option String) : ParseOptions where
  allowReservedNames := true
  root := root
  leftRecursion := .allow
  maxRepetition := 4294967295
  maxNesting := 4294967295

/-- The errors that options ask for while tokens are read. -/
def ParseOptions.Refuses (o : ParseOptions) (e : ParseError) : Prop :=
  e.fault = .grammar (.nestingTooDeep o.maxNesting.toNat) ∨
    (∃ count, e.fault = .grammar (.repetitionTooLarge count o.maxRepetition.toNat)) ∨
    ∃ name, e.fault = .grammar (.reservedName name)

/-- The count in braces that a token is, and zero for any other token. -/
def Token.count (token : Token) : Nat :=
  match token.kind with
  | .counts bounds => bounds.count
  | _ => 0

/-- The greatest count in braces among some tokens, and zero if there is none. -/
def greatestCount (tokens : List Token) : Nat :=
  tokens.foldr (fun token most => max token.count most) 0

variable {o : ParseOptions} {root : Option String} {source : String} {tokens : List Token}
  {token : Token} {g : Grammar}

theorem Token.count_le_iff {most : Nat} :
    token.count ≤ most ↔ ∀ bounds, token.kind = .counts bounds → bounds.count ≤ most := by
  rw [Token.count]
  split
  · next bounds hkind => simp [hkind]
  · next hother =>
    constructor
    · intro _ bounds hkind
      exact absurd hkind (hother bounds)
    · intro _
      exact Nat.zero_le most

/-- No count is larger than the greatest. -/
theorem greatestCount_le_iff {most : Nat} :
    greatestCount tokens ≤ most ↔
      ∀ token ∈ tokens, ∀ bounds, token.kind = .counts bounds → bounds.count ≤ most := by
  induction tokens with
  | nil => simp [greatestCount]
  | cons token tokens ih =>
    rw [List.forall_mem_cons, ← ih, ← Token.count_le_iff]
    exact Nat.max_le

namespace ParseOptions

/-- No limit is larger than that of permissive options. -/
theorem toNat_le_greatest (limit : UInt32) : limit.toNat ≤ (4294967295 : UInt32).toNat := by
  have hgreatest : (4294967295 : UInt32).toNat = 4294967295 := rfl
  have hlimit := limit.toNat_lt
  omega

theorem maxNesting_le_permissive :
    o.maxNesting.toNat ≤ (permissive root).maxNesting.toNat :=
  toNat_le_greatest o.maxNesting

theorem maxRepetition_le_permissive :
    o.maxRepetition.toNat ≤ (permissive root).maxRepetition.toNat :=
  toNat_le_greatest o.maxRepetition

theorem one_le_maxRepetition_permissive : 1 ≤ (permissive root).maxRepetition := by
  show (1 : UInt32) ≤ 4294967295
  decide

/-! ## What is refused while tokens are read -/

/-- Permissive options allow each name, so only the others can refuse it. -/
theorem requireAllowed_permissive (name : String) (span : Span) :
    SameUnless o.Refuses (requireAllowed (permissive root) name span)
      (requireAllowed o name span) := by
  rw [requireAllowed, requireAllowed]
  by_cases hreserved : !o.allowReservedNames && isReserved name
  · rw [if_pos hreserved]
    exact .fail (.inr (.inr ⟨name, rfl⟩))
  · rw [if_neg hreserved]
    exact .refl _

/-- They allow groups as deep as any others do. -/
theorem openGroup_permissive (r : OpenRule) (span : Span) :
    SameUnless o.Refuses (r.openGroup (permissive root) span) (r.openGroup o span) := by
  rw [OpenRule.openGroup, OpenRule.openGroup]
  by_cases hdeep : o.maxNesting.toNat ≤ r.groups.length
  · rw [if_pos hdeep]
    exact .fail (.inl rfl)
  · have hfits : ¬ (permissive root).maxNesting.toNat ≤ r.groups.length := by
      have := @maxNesting_le_permissive o root
      omega
    rw [if_neg hdeep, if_neg hfits]
    exact .refl _

/-- And they allow as many repetitions. -/
theorem applyOperator_permissive (r : OpenRule) (term : Term) (bounds : Bounds) (span : Span) :
    SameUnless o.Refuses (r.applyOperator (permissive root) term bounds span)
      (r.applyOperator o term bounds span) := by
  rw [OpenRule.applyOperator, OpenRule.applyOperator]
  by_cases hempty : term.symbols.isEmpty
  · rw [if_pos hempty, if_pos hempty]
    exact .refl _
  by_cases hinverted : bounds.isInverted
  · rw [if_neg hempty, if_neg hempty, if_pos hinverted, if_pos hinverted]
    exact .refl _
  rw [if_neg hempty, if_neg hempty, if_neg hinverted, if_neg hinverted]
  by_cases hlarge : o.maxRepetition.toNat < bounds.count
  · rw [if_pos hlarge]
    exact .fail (.inr (.inl ⟨bounds.count, rfl⟩))
  · have hfits : ¬ (permissive root).maxRepetition.toNat < bounds.count := by
      have := @maxRepetition_le_permissive o root
      omega
    rw [if_neg hlarge, if_neg hfits]
    exact .refl _

/-- **Other options differ by what they refuse**, at every token. -/
theorem sameGates_permissive (token : Token) :
    token.SameGates o.Refuses (permissive root) o where
  name name _ := requireAllowed_permissive name token.span
  group _ r := openGroup_permissive r token.span
  operator bounds _ r term := applyOperator_permissive r term bounds token.span

end ParseOptions

/-! ## What a text needs -/

namespace Tree

variable {rules : List Rule} {rule : Rule} {o' : ParseOptions}

/-- Of the options, what rules are compiled to depends on the root only. -/
theorem compile_congr (hroot : o'.root = o.root) : compile o' rules = compile o rules := by
  rw [compile, compile, rootName, rootName, hroot]

theorem Rule.Admitted.permissive (h : rule.Admitted o) : rule.Admitted (.permissive root) where
  allowed _ _ := .inl rfl
  nested := Nat.le_trans h.nested ParseOptions.maxNesting_le_permissive
  applied operation hoperation := by
    obtain ⟨hvoid, hinverted, hcount⟩ := h.applied operation hoperation
    exact ⟨hvoid, hinverted, Nat.le_trans hcount ParseOptions.maxRepetition_le_permissive⟩

end Tree

namespace Grammar

/-- A text that has a grammar under some options has the same under the permissive ones. -/
theorem parse_permissive (hroot : o.root = root) (h : parse source o = .ok g) :
    parse source (.permissive root) = .ok g := by
  obtain ⟨tokens, htokens, rules, hspells⟩ := Tree.exists_spells_of_parse h
  obtain ⟨hadmitted, hdistinct, hdefined, hfound, -, rfl⟩ :=
    (Tree.parse_eq_ok_iff htokens hspells).1 h
  rw [Tree.parse_eq_ok_iff htokens hspells]
  refine ⟨fun rule hrule => (hadmitted rule hrule).permissive, hdistinct, hdefined, ?_, ?_, ?_⟩
  · rw [← hroot]
    exact hfound
  · intro hreject
    cases hreject
  · exact Tree.compile_congr hroot

/-- **What a text needs of the options**, if the permissive ones let it through. -/
theorem exists_parse_iff_of_permissive (hparse : parse source (.permissive root) = .ok g)
    (htokens : tokenize source = .ok tokens) (hroot : o.root = root)
    (hlimit : 1 ≤ o.maxRepetition) :
    (∃ h, parse source o = .ok h) ↔
      mostOpen 0 tokens ≤ o.maxNesting.toNat ∧ greatestCount tokens ≤ o.maxRepetition.toNat ∧
        ((∀ token ∈ tokens, ∀ name, token.kind = .name name → isReserved name = false) ∨
          o.allowReservedNames = true) ∧
        (g.leftRecursive = [] ∨ o.leftRecursion ≠ .reject) := by
  obtain ⟨found, hfound, rules, hspells⟩ := Tree.exists_spells_of_parse hparse
  cases htokens.symm.trans hfound
  obtain ⟨hpermitted, hdistinct, hdefined, hnamed, -, rfl⟩ :=
    (Tree.parse_eq_ok_iff htokens hspells).1 hparse
  obtain ⟨hcounts, hvoid, -, -⟩ :=
    (hspells.forall_admitted_iff ParseOptions.one_le_maxRepetition_permissive).1 hpermitted
  have hsame : Tree.compile o rules = Tree.compile (.permissive root) rules :=
    Tree.compile_congr hroot
  simp only [Tree.parse_eq_ok_iff htokens hspells, hspells.forall_admitted_iff hlimit,
    hspells.mostOpen_le_iff, greatestCount_le_iff, hsame]
  constructor
  · rintro ⟨h, ⟨hcounts', -, hdepth, hnames⟩, -, -, -, hreject, -⟩
    refine ⟨hdepth, fun token htoken bounds hkind => (hcounts' token htoken bounds hkind).2, ?_, ?_⟩
    · by_cases hallowed : o.allowReservedNames = true
      · exact .inr hallowed
      · exact .inl fun token htoken name hkind =>
          (hnames token htoken name hkind).resolve_left hallowed
    · by_cases hleft : o.leftRecursion = .reject
      · exact .inl (hreject hleft)
      · exact .inr hleft
  · rintro ⟨hdepth, hcount, hnames, hleft⟩
    refine ⟨_, ⟨?_, hvoid, hdepth, ?_⟩, hdistinct, hdefined, hroot ▸ hnamed, ?_, rfl⟩
    · intro token htoken bounds hkind
      exact ⟨(hcounts token htoken bounds hkind).1, hcount token htoken bounds hkind⟩
    · intro token htoken name hkind
      obtain hfree | hallowed := hnames
      · exact .inr (hfree token htoken name hkind)
      · exact .inl hallowed
    · intro hreject
      obtain hnone | hnot := hleft
      · exact hnone
      · exact absurd hreject hnot

/-- **What options refuse of a text** that the permissive ones let through. -/
theorem refuses_of_permissive (hparse : parse source (.permissive root) = .ok g)
    (hroot : o.root = root) {e : ParseError} (h : parse source o = .error e) :
    o.Refuses e ∨ o.leftRecursion = .reject ∧ ∃ id others, g.leftRecursive = id :: others ∧
      e = ⟨.grammar (.leftRecursion (g.name id)), g.blame id⟩ := by
  obtain ⟨tokens, htokens, -⟩ := Tree.exists_spells_of_parse hparse
  obtain ⟨d, hrun, hgrammar, -⟩ := (parse_eq_ok_iff htokens).1 hparse
  obtain hsame | ⟨found, final, herror, hrefused⟩ :=
    Place.run_sameUnless _ (fun token _ => @ParseOptions.sameGates_permissive o root token) .between
      (.ofSymbols (.ofTokens tokens))
  · -- The tokens are read as before, so only the look at the whole can be a refusal.
    rw [hrun] at hsame
    have hcomplete := (parse_eq_error_iff htokens hsame).1 h
    rw [complete_eq_error_iff, @Draft.grammar_congr (.permissive root) o hroot,
      hgrammar] at hcomplete
    obtain hnone | ⟨_, hsome, hreject⟩ := hcomplete
    · cases hnone
    · cases hsome
      exact .inr hreject
  · cases h.symm.trans (parse_eq_error_of_run htokens herror)
    exact .inl hrefused

/-- **Options only gate.** What the permissive options refuse is refused by all with the same root.
    If they let a text through with the grammar `g`, other options with the root

    - let the text through exactly if they allow as many open parentheses, as great counts in
      braces, the names, and the left recursion that there are,
    - give the grammar `g` too if they let the text through,
    - and else name one of these four as the cause. -/
theorem options_only_gate (source : String) (root : Option String) :
    (∀ e, parse source (.permissive root) = .error e →
      ∀ o : ParseOptions, o.root = root → ∃ e', parse source o = .error e') ∧
    ∀ g, parse source (.permissive root) = .ok g →
      ∃ tokens, tokenize source = .ok tokens ∧
        ∀ o : ParseOptions, o.root = root → 1 ≤ o.maxRepetition →
          ((∃ h, parse source o = .ok h) ↔
            mostOpen 0 tokens ≤ o.maxNesting.toNat ∧
            greatestCount tokens ≤ o.maxRepetition.toNat ∧
            ((∀ token ∈ tokens, ∀ name, token.kind = .name name → isReserved name = false) ∨
              o.allowReservedNames = true) ∧
            (g.leftRecursive = [] ∨ o.leftRecursion ≠ .reject)) ∧
          (∀ h, parse source o = .ok h → h = g) ∧
          ∀ e, parse source o = .error e →
            e.fault = .grammar (.nestingTooDeep o.maxNesting.toNat) ∨
            (∃ count, e.fault = .grammar (.repetitionTooLarge count o.maxRepetition.toNat)) ∨
            (∃ name, e.fault = .grammar (.reservedName name)) ∨
            ∃ id ∈ g.leftRecursive, e = ⟨.grammar (.leftRecursion (g.name id)), g.blame id⟩ := by
  constructor
  · intro e herror o hroot
    cases hparse : parse source o with
    | error e' => exact ⟨e', rfl⟩
    | ok g => cases herror.symm.trans (parse_permissive hroot hparse)
  · intro g hparse
    obtain ⟨tokens, htokens, -⟩ := Tree.exists_spells_of_parse hparse
    refine ⟨tokens, htokens, fun o hroot hlimit => ⟨?_, ?_, ?_⟩⟩
    · exact exists_parse_iff_of_permissive hparse htokens hroot hlimit
    · intro h hsome
      cases hparse.symm.trans (parse_permissive hroot hsome)
      rfl
    · intro e herror
      obtain (hnesting | hcount | hname) | ⟨-, id, others, hids, rfl⟩ :=
        refuses_of_permissive hparse hroot herror
      · exact .inl hnesting
      · exact .inr (.inl hcount)
      · exact .inr (.inr (.inl hname))
      · exact .inr (.inr (.inr ⟨id, by simp [hids], rfl⟩))

/-- Two groups that are open at once pass a limit of two and not one of one. -/
theorem options_only_gate_nested_groups :
    ∃ g, parse "r ::= ((\"a\"){2,3} | \"b\")\n" (.permissive none) = .ok g ∧
      parse "r ::= ((\"a\"){2,3} | \"b\")\n" { maxNesting := 2 } = .ok g ∧
      ¬ ∃ h, parse "r ::= ((\"a\"){2,3} | \"b\")\n" { maxNesting := 1 } = .ok h := by
  have htokens : tokenize "r ::= ((\"a\"){2,3} | \"b\")\n" =
      .ok [⟨.name "r", ⟨0, 1⟩⟩, ⟨.define, ⟨2, 5⟩⟩, ⟨.openParen, ⟨6, 7⟩⟩, ⟨.openParen, ⟨7, 8⟩⟩,
        ⟨.literal ['a'], ⟨8, 11⟩⟩, ⟨.closeParen, ⟨11, 12⟩⟩, ⟨.counts ⟨2, some 3⟩, ⟨12, 17⟩⟩,
        ⟨.bar, ⟨18, 19⟩⟩, ⟨.literal ['b'], ⟨20, 23⟩⟩, ⟨.closeParen, ⟨23, 24⟩⟩,
        ⟨.newline, ⟨24, 25⟩⟩] := by decide +kernel
  obtain ⟨g, hparse⟩ : ∃ g, parse "r ::= ((\"a\"){2,3} | \"b\")\n" (.permissive none) = .ok g :=
    exists_parse_of_isOk (by decide +kernel)
  obtain ⟨_, hfound, hgate⟩ := (options_only_gate _ none).2 g hparse
  cases htokens.symm.trans hfound
  obtain ⟨htwo, hsame, -⟩ := hgate { maxNesting := 2 } rfl (by decide)
  obtain ⟨hone, -, -⟩ := hgate { maxNesting := 1 } rfl (by decide)
  obtain ⟨h, hsome⟩ := htwo.2 ⟨by decide, by decide, .inl (by simp +decide), .inr (by decide)⟩
  refine ⟨g, hparse, hsame h hsome ▸ hsome, fun hexists => ?_⟩
  exact absurd (hone.1 hexists).1 (by decide)

end Grammar

end Bnf
