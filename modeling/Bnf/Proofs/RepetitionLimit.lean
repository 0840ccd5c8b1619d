import Mathlib.Control.Monad.Basic
import Bnf.Proofs.Gates

/-!
# The limit on repetitions, without counts in braces

The limit on repetitions is there for the counts in braces. It is compared with the count of every
operator, though, and `?` and `+` count once. So in a text without counts in braces all limits
above zero are alike, and a limit of zero refuses the first operator that counts once.

## Main definitions

- `TokenKind.countsOnce` — the operators without braces that count once

## Main results

- `Token.sameGates_of_fits` — limits that an operator is within are alike
- `Token.sameGates_zero`, `Token.step_zero_stops` — a limit of zero at an operator that counts once
- `Grammar.read_eq_of_maxRepetition` — limits on a text without counts in braces
-/

namespace Bnf

open Drafting

/-- The operators without braces that count once. -/
def TokenKind.countsOnce : TokenKind → Bool
  | .question | .plus => true
  | _ => false

variable {refused : ParseError → Prop} {o : ParseOptions} {limit : UInt32} {token : Token}
  {bounds : Bounds}

namespace TokenKind

variable {kind : TokenKind}

theorem countsOnce_eq_true_iff : kind.countsOnce = true ↔ kind = .question ∨ kind = .plus := by
  cases kind <;> simp [countsOnce]

theorem countsOnce_eq_false_iff : kind.countsOnce = false ↔ kind ≠ .question ∧ kind ≠ .plus := by
  cases kind <;> simp [countsOnce]

/-- An operator without braces counts once, or not at all. -/
theorem count_of_bounds? (hbounds : kind.bounds? = some bounds)
    (hcounts : ∀ bounds, kind ≠ .counts bounds) :
    bounds.count = if kind.countsOnce then 1 else 0 := by
  cases kind with
  | question | star | plus =>
    cases hbounds
    rfl
  | counts found => exact absurd rfl (hcounts found)
  | _ => cases hbounds

theorem bounds?_of_countsOnce (h : kind.countsOnce = true) :
    ∃ bounds, kind.bounds? = some bounds ∧ bounds.isInverted = false ∧ bounds.count = 1 := by
  cases kind with
  | question | plus => exact ⟨_, rfl, rfl, rfl⟩
  | _ => cases h

end TokenKind

/-! ## One token -/

theorem OpenRule.applyOperator_of_fits (hlimit : bounds.count ≤ limit.toNat)
    (ho : bounds.count ≤ o.maxRepetition.toNat) (r : OpenRule) (term : Term) (span : Span) :
    r.applyOperator { o with maxRepetition := limit } term bounds span =
      r.applyOperator o term bounds span := by
  rw [applyOperator, applyOperator, if_neg (Nat.not_lt.2 hlimit), if_neg (Nat.not_lt.2 ho)]

/-- **Limits that an operator is within are alike** at its token. -/
theorem Token.sameGates_of_fits
    (hfits : ∀ bounds, token.kind.bounds? = some bounds →
      bounds.count ≤ limit.toNat ∧ bounds.count ≤ o.maxRepetition.toNat) :
    token.SameGates refused o { o with maxRepetition := limit } where
  name _ _ := .refl _
  group _ _ := .refl _
  operator bounds hbounds r term := by
    obtain ⟨hlimit, ho⟩ := hfits bounds hbounds
    rw [OpenRule.applyOperator_of_fits hlimit ho]
    exact .refl _

/-- What a limit of zero says of an operator that counts once. -/
def Token.tooLarge (token : Token) : ParseError :=
  ⟨.grammar (.repetitionTooLarge 1 0), token.span.start⟩

/-- **A limit of zero refuses an operator that counts once**, if it can be applied at all. -/
theorem Token.sameGates_zero (h : token.kind.countsOnce = true) :
    token.SameGates (· = token.tooLarge) o { o with maxRepetition := 0 } where
  name _ _ := .refl _
  group _ _ := .refl _
  operator bounds hbounds r term := by
    obtain ⟨_, hsame, hinverted, hcount⟩ := TokenKind.bounds?_of_countsOnce h
    cases hbounds.symm.trans hsame
    have hordered : ¬ bounds.isInverted = true := by simp [hinverted]
    have hlarge : (0 : UInt32).toNat < bounds.count := by simp [hcount]
    rw [OpenRule.applyOperator, OpenRule.applyOperator]
    by_cases hempty : term.symbols.isEmpty
    · rw [if_pos hempty, if_pos hempty]
      exact .refl _
    · rw [if_neg hempty, if_neg hempty, if_neg hordered, if_neg hordered, if_pos hlarge, hcount]
      exact .fail rfl

theorem OpenRule.applyOperator_zero_stops (hinverted : bounds.isInverted = false)
    (hcount : bounds.count = 1) (r : OpenRule) (term : Term) (span : Span) :
    Stops (r.applyOperator { o with maxRepetition := 0 } term bounds span) := by
  have hordered : ¬ bounds.isInverted = true := by simp [hinverted]
  have hlarge : (0 : UInt32).toNat < bounds.count := by simp [hcount]
  rw [applyOperator]
  by_cases hempty : term.symbols.isEmpty
  · rw [if_pos hempty]
    exact stops_fail _ _
  · rw [if_neg hempty, if_neg hordered, if_pos hlarge]
    exact stops_fail _ _

/-- **No step passes an operator that counts once** if the limit is zero: between rules and behind
    a name there is nothing to repeat, and in a rule it is refused. -/
theorem Token.step_zero_stops (h : token.kind.countsOnce = true) (place : Place)
    (next : Option TokenKind) :
    Stops (place.step { o with maxRepetition := 0 } token next) := by
  obtain ⟨bounds, hbounds, hinverted, hcount⟩ := TokenKind.bounds?_of_countsOnce h
  obtain ⟨kind, span⟩ := token
  have hkind := TokenKind.countsOnce_eq_true_iff.1 h
  have hstart (o : ParseOptions) : Stops (Place.startRule o ⟨kind, span⟩) := by
    obtain rfl | rfl := hkind <;> exact stops_fail _ _
  cases place with
  | between =>
    rw [Place.step, if_neg (by obtain rfl | rfl := hkind <;> simp)]
    exact hstart _
  | named name span =>
    rw [Place.step, Place.defineRule, if_neg (by obtain rfl | rfl := hkind <;> simp)]
    exact stops_fail _ _
  | below r =>
    obtain rfl | rfl := hkind <;> exact .of_bind fun _ => hstart _
  | inside r =>
    rw [Place.step, OpenRule.step]
    split
    · next term _ _ hsame =>
      cases hbounds.symm.trans hsame
      exact (OpenRule.applyOperator_zero_stops hinverted hcount r term span).bind
    · obtain rfl | rfl := hkind <;> exact stops_fail _ _

/-! ## Texts -/

namespace Grammar

variable {source : String}

/-- Two limits are alike for a text if every operator in it is within both. -/
theorem read_eq_of_fits
    (hfits : ∀ tokens, tokenize source = .ok tokens → ∀ token ∈ tokens, ∀ bounds,
      token.kind.bounds? = some bounds →
        bounds.count ≤ limit.toNat ∧ bounds.count ≤ o.maxRepetition.toNat) :
    read source { o with maxRepetition := limit } = read source o := by
  cases htokens : tokenize source with
  | error e => rw [read, read, htokens]
  | ok tokens =>
    have hrun := (Place.run_sameUnless (byteLength source.toList)
      (fun token htoken => Token.sameGates_of_fits (hfits tokens htokens token htoken)) .between).eq
    exact read_eq_of_run htokens rfl rfl (congrFun hrun _)

/-- **Limits on a text without counts in braces.** Of such a text

    - all limits above zero make the same, with the same reports,
    - all limits do if there is no `?` and no `+` either,
    - a limit of zero makes an error: the one that the text has under any other limit, or that the
      first `?` or `+` counts more than zero. -/
theorem read_eq_of_maxRepetition
    (hcounts : ∀ tokens, tokenize source = .ok tokens → ∀ token ∈ tokens, ∀ bounds,
      token.kind ≠ .counts bounds) (o : ParseOptions) :
    (1 ≤ o.maxRepetition → ∀ limit : UInt32, 1 ≤ limit →
      read source { o with maxRepetition := limit } = read source o) ∧
    ((∀ tokens, tokenize source = .ok tokens → ∀ token ∈ tokens,
        token.kind ≠ .question ∧ token.kind ≠ .plus) →
      ∀ limit : UInt32, read source { o with maxRepetition := limit } = read source o) ∧
    ∀ before token after, tokenize source = .ok (before ++ token :: after) →
      token.kind = .question ∨ token.kind = .plus →
      (∀ other ∈ before, other.kind ≠ .question ∧ other.kind ≠ .plus) →
      ∃ e, parse source { o with maxRepetition := 0 } = .error e ∧
        (parse source o = .error e ∨
          e = ⟨.grammar (.repetitionTooLarge 1 0), token.span.start⟩) := by
  refine ⟨fun ho limit hlimit => read_eq_of_fits ?_, fun hnone limit => read_eq_of_fits ?_, ?_⟩
  · intro tokens htokens token htoken bounds hbounds
    have ho : 1 ≤ o.maxRepetition.toNat := ho
    have hlimit : 1 ≤ limit.toNat := hlimit
    rw [TokenKind.count_of_bounds? hbounds (hcounts tokens htokens token htoken)]
    split <;> omega
  · intro tokens htokens token htoken bounds hbounds
    have honce := TokenKind.countsOnce_eq_false_iff.2 (hnone tokens htokens token htoken)
    rw [TokenKind.count_of_bounds? hbounds (hcounts tokens htokens token htoken), honce]
    exact ⟨Nat.zero_le _, Nat.zero_le _⟩
  · intro before token after htokens hkind hbefore
    have honce := TokenKind.countsOnce_eq_true_iff.2 hkind
    have hsame : ∀ other ∈ before,
        other.SameGates (· = token.tooLarge) o { o with maxRepetition := 0 } := by
      intro other hother
      refine Token.sameGates_of_fits fun bounds hbounds => ?_
      have hfree := TokenKind.countsOnce_eq_false_iff.2 (hbefore other hother)
      rw [TokenKind.count_of_bounds? hbounds (hcounts _ htokens other (by simp [hother])), hfree]
      exact ⟨Nat.zero_le _, Nat.zero_le _⟩
    -- The run does not get past the operator, so it ends with an error on the way or there.
    let start : Draft := .ofSymbols (.ofTokens (before ++ token :: after))
    have hstops := Place.run_stops (byteLength source.toList)
      (Token.step_zero_stops (o := o) honce) before .between after start
    obtain hrun | ⟨e, final, herror, rfl⟩ := Place.run_sameUnless_until (byteLength source.toList)
      hsame (Token.sameGates_zero honce) (Token.step_zero_stops honce) .between after start
    · cases herror : Place.run o (byteLength source.toList) .between (before ++ token :: after)
        start with
      | ok _ final => exact absurd (hrun.trans herror) (hstops () final)
      | error e final =>
        exact ⟨e, parse_eq_error_of_run htokens (hrun.trans herror),
          .inl (parse_eq_error_of_run htokens herror)⟩
    · exact ⟨_, parse_eq_error_of_run htokens herror, .inr rfl⟩

/-- A limit of one is like any other for an optional literal, and a limit of zero refuses it. -/
theorem read_eq_of_maxRepetition_optional :
    read "root ::= \"a\"?" { maxRepetition := 1 } = read "root ::= \"a\"?" {} ∧
      (∃ g, parse "root ::= \"a\"?" {} = .ok g) ∧
      parse "root ::= \"a\"?" { maxRepetition := 0 } =
        .error ⟨.grammar (.repetitionTooLarge 1 0), 12⟩ := by
  have htokens : tokenize "root ::= \"a\"?" =
      .ok ([⟨.name "root", ⟨0, 4⟩⟩, ⟨.define, ⟨5, 8⟩⟩, ⟨.literal ['a'], ⟨9, 12⟩⟩] ++
        ⟨.question, ⟨12, 13⟩⟩ :: []) := by decide +kernel
  obtain ⟨hsame, -, hzero⟩ := @read_eq_of_maxRepetition "root ::= \"a\"?"
    (fun tokens hfound => by cases htokens.symm.trans hfound; simp) {}
  obtain ⟨e, herror, hcause⟩ := hzero _ _ [] htokens (.inl rfl) (by simp)
  obtain ⟨g, hparse⟩ : ∃ g, parse "root ::= \"a\"?" {} = .ok g :=
    exists_parse_of_isOk (by decide +kernel)
  refine ⟨hsame (by decide) 1 (by decide), ⟨g, hparse⟩, ?_⟩
  obtain hother | rfl := hcause
  · cases hother.symm.trans hparse
  · exact herror

/-- The limit matters for a text without counts in braces: an optional literal is refused if the
    limit is zero. -/
theorem maxRepetition_matters_without_counts :
    ¬ ∀ (source : String) (o : ParseOptions) (limit : UInt32),
      (∀ tokens, tokenize source = .ok tokens → ∀ token ∈ tokens, ∀ bounds,
        token.kind ≠ .counts bounds) →
      parse source { o with maxRepetition := limit } = parse source o := by
  intro h
  have htokens : tokenize "root ::= \"a\"?" =
      .ok [⟨.name "root", ⟨0, 4⟩⟩, ⟨.define, ⟨5, 8⟩⟩, ⟨.literal ['a'], ⟨9, 12⟩⟩,
        ⟨.question, ⟨12, 13⟩⟩] := by decide +kernel
  have hsame := h "root ::= \"a\"?" {} 0
    (fun tokens hfound => by cases htokens.symm.trans hfound; simp)
  obtain ⟨g, hparse⟩ : ∃ g, parse "root ::= \"a\"?" {} = .ok g :=
    exists_parse_of_isOk (by decide +kernel)
  have hrefused : (parse "root ::= \"a\"?" { maxRepetition := 0 }).isOk = false := by
    decide +kernel
  rw [hparse] at hsame
  rw [hsame] at hrefused
  cases hrefused

end Grammar

end Bnf
