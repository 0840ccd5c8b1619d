import Bnf.Proofs.Cutting
import Bnf.Proofs.Tree.Completable

/-!
# Syntax errors are not reported late

A text that is refused while its tokens are read has an error at one of its tokens, or at its end.
This is the token that the machine stands at, or one that it has read: the name of a rule, or a
parenthesis that is open. Whatever comes before can be completed. So no error is reported behind the
first token at which the text cannot be continued any more.

## Main definitions

- `startOf` — the place in front of some tokens

## Main results

- `Place.exists_start_of_run_error` — where a run stops with an error
- `Grammar.syntax_error_not_late` — what comes before a syntax error can be completed
-/

namespace Bnf

open Drafting

variable {options : ParseOptions} {stop : Nat} {next : Option TokenKind} {token : Token}
  {tokens before after others : List Token} {draft final : Draft} {start : Place} {e : ParseError}

/-- Where some tokens start: at the first of them, or if there is none at the end of the text. -/
def startOf (stop : Nat) (tokens : List Token) : Nat :=
  (tokens.head?.map (·.span.start)).getD stop

@[simp] theorem startOf_nil : startOf stop [] = stop :=
  rfl

@[simp] theorem startOf_cons : startOf stop (token :: tokens) = token.span.start :=
  rfl

/-! ## Places in a text -/

namespace Cuts

variable {offset : Nat} {text : List Char}

theorem stop_le (h : Cuts offset text tokens) (hmem : token ∈ tokens) :
    token.span.stop ≤ offset + byteLength text := by
  induction h with
  | nil => cases hmem
  | blank _ _ ih =>
    rw [byteLength, ← Nat.add_assoc]
    exact ih hmem
  | comment _ _ _ ih =>
    rw [← List.cons_append, byteLength_append, ← Nat.add_assoc]
    exact ih hmem
  | token _ _ ih =>
    rw [byteLength_append, ← Nat.add_assoc]
    obtain rfl | hmem := List.mem_cons.1 hmem
    · exact Nat.le_add_right _ _
    · exact ih hmem

/-- **Tokens start one behind the other.** -/
theorem pairwise_start (h : Cuts offset text tokens) :
    tokens.Pairwise fun token other => token.span.start < other.span.start := by
  induction h with
  | nil => exact .nil
  | blank _ _ ih | comment _ _ _ ih => exact ih
  | token hreads hrest ih =>
    refine .cons (fun other hother => ?_) ih
    exact Nat.lt_of_lt_of_le (Nat.lt_add_of_pos_right hreads.byteLength_pos)
      (hrest.span_mem hother).1

/-- A token starts in front of everything behind it. -/
theorem lt_startOf (h : Cuts offset text (before ++ token :: (after ++ others))) :
    token.span.start < startOf (offset + byteLength text) others := by
  have hmem : token ∈ before ++ token :: (after ++ others) := by simp
  cases others with
  | nil => exact Nat.lt_of_lt_of_le (h.span_mem hmem).2 (h.stop_le hmem)
  | cons other others =>
    have hbehind := (List.pairwise_append.1 h.pairwise_start).2.1
    exact (List.pairwise_cons.1 hbehind).1 other (by simp)

/-- **A place in front of tokens tells which tokens come before.** -/
theorem eq_of_startOf_eq {before' after' : List Token} (h : Cuts offset text (before ++ after))
    (hsame : before ++ after = before' ++ after')
    (hstart : startOf (offset + byteLength text) after =
      startOf (offset + byteLength text) after') : before = before' := by
  obtain ⟨middle, rfl, rfl⟩ | ⟨middle, hsome, rfl, rfl⟩ := append_eq_append_cases hsame
  · cases middle with
    | nil => exact (List.append_nil before).symm
    | cons token middle => exact absurd hstart (Nat.ne_of_lt h.lt_startOf)
  · obtain ⟨token, middle, rfl⟩ := List.exists_cons_of_ne_nil hsome
    rw [hsame] at h
    exact absurd hstart (Nat.ne_of_gt h.lt_startOf)

end Cuts

/-! ## Runs that stop with an error -/

namespace Place

/-- **The step at which a run stops** with an error: the end of the text, or the token that the
    machine stands at. -/
theorem exists_advance_of_run_error (h : run options stop start tokens draft = .error e final) :
    ∃ before after reached middle, tokens = before ++ after ∧
      advance options (after.head?.map (·.kind)) start before draft = .ok reached middle ∧
      ((after = [] ∧ reached.finish stop middle = .error e final) ∨
        ∃ token rest, after = token :: rest ∧
          reached.step options token (rest.head?.map (·.kind)) middle = .error e final) := by
  induction tokens generalizing start draft with
  | nil => exact ⟨[], [], start, draft, rfl, rfl, .inl ⟨rfl, h⟩⟩
  | cons token rest ih =>
    obtain hstep | ⟨next, behind, hstep, hrest⟩ := bind_eq_error.1 h
    · exact ⟨[], token :: rest, start, draft, rfl, rfl, .inr ⟨token, rest, rfl, hstep⟩⟩
    · obtain ⟨before, after, reached, middle, rfl, hadvance, hstop⟩ := ih hrest
      refine ⟨token :: before, after, reached, middle, rfl,
        bind_eq_ok.2 ⟨next, behind, ?_, hadvance⟩, hstop⟩
      rwa [← head?_map_kind_append]

theorem advance_safe {p : Nat → Prop} {names : List String}
    (h : start.Sound p options.maxNesting.toNat names)
    (htokens : ∀ token ∈ tokens, p token.span.start) :
    Safe p names (advance options next start tokens) fun more place =>
      place.Sound p options.maxNesting.toNat more := by
  induction tokens generalizing start names with
  | nil => exact .pure fun _ hmore => h.mono hmore
  | cons token rest ih =>
    rw [List.forall_mem_cons] at htokens
    exact (step_safe h htokens.1).bind fun _ _ _ hplace => ih hplace htokens.2

/-- **Where a run stops with an error**: at the token that the machine stands at or at one that it
    has read. -/
theorem exists_start_of_run_error
    (h : run options stop .between tokens (.ofSymbols (.ofTokens others)) = .error e final) :
    ∃ before after, tokens = before ++ after ∧ e.offset = startOf stop after ∧
      Completable options before := by
  obtain ⟨before, after, reached, middle, rfl, hadvance, hstop⟩ := exists_advance_of_run_error h
  have hcompletable := completable_of_advance hadvance
  have hoffset : e.offset = startOf stop after ∨
      ∃ token ∈ before, token.span.start = e.offset := by
    have hstart : Place.between.Sound (fun offset => offset = startOf stop after ∨
        ∃ token ∈ before, token.span.start = offset) options.maxNesting.toNat [] := trivial
    have hread := @advance_safe options (after.head?.map (·.kind)) before _ _ _ hstart
      (fun token hmem => .inr ⟨token, hmem, rfl⟩) _ (Draft.placed_ofSymbols others) List.nil_prefix
    rw [SafeFor, hadvance] at hread
    obtain ⟨hplaced, -, hreached⟩ := hread
    obtain ⟨rfl, hfinish⟩ | ⟨token, rest, rfl, hstep⟩ := hstop
    · exact (finish_safe hreached (.inl rfl) middle hplaced List.prefix_rfl).offset hfinish
    · exact (step_safe hreached (.inl rfl) middle hplaced List.prefix_rfl).offset hstep
  obtain hoffset | ⟨token, hmem, hoffset⟩ := hoffset
  · exact ⟨before, after, rfl, hoffset, hcompletable⟩
  · obtain ⟨front, back, rfl⟩ := List.append_of_mem hmem
    exact ⟨front, token :: back ++ after, by simp, hoffset.symm, hcompletable.of_append⟩

end Place

/-! ## Behind the last token -/

namespace Draft

theorem fault_of_rulesFrom {id : RuleId} {entries : List SymbolEntry}
    (h : draft.rulesFrom id entries = .error e) : ∃ name, e.fault = .undefinedRule name := by
  induction entries generalizing id with
  | nil => cases h
  | cons entry entries ih =>
    rw [rulesFrom] at h
    split at h
    · cases h
      exact ⟨_, rfl⟩
    · cases hothers : draft.rulesFrom (id + 1) entries with
      | error other =>
        rw [hothers] at h
        cases h
        exact ih hothers
      | ok rules =>
        rw [hothers] at h
        cases h

/-- A draft has no grammar because it has no rules, or because one of them or the root is
    missing. -/
theorem fault_of_grammar (h : draft.grammar options stop = .error e) :
    e = ⟨.grammar .noRules, stop⟩ ∨ (∃ name, e.fault = .undefinedRule name) ∨
      ∃ name, e.fault = .grammar (.missingRoot name) := by
  rw [grammar] at h
  split at h
  · cases h
    exact .inl rfl
  · next first _ =>
    cases hrules : draft.rules with
    | error other =>
      rw [hrules] at h
      cases h
      exact .inr (.inl (fault_of_rulesFrom hrules))
    | ok rules =>
      cases hroot : draft.root options first with
      | ok root =>
        rw [hrules, hroot] at h
        cases h
      | error other =>
        rw [hrules, hroot] at h
        cases h
        rw [root] at hroot
        split at hroot
        · cases hroot
        · split at hroot <;> cases hroot
          exact .inr (.inr ⟨_, rfl⟩)

end Draft

/-! ## Texts -/

namespace Grammar

variable {source : String} {fault : GrammarFault} {offset : Nat}

/-- Behind the last token a text has a syntax error only if it has no rules. -/
theorem offset_of_complete_error (hroot : ∀ name, fault ≠ .missingRoot name)
    (hleft : ∀ name, fault ≠ .leftRecursion name)
    (h : complete options stop draft = .error ⟨.grammar fault, offset⟩ final) : offset = stop := by
  obtain hgrammar | ⟨g, -, -, id, _, -, he⟩ := complete_eq_error_iff.1 ⟨final, h⟩
  · obtain he | ⟨name, he⟩ | ⟨name, he⟩ := Draft.fault_of_grammar hgrammar
    · cases he
      rfl
    · cases he
    · cases he
      exact absurd rfl (hroot name)
  · cases he
    exact absurd rfl (hleft _)

/-- **A syntax error is not reported late.** Its place is that of a token, or the end of the text,
    and the tokens in front of it can be completed under the same options. A root that is missing
    and left recursion are no syntax errors: they are told of a whole grammar. -/
theorem syntax_error_not_late (htokens : tokenize source = .ok tokens)
    (h : parse source options = .error ⟨.grammar fault, offset⟩)
    (hroot : ∀ name, fault ≠ .missingRoot name) (hleft : ∀ name, fault ≠ .leftRecursion name) :
    (∃ before after, tokens = before ++ after ∧
      offset = startOf (byteLength source.toList) after) ∧
    ∀ before after, tokens = before ++ after →
      offset = startOf (byteLength source.toList) after → Completable options before := by
  suffices hblamed : ∃ before after, tokens = before ++ after ∧
      offset = startOf (byteLength source.toList) after ∧ Completable options before by
    obtain ⟨before, after, rfl, hoffset, hcompletable⟩ := hblamed
    refine ⟨⟨before, after, rfl, hoffset⟩, fun before' after' hsame hoffset' => ?_⟩
    have hcuts := (tokenize_eq_ok_iff.1 htokens).2
    rw [← Nat.zero_add (byteLength _)] at hoffset hoffset'
    rwa [← hcuts.eq_of_startOf_eq hsame (hoffset.symm.trans hoffset')]
  cases hrun : Place.run options (byteLength source.toList) .between tokens
      (.ofSymbols (.ofTokens tokens)) with
  | error e final =>
    rw [parse_eq_error_of_run htokens hrun] at h
    cases h
    exact Place.exists_start_of_run_error hrun
  | ok _ middle =>
    obtain ⟨final, hcomplete⟩ := (parse_eq_error_iff htokens hrun).1 h
    have hoffset := offset_of_complete_error hroot hleft hcomplete
    refine ⟨tokens, [], (List.append_nil _).symm, hoffset, ?_⟩
    exact @completable_of_run options _ tokens [] _ _ (by rwa [List.append_nil])

/-- A group that the next rule finds open is reported at its parenthesis. -/
theorem syntax_error_at_open_group :
    parse "root ::= \"a\" (\"b\" | \"c\"\nx ::= \"d\"\n" = .error ⟨.grammar .unclosedGroup, 13⟩ ∧
      Completable {} [⟨.name "root", ⟨0, 4⟩⟩, ⟨.define, ⟨5, 8⟩⟩, ⟨.literal ['a'], ⟨9, 12⟩⟩] := by
  let after : List Token := [⟨.openParen, ⟨13, 14⟩⟩, ⟨.literal ['b'], ⟨14, 17⟩⟩, ⟨.bar, ⟨18, 19⟩⟩,
    ⟨.literal ['c'], ⟨20, 23⟩⟩, ⟨.newline, ⟨23, 24⟩⟩, ⟨.name "x", ⟨24, 25⟩⟩, ⟨.define, ⟨26, 29⟩⟩,
    ⟨.literal ['d'], ⟨30, 33⟩⟩, ⟨.newline, ⟨33, 34⟩⟩]
  have htokens : tokenize "root ::= \"a\" (\"b\" | \"c\"\nx ::= \"d\"\n" =
      .ok ([⟨.name "root", ⟨0, 4⟩⟩, ⟨.define, ⟨5, 8⟩⟩, ⟨.literal ['a'], ⟨9, 12⟩⟩] ++ after) := by
    decide +kernel
  have hparse : parse "root ::= \"a\" (\"b\" | \"c\"\nx ::= \"d\"\n" =
      .error ⟨.grammar .unclosedGroup, 13⟩ := by decide +kernel
  obtain ⟨-, hcompletable⟩ := syntax_error_not_late htokens hparse nofun nofun
  exact ⟨hparse, hcompletable _ after rfl rfl⟩

end Grammar

end Bnf
