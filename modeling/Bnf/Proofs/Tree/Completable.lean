import Bnf.Proofs.MachinePlaces
import Bnf.Proofs.Tree.Acceptance
import Bnf.Proofs.Tree.InGroup

/-!
# Tokens that can be completed

Wherever the machine stands, what it has read is the beginning of a text that the dialect accepts
under the same options. Behind the name of a rule a definition is missing; inside of a rule a
literal and a closing parenthesis for each open group are enough.

## Main definitions

- `Tree.Accepts` — what the dialect accepts, whatever else is asked of the names of rules
- `Completable` — beginnings of what the dialect accepts
- `Place.advance` — the first part of a run

## Main results

- `Place.completable_of_advance` — whatever the machine has read can be completed
-/

namespace Bnf

open Drafting Bnf.Tree

variable {options : ParseOptions} {stop : Nat} {next : Option TokenKind} {token : Token}
  {tokens before after consumed : List Token} {draft middle final : Draft} {place start : Place}

/-- **What the dialect accepts** under some options: the tokens of rules that pass the checks of a
    reader, each by itself. Rules may have the same name, and names may have no rule. -/
def Tree.Accepts (options : ParseOptions) (tokens : List Token) : Prop :=
  ∃ rules, Spells rules tokens ∧ ∀ rule ∈ rules, rule.Admitted options

/-- **The beginning of tokens that the dialect accepts.** -/
def Completable (options : ParseOptions) (before : List Token) : Prop :=
  ∃ rest, Tree.Accepts options (before ++ rest)

theorem Completable.of_append (h : Completable options (before ++ after)) :
    Completable options before := by
  obtain ⟨rest, haccepts⟩ := h
  rw [List.append_assoc] at haccepts
  exact ⟨after ++ rest, haccepts⟩

/-! ## Rules that have been read -/

namespace Tree

/-- Rules that have been read have passed the checks. -/
theorem admitted_of_readRules {rules : List Rule}
    (h : readRules options rules draft = .ok () final) : ∀ rule ∈ rules, rule.Admitted options := by
  induction rules generalizing draft with
  | nil => simp
  | cons rule rules ih =>
    obtain ⟨_, middle, hrule, hrules⟩ := bind_eq_ok.1 h
    exact List.forall_mem_cons.2 ⟨(Rule.of_read hrule).1, ih hrules⟩

theorem admitted_of_run {rules : List Rule} (hspells : Spells rules tokens)
    (h : Place.run options stop .between tokens draft = .ok () final) :
    ∀ rule ∈ rules, rule.Admitted options := by
  rw [run_of_spells options stop hspells] at h
  exact admitted_of_readRules h

/-- The tokens of a rule for the empty text. -/
theorem exists_spelled_empty (name : String) (span : Span) : ∃ rule : Rule, rule.name = name ∧
    rule.Spelled [⟨.name name, span⟩, ⟨.define, span⟩, ⟨.literal [], span⟩] ∧
    ∀ options : ParseOptions, options.allowReservedNames = true ∨ isReserved name = false →
      rule.Admitted options := by
  refine ⟨⟨name, span, [[.mk (.literal [] span) none]]⟩, rfl, ?_, fun options h => ?_⟩
  · exact @Rule.Spelled.intro _ _ _ [] _ _ rfl .nil (.one (.one (.plain .literal)))
  · exact Rule.admitted_iff.2 ⟨h, admitted_nil_iff.2 (Nat.zero_le _)⟩

end Tree

/-- **Behind what may stand in front of a rule** the name of a rule can be completed. -/
theorem Preceding.completable (h : Preceding tokens) {name : String} {span : Span}
    (hrun : Place.run options stop .between tokens draft = .ok () final)
    (hname : options.allowReservedNames = true ∨ isReserved name = false) :
    Completable options (tokens ++ [⟨.name name, span⟩]) := by
  obtain ⟨rule, -, hspelled, hadmitted⟩ := exists_spelled_empty name span
  suffices hrules : ∃ rules, RulesSpelled rules
      (tokens ++ [⟨.name name, span⟩, ⟨.define, span⟩, ⟨.literal [], span⟩]) ∧
      ∀ rule ∈ rules, rule.Admitted options by
    obtain ⟨rules, hrules, hall⟩ := hrules
    refine ⟨[⟨.define, span⟩, ⟨.literal [], span⟩], rules, ⟨_, [], hrules, .nil, ?_⟩, hall⟩
    simp
  obtain hlines | ⟨rules, front, gap, hrules, hgap, hsome, rfl⟩ := h
  · exact ⟨[rule], .one hlines hspelled, by simpa using hadmitted options hname⟩
  · refine ⟨rules ++ [rule], ?_, List.forall_mem_append.2 ⟨?_, ?_⟩⟩
    · rw [List.append_assoc]
      exact .more hrules hgap hsome hspelled
    · exact admitted_of_run ⟨front, gap, hrules, hgap, rfl⟩ hrun
    · simpa using hadmitted options hname

theorem Newlines.completable (h : Newlines tokens) : Completable options tokens := by
  have hrun : Place.run options 0 .between tokens (.ofSymbols .empty) =
      .ok () (.ofSymbols .empty) := by
    rw [← List.append_nil tokens, run_between_newlines options 0 h]
    rfl
  have hname : options.allowReservedNames = true ∨ isReserved "a" = false := .inr rfl
  exact (@Preceding.completable options _ _ _ _ (.inl h) "a" ⟨0, 0⟩ hrun hname).of_append

/-- The beginning of tokens that the machine reads can be completed. -/
theorem completable_of_run
    (h : Place.run options stop .between (before ++ after) draft = .ok () final) :
    Completable options before := by
  obtain hlines | ⟨rules, hspells⟩ := exists_spells_of_run h
  · exact hlines.completable.of_append
  · exact ⟨after, rules, hspells, admitted_of_run hspells h⟩

namespace Place

/-! ## The first part of a run -/

/-- **Reads some tokens** of a text. The kind of the token behind them is `next`. -/
def advance (options : ParseOptions) (next : Option TokenKind) : Place → List Token → Drafting Place
  | place, [] => return place
  | place, token :: rest => do
    advance options next (← place.step options token ((rest.head?.map (·.kind)).or next)) rest

theorem advance_cons (place : Place) : advance options next place (token :: tokens) =
    place.step options token ((tokens.head?.map (·.kind)).or next) >>=
      (advance options next · tokens) :=
  rfl

theorem head?_map_kind_append (before after : List Token) :
    (before ++ after).head?.map (·.kind) =
      (before.head?.map (·.kind)).or (after.head?.map (·.kind)) := by
  cases before <;> rfl

theorem run_append (place : Place) : run options stop place (before ++ after) =
    advance options (after.head?.map (·.kind)) place before >>= (run options stop · after) := by
  induction before generalizing place with
  | nil => rfl
  | cons token before ih =>
    rw [List.cons_append, run_cons, advance_cons, bind_assoc, head?_map_kind_append]
    exact bind_congr fun reached => ih reached

theorem advance_concat (place : Place) : advance options next place (before ++ [token]) =
    advance options (some token.kind) place before >>= (·.step options token next) := by
  induction before generalizing place with
  | nil => exact bind_pure _
  | cons first before ih =>
    rw [List.cons_append, advance_cons, advance_cons, bind_assoc, head?_map_kind_append,
      Option.or_assoc]
    exact bind_congr fun reached => ih reached

theorem Consumed.advance (h : start.Consumed consumed)
    (hrun : Place.advance options next start before draft = .ok place final) :
    place.Consumed (consumed ++ before) := by
  induction before generalizing start consumed draft with
  | nil =>
    obtain ⟨rfl, -⟩ := pure_eq_ok.1 hrun
    rwa [List.append_nil]
  | cons token before ih =>
    obtain ⟨_, _, hstep, hrest⟩ := bind_eq_ok.1 hrun
    simpa using ih (h.step hstep) hrest

/-- A step that succeeds would have succeeded as well in front of any token that defines nothing. -/
theorem step_eq_ok_of_next {next' : Option TokenKind} (hnext : next' ≠ some .define)
    (h : start.step options token next draft = .ok place final) :
    start.step options token next' draft = .ok place final := by
  by_cases hdefine : next = some .define
  · subst hdefine
    cases start with
    | inside r =>
      obtain ⟨kind, span⟩ := token
      cases kind with
      | name name =>
        -- The name would end the rule here, and that is refused.
        rw [step, OpenRule.step_of_bounds?_eq_none rfl] at h
        simp [OpenRule.read, bind_eq_ok] at h
      | _ => exact h
    | _ => exact h
  · rwa [step_of_next_ne_define hnext hdefine]

theorem advance_eq_ok_of_next {next' : Option TokenKind} (hnext : next' ≠ some .define)
    (h : advance options next start before draft = .ok place final) :
    advance options next' start before draft = .ok place final := by
  induction before generalizing start draft with
  | nil => exact h
  | cons token before ih =>
    obtain ⟨reached, middle, hstep, hrest⟩ := bind_eq_ok.1 h
    refine bind_eq_ok.2 ⟨reached, middle, ?_, ih hrest⟩
    cases before with
    | nil => exact step_eq_ok_of_next hnext hstep
    | cons _ _ => exact hstep

/-- From where the first part of a run leads to, the run may go on with other tokens. -/
theorem run_append_of_advance (hnext : after.head?.map (·.kind) ≠ some .define)
    (h : advance options next start before draft = .ok place middle) :
    run options stop start (before ++ after) draft = run options stop place after middle := by
  rw [run_append]
  exact bind_eq_of_eq_ok (advance_eq_ok_of_next hnext h)

/-! ## Completing what has been read -/

theorem detached_closings (count : Nat) (span : Span) :
    Detached (List.replicate count ⟨.closeParen, span⟩) := by
  cases count with
  | zero => exact .nil
  | succ count => exact .cons (by simp) rfl

/-- A closing parenthesis for each open group ends a rule. -/
theorem exists_run_closings {r : OpenRule} (hterm : r.term = none) (hhas : r.inner.hasTerm = true)
    (span : Span) : ∃ final, run options stop (.inside r)
      (List.replicate r.groups.length ⟨.closeParen, span⟩) draft = .ok () final := by
  generalize hgroups : r.groups = groups
  induction groups generalizing r draft with
  | nil =>
    rw [List.length_nil, List.replicate_zero, run_inside_end options stop hterm hgroups hhas .nil]
    exact ⟨_, rfl⟩
  | cons group groups ih =>
    obtain ⟨middle, hgrouped, -⟩ :=
      @(grouped_follows r.name (group.span.join span) r.inner.toList).succeeds draft trivial
    rw [List.length_cons, List.replicate_succ, run_inside_closeParen hterm hgroups hhas,
      bind_eq_of_eq_ok hgrouped, run_inside_settle (detached_closings _ span)]
    -- The group has become the last term of the alternative around it.
    exact ih (OpenRule.term_settle _) rfl rfl

/-- A literal and a closing parenthesis for each open group end a rule. -/
theorem exists_run_inside (r : OpenRule) (draft : Draft) : ∃ after final,
    after.head?.map (·.kind) ≠ some .define ∧
      run options stop (.inside r) after draft = .ok () final := by
  have hliteral := @Atom.Spelled.literal [] ⟨0, 0⟩
  obtain ⟨final, hfinal⟩ := @exists_run_closings options stop draft
    (r.settle.withInner (r.settle.inner.append [])) r.term_settle rfl ⟨0, 0⟩
  have hdetached := detached_closings r.settle.groups.length ⟨0, 0⟩
  refine ⟨⟨.literal [], ⟨0, 0⟩⟩ :: List.replicate r.settle.groups.length ⟨.closeParen, ⟨0, 0⟩⟩,
    final, by simp, ?_⟩
  rw [run_inside_settle (.cons (by simp) rfl), ← List.singleton_append,
    (Term.Spelled.plain hliteral).run_inside options stop r.term_settle hdetached]
  exact hfinal

theorem allowed_of_startRule {name : String} {span : Span}
    (h : startRule options token draft = .ok (.named name span) final) :
    options.allowReservedNames = true ∨ isReserved name = false := by
  obtain ⟨kind, place⟩ := token
  cases kind with
  | name text =>
    obtain ⟨_, _, hallowed, hnamed⟩ := bind_eq_ok.1 h
    obtain ⟨rfl, -⟩ : text = name ∧ place = span := by simpa using (pure_eq_ok.1 hnamed).1
    exact (requireAllowed_follows options text place).requires hallowed
  | _ => simp [startRule] at h

/-- Inside of a rule no name of another rule is read. -/
theorem OpenRule.read_ne_named {r : OpenRule} {name : String} {span : Span} :
    r.read options token next draft ≠ .ok (.named name span) final := by
  intro h
  obtain ⟨kind, place⟩ := token
  cases kind with
  | newline =>
    obtain ⟨hplace, -⟩ := pure_eq_ok.1 h
    split at hplace <;> cases hplace
  | name text =>
    simp only [OpenRule.read] at h
    split at h
    · simp [bind_eq_ok] at h
    · simp only [bind_eq_ok, pure_eq_ok, reduceCtorEq, false_and, and_false, exists_false] at h
  | bar | openParen | closeParen =>
    simp only [OpenRule.read, bind_eq_ok, pure_eq_ok, reduceCtorEq, false_and, and_false,
      exists_false] at h
  | _ => simp [OpenRule.read] at h

theorem OpenRule.step_ne_named {r : OpenRule} {name : String} {span : Span} :
    r.step options token next draft ≠ .ok (.named name span) final := by
  intro h
  cases hbounds : token.kind.bounds? with
  | none =>
    rw [OpenRule.step_of_bounds?_eq_none hbounds] at h
    exact read_ne_named h
  | some bounds =>
    cases hterm : r.term with
    | none => exact read_ne_named (by simpa [OpenRule.step, hterm] using h)
    | some term =>
      simp only [OpenRule.step, hterm, hbounds, bind_eq_ok, pure_eq_ok, reduceCtorEq, false_and,
        and_false, exists_false] at h

/-- **Where the name of a rule has been read**, the text may end in front of it. -/
theorem of_step_eq_named {name : String} {span : Span}
    (h : start.step options token next draft = .ok (.named name span) final) :
    (options.allowReservedNames = true ∨ isReserved name = false) ∧
      ∃ final, start.finish stop draft = .ok () final := by
  cases start with
  | between =>
    simp only [step] at h
    split at h
    · simp at h
    · exact ⟨allowed_of_startRule h, draft, rfl⟩
  | named text place =>
    simp only [step, defineRule] at h
    split at h
    · simp only [enterRule, bind_eq_ok] at h
      obtain ⟨id, _, -, _, _, -, henter⟩ := h
      split at henter
      · simp at henter
      · simp only [bind_eq_ok, pure_eq_ok] at henter
        obtain ⟨_, _, -, hplace, -⟩ := henter
        cases hplace
    · simp at h
  | inside r => exact absurd h OpenRule.step_ne_named
  | below r =>
    refine ⟨?_, _, rfl⟩
    obtain ⟨kind, place⟩ := token
    cases kind with
    | newline | bar =>
      obtain ⟨hplace, -⟩ := pure_eq_ok.1 h
      cases hplace
    | _ =>
      obtain ⟨_, _, -, hstart⟩ := bind_eq_ok.1 h
      exact allowed_of_startRule hstart

/-- **Whatever the machine has read can be completed.** -/
theorem completable_of_advance (h : advance options next .between before draft = .ok place middle) :
    Completable options before := by
  have hstart : Place.between.Consumed [] := Newlines.nil
  have hplace := hstart.advance h
  rw [List.nil_append] at hplace
  cases place with
  | between => exact Newlines.completable hplace
  | inside r =>
    obtain ⟨after, final, hafter, hrun⟩ := @exists_run_inside options 0 r middle
    exact completable_of_run ((run_append_of_advance hafter h).trans hrun)
  | below r =>
    have hrun := @run_append_of_advance options 0 _ before [] _ _ _ _ (by simp) h
    exact @completable_of_run options 0 before [] _ _ (hrun.trans rfl)
  | named name span =>
    obtain ⟨front, hfront, rfl⟩ := hplace
    rw [advance_concat] at h
    obtain ⟨reached, behind, hadvance, hstep⟩ := bind_eq_ok.1 h
    obtain ⟨hname, final, hfinish⟩ := @of_step_eq_named options 0 _ _ _ _ _ _ _ hstep
    have hrun := @run_append_of_advance options 0 _ front [] _ _ _ _ (by simp) hadvance
    rw [List.append_nil] at hrun
    exact hfront.completable (hrun.trans hfinish) hname

end Place

end Bnf
