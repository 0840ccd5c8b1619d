import Bnf.Proofs.Tree.Reading

/-!
# The machine and the tree

The machine reads tokens one by one and remembers open groups on a stack; a tree is read by
recursion. For tokens that spell a tree the two agree in everything: the result, the draft with its
events, and the error.

The term at hand is settled only when the next token is known. So an equation about a run names the
tokens that follow, and asks that the first of them does not belong to the term.

## Main definitions

- `Detached` — tokens that do not belong to the term in front of them

## Main results

- `Tree.AlternationSpelled.run_inside` — the tokens of an alternation inside a rule
- `Tree.run_of_spells` — the machine reads tokens as their tree is read
-/

namespace Bnf

open Drafting

/-! ## Single steps of the machine -/

/-- Tokens of which the first neither defines nor repeats what stands in front of them. -/
def Detached (tokens : List Token) : Prop :=
  ∀ token, tokens.head? = some token → token.kind ≠ .define ∧ token.kind.bounds? = none

theorem Detached.nil : Detached [] := by
  intro token h
  simp at h

theorem Detached.cons {token : Token} {rest : List Token} (hdefine : token.kind ≠ .define)
    (hbounds : token.kind.bounds? = none) : Detached (token :: rest) := by
  intro first h
  obtain rfl : token = first := by simpa using h
  exact ⟨hdefine, hbounds⟩

theorem Detached.of_kind {token : Token} {rest : List Token} {kind : TokenKind}
    (h : token.kind = kind) (hdefine : kind ≠ .define := by decide)
    (hbounds : kind.bounds? = none := by rfl) : Detached (token :: rest) :=
  .cons (h ▸ hdefine) (h ▸ hbounds)

/-- A sign of definition is the only token that would turn the name in front of it into the start of
    a rule. -/
theorem Detached.next_ne_define {tokens : List Token} (h : Detached tokens) :
    tokens.head?.map (·.kind) ≠ some .define := by
  intro hnext
  obtain ⟨token, hhead, hkind⟩ := Option.map_eq_some_iff.1 hnext
  exact (h token hhead).1 hkind

/-- Line breaks in between do not attach anything. -/
theorem Newlines.detached_append {gap rest : List Token} (h : Newlines gap)
    (hrest : Detached rest) :
    Detached (gap ++ rest) := by
  cases gap with
  | nil => exact hrest
  | cons token gap => exact .of_kind (h token (by simp))

namespace OpenRule

/-- The rule with other alternatives being read. -/
def withInner (r : OpenRule) (inner : Alternatives) : OpenRule :=
  { r with inner := inner }

variable (r : OpenRule)

@[simp] theorem term_settle : r.settle.term = none := by
  rw [settle]
  split
  · assumption
  · rfl

@[simp] theorem groups_settle : r.settle.groups = r.groups := by
  rw [settle]
  split <;> rfl

@[simp] theorem name_settle : r.settle.name = r.name := by
  rw [settle]
  split <;> rfl

@[simp] theorem span_settle : r.settle.span = r.span := by
  rw [settle]
  split <;> rfl

variable {r}

theorem settle_of_term_eq_none (h : r.term = none) : r.settle = r := by
  simp [settle, h]

/-- A term behind which no operator stands is joined to the symbols as it is. -/
theorem settle_withTerm (h : r.term = none) (body : Body) (span : Span) :
    (r.withTerm body span).settle = r.withInner (r.inner.append body) := by
  simp [settle, withTerm, withInner, h]

/-- A token that is no operator first settles the term in front of it. -/
theorem step_of_bounds?_eq_none {options : ParseOptions} {token : Token} {next : Option TokenKind}
    (h : token.kind.bounds? = none) :
    r.step options token next = r.settle.read options token next := by
  rw [step]
  split
  · simp_all
  · rfl

end OpenRule

namespace Place

variable {options : ParseOptions} {stop : Nat} {r : OpenRule} {token : Token}
  {gap rest : List Token}

/-- A run is a step, with a look at the next token, and the run of the others. -/
theorem run_cons (place : Place) :
    run options stop place (token :: rest) =
      place.step options token (rest.head?.map (·.kind)) >>= (run options stop · rest) :=
  rfl

/-- What follows a term and does not belong to it may be read as if the term were settled. -/
theorem run_inside_settle (h : Detached rest) :
    run options stop (.inside r) rest = run options stop (.inside r.settle) rest := by
  cases rest with
  | nil => simp [run, finish, OpenRule.settle_of_term_eq_none, OpenRule.requireClosed]
  | cons token rest =>
    have hbounds := (h token rfl).2
    simp only [run_cons, step, OpenRule.step_of_bounds?_eq_none hbounds,
      OpenRule.settle_of_term_eq_none (OpenRule.term_settle r)]

/-- Behind a term that is settled a token is read. -/
theorem run_inside_cons (hterm : r.term = none) (hbounds : token.kind.bounds? = none) :
    run options stop (.inside r) (token :: rest) =
      r.read options token (rest.head?.map (·.kind)) >>= (run options stop · rest) := by
  rw [run_cons, step, OpenRule.step_of_bounds?_eq_none hbounds,
    OpenRule.settle_of_term_eq_none hterm]

/-- Line breaks are passed over in a group, and where an alternative has not begun. -/
theorem run_inside_newlines (hterm : r.term = none)
    (hfree : r.groups ≠ [] ∨ r.inner.hasTerm = false) (h : Newlines gap) :
    run options stop (.inside r) (gap ++ rest) = run options stop (.inside r) rest := by
  induction gap with
  | nil => rfl
  | cons token gap ih =>
    have hkind := h token (by simp)
    have hread (next : Option TokenKind) : r.read options token next = pure (.inside r) := by
      simp only [OpenRule.read, hkind]
      rcases hfree with hfree | hfree <;> simp [hfree]
    rw [List.cons_append, run_inside_cons hterm (by rw [hkind]; rfl), hread, pure_bind]
    exact ih fun other hother => h other (by simp [hother])

/-- So are further line breaks below a rule. -/
theorem run_below_newlines (h : Newlines gap) :
    run options stop (.below r) (gap ++ rest) = run options stop (.below r) rest := by
  induction gap with
  | nil => rfl
  | cons token gap ih =>
    have hkind := h token (by simp)
    rw [List.cons_append, run_cons, step, hkind, pure_bind]
    exact ih fun other hother => h other (by simp [hother])

/-- Outside of groups a line break behind a term leads below the rule. -/
theorem run_inside_newlines_below (hterm : r.term = none) (hgroups : r.groups = [])
    (hhas : r.inner.hasTerm = true) (h : Newlines gap) (hgap : gap ≠ []) :
    run options stop (.inside r) (gap ++ rest) = run options stop (.below r) rest := by
  cases gap with
  | nil => exact absurd rfl hgap
  | cons token gap =>
    have hkind := h token (by simp)
    have hread (next : Option TokenKind) : r.read options token next = pure (.below r) := by
      simp [OpenRule.read, hkind, hgroups, hhas]
    rw [List.cons_append, run_inside_cons hterm (by rw [hkind]; rfl), hread, pure_bind]
    exact run_below_newlines fun other hother => h other (by simp [hother])

/-- A bar begins the next alternative, also from below. -/
theorem run_inside_bar (hterm : r.term = none) (hhas : r.inner.hasTerm = true)
    (h : Newlines gap) (hbar : token.kind = .bar) :
    run options stop (.inside r) (gap ++ token :: rest) =
      run options stop (.inside (r.withInner r.inner.next)) rest := by
  have inside : run options stop (.inside r) (token :: rest) =
      run options stop (.inside (r.withInner r.inner.next)) rest := by
    rw [run_inside_cons hterm (by rw [hbar]; rfl)]
    simp [OpenRule.read, OpenRule.withInner, hbar, OpenRule.requireTerm, hhas]
  -- Inside a group line breaks are skipped where they stand; outside, the first of them ends the
  -- rule unless a bar follows, so the machine waits below the rule.
  by_cases hgroups : r.groups = []
  · by_cases hgap : gap = []
    · rw [hgap, List.nil_append, inside]
    · rw [run_inside_newlines_below hterm hgroups hhas h hgap, run_cons, step]
      simp [hbar, OpenRule.withInner]
  · rw [run_inside_newlines hterm (.inl hgroups) h, inside]

/-- **An operator replaces the term in front of it** by what repeats it. -/
theorem run_inside_operator {body : Body} {span : Span} {kind : TokenKind} {bounds : Bounds}
    (hterm : r.term = none) (hbounds : kind.bounds? = some bounds) (operator : Span) :
    run options stop (.inside (r.withTerm body span)) (⟨kind, operator⟩ :: rest) = (do
      Tree.requireRepeatable options body ⟨bounds, operator⟩
      let symbols ← repeated r.name (span.join operator) body bounds
      run options stop (.inside (r.withInner (r.inner.append symbols))) rest) := by
  have hstep (next : Option TokenKind) : (r.withTerm body span).step options ⟨kind, operator⟩ next =
      (do return .inside (← (r.withTerm body span).applyOperator options ⟨body, span⟩ bounds
        operator)) := by
    simp [OpenRule.step, OpenRule.withTerm, hbounds]
  rw [run_cons, step, hstep]
  rw [OpenRule.applyOperator, Tree.requireRepeatable]
  split
  · rfl
  split
  · rfl
  split
  · rfl
  · simp [OpenRule.withTerm, OpenRule.withInner, hterm]

/-- A parenthesis puts the alternatives aside that were read so far. -/
theorem run_inside_openParen (hterm : r.term = none) (span : Span) :
    run options stop (.inside r) (⟨.openParen, span⟩ :: rest) = (do
      Tree.requireDepth options r.groups.length span
      run options stop
        (.inside { r with groups := ⟨span, r.inner⟩ :: r.groups, inner := .empty }) rest) := by
  rw [run_inside_cons hterm rfl]
  simp only [OpenRule.read, OpenRule.openGroup, Tree.requireDepth]
  split
  · rfl
  · simp

/-- The other one brings them back, with the group as the next term. -/
theorem run_inside_closeParen {group : OpenGroup} {groups : List OpenGroup} (hterm : r.term = none)
    (hgroups : r.groups = group :: groups) (hhas : r.inner.hasTerm = true) (span : Span) :
    run options stop (.inside r) (⟨.closeParen, span⟩ :: rest) = (do
      let symbols ← grouped r.name (group.span.join span) r.inner.toList
      run options stop (.inside ({ r with groups := groups, inner := group.outer }.withTerm symbols
        (group.span.join span))) rest) := by
  rw [run_inside_cons hterm rfl]
  simp [OpenRule.read, OpenRule.closeGroup, hgroups, OpenRule.requireTerm, hhas]

end Place

/-! ## Tokens that spell a tree -/

namespace Tree

/-- The tokens of a term start with neither an operator nor a sign of definition. -/
theorem Term.Spelled.detached_append {term : Term} {tokens : List Token} (h : term.Spelled tokens)
    (rest : List Token) : Detached (tokens ++ rest) := by
  have atom {atom : Atom} {tokens rest : List Token} (h : atom.Spelled tokens) :
      Detached (tokens ++ rest) := by
    cases h <;> exact .cons (by simp) rfl
  cases h with
  | plain h => exact atom h
  | repeated h _ =>
    rw [List.append_assoc]
    exact atom h

theorem SequenceSpelled.detached_append {nested : Bool} {terms : List Term} {tokens : List Token} :
    SequenceSpelled nested terms tokens → ∀ rest, Detached (tokens ++ rest)
  | .one h, rest => h.detached_append rest
  | .more h _ _ _, rest => by
    rw [List.append_assoc]
    exact h.detached_append _

section Run

variable (options : ParseOptions) (stop : Nat)

open Place

mutual

/-- **The machine reads the tokens of an atom as the atom is read.** For a group this is by
    induction on the tokens of its alternatives, as all of the following goes along the tree. -/
theorem Atom.Spelled.run_inside {atom : Atom} {tokens : List Token} :
    atom.Spelled tokens → ∀ {r : OpenRule} {rest : List Token}, r.term = none →
      rest.head?.map (·.kind) ≠ some .define →
      run options stop (.inside r) (tokens ++ rest) =
        atom.read options r.name r.groups.length >>= fun body =>
          run options stop (.inside (r.withTerm body atom.span)) rest
  | .literal, r, rest, hterm, _ => by
    rw [List.singleton_append, run_inside_cons hterm rfl]
    simp [OpenRule.read, Atom.read, Atom.span]
  | .set, r, rest, hterm, _ => by
    rw [List.singleton_append, run_inside_cons hterm rfl]
    simp [OpenRule.read, Atom.read, Atom.span]
  | .any, r, rest, hterm, _ => by
    rw [List.singleton_append, run_inside_cons hterm rfl]
    simp [OpenRule.read, Atom.read, Atom.span]
  | .name, r, rest, hterm, hnext => by
    rw [List.singleton_append, run_inside_cons hterm rfl]
    simp [OpenRule.read, Atom.read, Atom.span, hnext]
  | @Atom.Spelled.group _ closing _ _ _ _ hfront hinner hback, r, rest, hterm, _ => by
    obtain ⟨complete, last, rfl, hrun⟩ := hinner.run_inside
    simp only [List.cons_append, List.append_assoc, List.nil_append, run_inside_openParen hterm,
      Atom.read, bind_assoc, readAlternation_append, readAlternation, pure_bind, Atom.span]
    congr 1
    funext _
    -- The alternatives are followed by line breaks and the closing token, which start nothing.
    have hclose : Detached (⟨.closeParen, closing⟩ :: rest) := .cons (by simp) rfl
    rw [run_inside_newlines (by exact hterm) (.inr rfl) hfront,
      hrun (by exact hterm) rfl (by simp) (hback.detached_append hclose)]
    refine bind_congr fun bodies => bind_congr fun body => ?_
    rw [run_inside_newlines (by exact hterm) (.inl (by simp [OpenRule.withInner])) hback,
      run_inside_closeParen (by exact hterm) rfl rfl]
    rfl

/-- A term is an atom with an operator behind it, or none. In the second case the next token settles
    it. -/
theorem Term.Spelled.run_inside {term : Term} {tokens : List Token} :
    term.Spelled tokens → ∀ {r : OpenRule} {rest : List Token}, r.term = none → Detached rest →
      run options stop (.inside r) (tokens ++ rest) =
        term.read options r.name r.groups.length >>= fun body =>
          run options stop (.inside (r.withInner (r.inner.append body))) rest
  | .plain h, r, rest, hterm, hrest => by
    rw [h.run_inside hterm hrest.next_ne_define, Term.read]
    congr 1
    funext body
    rw [run_inside_settle hrest, OpenRule.settle_withTerm hterm]
  | .repeated h hbounds, r, rest, hterm, hrest => by
    rw [List.append_assoc, h.run_inside hterm, Term.read]
    · simp only [List.singleton_append, run_inside_operator hterm hbounds, bind_assoc]
    · -- An operator follows the atom, so a name in front of it begins no rule.
      intro hnext
      simp only [List.singleton_append, List.head?_cons, Option.map_some,
        Option.some.injEq] at hnext
      rw [hnext] at hbounds
      simp [TokenKind.bounds?] at hbounds

/-- Terms are read one behind the other. In a group there may be line breaks between them. -/
theorem SequenceSpelled.run_inside {nested : Bool} {terms : List Term} {tokens : List Token} :
    SequenceSpelled nested terms tokens → ∀ {r : OpenRule} {rest : List Token}, r.term = none →
      (nested = true → r.groups ≠ []) → Detached rest →
      run options stop (.inside r) (tokens ++ rest) =
        readSequence options r.name r.groups.length terms >>= fun body =>
          run options stop (.inside (r.withInner (r.inner.append body))) rest
  | .one h, r, rest, hterm, _, hrest => by
    rw [h.run_inside hterm hrest]
    simp [readSequence]
  | @SequenceSpelled.more _ _ _ _ gap last h hgap hnested hlast, r, rest, hterm, hgroups,
      hrest => by
    rw [List.append_assoc, List.append_assoc, h.run_inside hterm hgroups
      (hgap.detached_append (hlast.detached_append rest)), readSequence_append, bind_assoc]
    refine bind_congr fun first => ?_
    -- Line breaks between terms occur in groups only.
    have hskip {r' : OpenRule} (hterm : r'.term = none) (hsame : r'.groups = r.groups) :
        run options stop (.inside r') (gap ++ (last ++ rest)) =
          run options stop (.inside r') (last ++ rest) := by
      cases nested with
      | false => rw [hnested rfl, List.nil_append]
      | true => exact run_inside_newlines hterm (.inl (hsame ▸ hgroups rfl)) hgap
    rw [hskip (by exact hterm) (by rfl), hlast.run_inside (by exact hterm) hrest]
    simp [readSequence, OpenRule.withInner, Alternatives.append]

/-- All alternatives but the last one are complete when the last one is read. -/
theorem AlternationSpelled.run_inside {nested : Bool} {alternatives : List (List Term)}
    {tokens : List Token} :
    AlternationSpelled nested alternatives tokens →
      ∃ complete last, alternatives = complete ++ [last] ∧
        ∀ {r : OpenRule} {rest : List Token}, r.term = none → r.inner = .empty →
          (nested = true → r.groups ≠ []) → Detached rest →
          run options stop (.inside r) (tokens ++ rest) =
            (do
              let bodies ← readAlternation options r.name r.groups.length complete
              let body ← readSequence options r.name r.groups.length last
              run options stop (.inside (r.withInner ⟨bodies, body, true⟩)) rest)
  | @AlternationSpelled.one _ terms _ h => by
    refine ⟨[], terms, rfl, ?_⟩
    intro r rest hterm hinner hgroups hrest
    rw [h.run_inside hterm hgroups hrest]
    simp [readAlternation, hinner, Alternatives.empty, Alternatives.append]
  | @AlternationSpelled.more _ _ terms _ _ _ _ _ h hbefore hbar hafter hlast => by
    obtain ⟨complete, previous, rfl, hrun⟩ := h.run_inside
    refine ⟨complete ++ [previous], terms, rfl, ?_⟩
    intro r rest hterm hinner hgroups hrest
    simp only [List.append_assoc, List.cons_append, readAlternation_append, readAlternation,
      bind_assoc, pure_bind]
    rw [hrun hterm hinner hgroups (hbefore.detached_append (.of_kind hbar))]
    refine bind_congr fun bodies => bind_congr fun body => ?_
    rw [run_inside_bar (by exact hterm) rfl hbefore hbar,
      run_inside_newlines (by exact hterm) (.inr rfl) hafter,
      hlast.run_inside (by exact hterm) (by exact hgroups) hrest]
    simp [OpenRule.withInner, Alternatives.append, Alternatives.next]

end

/-- **The machine reads the tokens of a rule as the rule is read.** It is left inside the rule, as
    only what follows tells whether the rule is over. -/
theorem Rule.Spelled.run_named {rule : Rule} {tokens : List Token} (h : rule.Spelled tokens) :
    ∃ define others, tokens = ⟨.name rule.name, rule.span⟩ :: define :: others ∧
      ∃ complete last, rule.alternatives = complete ++ [last] ∧
        ∀ {rest : List Token}, Detached rest →
          run options stop (.named rule.name rule.span) (define :: (others ++ rest)) = (do
            let id ← beginRule rule.name rule.span
            let bodies ← readAlternation options rule.name 0 complete
            let body ← readSequence options rule.name 0 last
            run options stop
              (.inside ⟨id, rule.name, rule.span, [], ⟨bodies, body, true⟩, none⟩) rest) := by
  obtain @⟨name, span, define, front, tokens, alternatives, hdefine, hfront, hinner⟩ := h
  obtain ⟨complete, last, rfl, hrun⟩ := hinner.run_inside options stop
  refine ⟨define, front ++ tokens, rfl, complete, last, rfl, ?_⟩
  intro rest hrest
  -- The machine enters the rule by the same three steps as the reader of trees.
  have hstep (next : Option TokenKind) : (Place.named name span).step options define next = (do
      let id ← beginRule name span
      return .inside ⟨id, name, span, [], .empty, none⟩) := by
    simp only [Place.step, defineRule, hdefine, ↓reduceIte, enterRule, beginRule, bind_assoc]
    refine bind_congr fun id => bind_congr fun draft => ?_
    split <;> rfl
  rw [run_cons, hstep, bind_assoc]
  refine bind_congr fun id => ?_
  rw [pure_bind, List.append_assoc, run_inside_newlines rfl (.inr rfl) hfront,
    hrun rfl rfl (by simp) hrest]
  rfl

/-- The token that starts a rule is read as the first check of the rule, whether the rule stands at
    the start of the text or below another one. -/
theorem run_below_name {r : OpenRule} {name : String} {span : Span} {rest : List Token} :
    run options stop (.below r) (⟨.name name, span⟩ :: rest) = (do
      r.close
      requireAllowed options name span
      run options stop (.named name span) rest) := by
  rw [run_cons]
  simp [Place.step, startRule]

/-- Between rules a name is looked at for whether it is allowed. -/
theorem run_between_name {name : String} {span : Span} {rest : List Token} :
    run options stop .between (⟨.name name, span⟩ :: rest) = (do
      requireAllowed options name span
      run options stop (.named name span) rest) := by
  rw [run_cons]
  simp [Place.step, startRule]

theorem run_between_newlines {gap rest : List Token} (h : Newlines gap) :
    run options stop .between (gap ++ rest) = run options stop .between rest := by
  induction gap with
  | nil => rfl
  | cons token gap ih =>
    have hkind := h token (by simp)
    rw [List.cons_append, run_cons, Place.step, if_pos hkind, pure_bind]
    exact ih fun other hother => h other (by simp [hother])

/-- At the end of the tokens a rule is closed, if line breaks are all that is left. -/
theorem run_inside_end {r : OpenRule} {gap : List Token} (hterm : r.term = none)
    (hgroups : r.groups = []) (hhas : r.inner.hasTerm = true) (h : Newlines gap) :
    run options stop (.inside r) gap = r.close := by
  rw [← List.append_nil gap]
  by_cases hgap : gap = []
  · simp [hgap, run, finish, OpenRule.settle_of_term_eq_none hterm, OpenRule.requireTerm, hhas,
      OpenRule.requireClosed, hgroups]
  · rw [run_inside_newlines_below hterm hgroups hhas h hgap]
    rfl

/-- Rules are read one behind the other. The last one is left open. -/
theorem RulesSpelled.run_between {rules : List Rule} {tokens : List Token}
    (h : RulesSpelled rules tokens) :
    ∃ earlier rule complete last, rules = earlier ++ [rule] ∧
      rule.alternatives = complete ++ [last] ∧
      ∀ {rest : List Token}, Detached rest →
        run options stop .between (tokens ++ rest) = (do
          readRules options earlier
          requireAllowed options rule.name rule.span
          let id ← beginRule rule.name rule.span
          let bodies ← readAlternation options rule.name 0 complete
          let body ← readSequence options rule.name 0 last
          run options stop
            (.inside ⟨id, rule.name, rule.span, [], ⟨bodies, body, true⟩, none⟩) rest) := by
  induction h with
  | @one rule _ _ hfront hrule =>
    obtain ⟨define, others, rfl, complete, last, halternatives, hrun⟩ :=
      hrule.run_named options stop
    refine ⟨[], rule, complete, last, rfl, halternatives, ?_⟩
    intro rest hrest
    simp only [List.append_assoc, List.cons_append, run_between_newlines options stop hfront,
      run_between_name, hrun hrest]
    rfl
  | @more _ rule _ _ _ _ hgap hsome hrule ih =>
    obtain ⟨earlier, previous, complete, last, rfl, halternatives, hbefore⟩ := ih
    obtain ⟨define, others, rfl, complete', last', halternatives', hrun⟩ :=
      hrule.run_named options stop
    refine ⟨earlier ++ [previous], rule, complete', last', rfl, halternatives', ?_⟩
    intro rest hrest
    have hname : Detached (⟨.name rule.name, rule.span⟩ :: (define :: (others ++ rest))) :=
      .cons (by simp) rfl
    -- The line breaks between two rules leave the machine below the first of them.
    have hbelow (id : RuleId) (bodies : List Body) (body : Body) (after : List Token) :=
      @run_inside_newlines_below options stop
        ⟨id, previous.name, previous.span, [], ⟨bodies, body, true⟩, none⟩ _ after rfl rfl rfl hgap
        hsome
    simp only [List.append_assoc, List.cons_append, hbefore (hgap.detached_append hname),
      hbelow, run_below_name, hrun hrest,
      readRules_append, readRules, Rule.read, halternatives,
      readAlternation_append, readAlternation, bind_assoc, pure_bind]
    rfl

/-- **The machine reads tokens as their tree is read.** -/
theorem run_of_spells {rules : List Rule} {tokens : List Token} (h : Spells rules tokens) :
    run options stop .between tokens = readRules options rules := by
  obtain ⟨front, back, hrules, hback, rfl⟩ := h
  obtain ⟨earlier, rule, complete, last, rfl, halternatives, hrun⟩ :=
    hrules.run_between options stop
  have hdetached : Detached back := by
    simpa using hback.detached_append Detached.nil
  have hend (id : RuleId) (bodies : List Body) (body : Body) :=
    @run_inside_end options stop ⟨id, rule.name, rule.span, [], ⟨bodies, body, true⟩, none⟩ _
      rfl rfl rfl hback
  simp only [hrun hdetached, hend, readRules_append, readRules, Rule.read, halternatives,
    readAlternation_append, readAlternation, bind_assoc, pure_bind]
  rfl

end Run

end Tree

end Bnf
