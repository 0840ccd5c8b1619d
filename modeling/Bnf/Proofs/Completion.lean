import Bnf.Grammar.Parse
import Bnf.Proofs.Drafting

/-!
# Completing a draft

What it takes for a draft to become a grammar: every identity has a rule, there is a first rule, the
root exists, and left recursion is allowed if there is any.

## Main results

- `Draft.rules_eq_ok_iff` — the rules of a draft are all there
- `Draft.grammar_eq_ok_iff` — the grammar of a draft
- `Drafting.complete_eq_ok_iff`, `Drafting.complete_eq_error_iff` — what comes of a draft
- `Grammar.parse_eq_ok_iff` — the grammar of a text, from the run of the machine on its tokens
-/

namespace Bnf

open Drafting

namespace Draft

variable {d : Draft} {options : ParseOptions} {stop : Nat} {g : Grammar}

/-- Rules are found for all identities, or there are none. This is by induction on the names. -/
theorem rulesFrom_eq_ok_iff {id : Nat} {entries : List SymbolEntry} {rules : List Rule} :
    d.rulesFrom id entries = .ok rules ↔
      (∀ i < entries.length, (d.rule? (id + i)).isSome) ∧
        rules = (List.range' id entries.length).filterMap d.rule? := by
  induction entries generalizing id rules with
  | nil =>
    rw [rulesFrom]
    constructor
    · intro h
      cases h
      exact ⟨by simp, rfl⟩
    · rintro ⟨-, rfl⟩
      rfl
  | cons entry entries ih =>
    rw [rulesFrom, List.length_cons, List.range'_succ]
    constructor
    · intro h
      split at h
      · simp at h
      · next rule hrule =>
        cases hothers : d.rulesFrom (id + 1) entries with
        | error e => simp [hothers, Except.map] at h
        | ok others =>
          obtain ⟨hsome, hall⟩ := ih.1 hothers
          simp only [hothers, Except.map, Except.ok.injEq] at h
          rw [List.filterMap_cons_some hrule, ← hall]
          -- The identity at a place of the rest is one further behind the identity at hand.
          refine ⟨fun i hi => ?_, h.symm⟩
          cases i with
          | zero => simp [hrule]
          | succ i =>
            have := hsome i (by omega)
            rwa [Nat.add_right_comm, Nat.add_assoc] at this
    · rintro ⟨hsome, rfl⟩
      obtain ⟨rule, hrule⟩ := Option.isSome_iff_exists.1 (hsome 0 (by omega))
      have hothers : d.rulesFrom (id + 1) entries =
          .ok ((List.range' (id + 1) entries.length).filterMap d.rule?) := by
        refine ih.2 ⟨fun i hi => ?_, rfl⟩
        have := hsome (i + 1) (by omega)
        rwa [Nat.add_right_comm, Nat.add_assoc]
      rw [Nat.add_zero] at hrule
      simp only [hrule, hothers, Except.map, List.filterMap_cons_some hrule]

/-- A draft has its rules if each identity has one. -/
theorem rules_eq_ok_iff {rules : List Rule} :
    d.rules = .ok rules ↔
      (∀ id < d.symbols.size, (d.rule? id).isSome) ∧
        rules = (List.range d.symbols.size).filterMap d.rule? := by
  rw [Draft.rules, rulesFrom_eq_ok_iff, List.range_eq_range']
  simp [SymbolTable.size]

/-- **The grammar of a draft.** -/
theorem grammar_eq_ok_iff :
    d.grammar options stop = .ok g ↔
      ∃ first root, d.first? = some first ∧ d.root options first = .ok root ∧
        (∀ id < d.symbols.size, (d.rule? id).isSome) ∧
        g = ⟨d.symbols, ((List.range d.symbols.size).filterMap d.rule?).toArray, root⟩ := by
  rw [Draft.grammar]
  cases hfirst : d.first? with
  | none => simp
  | some first =>
    constructor
    · intro h
      cases hrules : d.rules with
      | error e => simp [hrules, bind, Except.bind] at h
      | ok rules =>
        obtain ⟨hsome, rfl⟩ := rules_eq_ok_iff.1 hrules
        cases hroot : d.root options first with
        | error e => simp [hrules, hroot, bind, Except.bind] at h
        | ok root =>
          simp only [hrules, hroot, bind, Except.bind, pure, Except.pure, Except.ok.injEq] at h
          exact ⟨first, root, rfl, hroot, hsome, h.symm⟩
    · rintro ⟨_, root, hsame, hroot, hsome, rfl⟩
      cases hsame
      have hrules := rules_eq_ok_iff.2 ⟨hsome, rfl⟩
      simp [hrules, hroot, bind, Except.bind, pure, Except.pure]

end Draft

variable {d : Draft} {options : ParseOptions} {stop : Nat} {g : Grammar}

theorem Drafting.exists_forM_report {α : Type} (items : List α) (event : α → Event) (d : Draft) :
    ∃ d', (items.forM fun item => report (event item)) d = .ok () d' := by
  induction items generalizing d with
  | nil => exact ⟨d, rfl⟩
  | cons item items ih =>
    obtain ⟨final, hfinal⟩ := ih { d with events := d.events.push (event item) }
    exact ⟨final, bind_eq_ok.2 ⟨_, _, rfl, hfinal⟩⟩

/-- Left recursion is a failure only where it is rejected. -/
theorem Drafting.checkLeftRecursion_eq_ok_iff :
    (∃ d', checkLeftRecursion options g d = .ok () d') ↔
      (options.leftRecursion = .reject → g.leftRecursive = []) := by
  rw [checkLeftRecursion]
  cases options.leftRecursion with
  | allow => simp
  | warn => simpa using exists_forM_report _ _ d
  | reject => cases g.leftRecursive <;> simp

/-- **A draft can be completed** if it has a grammar, unless that is left recursive and may not be
    so. -/
theorem Drafting.complete_eq_ok_iff :
    (∃ d', complete options stop d = .ok g d') ↔
      d.grammar options stop = .ok g ∧
        (options.leftRecursion = .reject → g.leftRecursive = []) := by
  rw [← @checkLeftRecursion_eq_ok_iff d]
  constructor
  · rintro ⟨final, hfinal⟩
    obtain ⟨_, _, hget, hfinal⟩ := bind_eq_ok.1 hfinal
    obtain ⟨rfl, rfl⟩ := get_eq_ok.1 hget
    cases hgrammar : d.grammar options stop with
    | error e => simp [hgrammar] at hfinal
    | ok found =>
      simp only [hgrammar, bind_eq_ok, pure_eq_ok] at hfinal
      obtain ⟨_, checked, hchecked, _, _, -, _, _, -, rfl, -⟩ := hfinal
      exact ⟨rfl, checked, hchecked⟩
  · rintro ⟨hgrammar, checked, hchecked⟩
    -- The warnings about rules that are never reached are always told.
    obtain ⟨reached, hreached⟩ := exists_forM_report g.unreachable
      (fun id => .unreachable (g.name id) (g.name g.root)) checked
    apply Exists.intro
    apply bind_eq_ok.2
    refine ⟨d, d, rfl, ?_⟩
    rw [hgrammar]
    exact bind_eq_ok.2 ⟨_, checked, hchecked, bind_eq_ok.2 ⟨_, reached, hreached,
      bind_eq_ok.2 ⟨_, _, rfl, rfl⟩⟩⟩

/-- It is then blamed on the first rule that is found. -/
theorem Drafting.checkLeftRecursion_eq_error_iff {e : ParseError} {final : Draft} :
    checkLeftRecursion options g d = .error e final ↔
      options.leftRecursion = .reject ∧ ∃ id others, g.leftRecursive = id :: others ∧
        e = ⟨.grammar (.leftRecursion (g.name id)), g.blame id⟩ ∧ final = d := by
  rw [checkLeftRecursion]
  cases options.leftRecursion with
  | allow =>
    simp only [reduceCtorEq, false_and, iff_false]
    intro h
    cases h
  | warn =>
    obtain ⟨reported, hreported⟩ := exists_forM_report g.leftRecursive
      (fun id => .leftRecursive (g.name id)) d
    simp [hreported]
  | reject =>
    cases g.leftRecursive with
    | nil =>
      simp only [reduceCtorEq, false_and, exists_false, and_false, iff_false]
      intro h
      cases h
    | cons id others =>
      constructor
      · intro h
        cases h
        exact ⟨rfl, id, others, rfl, rfl, rfl⟩
      · rintro ⟨-, _, _, hids, rfl, rfl⟩
        cases hids
        rfl

/-- **A draft cannot be completed** if it has no grammar, or one that is left recursive and may not
    be so. -/
theorem Drafting.complete_eq_error_iff {e : ParseError} :
    (∃ final, complete options stop d = .error e final) ↔
      d.grammar options stop = .error e ∨
        ∃ g, d.grammar options stop = .ok g ∧ options.leftRecursion = .reject ∧
          ∃ id others, g.leftRecursive = id :: others ∧
            e = ⟨.grammar (.leftRecursion (g.name id)), g.blame id⟩ := by
  cases hgrammar : d.grammar options stop with
  | error found =>
    have hfails : complete options stop d = .error found d := by
      refine bind_eq_error.2 (.inr ⟨d, d, rfl, ?_⟩)
      rw [hgrammar]
      rfl
    simp [hfails]
  | ok g =>
    simp only [reduceCtorEq, Except.ok.injEq, false_or, exists_eq_left']
    constructor
    · rintro ⟨final, h⟩
      obtain hget | ⟨_, _, hget, h⟩ := bind_eq_error.1 h
      · cases hget
      · obtain ⟨rfl, rfl⟩ := get_eq_ok.1 hget
        simp only [hgrammar] at h
        -- Behind the check for left recursion there are reports only.
        obtain hcheck | ⟨_, checked, -, h⟩ := bind_eq_error.1 h
        · obtain ⟨hreject, id, others, hids, he, -⟩ := checkLeftRecursion_eq_error_iff.1 hcheck
          exact ⟨hreject, id, others, hids, he⟩
        · obtain ⟨reached, hreached⟩ := exists_forM_report g.unreachable
            (fun id => .unreachable (g.name id) (g.name g.root)) checked
          obtain hreport | ⟨_, _, -, h⟩ := bind_eq_error.1 h
          · rw [hreached] at hreport
            cases hreport
          · cases h
    · rintro ⟨hreject, id, others, hids, he⟩
      refine ⟨d, bind_eq_error.2 (.inr ⟨d, d, rfl, ?_⟩)⟩
      rw [hgrammar]
      exact bind_eq_error.2
        (.inl (checkLeftRecursion_eq_error_iff.2 ⟨hreject, id, others, hids, he, rfl⟩))

/-- **The grammar of a text**, from the run of the machine on its tokens. -/
theorem Grammar.parse_eq_ok_iff {source : String} {tokens : List Token}
    (htokens : tokenize source = .ok tokens) :
    Grammar.parse source options = .ok g ↔
      ∃ d, Place.run options (byteLength source.toList) .between tokens
          (.ofSymbols (.ofTokens tokens)) = .ok () d ∧
        d.grammar options (byteLength source.toList) = .ok g ∧
        (options.leftRecursion = .reject → g.leftRecursive = []) := by
  have hparse : Grammar.parse source options = .ok g ↔
      ∃ d, Drafting.ofTokens options (byteLength source.toList) tokens
        (.ofSymbols (.ofTokens tokens)) = .ok g d := by
    rw [Grammar.parse, Grammar.read, htokens]
    simp only
    split
    · next found draft hfound => simp [hfound]
    · next e draft hfound => simp [hfound]
  simp only [hparse, ← complete_eq_ok_iff, Drafting.ofTokens, bind_eq_ok]
  constructor
  · rintro ⟨final, _, middle, hrun, hfinal⟩
    exact ⟨middle, hrun, final, hfinal⟩
  · rintro ⟨middle, hrun, final, hfinal⟩
    exact ⟨final, _, middle, hrun, hfinal⟩

/-- Behind a run that succeeds an error is one of completing the draft. -/
theorem Grammar.parse_eq_error_iff {source : String} {tokens : List Token} {e : ParseError}
    (htokens : tokenize source = .ok tokens)
    (hrun : Place.run options (byteLength source.toList) .between tokens
      (.ofSymbols (.ofTokens tokens)) = .ok () d) :
    parse source options = .error e ↔
      ∃ final, complete options (byteLength source.toList) d = .error e final := by
  have hread : Drafting.ofTokens options (byteLength source.toList) tokens
      (.ofSymbols (.ofTokens tokens)) = complete options (byteLength source.toList) d := by
    show EStateM.bind (Place.run _ _ .between tokens) _ _ = _
    rw [EStateM.bind, hrun]
  rw [parse, read, htokens]
  simp only [hread]
  split
  · next g final hfinal => simp [hfinal]
  · next found final hfinal => simp [hfinal]

theorem Grammar.exists_parse_of_isOk {source : String}
    (h : (Grammar.parse source options).isOk = true) :
    ∃ g, Grammar.parse source options = .ok g := by
  cases hparse : Grammar.parse source options with
  | error e => simp [hparse, Except.isOk, Except.toBool] at h
  | ok g => exact ⟨g, rfl⟩

theorem Grammar.exists_parse_of_any {source : String} {p : Grammar → Bool}
    (h : (Grammar.parse source options).toOption.any p = true) :
    ∃ g, Grammar.parse source options = .ok g ∧ p g = true := by
  cases hparse : Grammar.parse source options with
  | error e => simp [hparse, Except.toOption] at h
  | ok g => exact ⟨g, rfl, by simpa [hparse, Except.toOption] using h⟩

end Bnf
