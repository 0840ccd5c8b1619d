import Bnf.Proofs.Tree.FirstMention

/-!
# Names without a rule

A text whose tokens are all read may still mention names that it does not define. It is refused
then, at the first such mention in the text. What is looked up is the lowest identity without a
rule; that this is the earliest mention follows from the order in which names get their identities.
Helpers have names and identities in between, but they all have rules.

## Main results

- `Draft.rules_eq_error_iff` — a draft lacks the rule of the first entry that is not complete
- `Tree.rules_eq_error_iff` — the draft of a text lacks the rule that is mentioned first
- `Grammar.undefined_rule_reported_first` — which name is reported, and where
-/

namespace Bnf

open Drafting

/-! ## The first identity without a rule -/

namespace Draft

variable {d : Draft} {e : ParseError} {options : ParseOptions} {stop : Nat}

/-- If some names are those of the identities without a rule, the first of them is reported. -/
theorem rulesFrom_eq_error_iff {p : SymbolEntry → Bool} {id : Nat} {entries : List SymbolEntry}
    (hp : ∀ i entry, entries[i]? = some entry → (d.rule? (id + i) = none ↔ p entry = true)) :
    d.rulesFrom id entries = .error e ↔
      ∃ entry, entries.find? p = some entry ∧
        e = ⟨.undefinedRule entry.name, entry.mention.start⟩ := by
  induction entries generalizing id with
  | nil => simp [rulesFrom]
  | cons entry entries ih =>
    have hfirst := hp 0 entry rfl
    rw [Nat.add_zero] at hfirst
    rw [rulesFrom]
    cases hrule : d.rule? id with
    | none =>
      rw [List.find?_cons_of_pos (hfirst.1 hrule)]
      simp [eq_comm]
    | some rule =>
      have hnot : ¬ p entry = true := fun hentry => by simp [hfirst.2 hentry] at hrule
      have hothers := @ih (id + 1) fun i other hother => by
        have := hp (i + 1) other hother
        rwa [← Nat.add_assoc, Nat.add_right_comm] at this
      rw [List.find?_cons_of_neg hnot, ← hothers]
      cases d.rulesFrom (id + 1) entries <;> simp [Except.map]

theorem rules_eq_error_iff {p : SymbolEntry → Bool}
    (hp : ∀ i entry, d.symbols.entries[i]? = some entry → (d.rule? i = none ↔ p entry = true)) :
    d.rules = .error e ↔
      ∃ entry, d.symbols.entries.toList.find? p = some entry ∧
        e = ⟨.undefinedRule entry.name, entry.mention.start⟩ := by
  refine rulesFrom_eq_error_iff fun i entry hentry => ?_
  rw [Nat.zero_add]
  exact hp i entry (by rwa [Array.getElem?_toList] at hentry)

theorem root_ne_undefinedRule {first : RuleId} {name : String} {offset : Nat} :
    d.root options first ≠ .error ⟨.undefinedRule name, offset⟩ := by
  rw [root]
  cases options.root with
  | none => simp
  | some wanted =>
    simp only
    split <;> simp

/-- A draft that has a first rule has no grammar because a rule lacks exactly if one lacks. -/
theorem grammar_eq_undefinedRule_iff {name : String} {offset : Nat} (hfirst : d.first?.isSome) :
    d.grammar options stop = .error ⟨.undefinedRule name, offset⟩ ↔
      d.rules = .error ⟨.undefinedRule name, offset⟩ := by
  obtain ⟨first, hfirst⟩ := Option.isSome_iff_exists.1 hfirst
  rw [grammar, hfirst]
  cases d.rules with
  | error e => simp [bind, Except.bind]
  | ok rules =>
    -- All rules are there: what can still be missing is the root.
    cases hroot : d.root options first with
    | error e =>
      have hne : e ≠ ⟨.undefinedRule name, offset⟩ := fun h => root_ne_undefinedRule (h ▸ hroot)
      simp [hroot, bind, Except.bind, hne]
    | ok root => simp [hroot, bind, Except.bind, pure, Except.pure]

end Draft

/-! ## Completing -/

namespace Drafting

variable {options : ParseOptions} {stop offset : Nat} {d : Draft} {name : String}

/-- **Completing a draft** fails for a rule that lacks exactly if the draft lacks one. -/
theorem complete_eq_undefinedRule_iff :
    (∃ final, complete options stop d = .error ⟨.undefinedRule name, offset⟩ final) ↔
      d.grammar options stop = .error ⟨.undefinedRule name, offset⟩ := by
  rw [complete_eq_error_iff]
  constructor
  · rintro (hgrammar | ⟨g, -, -, id, others, -, heq⟩)
    · exact hgrammar
    · cases heq
  · intro hgrammar
    exact .inl hgrammar

end Drafting

/-! ## The first mention without a rule -/

namespace Tree

variable {options : ParseOptions} {stop : Nat} {rules : List Rule} {tokens : List Token}
  {d : Draft} {e : ParseError}

/-- The entries without a rule are those of the names that are mentioned and not defined. -/
theorem rule?_table_eq_none_iff (hdistinct : (rules.map (·.name)).Nodup) {id : Nat}
    {name : String} (hname : (table rules).symbols.name? id = some name) :
    (table rules).rule? id = none ↔ name ∈ names rules ∧ name ∉ rules.map (·.name) := by
  rw [← Option.not_isSome_iff_eq_none, (table_sound hdistinct).isSome_rule?_iff hname,
    List.mem_reverse, Classical.not_imp]

/-- Rules that have been read have different names, and the names and rules of their table. -/
theorem of_readRules_start
    (hread : readRules options rules (.ofSymbols (start rules).symbols) = .ok () d) :
    (rules.map (·.name)).Nodup ∧ d.symbols = (table rules).symbols ∧
      d.rule? = (table rules).rule? := by
  obtain ⟨-, hdistinct, -, htable, -⟩ :=
    of_readRules (start_sound rules) (fun _ hname => hname) hread
  refine ⟨hdistinct, congrArg Table.symbols htable, ?_⟩
  funext id
  exact congrArg (·.rules.lookup id) htable

/-- **The draft of a text lacks the rule of the earliest mention** of a name that is not defined. -/
theorem rules_eq_error_iff (hspells : Spells rules tokens)
    (hread : readRules options rules (.ofSymbols (start rules).symbols) = .ok () d) :
    d.rules = .error e ↔
      ∃ before name span after, tokens = before ++ ⟨.name name, span⟩ :: after ∧
        name ∉ rules.map (·.name) ∧
        (∀ token ∈ before, ∀ other, token.kind = .name other → other ∈ rules.map (·.name)) ∧
        e = ⟨.undefinedRule name, span.start⟩ := by
  obtain ⟨hdistinct, hsymbols, hrule⟩ := of_readRules_start hread
  have hentry (i : Nat) (entry : SymbolEntry) (hi : d.symbols.entries[i]? = some entry) :
      d.rule? i = none ↔
        decide (entry.name ∈ names rules ∧ entry.name ∉ rules.map (·.name)) = true := by
    have hname : (table rules).symbols.name? i = some entry.name := by
      rw [← hsymbols, SymbolTable.name?, hi]
      rfl
    rw [hrule, rule?_table_eq_none_iff hdistinct hname, decide_eq_true_iff]
  -- The entries of the names in the text are searched in the order of the text.
  have hfind : (d.symbols.entries.toList.find? fun entry =>
      entry.name ∈ names rules ∧ entry.name ∉ rules.map (·.name)).map
        (fun entry => (entry.name, entry.mention)) =
      (tokens.filterMap Token.mention?).find? fun mention => mention.1 ∉ rules.map (·.name) := by
    rw [hspells.mentions_eq, ← find?_firstMentions (· ∉ rules.map (·.name)),
      ← (table_records hdistinct).entries, ← hsymbols, SymbolTable.mentionsOf, List.find?_map,
      List.find?_filter]
    simp
  rw [Draft.rules_eq_error_iff hentry]
  constructor
  · rintro ⟨entry, hfound, rfl⟩
    rw [hfound, Option.map_some, eq_comm,
      find?_mention?_eq_some_iff (p := (· ∉ rules.map (·.name)))] at hfind
    obtain ⟨hname, before, after, hsplit, hbefore⟩ := hfind
    refine ⟨before, entry.name, entry.mention, after, hsplit, by simpa using hname, ?_, rfl⟩
    simpa using hbefore
  · rintro ⟨before, name, span, after, hsplit, hname, hbefore, rfl⟩
    have hmention := (find?_mention?_eq_some_iff (p := (· ∉ rules.map (·.name)))).2
      ⟨by simpa using hname, before, after, hsplit, by simpa using hbefore⟩
    rw [hmention, Option.map_eq_some_iff] at hfind
    obtain ⟨entry, hfound, hsame⟩ := hfind
    cases hsame
    exact ⟨entry, hfound, rfl⟩

end Tree

namespace Grammar

variable {options : ParseOptions} {source : String} {tokens : List Token} {d : Draft}
  {rules : List Tree.Rule}

/-- The tokens of a text with a first rule spell rules. -/
theorem exists_spells_of_first? {stop : Nat}
    (hrun : Place.run options stop .between tokens (.ofSymbols (.ofTokens tokens)) = .ok () d)
    (hfirst : d.first?.isSome) : ∃ rules, Tree.Spells rules tokens := by
  obtain hnewlines | hspells := Tree.exists_spells_of_run hrun
  · have hend := @Tree.run_between_newlines options stop tokens [] hnewlines
    rw [List.append_nil] at hend
    rw [hend] at hrun
    cases hrun
    cases hfirst
  · exact hspells

/-- **A text lacks the rule of the earliest mention** of a name that it does not define. -/
theorem parse_eq_undefinedRule_iff (htokens : tokenize source = .ok tokens)
    (hspells : Tree.Spells rules tokens)
    (hrun : Place.run options (byteLength source.toList) .between tokens
      (.ofSymbols (.ofTokens tokens)) = .ok () d)
    (hfirst : d.first?.isSome) {name : String} {offset : Nat} :
    parse source options = .error ⟨.undefinedRule name, offset⟩ ↔
      ∃ before span after, tokens = before ++ ⟨.name name, span⟩ :: after ∧
        name ∉ rules.map (·.name) ∧
        (∀ token ∈ before, ∀ other, token.kind = .name other → other ∈ rules.map (·.name)) ∧
        offset = span.start := by
  rw [parse_eq_error_iff htokens hrun, complete_eq_undefinedRule_iff,
    Draft.grammar_eq_undefinedRule_iff hfirst]
  rw [hspells.run_eq] at hrun
  rw [Tree.rules_eq_error_iff hspells hrun]
  constructor
  · rintro ⟨before, _, span, after, hsplit, hname, hbefore, heq⟩
    cases heq
    exact ⟨before, span, after, hsplit, hname, hbefore, rfl⟩
  · rintro ⟨before, span, after, hsplit, hname, hbefore, rfl⟩
    exact ⟨before, name, span, after, hsplit, hname, hbefore, rfl⟩

/-- **Names without a rule are reported, and the earliest first.** If all tokens of a text can be
    read and there is a rule among them,

    - the text is refused for a name without a rule exactly if a token is a name that no rule has,
    - what is reported is the first token of this kind, at its start, and no rule that was made has
      its name: no helper is reported, and none hides a name. -/
theorem undefined_rule_reported_first (htokens : tokenize source = .ok tokens)
    (hrun : Place.run options (byteLength source.toList) .between tokens
      (.ofSymbols (.ofTokens tokens)) = .ok () d) (hfirst : d.first?.isSome) :
    ((∃ name offset, parse source options = .error ⟨.undefinedRule name, offset⟩) ↔
      ∃ token ∈ tokens, ∃ name, token.kind = .name name ∧
        name ∉ (definitions tokens).map (·.1)) ∧
    ∀ name offset, parse source options = .error ⟨.undefinedRule name, offset⟩ →
      (∃ before span after, tokens = before ++ ⟨.name name, span⟩ :: after ∧ offset = span.start ∧
        name ∉ (definitions tokens).map (·.1) ∧
        ∀ token ∈ before, ∀ other, token.kind = .name other →
          other ∈ (definitions tokens).map (·.1)) ∧
      ∀ id rule, d.rule? id = some rule → d.symbols.name? id ≠ some name := by
  obtain ⟨rules, hspells⟩ := exists_spells_of_first? hrun hfirst
  have hdefined : (definitions tokens).map (·.1) = rules.map (·.name) := by
    rw [hspells.definitions_eq, List.map_map]
    rfl
  have hiff := @parse_eq_undefinedRule_iff options source tokens d rules htokens hspells hrun hfirst
  simp only [hdefined, hiff]
  refine ⟨⟨?_, ?_⟩, ?_⟩
  · rintro ⟨name, _, before, span, after, rfl, hname, -⟩
    exact ⟨⟨.name name, span⟩, by simp, name, rfl, hname⟩
  · rintro ⟨token, htoken, name, hkind, hname⟩
    -- If there is such a token, a search finds the first one.
    have hmention : (name, token.span) ∈ tokens.filterMap Token.mention? :=
      List.mem_filterMap.2 ⟨token, htoken, by rw [Token.mention?, hkind]⟩
    cases hfound : (tokens.filterMap Token.mention?).find?
        fun mention => mention.1 ∉ rules.map (·.name) with
    | none => exact absurd hname (by simpa using List.find?_eq_none.1 hfound _ hmention)
    | some found =>
      obtain ⟨hother, before, after, hsplit, hbefore⟩ :=
        (find?_mention?_eq_some_iff (p := (· ∉ rules.map (·.name)))).1 hfound
      exact ⟨found.1, _, before, found.2, after, hsplit, by simpa using hother,
        by simpa using hbefore, rfl⟩
  · rintro name offset ⟨before, span, after, hsplit, hname, hbefore, hoffset⟩
    refine ⟨⟨before, span, after, hsplit, hoffset, hname, hbefore⟩, fun id rule hrule hid => ?_⟩
    rw [hspells.run_eq] at hrun
    obtain ⟨hdistinct, hsymbols, hrules⟩ := Tree.of_readRules_start hrun
    have hmentioned : name ∈ Tree.names rules :=
      hspells.mem_names_iff.2 ⟨⟨.name name, span⟩, by simp [hsplit], rfl⟩
    rw [hsymbols] at hid
    rw [hrules, (Tree.rule?_table_eq_none_iff hdistinct hid).2 ⟨hmentioned, hname⟩] at hrule
    cases hrule

/-- Helpers come before the mention that is reported, and an earlier name is defined later. -/
theorem undefined_rule_reported_behind_helpers :
    ∃ tokens d, tokenize "r ::= x (\"a\" | \"b\")* y\nx ::= z?\n" = .ok tokens ∧
      Place.run {} 32 .between tokens (.ofSymbols (.ofTokens tokens)) = .ok () d ∧
      parse "r ::= x (\"a\" | \"b\")* y\nx ::= z?\n" = .error ⟨.undefinedRule "y", 21⟩ ∧
      (∃ token ∈ tokens, ∃ name, token.kind = .name name ∧
        name ∉ (definitions tokens).map (·.1)) ∧
      ∀ id rule, d.rule? id = some rule → d.symbols.name? id ≠ some "y" := by
  have hany : (tokenize "r ::= x (\"a\" | \"b\")* y\nx ::= z?\n").toOption.any (fun tokens =>
      match Place.run {} 32 .between tokens (.ofSymbols (.ofTokens tokens)) with
      | .ok () d => d.first?.isSome
      | .error _ _ => false) = true := by decide +kernel
  have hparse : parse "r ::= x (\"a\" | \"b\")* y\nx ::= z?\n" =
      .error ⟨.undefinedRule "y", 21⟩ := by decide +kernel
  have hlength : byteLength "r ::= x (\"a\" | \"b\")* y\nx ::= z?\n".toList = 32 := by
    decide +kernel
  cases htokens : tokenize "r ::= x (\"a\" | \"b\")* y\nx ::= z?\n" with
  | error e => simp [htokens, Except.toOption] at hany
  | ok tokens =>
    cases hrun : Place.run {} 32 .between tokens (.ofSymbols (.ofTokens tokens)) with
    | error e d => simp [htokens, hrun, Except.toOption] at hany
    | ok _ d =>
      simp only [htokens, hrun, Except.toOption, Option.any_some] at hany
      obtain ⟨hiff, hreported⟩ :=
        undefined_rule_reported_first htokens (hlength.symm ▸ hrun) hany
      exact ⟨tokens, d, rfl, hrun, hparse, hiff.1 ⟨_, _, hparse⟩, (hreported _ _ hparse).2⟩

end Grammar

end Bnf
