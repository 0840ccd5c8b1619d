import Bnf.Proofs.Completion
import Bnf.Proofs.Tree.Growth
import Bnf.Proofs.Tree.Recognition
import Bnf.Proofs.Tree.Simulation

/-!
# Which texts are accepted, and what becomes of them

The pieces are put together: tokens that a reader accepts spell a tree, reading them is reading the
tree, and reading the tree is expanding it. So a text is accepted if its tokens spell rules that
pass all checks, and its grammar is the one that the rules are compiled to.

## Main results

- `Tree.parse_eq_ok_iff` — which grammar a text has, in terms of its rules
- `Grammar.exists_parse_eq_ok_iff` — the dialect that is accepted
- `Grammar.eq_compile_of_parse` — a grammar is what the rules of its text are compiled to
-/

namespace Bnf

open Drafting

namespace Tree

variable {options : ParseOptions} {d d' : Draft} {mentioned done : List String}

/-- What the checks of a reader ask of a rule. -/
def Rule.Admitted (options : ParseOptions) (rule : Rule) : Prop :=
  Tree.Admitted options rule.mentions rule.depth rule.operations

/-! ## Reading rules -/

theorem beginRule_eq_ok_iff {name : String} {span : Span} {id : RuleId} :
    beginRule name span d = .ok id d' ↔
      (d.table.mention name span).1 = id ∧ d.table.rule? id = none ∧
        d' = { d with symbols := (d.table.mention name span).2.symbols,
                      first? := d.first? <|> some id } := by
  have hmention : mention name span d = .ok (d.table.mention name span).1
      { d with symbols := (d.table.mention name span).2.symbols } := rfl
  simp only [beginRule, bind_eq_ok, hmention, EStateM.Result.ok.injEq, get_eq_ok]
  constructor
  · rintro ⟨_, _, ⟨rfl, rfl⟩, _, _, ⟨rfl, rfl⟩, h⟩
    split at h
    · simp at h
    · next hnone =>
      simp only [bind_eq_ok, set_eq_ok, pure_eq_ok] at h
      obtain ⟨_, _, rfl, rfl, rfl⟩ := h
      exact ⟨rfl, Option.not_isSome_iff_eq_none.1 hnone, rfl⟩
  · rintro ⟨rfl, hnone, rfl⟩
    refine ⟨_, _, ⟨rfl, rfl⟩, _, _, ⟨rfl, rfl⟩, ?_⟩
    -- A mention adds no rule, so the check may look into the table before it.
    change d.rule? _ = none at hnone
    rw [if_neg (by exact Option.not_isSome_iff_eq_none.2 hnone)]
    exact bind_eq_ok.2 ⟨_, _, rfl, rfl⟩

theorem readAlternatives_follows (options : ParseOptions) (rule : Rule) (id : RuleId) :
    Follows (do
        let bodies ← readAlternation options rule.name 0 rule.alternatives
        report (.ruleRead rule.name bodies.length)
        define id ⟨.defined rule.span, bodies⟩)
      (do
        let bodies ← expandAlternation rule.name rule.alternatives
        Expanding.define id ⟨.defined rule.span, bodies⟩) fun _ =>
      Tree.Admitted options (alternationMentions rule.alternatives) rule.depth rule.operations :=
  ((readAlternation_follows options rule.name 0 (Nat.zero_le _) rule.alternatives).bind
    fun bodies => (report_follows _).bind
      fun _ => define_follows id ⟨.defined rule.span, bodies⟩).congr
      fun _ => by rw [and_true, and_true, Rule.depth, Nat.zero_add]; rfl

theorem Rule.admitted_iff {rule : Rule} :
    rule.Admitted options ↔
      (options.allowReservedNames = true ∨ isReserved rule.name = false) ∧
        Tree.Admitted options (alternationMentions rule.alternatives) rule.depth
          rule.operations := by
  constructor
  · rintro ⟨hallowed, hnested, happlied⟩
    rw [Rule.mentions, List.forall_mem_cons] at hallowed
    exact ⟨hallowed.1, hallowed.2, hnested, happlied⟩
  · rintro ⟨hname, hallowed, hnested, happlied⟩
    exact ⟨List.forall_mem_cons.2 ⟨hname, hallowed⟩, hnested, happlied⟩

theorem Rule.read_eq_ok_iff {rule : Rule} :
    rule.read options d = .ok () d' ↔
      ∃ named, requireAllowed options rule.name rule.span d = .ok () named ∧
        ∃ id entered, beginRule rule.name rule.span named = .ok id entered ∧
          (do
            let bodies ← readAlternation options rule.name 0 rule.alternatives
            report (.ruleRead rule.name bodies.length)
            define id ⟨.defined rule.span, bodies⟩) entered = .ok () d' := by
  constructor
  · intro h
    obtain ⟨_, named, hnamed, h⟩ := bind_eq_ok.1 h
    obtain ⟨id, entered, hentered, h⟩ := bind_eq_ok.1 h
    exact ⟨named, hnamed, id, entered, hentered, h⟩
  · rintro ⟨named, hnamed, id, entered, hentered, h⟩
    exact bind_eq_ok.2 ⟨_, named, hnamed, bind_eq_ok.2 ⟨id, entered, hentered, h⟩⟩

/-- **Reading a rule** succeeds if it passes the checks and is not complete. -/
theorem Rule.exists_read {rule : Rule} (hadmitted : rule.Admitted options)
    (hnew : d.table.rule? (d.table.mention rule.name rule.span).1 = none) :
    ∃ d', rule.read options d = .ok () d' := by
  obtain ⟨hname, hinner⟩ := Rule.admitted_iff.1 hadmitted
  obtain ⟨named, hnamed, htable, -⟩ :=
    @(requireAllowed_follows options rule.name rule.span).succeeds d hname
  have hentered := @beginRule_eq_ok_iff named _ rule.name rule.span _ |>.2
    ⟨rfl, by rwa [htable], rfl⟩
  obtain ⟨final, hfinal, -⟩ := @(readAlternatives_follows options rule _).succeeds _ hinner
  exact ⟨final, Rule.read_eq_ok_iff.2 ⟨named, hnamed, _, _, hentered, hfinal⟩⟩

/-- **A rule that is read is admitted**, was not defined before, and is expanded. -/
theorem Rule.of_read {rule : Rule} (h : rule.read options d = .ok () d') :
    rule.Admitted options ∧ d.table.rule? (d.table.mention rule.name rule.span).1 = none ∧
      d'.table = (rule.expand d.table).2 ∧
      d'.first? = (d.first? <|> some (d.table.mention rule.name rule.span).1) := by
  obtain ⟨named, hnamed, id, entered, hentered, hfinal⟩ := Rule.read_eq_ok_iff.1 h
  have hname := requireAllowed_follows options rule.name rule.span
  have hinner := readAlternatives_follows options rule id
  obtain ⟨-, htable, hfirst⟩ := hname.eq_of_ok hnamed
  obtain ⟨-, htable', hfirst'⟩ := hinner.eq_of_ok hfinal
  obtain ⟨rfl, hnew, rfl⟩ := beginRule_eq_ok_iff.1 hentered
  rw [htable] at hnew
  refine ⟨Rule.admitted_iff.2 ⟨hname.requires hnamed, hinner.requires hfinal⟩, hnew, ?_, ?_⟩
  · have hexpand : d'.table = (rule.expand named.table).2 := htable'
    rwa [htable] at hexpand
  · have hentry : d'.first? =
        (named.first? <|> some (named.table.mention rule.name rule.span).1) := hfirst'
    rwa [htable, hfirst] at hentry

/-- A name has a rule if it was defined. -/
theorem Table.Sound.rule?_mention_eq_none_iff {t : Table} {name : String} {span : Span}
    (h : t.Sound mentioned done) (hname : name ∈ mentioned) :
    t.rule? (t.mention name span).1 = none ↔ name ∉ done := by
  obtain ⟨hsound, -⟩ := @Table.Sound.mention t name span mentioned done h hname
  have hnamed : (t.mention name span).2.symbols.name? (t.mention name span).1 = some name :=
    SymbolTable.name?_of_find? (SymbolTable.find?_intern h.distinct)
  have hiff := hsound.isSome_rule?_iff hnamed
  rw [Table.rule?_mention] at hiff
  rw [← Option.not_isSome_iff_eq_none, hiff]
  simp [hname]

/-- **Reading rules** succeeds if they pass the checks and have different names. -/
theorem exists_readRules {rules : List Rule} (h : d.table.Sound mentioned done)
    (hmentioned : ∀ name ∈ names rules, name ∈ mentioned)
    (hadmitted : ∀ rule ∈ rules, rule.Admitted options) (hdistinct : (rules.map (·.name)).Nodup)
    (hnew : ∀ rule ∈ rules, rule.name ∉ done) : ∃ d', readRules options rules d = .ok () d' := by
  induction rules generalizing d done with
  | nil => exact ⟨d, rfl⟩
  | cons rule rules ih =>
    have hothers := forall_not_mem_cons hdistinct hnew
    rw [forall_mem_names_cons] at hmentioned
    rw [List.forall_mem_cons] at hadmitted hnew
    rw [List.map_cons, List.nodup_cons] at hdistinct
    have hname := hmentioned.1 (rule.name, rule.span) (by simp [Rule.mentions])
    obtain ⟨middle, hmiddle⟩ :=
      Rule.exists_read hadmitted.1 ((h.rule?_mention_eq_none_iff hname).2 hnew.1)
    have hsound := (Rule.expand_sound h hmentioned.1 hnew.1).1
    rw [← (Rule.of_read hmiddle).2.2.1] at hsound
    obtain ⟨final, hfinal⟩ := ih hsound hmentioned.2 hadmitted.2 hdistinct.2 hothers
    exact ⟨final, bind_eq_ok.2 ⟨_, middle, hmiddle, hfinal⟩⟩

/-- Rules that have been read have passed the checks, and their expansions are in the draft. -/
theorem of_readRules {rules : List Rule} (h : d.table.Sound mentioned done)
    (hmentioned : ∀ name ∈ names rules, name ∈ mentioned)
    (hread : readRules options rules d = .ok () d') :
    (∀ rule ∈ rules, rule.Admitted options) ∧ (rules.map (·.name)).Nodup ∧
      (∀ rule ∈ rules, rule.name ∉ done) ∧ d'.table = (expandRules rules d.table).2 ∧
      d'.first? = (d.first? <|> rules.head?.map fun rule =>
        (d.table.mention rule.name rule.span).1) := by
  induction rules generalizing d done with
  | nil =>
    cases hread
    exact ⟨by simp, by simp, by simp, rfl, by simp⟩
  | cons rule rules ih =>
    rw [forall_mem_names_cons] at hmentioned
    obtain ⟨_, middle, hmiddle, hfinal⟩ := bind_eq_ok.1 hread
    obtain ⟨hrule, hnone, htable, hfirst⟩ := Rule.of_read hmiddle
    have hname := hmentioned.1 (rule.name, rule.span) (by simp [Rule.mentions])
    have hnew := (h.rule?_mention_eq_none_iff hname).1 hnone
    have hsound := (Rule.expand_sound h hmentioned.1 hnew).1
    rw [← htable] at hsound
    obtain ⟨hrules, hdistinct, hothers, htable', hfirst'⟩ := ih hsound hmentioned.2 hfinal
    refine ⟨List.forall_mem_cons.2 ⟨hrule, hrules⟩, ?_, ?_, ?_, ?_⟩
    · rw [List.map_cons, List.nodup_cons]
      refine ⟨fun hmem => ?_, hdistinct⟩
      -- A second rule of the name would have been refused, as the name was done by then.
      obtain ⟨other, hother, hsame⟩ := List.mem_map.1 hmem
      exact hothers other hother (hsame ▸ List.mem_cons_self)
    · refine List.forall_mem_cons.2 ⟨hnew, fun other hother hmem => ?_⟩
      exact hothers other hother (List.mem_cons_of_mem _ hmem)
    · rw [htable', htable]
      rfl
    · rw [hfirst', hfirst]
      cases d.first? <;> rfl

/-! ## From tokens to a grammar -/

/-- Of the tokens only the names are kept free. -/
theorem ofTokens_eq_keeping (tokens : List Token) :
    SymbolTable.ofTokens tokens = .keeping ((tokens.filterMap Token.mention?).map (·.1)) := by
  rw [SymbolTable.keeping, List.foldl_map, List.foldl_filterMap, SymbolTable.ofTokens]
  congr 1
  funext t token
  rw [Token.mention?]
  cases token.kind <;> rfl

theorem Spells.ofTokens_eq {rules : List Rule} {tokens : List Token} (h : Spells rules tokens) :
    SymbolTable.ofTokens tokens = .keeping (names rules) := by
  rw [ofTokens_eq_keeping, h.mentions_eq, names]

/-- So a run of the machine is the reading of its tree. -/
theorem Spells.run_eq {rules : List Rule} {tokens : List Token} (h : Spells rules tokens)
    (stop : Nat) : Place.run options stop .between tokens (.ofSymbols (.ofTokens tokens)) =
      readRules options rules (.ofSymbols (start rules).symbols) := by
  rw [run_of_spells options stop h, h.ofTokens_eq]
  rfl

theorem Spells.ne_nil {rules : List Rule} {tokens : List Token} (h : Spells rules tokens) :
    rules ≠ [] := by
  obtain ⟨front, back, hrules, -⟩ := h
  cases hrules <;> simp

/-- All identities have rules if all names are defined. -/
theorem forall_isSome_rule?_iff {rules : List Rule} (hdistinct : (rules.map (·.name)).Nodup) :
    (∀ id < (table rules).symbols.size, ((table rules).rule? id).isSome) ↔
      ∀ name ∈ names rules, name ∈ rules.map (·.name) := by
  have hsound := table_sound hdistinct
  constructor
  · intro h name hname
    -- A name that occurs has an identity; that this has a rule says the name is done.
    obtain ⟨id, hid⟩ := SymbolTable.mem_names_iff.1 (mem_names_table hname)
    have hsome := h id (SymbolTable.name?_eq_some_lt hid)
    exact List.mem_reverse.1 ((hsound.isSome_rule?_iff hid).1 hsome hname)
  · intro h id hid
    obtain ⟨name, hname⟩ := SymbolTable.exists_name?_of_lt hid
    exact (hsound.isSome_rule?_iff hname).2 fun hmem => List.mem_reverse.2 (h name hmem)

theorem getElem?_filterMap_range {α : Type} {f : Nat → Option α} {n : Nat}
    (h : ∀ i < n, (f i).isSome) :
    ((List.range n).filterMap f).length = n ∧
      ∀ i < n, ((List.range n).filterMap f)[i]? = f i := by
  induction n with
  | zero => simp
  | succ n ih =>
    obtain ⟨hlength, hall⟩ := ih fun i hi => h i (by omega)
    obtain ⟨a, ha⟩ := Option.isSome_iff_exists.1 (h n (by omega))
    have hsplit : (List.range (n + 1)).filterMap f = (List.range n).filterMap f ++ [a] := by
      rw [List.range_succ, List.filterMap_append, List.filterMap_cons_some ha]
      rfl
    rw [hsplit]
    refine ⟨by simp [hlength], fun i hi => ?_⟩
    by_cases hlast : i = n
    · rw [List.getElem?_append_right (by omega), hlength, hlast, ha]
      simp
    · rw [List.getElem?_append_left (by omega), hall i (by omega)]

/-- A grammar has the rules of its table. -/
theorem rule?_compile {rules : List Rule} (hdistinct : (rules.map (·.name)).Nodup)
    (hdefined : ∀ name ∈ names rules, name ∈ rules.map (·.name)) :
    (compile options rules).size = (table rules).symbols.size ∧
      ∀ id : Nat, (compile options rules).rule? id = (table rules).rule? id := by
  obtain ⟨hlength, hall⟩ :=
    getElem?_filterMap_range ((forall_isSome_rule?_iff hdistinct).2 hdefined)
  refine ⟨by simpa [compile, Grammar.size] using hlength, fun id => ?_⟩
  rw [Grammar.rule?, compile, List.getElem?_toArray]
  by_cases hid : id < (table rules).symbols.size
  · exact hall id hid
  · rw [List.getElem?_eq_none (by omega), (table_sound hdistinct).bounded (by omega)]

/-- The root is the first rule, if no other is asked for. -/
theorem root_eq_ok_iff {rule : Rule} {rules : List Rule} {root : RuleId}
    (hdistinct : ((rule :: rules).map (·.name)).Nodup)
    (hsymbols : d.symbols = (table (rule :: rules)).symbols) :
    d.root options 0 = .ok root ↔
      (∀ name, options.root = some name →
        ((table (rule :: rules)).symbols.find? name).isSome) ∧
      root = ((table (rule :: rules)).symbols.find? (rootName options (rule :: rules))).getD 0 := by
  rw [Draft.root, rootName, hsymbols]
  cases options.root with
  | none =>
    constructor
    · intro h
      cases h
      simp [find?_table_head hdistinct]
    · rintro ⟨-, rfl⟩
      simp [find?_table_head hdistinct]
  | some name =>
    cases hfind : (table (rule :: rules)).symbols.find? name with
    | none => simp [hfind]
    | some id =>
      constructor
      · intro h
        simp only [hfind, Except.ok.injEq] at h
        simp [hfind, h]
      · rintro ⟨-, rfl⟩
        simp [hfind]

/-- **A draft is completed if all names are defined, and the root is there.** -/
theorem grammar_eq_ok_iff {rules : List Rule} {stop : Nat} {g : Grammar} (hrules : rules ≠ [])
    (hread : readRules options rules (.ofSymbols (start rules).symbols) = .ok () d) :
    d.grammar options stop = .ok g ↔
      (∀ name ∈ names rules, name ∈ rules.map (·.name)) ∧
      (∀ name, options.root = some name → ((table rules).symbols.find? name).isSome) ∧
      g = compile options rules := by
  obtain ⟨rule, others, rfl⟩ := List.exists_cons_of_ne_nil hrules
  obtain ⟨-, hdistinct, -, htable, hfirst⟩ :=
    of_readRules (start_sound (rule :: others)) (fun _ hname => hname) hread
  have hsymbols : d.symbols = (table (rule :: others)).symbols := congrArg Table.symbols htable
  have hrule : d.rule? = (table (rule :: others)).rule? := by
    funext id
    exact congrArg (·.rules.lookup id) htable
  -- The first rule is mentioned in an empty table, so its identity is the first.
  have hzero : d.first? = some 0 := by
    rw [hfirst]
    have hnone : (start (rule :: others)).symbols.find? rule.name = none :=
      SymbolTable.find?_eq_none_iff.2 (by simp [start])
    have hsize : (start (rule :: others)).symbols.size = 0 := by
      rw [← SymbolTable.length_names]
      simp [start]
    simp [Draft.ofSymbols, Draft.table, Table.mention, SymbolTable.intern, hnone, hsize]
  rw [Draft.grammar_eq_ok_iff, ← forall_isSome_rule?_iff hdistinct, hrule, hsymbols, hzero]
  constructor
  · rintro ⟨first, root, hsame, hroot, hsome, rfl⟩
    cases hsame
    obtain ⟨hfound, rfl⟩ := (root_eq_ok_iff hdistinct hsymbols).1 hroot
    exact ⟨hsome, hfound, rfl⟩
  · rintro ⟨hsome, hfound, rfl⟩
    exact ⟨0, _, rfl, (root_eq_ok_iff hdistinct hsymbols).2 ⟨hfound, rfl⟩, hsome, rfl⟩

/-- **Which grammar a text has**, if its tokens spell some rules: the one that the rules are
    compiled to, on the conditions that are named. -/
theorem parse_eq_ok_iff {source : String} {tokens : List Token} {rules : List Rule} {g : Grammar}
    (htokens : tokenize source = .ok tokens) (hspells : Spells rules tokens) :
    Grammar.parse source options = .ok g ↔
      (∀ rule ∈ rules, rule.Admitted options) ∧ (rules.map (·.name)).Nodup ∧
      (∀ name ∈ names rules, name ∈ rules.map (·.name)) ∧
      (∀ name, options.root = some name → ((table rules).symbols.find? name).isSome) ∧
      (options.leftRecursion = .reject → (compile options rules).leftRecursive = []) ∧
      g = compile options rules := by
  rw [Grammar.parse_eq_ok_iff htokens, hspells.run_eq]
  constructor
  · rintro ⟨d, hread, hgrammar, hreject⟩
    obtain ⟨hadmitted, hdistinct, -⟩ :=
      of_readRules (start_sound rules) (fun _ hname => hname) hread
    obtain ⟨hdefined, hroot, rfl⟩ := (grammar_eq_ok_iff hspells.ne_nil hread).1 hgrammar
    exact ⟨hadmitted, hdistinct, hdefined, hroot, hreject, rfl⟩
  · rintro ⟨hadmitted, hdistinct, hdefined, hroot, hreject, rfl⟩
    obtain ⟨d, hread⟩ := @exists_readRules options (.ofSymbols (start rules).symbols) _ _ rules
      (start_sound rules) (fun _ hname => hname) hadmitted hdistinct (by simp)
    exact ⟨d, hread, (grammar_eq_ok_iff hspells.ne_nil hread).2 ⟨hdefined, hroot, rfl⟩, hreject⟩

/-- A text with a grammar has tokens that spell rules. -/
theorem exists_spells_of_parse {source : String} {g : Grammar}
    (h : Grammar.parse source options = .ok g) :
    ∃ tokens, tokenize source = .ok tokens ∧ ∃ rules, Spells rules tokens := by
  cases htokens : tokenize source with
  | error e => simp [Grammar.parse, Grammar.read, htokens] at h
  | ok tokens =>
    obtain ⟨d, hrun, hgrammar, -⟩ := (Grammar.parse_eq_ok_iff htokens).1 h
    obtain hnewlines | hspells := exists_spells_of_run hrun
    · -- A text of line breaks only has no first rule.
      have hend := @run_between_newlines options (byteLength source.toList) tokens [] hnewlines
      rw [List.append_nil] at hend
      rw [hend] at hrun
      cases hrun
      obtain ⟨first, -, hfirst, -⟩ := Draft.grammar_eq_ok_iff.1 hgrammar
      simp [Draft.ofSymbols] at hfirst
    · exact ⟨tokens, rfl, hspells⟩

/-! ## The conditions, told from the tokens -/

variable {rules : List Rule} {tokens : List Token}

/-- The names in rules are those among their tokens. -/
theorem Spells.mem_names_iff (h : Spells rules tokens) {name : String} :
    name ∈ names rules ↔ ∃ token ∈ tokens, token.kind = .name name := by
  rw [names, ← h.mentions_eq]
  simp only [List.mem_map, List.mem_filterMap]
  constructor
  · rintro ⟨mention, ⟨token, htoken, hmention⟩, rfl⟩
    refine ⟨token, htoken, ?_⟩
    rw [Token.mention?] at hmention
    split at hmention
    · next text hkind =>
      cases hmention
      exact hkind
    · simp at hmention
  · rintro ⟨token, htoken, hkind⟩
    exact ⟨(name, token.span), ⟨token, htoken, by simp [Token.mention?, hkind]⟩, rfl⟩

/-- So are the operators. -/
theorem Spells.mem_operations_iff (h : Spells rules tokens) {bounds : Bounds} :
    (∃ rule ∈ rules, ∃ operation ∈ rule.operations, operation.2 = bounds) ↔
      ∃ token ∈ tokens, token.kind.bounds? = some bounds := by
  have hiff : bounds ∈ (rules.flatMap Rule.operations).map (·.2) ↔
      bounds ∈ tokens.filterMap Token.bounds? := by rw [h.operations_eq]
  rw [List.mem_map, List.mem_filterMap] at hiff
  simp only [List.mem_flatMap] at hiff
  refine Iff.trans ?_ hiff
  constructor
  · rintro ⟨rule, hrule, operation, hoperation, hbounds⟩
    exact ⟨operation, ⟨rule, hrule, hoperation⟩, hbounds⟩
  · rintro ⟨operation, ⟨rule, hrule, hoperation⟩, hbounds⟩
    exact ⟨rule, hrule, operation, hoperation, hbounds⟩

/-- The operators without braces are within every limit but zero. -/
theorem applied_of_bounds? {kind : TokenKind} {bounds : Bounds}
    (hlimit : 1 ≤ options.maxRepetition) (hbounds : kind.bounds? = some bounds)
    (hcounts : kind = .counts bounds → (∀ max, bounds.max = some max → bounds.min ≤ max) ∧
      bounds.count ≤ options.maxRepetition.toNat) :
    (∀ max, bounds.max = some max → bounds.min ≤ max) ∧
      bounds.count ≤ options.maxRepetition.toNat := by
  have hlimit : 1 ≤ options.maxRepetition.toNat := hlimit
  cases kind with
  | question | star | plus =>
    cases hbounds
    exact ⟨by simp, by simp [Bounds.count, hlimit]⟩
  | counts found =>
    cases hbounds
    exact hcounts rfl
  | _ => cases hbounds

theorem isInverted_eq_false_iff {bounds : Bounds} :
    bounds.isInverted = false ↔ ∀ max, bounds.max = some max → bounds.min ≤ max := by
  rw [Bounds.isInverted]
  cases bounds.max <;> simp

/-- **All rules pass the checks** if the tokens do as far as they can tell, no operator is applied
    to nothing, and groups are not nested too deep. -/
theorem Spells.forall_admitted_iff (h : Spells rules tokens)
    (hlimit : 1 ≤ options.maxRepetition) :
    (∀ rule ∈ rules, rule.Admitted options) ↔
      (∀ token ∈ tokens, ∀ bounds, token.kind = .counts bounds →
        (∀ max, bounds.max = some max → bounds.min ≤ max) ∧
          bounds.count ≤ options.maxRepetition.toNat) ∧
      (∀ rule ∈ rules, ∀ operation ∈ rule.operations, operation.1.isVoid = false) ∧
      (∀ rule ∈ rules, rule.depth ≤ options.maxNesting.toNat) ∧
      (∀ token ∈ tokens, ∀ name, token.kind = .name name →
        options.allowReservedNames = true ∨ isReserved name = false) := by
  constructor
  · intro hall
    refine ⟨?_, ?_, ?_, ?_⟩
    · intro token htoken bounds hkind
      obtain ⟨rule, hrule, operation, hoperation, rfl⟩ :=
        h.mem_operations_iff.2 ⟨token, htoken, by rw [hkind]; rfl⟩
      obtain ⟨-, hinverted, hcount⟩ := (hall rule hrule).applied operation hoperation
      exact ⟨isInverted_eq_false_iff.1 hinverted, hcount⟩
    · intro rule hrule operation hoperation
      exact ((hall rule hrule).applied operation hoperation).1
    · intro rule hrule
      exact (hall rule hrule).nested
    · intro token htoken name hkind
      have hname := h.mem_names_iff.2 ⟨token, htoken, hkind⟩
      rw [names, List.mem_map] at hname
      obtain ⟨mention, hmention, rfl⟩ := hname
      obtain ⟨rule, hrule, hmention⟩ := List.mem_flatMap.1 hmention
      exact (hall rule hrule).allowed mention hmention
  · rintro ⟨hcounts, hvoid, hdepth, hnames⟩ rule hrule
    refine ⟨fun mention hmention => ?_, hdepth rule hrule, fun operation hoperation => ?_⟩
    · have hname : mention.1 ∈ names rules :=
        List.mem_map_of_mem (List.mem_flatMap.2 ⟨rule, hrule, hmention⟩)
      obtain ⟨token, htoken, hkind⟩ := h.mem_names_iff.1 hname
      exact hnames token htoken mention.1 hkind
    · obtain ⟨token, htoken, hbounds⟩ :=
        h.mem_operations_iff.1 ⟨rule, hrule, operation, hoperation, rfl⟩
      obtain ⟨hinverted, hcount⟩ :=
        applied_of_bounds? hlimit hbounds (hcounts token htoken _)
      exact ⟨hvoid rule hrule operation hoperation, isInverted_eq_false_iff.2 hinverted, hcount⟩

end Tree

namespace Grammar

/-- **The dialect that is accepted.** A text of tokens has a grammar, if no root is asked for and
    left recursion is not refused, exactly if its tokens spell rules such that

    - counts in braces are not inverted and within the limit,
    - no operator is applied to something that expands to no symbol,
    - not more groups are open at once than the limit says,
    - names that are kept for helpers do not occur, unless they may,
    - the rules have different names, and every name that occurs has a rule. -/
theorem exists_parse_eq_ok_iff {source : String} {tokens : List Token} {options : ParseOptions}
    (htokens : tokenize source = .ok tokens) (hroot : options.root = none)
    (hleft : options.leftRecursion ≠ .reject) (hlimit : 1 ≤ options.maxRepetition) :
    (∃ g, Grammar.parse source options = .ok g) ↔
      ∃ rules, Tree.Spells rules tokens ∧
        (∀ token ∈ tokens, ∀ bounds, token.kind = .counts bounds →
          (∀ max, bounds.max = some max → bounds.min ≤ max) ∧
            bounds.count ≤ options.maxRepetition.toNat) ∧
        (∀ rule ∈ rules, ∀ operation ∈ rule.operations, ∀ table,
          (operation.1.expand rule.name table).1 ≠ []) ∧
        (∀ rule ∈ rules, rule.depth ≤ options.maxNesting.toNat) ∧
        (∀ token ∈ tokens, ∀ name, token.kind = .name name →
          options.allowReservedNames = true ∨ isReserved name = false) ∧
        (rules.map (·.name)).Nodup ∧
        (∀ token ∈ tokens, ∀ name, token.kind = .name name → name ∈ rules.map (·.name)) := by
  have hvoid (rule : Tree.Rule) (operation : Tree.Atom × Bounds) :
      (∀ table, (operation.1.expand rule.name table).1 ≠ []) ↔ operation.1.isVoid = false := by
    constructor
    · intro h
      rw [← operation.1.isEmpty_expand rule.name (Tree.start [])]
      exact List.isEmpty_eq_false_iff.2 (h _)
    · intro h table
      rw [← operation.1.isEmpty_expand rule.name table] at h
      exact List.isEmpty_eq_false_iff.1 h
  have hnames {rules : List Tree.Rule} (hspells : Tree.Spells rules tokens) :
      (∀ name ∈ Tree.names rules, name ∈ rules.map (·.name)) ↔
        ∀ token ∈ tokens, ∀ name, token.kind = .name name → name ∈ rules.map (·.name) := by
    constructor
    · intro h token htoken name hkind
      exact h name (hspells.mem_names_iff.2 ⟨token, htoken, hkind⟩)
    · intro h name hname
      obtain ⟨token, htoken, hkind⟩ := hspells.mem_names_iff.1 hname
      exact h token htoken name hkind
  simp only [hvoid]
  constructor
  · rintro ⟨g, hparse⟩
    obtain ⟨found, hfound, rules, hspells⟩ := Tree.exists_spells_of_parse hparse
    cases htokens.symm.trans hfound
    obtain ⟨hadmitted, hdistinct, hdefined, -⟩ :=
      (Tree.parse_eq_ok_iff htokens hspells).1 hparse
    obtain ⟨hcounts, hoperands, hdepth, hallowed⟩ :=
      (hspells.forall_admitted_iff hlimit).1 hadmitted
    exact ⟨rules, hspells, hcounts, hoperands, hdepth, hallowed, hdistinct,
      (hnames hspells).1 hdefined⟩
  · rintro ⟨rules, hspells, hcounts, hoperands, hdepth, hallowed, hdistinct, hdefined⟩
    refine ⟨Tree.compile options rules, (Tree.parse_eq_ok_iff htokens hspells).2 ?_⟩
    refine ⟨?_, hdistinct, (hnames hspells).2 hdefined, ?_, fun h => absurd h hleft, rfl⟩
    · exact (hspells.forall_admitted_iff hlimit).2 ⟨hcounts, hoperands, hdepth, hallowed⟩
    · simp [hroot]

/-- A rule with a repeated literal is in the dialect. -/
theorem exists_spells_repeated_literal :
    ∃ tokens, tokenize "r ::= \"ab\"{2,3}\n" = .ok tokens ∧
      (∃ g, Grammar.parse "r ::= \"ab\"{2,3}\n" = .ok g) ∧
      ∃ rules, Tree.Spells rules tokens ∧ (rules.map (·.name)).Nodup := by
  have htokens : tokenize "r ::= \"ab\"{2,3}\n" =
      .ok [⟨.name "r", ⟨0, 1⟩⟩, ⟨.define, ⟨2, 5⟩⟩, ⟨.literal ['a', 'b'], ⟨6, 10⟩⟩,
        ⟨.counts ⟨2, some 3⟩, ⟨10, 15⟩⟩, ⟨.newline, ⟨15, 16⟩⟩] := by decide +kernel
  have hparse : ∃ g, Grammar.parse "r ::= \"ab\"{2,3}\n" = .ok g :=
    exists_parse_of_isOk (by decide +kernel)
  obtain ⟨rules, hspells, -, -, -, -, hdistinct, -⟩ :=
    (exists_parse_eq_ok_iff htokens rfl (by decide) (by decide)).1 hparse
  exact ⟨_, htokens, hparse, rules, hspells, hdistinct⟩

/-- **A text means what its rules are compiled to.** The tokens of a text that has a grammar spell
    some rules, and whichever rules they spell, the grammar is what these are compiled to. -/
theorem eq_compile_of_parse {source : String} {options : ParseOptions} {g : Grammar}
    (h : Grammar.parse source options = .ok g) :
    ∃ tokens, tokenize source = .ok tokens ∧ (∃ rules, Tree.Spells rules tokens) ∧
      ∀ rules, Tree.Spells rules tokens → g = Tree.compile options rules := by
  obtain ⟨tokens, htokens, hspells⟩ := Tree.exists_spells_of_parse h
  refine ⟨tokens, htokens, hspells, fun rules hrules => ?_⟩
  exact ((Tree.parse_eq_ok_iff htokens hrules).1 h).2.2.2.2.2

/-- A group with two alternatives and a chain of helpers are compiled as the tree says. -/
theorem eq_compile_repeated_group :
    ∃ g, Grammar.parse "r ::= (\"a\" | \"b\"){1,3}\n" = .ok g ∧
      ∃ tokens, tokenize "r ::= (\"a\" | \"b\"){1,3}\n" = .ok tokens ∧
        (∃ rules, Tree.Spells rules tokens) ∧
        ∀ rules, Tree.Spells rules tokens → g = Tree.compile {} rules := by
  obtain ⟨g, hparse⟩ : ∃ g, Grammar.parse "r ::= (\"a\" | \"b\"){1,3}\n" = .ok g :=
    exists_parse_of_isOk (by decide +kernel)
  exact ⟨g, hparse, eq_compile_of_parse hparse⟩

end Grammar

end Bnf
