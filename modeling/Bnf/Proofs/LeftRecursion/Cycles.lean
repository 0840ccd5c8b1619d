import Bnf.Proofs.Completion
import Bnf.Proofs.Language
import Bnf.Proofs.LeftRecursion
import Bnf.Proofs.Tree.Fitting

/-!
# Left recursion is found

A rule comes before another on the left if in one of its alternatives only rules whose language has
the empty text are in front of the other. The search for left recursive rules finds nothing but
rules on cycles of this relation, each once, and it finds one of every cycle. So to reject left
recursion is to reject just the grammars with such a cycle.

## Main definitions

- `Grammar.LeftStep` — a rule has another at its left end, up to rules that can be empty

## Main results

- `Grammar.vanishes_iff_mem_language` — rules that stand for the empty text have it in their
  language
- `Grammar.leftRecursive_finds_cycles` — what is found, and when a text is rejected
-/

namespace Bnf

open Relation

/-! ## Walks -/

section

variable {α : Type} {r : α → α → Prop} {a b : α} {rest : List α}

/-- Along a walk each node but the last has one behind it. -/
theorem exists_step_of_isChain (h : List.IsChain r (a :: rest ++ [b])) {x : α}
    (hx : x ∈ a :: rest) : ∃ y, r x y := by
  induction rest generalizing a with
  | nil =>
    obtain rfl := List.mem_singleton.1 hx
    exact ⟨b, (List.isChain_cons_cons.1 h).1⟩
  | cons next rest ih =>
    obtain ⟨hstep, hrest⟩ := List.isChain_cons_cons.1 h
    obtain rfl | hmem := List.mem_cons.1 hx
    · exact ⟨next, hstep⟩
    · exact ih hrest hmem

/-- A walk whose nodes after the first all have a property. -/
theorem transGen_of_isChain {p : α → Prop} (h : List.IsChain r (a :: rest ++ [b]))
    (hp : ∀ x ∈ rest ++ [b], p x) : TransGen (fun x y => r x y ∧ p y) a b := by
  induction rest generalizing a with
  | nil => exact .single ⟨(List.isChain_cons_cons.1 h).1, hp b (by simp)⟩
  | cons next rest ih =>
    obtain ⟨hstep, hrest⟩ := List.isChain_cons_cons.1 h
    rw [List.cons_append, List.forall_mem_cons] at hp
    exact .head ⟨hstep, hp.1⟩ (ih hrest hp.2)

end

/-! ## No node is named twice -/

namespace Graph

theorem nodup_closing (g : Graph) (nodes : List Nat) : (g.search nodes).closing.Nodup := by
  refine @run_induction g (fun s _ => s.closing.Nodup) ?_ ?_ (fun _ _ _ h => h) (fun _ h => h)
    .start (nodes.map .enter) List.nodup_nil
  · intro s _ h
    rw [Search.leave]
    split <;> exact h
  · intro s node _ _ h
    rw [Search.close]
    split
    · exact h
    · next hnew =>
      exact h.append (List.nodup_singleton node) (by simpa using hnew)

end Graph

/-! ## The empty text -/

theorem CharSet.nil_not_mem_language (s : CharSet) : [] ∉ s.language := by
  rintro ⟨c, -, h⟩
  simp at h

theorem Symbol.nil_mem_language_iff {L : RuleId → Language Char} {symbol : Symbol} :
    [] ∈ symbol.language L ↔ ∃ id : Nat, symbol = .rule id ∧ [] ∈ L id := by
  cases symbol with
  | rule id => simp [Symbol.language]
  | chars s => simpa [Symbol.language] using s.nil_not_mem_language

theorem Body.nil_mem_language_iff {L : RuleId → Language Char} {body : Body} :
    [] ∈ Body.language L body ↔
      ∀ symbol ∈ body, ∃ id : Nat, symbol = .rule id ∧ [] ∈ L id := by
  induction body with
  | nil => simp
  | cons symbol body ih =>
    rw [Body.language_cons, Language.mem_mul, List.forall_mem_cons, ← ih,
      ← Symbol.nil_mem_language_iff]
    constructor
    · rintro ⟨front, hfront, back, hback, hnil⟩
      obtain ⟨rfl, rfl⟩ := List.append_eq_nil_iff.1 hnil
      exact ⟨hfront, hback⟩
    · rintro ⟨hfront, hback⟩
      exact ⟨[], hfront, [], hback, rfl⟩

theorem nil_mem_alternativesLanguage_iff {L : RuleId → Language Char} {bodies : List Body} :
    [] ∈ alternativesLanguage L bodies ↔ ∃ body ∈ bodies, [] ∈ Body.language L body := by
  induction bodies with
  | nil => simp
  | cons body bodies ih =>
    rw [alternativesLanguage_cons, Language.mem_add, ih, List.exists_mem_cons_iff]

namespace Grammar

variable {g : Grammar} {id other : Nat}

/-- All texts, but the empty one only for rules that stand for it. -/
def emptyIfVanishing (g : Grammar) (id : RuleId) : Language Char :=
  {text | text = [] → g.Vanishes id}

/-- **A rule stands for the empty text if its language has it.** -/
theorem vanishes_iff_mem_language : g.Vanishes id ↔ [] ∈ g.language id := by
  constructor
  · intro h
    induction h with
    | @intro id rule body hrule hbody hchars _ ih =>
      rw [← alternativesLanguage_language, nil_mem_alternativesLanguage_iff]
      refine ⟨body, mem_alternatives_iff.2 ⟨rule, hrule, hbody⟩, ?_⟩
      refine Body.nil_mem_language_iff.2 fun symbol hsymbol => ?_
      cases symbol with
      | rule other => exact ⟨other, rfl, ih other hsymbol⟩
      | chars s => exact absurd hsymbol (hchars s)
  · -- The texts that are empty only if the rule vanishes are a solution of the equations.
    have hle : g.language ≤ g.emptyIfVanishing := by
      refine language_le fun id text htext hempty => ?_
      obtain ⟨body, hbody, hnil⟩ := nil_mem_alternativesLanguage_iff.1 (hempty ▸ htext)
      obtain ⟨rule, hrule, hbody⟩ := mem_alternatives_iff.1 hbody
      rw [Body.nil_mem_language_iff] at hnil
      refine .intro hrule hbody (fun s hs => ?_) fun other hother => ?_
      · obtain ⟨_, hrule, -⟩ := hnil _ hs
        cases hrule
      · obtain ⟨_, hsame, hvanishes⟩ := hnil _ hother
        cases hsame
        exact hvanishes rfl
    exact fun h => hle id h rfl

/-! ## The relation -/

/-- **A rule has another at its left end**: in one of its alternatives only rules are in front of
    the other, and each of these generates the empty text. -/
def LeftStep (g : Grammar) (id other : RuleId) : Prop :=
  ∃ front back, front ++ .rule other :: back ∈ g.alternatives id ∧
    ∀ symbol ∈ front, ∃ skipped : RuleId, symbol = .rule skipped ∧ [] ∈ g.language skipped

theorem leftStep_eq_enters : g.LeftStep = g.Enters := by
  funext id other
  simp only [LeftStep, Enters, mem_alternatives_iff, vanishes_iff_mem_language, eq_iff_iff]
  constructor
  · rintro ⟨front, back, ⟨rule, hrule, hbody⟩, hfront⟩
    exact ⟨rule, front, back, hrule, hbody, hfront⟩
  · rintro ⟨rule, front, back, hrule, hbody, hfront⟩
    exact ⟨front, back, ⟨rule, hrule, hbody⟩, hfront⟩

theorem LeftStep.lt (h : g.LeftStep id other) : id < g.size := by
  obtain ⟨_, _, hbody, -⟩ := h
  obtain ⟨rule, hrule, -⟩ := mem_alternatives_iff.1 hbody
  exact lt_of_rule? hrule

theorem leftRecursive_eq_closing (g : Grammar) :
    g.leftRecursive = (g.entryGraph.search (List.range g.entryGraph.size)).closing := by
  rw [leftRecursive, ids, size_entryGraph]

/-- **Only rules on cycles are found.** -/
theorem transGen_of_mem_leftRecursive (h : id ∈ g.leftRecursive) : TransGen g.LeftStep id id := by
  rw [leftStep_eq_enters]
  exact TransGen.mono (fun _ _ hedge => (entryGraph_edge_iff.1 hedge).1) _ _
    (Graph.cycle_of_mem_closing h)

theorem lt_of_mem_leftRecursive (h : id ∈ g.leftRecursive) : id < g.size := by
  obtain ⟨next, hstep, -⟩ := TransGen.head'_iff.1 (transGen_of_mem_leftRecursive h)
  exact hstep.lt

/-- **A rule of every cycle is found**, where a cycle is a walk back to its first rule. -/
theorem exists_mem_leftRecursive_of_isChain {first : RuleId} {rest : List RuleId}
    (h : List.IsChain g.LeftStep (first :: rest ++ [first])) :
    ∃ id ∈ first :: rest, id ∈ g.leftRecursive := by
  by_contra hnone
  have hmissed : ∀ id ∈ rest ++ [first], id < g.size ∧ id ∉ g.leftRecursive := by
    intro id hid
    have hmem : id ∈ first :: rest := by simpa [or_comm] using hid
    obtain ⟨next, hnext⟩ := exists_step_of_isChain h hmem
    exact ⟨hnext.lt, fun hfound => hnone ⟨id, hmem, hfound⟩⟩
  have hcycle := transGen_of_isChain h hmissed
  rw [leftRecursive_eq_closing] at hcycle
  refine g.entryGraph.acyclic_of_not_mem_closing first (TransGen.mono ?_ _ _ hcycle)
  rintro id other ⟨hstep, hlt, hnew⟩
  rw [leftStep_eq_enters] at hstep
  exact ⟨entryGraph_edge_iff.2 ⟨hstep, hlt⟩, hnew⟩

theorem leftRecursive_ne_nil_iff : g.leftRecursive ≠ [] ↔ ∃ id, TransGen g.LeftStep id id := by
  rw [Ne, leftRecursive_eq_nil_iff, leftStep_eq_enters, not_forall_not]

end Grammar

/-! ## Rejecting left recursion -/

variable {options : ParseOptions} {source : String} {g : Grammar}

/-- What is done with tokens does not depend on what is done about left recursion. -/
theorem Place.run_leftRecursion (policy : LeftRecursion) (stop : Nat) (place : Place)
    (tokens : List Token) : Place.run { options with leftRecursion := policy } stop place tokens =
      Place.run options stop place tokens := by
  induction tokens generalizing place with
  | nil => rfl
  | cons token rest ih =>
    rw [Place.run, Place.run]
    simp only [ih]
    rfl

/-- A left recursive draft is rejected for the first rule that is found. -/
theorem Drafting.complete_eq_error {d : Draft} {stop id : Nat} {others : List RuleId}
    (hgrammar : d.grammar options stop = .ok g) (hreject : options.leftRecursion = .reject)
    (hfound : g.leftRecursive = id :: others) :
    complete options stop d = .error ⟨.grammar (.leftRecursion (g.name id)), g.blame id⟩ d := by
  have hcheck : checkLeftRecursion options g d =
      .error ⟨.grammar (.leftRecursion (g.name id)), g.blame id⟩ d := by
    rw [checkLeftRecursion, hreject]
    simp only [hfound]
    rfl
  rw [complete]
  simp only [bind, get, getThe, MonadStateOf.get, EStateM.get, EStateM.bind, hgrammar, hcheck]

namespace Grammar

/-- A text is rejected for the first left recursive rule that is found, if there is one. -/
theorem parse_reject_eq
    (h : parse source { options with leftRecursion := .allow } = .ok g) :
    parse source { options with leftRecursion := .reject } =
      match g.leftRecursive with
      | [] => .ok g
      | id :: _ => .error ⟨.grammar (.leftRecursion (g.name id)), g.blame id⟩ := by
  obtain ⟨tokens, htokens, -⟩ := Tree.exists_spells_of_parse h
  obtain ⟨d, hrun, hgrammar, -⟩ := (parse_eq_ok_iff htokens).1 h
  rw [Place.run_leftRecursion] at hrun
  cases hfound : g.leftRecursive with
  | nil =>
    refine (parse_eq_ok_iff htokens).2 ⟨d, ?_, hgrammar, fun _ => hfound⟩
    rwa [Place.run_leftRecursion]
  | cons id others =>
    have hread : Drafting.ofTokens { options with leftRecursion := .reject }
        (byteLength source.toList) tokens (.ofSymbols (.ofTokens tokens)) =
          .error ⟨.grammar (.leftRecursion (g.name id)), g.blame id⟩ d := by
      show EStateM.bind (Place.run _ _ .between tokens) _ _ = _
      rw [EStateM.bind, Place.run_leftRecursion, hrun]
      exact Drafting.complete_eq_error hgrammar rfl hfound
    rw [parse, read, htokens]
    simp only [hread]

/-- **Left recursion is found.** What is found are rules on cycles, each once, and one of every
    cycle at least. So a text whose grammar may be left recursive is rejected otherwise if there is
    a cycle, for a rule that lies on one, and means the same if there is none. -/
theorem leftRecursive_finds_cycles :
    (∀ g : Grammar, g.leftRecursive.Nodup ∧
      (∀ id ∈ g.leftRecursive, TransGen g.LeftStep id id) ∧
      ∀ (first : RuleId) (rest : List RuleId), List.IsChain g.LeftStep (first :: rest ++ [first]) →
        ∃ id ∈ first :: rest, id ∈ g.leftRecursive) ∧
    ∀ (source : String) (options : ParseOptions) (g : Grammar),
      parse source { options with leftRecursion := .allow } = .ok g →
      ((∃ name offset, parse source { options with leftRecursion := .reject } =
          .error ⟨.grammar (.leftRecursion name), offset⟩) ↔
        ∃ id, TransGen g.LeftStep id id) ∧
      ((∀ id, ¬ TransGen g.LeftStep id id) →
        parse source { options with leftRecursion := .reject } = .ok g) ∧
      ∀ name offset, parse source { options with leftRecursion := .reject } =
          .error ⟨.grammar (.leftRecursion name), offset⟩ →
        ∃ id, g.find? name = some id ∧ TransGen g.LeftStep id id := by
  refine ⟨fun g => ⟨?_, fun id => transGen_of_mem_leftRecursive, fun first rest =>
    exists_mem_leftRecursive_of_isChain⟩, fun source options g hparse => ?_⟩
  · rw [leftRecursive_eq_closing]
    exact Graph.nodup_closing _ _
  · rw [parse_reject_eq hparse, ← leftRecursive_ne_nil_iff]
    cases hfound : g.leftRecursive with
    | nil => simp
    | cons first others =>
      have hcycle : TransGen g.LeftStep first first :=
        transGen_of_mem_leftRecursive (hfound ▸ List.mem_cons_self)
      refine ⟨by simp, fun hnone => absurd hcycle (hnone first), fun name offset herror => ?_⟩
      cases herror
      have hlt : first < g.size := lt_of_mem_leftRecursive (hfound ▸ List.mem_cons_self)
      exact ⟨first, (Tree.wellFormed_of_parse hparse).find?_name hlt, hcycle⟩

/-- A rule that comes back to itself behind a rule that can be empty. -/
theorem leftRecursive_finds_cycle_behind_optional :
    ∃ g, parse "r ::= s? r \"x\" | \"y\"\ns ::= \"z\"\n" { leftRecursion := .allow } = .ok g ∧
      parse "r ::= s? r \"x\" | \"y\"\ns ::= \"z\"\n" { leftRecursion := .reject } =
        .error ⟨.grammar (.leftRecursion "r"), 0⟩ ∧
      ∃ id, g.find? "r" = some id ∧ TransGen g.LeftStep id id := by
  obtain ⟨g, hparse⟩ : ∃ g, parse "r ::= s? r \"x\" | \"y\"\ns ::= \"z\"\n"
      { leftRecursion := .allow } = .ok g := exists_parse_of_isOk (by decide +kernel)
  have hreject : parse "r ::= s? r \"x\" | \"y\"\ns ::= \"z\"\n" { leftRecursion := .reject } =
      .error ⟨.grammar (.leftRecursion "r"), 0⟩ := by decide +kernel
  obtain ⟨-, -, hnamed⟩ := leftRecursive_finds_cycles.2 _ {} g hparse
  exact ⟨g, hparse, hreject, hnamed _ _ hreject⟩

end Grammar

end Bnf
