import Bnf.Proofs.Tree.Acceptance
import Bnf.Proofs.Tree.Constructs
import Bnf.Proofs.Tree.FirstMention

/-!
# What is reported of a text

A reader reports each rule when it is complete, and no rule is complete twice or forgotten. So the
reports on a text that is accepted tell its grammar: for each rule of the text, the helpers of its
parts and then the rule itself. Behind them stand the warnings, which come from the same analyses
that a caller may ask for, and a summary.

## Main definitions

- `Rule.completed` — what is reported of a rule
- `Draft.Accounted` — the reports on a draft tell its rules, in order
- `Drafting.Accounts` — a computation reports what it completes

## Main results

- `Tree.readRules_accounts` — reading rules reports them
- `Drafting.events_complete` — what is reported when a draft becomes a grammar
- `Tree.nodup_keys_table` — no rule is complete twice
- `Grammar.reports_account_for_rules` — all that is reported of a text
-/

namespace Bnf

open Drafting

/-- **What is reported of a rule** with a name, when it is complete. -/
def Rule.completed (rule : Rule) (name : String) : Event :=
  match rule.origin with
  | .helper kind => .helperMade kind name
  | .defined _ => .ruleRead name rule.alternatives.length

/-- What is reported of some rules with the names of a table. -/
def SymbolTable.reports (t : SymbolTable) (entries : List (RuleId × Rule)) : List Event :=
  entries.map fun (id, rule) => rule.completed ((t.name? id).getD "")

/-- What was reported of rules stays so while names are added. -/
theorem SymbolTable.reports_of_entries {t u : SymbolTable} {entries : List (RuleId × Rule)}
    (h : t.entries.toList <+: u.entries.toList) (hentries : ∀ entry ∈ entries, entry.1 < t.size) :
    u.reports entries = t.reports entries := by
  refine List.map_congr_left fun entry hentry => ?_
  obtain ⟨name, hname⟩ := exists_name?_of_lt (hentries entry hentry)
  simp only [hname, name?_of_entries h hname]

/-! ## Computations that report what they complete -/

/-- **The reports on a draft account for its rules**: each has been reported when it was complete,
    and nothing else has been. -/
structure Draft.Accounted (d : Draft) : Prop where
  bounded : ∀ entry ∈ d.definitions, entry.1 < d.symbols.size
  events : d.events.toList = d.symbols.reports d.definitions.reverse

/-- A draft goes on from another: its names stay, and its reports account for its rules if they did
    before. -/
structure Draft.Continues (d d' : Draft) : Prop where
  entries : d.symbols.entries.toList <+: d'.symbols.entries.toList
  accounted : d.Accounted → d'.Accounted

namespace Draft.Continues

variable {d d' d'' : Draft} {symbols : SymbolTable} {first? : Option RuleId} {id : Nat}
  {rule : Rule}

theorem refl (d : Draft) : d.Continues d :=
  ⟨List.prefix_rfl, fun h => h⟩

/-- Drafts go on from one another. -/
theorem trans (h : d.Continues d') (h' : d'.Continues d'') : d.Continues d'' :=
  ⟨h.entries.trans h'.entries, fun haccounted => h'.accounted (h.accounted haccounted)⟩

/-- New names are nothing to report. -/
theorem of_entries (h : d.symbols.entries.toList <+: symbols.entries.toList) :
    d.Continues { d with symbols := symbols, first? := first? } := by
  refine ⟨h, fun haccounted => ⟨fun entry hentry => ?_, haccounted.events.trans ?_⟩⟩
  · exact Nat.lt_of_lt_of_le (haccounted.bounded entry hentry) h.length_le
  · refine (SymbolTable.reports_of_entries h fun entry hentry => ?_).symm
    exact haccounted.bounded entry (List.mem_reverse.1 hentry)

/-- A rule that is complete has to be reported. -/
theorem complete (hid : id < d.symbols.size) :
    d.Continues { d with
      definitions := (id, rule) :: d.definitions
      events := d.events.push (rule.completed ((d.symbols.name? id).getD "")) } := by
  refine ⟨List.prefix_rfl, fun haccounted => ⟨?_, ?_⟩⟩
  · exact List.forall_mem_cons.2 ⟨hid, haccounted.bounded⟩
  · rw [Array.toList_push, haccounted.events, SymbolTable.reports, SymbolTable.reports,
      List.reverse_cons, List.map_append]
    rfl

end Draft.Continues

namespace Drafting

variable {α β : Type} {m : Drafting α} {d d' : Draft} {owner : String} {span : Span}

/-- **A computation reports what it completes.** -/
def Accounts (m : Drafting α) : Prop :=
  ∀ ⦃d d' : Draft⦄ ⦃a : α⦄, m d = .ok a d' → d.Continues d'

namespace Accounts

theorem pure (a : α) : Accounts (pure a) := by
  intro d d' _ h
  cases h
  exact .refl d

theorem fail (fault : GrammarFault) (offset : Nat) :
    Accounts (Drafting.fail fault offset : Drafting α) := by
  intro d d' _ h
  cases h

/-- **Two parts account for their rules one after the other.** -/
theorem bind {f : α → Drafting β} (hm : Accounts m) (hf : ∀ a, Accounts (f a)) :
    Accounts (m >>= f) := by
  intro d d' _ h
  obtain ⟨a, middle, hmiddle, hfinal⟩ := bind_eq_ok.1 h
  exact (hm hmiddle).trans (hf a hfinal)

end Accounts

theorem requireAllowed_accounts (options : ParseOptions) (name : String) (span : Span) :
    Accounts (requireAllowed options name span) := by
  rw [requireAllowed]
  split
  · exact .fail _ _
  · exact .pure ()

theorem requireDepth_accounts (options : ParseOptions) (depth : Nat) (opening : Span) :
    Accounts (Tree.requireDepth options depth opening) := by
  rw [Tree.requireDepth]
  split
  · exact .fail _ _
  · exact .pure ()

theorem requireRepeatable_accounts (options : ParseOptions) (body : Body)
    (operator : Tree.Repetition) : Accounts (Tree.requireRepeatable options body operator) := by
  rw [Tree.requireRepeatable]
  split
  · exact .fail _ _
  · split
    · exact .fail _ _
    · split
      · exact .fail _ _
      · exact .pure ()

/-- A name has no rule yet that would be to report. -/
theorem mention_accounts (name : String) (span : Span) : Accounts (mention name span) := by
  intro d d' _ h
  cases h
  exact .of_entries (d.symbols.entries_prefix_intern name span)

/-- New helpers have to be completed by their identities. -/
theorem continues_newHelpers (d : Draft) (count : Nat) :
    d.Continues { d with symbols := d.symbols.generateMany owner span count } := by
  obtain ⟨made, hentries, -⟩ := d.symbols.exists_entries_generateMany owner span count
  exact .of_entries ⟨made, hentries.symm⟩

/-- A helper is reported when its rule is defined. -/
theorem continues_defineHelper {id : RuleId} {kind : HelperKind} {alternatives : List Body}
    (hid : id < d.symbols.size) (h : defineHelper id kind alternatives d = .ok () d') :
    d.Continues d' ∧ d'.symbols = d.symbols := by
  cases h
  exact ⟨@Draft.Continues.complete d id ⟨.helper kind, alternatives⟩ hid, rfl⟩

theorem continues_defineChain {body : Body} {chain : List RuleId}
    (hchain : ∀ id ∈ chain, id < d.symbols.size) (h : defineChain body chain d = .ok () d') :
    d.Continues d' := by
  induction chain generalizing d with
  | nil =>
    cases h
    exact .refl _
  | cons id chain ih =>
    rw [List.forall_mem_cons] at hchain
    obtain ⟨_, middle, hmiddle, hfinal⟩ := bind_eq_ok.1 h
    obtain ⟨hcontinues, hsymbols⟩ := continues_defineHelper hchain.1 hmiddle
    refine hcontinues.trans (ih (fun other hother => ?_) hfinal)
    rw [hsymbols]
    exact hchain.2 other hother

theorem newHelper_eq_ok (owner : String) (span : Span) (d : Draft) :
    newHelper owner span d =
      .ok d.symbols.size { d with symbols := d.symbols.generateMany owner span 1 } :=
  rfl

/-- A helper gets its rule as soon as it has its name. -/
theorem Accounts.helper {kind : HelperKind} {alternatives : RuleId → List Body}
    {result : RuleId → Body} : Accounts (do
      let id ← newHelper owner span
      defineHelper id kind (alternatives id)
      return result id) := by
  intro d d' _ h
  obtain ⟨id, named, hnamed, hrest⟩ := bind_eq_ok.1 h
  obtain ⟨_, middle, hmiddle, hend⟩ := bind_eq_ok.1 hrest
  rw [newHelper_eq_ok] at hnamed
  cases hnamed
  cases hend
  refine (continues_newHelpers _ 1).trans (continues_defineHelper ?_ hmiddle).1
  rw [SymbolTable.size_generateMany]
  exact Nat.lt_succ_self _

/-- So all helpers of a repetition are reported. -/
theorem repeated_accounts (owner : String) (span : Span) (body : Body) (bounds : Bounds) :
    Accounts (repeated owner span body bounds) := by
  obtain ⟨min, max⟩ := bounds
  cases max with
  | none => exact .helper
  | some max =>
    intro d d' _ h
    obtain ⟨chain, named, hnamed, hrest⟩ := bind_eq_ok.1 h
    obtain ⟨_, middle, hmiddle, hend⟩ := bind_eq_ok.1 hrest
    rw [newHelpers_eq_ok] at hnamed
    cases hnamed
    cases hend
    refine (continues_newHelpers _ (max - min)).trans
      (continues_defineChain (fun id hid => ?_) hmiddle)
    rw [SymbolTable.size_generateMany]
    exact (List.mem_range'_1.1 hid).2

/-- So is that of a group. -/
theorem grouped_accounts (owner : String) (span : Span) (bodies : List Body) :
    Accounts (grouped owner span bodies) := by
  match bodies with
  | [body] => exact .pure body
  | [] | _ :: _ :: _ => exact .helper

end Drafting

/-! ## Reading rules -/

namespace Tree

variable {options : ParseOptions} {owner : String}

mutual

/-- **Reading an atom reports its helpers.** -/
theorem Atom.read_accounts (depth : Nat) :
    (atom : Atom) → Accounts (atom.read options owner depth)
  | .literal .. | .set .. | .any _ => .pure _
  | .name text span =>
    (requireAllowed_accounts options text span).bind fun _ =>
      (mention_accounts text span).bind fun _ => .pure _
  | .group opening alternatives closing =>
    (requireDepth_accounts options depth opening).bind fun _ =>
      (readAlternation_accounts (depth + 1) alternatives).bind fun bodies =>
        grouped_accounts owner (opening.join closing) bodies
termination_by structural atom => atom

/-- Of a term the helpers of its atom are reported first. -/
theorem Term.read_accounts (depth : Nat) :
    (term : Term) → Accounts (term.read options owner depth)
  | .mk atom none => atom.read_accounts depth
  | .mk atom (some operator) =>
    (atom.read_accounts depth).bind fun body =>
      (requireRepeatable_accounts options body operator).bind fun _ =>
        repeated_accounts owner (atom.span.join operator.span) body operator.bounds
termination_by structural term => term

theorem readSequence_accounts (depth : Nat) :
    (terms : List Term) → Accounts (readSequence options owner depth terms)
  | [] => .pure _
  | term :: terms =>
    (term.read_accounts depth).bind fun _ =>
      (readSequence_accounts depth terms).bind fun _ => .pure _
termination_by structural terms => terms

theorem readAlternation_accounts (depth : Nat) :
    (alternatives : List (List Term)) → Accounts (readAlternation options owner depth alternatives)
  | [] => .pure _
  | terms :: alternatives =>
    (readSequence_accounts depth terms).bind fun _ =>
      (readAlternation_accounts depth alternatives).bind fun _ => .pure _
termination_by structural alternatives => alternatives

end

/-- **Reading a rule reports its helpers, and then the rule.** -/
theorem Rule.read_accounts (rule : Rule) : Accounts (rule.read options) := by
  intro d d' _ h
  obtain ⟨named, hnamed, id, entered, hentered, hrest⟩ := Rule.read_eq_ok_iff.1 h
  obtain ⟨bodies, expanded, hexpanded, hfinal⟩ := bind_eq_ok.1 hrest
  obtain ⟨rfl, -, rfl⟩ := beginRule_eq_ok_iff.1 hentered
  have hnamed := requireAllowed_accounts options rule.name rule.span hnamed
  have hexpanded := readAlternation_accounts 0 rule.alternatives hexpanded
  -- The identity is that of the name of the rule from where it is mentioned on.
  have hname : expanded.symbols.name? (named.table.mention rule.name rule.span).1 =
      some rule.name :=
    SymbolTable.name?_of_entries hexpanded.entries SymbolTable.name?_intern
  have hcomplete := @Draft.Continues.complete expanded _ ⟨.defined rule.span, bodies⟩
    (SymbolTable.name?_eq_some_lt hname)
  rw [hname] at hcomplete
  cases hfinal
  refine (hnamed.trans (.of_entries ?_)).trans (hexpanded.trans hcomplete)
  exact named.symbols.entries_prefix_intern rule.name rule.span

/-- **Reading rules reports them**, in order. -/
theorem readRules_accounts (rules : List Rule) : Accounts (readRules options rules) := by
  induction rules with
  | nil => exact .pure ()
  | cons rule rules ih => exact rule.read_accounts.bind fun _ => ih

end Tree

/-! ## Completing a draft -/

/-- **What is reported of a grammar** as a whole: warnings, and a summary. -/
def Grammar.remarks (g : Grammar) (options : ParseOptions) : List Event :=
  (if options.leftRecursion = .warn then
    g.leftRecursive.map fun id => .leftRecursive (g.name id) else []) ++
  ((g.unreachable.map fun id => .unreachable (g.name id) (g.name g.root)) ++
    [.grammarRead g.size (g.rules.toList.countP Rule.isHelper) (g.name g.root)])

theorem Grammar.filter_remarks (g : Grammar) (options : ParseOptions) :
    ((g.remarks options).filter fun event => event.level = .trace) = [] := by
  rw [remarks, List.filter_append, List.filter_append, List.filter_map, List.append_eq_nil_iff]
  refine ⟨?_, by simp [Function.comp_def, Event.level]⟩
  split
  · simp [List.filter_map, Function.comp_def, Event.level]
  · rfl

namespace Drafting

variable {options : ParseOptions} {g : Grammar} {d d' : Draft}

/-- Reports about a list are in its order. -/
theorem events_forM_report {α : Type} {items : List α} {event : α → Event}
    (h : (items.forM fun item => report (event item)) d = .ok () d') :
    d'.events.toList = d.events.toList ++ items.map event := by
  induction items generalizing d with
  | nil =>
    cases h
    exact (List.append_nil _).symm
  | cons item items ih =>
    obtain ⟨_, middle, hmiddle, hfinal⟩ := bind_eq_ok.1 h
    cases hmiddle
    rw [ih hfinal, Array.toList_push, List.append_assoc, List.map_cons]
    rfl

/-- Left recursion is reported only where it is a matter of warning. -/
theorem events_checkLeftRecursion (h : checkLeftRecursion options g d = .ok () d') :
    d'.events.toList = d.events.toList ++ if options.leftRecursion = .warn then
      g.leftRecursive.map fun id => .leftRecursive (g.name id) else [] := by
  rw [checkLeftRecursion] at h
  cases hoption : options.leftRecursion with
  | warn =>
    rw [hoption] at h
    rw [if_pos rfl]
    exact events_forM_report h
  | allow =>
    rw [hoption] at h
    cases h
    exact (List.append_nil _).symm
  | reject =>
    rw [hoption] at h
    cases hids : g.leftRecursive with
    | nil =>
      rw [hids] at h
      cases h
      exact (List.append_nil _).symm
    | cons id ids =>
      rw [hids] at h
      cases h

/-- **What is reported when a draft becomes a grammar.** -/
theorem events_complete {stop : Nat} (h : complete options stop d = .ok g d') :
    d'.events.toList = d.events.toList ++ g.remarks options := by
  obtain ⟨_, _, hget, hrest⟩ := bind_eq_ok.1 h
  obtain ⟨rfl, rfl⟩ := get_eq_ok.1 hget
  cases hgrammar : d.grammar options stop with
  | error e => simp [hgrammar] at hrest
  | ok found =>
    rw [hgrammar] at hrest
    obtain ⟨_, checked, hchecked, hrest⟩ := bind_eq_ok.1 hrest
    obtain ⟨_, reached, hreached, hrest⟩ := bind_eq_ok.1 hrest
    obtain ⟨_, final, hfinal, hrest⟩ := bind_eq_ok.1 hrest
    obtain ⟨rfl, rfl⟩ := pure_eq_ok.1 hrest
    cases hfinal
    rw [Array.toList_push, events_forM_report hreached, events_checkLeftRecursion hchecked,
      List.append_assoc, List.append_assoc]
    rfl

end Drafting

/-! ## No rule is complete twice -/

namespace Tree

variable {mentioned done : List String} {t u : Table} {mentions : List (String × Span)}

/-- An entry is found by its identity, if no identity has two. -/
theorem mem_iff_lookup {entries : List (RuleId × Bnf.Rule)} (h : (entries.map Prod.fst).Nodup)
    {entry : RuleId × Bnf.Rule} : entry ∈ entries ↔ entries.lookup entry.1 = some entry.2 := by
  induction entries with
  | nil => simp
  | cons first entries ih =>
    rw [List.map_cons, List.nodup_cons] at h
    obtain ⟨id, rule⟩ := entry
    by_cases hid : id = first.1
    · have hnot : (id, rule) ∉ entries := fun hmem => h.1 (hid ▸ List.mem_map_of_mem hmem)
      rw [List.mem_cons, or_iff_left hnot, Prod.ext_iff, List.lookup_cons, beq_iff_eq.2 hid]
      simp [hid, eq_comm]
    · have hne : (id, rule) ≠ first := fun hsame => hid (congrArg Prod.fst hsame)
      rw [List.mem_cons, or_iff_right hne, ih h.2, List.lookup_cons, beq_eq_false_iff_ne.2 hid]

theorem not_mem_keys_of_rule? {id : Nat} (h : t.rule? id = none) : id ∉ t.rules.map Prod.fst := by
  intro hmem
  obtain ⟨entry, hentry, rfl⟩ := List.mem_map.1 hmem
  simpa using List.lookup_eq_none_iff.1 h entry hentry

theorem Table.Grows.nodup_keys (h : t.Grows mentions u)
    (hmentioned : ∀ mention ∈ mentions, mention.1 ∈ mentioned) (hsound : t.Sound mentioned done)
    (hnodup : (t.rules.map Prod.fst).Nodup) : (u.rules.map Prod.fst).Nodup := by
  induction h with
  | refl => exact hnodup
  | mention _ ih => exact ih (List.forall_mem_append.1 hmentioned).1
  | @helpers u mentions kind owner span count alternatives hgrows ih =>
    obtain ⟨husound, -⟩ := hgrows.sound hmentioned hsound
    have hkeys : (u.addHelpers kind owner span count alternatives).rules.map Prod.fst =
        (List.range' u.symbols.size count).reverse ++ u.rules.map Prod.fst := by
      simp [addHelpers, Function.comp_def]
    rw [hkeys, List.nodup_append]
    refine ⟨List.nodup_reverse.2 List.nodup_range', ih hmentioned, ?_⟩
    -- Identities from the size of the table on have no rule before.
    rintro id hnew _ hold rfl
    rw [List.mem_reverse, List.mem_range'_1] at hnew
    exact not_mem_keys_of_rule? (husound.bounded hnew.1) hold

theorem Rule.nodup_keys_expand {rule : Rule} (hsound : t.Sound mentioned done)
    (hmentioned : ∀ mention ∈ rule.mentions, mention.1 ∈ mentioned) (hnew : rule.name ∉ done)
    (hnodup : (t.rules.map Prod.fst).Nodup) : ((rule.expand t).2.rules.map Prod.fst).Nodup := by
  obtain ⟨-, hexpanded, -, hname⟩ := Rule.expanded_sound hsound hmentioned
  have hname' := hmentioned (rule.name, rule.span) (by simp [Rule.mentions])
  have hnone : (rule.expanded t).rule? (t.mention rule.name rule.span).1 = none := by
    rw [← Option.not_isSome_iff_eq_none, hexpanded.isSome_rule?_iff hname]
    exact fun hdone => hnew (hdone hname')
  rw [Rule.expand_eq_define]
  exact List.nodup_cons.2 ⟨not_mem_keys_of_rule? hnone,
    (rule.expanded_grows t).nodup_keys hmentioned hsound hnodup⟩

/-- **No identity gets two rules**, so each rule is reported once. -/
theorem nodup_keys_expandRules {rules : List Rule} (hsound : t.Sound mentioned done)
    (hmentioned : ∀ name ∈ names rules, name ∈ mentioned)
    (hdistinct : (rules.map (·.name)).Nodup) (hnew : ∀ rule ∈ rules, rule.name ∉ done)
    (hnodup : (t.rules.map Prod.fst).Nodup) :
    ((expandRules rules t).2.rules.map Prod.fst).Nodup := by
  induction rules generalizing t done with
  | nil => exact hnodup
  | cons rule rules ih =>
    have hothers := forall_not_mem_cons hdistinct hnew
    rw [forall_mem_names_cons] at hmentioned
    rw [List.forall_mem_cons] at hnew
    rw [List.map_cons, List.nodup_cons] at hdistinct
    exact ih (Rule.expand_sound hsound hmentioned.1 hnew.1).1 hmentioned.2 hdistinct.2 hothers
      (Rule.nodup_keys_expand hsound hmentioned.1 hnew.1 hnodup)

/-- **No rule is complete twice.** -/
theorem nodup_keys_table {rules : List Rule} (hdistinct : (rules.map (·.name)).Nodup) :
    ((table rules).rules.map Prod.fst).Nodup :=
  nodup_keys_expandRules (start_sound rules) (fun _ hname => hname) hdistinct (by simp)
    List.nodup_nil

/-- **The entries of a table are those of its grammar**, each once. -/
theorem perm_rules_asTable {options : ParseOptions} {rules : List Rule}
    (hdistinct : (rules.map (·.name)).Nodup)
    (hdefined : ∀ name ∈ names rules, name ∈ rules.map (·.name)) :
    (table rules).rules.Perm (compile options rules).asTable.rules := by
  have hkeys : ((compile options rules).asTable.rules.map Prod.fst).Nodup := by
    have hzip : (compile options rules).asTable.rules.map Prod.fst =
        ((compile options rules).rules.toList.zipIdx).map Prod.snd := by
      simp [Grammar.asTable, Function.comp_def]
    rw [hzip, List.zipIdx_map_snd]
    exact List.nodup_range'
  have htable := nodup_keys_table hdistinct
  refine (List.perm_ext_iff_of_nodup htable.of_map hkeys.of_map).2 fun entry => ?_
  rw [mem_iff_lookup htable, mem_iff_lookup hkeys]
  have hrule := (compile options rules).rule?_asTable entry.1
  rw [(rule?_compile hdistinct hdefined).2] at hrule
  exact iff_of_eq (congrArg (· = some entry.2) hrule.symm)

end Tree

/-! ## Reports of the least weight -/

theorem Rule.level_completed (rule : Rule) (name : String) :
    (rule.completed name).level = if rule.isHelper then .debug else .trace := by
  obtain ⟨origin, alternatives⟩ := rule
  cases origin <;> rfl

namespace Tree

variable {t : Table} {owner : String}

/-- Helpers are reported at another level than rules of the text. -/
theorem filter_reports_helpers {constructs : List Construct} {helpers : List (RuleId × Bnf.Rule)}
    (h : List.Forall₂ (Construct.Answered t owner) constructs helpers) :
    ((t.symbols.reports helpers).filter fun event => event.level = .trace) = [] := by
  induction h with
  | nil => rfl
  | @cons _ entry _ _ hanswered _ ih =>
    have hhelper : entry.2.isHelper = true := by rw [Rule.isHelper, hanswered.origin]
    rw [SymbolTable.reports, List.map_cons, List.filter_cons_of_neg]
    · exact ih
    · rw [Rule.level_completed, hhelper]
      decide

/-- **Of a block only the rule itself is reported with the least weight.** -/
theorem Rule.Block.filter_reports {rule : Rule} {block : List (RuleId × Bnf.Rule)}
    (h : rule.Block t block) :
    ((t.symbols.reports block).filter fun event => event.level = .trace) =
      [.ruleRead rule.name rule.alternatives.length] := by
  obtain ⟨helpers, id, bodies, rfl, hname, hlength, hhelpers⟩ := h
  have hlast : t.symbols.reports [(id, ⟨.defined rule.span, bodies⟩)] =
      [.ruleRead rule.name rule.alternatives.length] := by
    simp only [SymbolTable.reports, List.map_cons, List.map_nil, hname, ← hlength]
    rfl
  have hsplit : t.symbols.reports (helpers ++ [(id, ⟨.defined rule.span, bodies⟩)]) =
      t.symbols.reports helpers ++ [.ruleRead rule.name rule.alternatives.length] := by
    rw [← hlast]
    exact List.map_append
  rw [hsplit, List.filter_append, filter_reports_helpers hhelpers]
  rfl

/-- So at the level of rules there is one report for each rule of the text. -/
theorem filter_reports_flatten {rules : List Rule} {blocks : List (List (RuleId × Bnf.Rule))}
    (h : List.Forall₂ (Rule.Block t) rules blocks) :
    ((t.symbols.reports blocks.flatten).filter fun event => event.level = .trace) =
      rules.map fun rule => .ruleRead rule.name rule.alternatives.length := by
  induction h with
  | nil => rfl
  | @cons rule block _ blocks hblock _ ih =>
    have hsplit : t.symbols.reports (block :: blocks).flatten =
        t.symbols.reports block ++ t.symbols.reports blocks.flatten :=
      List.map_append
    rw [hsplit, List.filter_append, hblock.filter_reports, ih]
    rfl

end Tree

/-! ## All that is reported of a text -/

namespace Grammar

variable {source : String} {options : ParseOptions} {g : Grammar}

/-- What is reported of a text is what the reading of its rules reports, and what is reported when
    the draft becomes a grammar. -/
theorem exists_events_of_parse {tokens : List Token} {rules : List Tree.Rule}
    (h : parse source options = .ok g) (htokens : tokenize source = .ok tokens)
    (hspells : Tree.Spells rules tokens) :
    ∃ d d', Tree.readRules options rules (.ofSymbols (Tree.start rules).symbols) = .ok () d ∧
      Drafting.complete options (byteLength source.toList) d = .ok g d' ∧
      (read source options).events = d'.events := by
  have hread : (read source options).result = .ok g := h
  rw [read, htokens] at hread ⊢
  cases hdraft : Drafting.ofTokens options (byteLength source.toList) tokens
      (.ofSymbols (.ofTokens tokens)) with
  | error e final => simp [hdraft] at hread
  | ok found final =>
    simp only [hdraft, Except.ok.injEq] at hread
    subst hread
    obtain ⟨_, d, hrun, hcomplete⟩ := bind_eq_ok.1 hdraft
    rw [hspells.run_eq] at hrun
    exact ⟨d, final, hrun, hcomplete, by simp only [hdraft]⟩

/-- **The reports account for the rules.** The reports on a text that has a grammar are, in order:

    - for each rule of the text a block, in which the helpers of its parts are reported with their
      kinds and names, and then the rule with the number of its alternatives; the blocks hold each
      rule of the grammar once,
    - where left recursion is to be warned of, the left recursive rules,
    - the rules that are never reached,
    - and a summary with the counts of the grammar and its root.

    The reports of the least weight are those of the rules of the text. -/
theorem reports_account_for_rules (h : parse source options = .ok g) :
    ∃ tokens, tokenize source = .ok tokens ∧ (∃ rules, Tree.Spells rules tokens) ∧
      ∀ rules, Tree.Spells rules tokens →
        ∃ blocks : List (List (RuleId × Rule)),
          List.Forall₂ (Tree.Rule.Block g.asTable) rules blocks ∧
          blocks.flatten.Perm g.asTable.rules ∧
          (read source options).events.toList =
            (blocks.flatten.map fun (id, rule) => rule.completed (g.name id)) ++
            ((if options.leftRecursion = .warn then
                g.leftRecursive.map fun id => .leftRecursive (g.name id) else []) ++
              ((g.unreachable.map fun id => .unreachable (g.name id) (g.name g.root)) ++
                [.grammarRead g.size (g.rules.toList.countP Rule.isHelper) (g.name g.root)])) ∧
          ((read source options).events.toList.filter fun event => event.level = .trace) =
            rules.map fun rule => .ruleRead rule.name rule.alternatives.length := by
  obtain ⟨tokens, htokens, hspells⟩ := Tree.exists_spells_of_parse h
  refine ⟨tokens, htokens, hspells, fun rules hrules => ?_⟩
  obtain ⟨d, d', hread, hcomplete, hevents⟩ := exists_events_of_parse h htokens hrules
  obtain ⟨-, hdistinct, hdefined, -, -, rfl⟩ := (Tree.parse_eq_ok_iff htokens hrules).1 h
  obtain ⟨-, blocks, hblocks, hforall⟩ := Tree.expandRules_blocks rules (Tree.start rules)
  obtain ⟨-, -, -, htable, -⟩ :=
    Tree.of_readRules (Tree.start_sound rules) (fun _ hname => hname) hread
  have haccounted :=
    (Tree.readRules_accounts rules hread).accounted ⟨by simp [Draft.ofSymbols], rfl⟩
  have hsymbols : d.symbols = (Tree.table rules).symbols := congrArg Tree.Table.symbols htable
  have hdefinitions : d.definitions.reverse = blocks.flatten := by
    have hrules : d.definitions = blocks.flatten.reverse ++ [] :=
      (congrArg Tree.Table.rules htable).trans hblocks
    rw [hrules, List.append_nil, List.reverse_reverse]
  have hfirst := haccounted.events
  rw [hdefinitions, hsymbols] at hfirst
  rw [hevents, events_complete hcomplete, hfirst]
  refine ⟨blocks, hforall.imp fun _ _ hblock => hblock.mono List.prefix_rfl, ?_, rfl, ?_⟩
  · refine .trans ?_ (Tree.perm_rules_asTable hdistinct hdefined)
    rw [← hdefinitions]
    have hrules : d.definitions = (Tree.table rules).rules := congrArg Tree.Table.rules htable
    rw [hrules]
    exact List.reverse_perm _
  · rw [List.filter_append, Grammar.filter_remarks, List.append_nil]
    exact Tree.filter_reports_flatten hforall

/-- Reports on nested helpers, on a rule that is left recursive and on rules that are never
    reached. -/
theorem reports_account_for_nested_helpers :
    ∃ g tokens rules blocks,
      parse "root ::= (\"a\"? | root \"b\")\nother ::= \"c\"{1,2}\n"
        { leftRecursion := .warn } = .ok g ∧
      tokenize "root ::= (\"a\"? | root \"b\")\nother ::= \"c\"{1,2}\n" = .ok tokens ∧
      Tree.Spells rules tokens ∧ List.Forall₂ (Tree.Rule.Block g.asTable) rules blocks ∧
      blocks.flatten.Perm g.asTable.rules ∧
      (read "root ::= (\"a\"? | root \"b\")\nother ::= \"c\"{1,2}\n"
        { leftRecursion := .warn }).events.toList =
        [.helperMade .optional "_root_1", .helperMade .group "_root_2", .ruleRead "root" 1,
          .helperMade .optional "_other_4", .ruleRead "other" 1,
          .leftRecursive "root", .unreachable "other" "root", .unreachable "_other_4" "root",
          .grammarRead 5 3 "root"] := by
  obtain ⟨g, hparse⟩ : ∃ g, parse "root ::= (\"a\"? | root \"b\")\nother ::= \"c\"{1,2}\n"
      { leftRecursion := .warn } = .ok g := exists_parse_of_isOk (by decide +kernel)
  obtain ⟨tokens, htokens, ⟨rules, hrules⟩, haccounts⟩ := reports_account_for_rules hparse
  obtain ⟨blocks, hblocks, hperm, -⟩ := haccounts rules hrules
  exact ⟨g, tokens, rules, blocks, hparse, htokens, hrules, hblocks, hperm, by decide +kernel⟩

end Grammar

end Bnf
