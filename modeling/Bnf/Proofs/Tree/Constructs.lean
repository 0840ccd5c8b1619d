import Bnf.Proofs.SymbolTable.Operations
import Bnf.Proofs.Tree.Growth

/-!
# What helpers are made for

A helper is made for a part of a rule: a group with several alternatives, or an atom with the
operator behind it. The parts of a rule that need helpers can be told from its tree. Its expansion
makes one helper for each of them, in order, under the name of the rule, and then completes the rule
itself. So the table of a text falls into blocks, one for each rule of the text.

## Main definitions

- `Tree.Construct` — a part of a rule that needs a helper
- `Tree.Rule.constructs` — all of them in a rule
- `Tree.Table.Makes` — a run of mentions, and of new helpers for parts of a rule
- `Tree.Construct.Answered` — an entry of a table is the helper of such a part
- `Tree.Rule.Block` — the entries of a table that a rule of the text stands for

## Main results

- `Tree.Atom.expand_makes` — an expansion makes the helpers of its parts
- `Tree.Table.Makes.exists_made` — what they are
- `Tree.expandRules_blocks` — the table of some rules consists of their blocks
-/

namespace Bnf

namespace SymbolTable

variable {t : SymbolTable} {owner name : String} {span : Span}

/-- A mention changes no entry. -/
theorem entries_prefix_intern (t : SymbolTable) (name : String) (span : Span) :
    t.entries.toList <+: (t.intern name span).2.entries.toList :=
  Operation.entries_prefix t (.intern name span)

theorem name?_intern : (t.intern name span).2.name? (t.intern name span).1 = some name := by
  rw [intern]
  split
  · next hfound => exact name?_of_find? hfound
  · rw [push_fst, name?, getElem?_entries_push, Option.map_some]

/-- A name that was there stays where it is. -/
theorem name?_of_entries {t u : SymbolTable} {id : Nat} {name : String}
    (h : t.entries.toList <+: u.entries.toList) (hname : t.name? id = some name) :
    u.name? id = some name := by
  obtain ⟨added, hadded⟩ := h
  rw [name?, ← Array.getElem?_toList] at hname ⊢
  obtain ⟨entry, hentry, rfl⟩ := Option.map_eq_some_iff.1 hname
  rw [← hadded, List.getElem?_append_left (List.getElem?_eq_some_iff.1 hentry).1, hentry]
  rfl

/-- The entries of new helpers stand behind all others. -/
theorem exists_entries_generateMany (t : SymbolTable) (owner : String) (span : Span) (count : Nat) :
    ∃ made : List SymbolEntry,
      (t.generateMany owner span count).entries.toList = t.entries.toList ++ made ∧
      made.length = count ∧ ∀ entry ∈ made, ∃ n, entry = ⟨helperName owner n, span⟩ := by
  induction count generalizing t with
  | zero => exact ⟨[], by simp [generateMany]⟩
  | succ count ih =>
    obtain ⟨made, hentries, hlength, hmade⟩ := ih (t.generate owner span).2
    refine ⟨⟨t.newName owner, span⟩ :: made, ?_, by simp [hlength], ?_⟩
    · rw [generateMany, hentries, generate_eq_push, entries_push, List.append_assoc]
      rfl
    · exact List.forall_mem_cons.2 ⟨⟨_, rfl⟩, hmade⟩

/-- Each of several helpers has the name of their owner in its own, and their place. -/
theorem exists_entry_generateMany {count i : Nat} (hi : i < count) :
    ∃ n, (t.generateMany owner span count).entries[t.size + i]? =
      some ⟨helperName owner n, span⟩ := by
  obtain ⟨made, hentries, hlength, hmade⟩ := t.exists_entries_generateMany owner span count
  have hi : i < made.length := by omega
  obtain ⟨n, hn⟩ := hmade made[i] (List.getElem_mem hi)
  refine ⟨n, ?_⟩
  have hsize : t.entries.toList.length = t.size := Array.length_toList
  rw [← Array.getElem?_toList, hentries, List.getElem?_append_right (by omega), hsize,
    Nat.add_sub_cancel_left, List.getElem?_eq_getElem hi, hn]

end SymbolTable

namespace Tree

/-! ## Parts that need helpers -/

/-- A part of a rule that needs a helper: what kind of helper, and the span of the part. -/
structure Construct where
  kind : HelperKind
  span : Span
deriving DecidableEq

/-- The helpers of a repetition. -/
def repetitionConstructs (bounds : Bounds) (span : Span) : List Construct :=
  match bounds.max with
  | none => [⟨.repetition, span⟩]
  | some max => List.replicate (max - bounds.min) ⟨.optional, span⟩

/-- The helper of a group with `count` alternatives. -/
def groupConstructs (count : Nat) (span : Span) : List Construct :=
  if count = 1 then [] else [⟨.group, span⟩]

mutual

/-- The parts of an atom that need helpers, inner ones first. -/
def Atom.constructs : Atom → List Construct
  | .literal .. | .set .. | .any .. | .name .. => []
  | .group opening alternatives closing =>
    alternationConstructs alternatives ++
      groupConstructs alternatives.length (opening.join closing)
termination_by structural atom => atom

/-- The parts of a term that need helpers: those of its atom, and the term itself if there is an
    operator. -/
def Term.constructs : Term → List Construct
  | .mk atom none => atom.constructs
  | .mk atom (some operator) =>
    atom.constructs ++ repetitionConstructs operator.bounds (atom.span.join operator.span)
termination_by structural term => term

/-- The parts of a sequence that need helpers. -/
def sequenceConstructs : List Term → List Construct
  | [] => []
  | term :: terms => term.constructs ++ sequenceConstructs terms
termination_by structural terms => terms

/-- The parts of some alternatives that need helpers. -/
def alternationConstructs : List (List Term) → List Construct
  | [] => []
  | terms :: alternatives => sequenceConstructs terms ++ alternationConstructs alternatives
termination_by structural alternatives => alternatives

end

/-- **The parts of a rule that need helpers**, in the order in which they end in the text. -/
def Rule.constructs (rule : Rule) : List Construct :=
  alternationConstructs rule.alternatives

/-! ## Making helpers -/

/-- A table grows by mentions of names, and by helpers for parts of the rule `owner`, which are
    listed. -/
inductive Table.Makes (owner : String) : Table → List Construct → Table → Prop
  | refl {t : Table} : Makes owner t [] t
  | mention {t u : Table} {constructs : List Construct} {name : String} {span : Span} :
      Makes owner t constructs u → Makes owner t constructs (u.mention name span).2
  | helpers {t u : Table} {constructs : List Construct} {kind : HelperKind} {span : Span}
      {count : Nat} {alternatives : RuleId → List Body} :
      Makes owner t constructs u →
      Makes owner t (constructs ++ List.replicate count ⟨kind, span⟩)
        (u.addHelpers kind owner span count alternatives)

variable {t u v : Table} {owner name : String} {constructs others : List Construct}

/-- What is made in two steps is made for the constructs of both. -/
theorem Table.Makes.trans (h : t.Makes owner constructs u) (h' : u.Makes owner others v) :
    t.Makes owner (constructs ++ others) v := by
  induction h' with
  | refl => simpa using h
  | mention _ ih => exact .mention ih
  | helpers _ ih =>
    rw [← List.append_assoc]
    exact .helpers ih

open Expanding

/-- A repetition is one construct, or none if copies are enough. -/
theorem repetition_makes (owner : String) (span : Span) (body : Body) (bounds : Bounds)
    (t : Table) : t.Makes owner (repetitionConstructs bounds span)
      (repetition owner span body bounds t).2 := by
  obtain ⟨min, max⟩ := bounds
  cases max with
  | none => exact @Table.Makes.helpers owner t t [] .repetition span 1 _ .refl
  | some max => exact @Table.Makes.helpers owner t t [] .optional span (max - min) _ .refl

/-- So is a group, of which one alternative needs none. -/
theorem group_makes (owner : String) (span : Span) (bodies : List Body) (t : Table) :
    t.Makes owner (groupConstructs bodies.length span) (group owner span bodies t).2 := by
  match bodies with
  | [_] => exact .refl
  | [] | _ :: _ :: _ => exact @Table.Makes.helpers owner t t [] .group span 1 _ .refl

theorem length_expandAlternation (owner : String) (alternatives : List (List Term)) (t : Table) :
    (expandAlternation owner alternatives t).1.length = alternatives.length := by
  induction alternatives generalizing t with
  | nil => rfl
  | cons terms alternatives ih => exact congrArg (· + 1) (ih (expandSequence owner terms t).2)

mutual

/-- **An expansion makes the helpers of its parts**, in order. -/
theorem Atom.expand_makes (owner : String) :
    (atom : Atom) → (t : Table) → t.Makes owner atom.constructs (atom.expand owner t).2
  | .literal .., _ | .set .., _ | .any _, _ => .refl
  | .name _ _, _ => .mention .refl
  | .group opening alternatives closing, t => by
    have hgroup := group_makes owner (opening.join closing)
      (expandAlternation owner alternatives t).1 (expandAlternation owner alternatives t).2
    rw [length_expandAlternation] at hgroup
    exact (expandAlternation_makes owner alternatives t).trans hgroup
termination_by structural atom => atom

/-- The helpers of an atom are made before those of what repeats it. -/
theorem Term.expand_makes (owner : String) :
    (term : Term) → (t : Table) → t.Makes owner term.constructs (term.expand owner t).2
  | .mk atom none, t => atom.expand_makes owner t
  | .mk atom (some operator), t =>
    (atom.expand_makes owner t).trans
      (repetition_makes owner (atom.span.join operator.span) _ operator.bounds _)
termination_by structural term => term

theorem expandSequence_makes (owner : String) :
    (terms : List Term) → (t : Table) →
      t.Makes owner (sequenceConstructs terms) (expandSequence owner terms t).2
  | [], _ => .refl
  | term :: terms, t => (term.expand_makes owner t).trans (expandSequence_makes owner terms _)
termination_by structural terms => terms

theorem expandAlternation_makes (owner : String) :
    (alternatives : List (List Term)) → (t : Table) →
      t.Makes owner (alternationConstructs alternatives) (expandAlternation owner alternatives t).2
  | [], _ => .refl
  | terms :: alternatives, t =>
    (expandSequence_makes owner terms t).trans (expandAlternation_makes owner alternatives _)
termination_by structural alternatives => alternatives

end

/-! ## What has been made -/

/-- **An entry of a table is the helper of a part** of the rule `owner`: it is of the kind that the
    part needs, and its name is mentioned where the part is. -/
structure Construct.Answered (t : Table) (owner : String) (construct : Construct)
    (entry : RuleId × Bnf.Rule) : Prop where
  origin : entry.2.origin = .helper construct.kind
  named : ∃ n, t.symbols.entries[entry.1]? = some ⟨helperName owner n, construct.span⟩

/-- What answers a construct does so while names are added. -/
theorem Construct.Answered.mono {construct : Construct} {entry : RuleId × Bnf.Rule}
    (h : construct.Answered t owner entry)
    (hentries : t.symbols.entries.toList <+: u.symbols.entries.toList) :
    construct.Answered u owner entry := by
  obtain ⟨n, hn⟩ := h.named
  obtain ⟨added, hadded⟩ := hentries
  rw [← Array.getElem?_toList] at hn
  refine ⟨h.origin, n, ?_⟩
  rw [← Array.getElem?_toList, ← hadded,
    List.getElem?_append_left (List.getElem?_eq_some_iff.1 hn).1, hn]

theorem Table.entries_prefix_addHelpers {kind : HelperKind} {span : Span} {count : Nat}
    {alternatives : RuleId → List Body} : t.symbols.entries.toList <+:
      (t.addHelpers kind owner span count alternatives).symbols.entries.toList := by
  obtain ⟨made, hentries, -⟩ := t.symbols.exists_entries_generateMany owner span count
  exact ⟨made, hentries.symm⟩

/-- Helpers that are added answer for as many parts of one kind and span. -/
theorem Table.forall₂_addHelpers {kind : HelperKind} {span : Span} {count : Nat}
    {alternatives : RuleId → List Body} :
    List.Forall₂ (Construct.Answered (t.addHelpers kind owner span count alternatives) owner)
      (List.replicate count ⟨kind, span⟩)
      ((List.range' t.symbols.size count).map fun id =>
        (id, ⟨.helper kind, alternatives id⟩)) := by
  rw [List.forall₂_iff_get]
  refine ⟨by simp, fun i hi _ => ?_⟩
  have hi : i < count := by simpa using hi
  simp only [List.get_eq_getElem, List.getElem_replicate, List.getElem_map, List.getElem_range',
    Nat.one_mul]
  exact ⟨rfl, SymbolTable.exists_entry_generateMany hi⟩

/-- **What has been made**: one entry for each part, all behind those that were there. -/
theorem Table.Makes.exists_made (h : t.Makes owner constructs u) :
    t.symbols.entries.toList <+: u.symbols.entries.toList ∧
    ∃ made : List (RuleId × Bnf.Rule), u.rules = made.reverse ++ t.rules ∧
      List.Forall₂ (Construct.Answered u owner) constructs made := by
  induction h with
  | refl => exact ⟨List.prefix_rfl, [], rfl, .nil⟩
  | @mention u constructs name span _ ih =>
    obtain ⟨hentries, made, hrules, hmade⟩ := ih
    have hmore := u.symbols.entries_prefix_intern name span
    exact ⟨hentries.trans hmore, made, hrules, hmade.imp fun _ _ hanswered => hanswered.mono hmore⟩
  | @helpers u constructs kind span count alternatives _ ih =>
    obtain ⟨hentries, made, hrules, hmade⟩ := ih
    have hmore := @entries_prefix_addHelpers u owner kind span count alternatives
    refine ⟨hentries.trans hmore, made ++ (List.range' u.symbols.size count).map fun id =>
      (id, ⟨.helper kind, alternatives id⟩), ?_, ?_⟩
    · rw [List.reverse_append, List.append_assoc, ← hrules]
      rfl
    · exact List.rel_append (hmade.imp fun _ _ hanswered => hanswered.mono hmore)
        forall₂_addHelpers

/-! ## Blocks -/

/-- **The entries of a table that a rule of the text stands for**: the helpers of its parts, and the
    rule itself behind them. -/
def Rule.Block (t : Table) (rule : Rule) (block : List (RuleId × Bnf.Rule)) : Prop :=
  ∃ helpers id bodies, block = helpers ++ [(id, ⟨.defined rule.span, bodies⟩)] ∧
    t.symbols.name? id = some rule.name ∧ bodies.length = rule.alternatives.length ∧
    List.Forall₂ (Construct.Answered t rule.name) rule.constructs helpers

/-- So do the helpers of a rule. -/
theorem Rule.Block.mono {rule : Rule} {block : List (RuleId × Bnf.Rule)} (h : rule.Block t block)
    (hentries : t.symbols.entries.toList <+: u.symbols.entries.toList) : rule.Block u block := by
  obtain ⟨helpers, id, bodies, hblock, hname, hlength, hhelpers⟩ := h
  exact ⟨helpers, id, bodies, hblock, SymbolTable.name?_of_entries hentries hname, hlength,
    hhelpers.imp fun _ _ hanswered => hanswered.mono hentries⟩

/-- **Expanding a rule adds its block.** -/
theorem Rule.expand_block (rule : Rule) (t : Table) :
    t.symbols.entries.toList <+: (rule.expand t).2.symbols.entries.toList ∧
    ∃ block, (rule.expand t).2.rules = block.reverse ++ t.rules ∧
      rule.Block (rule.expand t).2 block := by
  obtain ⟨hentries, helpers, hrules, hhelpers⟩ :=
    (expandAlternation_makes rule.name rule.alternatives (rule.entered t)).exists_made
  have hentered := t.symbols.entries_prefix_intern rule.name rule.span
  rw [Rule.expand_eq_define]
  refine ⟨hentered.trans hentries, helpers ++ [((t.mention rule.name rule.span).1,
    ⟨.defined rule.span, (expandAlternation rule.name rule.alternatives (rule.entered t)).1⟩)],
    ?_, helpers, _, _, rfl, ?_, ?_,
    hhelpers.imp fun _ _ hanswered => hanswered.mono List.prefix_rfl⟩
  · rw [List.reverse_append]
    exact congrArg (_ :: ·) hrules
  · exact SymbolTable.name?_of_entries hentries SymbolTable.name?_intern
  · exact length_expandAlternation rule.name rule.alternatives (rule.entered t)

/-- **The table of some rules consists of their blocks**, the last one first. -/
theorem expandRules_blocks (rules : List Rule) (t : Table) :
    t.symbols.entries.toList <+: (expandRules rules t).2.symbols.entries.toList ∧
    ∃ blocks : List (List (RuleId × Bnf.Rule)),
      (expandRules rules t).2.rules = blocks.flatten.reverse ++ t.rules ∧
      List.Forall₂ (Rule.Block (expandRules rules t).2) rules blocks := by
  induction rules generalizing t with
  | nil => exact ⟨List.prefix_rfl, [], rfl, .nil⟩
  | cons rule rules ih =>
    obtain ⟨hentries, block, hblock, hrule⟩ := rule.expand_block t
    obtain ⟨hmore, blocks, hblocks, hrules⟩ := ih (rule.expand t).2
    refine ⟨hentries.trans hmore, block :: blocks, ?_, .cons (hrule.mono hmore) hrules⟩
    rw [List.flatten_cons, List.reverse_append, List.append_assoc, ← hblock]
    exact hblocks

end Tree

end Bnf
