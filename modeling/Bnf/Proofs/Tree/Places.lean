import Bnf.Proofs.Tree.Acceptance
import Bnf.Proofs.Tree.Renumbering

/-!
# Places do not matter

A grammar remembers where its names are first mentioned and where its rules are defined. Nothing
else in it depends on the spans of a tree: without its spans a tree is compiled to the same grammar
without these places. So texts whose tokens differ in their spans only have the same grammar, but
for places.

## Main definitions

- `SymbolTable.bare`, `Grammar.bare` — a symbol table and a grammar without places
- `Tree.Table.bare` — names and rules without places
- `Grammar.SameButPlaces` — grammars that differ in places only

## Main results

- `Tree.Rule.expand_bare`, `Tree.table_bare` — the table of rules without their spans
- `Tree.exists_parse_of_bare` — texts with the same rules but for spans
-/

namespace Bnf

/-! ## Symbol tables -/

/-- An entry without the place of its first mention. -/
def SymbolEntry.bare (entry : SymbolEntry) : SymbolEntry :=
  ⟨entry.name, .point 0⟩

namespace SymbolTable

/-- A symbol table without the places of first mentions. -/
def bare (t : SymbolTable) : SymbolTable :=
  ⟨t.entries.map SymbolEntry.bare, t.reserved⟩

@[simp] theorem size_bare (t : SymbolTable) : t.bare.size = t.size :=
  Array.size_map

@[simp] theorem names_bare (t : SymbolTable) : t.bare.names = t.names := by
  simp only [names, bare, Array.toList_map, List.map_map]
  rfl

@[simp] theorem find?_bare (t : SymbolTable) (name : String) :
    t.bare.find? name = t.find? name := by
  rw [find?, find?, bare, Array.findIdx?_map]
  rfl

@[simp] theorem isTaken_bare (t : SymbolTable) (name : String) :
    t.bare.isTaken name = t.isTaken name := by
  rw [isTaken, isTaken, find?_bare]
  rfl

/-- The search for a free number looks at names only. -/
@[simp] theorem freeNumber_bare (t : SymbolTable) (base : String) (tries n : Nat) :
    t.bare.freeNumber base tries n = t.freeNumber base tries n := by
  induction tries generalizing n with
  | zero => rfl
  | succ tries ih => rw [freeNumber, freeNumber, isTaken_bare, ih]

/-- A name that is mentioned at some place is the same name without places. -/
theorem push_bare (t : SymbolTable) (name : String) (span : Span) :
    t.bare.push name (.point 0) = ((t.push name span).1, (t.push name span).2.bare) := by
  simp only [push, bare, Array.map_push]
  simp [size, SymbolEntry.bare]

/-- So it has the same identity, known or new. -/
theorem intern_bare (t : SymbolTable) (name : String) (span : Span) :
    t.bare.intern name (.point 0) = ((t.intern name span).1, (t.intern name span).2.bare) := by
  rw [intern, intern, find?_bare]
  cases t.find? name with
  | none => exact t.push_bare name span
  | some id => rfl

/-- And so does a helper. -/
theorem generate_bare (t : SymbolTable) (base : String) (span : Span) :
    t.bare.generate base (.point 0) =
      ((t.generate base span).1, (t.generate base span).2.bare) := by
  rw [generate, generate, freeNumber_bare, size_bare]
  exact t.push_bare _ span

theorem generateMany_bare (t : SymbolTable) (owner : String) (span : Span) (count : Nat) :
    t.bare.generateMany owner (.point 0) count = (t.generateMany owner span count).bare := by
  induction count generalizing t with
  | zero => rfl
  | succ count ih => rw [generateMany, generateMany, t.generate_bare owner span, ih]

theorem reserve_bare (t : SymbolTable) (name : String) :
    t.bare.reserve name = (t.reserve name).bare := by
  rw [reserve, reserve]
  by_cases hmem : name ∈ t.reserved
  · rw [if_pos hmem, if_pos (show name ∈ t.bare.reserved from hmem)]
  · rw [if_neg hmem, if_neg (show name ∉ t.bare.reserved from hmem)]
    rfl

/-- Names that are kept free have no places. -/
theorem keeping_bare (names : List String) : (keeping names).bare = keeping names := by
  have hempty : SymbolTable.empty.bare = .empty := by
    rw [bare, empty, Array.map_empty]
  rw [keeping]
  conv_rhs => rw [← hempty]
  refine (List.foldl_hom bare fun t name => ?_).symm
  split
  · exact t.reserve_bare name
  · rfl

end SymbolTable

/-! ## Rules and grammars -/

/-- An origin without a place. -/
def Origin.bare : Origin → Origin
  | .defined _ => .defined (.point 0)
  | .helper kind => .helper kind

/-- A rule without the place of its definition. -/
def Rule.bare (rule : Rule) : Rule :=
  ⟨rule.origin.bare, rule.alternatives⟩

/-- A grammar without places. -/
def Grammar.bare (g : Grammar) : Grammar :=
  ⟨g.symbols.bare, g.rules.map Rule.bare, g.root⟩

/-- **Grammars that differ in places only**: they have the same names and the same root, and the
    rules of each identity have the same alternatives. Helpers are helpers of the same kind. -/
structure Grammar.SameButPlaces (g h : Grammar) : Prop where
  names : h.symbols.names = g.symbols.names
  root : h.root = g.root
  size : h.size = g.size
  rules : ∀ {id : Nat} {rule : Rule}, g.rule? id = some rule →
    ∃ other, h.rule? id = some other ∧ other.origin.helperKind? = rule.origin.helperKind? ∧
      other.alternatives = rule.alternatives

/-- The kind of a helper is no place. -/
theorem Origin.helperKind?_bare (o : Origin) : o.bare.helperKind? = o.helperKind? := by
  cases o <;> rfl

namespace Grammar

variable {g h : Grammar}

theorem rule?_bare (g : Grammar) (id : RuleId) : g.bare.rule? id = (g.rule? id).map Rule.bare :=
  Array.getElem?_map

/-- Grammars that are equal without places are the same but for places. -/
theorem sameButPlaces_of_bare (heq : h.bare = g.bare) : g.SameButPlaces h where
  names := by
    have hnames : h.bare.symbols.names = g.bare.symbols.names := by rw [heq]
    exact h.symbols.names_bare.symm.trans (hnames.trans g.symbols.names_bare)
  root := by
    show h.bare.root = g.bare.root
    rw [heq]
  size := by
    have hsize : h.bare.rules.size = g.bare.rules.size := by rw [heq]
    exact Array.size_map.symm.trans (hsize.trans Array.size_map)
  rules := by
    intro id rule hrule
    have hsame := h.rule?_bare id
    rw [heq, rule?_bare, hrule, Option.map_some, eq_comm, Option.map_eq_some_iff] at hsame
    obtain ⟨other, hother, hbare⟩ := hsame
    obtain ⟨horigin, halternatives⟩ := Rule.mk.inj hbare
    refine ⟨other, hother, ?_, halternatives⟩
    rw [← Origin.helperKind?_bare, horigin, Origin.helperKind?_bare]

/-- So each is found in the other, with the identities as they are. -/
theorem SameButPlaces.embeds (h' : g.SameButPlaces h) : Embeds id g h := by
  intro i rule hrule
  obtain ⟨other, hother, -, halternatives⟩ := h'.rules hrule
  refine ⟨other, hother, fun body hbody => ?_⟩
  rw [halternatives, show Symbol.rename id = id from funext fun symbol => by cases symbol <;> rfl,
    List.map_id]
  exact hbody

end Grammar

namespace Tree

/-! ## Expansions -/

namespace Table

/-- Names and rules without places. -/
def bare (t : Table) : Table :=
  ⟨t.symbols.bare, t.rules.map fun (id, rule) => (id, rule.bare)⟩

theorem rule?_bare (t : Table) (id : RuleId) :
    t.bare.rule? id = (t.rule? id).map Bnf.Rule.bare := by
  rw [rule?, rule?, bare]
  induction t.rules with
  | nil => rfl
  | cons entry rules ih =>
    obtain ⟨other, rule⟩ := entry
    rw [List.map_cons, List.lookup_cons, List.lookup_cons, ih]
    cases id == other <;> rfl

/-- Helpers have no places but those of their first mentions. -/
theorem addHelpers_bare (t : Table) (kind : HelperKind) (owner : String) (span : Span)
    (count : Nat) (alternatives : RuleId → List Body) :
    t.bare.addHelpers kind owner (.point 0) count alternatives =
      (t.addHelpers kind owner span count alternatives).bare := by
  simp only [addHelpers, bare, SymbolTable.size_bare, t.symbols.generateMany_bare owner span,
    List.map_append, List.map_reverse, List.map_map]
  rfl

end Table

namespace Expanding

variable {α β : Type} {m m' : Expanding α} {f f' : α → Expanding β}

/-- **The second of two computations does without places what the first does**: it gives the same,
    and makes the same table, but for places. -/
def Blind (m m' : Expanding α) : Prop :=
  ∀ t, m' t.bare = ((m t).1, (m t).2.bare)

/-- To give something takes no note of places. -/
theorem Blind.pure (a : α) : Blind (pure a) (pure a) := by
  intro t
  rfl

/-- Two parts that take no note of places do not do so one after the other. -/
theorem Blind.bind (h : Blind m m') (hf : ∀ a, Blind (f a) (f' a)) :
    Blind (m >>= f) (m' >>= f') := by
  intro t
  show f' (m' t.bare).1 (m' t.bare).2 = _
  rw [h t]
  exact hf (m t).1 (m t).2

/-- A name has the same identity wherever it is mentioned. -/
theorem mention_blind (name : String) (span : Span) :
    Blind (mention name span) (mention name (.point 0)) := by
  intro t
  show t.bare.mention name (.point 0) = ((t.mention name span).1, (t.mention name span).2.bare)
  rw [Table.mention, Table.mention, Table.bare, t.symbols.intern_bare name span]
  rfl

/-- A rule has the same alternatives wherever it is defined. -/
theorem define_blind (id : RuleId) (rule : Bnf.Rule) :
    Blind (define id rule) (define id rule.bare) := by
  intro t
  rfl

theorem helpers_blind (kind : HelperKind) (owner : String) (span : Span) (count : Nat)
    (alternatives : (first id : RuleId) → List Body) :
    Blind (helpers kind owner span count alternatives)
      (helpers kind owner (.point 0) count alternatives) := by
  intro t
  show (t.bare.symbols.size, t.bare.addHelpers kind owner (.point 0) count
    (alternatives t.bare.symbols.size)) = _
  rw [Table.addHelpers_bare t kind owner span, Table.bare, SymbolTable.size_bare]
  rfl

/-- What repeats a term depends on its symbols and its bounds, not on where it is. -/
theorem repetition_blind (owner : String) (span : Span) (body : Body) (bounds : Bounds) :
    Blind (repetition owner span body bounds) (repetition owner (.point 0) body bounds) := by
  rw [repetition, repetition]
  cases bounds.max with
  | none => exact (helpers_blind _ _ _ _ _).bind fun _ => .pure _
  | some max => exact (helpers_blind _ _ _ _ _).bind fun _ => .pure _

/-- The same for a group. -/
theorem group_blind (owner : String) (span : Span) (alternatives : List Body) :
    Blind (group owner span alternatives) (group owner (.point 0) alternatives) := by
  match alternatives with
  | [body] => exact .pure body
  | [] | _ :: _ :: _ => exact (helpers_blind _ _ _ _ _).bind fun _ => .pure _

end Expanding

open Expanding

theorem Atom.span_bare (atom : Atom) : atom.bare.span = .point 0 := by
  cases atom <;> rfl

mutual

/-- **Without its spans an atom is expanded to the same symbols.** -/
theorem Atom.expand_bare (owner : String) :
    (atom : Atom) → Blind (atom.expand owner) (atom.bare.expand owner)
  | .literal .. | .set .. | .any _ => .pure _
  | .name text span => (mention_blind text span).bind fun _ => .pure _
  | .group _ alternatives _ =>
    (expandAlternation_bare owner alternatives).bind fun bodies => group_blind owner _ bodies
termination_by structural atom => atom

/-- The same for a term, which joins the place of its operator to that of its atom. -/
theorem Term.expand_bare (owner : String) :
    (term : Term) → Blind (term.expand owner) (term.bare.expand owner)
  | .mk atom none => atom.expand_bare owner
  | .mk atom (some operator) => by
    have hrepeated (body : Body) :
        Blind (repetition owner (atom.span.join operator.span) body operator.bounds)
          (repetition owner (atom.bare.span.join (.point 0)) body operator.bounds) := by
      rw [atom.span_bare]
      exact repetition_blind _ _ _ _
    exact (atom.expand_bare owner).bind hrepeated
termination_by structural term => term

theorem expandSequence_bare (owner : String) :
    (terms : List Term) →
      Blind (expandSequence owner terms) (expandSequence owner (bareSequence terms))
  | [] => .pure _
  | term :: terms =>
    (term.expand_bare owner).bind fun _ => (expandSequence_bare owner terms).bind fun _ => .pure _
termination_by structural terms => terms

theorem expandAlternation_bare (owner : String) : (alternatives : List (List Term)) →
    Blind (expandAlternation owner alternatives)
      (expandAlternation owner (bareAlternation alternatives))
  | [] => .pure _
  | terms :: alternatives =>
    (expandSequence_bare owner terms).bind fun _ =>
      (expandAlternation_bare owner alternatives).bind fun _ => .pure _
termination_by structural alternatives => alternatives

end

/-- So is a rule. -/
theorem Rule.expand_bare (rule : Rule) : Blind rule.expand rule.bare.expand :=
  (mention_blind rule.name rule.span).bind fun _ =>
    (expandAlternation_bare rule.name rule.alternatives).bind fun _ => define_blind _ _

/-- So are rules, one after the other. -/
theorem expandRules_bare (rules : List Rule) :
    Blind (expandRules rules) (expandRules (rules.map Rule.bare)) := by
  induction rules with
  | nil => exact .pure ()
  | cons rule rules ih => exact rule.expand_bare.bind fun _ => ih

/-- The names that are kept free are the same. -/
theorem start_bare (rules : List Rule) : start (rules.map Rule.bare) = (start rules).bare := by
  rw [start, start, names_bare, Table.bare, SymbolTable.keeping_bare]
  rfl

/-- **The table of rules without their spans** is their table without places. -/
theorem table_bare (rules : List Rule) : table (rules.map Rule.bare) = (table rules).bare := by
  rw [table, start_bare, expandRules_bare rules]
  rfl

variable {options : ParseOptions} {rules others : List Rule}

/-- **A tree without places is compiled to the same grammar**, but for places. -/
theorem compile_bare (rules : List Rule) :
    compile options (rules.map Rule.bare) = (compile options rules).bare := by
  have hrules : (table rules).bare.rule? = fun id => ((table rules).rule? id).map Bnf.Rule.bare :=
    funext (table rules).rule?_bare
  rw [compile, compile, Grammar.bare, table_bare, rootName_bare, hrules, Table.bare,
    SymbolTable.size_bare, SymbolTable.find?_bare, ← List.map_filterMap]
  simp only [List.map_toArray]

/-- **Texts with the same rules but for spans** have the same grammar but for places. -/
theorem exists_parse_of_bare {source other : String} {tokens more : List Token} {g : Grammar}
    (htokens : tokenize source = .ok tokens) (hspells : Spells rules tokens)
    (htokens' : tokenize other = .ok more) (hspells' : Spells others more)
    (hbare : others.map Rule.bare = rules.map Rule.bare)
    (h : Grammar.parse source options = .ok g) :
    ∃ h, Grammar.parse other options = .ok h ∧ g.SameButPlaces h := by
  obtain ⟨hadmitted, hdistinct, hdefined, hroot, hreject, rfl⟩ :=
    (parse_eq_ok_iff htokens hspells).1 h
  have hcompiled : (compile options others).bare = (compile options rules).bare := by
    rw [← compile_bare, hbare, compile_bare]
  have htable : (table others).bare = (table rules).bare := by
    rw [← table_bare, hbare, table_bare]
  have hnames : others.map (·.name) = rules.map (·.name) := by
    rw [← map_name_bare, hbare, map_name_bare]
  have hmentioned : names others = names rules := by
    rw [← names_bare, hbare, names_bare]
  have hsame := Grammar.sameButPlaces_of_bare hcompiled
  refine ⟨compile options others, (parse_eq_ok_iff htokens' hspells').2
    ⟨fun rule hrule => ?_, ?_, ?_, fun name hname => ?_, fun hoption => ?_, rfl⟩, hsame⟩
  · obtain ⟨same, hmem, heq⟩ := List.mem_map.1 (hbare ▸ List.mem_map_of_mem hrule)
    rw [← Rule.admitted_bare, ← heq, Rule.admitted_bare]
    exact hadmitted same hmem
  · rwa [hnames]
  · rwa [hmentioned, hnames]
  · have hfind :
        (table others).bare.symbols.find? name = (table rules).bare.symbols.find? name := by
      rw [htable]
    rw [← SymbolTable.find?_bare]
    exact hfind.trans (SymbolTable.find?_bare _ _) ▸ hroot name hname
  · exact Grammar.leftRecursive_eq_nil_of_embeds
      (Grammar.sameButPlaces_of_bare hcompiled.symm).embeds (hreject hoption)

end Tree

end Bnf
