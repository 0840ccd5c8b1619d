import Bnf.Proofs.Tree.Acceptance
import Bnf.Proofs.WellFormed

/-!
# Compiled grammars are well formed

Tokens are valid, so trees are; and the expansion of a valid tree only adds names that are names and
rules that mean something. The size of the table only grows, so what has meant something once keeps
doing so.

## Main definitions

- `Tree.Rule.Valid` — names and sets of a rule have a written form, and nothing is empty
- `Tree.Table.Fits` — all names and rules of a table are as they should be
- `Tree.Expanding.Yields` — a computation keeps a table so and gives something that fits it

## Main results

- `Tree.Spells.valid` — valid tokens spell valid rules
- `Tree.wellFormed_of_parse` — the grammar of a text is well formed
-/

namespace Bnf.Tree

/-! ## Valid trees -/

mutual

/-- Names and sets of an atom have a written form, and groups have alternatives. -/
def Atom.Valid : Atom → Prop
  | .literal .. | .any _ => True
  | .set chars _ => chars.Valid
  | .name text _ => IsName text
  | .group _ alternatives _ => alternatives ≠ [] ∧ AlternationValid alternatives
termination_by structural atom => atom

/-- The atom of a term is valid. -/
def Term.Valid : Term → Prop
  | .mk atom _ => atom.Valid
termination_by structural term => term

/-- All terms of a sequence are valid. -/
def SequenceValid : List Term → Prop
  | [] => True
  | term :: terms => term.Valid ∧ SequenceValid terms
termination_by structural terms => terms

/-- All alternatives are valid. -/
def AlternationValid : List (List Term) → Prop
  | [] => True
  | terms :: alternatives => SequenceValid terms ∧ AlternationValid alternatives
termination_by structural alternatives => alternatives

end

/-- Names and sets of a rule have a written form, and it has alternatives. -/
def Rule.Valid (rule : Rule) : Prop :=
  IsName rule.name ∧ rule.alternatives ≠ [] ∧ AlternationValid rule.alternatives

theorem sequenceValid_append {terms others : List Term} :
    SequenceValid (terms ++ others) ↔ SequenceValid terms ∧ SequenceValid others := by
  induction terms with
  | nil => simp [SequenceValid]
  | cons term terms ih => simp [SequenceValid, ih, and_assoc]

theorem alternationValid_append {alternatives others : List (List Term)} :
    AlternationValid (alternatives ++ others) ↔
      AlternationValid alternatives ∧ AlternationValid others := by
  induction alternatives with
  | nil => simp [AlternationValid]
  | cons terms alternatives ih => simp [AlternationValid, ih, and_assoc]

/-- What spells alternatives spells one at least. -/
theorem AlternationSpelled.ne_nil {nested : Bool} {alternatives : List (List Term)}
    {tokens : List Token} (h : AlternationSpelled nested alternatives tokens) :
    alternatives ≠ [] := by
  cases h <;> simp

mutual

/-- **Tokens of a text spell valid trees**, as the sets of their classes are. The cases are those of
    the spelling. -/
theorem Atom.Spelled.valid {atom : Atom} {tokens : List Token} :
    atom.Spelled tokens → (∀ token ∈ tokens, token.kind.Valid) → atom.Valid
  | .literal, _ | .any, _ => trivial
  | .set, h | .name, h => h _ List.mem_cons_self
  | .group _ hinner _, h => by
    refine ⟨hinner.ne_nil, hinner.valid fun token htoken => h token ?_⟩
    simp [htoken]

theorem Term.Spelled.valid {term : Term} {tokens : List Token} :
    term.Spelled tokens → (∀ token ∈ tokens, token.kind.Valid) → term.Valid
  | .plain hatom, h => hatom.valid h
  | .repeated hatom _, h => hatom.valid (List.forall_mem_append.1 h).1

theorem SequenceSpelled.valid {nested : Bool} {terms : List Term} {tokens : List Token} :
    SequenceSpelled nested terms tokens → (∀ token ∈ tokens, token.kind.Valid) →
      SequenceValid terms
  | .one hterm, h => ⟨hterm.valid h, trivial⟩
  | .more hterms _ _ hlast, h => by
    have hinit := hterms.valid fun token htoken => h token (by simp [htoken])
    have hterm := hlast.valid fun token htoken => h token (by simp [htoken])
    exact sequenceValid_append.2 ⟨hinit, hterm, trivial⟩

theorem AlternationSpelled.valid {nested : Bool} {alternatives : List (List Term)}
    {tokens : List Token} :
    AlternationSpelled nested alternatives tokens → (∀ token ∈ tokens, token.kind.Valid) →
      AlternationValid alternatives
  | .one hterms, h => ⟨hterms.valid h, trivial⟩
  | .more hinit _ _ _ hlast, h => by
    have hfirst := hinit.valid fun token htoken => h token (by simp [htoken])
    have hterms := hlast.valid fun token htoken => h token (by simp [htoken])
    exact alternationValid_append.2 ⟨hfirst, hterms, trivial⟩

end

theorem Rule.Spelled.valid {rule : Rule} {tokens : List Token} (h : rule.Spelled tokens)
    (htokens : ∀ token ∈ tokens, token.kind.Valid) : rule.Valid := by
  obtain ⟨-, -, hinner⟩ := h
  have hname := htokens _ List.mem_cons_self
  exact ⟨hname, hinner.ne_nil, hinner.valid fun token htoken => htokens token (by simp [htoken])⟩

/-- So all rules of a text are valid. -/
theorem RulesSpelled.valid {rules : List Rule} {tokens : List Token} (h : RulesSpelled rules tokens)
    (htokens : ∀ token ∈ tokens, token.kind.Valid) : ∀ rule ∈ rules, rule.Valid := by
  induction h with
  | one _ hrule =>
    rw [List.forall_mem_append] at htokens
    exact List.forall_mem_singleton.2 (hrule.valid htokens.2)
  | more _ _ _ hlast ih =>
    rw [List.forall_mem_append, List.forall_mem_append] at htokens
    exact List.forall_mem_append.2
      ⟨ih htokens.1, List.forall_mem_singleton.2 (hlast.valid htokens.2.2)⟩

/-- **Valid tokens spell valid rules.** -/
theorem Spells.valid {rules : List Rule} {tokens : List Token} (h : Spells rules tokens)
    (htokens : ∀ token ∈ tokens, token.kind.Valid) : ∀ rule ∈ rules, rule.Valid := by
  obtain ⟨front, back, hrules, -, rfl⟩ := h
  exact hrules.valid (List.forall_mem_append.1 htokens).1

/-! ## Tables -/

/-- The names of a table are names, and its rules mean something. -/
structure Table.Fits (t : Table) : Prop where
  names : ∀ name ∈ t.symbols.names, IsName name
  rules : ∀ {id : Nat} {rule : Bnf.Rule}, t.rule? id = some rule → rule.Fits t.symbols.size

/-- The number of names in a table. -/
def Table.size (t : Table) : Nat :=
  t.symbols.size

/-- From a table of `size` names at least that is as it should be, a computation makes a larger one,
    and gives something that is good for as many names as this one has. -/
def Expanding.Yields {α : Type} (size : Nat) (e : Expanding α) (good : Nat → α → Prop) : Prop :=
  ∀ t : Table, t.Fits → size ≤ t.size →
    (e t).2.Fits ∧ t.size ≤ (e t).2.size ∧ good (e t).2.size (e t).1

open Expanding

namespace Expanding

variable {α β : Type} {size : Nat} {e : Expanding α} {f : α → Expanding β} {good : Nat → α → Prop}
  {better : Nat → β → Prop} {owner name : String} {span : Span}

/-- What is good in every larger table is good. -/
theorem Yields.pure {a : α} (h : ∀ n, size ≤ n → good n a) :
    Yields size (Pure.pure a : Expanding α) good :=
  fun t hfits hsize => ⟨hfits, Nat.le_refl _, h t.size hsize⟩

/-- **Two parts yield what is good one after the other**, if the second does in all tables that the
    first may leave. -/
theorem Yields.bind (h : Yields size e good)
    (h' : ∀ a n, size ≤ n → good n a → Yields n (f a) better) : Yields size (e >>= f) better := by
  intro t hfits hsize
  obtain ⟨hmiddle, hgrows, hgood⟩ := h t hfits hsize
  obtain ⟨hfinal, hgrows', hbetter⟩ :=
    h' _ _ (Nat.le_trans hsize hgrows) hgood (e t).2 hmiddle (Nat.le_refl _)
  exact ⟨hfinal, Nat.le_trans hgrows hgrows', hbetter⟩

/-- A name has an identity in the table that mentions it. -/
theorem mention_yields (h : IsName name) :
    Yields size (mention name span) fun n id => (id : Nat) < n := by
  intro t hfits _
  have hnames : (t.mention name span).2.symbols.names = _ := SymbolTable.names_intern
  have hgrows : t.size ≤ (t.mention name span).2.size := by
    rw [Table.size, Table.size, ← SymbolTable.length_names, ← SymbolTable.length_names, hnames]
    simp
  refine ⟨⟨?_, fun hrule => (hfits.rules hrule).mono hgrows⟩, hgrows, ?_⟩
  · show ∀ name' ∈ (t.mention name span).2.symbols.names, IsName name'
    rw [hnames, List.forall_mem_append]
    refine ⟨hfits.names, fun other hother => ?_⟩
    split at hother
    · simp at hother
    · rwa [List.mem_singleton.1 hother]
  · show (t.symbols.intern name span).1 < (t.symbols.intern name span).2.size
    rw [SymbolTable.intern]
    split
    · next id hid => exact SymbolTable.name?_eq_some_lt (SymbolTable.name?_of_find? hid)
    · simp

/-- A rule that is defined mentions rules of the table. -/
theorem define_yields {id : RuleId} {rule : Bnf.Rule} (h : rule.Fits size) :
    Yields size (define id rule) fun _ _ => True := by
  intro t hfits hsize
  refine ⟨⟨hfits.names, fun {other found} hfound => ?_⟩, Nat.le_refl _, trivial⟩
  change (t.define id rule).rule? other = some found at hfound
  rw [Table.rule?_define, Function.update_apply] at hfound
  split at hfound
  · cases hfound
    exact h.mono hsize
  · exact hfits.rules hfound

/-- Helpers may mention each other, as all of them are there when their rules are looked at. -/
theorem helpers_yields {kind : HelperKind} {count : Nat}
    {alternatives : (first id : RuleId) → List Body} (howner : IsName owner)
    (h : ∀ first id : Nat, size ≤ first → id < first + count →
      Rule.Fits (first + count) ⟨.helper kind, alternatives first id⟩) :
    Yields size (helpers kind owner span count alternatives) fun n first =>
      (first : Nat) + count = n := by
  intro t hfits hsize
  obtain ⟨made, hnames, -, -, hmade⟩ := t.symbols.names_generateMany owner span count
  have hcount := @SymbolTable.size_generateMany t.symbols owner span count
  refine ⟨⟨?_, fun {id rule} hrule => ?_⟩, ?_, hcount.symm⟩
  · show ∀ name ∈ (t.symbols.generateMany owner span count).names, IsName name
    rw [hnames, List.forall_mem_append]
    refine ⟨hfits.names, fun name hname => ?_⟩
    obtain ⟨-, ⟨n, rfl⟩, -⟩ := hmade name hname
    exact howner.helperName n
  · change (t.addHelpers kind owner span count (alternatives t.symbols.size)).rule? id = _ at hrule
    show rule.Fits (t.symbols.generateMany owner span count).size
    rw [hcount]
    rw [Table.rule?_addHelpers] at hrule
    split at hrule
    · next hid =>
      cases hrule
      exact h _ _ hsize hid.2
    · exact (hfits.rules hrule).mono (Nat.le_add_right _ _)
  · show t.symbols.size ≤ (t.symbols.generateMany owner span count).size
    rw [hcount]
    exact Nat.le_add_right _ _

/-- What repeats a term means something, be it copies, a helper, or a chain of them. -/
theorem repetition_yields {body : Body} {bounds : Bounds} (howner : IsName owner)
    (h : body.Fits size) :
    Yields size (repetition owner span body bounds) fun n body => body.Fits n := by
  have hcopies {n : Nat} (hn : size ≤ n) :
      Body.Fits n (List.replicate bounds.min body).flatten := (h.mono hn).copies bounds.min
  cases hmax : bounds.max with
  | none =>
    rw [repetition, hmax]
    refine (helpers_yields howner fun first id hfirst hid => ?_).bind
      fun (id : Nat) n hn hid => .pure ?_
    · -- The helper mentions itself, so it fits only the table that has it.
      have hbody : body.Fits (first + 1) := h.mono (by omega)
      refine ⟨by simp [repetitionAlternatives], ?_⟩
      simp only [repetitionAlternatives, List.forall_mem_cons]
      exact ⟨hbody.append (Body.fits_singleton hid), Body.fits_nil, by simp⟩
    · intro k hk
      have hlast : id + 1 = n := hid
      have hlt : id < k := by omega
      exact (hcopies (Nat.le_trans hn hk)).append (Body.fits_singleton hlt)
  | some max =>
    rw [repetition, hmax]
    refine (helpers_yields howner fun first id hfirst hid => ?_).bind
      fun (first : Nat) n hn hfirst => .pure ?_
    · -- A helper of the chain mentions the next, if it is not the last.
      have hbody : body.Fits (first + (max - bounds.min)) := h.mono (by omega)
      refine ⟨by simp [chainAlternatives], ?_⟩
      simp only [chainAlternatives, List.forall_mem_cons]
      refine ⟨hbody.append ?_, Body.fits_nil, by simp⟩
      split
      · next hlast => exact Body.fits_singleton hlast
      · exact Body.fits_nil
    · intro k hk
      have hlast : first + (max - bounds.min) = n := hfirst
      refine (hcopies (Nat.le_trans hn hk)).append ?_
      split
      · exact Body.fits_nil
      · have hlt : first < k := by omega
        exact Body.fits_singleton hlt

/-- So does a group. Its helper has the alternatives of the group, and so at least one. -/
theorem group_yields {alternatives : List Body} (howner : IsName owner) (hne : alternatives ≠ [])
    (h : ∀ body ∈ alternatives, body.Fits size) :
    Yields size (group owner span alternatives) fun n body => body.Fits n := by
  match alternatives with
  | [body] => exact .pure fun n hn => (h body List.mem_cons_self).mono hn
  | first :: second :: others =>
    refine (helpers_yields howner fun first id hfirst _ => ⟨hne, fun body hbody => ?_⟩).bind
      fun (id : Nat) n _ hid => .pure fun k hk => ?_
    · exact (h body hbody).mono (by omega)
    · have hlast : id + 1 = n := hid
      have hlt : id < k := by omega
      exact Body.fits_singleton hlt

end Expanding

mutual

/-- **A valid tree yields symbols that mean something.** The cases are those of the tree. -/
theorem Atom.expand_yields {owner : String} (howner : IsName owner) {size : Nat} :
    (atom : Atom) → atom.Valid → Yields size (atom.expand owner) fun n body => body.Fits n
  | .literal chars _, _ => .pure fun _ _ symbol hsymbol => by
    obtain ⟨c, -, rfl⟩ := List.mem_map.1 hsymbol
    exact .inr ⟨by simp [CharSet.single], by simp [CharSet.single, CharRange.single]⟩
  | .set _ _, h => .pure fun _ _ => Body.fits_singleton h
  | .any _, _ => .pure fun _ _ => Body.fits_singleton (.inl rfl)
  | .name _ _, h => (mention_yields h).bind fun id n _ hid => .pure fun k hk =>
    Body.fits_singleton (show (id : Nat) < k from Nat.lt_of_lt_of_le hid hk)
  | .group _ alternatives _, ⟨hne, h⟩ =>
    (expandAlternation_yields howner alternatives h).bind fun bodies n _ hbodies =>
      group_yields howner (List.ne_nil_of_length_pos (by
        rw [hbodies.1]
        exact List.length_pos_iff.2 hne)) hbodies.2
termination_by structural atom => atom

theorem Term.expand_yields {owner : String} (howner : IsName owner) {size : Nat} :
    (term : Term) → term.Valid → Yields size (term.expand owner) fun n body => body.Fits n
  | .mk atom none, h => atom.expand_yields howner h
  | .mk atom (some _), h => (atom.expand_yields howner h).bind fun _ _ _ hbody =>
    repetition_yields howner hbody
termination_by structural term => term

theorem expandSequence_yields {owner : String} (howner : IsName owner) {size : Nat} :
    (terms : List Term) → SequenceValid terms →
      Yields size (expandSequence owner terms) fun n body => body.Fits n
  | [], _ => .pure fun _ _ => Body.fits_nil
  | term :: terms, ⟨hterm, hterms⟩ =>
    (term.expand_yields howner hterm).bind fun _ _ _ hfirst =>
      (expandSequence_yields howner terms hterms).bind fun _ _ hn hothers =>
        .pure fun _ hk => (hfirst.mono (Nat.le_trans hn hk)).append (hothers.mono hk)
termination_by structural terms => terms

/-- Alternatives yield as many as they are. -/
theorem expandAlternation_yields {owner : String} (howner : IsName owner) {size : Nat} :
    (alternatives : List (List Term)) → AlternationValid alternatives →
      Yields size (expandAlternation owner alternatives) fun n bodies =>
        bodies.length = alternatives.length ∧ ∀ body ∈ bodies, body.Fits n
  | [], _ => .pure fun _ _ => ⟨rfl, by simp⟩
  | terms :: alternatives, ⟨hterms, halternatives⟩ =>
    (expandSequence_yields howner terms hterms).bind fun _ _ _ hfirst =>
      (expandAlternation_yields howner alternatives halternatives).bind fun _ _ hn hothers =>
        .pure fun k hk => by
          refine ⟨by simp [hothers.1], List.forall_mem_cons.2 ⟨?_, fun body hbody => ?_⟩⟩
          · exact hfirst.mono (Nat.le_trans hn hk)
          · exact (hothers.2 body hbody).mono hk
termination_by structural alternatives => alternatives

end

/-- A rule is defined with alternatives that mean something. -/
theorem Rule.expand_yields {rule : Rule} (h : rule.Valid) {size : Nat} :
    Yields size rule.expand fun _ _ => True := by
  obtain ⟨hname, hne, halternatives⟩ := h
  refine (mention_yields hname).bind fun id n _ _ => ?_
  refine (expandAlternation_yields hname rule.alternatives halternatives).bind
    fun bodies n _ hbodies => define_yields ⟨List.ne_nil_of_length_pos ?_, hbodies.2⟩
  rw [hbodies.1]
  exact List.length_pos_iff.2 hne

/-- So are rules, one after the other, in ever larger tables. -/
theorem expandRules_yields {rules : List Rule} (h : ∀ rule ∈ rules, rule.Valid) {size : Nat} :
    Yields size (expandRules rules) fun _ _ => True := by
  induction rules generalizing size with
  | nil => exact .pure fun _ _ => trivial
  | cons rule rules ih =>
    rw [List.forall_mem_cons] at h
    exact (Rule.expand_yields h.1).bind fun _ _ _ _ => ih h.2

/-- **The table of valid rules** is as it should be. -/
theorem table_fits {rules : List Rule} (h : ∀ rule ∈ rules, rule.Valid) : (table rules).Fits := by
  have hstart : (start rules).Fits := ⟨by simp [start], by simp [start, Table.rule?]⟩
  exact (expandRules_yields h (start rules) hstart (Nat.zero_le _)).1

/-! ## Grammars -/

variable {options : ParseOptions}

/-- **A valid tree compiles to a well formed grammar**, if its rules are distinct and all names are
    defined. -/
theorem compile_wellFormed {rules : List Rule} (hne : rules ≠ [])
    (hvalid : ∀ rule ∈ rules, rule.Valid) (hdistinct : (rules.map (·.name)).Nodup)
    (hdefined : ∀ name ∈ names rules, name ∈ rules.map (·.name)) :
    (compile options rules).WellFormed := by
  obtain ⟨hsize, hrules⟩ := @rule?_compile options rules hdistinct hdefined
  have hfits := table_fits hvalid
  refine ⟨hsize.symm, (table_sound hdistinct).distinct, hfits.names, ?_, ?_⟩
  · rw [hsize]
    show ((table rules).symbols.find? (rootName options rules)).getD 0 < _
    cases hfind : (table rules).symbols.find? (rootName options rules) with
    | some id => exact SymbolTable.name?_eq_some_lt (SymbolTable.name?_of_find? hfind)
    | none =>
      -- Without a root that is found the first rule is taken, which there is.
      obtain ⟨rule, others, rfl⟩ := List.exists_cons_of_ne_nil hne
      have hzero := find?_table_head hdistinct
      exact SymbolTable.name?_eq_some_lt (SymbolTable.name?_of_find? hzero)
  · intro id rule hrule
    rw [hrules] at hrule
    rw [hsize]
    exact hfits.rules hrule

/-- **The grammar of a text is well formed.** -/
theorem wellFormed_of_parse {source : String} {g : Grammar}
    (h : Grammar.parse source options = .ok g) : g.WellFormed := by
  obtain ⟨tokens, htokens, rules, hspells⟩ := exists_spells_of_parse h
  obtain ⟨-, hdistinct, hdefined, -, -, rfl⟩ := (parse_eq_ok_iff htokens hspells).1 h
  exact compile_wellFormed hspells.ne_nil (hspells.valid (valid_of_tokenize htokens)) hdistinct
    hdefined

/-- The root of the grammar of a text is the first rule, or the rule that the options name. -/
theorem root_of_parse {source : String} {g : Grammar}
    (h : Grammar.parse source options = .ok g) :
    (options.root = none → g.root = 0) ∧
      ∀ name, options.root = some name → g.find? name = some g.root := by
  obtain ⟨tokens, htokens, rules, hspells⟩ := exists_spells_of_parse h
  obtain ⟨-, hdistinct, -, hroot, -, rfl⟩ := (parse_eq_ok_iff htokens hspells).1 h
  obtain ⟨rule, others, rfl⟩ := List.exists_cons_of_ne_nil hspells.ne_nil
  constructor
  · intro hnone
    simp [compile, rootName, hnone, find?_table_head hdistinct]
  · intro name hname
    obtain ⟨id, hid⟩ := Option.isSome_iff_exists.1 (hroot name hname)
    simp [compile, Grammar.find?, rootName, hname, hid]

end Bnf.Tree
