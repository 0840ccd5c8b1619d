import Bnf.Proofs.Tree.Growth

/-!
# Rules without groups and operators

Such rules need no helpers: all that their expansion adds to a table are the names that they
mention.

## Main definitions

- `Tree.Rule.Plain` — a rule has neither groups nor operators
- `SymbolTable.internMany` — names that are mentioned one after the other

## Main results

- `Tree.Rule.Plain.flat` — nothing in such a rule is open, and nothing is repeated
- `Tree.symbols_table_of_plain` — the names of such rules are those that they mention
-/

namespace Bnf

namespace SymbolTable

/-- The table in which names have been mentioned one after the other. -/
def internMany (t : SymbolTable) (mentions : List (String × Span)) : SymbolTable :=
  mentions.foldl (fun t mention => (t.intern mention.1 mention.2).2) t

/-- Names are mentioned one after the other. -/
theorem internMany_append (t : SymbolTable) (mentions others : List (String × Span)) :
    t.internMany (mentions ++ others) = (t.internMany mentions).internMany others :=
  List.foldl_append

/-- All that are mentioned are in the table then, and nothing else is new. -/
theorem mem_names_internMany {t : SymbolTable} {mentions : List (String × Span)} {name : String} :
    name ∈ (t.internMany mentions).names ↔
      name ∈ t.names ∨ ∃ mention ∈ mentions, mention.1 = name := by
  induction mentions generalizing t with
  | nil => simp [internMany]
  | cons mention mentions ih =>
    show name ∈ ((t.intern mention.1 mention.2).2.internMany mentions).names ↔ _
    rw [ih, names_intern, List.mem_append, List.exists_mem_cons_iff]
    by_cases hknown : mention.1 ∈ t.names
    · rw [if_pos hknown]
      constructor
      · rintro ((hname | hname) | hname)
        · exact .inl hname
        · simp at hname
        · exact .inr (.inr hname)
      · rintro (hname | rfl | hname)
        · exact .inl (.inl hname)
        · exact .inl (.inl hknown)
        · exact .inr hname
    · rw [if_neg hknown, List.mem_singleton, or_assoc, @eq_comm _ name]

end SymbolTable

namespace Tree

/-- An atom that is no group. -/
def Atom.Plain : Atom → Prop
  | .group .. => False
  | _ => True

/-- A term without groups and operators. -/
def Term.Plain : Term → Prop
  | .mk atom repetition => repetition = none ∧ atom.Plain

/-- A rule without groups and operators. -/
def Rule.Plain (rule : Rule) : Prop :=
  ∀ terms ∈ rule.alternatives, ∀ term ∈ terms, term.Plain

/-! ## Nothing is open, and nothing is repeated -/

/-- A plain term opens no group and repeats nothing. -/
theorem Term.Plain.flat {term : Term} (h : term.Plain) : term.depth = 0 ∧ term.operations = [] := by
  obtain ⟨atom, repetition⟩ := term
  obtain ⟨rfl, hatom⟩ := h
  cases atom with
  | group => exact hatom.elim
  | _ => exact ⟨rfl, rfl⟩

/-- So nothing is open or repeated in plain terms. -/
theorem sequence_flat {terms : List Term} (h : ∀ term ∈ terms, term.Plain) :
    sequenceDepth terms = 0 ∧ sequenceOperations terms = [] := by
  induction terms with
  | nil => exact ⟨rfl, rfl⟩
  | cons term terms ih =>
    rw [List.forall_mem_cons] at h
    obtain ⟨hdepth, hoperations⟩ := h.1.flat
    obtain ⟨hdepth', hoperations'⟩ := ih h.2
    rw [sequenceDepth, sequenceOperations, hdepth, hdepth', hoperations, hoperations']
    exact ⟨rfl, rfl⟩

/-- Nor in alternatives of plain terms. -/
theorem alternation_flat {alternatives : List (List Term)}
    (h : ∀ terms ∈ alternatives, ∀ term ∈ terms, term.Plain) :
    alternationDepth alternatives = 0 ∧ alternationOperations alternatives = [] := by
  induction alternatives with
  | nil => exact ⟨rfl, rfl⟩
  | cons terms alternatives ih =>
    rw [List.forall_mem_cons] at h
    obtain ⟨hdepth, hoperations⟩ := sequence_flat h.1
    obtain ⟨hdepth', hoperations'⟩ := ih h.2
    rw [alternationDepth, alternationOperations, hdepth, hdepth', hoperations, hoperations']
    exact ⟨rfl, rfl⟩

/-- **In a rule without groups and operators** nothing is open, and nothing is repeated. -/
theorem Rule.Plain.flat {rule : Rule} (h : rule.Plain) : rule.depth = 0 ∧ rule.operations = [] :=
  alternation_flat h

/-! ## Names are mentioned, and nothing else -/

/-- A computation mentions names one after the other, and makes up none. -/
def Expanding.Interns {α : Type} (e : Expanding α) (mentions : List (String × Span)) : Prop :=
  ∀ t : Table, (e t).2.symbols = t.symbols.internMany mentions

open Expanding

section

variable {α β : Type} {e : Expanding α} {f : α → Expanding β}
  {mentions others : List (String × Span)}

theorem Expanding.Interns.pure (a : α) : Interns (Pure.pure a : Expanding α) [] :=
  fun _ => rfl

/-- Two parts that mention names, and do nothing else, mention the names of both. -/
theorem Expanding.Interns.bind (h : e.Interns mentions) (h' : ∀ a, Interns (f a) others) :
    Interns (e >>= f) (mentions ++ others) := by
  intro t
  rw [SymbolTable.internMany_append, ← h t]
  exact h' (e t).1 (e t).2

end

/-- **A plain term only mentions names**: it needs no helper. -/
theorem Term.Plain.interns (owner : String) {term : Term} (h : term.Plain) :
    (term.expand owner).Interns term.mentions := by
  obtain ⟨atom, repetition⟩ := term
  obtain ⟨rfl, hatom⟩ := h
  cases atom with
  | group => exact hatom.elim
  | name text span => exact fun _ => rfl
  | _ => exact .pure _

theorem sequence_interns (owner : String) {terms : List Term} (h : ∀ term ∈ terms, term.Plain) :
    (expandSequence owner terms).Interns (sequenceMentions terms) := by
  induction terms with
  | nil => exact .pure _
  | cons term terms ih =>
    rw [List.forall_mem_cons] at h
    exact (h.1.interns owner).bind fun _ => ih h.2

theorem alternation_interns (owner : String) {alternatives : List (List Term)}
    (h : ∀ terms ∈ alternatives, ∀ term ∈ terms, term.Plain) :
    (expandAlternation owner alternatives).Interns (alternationMentions alternatives) := by
  induction alternatives with
  | nil => exact .pure _
  | cons terms alternatives ih =>
    rw [List.forall_mem_cons] at h
    exact (sequence_interns owner h.1).bind fun _ => ih h.2

/-- So does a plain rule. The first name is its own. -/
theorem Rule.Plain.interns {rule : Rule} (h : rule.Plain) : rule.expand.Interns rule.mentions := by
  have hname : (mention rule.name rule.span).Interns [(rule.name, rule.span)] := fun _ => rfl
  exact hname.bind fun _ => alternation_interns rule.name h

/-- So do plain rules. -/
theorem expandRules_interns {rules : List Rule} (h : ∀ rule ∈ rules, rule.Plain) :
    (expandRules rules).Interns (rules.flatMap Rule.mentions) := by
  induction rules with
  | nil => exact .pure _
  | cons rule rules ih =>
    rw [List.forall_mem_cons] at h
    exact h.1.interns.bind fun _ => ih h.2

/-- **The table of rules without groups and operators** has the names that they mention, in the
    order in which they are mentioned first. -/
theorem symbols_table_of_plain {rules : List Rule} (h : ∀ rule ∈ rules, rule.Plain) :
    (table rules).symbols = (SymbolTable.keeping (names rules)).internMany
      (rules.flatMap Rule.mentions) :=
  expandRules_interns h (start rules)

/-- The names of a table of plain rules are those in the rules. -/
theorem mem_names_table_iff_of_plain {rules : List Rule} (h : ∀ rule ∈ rules, rule.Plain)
    {name : String} : name ∈ (table rules).symbols.names ↔ name ∈ names rules := by
  rw [symbols_table_of_plain h, SymbolTable.mem_names_internMany, SymbolTable.names_keeping, names,
    List.mem_map]
  simp

end Tree

end Bnf
