import Mathlib.Data.List.Forall2
import Bnf.Proofs.LeftRecursion

/-!
# Grammars with the same structure

Two grammars have the same structure if rules of the same name have the same alternatives, where
rules are mentioned by name. In well formed grammars names are distinct, so each identity of the one
belongs to one of the other, and what is true of rules whatever their identities are carries over.

## Main results

- `Grammar.sameStructure_iff` — what it means to have the same structure
- `Grammar.embeds_of_sameStructure` — the identity of the same name
- `Grammar.leftRecursive_eq_nil_of_sameStructure` — left recursion is a matter of structure
-/

namespace Bnf

/-- Lists agree if their items do, one by one. -/
theorem isEqv_iff_forall₂ {α : Type} {r : α → α → Bool} {xs ys : List α} :
    xs.isEqv ys r = true ↔ List.Forall₂ (fun x y => r x y = true) xs ys := by
  induction xs generalizing ys with
  | nil => cases ys <;> simp
  | cons x xs ih =>
    cases ys with
    | nil => simp
    | cons y ys => rw [List.isEqv_cons_cons, Bool.and_eq_true, ih, List.forall₂_cons]

theorem exists_left_of_forall₂ {α β : Type} {r : α → β → Prop} {xs : List α} {ys : List β}
    (h : List.Forall₂ r xs ys) {y : β} (hy : y ∈ ys) : ∃ x ∈ xs, r x y := by
  induction h with
  | nil => simp at hy
  | cons hfirst _ ih =>
    obtain rfl | hmem := List.mem_cons.1 hy
    · exact ⟨_, List.mem_cons_self, hfirst⟩
    · obtain ⟨x, hx, hrelated⟩ := ih hmem
      exact ⟨x, List.mem_cons_of_mem _ hx, hrelated⟩

theorem exists_right_of_forall₂ {α β : Type} {r : α → β → Prop} {xs : List α} {ys : List β}
    (h : List.Forall₂ r xs ys) {x : α} (hx : x ∈ xs) : ∃ y ∈ ys, r x y :=
  exists_left_of_forall₂ (List.Forall₂.flip h) hx

/-- What is the same of related items is the same of related lists. -/
theorem map_eq_map_of_forall₂ {α β γ : Type} {r : α → β → Prop} {f : α → γ} {f' : β → γ}
    {xs : List α} {ys : List β} (h : List.Forall₂ r xs ys) (heq : ∀ {x y}, r x y → f' y = f x) :
    ys.map f' = xs.map f := by
  induction h with
  | nil => rfl
  | cons hfirst _ ih => rw [List.map_cons, List.map_cons, heq hfirst, ih]

variable {a b : Grammar}

/-- Two symbols agree if they are the same set, or mention rules of the same name. -/
theorem Symbol.agrees_iff {x y : Symbol} : Symbol.agrees a b x y = true ↔
    (∃ s, x = .chars s ∧ y = .chars s) ∨
      ∃ i j : Nat, x = .rule i ∧ y = .rule j ∧ a.name i = b.name j := by
  cases x <;> cases y <;> simp [Symbol.agrees, eq_comm]

/-- Alternatives agree symbol by symbol. -/
theorem alternativesAgree_iff {xs ys : List Body} : alternativesAgree a b xs ys = true ↔
    List.Forall₂ (List.Forall₂ fun x y => Symbol.agrees a b x y = true) xs ys := by
  rw [alternativesAgree, isEqv_iff_forall₂]
  simp only [isEqv_iff_forall₂]

namespace Grammar

/-- **What it means to have the same structure.** -/
theorem sameStructure_iff : a.sameStructure b = true ↔
    a.size = b.size ∧ a.name a.root = b.name b.root ∧
      ∀ {id : Nat} {rule : Rule}, a.rule? id = some rule →
        ∃ (other : Nat) (image : Rule), b.find? (a.name id) = some other ∧
          b.rule? other = some image ∧
          List.Forall₂ (List.Forall₂ fun x y => Symbol.agrees a b x y = true)
            rule.alternatives image.alternatives := by
  rw [sameStructure, Bool.and_eq_true, Bool.and_eq_true, decide_eq_true_eq, decide_eq_true_eq,
    and_assoc, List.all_eq_true]
  refine and_congr_right fun _ => and_congr_right fun _ => ?_
  constructor
  · intro h id rule hid
    have hrule := h (a.name id, rule) (mem_namedRules_iff.2 ⟨id, hid, rfl⟩)
    simp only [ruleNamed?] at hrule
    cases hother : b.find? (a.name id) with
    | none => simp [hother] at hrule
    | some other =>
      cases himage : b.rule? other with
      | none => simp [hother, himage] at hrule
      | some image =>
        simp only [hother, Option.bind_some, himage] at hrule
        exact ⟨other, image, rfl, himage, alternativesAgree_iff.1 hrule⟩
  · rintro h ⟨name, rule⟩ hnamed
    obtain ⟨id, hid, rfl⟩ := mem_namedRules_iff.1 hnamed
    obtain ⟨other, image, hother, himage, hagrees⟩ := h hid
    simp only [ruleNamed?, hother, Option.bind_some, himage]
    exact alternativesAgree_iff.2 hagrees

/-- The identity in `a` of a rule with a name of `b`. -/
def sameNamed (a b : Grammar) (id : Nat) : Nat :=
  (a.find? (b.name id)).getD 0

/-- Symbols that agree are those that the renaming by names makes of each other. -/
theorem map_rename_of_agrees (ha : a.WellFormed) {body other : Body} (hfits : body.Fits a.size)
    (h : List.Forall₂ (fun x y => Symbol.agrees a b x y = true) body other) :
    other.map (Symbol.rename (a.sameNamed b)) = body := by
  induction h with
  | nil => rfl
  | @cons x y body other hfirst _ ih =>
    rw [Body.Fits, List.forall_mem_cons] at hfits
    rw [List.map_cons, ih hfits.2]
    obtain ⟨s, rfl, rfl⟩ | ⟨i, j, rfl, rfl, hname⟩ := Symbol.agrees_iff.1 hfirst
    · rfl
    · have hlt : i < a.size := hfits.1
      rw [Symbol.rename, sameNamed, ← hname, ha.find?_name hlt, Option.getD_some]

/-- A grammar with the same structure has the same names, maybe in another order. -/
theorem perm_names_of_sameStructure (ha : a.WellFormed) (hb : b.WellFormed)
    (h : a.sameStructure b = true) : a.symbols.names.Perm b.symbols.names := by
  obtain ⟨hsize, -, hrules⟩ := sameStructure_iff.1 h
  have hsubset : a.symbols.names ⊆ b.symbols.names := by
    intro name hname
    obtain ⟨id, hid⟩ := SymbolTable.mem_names_iff.1 hname
    have hlt : id < a.size := ha.size_symbols ▸ SymbolTable.name?_eq_some_lt hid
    obtain ⟨rule, hrule⟩ := exists_rule?_of_lt hlt
    obtain ⟨other, -, hother, -⟩ := hrules hrule
    rw [name_of_name? hid] at hother
    exact SymbolTable.find?_isSome_iff.1 (Option.isSome_iff_exists.2 ⟨other, hother⟩)
  -- As many names without repetition, all of them among the others, are all of these.
  have hlength : b.symbols.names.length ≤ a.symbols.names.length := by
    rw [ha.length_names, hb.length_names, hsize]
  exact (ha.distinct.subperm hsubset).perm_of_length_le hlength

/-- **A grammar with the same structure has all alternatives**, under the identities of the same
    names. -/
theorem embeds_of_sameStructure (ha : a.WellFormed) (hb : b.WellFormed)
    (h : a.sameStructure b = true) : Embeds (a.sameNamed b) b a := by
  intro id rule hid
  have hlt := lt_of_rule? hid
  obtain ⟨-, -, hrules⟩ := sameStructure_iff.1 h
  have hname : b.name id ∈ a.symbols.names :=
    (perm_names_of_sameStructure ha hb h).mem_iff.2
      (SymbolTable.mem_names_iff.2 ⟨id, hb.name?_eq hlt⟩)
  obtain ⟨before, hbefore⟩ := SymbolTable.mem_names_iff.1 hname
  have hlt' : before < a.size := ha.size_symbols ▸ SymbolTable.name?_eq_some_lt hbefore
  have hsame : a.name before = b.name id := name_of_name? hbefore
  obtain ⟨image, himage⟩ := exists_rule?_of_lt hlt'
  obtain ⟨other, image', hother, hrule, hagree⟩ := hrules himage
  rw [hsame, hb.find?_name hlt] at hother
  cases hother
  -- The rule that is found by name is the one at hand, since names are distinct.
  cases hid.symm.trans hrule
  refine ⟨image, ?_, fun body hbody => ?_⟩
  · rw [sameNamed, ← hsame, ha.find?_name hlt', Option.getD_some, himage]
  · obtain ⟨body', hbody', hagrees⟩ := exists_left_of_forall₂ hagree hbody
    rwa [map_rename_of_agrees ha ((ha.rules himage).2 body' hbody') hagrees]

/-- **Left recursion is a matter of structure**: it does not depend on identities. -/
theorem leftRecursive_eq_nil_of_sameStructure (ha : a.WellFormed) (hb : b.WellFormed)
    (h : a.sameStructure b = true) (hnil : a.leftRecursive = []) : b.leftRecursive = [] :=
  leftRecursive_eq_nil_of_embeds (embeds_of_sameStructure ha hb h) hnil

end Grammar

end Bnf
