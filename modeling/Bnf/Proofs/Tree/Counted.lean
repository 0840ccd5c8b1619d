import Bnf.Proofs.Tree.FirstMention

/-!
# Helpers are counted by their identities

The name of a helper tells its rule and a number. The number is the identity of the helper, unless
the name with this number is taken. If a text has no names that are kept for helpers, it never is:
then all names of this form in the table are those of helpers, each with its own identity, and
different numbers or different rules give different names.

## Main definitions

- `SymbolTable.Counted` — names that are kept for helpers have the identities that they tell

## Main results

- `eq_of_helperName_eq` — the name of a helper tells its rule and its number
- `Tree.expandRules_counted` — expanding rules keeps helpers counted by their identities
-/

namespace Bnf

/-- What stands around the last separator of a list is told by the list. -/
theorem eq_of_append_cons_eq {α : Type} {sep : α} {xs ys zs ws : List α} (hzs : sep ∉ zs)
    (hws : sep ∉ ws) (h : xs ++ sep :: zs = ys ++ sep :: ws) : xs = ys ∧ zs = ws := by
  induction xs generalizing ys with
  | nil =>
    cases ys with
    | nil => exact ⟨rfl, (List.cons.inj h).2⟩
    | cons y ys =>
      have hlater : zs = ys ++ sep :: ws := (List.cons.inj h).2
      exact absurd (by simp [hlater]) hzs
  | cons x xs ih =>
    cases ys with
    | nil =>
      have hlater : xs ++ sep :: zs = ws := (List.cons.inj h).2
      exact absurd (by simp [← hlater]) hws
    | cons y ys =>
      obtain ⟨rfl, hrest⟩ := List.cons.inj h
      obtain ⟨rfl, hlast⟩ := ih hrest
      exact ⟨rfl, hlast⟩

/-- **The name of a helper tells its rule and its number**, even if the name of the rule ends like
    that of a helper: no digit is an underscore, so the last underscore is the one between them. -/
theorem eq_of_helperName_eq {base other : String} {m n : Nat}
    (h : helperName base m = helperName other n) : base = other ∧ m = n := by
  have hdigits (n : Nat) : '_' ∉ Nat.toDigits 10 n := fun hmem => by
    have := Nat.isDigit_of_mem_toDigits (by decide) (by decide) hmem
    exact absurd this (by decide)
  have hlists := congrArg String.toList h
  rw [helperName_toList, helperName_toList, List.cons.injEq] at hlists
  obtain ⟨hbase, -⟩ := eq_of_append_cons_eq (hdigits m) (hdigits n) hlists.2
  obtain rfl := String.toList_inj.1 hbase
  exact ⟨rfl, helperName_injective base h⟩

namespace SymbolTable

variable {t : SymbolTable} {name base : String} {mention : Span}

/-- **Names that are kept for helpers have the identities that they tell**, and none of them is set
    aside. -/
structure Counted (t : SymbolTable) : Prop where
  free : t.reserved = []
  told : ∀ {id : Nat} {name : String}, t.name? id = some name → isReserved name = true →
    ∃ base, name = helperName base id

theorem name?_push {id : Nat} {found : String} (h : (t.push name mention).2.name? id = some found) :
    t.name? id = some found ∨ id = t.size ∧ found = name := by
  rw [name?_eq_getElem?, names_push, List.getElem?_append] at h
  split at h
  · rw [name?_eq_getElem?]
    exact .inl h
  · next hid =>
    rw [length_names, Nat.not_lt] at hid
    obtain ⟨hlast, rfl⟩ : id - t.size = 0 ∧ name = found := by
      simpa [List.getElem?_singleton] using h
    exact .inr ⟨by omega, rfl⟩

namespace Counted

theorem intern (h : t.Counted) (hname : isReserved name = false) :
    (t.intern name mention).2.Counted := by
  refine ⟨reserved_intern.trans h.free, fun {id found} hfound hreserved => ?_⟩
  rw [SymbolTable.intern] at hfound
  split at hfound
  · exact h.told hfound hreserved
  · obtain hold | ⟨-, rfl⟩ := name?_push hfound
    · exact h.told hold hreserved
    · rw [hname] at hreserved
      cases hreserved

/-- The first number that is tried is the identity of the new helper, and it is free: a helper with
    this number would have this identity. -/
theorem newName_eq (h : t.Counted) (base : String) : t.newName base = helperName base t.size := by
  have hfree : t.isTaken (helperName base t.size) ≠ true := by
    rw [Ne, isTaken_iff, h.free, mem_names_iff]
    rintro (⟨id, hid⟩ | hmem)
    · obtain ⟨other, hother⟩ := h.told hid (isReserved_helperName base t.size)
      have hlt := name?_eq_some_lt hid
      rw [(eq_of_helperName_eq hother).2] at hlt
      exact Nat.lt_irrefl _ hlt
    · cases hmem
  have hle := t.le_freeNumber base (t.size + t.reserved.length) t.size
  obtain heq | hlt := Nat.eq_or_lt_of_le hle
  · rw [newName, ← heq]
  · exact absurd (isTaken_of_lt_freeNumber (Nat.le_refl _) hlt) hfree

theorem generate (h : t.Counted) : (t.generate base mention).2.Counted := by
  refine ⟨h.free, fun {id found} hfound hreserved => ?_⟩
  rw [generate_eq_push, h.newName_eq] at hfound
  obtain hold | ⟨rfl, rfl⟩ := name?_push hfound
  · exact h.told hold hreserved
  · exact ⟨base, rfl⟩

theorem generateMany (h : t.Counted) (count : Nat) :
    (t.generateMany base mention count).Counted := by
  induction count generalizing t with
  | zero => exact h
  | succ count ih => exact ih h.generate

end Counted

/-- No name is set aside if none is of the form that is kept for helpers. -/
theorem counted_keeping {names : List String} (h : ∀ name ∈ names, isReserved name = false) :
    (keeping names).Counted := by
  have hempty : keeping names = .empty := by
    rw [keeping]
    induction names with
    | nil => rfl
    | cons name names ih =>
      rw [List.forall_mem_cons] at h
      rw [List.foldl_cons, h.1]
      exact ih h.2
  rw [hempty]
  refine ⟨rfl, fun hname => ?_⟩
  rw [name?, empty] at hname
  simp at hname

end SymbolTable

namespace Tree

variable {t u : Table} {mentions : List (String × Span)}

theorem Table.Grows.counted (h : t.Grows mentions u)
    (hmentions : ∀ mention ∈ mentions, isReserved mention.1 = false)
    (hcounted : t.symbols.Counted) : u.symbols.Counted := by
  induction h with
  | refl => exact hcounted
  | mention _ ih =>
    rw [List.forall_mem_append] at hmentions
    exact (ih hmentions.1).intern (hmentions.2 _ (List.mem_singleton_self _))
  | helpers _ ih => exact (ih hmentions).generateMany _

/-- **Expanding rules** keeps helpers counted by their identities. -/
theorem expandRules_counted {rules : List Rule}
    (hnames : ∀ name ∈ names rules, isReserved name = false) (h : t.symbols.Counted) :
    (expandRules rules t).2.symbols.Counted := by
  induction rules generalizing t with
  | nil => exact h
  | cons rule rules ih =>
    rw [forall_mem_names_cons] at hnames
    exact ih hnames.2 ((rule.expanded_grows t).counted hnames.1 h)

theorem table_counted {rules : List Rule}
    (hnames : ∀ name ∈ names rules, isReserved name = false) : (table rules).symbols.Counted :=
  expandRules_counted hnames (SymbolTable.counted_keeping hnames)

end Tree

end Bnf
