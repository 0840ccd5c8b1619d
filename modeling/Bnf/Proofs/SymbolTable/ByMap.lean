import Mathlib.Data.List.Induction
import Mathlib.Data.Nat.Find
import Mathlib.Data.Set.Card
import Bnf.Proofs.SymbolTable.Operations

/-!
# A symbol table with a map

A symbol table looks a name up among its entries. This is the table that holds a map from names to
identities beside its entries, puts each new name into both, and finds the name of a helper rule by
trying one number after the other, without a bound. Such a search ends, for different numbers give
different names, and only finitely many are taken. Used in any way the table answers as the other
does: the map is at every time the look-up among the entries, so the two never come apart.

## Main definitions

- `ByMap.Table` — entries, a map of their names, and a set of names kept free
- `ByMap.Table.freeNumber` — the first number whose helper name is free
- `ByMap.after` — the table after some operations
- `ByMap.Table.Agrees` — the map is the look-up among the entries of a symbol table

## Main results

- `ByMap.Table.exists_free` — there is always a free number
- `ByMap.Table.Agrees.intern`, `ByMap.Table.Agrees.generate`, `ByMap.Table.Agrees.reserve` — an
  operation keeps the two tables together
- `ByMap.agrees_after` — so do any operations
- `ByMap.getElem?_ids_after` — the map inverts the naming of the entries
-/

namespace Bnf.ByMap

/-- A symbol table with a map from the names of its entries to their identities. -/
structure Table where
  entries : Array SymbolEntry
  ids : Std.HashMap String RuleId
  reserved : Std.HashSet String

namespace Table

def empty : Table :=
  ⟨#[], ∅, ∅⟩

/-- Adds a name to the entries and to the map. -/
def insert (t : Table) (name : String) (mention : Span) : RuleId × Table :=
  (t.entries.size, { t with
    entries := t.entries.push ⟨name, mention⟩
    ids := t.ids.insert name t.entries.size })

/-- The identity of a name. A name that was never seen gets the next one. -/
def intern (t : Table) (name : String) (mention : Span) : RuleId × Table :=
  match t.ids[name]? with
  | some id => (id, t)
  | none => t.insert name mention

/-- A search for a free number ends: names with different numbers are different, and only finitely
    many names are in the map or kept free. -/
theorem exists_free (t : Table) (base : String) (n : Nat) :
    ∃ tries, helperName base (n + tries) ∉ t.ids ∧ helperName base (n + tries) ∉ t.reserved := by
  have hinjective : Function.Injective fun tries => helperName base (n + tries) :=
    fun i j hij => Nat.add_left_cancel (helperName_injective base hij)
  have hfinite : {name | name ∈ t.ids ∨ name ∈ t.reserved}.Finite := by
    refine (t.ids.keys ++ t.reserved.toList).finite_toSet.subset fun name hname => ?_
    rw [Set.mem_ofPred_eq, List.mem_append, Std.HashMap.mem_keys, Std.HashSet.mem_toList]
    exact hname
  obtain ⟨_, ⟨tries, rfl⟩, hfree⟩ :=
    (Set.infinite_range_of_injective hinjective).exists_notMem_finite hfinite
  exact ⟨tries, not_or.1 hfree⟩

/-- The first number from `n` on whose helper name is free. -/
def freeNumber (t : Table) (base : String) (n : Nat) : Nat :=
  n + Nat.find (t.exists_free base n)

/-- Makes up a helper rule of the rule `base`, with a name that is free. -/
def generate (t : Table) (base : String) (mention : Span) : RuleId × Table :=
  t.insert (helperName base (t.freeNumber base t.entries.size)) mention

/-- Keeps a name from being given to a helper rule. -/
def reserve (t : Table) (name : String) : Table :=
  if name ∈ t.reserved then t else { t with reserved := t.reserved.insert name }

/-- The table after an operation. -/
def apply (t : Table) : SymbolTable.Operation → Table
  | .intern name mention => (t.intern name mention).2
  | .generate base mention => (t.generate base mention).2
  | .reserve name => t.reserve name

/-- A table with a map and a symbol table have the same entries and keep the same names free, and
    the map gives what the symbol table finds among its entries. -/
structure Agrees (t : Table) (s : SymbolTable) : Prop where
  entries : t.entries = s.entries
  ids : ∀ name, t.ids[name]? = s.find? name
  reserved : ∀ name, name ∈ t.reserved ↔ name ∈ s.reserved

end Table

/-- The table after some operations, of which the first finds it empty. -/
def after (operations : List SymbolTable.Operation) : Table :=
  operations.foldl Table.apply .empty

namespace Table

variable {t : Table} {s : SymbolTable} {name base : String} {mention : Span}

theorem agrees_empty : empty.Agrees .empty := by
  refine ⟨rfl, fun name => ?_, fun name => ?_⟩
  · simp [empty, SymbolTable.empty, SymbolTable.find?]
  · simp [empty, SymbolTable.empty]

/-! ## One operation -/

/-- Putting a new name into entries and map is pushing it. -/
theorem Agrees.insert (h : t.Agrees s) (hdistinct : s.names.Nodup) (hnew : name ∉ s.names) :
    (t.insert name mention).1 = (s.push name mention).1 ∧
      (t.insert name mention).2.Agrees (s.push name mention).2 := by
  have hsize : t.entries.size = s.size := congrArg Array.size h.entries
  refine ⟨hsize, ?_, fun other => ?_, h.reserved⟩
  · simp only [Table.insert, SymbolTable.push, h.entries]
  · rw [SymbolTable.find?_push hdistinct hnew, Table.insert, Std.HashMap.getElem?_insert, hsize,
      h.ids]
    by_cases hsame : other = name
    · rw [if_pos hsame, if_pos (beq_iff_eq.2 hsame.symm)]
    · rw [if_neg hsame, if_neg (mt beq_iff_eq.1 (Ne.symm hsame))]

/-- **Mentioning a name** gives the same identity and keeps the tables together. -/
theorem Agrees.intern (h : t.Agrees s) (hdistinct : s.names.Nodup) :
    (t.intern name mention).1 = (s.intern name mention).1 ∧
      (t.intern name mention).2.Agrees (s.intern name mention).2 := by
  rw [Table.intern, SymbolTable.intern, h.ids]
  cases hfound : s.find? name with
  | some id => exact ⟨rfl, h⟩
  | none => exact h.insert hdistinct (SymbolTable.find?_eq_none_iff.1 hfound)

theorem Agrees.free_iff (h : t.Agrees s) :
    name ∉ t.ids ∧ name ∉ t.reserved ↔ s.isTaken name = false := by
  rw [← Bool.not_eq_true, SymbolTable.isTaken_iff, not_or, h.reserved,
    Std.HashMap.mem_iff_isSome_getElem?, h.ids, SymbolTable.find?_isSome_iff]

/-- A search without a bound and one with as many tries as may be needed find the same number. -/
theorem Agrees.freeNumber (h : t.Agrees s) (n : Nat) :
    t.freeNumber base n = s.freeNumber base (s.size + s.reserved.length) n := by
  obtain ⟨tries, htries⟩ :=
    Nat.exists_eq_add_of_le (s.le_freeNumber base (s.size + s.reserved.length) n)
  have hfree : s.isTaken (helperName base (n + tries)) = false :=
    htries ▸ s.isTaken_freeNumber base n
  rw [htries, Table.freeNumber, Nat.add_left_cancel_iff, Nat.find_eq_iff]
  refine ⟨h.free_iff.2 hfree, fun earlier hearlier hfirst => ?_⟩
  have htaken : s.isTaken (helperName base (n + earlier)) = true :=
    SymbolTable.isTaken_of_lt_freeNumber (Nat.le_add_right n earlier)
      (htries ▸ Nat.add_lt_add_left hearlier n)
  cases htaken.symm.trans (h.free_iff.1 hfirst)

/-- **Making up a helper rule** gives the same identity and keeps the tables together. -/
theorem Agrees.generate (h : t.Agrees s) (hdistinct : s.names.Nodup) :
    (t.generate base mention).1 = (s.generate base mention).1 ∧
      (t.generate base mention).2.Agrees (s.generate base mention).2 := by
  have hsize : t.entries.size = s.size := congrArg Array.size h.entries
  rw [Table.generate, h.freeNumber, hsize, SymbolTable.generate_eq_push]
  exact h.insert hdistinct s.newName_not_mem_names

/-- **Keeping a name free** keeps the tables together. -/
theorem Agrees.reserve (h : t.Agrees s) : (t.reserve name).Agrees (s.reserve name) := by
  rw [Table.reserve, SymbolTable.reserve]
  by_cases hkept : name ∈ s.reserved
  · rw [if_pos hkept, if_pos ((h.reserved name).2 hkept)]
    exact h
  · rw [if_neg hkept, if_neg (mt (h.reserved name).1 hkept)]
    refine ⟨h.entries, h.ids, fun other => ?_⟩
    rw [Std.HashSet.mem_insert, beq_iff_eq, List.mem_cons, h.reserved, eq_comm]

/-- **An operation keeps the tables together.** -/
theorem Agrees.apply (h : t.Agrees s) (hdistinct : s.names.Nodup)
    (operation : SymbolTable.Operation) : (t.apply operation).Agrees (operation.apply s) := by
  cases operation with
  | intern name mention => exact (h.intern hdistinct).2
  | generate base mention => exact (h.generate hdistinct).2
  | reserve name => exact h.reserve

end Table

/-! ## Any operations -/

/-- **The tables stay together** whatever is done with them: the map is the look-up among the
    entries. -/
theorem agrees_after (operations : List SymbolTable.Operation) :
    (after operations).Agrees (SymbolTable.after operations) := by
  induction operations using List.reverseRecOn with
  | nil => exact Table.agrees_empty
  | append_singleton operations operation ih =>
    rw [after, List.foldl_append, ← after, SymbolTable.after_concat]
    exact ih.apply (SymbolTable.nodup_names_after operations) operation

/-- **The map inverts the naming of the entries** after any operations. -/
theorem getElem?_ids_after (operations : List SymbolTable.Operation) (name : String)
    (id : RuleId) :
    (after operations).ids[name]? = some id ↔
      (after operations).entries[id]?.map (·.name) = some name := by
  rw [(agrees_after operations).ids, (agrees_after operations).entries]
  exact SymbolTable.find?_eq_some_iff (SymbolTable.nodup_names_after operations)

end Bnf.ByMap
