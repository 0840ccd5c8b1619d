import Mathlib.Data.List.Induction
import Bnf.Proofs.Tree.Growth

/-!
# A symbol table after any operations

A table that starts empty is used in three ways: a name is mentioned, a helper rule is made up, and
a name is kept free. However often and in whatever order this is done, the table stays a bijection
between its names and the identities below its size, and it only grows at its end.

## Main definitions

- `SymbolTable.Operation` — one use of a table
- `SymbolTable.after` — the table after some operations

## Main results

- `SymbolTable.Operation.entries_prefix`, `SymbolTable.entries_after_prefix` — entries stay
- `SymbolTable.nodup_names_after` — names are distinct
- `SymbolTable.consistent_after` — what holds of a table however it was used
-/

namespace Bnf.SymbolTable

/-- One use of a symbol table. -/
inductive Operation where
  | intern (name : String) (mention : Span)
  | generate (base : String) (mention : Span)
  | reserve (name : String)

/-- The table after an operation. -/
def Operation.apply (t : SymbolTable) : Operation → SymbolTable
  | intern name mention => (t.intern name mention).2
  | generate base mention => (t.generate base mention).2
  | reserve name => t.reserve name

/-- The table after some operations, of which the first finds it empty. -/
def after (operations : List Operation) : SymbolTable :=
  operations.foldl Operation.apply empty

variable {t : SymbolTable} {name other base : String} {mention : Span} {operation : Operation}
  {operations : List Operation}

theorem after_concat : after (operations ++ [operation]) = operation.apply (after operations) := by
  rw [after, List.foldl_append]
  rfl

/-! ## Names -/

theorem nodup_names_push (hdistinct : t.names.Nodup) (hnew : name ∉ t.names) :
    (t.push name mention).2.names.Nodup := by
  rw [names_push, ← List.concat_eq_append]
  exact hdistinct.concat hnew

/-- **An operation keeps names distinct.** -/
theorem Operation.nodup_names (hdistinct : t.names.Nodup) (operation : Operation) :
    (operation.apply t).names.Nodup := by
  cases operation with
  | intern name mention =>
    rw [apply, SymbolTable.intern]
    split
    · exact hdistinct
    · next hnone => exact nodup_names_push hdistinct (find?_eq_none_iff.1 hnone)
  | generate base mention => exact nodup_names_push hdistinct newName_not_mem_names
  | reserve name =>
    rw [apply, names_reserve]
    exact hdistinct

/-- **Names are distinct** after any operations. -/
theorem nodup_names_after (operations : List Operation) : (after operations).names.Nodup := by
  induction operations using List.reverseRecOn with
  | nil => exact List.nodup_nil
  | append_singleton operations operation ih =>
    rw [after_concat]
    exact operation.nodup_names ih

/-- A new name is looked up as the next identity, and no other name is looked up differently. -/
theorem find?_push (hdistinct : t.names.Nodup) (hnew : name ∉ t.names) (other : String) :
    (t.push name mention).2.find? other =
      if other = name then some t.size else t.find? other := by
  have hnames (id : Nat) : (t.push name mention).2.find? other = some id ↔
      (t.names ++ [name])[id]? = some other := by
    rw [find?_eq_some_iff (nodup_names_push hdistinct hnew), name?_eq_getElem?, names_push]
  by_cases hsame : other = name
  · subst hsame
    rw [if_pos rfl, hnames, ← length_names]
    exact List.getElem?_concat_length
  · rw [if_neg hsame]
    refine Option.ext fun id => ?_
    rw [hnames, find?_eq_some_iff hdistinct, name?_eq_getElem?]
    -- Behind the old names there is the new one only, which is another.
    obtain hid | hid := Nat.lt_or_ge id t.names.length
    · rw [List.getElem?_append_left hid]
    · rw [List.getElem?_append_right hid, List.getElem?_eq_none hid]
      simp [List.getElem?_singleton, Ne.symm hsame]

/-! ## Entries -/

theorem entries_push : (t.push name mention).2.entries.toList =
    t.entries.toList ++ [⟨name, mention⟩] :=
  Array.toList_push

/-- **An operation changes no entry.** It adds one at the end, if any. -/
theorem Operation.entries_prefix (t : SymbolTable) (operation : Operation) :
    t.entries.toList <+: (operation.apply t).entries.toList := by
  cases operation with
  | intern name mention =>
    rw [apply, SymbolTable.intern]
    split
    · exact List.prefix_rfl
    · rw [entries_push]
      exact List.prefix_append ..
  | generate base mention =>
    rw [apply, generate_eq_push, entries_push]
    exact List.prefix_append ..
  | reserve name => simp only [apply, entries_reserve, List.prefix_rfl]

/-- **Later operations change no entry.** -/
theorem entries_after_prefix (operations more : List Operation) :
    (after operations).entries.toList <+: (after (operations ++ more)).entries.toList := by
  induction more using List.reverseRecOn with
  | nil => simp only [List.append_nil, List.prefix_rfl]
  | append_singleton more operation ih =>
    rw [← List.append_assoc, after_concat]
    exact ih.trans (operation.entries_prefix _)

theorem getElem?_entries_after {more : List Operation} {id : Nat}
    (hid : id < (after operations).size) :
    (after (operations ++ more)).entries[id]? = (after operations).entries[id]? := by
  obtain ⟨added, hadded⟩ := entries_after_prefix operations more
  rw [← Array.getElem?_toList, ← hadded, List.getElem?_append_left (by simpa [size] using hid),
    Array.getElem?_toList]

theorem getElem?_entries_push : (t.push name mention).2.entries[t.size]? =
    some ⟨name, mention⟩ :=
  Array.getElem?_push_size

/-! ## Names that are kept free -/

/-- The names kept free are those that were asked for. -/
theorem mem_reserved_after : name ∈ (after operations).reserved ↔
    .reserve name ∈ operations := by
  induction operations using List.reverseRecOn with
  | nil => simp [after, empty]
  | append_singleton operations operation ih =>
    rw [after_concat, List.mem_append, List.mem_singleton, ← ih]
    cases operation with
    | intern other mention => simp [Operation.apply]
    | generate base mention => simp [Operation.apply, generate_eq_push]
    | reserve other => simp [Operation.apply, mem_reserved_reserve, or_comm]

/-- A helper name is taken if it is in the table, or was asked to be kept free. -/
theorem isTaken_after : (after operations).isTaken name = true ↔
    ((after operations).find? name).isSome ∨ .reserve name ∈ operations := by
  rw [isTaken_iff, find?_isSome_iff, mem_reserved_after]

/-! ## All of it -/

/-- **A table is consistent after any operations.** Let the table be one that any operations were
    done on, from the empty table on.

    - The identities with a name are those below the size, and looking a name up inverts the naming
      of identities.
    - Later operations change neither the name of an identity nor the place of its first mention.
    - Mentioning a known name gives its identity and changes nothing. Mentioning a new one gives it
      the next identity, at this place, and no other name is looked up differently.
    - Keeping a name free changes no entry and no look-up.
    - Making up a helper rule gives the next identity, under the first helper name from that number
      on that is neither in the table nor was asked to be kept free. -/
theorem consistent_after (operations : List Operation) :
    (∀ id, (∃ name, (after operations).name? id = some name) ↔ id < (after operations).size) ∧
    (∀ name id, (after operations).find? name = some id ↔
      (after operations).name? id = some name) ∧
    (∀ more id, id < (after operations).size →
      (after (operations ++ more)).name? id = (after operations).name? id ∧
      (after (operations ++ more)).mention? id = (after operations).mention? id) ∧
    (∀ name mention id, (after operations).find? name = some id →
      (after operations).intern name mention = (id, after operations)) ∧
    (∀ name mention, (after operations).find? name = none →
      ∃ next, (after operations).intern name mention = ((after operations).size, next) ∧
        next.size = (after operations).size + 1 ∧
        next.name? (after operations).size = some name ∧
        next.mention? (after operations).size = some mention ∧
        ∀ other, next.find? other =
          if other = name then some (after operations).size else (after operations).find? other) ∧
    (∀ name, ((after operations).reserve name).entries = (after operations).entries ∧
      ((after operations).reserve name).find? = (after operations).find?) ∧
    (∀ base mention, ∃ n next,
      (after operations).generate base mention = ((after operations).size, next) ∧
        next.size = (after operations).size + 1 ∧
        next.name? (after operations).size = some (helperName base n) ∧
        next.mention? (after operations).size = some mention ∧
        (∀ other, next.find? other = if other = helperName base n then
          some (after operations).size else (after operations).find? other) ∧
        (after operations).find? (helperName base n) = none ∧
        .reserve (helperName base n) ∉ operations ∧ (after operations).size ≤ n ∧
        ∀ m, (after operations).size ≤ m → m < n →
          ((after operations).find? (helperName base m)).isSome ∨
            .reserve (helperName base m) ∈ operations) := by
  have hdistinct := nodup_names_after operations
  refine ⟨fun id => ⟨?_, exists_name?_of_lt⟩, fun name id => find?_eq_some_iff hdistinct,
    ?_, ?_, ?_, ?_, ?_⟩
  · rintro ⟨name, hname⟩
    exact name?_eq_some_lt hname
  · intro more id hid
    rw [name?, name?, mention?, mention?, getElem?_entries_after hid]
    exact ⟨rfl, rfl⟩
  · intro name mention id hid
    rw [intern, hid]
  · intro name mention hnone
    have hnew := find?_eq_none_iff.1 hnone
    refine ⟨((after operations).push name mention).2, ?_, size_push, ?_, ?_,
      find?_push hdistinct hnew⟩
    · rw [intern, hnone]
      rfl
    · rw [name?, getElem?_entries_push, Option.map_some]
    · rw [mention?, getElem?_entries_push, Option.map_some]
  · intro name
    refine ⟨entries_reserve .., ?_⟩
    funext other
    rw [find?, find?, entries_reserve]
  · intro base mention
    have hfree := (after operations).isTaken_freeNumber base (after operations).size
    refine ⟨_, ((after operations).generate base mention).2, rfl, size_generate, ?_, ?_,
      find?_push hdistinct newName_not_mem_names, ?_, ?_, le_freeNumber .., ?_⟩
    · rw [generate_eq_push, name?, getElem?_entries_push, Option.map_some]
      rfl
    · rw [generate_eq_push, mention?, getElem?_entries_push, Option.map_some]
    · exact find?_eq_none_iff.2 newName_not_mem_names
    · intro hreserved
      exact newName_not_mem_reserved (mem_reserved_after.2 hreserved)
    · intro m hle hlt
      exact isTaken_after.1 (isTaken_of_lt_freeNumber hle hlt)

/-- A made-up name passes over one that is kept free and one that is mentioned. -/
example : ((after [.intern "r" (.point 0), .reserve "_r_2", .intern "_r_3" (.point 4)]).generate "r"
    (.point 9)).2.names = ["r", "_r_3", "_r_4"] := by decide +kernel

end Bnf.SymbolTable
