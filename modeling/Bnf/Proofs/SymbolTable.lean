import Mathlib.Data.List.Nodup
import Mathlib.Data.List.Perm.Subperm
import Bnf.SymbolTable

/-!
# Names and identities

A table whose names are distinct is a bijection between its names and the identities below its
size. Mentioning a name and making up a name keep it one: the name of a helper rule is neither in
the table nor kept free, because different numbers give different names and there are more numbers
to try than names to avoid.

## Main results

- `SymbolTable.find?_eq_some_iff` — looking a name up inverts the naming of identities
- `SymbolTable.isTaken_freeNumber`, `SymbolTable.isTaken_of_lt_freeNumber` — the number of a new
  helper is free, and the ones passed over are not
- `SymbolTable.newName_not_mem_names`, `SymbolTable.newName_not_mem_reserved` — the name of a helper
  rule is new
-/

namespace Bnf

/-- The number of a helper is written behind the last underscore, in digits. -/
theorem helperName_toList (base : String) (n : Nat) :
    (helperName base n).toList = '_' :: (base.toList ++ '_' :: Nat.toDigits 10 n) := by
  show ("_" ++ base ++ "_" ++ n.repr).toList = _
  simp [String.toList_append, Nat.toList_repr]

/-- **Different numbers give different names**, as digits tell their number. -/
theorem helperName_injective (base : String) : Function.Injective (helperName base) := by
  intro m n h
  have hlists := congrArg String.toList h
  simp only [helperName_toList, List.cons.injEq, true_and, List.append_cancel_left_eq] at hlists
  have hvalues := congrArg (Nat.ofDigitChars 10 · 0) hlists
  simpa using hvalues

/-- The names of helpers are among those that are reserved. -/
theorem isReserved_helperName (base : String) (n : Nat) :
    isReserved (helperName base n) = true := by
  simp [isReserved, helperName_toList]

namespace SymbolTable

variable {t : SymbolTable} {name other base : String} {id : Nat} {mention : Span}

/-- An identity is a place in the list of names. -/
theorem name?_eq_getElem? (t : SymbolTable) (id : Nat) : t.name? id = t.names[id]? := by
  simp [name?, names]

@[simp] theorem length_names (t : SymbolTable) : t.names.length = t.size := by
  simp [names, size]

/-- A name is looked up as the first place where it stands. -/
theorem find?_eq_findIdx? (t : SymbolTable) (name : String) :
    t.find? name = t.names.findIdx? (· = name) := by
  obtain ⟨⟨entries⟩, reserved⟩ := t
  rw [find?, names, List.findIdx?_map, List.findIdx?_toArray]
  rfl

theorem name?_eq_some_lt (h : t.name? id = some name) : id < t.size := by
  rw [name?_eq_getElem?] at h
  simpa using (List.getElem?_eq_some_iff.1 h).1

/-- All identities below the size have a name. -/
theorem exists_name?_of_lt (h : id < t.size) : ∃ name, t.name? id = some name := by
  have hid : id < t.names.length := by simpa using h
  refine ⟨t.names[id], ?_⟩
  rw [name?_eq_getElem?, List.getElem?_eq_getElem hid]

/-- The names of a table are those of its identities. -/
theorem mem_names_iff : name ∈ t.names ↔ ∃ id, t.name? id = some name := by
  simp only [name?_eq_getElem?, List.mem_iff_getElem?]

/-- A name is not found if no identity has it. -/
theorem find?_eq_none_iff : t.find? name = none ↔ name ∉ t.names := by
  rw [find?_eq_findIdx?, List.findIdx?_eq_none_iff]
  constructor
  · intro h hmem
    simpa using h name hmem
  · intro h other hother
    simpa using ne_of_mem_of_not_mem hother h

/-- The identity that is found has the name. -/
theorem name?_of_find? (h : t.find? name = some id) : t.name? id = some name := by
  rw [find?_eq_findIdx?, List.findIdx?_eq_some_iff_getElem] at h
  obtain ⟨hid, hname, -⟩ := h
  rw [name?_eq_getElem?, List.getElem?_eq_getElem hid]
  simpa using hname

theorem find?_isSome_iff : (t.find? name).isSome ↔ name ∈ t.names := by
  rw [← not_iff_not, ← find?_eq_none_iff]
  simp

/-- **Looking a name up inverts the naming of identities**, if names are distinct. -/
theorem find?_eq_some_iff (hdistinct : t.names.Nodup) :
    t.find? name = some id ↔ t.name? id = some name := by
  refine ⟨name?_of_find?, fun h => ?_⟩
  have hmem : name ∈ t.names := mem_names_iff.2 ⟨id, h⟩
  obtain ⟨found, hfound⟩ := Option.isSome_iff_exists.1 (find?_isSome_iff.2 hmem)
  have hnamed := name?_of_find? hfound
  rw [name?_eq_getElem?] at h hnamed
  obtain ⟨hid, hat⟩ := List.getElem?_eq_some_iff.1 h
  obtain ⟨hfoundid, hfoundat⟩ := List.getElem?_eq_some_iff.1 hnamed
  -- The name is found at some identity; as names are distinct, it is this one.
  rw [hfound, Option.some.injEq]
  exact (hdistinct.getElem_inj_iff).1 (hfoundat.trans hat.symm)

/-! ## New names -/

@[simp] theorem names_push : (t.push name mention).2.names = t.names ++ [name] := by
  simp [push, names]

@[simp] theorem reserved_push : (t.push name mention).2.reserved = t.reserved :=
  rfl

@[simp] theorem size_push : (t.push name mention).2.size = t.size + 1 := by
  simp [push, size]

@[simp] theorem push_fst : (t.push name mention).1 = t.size :=
  rfl

/-- A name that is kept free gets no entry. -/
theorem entries_reserve (t : SymbolTable) (name : String) :
    (t.reserve name).entries = t.entries := by
  rw [reserve]
  split <;> rfl

/-- A name is taken if it is in the table or kept free. -/
theorem isTaken_iff : t.isTaken name = true ↔ name ∈ t.names ∨ name ∈ t.reserved := by
  simp [isTaken, find?_isSome_iff]

/-- A search for a free number ends at one, or has found all tries taken. -/
theorem freeNumber_spec (t : SymbolTable) (base : String) (tries n : Nat) :
    t.isTaken (helperName base (t.freeNumber base tries n)) = false ∨
      (t.freeNumber base tries n = n + tries ∧
        ∀ i < tries, t.isTaken (helperName base (n + i)) = true) := by
  induction tries generalizing n with
  | zero => exact .inr ⟨rfl, by simp⟩
  | succ tries ih =>
    simp only [freeNumber]
    split
    · next htaken =>
      obtain hfree | ⟨hlast, hall⟩ := ih (n + 1)
      · exact .inl hfree
      · refine .inr ⟨by omega, fun i hi => ?_⟩
        cases i with
        | zero => exact htaken
        | succ i =>
          have := hall i (by omega)
          rwa [Nat.add_right_comm, Nat.add_assoc] at this
    · next hfree => exact .inl (by simpa using hfree)

/-- A search does not go back. -/
theorem le_freeNumber (t : SymbolTable) (base : String) (tries n : Nat) :
    n ≤ t.freeNumber base tries n := by
  induction tries generalizing n with
  | zero => exact Nat.le_refl n
  | succ tries ih =>
    rw [freeNumber]
    split
    · exact Nat.le_of_succ_le (ih (n + 1))
    · exact Nat.le_refl n

/-- A search passes over taken numbers only. -/
theorem isTaken_of_lt_freeNumber {tries n m : Nat} (hle : n ≤ m)
    (hlt : m < t.freeNumber base tries n) : t.isTaken (helperName base m) = true := by
  induction tries generalizing n with
  | zero => exact absurd hlt (Nat.not_lt.2 hle)
  | succ tries ih =>
    rw [freeNumber] at hlt
    split at hlt
    · next htaken =>
      obtain rfl | hlater := Nat.eq_or_lt_of_le hle
      · exact htaken
      · exact ih hlater hlt
    · exact absurd hlt (Nat.not_lt.2 hle)

/-- **The number of a new helper is free.** One more try than there are taken names would need as
    many different names among fewer. -/
theorem isTaken_freeNumber (t : SymbolTable) (base : String) (n : Nat) :
    t.isTaken (helperName base (t.freeNumber base (t.size + t.reserved.length) n)) = false := by
  obtain hfree | ⟨hlast, hall⟩ := t.freeNumber_spec base (t.size + t.reserved.length) n
  · exact hfree
  · by_contra htaken
    rw [Bool.not_eq_false, hlast] at htaken
    let tried := (List.range (t.size + t.reserved.length + 1)).map fun i => helperName base (n + i)
    have hnodup : tried.Nodup := by
      refine List.Nodup.map (fun i j hij => ?_) List.nodup_range
      have := helperName_injective base hij
      omega
    -- If the last try is taken as well, all of them are names of the table or kept.
    have hsubset : tried ⊆ t.names ++ t.reserved := by
      intro found hfound
      obtain ⟨i, hi, rfl⟩ := List.mem_map.1 hfound
      have hi : i < t.size + t.reserved.length + 1 := by simpa using hi
      have : t.isTaken (helperName base (n + i)) = true := by
        rcases Nat.lt_succ_iff_lt_or_eq.1 hi with hlt | rfl
        · exact hall i hlt
        · exact htaken
      simpa using isTaken_iff.1 this
    have := (hnodup.subperm hsubset).length_le
    simp only [tried, List.length_map, List.length_range, List.length_append, length_names] at this
    omega

/-- The name of the next helper of the rule `base`. -/
def newName (t : SymbolTable) (base : String) : String :=
  helperName base (t.freeNumber base (t.size + t.reserved.length) t.size)

/-- A helper is a new name that is pushed. -/
theorem generate_eq_push : t.generate base mention = t.push (t.newName base) mention :=
  rfl

@[simp] theorem size_generate : (t.generate base mention).2.size = t.size + 1 :=
  size_push

/-- The name of a new helper is not in the table, so names stay distinct. -/
theorem newName_not_mem_names : t.newName base ∉ t.names := by
  have : t.isTaken (t.newName base) = false := t.isTaken_freeNumber base t.size
  intro hmem
  rw [isTaken_iff.2 (.inl hmem)] at this
  exact absurd this (by simp)

/-- Nor is it one that is kept free, so a name of the text that comes later is not met by it. -/
theorem newName_not_mem_reserved : t.newName base ∉ t.reserved := by
  have : t.isTaken (t.newName base) = false := t.isTaken_freeNumber base t.size
  intro hmem
  rw [isTaken_iff.2 (.inr hmem)] at this
  exact absurd this (by simp)

end SymbolTable

end Bnf
