import Bnf.Grammar
import Bnf.Proofs.Lexing
import Bnf.Proofs.SymbolTable

/-!
# Well formed grammars

A grammar is closed: its symbols mention rules that it has. And all that is in it has a written
form: its rules have names and alternatives, and its sets have ranges whose ends are in order.

## Main definitions

- `Symbol.Fits`, `Rule.Fits` — symbols and rules that mean something among a number of rules
- `Grammar.WellFormed` — names and rules fit together

## Main results

- `Grammar.WellFormed.find?_name` — looking up the name of an identity gives the identity
-/

namespace Bnf

/-- A symbol means something among `size` rules. -/
def Symbol.Fits (size : Nat) : Symbol → Prop
  | .rule id => id < size
  | .chars s => s.Valid

/-- An alternative whose symbols mean something. -/
def Body.Fits (size : Nat) (body : Body) : Prop :=
  ∀ symbol ∈ body, symbol.Fits size

/-- A rule with alternatives whose symbols mean something. -/
def Rule.Fits (size : Nat) (rule : Rule) : Prop :=
  rule.alternatives ≠ [] ∧ ∀ body ∈ rule.alternatives, Body.Fits size body

section

variable {m n : Nat} {body other : Body} {rule : Rule}

/-- What means something among some rules does so among more. Rules are added only, so all that fits
    while a text is read fits in the end. -/
theorem Symbol.Fits.mono {symbol : Symbol} (h : symbol.Fits m) (hle : m ≤ n) : symbol.Fits n := by
  cases symbol with
  | rule id => exact Nat.lt_of_lt_of_le h hle
  | chars s => exact h

/-- An alternative goes on to mean something as its symbols do. -/
theorem Body.Fits.mono (h : Body.Fits m body) (hle : m ≤ n) : Body.Fits n body :=
  fun symbol hsymbol => (h symbol hsymbol).mono hle

/-- A rule goes on to mean something as its alternatives do. -/
theorem Rule.Fits.mono (h : rule.Fits m) (hle : m ≤ n) : rule.Fits n :=
  ⟨h.1, fun body hbody => (h.2 body hbody).mono hle⟩

/-- The empty alternative mentions nothing. -/
theorem Body.fits_nil : Body.Fits n [] := by
  intro symbol hsymbol
  simp at hsymbol

/-- The alternative of a lone symbol means what the symbol does. -/
theorem Body.fits_singleton {symbol : Symbol} (h : symbol.Fits n) : Body.Fits n [symbol] := by
  intro other hother
  rwa [List.mem_singleton.1 hother]

/-- Symbols behind each other mean something if both parts do. -/
theorem Body.Fits.append (h : Body.Fits n body) (hother : Body.Fits n other) :
    Body.Fits n (body ++ other) :=
  List.forall_mem_append.2 ⟨h, hother⟩

/-- So do copies of an alternative, as those of a repeated term. -/
theorem Body.Fits.copies (h : Body.Fits n body) (count : Nat) :
    Body.Fits n (List.replicate count body).flatten := by
  intro symbol hsymbol
  obtain ⟨copy, hcopy, hmem⟩ := List.mem_flatten.1 hsymbol
  rw [List.eq_of_mem_replicate hcopy] at hmem
  exact h symbol hmem

end

/-- The name of a helper can be written as a name: behind the underscore there are the name of its
    owner and digits. -/
theorem IsName.helperName {base : String} (h : IsName base) (n : Nat) :
    IsName (helperName base n) := by
  rw [IsName, helperName_toList]
  refine ⟨by simp, ?_⟩
  rw [List.forall_mem_cons, List.forall_mem_append, List.forall_mem_cons]
  refine ⟨rfl, h.2, rfl, fun c hc => ?_⟩
  have := Nat.isDigit_of_mem_toDigits (by omega) (by omega) hc
  simp [isNameChar, Char.isAlphanum, this]

/-- **The names and rules of a grammar fit together.** -/
structure Grammar.WellFormed (g : Grammar) : Prop where
  size_symbols : g.symbols.size = g.size
  distinct : g.symbols.names.Nodup
  names : ∀ name ∈ g.symbols.names, IsName name
  root : g.root < g.size
  rules : ∀ {id : Nat} {rule : Rule}, g.rule? id = some rule → rule.Fits g.size

namespace Grammar

variable {g : Grammar} {id : Nat} {name : String}

/-- The named rules are the rules of all identities, each under the name of its identity. -/
theorem mem_namedRules_iff {named : String × Rule} :
    named ∈ g.namedRules ↔ ∃ id : Nat, g.rule? id = some named.2 ∧ g.name id = named.1 := by
  obtain ⟨name, rule⟩ := named
  simp only [namedRules, List.mem_mapIdx, Prod.mk.injEq, rule?, Array.getElem?_eq_some_iff]
  constructor
  · rintro ⟨id, hid, hname, hrule⟩
    exact ⟨id, ⟨by simpa using hid, by simpa using hrule⟩, hname⟩
  · rintro ⟨id, ⟨hid, hrule⟩, hname⟩
    exact ⟨id, by simpa using hid, hname, by simpa using hrule⟩

/-- Only the identities below the size have a rule. -/
theorem lt_of_rule? {rule : Rule} (h : g.rule? id = some rule) : id < g.size :=
  (Array.getElem?_eq_some_iff.1 h).1

/-- All of them have one. -/
theorem exists_rule?_of_lt (h : id < g.size) : ∃ rule, g.rule? id = some rule :=
  ⟨_, Array.getElem?_eq_getElem h⟩

/-- The alternatives of an identity are those of its rule. -/
theorem alternatives_of_rule? {rule : Rule} (hrule : g.rule? id = some rule) :
    g.alternatives id = rule.alternatives := by
  rw [alternatives, hrule]
  rfl

/-- An identity without a rule has no alternatives, so whoever has one has a rule. -/
theorem mem_alternatives_iff {body : Body} :
    body ∈ g.alternatives id ↔ ∃ rule, g.rule? id = some rule ∧ body ∈ rule.alternatives := by
  rw [alternatives]
  cases g.rule? id <;> simp

/-- The name of an identity is the one in the table, if there is one. -/
theorem name_of_name? (h : g.symbols.name? id = some name) : g.name id = name := by
  rw [Grammar.name, h, Option.getD_some]

namespace WellFormed

/-- Every rule has a name in the table. -/
theorem name?_eq (h : g.WellFormed) (hid : id < g.size) :
    g.symbols.name? id = some (g.name id) := by
  obtain ⟨name, hname⟩ := SymbolTable.exists_name?_of_lt (h.size_symbols.symm ▸ hid)
  rw [hname, name_of_name? hname]

/-- **Looking up the name of an identity gives the identity.** -/
theorem find?_name (h : g.WellFormed) (hid : id < g.size) : g.find? (g.name id) = some id :=
  (SymbolTable.find?_eq_some_iff h.distinct).2 (h.name?_eq hid)

/-- Distinct identities have distinct names. -/
theorem name_injOn (h : g.WellFormed) {other : Nat} (hid : id < g.size) (hother : other < g.size)
    (hsame : g.name id = g.name other) : id = other := by
  rw [← Option.some_inj, ← h.find?_name hid, hsame, h.find?_name hother]

/-- There are as many names as rules. -/
theorem length_names (h : g.WellFormed) : g.symbols.names.length = g.size := by
  rw [SymbolTable.length_names, h.size_symbols]

/-- The name of a rule can be written. -/
theorem isName (h : g.WellFormed) (hid : id < g.size) : IsName (g.name id) :=
  h.names _ (SymbolTable.mem_names_iff.2 ⟨id, h.name?_eq hid⟩)

/-- All rules mean something, also without regard to their identities. -/
theorem fits_of_mem (h : g.WellFormed) {rule : Rule} (hrule : rule ∈ g.rules.toList) :
    rule.Fits g.size := by
  obtain ⟨id, hid⟩ := List.getElem?_of_mem hrule
  exact h.rules (Array.getElem?_toList.symm.trans hid)

/-- The names of the named rules are those of the table, in the order of identities. -/
theorem map_fst_namedRules (h : g.WellFormed) : g.namedRules.map (·.1) = g.symbols.names := by
  refine List.ext_getElem? fun id => ?_
  rw [List.getElem?_map, namedRules, List.getElem?_mapIdx, ← SymbolTable.name?_eq_getElem?]
  by_cases hid : id < g.size
  · obtain ⟨rule, hrule⟩ := exists_rule?_of_lt hid
    rw [h.name?_eq hid, Array.getElem?_toList, show g.rules[id]? = some rule from hrule]
    rfl
  · have hname : g.symbols.name? id = none := by
      rw [SymbolTable.name?_eq_getElem?, List.getElem?_eq_none]
      rw [h.length_names]
      omega
    rw [hname, Array.getElem?_toList, Array.getElem?_eq_none (Nat.le_of_not_lt hid)]
    rfl

end WellFormed

end Grammar

end Bnf
