import Bnf.Text.Span

/-!
# Names of rules

A rule is known by its identity: a number, given in the order in which names are first mentioned.
The symbol table holds the name of each identity and the place of its first mention. It also makes
up names for helper rules, which differ from all names that are known or kept free.

## Main definitions

- `RuleId` — the identity of a rule, a number below `RuleId.bound`
- `SymbolTable` — the names of all identities
- `SymbolTable.intern` — the identity of a name, new if the name was never seen
- `SymbolTable.generate` — a new identity with a new name
- `SymbolTable.reserve` — keeps a name from being made up
-/

namespace Bnf

/-- The identity of a rule. -/
abbrev RuleId := Nat

/-- Identities are below this number: the last of the 32-bit numbers stands for no rule. -/
def RuleId.bound : Nat :=
  4294967295

/-- Names that start with an underscore are kept for helper rules. -/
def isReserved (name : String) : Bool :=
  name.toList.head? = some '_'

/-- The name of a helper rule: `n` tells the helpers of the rule `base` apart. -/
def helperName (base : String) (n : Nat) : String :=
  s!"_{base}_{n}"

/-- A name and the place where it is first mentioned. -/
structure SymbolEntry where
  name : String
  mention : Span
deriving DecidableEq

/-- The names of all identities: the entry at index `n` belongs to the identity `n`. -/
structure SymbolTable where
  entries : Array SymbolEntry
  /-- Names that no helper rule may get, whether they have an identity or not. -/
  reserved : List String
deriving DecidableEq

namespace SymbolTable

def empty : SymbolTable :=
  ⟨#[], []⟩

def size (t : SymbolTable) : Nat :=
  t.entries.size

def find? (t : SymbolTable) (name : String) : Option RuleId :=
  t.entries.findIdx? (·.name = name)

def name? (t : SymbolTable) (id : RuleId) : Option String :=
  t.entries[id]?.map (·.name)

/-- The place where the name of an identity is first mentioned. -/
def mention? (t : SymbolTable) (id : RuleId) : Option Span :=
  t.entries[id]?.map (·.mention)

def push (t : SymbolTable) (name : String) (mention : Span) : RuleId × SymbolTable :=
  (t.size, { t with entries := t.entries.push ⟨name, mention⟩ })

/-- The identity of a name. A name that was never seen gets the next one. -/
def intern (t : SymbolTable) (name : String) (mention : Span) : RuleId × SymbolTable :=
  match t.find? name with
  | some id => (id, t)
  | none => t.push name mention

/-- Keeps a name from being given to a helper rule. It gets no identity by this. -/
def reserve (t : SymbolTable) (name : String) : SymbolTable :=
  if name ∈ t.reserved then t else { t with reserved := name :: t.reserved }

/-- Whether a helper rule may not have this name. -/
def isTaken (t : SymbolTable) (name : String) : Bool :=
  (t.find? name).isSome || name ∈ t.reserved

/-- The first number from `n` on whose helper name is free, if it is among the first `tries`; else
    the number after these. -/
def freeNumber (t : SymbolTable) (base : String) : (tries n : Nat) → Nat
  | 0, n => n
  | tries + 1, n => if t.isTaken (helperName base n) then t.freeNumber base tries (n + 1) else n

/-- Makes up a helper rule of the rule `base`: the next identity, under the first free name that
    counts from it. Different numbers give different names, so one more try than there are taken
    names is enough. -/
def generate (t : SymbolTable) (base : String) (mention : Span) : RuleId × SymbolTable :=
  t.push (helperName base (t.freeNumber base (t.size + t.reserved.length) t.size)) mention

def names (t : SymbolTable) : List String :=
  t.entries.toList.map (·.name)

end SymbolTable

end Bnf
