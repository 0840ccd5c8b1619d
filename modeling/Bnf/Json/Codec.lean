import Bnf.Grammar.Raw
import Bnf.Json
import Bnf.Options

/-!
# JSON forms of options, sets and raw tables

Every exchanged value has one written form, and may be read from a few more: fields may come in any
order or without their names, unknown fields are passed over, and a choice may be written as an
object with one field. Options that are missing have their defaults.

## Main definitions

- `Json.fields?` — the values of the fields that a reader knows
- `ParseOptions.toJson`, `ParseOptions.ofJson?` — options
- `CharSet.toJson`, `CharSet.ofJson?` — sets of characters
- `RawTable.toJson`, `RawTable.ofJson?` — raw tables
-/

namespace Bnf

namespace Json

/-! ## Parts of values -/

def bool? : Json → Option Bool
  | bool value => some value
  | _ => none

def string? : Json → Option String
  | string text => text
  | _ => none

def char? (j : Json) : Option Char :=
  match j.string?.map String.toList with
  | some [c] => some c
  | _ => none

def nat32? : Json → Option Nat
  | nat value => if value < 4294967296 then some value else none
  | _ => none

def list? {α : Type} (read : Json → Option α) : Json → Option (List α)
  | array items => items.mapM read
  | _ => none

/-- A value that may be missing, written as `null`. -/
def optional? {α : Type} (read : Json → Option α) : Json → Option (Option α)
  | null => some none
  | j => (read j).map some

/-- The name of a choice: a string, or an object with one field whose value is `null`. -/
def choice? : Json → Option String
  | string text => text
  | object [(name, null)] => name
  | _ => none

/-- The value of the field `name`, if there is one. A name may not be repeated. -/
def field? (fields : List (String × Json)) (name : String) : Option (Option Json) :=
  match fields.filter (·.1 = name) with
  | [] => some none
  | [(_, value)] => some (some value)
  | _ => none

/-- **The values of the fields called `names`**, in this order, each of which may be missing. In an
    array the fields come without their names, and only the last ones may be missing. -/
def fields? (names : List String) : Json → Option (List (Option Json))
  | array items =>
    if items.length ≤ names.length then some (names.mapIdx fun index _ => items[index]?) else none
  | object fields => do
    let fields ← fields.mapM fun (name, value) => name.map (·, value)
    names.mapM (field? fields)
  | _ => none

def fieldOr {α : Type} (default : α) (read : Json → Option α) : Option Json → Option α
  | none => some default
  | some j => read j

end Json

/-! ## Options -/

namespace LeftRecursion

def name : LeftRecursion → String
  | allow => "allow"
  | warn => "warn"
  | reject => "reject"

def ofName? (name : String) : Option LeftRecursion :=
  [allow, warn, reject].find? (·.name = name)

end LeftRecursion

namespace ParseOptions

def fieldNames : List String :=
  ["allowReservedNames", "root", "leftRecursion", "maxRepetition", "maxNesting"]

def toJson (o : ParseOptions) : Json :=
  .record [
    ("allowReservedNames", .bool o.allowReservedNames),
    ("root", match o.root with
      | none => .null
      | some name => .text name),
    ("leftRecursion", .text o.leftRecursion.name),
    ("maxRepetition", .nat o.maxRepetition.toNat),
    ("maxNesting", .nat o.maxNesting.toNat)]

/-- Reads options. A missing one has its default. -/
def ofJson? (j : Json) : Option ParseOptions := do
  let standard : ParseOptions := {}
  match ← j.fields? fieldNames with
  | [reserved, root, recursion, repetition, nesting] =>
    return {
      allowReservedNames := ← Json.fieldOr standard.allowReservedNames Json.bool? reserved
      root := ← Json.fieldOr standard.root (Json.optional? Json.string?) root
      leftRecursion := ← Json.fieldOr standard.leftRecursion
        (fun j => j.choice?.bind LeftRecursion.ofName?) recursion
      maxRepetition := ← Json.fieldOr standard.maxRepetition
        (fun j => j.nat32?.map UInt32.ofNat) repetition
      maxNesting := ← Json.fieldOr standard.maxNesting
        (fun j => j.nat32?.map UInt32.ofNat) nesting }
  | _ => none

end ParseOptions

/-! ## Sets of characters -/

namespace CharRange

def toJson (r : CharRange) : Json :=
  .record [("start", .text (String.singleton r.start)), ("end", .text (String.singleton r.stop))]

def ofJson? (j : Json) : Option CharRange := do
  match ← j.fields? ["start", "end"] with
  | [some start, some stop] => return ⟨← start.char?, ← stop.char?⟩
  | _ => none

end CharRange

namespace CharSet

def toJson (s : CharSet) : Json :=
  .record [("negated", .bool s.negated), ("ranges", .array (s.ranges.map CharRange.toJson))]

/-- Reads a set. Its ranges are taken as they are. -/
def ofJson? (j : Json) : Option CharSet := do
  match ← j.fields? ["negated", "ranges"] with
  | [some negated, some ranges] => return ⟨← negated.bool?, ← ranges.list? CharRange.ofJson?⟩
  | _ => none

end CharSet

/-! ## Raw tables -/

namespace RawElement

def toJson (e : RawElement) : Json :=
  .record [("kind", .text e.tag.name), ("value", .nat e.value)]

/-- Reads a pair. Its number has 32 bits at most. -/
def ofJson? (j : Json) : Option RawElement := do
  match ← j.fields? ["kind", "value"] with
  | [some kind, some value] => return ⟨← kind.choice?.bind Tag.ofName?, ← value.nat32?⟩
  | _ => none

end RawElement

namespace RawTable

def toJson (t : RawTable) : Json :=
  .record [
    ("rules", .array (t.rules.map fun rule => .array (rule.map RawElement.toJson))),
    ("root", .nat t.root)]

def ofJson? (j : Json) : Option RawTable := do
  match ← j.fields? ["rules", "root"] with
  | [some rules, some root] =>
    return ⟨← rules.list? (Json.list? RawElement.ofJson?), ← root.nat32?⟩
  | _ => none

end RawTable

end Bnf
