import Bnf.Text.Quoted

/-!
# JSON values

Values of the exchange format, and their two written forms: a compact one without blanks, and one
with a line for each item, indented by two spaces per level.

## Main definitions

- `Json` — a value
- `Json.compact` — its compact form
- `Json.pretty` — its indented form

## Design notes

An object keeps all its fields in order, repeated names included, since a repeated name is an error
only where the name has a meaning. A number keeps its spelling, unless it is a natural number in
decimal digits. A string of which an escape names half of a surrogate pair is well formed and stands
for no text; `none` is the text of such a string.
-/

namespace Bnf

/-- A JSON value. -/
inductive Json where
  | null
  | bool (value : Bool)
  | nat (value : Nat)
  | number (spelling : String)
  | string (text : Option String)
  | array (items : List Json)
  | object (fields : List (Option String × Json))

namespace Json

def text (s : String) : Json :=
  .string (some s)

def record (fields : List (String × Json)) : Json :=
  .object (fields.map fun (name, value) => (some name, value))

def writeStringChar (c : Char) : List Char :=
  if c = '"' then ['\\', '"']
  else if c = '\\' then ['\\', '\\']
  else if c = '\x08' then ['\\', 'b']
  else if c = '\t' then ['\\', 't']
  else if c = '\n' then ['\\', 'n']
  else if c = '\x0c' then ['\\', 'f']
  else if c = '\r' then ['\\', 'r']
  else if c.toNat < 0x20 then
    ['\\', 'u', '0', '0'] ++ (if c.toNat < 0x10 then ['0'] else []) ++ lowerHex c.toNat
  else [c]

def writeString (s : String) : List Char :=
  '"' :: s.toList.flatMap writeStringChar ++ ['"']

/-- A value that is written in one piece; arrays and objects are none. -/
def writeAtom : Json → List Char
  | null => ['n', 'u', 'l', 'l']
  | bool true => ['t', 'r', 'u', 'e']
  | bool false => ['f', 'a', 'l', 's', 'e']
  | nat n => decimal n
  | number spelling => spelling.toList
  | string text => writeString (text.getD "")
  | array _ | object _ => []

mutual

def compactChars : Json → List Char
  | array items => '[' :: compactItems items ++ [']']
  | object fields => '\x7b' :: compactFields fields ++ ['\x7d']
  | atom => writeAtom atom

/-- The compact forms of items, with commas between them. -/
def compactItems : List Json → List Char
  | [] => []
  | [item] => compactChars item
  | item :: items => compactChars item ++ ',' :: compactItems items

/-- The compact forms of fields, with commas between them. -/
def compactFields : List (Option String × Json) → List Char
  | [] => []
  | [(name, value)] => writeString (name.getD "") ++ ':' :: compactChars value
  | (name, value) :: fields =>
    writeString (name.getD "") ++ ':' :: compactChars value ++ ',' :: compactFields fields

end

/-- **The compact form of a value.** -/
def compact (j : Json) : String :=
  String.ofList (compactChars j)

def lineBreak (level : Nat) : List Char :=
  '\n' :: List.replicate (2 * level) ' '

mutual

def prettyChars (level : Nat) : Json → List Char
  | array [] => ['[', ']']
  | array items => '[' :: prettyItems (level + 1) items ++ lineBreak level ++ [']']
  | object [] => ['\x7b', '\x7d']
  | object fields => '\x7b' :: prettyFields (level + 1) fields ++ lineBreak level ++ ['\x7d']
  | atom => writeAtom atom

/-- The indented forms of items, each on its own line. -/
def prettyItems (level : Nat) : List Json → List Char
  | [] => []
  | [item] => lineBreak level ++ prettyChars level item
  | item :: items =>
    lineBreak level ++ prettyChars level item ++ ',' :: prettyItems level items

/-- The indented forms of fields, each on its own line. -/
def prettyFields (level : Nat) : List (Option String × Json) → List Char
  | [] => []
  | [(name, value)] =>
    lineBreak level ++ writeString (name.getD "") ++ ':' :: ' ' :: prettyChars level value
  | (name, value) :: fields =>
    lineBreak level ++ writeString (name.getD "") ++ ':' :: ' ' :: prettyChars level value ++
      ',' :: prettyFields level fields

end

/-- **The indented form of a value.** -/
def pretty (j : Json) : String :=
  String.ofList (prettyChars 0 j)

end Json

end Bnf
