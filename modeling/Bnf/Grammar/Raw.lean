import Bnf.Grammar.Flat
import Bnf.Text.Quoted

/-!
# Grammars as pairs of numbers

In its raw form every element of a flat rule is one or more pairs of a tag and a number. A set of
characters takes several pairs: the first character of its first range, with a tag that tells
whether the set is negated, the first characters of the other ranges, and after each of them the
last character of the range if it is another.

## Main definitions

- `Tag` — what the number of a pair means
- `RawElement` — a tag and a number
- `CharSet.encode`, `Element.encode` — elements as pairs
- `RawTable` — all rules of a grammar as pairs
- `Grammar.flatText` — the raw form as text for people to read
-/

namespace Bnf

/-- What the number of a pair means. -/
inductive Tag where
  | stop
  | border
  | rule
  | char
  | charNot
  /-- The last character of the range that the pair before starts. -/
  | rangeUpper
  /-- Another character of the set that the pairs before belong to. -/
  | charAlt
  | charAny
deriving DecidableEq

namespace Tag

def all : List Tag :=
  [stop, border, rule, char, charNot, rangeUpper, charAlt, charAny]

def code : Tag → Nat
  | stop => 0
  | border => 1
  | rule => 2
  | char => 3
  | charNot => 4
  | rangeUpper => 5
  | charAlt => 6
  | charAny => 7

def ofCode? (code : Nat) : Option Tag :=
  all[code]?

def name : Tag → String
  | stop => "END"
  | border => "ALT"
  | rule => "RULE_REF"
  | char => "CHAR"
  | charNot => "CHAR_NOT"
  | rangeUpper => "CHAR_RNG_UPPER"
  | charAlt => "CHAR_ALT"
  | charAny => "CHAR_ANY"

def ofName? (name : String) : Option Tag :=
  all.find? (·.name = name)

/-- Whether the number of a pair with this tag is a character. -/
def isChar : Tag → Bool
  | char | charNot | rangeUpper | charAlt => true
  | stop | border | rule | charAny => false

end Tag

/-- A tag and a number: a code point, the identity of a rule, or zero. -/
structure RawElement where
  tag : Tag
  value : Nat
deriving DecidableEq

namespace RawElement

/-- The text of a pair, such as `CHAR('a')` or `RULE_REF(2)`. -/
def render (e : RawElement) : String :=
  if e.tag.isChar then
    let shown := if e.value.isValidChar then quoted (Char.ofNat e.value)
      else 'U' :: '+' :: upperHex 4 e.value
    e.tag.name ++ "(" ++ String.ofList shown ++ ")"
  else if e.tag = .rule then s!"{e.tag.name}({e.value})"
  else e.tag.name

end RawElement

/-- The pairs of a range, of which the first has the given tag. -/
def CharRange.encode (tag : Tag) (r : CharRange) : List RawElement :=
  ⟨tag, r.start.toNat⟩ :: if r.isSingle then [] else [⟨.rangeUpper, r.stop.toNat⟩]

/-- **The pairs of a set of characters.** -/
def CharSet.encode (s : CharSet) : List RawElement :=
  if s.isAny then [⟨.charAny, 0⟩]
  else
    match s.ranges with
    | [] => []
    | first :: others =>
      first.encode (if s.negated then .charNot else .char) ++ others.flatMap (·.encode .charAlt)

def Element.encode : Element → List RawElement
  | stop => [⟨.stop, 0⟩]
  | border => [⟨.border, 0⟩]
  | rule id => [⟨.rule, id⟩]
  | chars set => set.encode

/-- The raw form of a grammar: the pairs of each rule, and the number of the root. The number is the
    identity of a rule only if it is one that identities have. -/
structure RawTable where
  rules : List (List RawElement)
  root : Nat
deriving DecidableEq

namespace RawTable

def size (t : RawTable) : Nat :=
  t.rules.length

/-- The identity of the root. There is none if its number is past those of all identities. -/
def rootId? (t : RawTable) : Option RuleId :=
  if t.root < RuleId.bound then some t.root else none

def rule? (t : RawTable) (id : RuleId) : Option (List RawElement) :=
  t.rules[id]?

end RawTable

def FlatTable.encode (t : FlatTable) : RawTable :=
  ⟨t.rules.map (·.flatMap Element.encode), t.root⟩

namespace Grammar

/-- **The raw form of a grammar.** -/
def encode (g : Grammar) : RawTable :=
  g.flatten.encode

/-- What stands beside the tag of a pair in the dump of a grammar: the name of a rule, a quoted
    character, or nothing. -/
def flatOperand (g : Grammar) (element : Element) (raw : RawElement) : List Char :=
  match element with
  | .rule id => ' ' :: (g.name id).toList
  | _ =>
    if !raw.tag.isChar then []
    else if raw.value.isValidChar then ' ' :: quoted (Char.ofNat raw.value)
    else ' ' :: decimal raw.value

/-- An element in the dump of a grammar: its pairs, each between brackets. -/
def flatElement (g : Grammar) (element : Element) : List Char :=
  element.encode.flatMap fun raw =>
    ' ' :: '[' :: raw.tag.name.toList ++ g.flatOperand element raw ++ [']']

/-- **The dump of a grammar**: one line for each rule, with its pairs between brackets. -/
def flatText (g : Grammar) : String :=
  let lines := g.flatten.rules.mapIdx fun id elements =>
    (g.name id).toList ++ [' ', ':', ':', '='] ++ elements.flatMap g.flatElement ++ ['\n']
  String.ofList lines.flatten

end Grammar

end Bnf
