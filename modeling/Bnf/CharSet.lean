/-!
# Sets of characters

A terminal of a grammar is a set of characters, written as a list of ranges that may be negated.
The negated empty list is the set of all characters.

## Main definitions

- `CharRange` — the characters between two, both included
- `CharSet` — a list of ranges, or all characters outside of them
- `CharSet.accepts` — membership
-/

namespace Bnf

/-- The characters from `start` to `stop`, both included. -/
structure CharRange where
  start : Char
  stop : Char
deriving DecidableEq

namespace CharRange

def single (c : Char) : CharRange :=
  ⟨c, c⟩

def isSingle (r : CharRange) : Bool :=
  r.start = r.stop

def contains (r : CharRange) (c : Char) : Bool :=
  r.start ≤ c && c ≤ r.stop

end CharRange

/-- A set of characters: the union of `ranges`, or its complement if `negated`. The order of the
    ranges is that of the source. -/
structure CharSet where
  negated : Bool
  ranges : List CharRange
deriving DecidableEq

namespace CharSet

def single (c : Char) : CharSet :=
  ⟨false, [.single c]⟩

def any : CharSet :=
  ⟨true, []⟩

/-- The set of some ranges. A set that is not negated needs one range at least. -/
def ofRanges? (negated : Bool) (ranges : List CharRange) : Option CharSet :=
  if negated || !ranges.isEmpty then some ⟨negated, ranges⟩ else none

/-- Whether this is the set of all characters, in its written form. -/
def isAny (s : CharSet) : Bool :=
  s.negated && s.ranges.isEmpty

/-- The character of a set that is written as a single one. -/
def single? (s : CharSet) : Option Char :=
  match s.negated, s.ranges with
  | false, [r] => if r.isSingle then some r.start else none
  | _, _ => none

def accepts (s : CharSet) (c : Char) : Bool :=
  s.ranges.any (·.contains c) != s.negated

end CharSet

end Bnf
