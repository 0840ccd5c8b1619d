/-!
# What a reader of grammars may be told

## Main definitions

- `LeftRecursion` — what to do about left recursive rules
- `ParseOptions` — all that may be set
-/

namespace Bnf

/-- What to do about a rule that can reach itself before it has read a character. -/
inductive LeftRecursion where
  | allow
  | warn
  | reject
deriving DecidableEq

/-- The options of a reader, with their defaults. -/
structure ParseOptions where
  /-- Whether names may start with an underscore. -/
  allowReservedNames : Bool := false
  /-- The name of the root. Without one the first rule is the root. -/
  root : Option String := none
  leftRecursion : LeftRecursion := .warn
  /-- The greatest count of a repetition. -/
  maxRepetition : UInt32 := 1024
  /-- How many groups may be open at once. -/
  maxNesting : UInt32 := 256
deriving DecidableEq

/-- The same options for a text that was printed from a grammar, which names its helper rules. -/
def ParseOptions.reparse (o : ParseOptions) : ParseOptions :=
  { o with allowReservedNames := true }

end Bnf
