import Bnf.CharSet
import Bnf.Text.Span

/-!
# Tokens of a grammar text

## Main definitions

- `Bounds` — how often something is repeated
- `TokenKind` — a token without its place
- `Token` — a token and the span it is written in
- `TokenKind.describe` — what messages call a token
-/

namespace Bnf

/-- How often a term is repeated: `min` times at least, and `max` times at most if there is a
    greatest count. -/
structure Bounds where
  min : Nat
  max : Option Nat
deriving DecidableEq

namespace Bounds

/-- The count that limits apply to: the greatest count, or the least if there is no greatest. -/
def count (b : Bounds) : Nat :=
  b.max.getD b.min

/-- Whether the least count is above the greatest. -/
def isInverted (b : Bounds) : Bool :=
  match b.max with
  | none => false
  | some max => max < b.min

end Bounds

/-- A token without its place. Line breaks are tokens; blanks and comments are not. -/
inductive TokenKind where
  | name (text : String)
  /-- The characters between double quotes, without escapes. -/
  | literal (chars : List Char)
  | set (chars : CharSet)
  | any
  /-- The sign between the name of a rule and its alternatives. -/
  | define
  | bar
  | openParen
  | closeParen
  | question
  | star
  | plus
  | counts (bounds : Bounds)
  | newline
deriving DecidableEq

namespace TokenKind

def describe : TokenKind → String
  | name text => s!"'{text}'"
  | literal _ => "string literal"
  | set _ => "character class"
  | any => "'.'"
  | define => "'::='"
  | bar => "'|'"
  | openParen => "'('"
  | closeParen => "')'"
  | question => "'?'"
  | star => "'*'"
  | plus => "'+'"
  | counts _ => "repetition"
  | newline => "newline"

def bounds? : TokenKind → Option Bounds
  | question => some ⟨0, some 1⟩
  | star => some ⟨0, none⟩
  | plus => some ⟨1, none⟩
  | counts bounds => some bounds
  | _ => none

end TokenKind

/-- A token and the span it is written in. -/
structure Token where
  kind : TokenKind
  span : Span
deriving DecidableEq

end Bnf
