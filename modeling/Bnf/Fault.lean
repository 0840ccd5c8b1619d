import Bnf.Text.LineMap
import Bnf.Text.Quoted

/-!
# What can be wrong with a grammar text

A text is refused for one cause, at one place. The cause keeps what its message needs; the wording
is in one function per kind of cause.

## Main definitions

- `LexicalFault` — the text cannot be cut into tokens
- `GrammarFault` — the tokens do not form a grammar that the options allow
- `Fault` — any of these, or a rule that is mentioned and never defined
- `ParseError` — a fault together with the byte offset it is reported at
-/

namespace Bnf

/-- Why a text cannot be cut into tokens. -/
inductive LexicalFault where
  | unterminatedLiteral
  | unterminatedClass
  | unterminatedEscape
  /-- A backslash is followed by a character that starts no escape. -/
  | unknownEscape (c : Char)
  /-- A numeric escape has fewer hexadecimal digits than it needs. -/
  | shortHexEscape (digits : Nat)
  | invalidCodePoint (value : Nat)
  /-- The ends of a character range are in the wrong order. -/
  | invertedRange (start stop : Char)
  | emptyClass
  | malformedRepetition
  | unexpectedCharacter (c : Char)
  /-- The text has so many bytes that not each of them has an offset. -/
  | sourceTooLarge (bytes : Nat)
deriving DecidableEq

/-- Why a sequence of tokens is not a grammar that the options allow. -/
inductive GrammarFault where
  /-- A line starts with something else than the name of a rule. -/
  | expectedRuleName (found : String)
  | expectedDefine (name found : String)
  | emptyAlternative
  | unclosedGroup
  | unmatchedParen
  /-- A rule is followed by something else on the same line. -/
  | trailingInput (found : String)
  | expectedTerm (found : String)
  | emptyRepetition
  /-- The least count of a repetition is above its greatest. -/
  | invertedBounds (min max : Nat)
  | repetitionTooLarge (count limit : Nat)
  | nestingTooDeep (limit : Nat)
  | duplicateRule (name : String)
  | reservedName (name : String)
  | noRules
  /-- The rule that was asked for as the root does not exist. -/
  | missingRoot (name : String)
  /-- A rule can reach itself before it has read a character, and this is not allowed. -/
  | leftRecursion (name : String)
deriving DecidableEq

/-- Why a text is refused. -/
inductive Fault where
  | lexical (fault : LexicalFault)
  | grammar (fault : GrammarFault)
  | undefinedRule (name : String)
deriving DecidableEq

/-- A fault and the byte offset it is reported at. -/
structure ParseError where
  fault : Fault
  offset : Nat
deriving DecidableEq

def LexicalFault.message : LexicalFault → String
  | unterminatedLiteral => "unterminated string literal"
  | unterminatedClass => "unterminated character class"
  | unterminatedEscape => "unterminated escape sequence"
  | unknownEscape c => "unknown escape sequence '\\" ++ String.singleton c ++ "'"
  | shortHexEscape digits => s!"numeric escape expects {digits} hex digits"
  | invalidCodePoint value =>
    "escape produces invalid code point U+" ++ String.ofList (upperHex 0 value)
  | invertedRange start stop =>
    "inverted character range " ++ String.ofList (quoted start ++ '-' :: quoted stop)
  | emptyClass => "empty character class"
  | malformedRepetition =>
    "malformed repetition, expected '\x7bm\x7d', '\x7bm,\x7d' or '\x7bm,n\x7d'"
  | unexpectedCharacter c => "unexpected character " ++ String.ofList (quoted c)
  | sourceTooLarge bytes =>
    s!"source of {bytes} bytes is too large, offsets are limited to 32 bits"

/-- The wording of a fault in the order of tokens. -/
def GrammarFault.message : GrammarFault → String
  | expectedRuleName found => s!"expected a rule name, found {found}"
  | expectedDefine name found => s!"expected '::=' after rule name '{name}', found {found}"
  | emptyAlternative => "empty alternative, use \"\" to match nothing"
  | unclosedGroup => "unclosed '('"
  | unmatchedParen => "unmatched ')'"
  | trailingInput found => s!"expected newline or end of input, found {found}"
  | expectedTerm found =>
    s!"expected a literal, character class, rule name or group, found {found}"
  | emptyRepetition => "repetition of an empty expression"
  | invertedBounds min max => s!"invalid repetition bounds \x7b{min},{max}\x7d"
  | repetitionTooLarge count limit => s!"repetition count {count} exceeds the limit of {limit}"
  | nestingTooDeep limit => s!"groups nested deeper than the limit of {limit}"
  | duplicateRule name => s!"rule '{name}' is defined more than once"
  | reservedName name => s!"rule name '{name}' uses the reserved prefix '_'"
  | noRules => "grammar contains no rules"
  | missingRoot name => s!"root rule '{name}' is not defined"
  | leftRecursion name => s!"rule '{name}' is left recursive"

def Fault.message : Fault → String
  | lexical fault => fault.message
  | grammar fault => fault.message
  | undefinedRule name => s!"rule '{name}' is referenced but never defined"

namespace ParseError

/-- The location of an error in the text that it was found in. -/
def location (e : ParseError) (source : String) : Location :=
  Location.ofOffset source e.offset

/-- The full message of an error, `line:column: wording`. -/
def message (e : ParseError) (source : String) : String :=
  s!"{(e.location source).render}: {e.fault.message}"

end ParseError

end Bnf
