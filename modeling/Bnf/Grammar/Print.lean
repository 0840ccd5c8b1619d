import Bnf.Escape
import Bnf.Grammar

/-!
# Writing a grammar as text

A grammar is written with one rule on each line, in the order of the identities. Characters that
follow one another in an alternative are written as one literal. Helper rules are written like all
others, under their own names.

## Main definitions

- `Body.pieces` — an alternative as literals, sets and names
- `Grammar.text` — the text of a grammar
-/

namespace Bnf

/-- A part of an alternative that is written as one token. -/
inductive Piece where
  | literal (chars : List Char)
  | set (chars : CharSet)
  | rule (id : RuleId)
deriving DecidableEq

/-- The character of a symbol that stands for a single one. -/
def Symbol.single? : Symbol → Option Char
  | chars set => set.single?
  | rule _ => none

def Symbol.piece : Symbol → Piece
  | chars set => .set set
  | rule id => .rule id

/-- Puts a character in front of some pieces, into the first of them if that is a literal. -/
def Piece.prepend (c : Char) : List Piece → List Piece
  | .literal chars :: pieces => .literal (c :: chars) :: pieces
  | pieces => .literal [c] :: pieces

/-- An alternative in pieces: characters next to each other make one literal. -/
def Body.pieces : Body → List Piece
  | [] => []
  | symbol :: rest =>
    match symbol.single? with
    | some c => Piece.prepend c (Body.pieces rest)
    | none => symbol.piece :: Body.pieces rest

namespace Grammar

def writePiece (g : Grammar) : Piece → List Char
  | .literal chars => writeLiteral chars
  | .set set => writeSet set
  | .rule id => (g.name id).toList

/-- The text of an alternative, with a space before each piece. The empty alternative is written as
    an empty literal. -/
def writeBody (g : Grammar) (body : Body) : List Char :=
  if body.isEmpty then ' ' :: writeLiteral []
  else (Body.pieces body).flatMap fun piece => ' ' :: g.writePiece piece

def writeRule (g : Grammar) (name : String) (rule : Rule) : List Char :=
  name.toList ++ [' ', ':', ':', '='] ++
    [' ', '|'].intercalate (rule.alternatives.map g.writeBody) ++ ['\n']

/-- **The text of a grammar**, one rule on each line. -/
def text (g : Grammar) : String :=
  String.ofList (g.namedRules.flatMap fun (name, rule) => g.writeRule name rule)

end Grammar

instance : ToString Grammar :=
  ⟨Grammar.text⟩

end Bnf
